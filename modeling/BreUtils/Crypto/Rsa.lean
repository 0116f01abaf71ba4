/-
# Keys and ciphertexts of `crypto/RSA.hpp`

An `RSA` object holds one key of OpenSSL, or none.  Its functions are chains of calls,
each of which may fail; whoever calls them sees an empty text or vector then, and a key
that could not be read leaves the old one in its place.

What OpenSSL does is a parameter, and so is what is left to chance in a call, such as
the padding of a plaintext or whether memory can be had.  A `KeyPair` is a key as it is
generated, and what is known of it: the text of its public half reads back as that
half, and what the public half encrypts, the pair does not decrypt to anything else.
-/

import BreUtils.Cpp.Text

namespace BreUtils
namespace Crypto

open Cpp

/-- What the calls of OpenSSL return that `RSA.hpp` makes.  An encryption or a decryption is told
how many bytes there is room for, and writes some. -/
structure RsaSSL (Key Chance : Type*) where
  /-- `EVP_PKEY_size`. -/
  size : Key → ℕ
  /-- `PEM_write_bio_PUBKEY`. -/
  writePublic : Key → Bytes
  /-- `PEM_read_bio_PUBKEY`. -/
  readPublic : Bytes → Option Key
  /-- `EVP_PKEY_CTX_new`. -/
  ctxNew : Chance → Key → Bool
  encryptInit : Chance → Key → ℤ
  encrypt : Chance → Key → ℕ → Bytes → ℤ × Bytes
  decryptInit : Chance → Key → ℤ
  decrypt : Chance → Key → ℕ → Bytes → ℤ × Bytes

/-- `RSA`. -/
structure RSA (Key : Type*) where
  /-- `m_key`; none is the null pointer. -/
  key : Option Key
  deriving DecidableEq

variable {Key Chance : Type*}

namespace RSA

/-- `SetPublicKey`.  A text that cannot be read leaves the key as it was. -/
def setPublicKey (ssl : RsaSSL Key Chance) (r : RSA Key) (publicKey : Bytes) : RSA Key :=
  match ssl.readPublic publicKey with
  | none => r
  | some key => ⟨some key⟩

/-- `GetPublicKey`.  Of no key nothing is written. -/
def getPublicKey (ssl : RsaSSL Key Chance) (r : RSA Key) : Bytes :=
  match r.key with
  | none => []
  | some key => ssl.writePublic key

/-- The chain of calls that `Encrypt` and `Decrypt` are: a context, its set-up, and the bytes. -/
def crypt (ctx : Bool) (init : ℤ) (final : ℤ × Bytes) : Bytes :=
  if !ctx then []
  else if init ≤ 0 then []
  else if final.1 ≤ 0 then []
  else final.2

/-- `Encrypt`, of a vector as of a string. -/
def encrypt (ssl : RsaSSL Key Chance) (chance : Chance) (r : RSA Key) (plaintext : Bytes) :
    Bytes :=
  match r.key with
  | none => []
  | some key =>
      crypt (ssl.ctxNew chance key) (ssl.encryptInit chance key)
        (ssl.encrypt chance key (ssl.size key) plaintext)

/-- `Decrypt` and `DecryptStr`. -/
def decrypt (ssl : RsaSSL Key Chance) (chance : Chance) (r : RSA Key) (ciphertext : Bytes) :
    Bytes :=
  match r.key with
  | none => []
  | some key =>
      crypt (ssl.ctxNew chance key) (ssl.decryptInit chance key)
        (ssl.decrypt chance key (ssl.size key) ciphertext)

/-- Nothing comes out, or the last call succeeded. -/
theorem crypt_cases (ctx : Bool) (init : ℤ) (final : ℤ × Bytes) :
    crypt ctx init final = [] ∨ 0 < final.1 ∧ crypt ctx init final = final.2 := by
  unfold crypt
  split_ifs with hctx hinit hfinal
  · exact Or.inl rfl
  · exact Or.inl rfl
  · exact Or.inl rfl
  · exact Or.inr ⟨Int.not_le.1 hfinal, rfl⟩

end RSA

/-- A key as `GenerateKeys` leaves it, its public half, and what is documented of them. -/
structure KeyPair (ssl : RsaSSL Key Chance) where
  pair : Key
  publicHalf : Key
  read_write : ssl.readPublic (ssl.writePublic pair) = some publicHalf
  /-- A decryption that succeeds gives the plaintext back. -/
  decrypt_encrypt : ∀ chance chance' plaintext,
    0 < (ssl.encrypt chance publicHalf (ssl.size publicHalf) plaintext).1 →
    0 < (ssl.decrypt chance' pair (ssl.size pair)
      (ssl.encrypt chance publicHalf (ssl.size publicHalf) plaintext).2).1 →
    (ssl.decrypt chance' pair (ssl.size pair)
      (ssl.encrypt chance publicHalf (ssl.size publicHalf) plaintext).2).2 = plaintext
  /-- Neither a text nor a ciphertext is longer than an `int` can say. -/
  text_short : (ssl.writePublic pair).length < 2 ^ 31
  ciphertext_short : ∀ chance plaintext,
    (ssl.encrypt chance publicHalf (ssl.size publicHalf) plaintext).2.length < 2 ^ 31

namespace KeyPair

variable {ssl : RsaSSL Key Chance} (pair : KeyPair ssl)

/-- **What the public half encrypts, the pair decrypts**, unless the decryption fails and nothing
comes out. -/
theorem decrypt_of_encrypt {chance chance' : Chance} {plaintext : Bytes}
    (h : (RSA.mk (some pair.publicHalf)).encrypt ssl chance plaintext ≠ []) :
    (RSA.mk (some pair.pair)).decrypt ssl chance'
        ((RSA.mk (some pair.publicHalf)).encrypt ssl chance plaintext) = plaintext ∨
      (RSA.mk (some pair.pair)).decrypt ssl chance'
        ((RSA.mk (some pair.publicHalf)).encrypt ssl chance plaintext) = [] := by
  obtain ⟨hencrypted, hciphertext⟩ := (RSA.crypt_cases _ _ _).resolve_left h
  replace hciphertext : (RSA.mk (some pair.publicHalf)).encrypt ssl chance plaintext = _ :=
    hciphertext
  rw [hciphertext]
  refine (RSA.crypt_cases _ _ _).symm.imp_left ?_
  rintro ⟨hdecrypted, hplaintext⟩
  exact hplaintext.trans (pair.decrypt_encrypt chance chance' plaintext hencrypted hdecrypted)

theorem length_encrypt_lt (chance : Chance) (plaintext : Bytes) :
    ((RSA.mk (some pair.publicHalf)).encrypt ssl chance plaintext).length < 2 ^ 31 := by
  rcases RSA.crypt_cases (ssl.ctxNew chance pair.publicHalf)
    (ssl.encryptInit chance pair.publicHalf)
    (ssl.encrypt chance pair.publicHalf (ssl.size pair.publicHalf) plaintext) with h | ⟨-, h⟩
  · show (RSA.crypt _ _ _).length < _
    rw [h]
    exact Nat.two_pow_pos 31
  · show (RSA.crypt _ _ _).length < _
    rw [h]
    exact pair.ciphertext_short chance plaintext

end KeyPair

end Crypto
end BreUtils
