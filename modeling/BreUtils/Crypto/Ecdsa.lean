/-
# Signing and verifying of `crypto/Ecdsa.hpp`

`Sign` asks OpenSSL for the size of a signature, makes a vector of that size, and has the
signature written into it.  The size that it is told is a bound: a signature in DER takes
as many bytes as its numbers need, and how many it took the second call says in `siglen`.
`Sign` does not look there again, so a shorter signature is returned with the zeros behind
it that the vector was made of, and `Verify` hands all of that to OpenSSL.

What OpenSSL does is a parameter, and so is what is left to chance in a call.  `Documented`
is what its documentation says of the two functions that matter here.  With a signature of
the length of the bound `Verify` is true, and with a shorter one it is false
(`verify_sign_iff`).
-/

import BreUtils.Cpp.Text

namespace BreUtils
namespace Crypto

open Cpp

/-- What the calls of OpenSSL return, for a key and data, and by chance.  The result of a call is an
`int`; with `EVP_DigestSignFinal` there is also what it stores in `siglen`, and in the buffer. -/
structure OpenSSL (Key Chance : Type*) where
  mdCtxNew : Chance → Bool
  digestSignInit : Chance → Key → ℤ
  digestSignUpdate : Chance → Key → Bytes → ℤ
  /-- `EVP_DigestSignFinal(mdctx, NULL, &siglen)`. -/
  digestSignBound : Chance → Key → Bytes → ℤ × ℕ
  /-- `EVP_DigestSignFinal(mdctx, signature.data(), &siglen)`. -/
  digestSignFinal : Chance → Key → Bytes → ℤ × Bytes
  digestVerifyInit : Chance → Key → ℤ
  digestVerifyUpdate : Chance → Key → Bytes → ℤ
  digestVerifyFinal : Key → Bytes → Bytes → ℤ

/-- `Ecdsa`. -/
structure Ecdsa (Key : Type*) where
  key : Key

variable {Key Chance : Type*}

namespace Ecdsa

/-- `Sign`: the signature, or the message of the exception.  The bytes that the second call does not
write are zero. -/
def sign (ssl : OpenSSL Key Chance) (chance : Chance) (e : Ecdsa Key) (data : Bytes) :
    Except String Bytes :=
  if !ssl.mdCtxNew chance then .error "Failed to create EVP_MD_CTX"
  else if ssl.digestSignInit chance e.key ≤ 0 ∨ ssl.digestSignUpdate chance e.key data ≤ 0 then
    .error "Failed to initialize or update DigestSign"
  else
    let (bounded, siglen) := ssl.digestSignBound chance e.key data
    if bounded ≤ 0 then .error "Failed to finalize DigestSign"
    else
      let signature : Bytes := List.replicate siglen 0
      let (final, written) := ssl.digestSignFinal chance e.key data
      if final ≤ 0 then .error "Failed to finalize DigestSign"
      else .ok (written ++ signature.drop written.length)

/-- `Verify`. -/
def verify (ssl : OpenSSL Key Chance) (chance : Chance) (e : Ecdsa Key) (data signature : Bytes) :
    Except String Bool :=
  if !ssl.mdCtxNew chance then .error "Failed to create EVP_MD_CTX"
  else
    .ok (ssl.digestVerifyInit chance e.key = 1 ∧ ssl.digestVerifyUpdate chance e.key data = 1 ∧
      ssl.digestVerifyFinal e.key data signature = 1)

end Ecdsa

namespace OpenSSL

/-- What is documented: a signature is no longer than the bound; `EVP_DigestVerifyFinal` accepts it,
and does not accept it with anything behind it. -/
structure Documented (ssl : OpenSSL Key Chance) : Prop where
  bounded : ∀ chance key data, 0 < (ssl.digestSignFinal chance key data).1 →
    (ssl.digestSignFinal chance key data).2.length ≤ (ssl.digestSignBound chance key data).2
  accepts : ∀ chance key data, 0 < (ssl.digestSignFinal chance key data).1 →
    ssl.digestVerifyFinal key data (ssl.digestSignFinal chance key data).2 = 1
  rejects : ∀ chance key data more, 0 < (ssl.digestSignFinal chance key data).1 → more ≠ [] →
    ssl.digestVerifyFinal key data ((ssl.digestSignFinal chance key data).2 ++ more) ≠ 1

/-- The calls of `Verify` before the last one succeed. -/
def Verifies (ssl : OpenSSL Key Chance) (chance : Chance) (key : Key) (data : Bytes) : Prop :=
  ssl.mdCtxNew chance = true ∧ ssl.digestVerifyInit chance key = 1 ∧
    ssl.digestVerifyUpdate chance key data = 1

end OpenSSL

variable {ssl : OpenSSL Key Chance} {chance chance' : Chance} {e : Ecdsa Key}
  {data signature : Bytes}

/-- What `Sign` returns: the signature, and zeros up to the bound. -/
theorem sign_eq_ok (h : e.sign ssl chance data = .ok signature) :
    0 < (ssl.digestSignFinal chance e.key data).1 ∧
      signature = (ssl.digestSignFinal chance e.key data).2 ++
        List.replicate ((ssl.digestSignBound chance e.key data).2 -
          (ssl.digestSignFinal chance e.key data).2.length) 0 := by
  unfold Ecdsa.sign at h
  dsimp only at h
  split_ifs at h with hctx hinit hbound hfinal
  obtain rfl := Except.ok.inj h
  exact ⟨Int.not_le.1 hfinal, by rw [List.drop_replicate]⟩

theorem verify_of_verifies (h : ssl.Verifies chance e.key data) :
    e.verify ssl chance data signature =
      .ok (decide (ssl.digestVerifyFinal e.key data signature = 1)) := by
  obtain ⟨hctx, hinit, hupdate⟩ := h
  simp [Ecdsa.verify, hctx, hinit, hupdate]

/-- **`Verify` is true of what `Sign` returned exactly if the signature had the length of the
bound.** -/
theorem verify_sign_iff (hssl : ssl.Documented) (hsign : e.sign ssl chance data = .ok signature)
    (hverify : ssl.Verifies chance' e.key data) :
    e.verify ssl chance' data signature = .ok true ↔
      (ssl.digestSignFinal chance e.key data).2.length =
        (ssl.digestSignBound chance e.key data).2 := by
  obtain ⟨hfinal, rfl⟩ := sign_eq_ok hsign
  have hbounded := hssl.bounded chance e.key data hfinal
  rw [verify_of_verifies hverify, Except.ok.injEq, decide_eq_true_iff]
  constructor
  · intro haccepted
    by_contra hshort
    refine hssl.rejects chance e.key data _ hfinal ?_ haccepted
    rw [Ne, List.replicate_eq_nil_iff]
    omega
  · intro hlength
    rw [hlength, Nat.sub_self, List.replicate_zero, List.append_nil]
    exact hssl.accepts chance e.key data hfinal

/-- The DER encoding of a signature whose two numbers take `r` and `s` bytes. -/
def der (r s : ℕ) : Bytes :=
  [0x30, UInt8.ofNat (4 + r + s)] ++ ([0x02, UInt8.ofNat r] ++ List.replicate r 0x01) ++
    ([0x02, UInt8.ofNat s] ++ List.replicate s 0x01)

theorem length_der (r s : ℕ) : (der r s).length = 6 + r + s := by
  simp [der]
  omega

/-- Signatures on a curve of 256 bits.  The chance is how many bytes the two numbers take, and what
is verified is a DER sequence that ends where it says. -/
def derSignatures : OpenSSL Unit (Fin 34 × Fin 34) where
  mdCtxNew := fun _ => true
  digestSignInit := fun _ _ => 1
  digestSignUpdate := fun _ _ _ => 1
  digestSignBound := fun _ _ _ => (1, 72)
  digestSignFinal := fun n _ _ => (1, der n.1 n.2)
  digestVerifyInit := fun _ _ => 1
  digestVerifyUpdate := fun _ _ _ => 1
  digestVerifyFinal := fun _ _ signature => match signature with
    | 0x30 :: n :: rest => if rest.length = n.toNat then 1 else 0
    | _ => 0

/-- What is behind the length of a sequence, and whether it ends there. -/
theorem verifyFinal_der (r s : Fin 34) (data more : Bytes) :
    derSignatures.digestVerifyFinal () data (der r s ++ more) = if more = [] then 1 else 0 := by
  have hr := r.isLt
  have hs := s.isLt
  simp only [derSignatures, der, List.cons_append, List.nil_append, List.length_cons,
    List.length_append, List.length_replicate, UInt8.toNat_ofNat']
  refine if_congr ?_ rfl rfl
  rw [← List.length_eq_zero_iff]
  omega

theorem derSignatures_documented : derSignatures.Documented where
  bounded := fun n _ _ _ => by
    have hr := n.1.isLt
    have hs := n.2.isLt
    simp only [derSignatures, length_der]
    omega
  accepts := fun n _ data _ => by
    have hfinal := verifyFinal_der n.1 n.2 data []
    rwa [List.append_nil, if_pos rfl] at hfinal
  rejects := fun n _ data more _ hmore => by
    have hfinal := verifyFinal_der n.1 n.2 data more
    rw [if_neg hmore] at hfinal
    exact hfinal.trans_ne (by decide)

/-- A signature of the full length is verified. -/
theorem verify_sign_full : ∃ signature,
    (Ecdsa.mk ()).sign derSignatures (33, 33) [1, 2, 3] = .ok signature ∧
      (Ecdsa.mk ()).verify derSignatures (0, 0) [1, 2, 3] signature = .ok true :=
  ⟨_, rfl, (verify_sign_iff derSignatures_documented rfl ⟨rfl, rfl, rfl⟩).2 rfl⟩

/-- A signature that is one byte shorter is not. -/
theorem verify_sign_short : ¬ ∀ (chance chance' : Fin 34 × Fin 34) (data signature : Bytes),
    (Ecdsa.mk ()).sign derSignatures chance data = .ok signature →
    derSignatures.Verifies chance' () data →
    (Ecdsa.mk ()).verify derSignatures chance' data signature = .ok true := by
  intro h
  have hverify := h (33, 32) (0, 0) [1, 2, 3] _ rfl ⟨rfl, rfl, rfl⟩
  rw [verify_of_verifies ⟨rfl, rfl, rfl⟩, Except.ok.injEq, decide_eq_true_iff] at hverify
  have hpadded := verifyFinal_der 33 32 [1, 2, 3] [0]
  rw [if_neg (by simp)] at hpadded
  exact absurd (hpadded.symm.trans hverify) (by simp)

end Crypto
end BreUtils
