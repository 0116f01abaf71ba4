/-
# The `AES` of `crypto/AES.hpp`

An object has a key and an initial vector, and two contexts of OpenSSL, one for each direction.
A context is given a cipher and the key when the key is set, and the vector anew with every call of
`Encrypt` or `Decrypt`.  `SetKey` first resets both contexts and takes the key over, and only then
looks whether there is a cipher for its length; so when it throws, the object has that key and no
cipher.

Programs set keys and vectors of their objects as they like, and some of it throws.  Still an
object never encrypts with anything but the key that `GetKey` returns, and not at all when that is
none for AES (`Keyed.of_encrypt`).  So two objects with one key and one vector understand each
other, whatever was done with them before (`decrypts_encrypted`).

What OpenSSL does is a parameter, and so is what is left to chance in a call.  Where a vector is
too short the code reads past its end, and the run ends there.
-/

import BreUtils.Cpp.Text
import BreUtils.Lib.Transition
import Mathlib.Logic.Function.Basic

namespace BreUtils
namespace Crypto

open Cpp Lib

/-- What the calls of OpenSSL return that `AES.hpp` makes. -/
structure AesSSL (Chance : Type*) where
  /-- Both calls of `EVP_CIPHER_CTX_new`. -/
  ctxNew : Chance → Bool
  randBytes : Chance → ℕ → Option Bytes
  /-- `EVP_EncryptInit_ex`, on a context that has a cipher or is given one. -/
  encryptInit : Chance → Bool
  encryptUpdate : Chance → Bool
  encryptFinal : Chance → Bool
  decryptInit : Chance → Bool
  decryptUpdate : Chance → Bool
  decryptFinal : Chance → Bool
  /-- AES in CFB mode: key, initial vector and data. -/
  cfbEncrypt : Bytes → Bytes → Bytes → Bytes
  cfbDecrypt : Bytes → Bytes → Bytes → Bytes

/-- How a call ends that does not return. -/
inductive Failure where
  | throws (what : String)
  /-- It reads past the end of a vector. -/
  | undefined
  deriving DecidableEq

/-- `AES`.  A context is the key that it was given, none after a reset. -/
structure AES where
  encryptCtx : Option Bytes
  decryptCtx : Option Bytes
  iv : Bytes
  key : Bytes
  deriving DecidableEq

namespace AES

variable {Chance : Type*} (ssl : AesSSL Chance)

/-- `EVP_CIPHER_CTX_iv_length`, of each of the three ciphers. -/
def ivLength : ℕ := 16

/-- The lengths that `setKey` has a cipher for. -/
def Supported (key : Bytes) : Prop :=
  key.length * 8 = 128 ∨ key.length * 8 = 192 ∨ key.length * 8 = 256

instance (key : Bytes) : Decidable (Supported key) := inferInstanceAs (Decidable (_ ∨ _ ∨ _))

/-- `setKey`.  `iv` is what `m_iv.data()` points to, none while the vector is new. -/
def setKey (chance : Chance) (a : AES) (iv : Option Bytes) : AES × Except Failure Unit :=
  if ¬ Supported a.key then (a, .error (.throws "Unsupported key length"))
  else if iv.any fun iv => iv.length < ivLength then (a, .error .undefined)
  else if !ssl.encryptInit chance then
    (a, .error (.throws "Failed to reinitialize encryption context with new key"))
  else if !ssl.decryptInit chance then
    ({ a with encryptCtx := some a.key },
      .error (.throws "Failed to reinitialize decryption context with new key"))
  else ({ a with encryptCtx := some a.key, decryptCtx := some a.key }, .ok ())

/-- `GenerateKey`. -/
def generateKey (chance : Chance) (keyLengthBits : ℤ) : Except Failure Bytes :=
  if keyLengthBits.tdiv 8 < 0 then .error (.throws "vector::_M_default_append")
  else
    match ssl.randBytes chance (keyLengthBits.tdiv 8).toNat with
    | none => .error (.throws "Failed to generate key")
    | some key => .ok key

/-- The vector that is made of a pointer to these bytes. -/
def copyKey (key : Bytes) (keyLengthBits : ℤ) : Except Failure Bytes :=
  if 0 ≤ keyLengthBits.tdiv 8 ∧ keyLengthBits.tdiv 8 ≤ key.length then
    .ok (key.take (keyLengthBits.tdiv 8).toNat)
  else .error .undefined

/-- The constructor; `key` is none for the null pointer. -/
def create (chance chance' : Chance) (keyLengthBits : ℤ) (key : Option Bytes) :
    Except Failure AES :=
  if !ssl.ctxNew chance then .error (.throws "Failed to create EVP_CIPHER_CTX")
  else
    match key.elim (generateKey ssl chance keyLengthBits) fun key => copyKey key keyLengthBits with
    | .error e => .error e
    | .ok key =>
        match setKey ssl chance ⟨none, none, [], key⟩ none with
        | (_, .error e) => .error e
        | (a, .ok ()) =>
            match ssl.randBytes chance' ivLength with
            | none => .error (.throws "Failed to generate IV")
            | some iv => .ok { a with iv }

/-- `SetIV`. -/
def setIV (a : AES) (iv : Bytes) : AES := { a with iv }

/-- `SetKey`: the object after it, also where it throws. -/
def SetKey (chance : Chance) (a : AES) (key : Bytes) : AES × Except Failure Unit :=
  setKey ssl chance { a with encryptCtx := none, decryptCtx := none, key } (some a.iv)

/-- What `Encrypt` and `Decrypt` have in common: the context is given the vector, then the data,
whose length becomes an `int`.  What OpenSSL does with a negative one is nowhere said. -/
def crypt (key iv : Bytes) (init update final : Bool) (cipher : Bytes → Bytes → Bytes → Bytes)
    (initWhat updateWhat finalWhat : String) (data : Bytes) : Except Failure Bytes :=
  if iv.length < ivLength then .error .undefined
  else if !init then .error (.throws initWhat)
  else if (Int32.ofNat data.length).toInt < 0 then .error .undefined
  else if !update then .error (.throws updateWhat)
  else if !final then .error (.throws finalWhat)
  else .ok (cipher key (iv.take ivLength) (data.take (Int32.ofNat data.length).toInt.toNat))

/-- `Encrypt`, all three overloads.  It asks its context for the block size first, also a context
without a cipher. -/
def encrypt (chance : Chance) (a : AES) (plaintext : Bytes) : Except Failure Bytes :=
  match a.encryptCtx with
  | none => .error .undefined
  | some key =>
      crypt key a.iv (ssl.encryptInit chance) (ssl.encryptUpdate chance) (ssl.encryptFinal chance)
        ssl.cfbEncrypt "Failed to initialize encryption" "Failed to encrypt data"
        "Failed to finalize encryption" plaintext

/-- `Decrypt` and `DecryptToStr`. -/
def decrypt (chance : Chance) (a : AES) (ciphertext : Bytes) : Except Failure Bytes :=
  match a.decryptCtx with
  | none => .error (.throws "Failed to initialize decryption")
  | some key =>
      crypt key a.iv (ssl.decryptInit chance) (ssl.decryptUpdate chance) (ssl.decryptFinal chance)
        ssl.cfbDecrypt "Failed to initialize decryption" "Failed to decrypt data"
        "Failed to finalize decryption" ciphertext

/-! ### Many objects -/

/-- A step of a program with objects: a call on the object of this name. -/
inductive Action (ι Chance : Type*) where
  | create (i : ι) (chance chance' : Chance) (keyLengthBits : ℤ) (key : Option Bytes)
  | destroy (i : ι)
  | setIV (i : ι) (iv : Bytes)
  | setKey (i : ι) (chance : Chance) (key : Bytes)
  | encrypt (i : ι) (chance : Chance) (plaintext : Bytes)
  | decrypt (i : ι) (chance : Chance) (ciphertext : Bytes)

variable {ι : Type*}

/-- A call that leaves the objects as they are, unless it is the end of the run. -/
def unchanged (s : ι → Option AES) : Except Failure Bytes → Option (ι → Option AES)
  | .error .undefined => none
  | _ => some s

variable [DecidableEq ι]

/-- **One step.**  A constructor that throws leaves no object, and `SetKey` one that it has
changed. -/
def step (s : ι → Option AES) : Action ι Chance → Option (ι → Option AES)
  | .create i chance chance' keyLengthBits key =>
      match s i with
      | some _ => none
      | none =>
          match create ssl chance chance' keyLengthBits key with
          | .ok a => some (Function.update s i (some a))
          | .error (.throws _) => some s
          | .error .undefined => none
  | .destroy i => some (Function.update s i none)
  | .setIV i iv => (s i).map fun a => Function.update s i (some (a.setIV iv))
  | .setKey i chance key =>
      (s i).bind fun a =>
        match SetKey ssl chance a key with
        | (_, .error .undefined) => none
        | (a', _) => some (Function.update s i (some a'))
  | .encrypt i chance plaintext => (s i).bind fun a => unchanged s (encrypt ssl chance a plaintext)
  | .decrypt i chance ciphertext =>
      (s i).bind fun a => unchanged s (decrypt ssl chance a ciphertext)

/-! ### The key of an object is the key of its contexts -/

/-- A context has no cipher, or the one for the key. -/
structure Keyed (a : AES) : Prop where
  encryptCtx : ∀ key, a.encryptCtx = some key → key = a.key ∧ Supported a.key
  decryptCtx : ∀ key, a.decryptCtx = some key → key = a.key ∧ Supported a.key

variable {ssl} {chance chance' : Chance} {a b : AES}

theorem setKey_keyed (iv : Option Bytes) (henc : a.encryptCtx = none) (hdec : a.decryptCtx = none) :
    (setKey ssl chance a iv).1.Keyed := by
  have hreset : a.Keyed := ⟨by simp [henc], by simp [hdec]⟩
  by_cases hsupported : Supported a.key
  · have hkeyed (key : Bytes) (h : some a.key = some key) : key = a.key ∧ Supported a.key :=
      ⟨(Option.some.inj h).symm, hsupported⟩
    simp only [setKey, if_neg (not_not.2 hsupported)]
    split_ifs
    · exact hreset
    · exact hreset
    · exact ⟨hkeyed, by simp [hdec]⟩
    · exact ⟨hkeyed, hkeyed⟩
  · rw [setKey, if_pos hsupported]
    exact hreset

theorem create_keyed {keyLengthBits : ℤ} {key : Option Bytes}
    (h : create ssl chance chance' keyLengthBits key = .ok a) : a.Keyed := by
  unfold create at h
  split_ifs at h
  split at h
  · cases h
  · rename_i k _
    have hset : (setKey ssl chance ⟨none, none, [], k⟩ none).1.Keyed := setKey_keyed none rfl rfl
    split at h
    · cases h
    · rename_i a' heq
      rw [heq] at hset
      split at h
      · cases h
      · obtain rfl := Except.ok.inj h
        exact ⟨hset.encryptCtx, hset.decryptCtx⟩

theorem SetKey_keyed (key : Bytes) : (SetKey ssl chance a key).1.Keyed :=
  setKey_keyed (some a.iv) rfl rfl

/-- Of every object that there is. -/
def Inv (s : ι → Option AES) : Prop := ∀ i a, s i = some a → a.Keyed

theorem inv_update {s : ι → Option AES} {i : ι} {o : Option AES} (hs : Inv s)
    (ho : ∀ a, o = some a → a.Keyed) : Inv (Function.update s i o) := by
  intro j a hj
  rw [Function.update_apply] at hj
  split_ifs at hj
  · exact ho a hj
  · exact hs j a hj

omit [DecidableEq ι] in
theorem eq_of_unchanged {s t : ι → Option AES} {result : Except Failure Bytes}
    (h : unchanged s result = some t) : t = s := by
  unfold unchanged at h
  split at h
  · cases h
  · exact (Option.some.inj h).symm

/-- What one step keeps. -/
theorem step_inv {s t : ι → Option AES} {action : Action ι Chance} (hs : Inv s)
    (h : step ssl s action = some t) : Inv t := by
  cases action with
  | create i chance chance' keyLengthBits key =>
      simp only [step] at h
      split at h
      · cases h
      · split at h
        · rename_i a hcreate
          obtain rfl := Option.some.inj h
          refine inv_update hs ?_
          rintro _ ⟨⟩
          exact create_keyed hcreate
        · exact Option.some.inj h ▸ hs
        · cases h
  | destroy i =>
      obtain rfl := Option.some.inj h
      exact inv_update hs (by rintro _ ⟨⟩)
  | setIV i iv =>
      obtain ⟨a, ha, rfl⟩ := Option.map_eq_some_iff.1 h
      refine inv_update hs ?_
      rintro _ ⟨⟩
      exact ⟨(hs i a ha).encryptCtx, (hs i a ha).decryptCtx⟩
  | setKey i chance key =>
      obtain ⟨a, -, h⟩ := Option.bind_eq_some_iff.1 h
      have hset : (SetKey ssl chance a key).1.Keyed := SetKey_keyed key
      split at h
      · cases h
      · rename_i a' heq
        rw [heq] at hset
        obtain rfl := Option.some.inj h
        refine inv_update hs ?_
        rintro _ ⟨⟩
        exact hset
  | encrypt i chance plaintext =>
      obtain ⟨a, -, h⟩ := Option.bind_eq_some_iff.1 h
      exact eq_of_unchanged h ▸ hs
  | decrypt i chance ciphertext =>
      obtain ⟨a, -, h⟩ := Option.bind_eq_some_iff.1 h
      exact eq_of_unchanged h ▸ hs

/-- Whatever a program does, its contexts have the keys of their objects. -/
theorem run_inv {s : ι → Option AES} {as : List (Action ι Chance)}
    (h : Transition.run (step ssl) (fun _ => none) as = some s) : Inv s :=
  Transition.run_invariant (I := Inv) (fun _ _ _ hs h => step_inv hs h) (by rintro i a ⟨⟩) h

/-! ### Two objects with one key -/

theorem crypt_eq_ok {key iv data result : Bytes} {init update final : Bool}
    {cipher : Bytes → Bytes → Bytes → Bytes} {initWhat updateWhat finalWhat : String} :
    crypt key iv init update final cipher initWhat updateWhat finalWhat data = .ok result ↔
      ivLength ≤ iv.length ∧ init ∧ 0 ≤ (Int32.ofNat data.length).toInt ∧ update ∧ final ∧
        cipher key (iv.take ivLength) (data.take (Int32.ofNat data.length).toInt.toNat) =
          result := by
  unfold crypt
  split_ifs <;> simp_all

/-- The length of data that an `int` can count. -/
theorem take_length {data : Bytes} (h : data.length < 2 ^ 31) :
    data.take (Int32.ofNat data.length).toInt.toNat = data := by
  rw [Int32.toInt_ofNat_of_lt h, Int.toNat_natCast, List.take_length]

namespace Keyed

/-- An object encrypts with the key that `GetKey` returns, which then is one for AES, and with the
first bytes of what `GetIV` returns. -/
theorem of_encrypt (ha : a.Keyed) {plaintext ciphertext : Bytes}
    (h : encrypt ssl chance a plaintext = .ok ciphertext) :
    Supported a.key ∧ ivLength ≤ a.iv.length ∧
      ciphertext = ssl.cfbEncrypt a.key (a.iv.take ivLength)
        (plaintext.take (Int32.ofNat plaintext.length).toInt.toNat) := by
  unfold encrypt at h
  split at h
  · cases h
  · rename_i key hkey
    obtain ⟨rfl, hsupported⟩ := ha.encryptCtx key hkey
    obtain ⟨hiv, -, -, -, -, hcipher⟩ := crypt_eq_ok.1 h
    exact ⟨hsupported, hiv, hcipher.symm⟩

/-- And so it decrypts. -/
theorem of_decrypt (ha : a.Keyed) {plaintext ciphertext : Bytes}
    (h : decrypt ssl chance a ciphertext = .ok plaintext) :
    Supported a.key ∧ ivLength ≤ a.iv.length ∧
      plaintext = ssl.cfbDecrypt a.key (a.iv.take ivLength)
        (ciphertext.take (Int32.ofNat ciphertext.length).toInt.toNat) := by
  unfold decrypt at h
  split at h
  · cases h
  · rename_i key hkey
    obtain ⟨rfl, hsupported⟩ := ha.decryptCtx key hkey
    obtain ⟨hiv, -, -, -, -, hcipher⟩ := crypt_eq_ok.1 h
    exact ⟨hsupported, hiv, hcipher.symm⟩

end Keyed

/-- What AES is in CFB mode: a cipher that keeps the length. -/
structure IsCfb (ssl : AesSSL Chance) : Prop where
  length_encrypt : ∀ key iv data, (ssl.cfbEncrypt key iv data).length = data.length
  decrypt_encrypt : ∀ key iv data, Supported key → iv.length = ivLength →
    ssl.cfbDecrypt key iv (ssl.cfbEncrypt key iv data) = data

theorem Keyed.result_eq (hcfb : IsCfb ssl) (ha : a.Keyed) (hb : b.Keyed) (hkey : b.key = a.key)
    (hiv : b.iv.take ivLength = a.iv.take ivLength) {plaintext ciphertext result : Bytes}
    (hlength : plaintext.length < 2 ^ 31)
    (hencrypt : encrypt ssl chance a plaintext = .ok ciphertext)
    (hdecrypt : decrypt ssl chance' b ciphertext = .ok result) : result = plaintext := by
  obtain ⟨hsupported, hlong, rfl⟩ := ha.of_encrypt hencrypt
  obtain ⟨-, -, rfl⟩ := hb.of_decrypt hdecrypt
  rw [take_length hlength, hkey, hiv, take_length (by rwa [hcfb.length_encrypt])]
  exact hcfb.decrypt_encrypt _ _ _ hsupported (by rw [List.length_take, min_eq_left hlong])

/-- **Two objects with one key and one vector understand each other**, also of two programs that
have done different things with them before. -/
theorem decrypts_encrypted (hcfb : IsCfb ssl) {s t : ι → Option AES}
    {as bs : List (Action ι Chance)} (hs : Transition.run (step ssl) (fun _ => none) as = some s)
    (ht : Transition.run (step ssl) (fun _ => none) bs = some t) {i j : ι} (ha : s i = some a)
    (hb : t j = some b) (hkey : b.key = a.key) (hiv : b.iv.take ivLength = a.iv.take ivLength)
    {plaintext ciphertext result : Bytes} (hlength : plaintext.length < 2 ^ 31)
    (hencrypt : encrypt ssl chance a plaintext = .ok ciphertext)
    (hdecrypt : decrypt ssl chance' b ciphertext = .ok result) : result = plaintext :=
  (run_inv hs i a ha).result_eq hcfb (run_inv ht j b hb) hkey hiv hlength hencrypt hdecrypt

/-- The key 2b7e151628aed2a6abf7158809cf4f3c, and what AES makes of the vector 0, 1, …, 15 with
it. -/
def sampleKey : Bytes := [43, 126, 21, 22, 40, 174, 210, 166, 171, 247, 21, 136, 9, 207, 79, 60]
def sampleStream : Bytes :=
  [80, 254, 103, 204, 153, 109, 50, 182, 218, 9, 55, 233, 155, 175, 236, 96]

/-- What the mode does with a text of one block. -/
def xorStream (data : Bytes) : Bytes :=
  data.mapIdx fun i b => b ^^^ sampleStream.getD (i % 16) 0

theorem xorStream_xorStream (data : Bytes) : xorStream (xorStream data) = data := by
  unfold xorStream
  rw [List.mapIdx_mapIdx]
  refine (List.mapIdx_eq_iff).2 fun i => ?_
  cases data[i]? with
  | none => rfl
  | some b =>
      show some b = some (b ^^^ _ ^^^ _)
      rw [UInt8.xor_assoc, UInt8.xor_self, UInt8.xor_zero]

/-- Calls that all succeed, with that key and that vector. -/
def sampleSSL : AesSSL ℕ where
  ctxNew := fun _ => true
  randBytes := fun _ n => some ((List.range n).map UInt8.ofNat)
  encryptInit := fun _ => true
  encryptUpdate := fun _ => true
  encryptFinal := fun _ => true
  decryptInit := fun _ => true
  decryptUpdate := fun _ => true
  decryptFinal := fun _ => true
  cfbEncrypt := fun _ _ => xorStream
  cfbDecrypt := fun _ _ => xorStream

theorem isCfb_sampleSSL : IsCfb sampleSSL :=
  ⟨fun _ _ _ => List.length_mapIdx, fun _ _ data _ _ => xorStream_xorStream data⟩

/-- The object of the one program, and that of the other one, whose first key was too short. -/
def sampleRun : List (Action Bool ℕ) := [.create true 0 0 128 (some sampleKey)]
def sampleRun' : List (Action Bool ℕ) :=
  [.create false 0 0 256 none, .setKey false 0 [1, 2, 3], .setKey false 0 sampleKey,
    .setIV false ((List.range 16).map UInt8.ofNat)]

/-- The object of either program in the end. -/
def sampleAES : AES :=
  ⟨some sampleKey, some sampleKey, (List.range 16).map UInt8.ofNat, sampleKey⟩

theorem encrypt_sample : encrypt sampleSSL 0 sampleAES [107, 193, 190] = .ok [59, 63, 217] := by
  decide

theorem decrypts_encrypted_sample :
    ∃ s t result, Transition.run (step sampleSSL) (fun _ => none) sampleRun' = some s ∧
      Transition.run (step sampleSSL) (fun _ => none) sampleRun = some t ∧
      s false = some sampleAES ∧ t true = some sampleAES ∧
      decrypt sampleSSL 0 sampleAES [59, 63, 217] = .ok result ∧ result = [107, 193, 190] := by
  obtain ⟨s, hs, ha⟩ : ∃ s, Transition.run (step sampleSSL) (fun _ => none) sampleRun' = some s ∧
      s false = some sampleAES := ⟨_, rfl, rfl⟩
  obtain ⟨t, ht, hb⟩ : ∃ t, Transition.run (step sampleSSL) (fun _ => none) sampleRun = some t ∧
      t true = some sampleAES := ⟨_, rfl, rfl⟩
  have hdecrypt : decrypt sampleSSL 0 sampleAES [59, 63, 217] = .ok [107, 193, 190] := by decide
  exact ⟨s, t, _, hs, ht, ha, hb, hdecrypt,
    decrypts_encrypted isCfb_sampleSSL hs ht ha hb rfl rfl (by decide) encrypt_sample hdecrypt⟩

end AES

end Crypto
end BreUtils
