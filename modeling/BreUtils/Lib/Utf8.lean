/-
# UTF-8, for any code point

`String.utf8EncodeChar` extended to the surrogates, which no Unicode scalar
value is and a careless writer encodes all the same.  `decode` reads the code
point at the front of a text back, so an encoding is found out from any text that
starts with it (`encode_append_inj`): no encoding is the beginning of another
one.
-/

import Mathlib.Data.Int.Notation
import Mathlib.Data.Nat.Notation
import Mathlib.Tactic.Common

namespace BreUtils
namespace Lib
namespace Utf8

/-- The bytes of a code point up to U+10FFFF. -/
def encode (n : ℕ) : List UInt8 :=
  if n ≤ 0x7F then [.ofNat n]
  else if n ≤ 0x7FF then [.ofNat (n / 64 % 32 + 0xC0), .ofNat (n % 64 + 0x80)]
  else if n ≤ 0xFFFF then
    [.ofNat (n / 4096 % 16 + 0xE0), .ofNat (n / 64 % 64 + 0x80), .ofNat (n % 64 + 0x80)]
  else
    [.ofNat (n / 262144 % 8 + 0xF0), .ofNat (n / 4096 % 64 + 0x80),
      .ofNat (n / 64 % 64 + 0x80), .ofNat (n % 64 + 0x80)]

/-- The code point at the front of a text, by the number of bytes that its first byte announces. -/
def decode : List UInt8 → ℕ
  | [] => 0
  | b :: s =>
      let tail (i : ℕ) : ℕ := (s.getD i 0).toNat - 0x80
      if b.toNat < 0x80 then b.toNat
      else if b.toNat < 0xE0 then (b.toNat - 0xC0) * 64 + tail 0
      else if b.toNat < 0xF0 then ((b.toNat - 0xE0) * 64 + tail 0) * 64 + tail 1
      else (((b.toNat - 0xF0) * 64 + tail 0) * 64 + tail 1) * 64 + tail 2

/-- A character is encoded by its code point. -/
theorem encode_char (c : Char) : String.utf8EncodeChar c = encode c.toNat := rfl

/-- **What starts with the encoding of a code point is read as that code point.** -/
theorem decode_encode_append {n : ℕ} (h : n ≤ 0x10FFFF) (s : List UInt8) :
    decode (encode n ++ s) = n := by
  have byte {m : ℕ} (hm : m < 256) : (UInt8.ofNat m).toNat = m := by
    rw [UInt8.toNat_ofNat', Nat.mod_eq_of_lt hm]
  have htail (m : ℕ) : (UInt8.ofNat (m % 64 + 0x80)).toNat = m % 64 + 0x80 := byte (by omega)
  rw [encode]
  split_ifs with h₁ h₂ h₃
  · simp only [List.cons_append, decode, byte (show n < 256 by omega)]
    exact if_pos (by omega)
  · simp only [List.cons_append, decode, List.getD_cons_zero, htail,
      byte (show n / 64 % 32 + 0xC0 < 256 by omega)]
    rw [if_neg (by omega), if_pos (by omega)]
    omega
  · simp only [List.cons_append, decode, List.getD_cons_zero, List.getD_cons_succ, htail,
      byte (show n / 4096 % 16 + 0xE0 < 256 by omega)]
    rw [if_neg (by omega), if_neg (by omega), if_pos (by omega)]
    omega
  · simp only [List.cons_append, decode, List.getD_cons_zero, List.getD_cons_succ, htail,
      byte (show n / 262144 % 8 + 0xF0 < 256 by omega)]
    rw [if_neg (by omega), if_neg (by omega), if_neg (by omega)]
    omega

/-- **No encoding is the beginning of another one.** -/
theorem encode_append_inj {m n : ℕ} {s t : List UInt8} (hm : m ≤ 0x10FFFF) (hn : n ≤ 0x10FFFF)
    (h : encode m ++ s = encode n ++ t) : m = n ∧ s = t := by
  obtain rfl : m = n := by
    rw [← decode_encode_append hm s, h, decode_encode_append hn]
  exact ⟨rfl, List.append_cancel_left h⟩

end Utf8
end Lib
end BreUtils
