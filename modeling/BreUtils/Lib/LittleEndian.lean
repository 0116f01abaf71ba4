/-
# Little-endian numbers

A number in `w` bytes, its lowest byte first, as a struct of fixed-width integers
lies in the memory of a little-endian machine.  Reading the bytes back gives the
number modulo `256 ^ w` (`value_bytes`), so that a field of the right width comes
back as it was, and so do bytes that are read as a number (`bytes_value`).
-/

import Mathlib.Data.List.Basic
import Mathlib.Tactic.Ring

namespace BreUtils
namespace Lib
namespace LittleEndian

/-- The `w` lowest bytes of `x`. -/
def bytes : ℕ → ℕ → List UInt8
  | 0, _ => []
  | w + 1, x => UInt8.ofNat x :: bytes w (x / 256)

/-- The number that bytes are. -/
def value : List UInt8 → ℕ
  | [] => 0
  | b :: bs => b.toNat + 256 * value bs

/-- A number takes as many bytes as it is given. -/
@[simp] theorem length_bytes (w x : ℕ) : (bytes w x).length = w := by
  induction w generalizing x with
  | zero => rfl
  | succ w ih => rw [bytes, List.length_cons, ih]

/-- **Reading what was written** gives the number, as far as the bytes can hold it. -/
theorem value_bytes (w x : ℕ) : value (bytes w x) = x % 256 ^ w := by
  induction w generalizing x with
  | zero => rw [bytes, value, pow_zero, Nat.mod_one]
  | succ w ih =>
      have hlow : (UInt8.ofNat x).toNat = x % 256 := UInt8.toNat_ofNat'
      rw [bytes, value, ih, hlow, pow_succ', Nat.mod_mul]

/-- **A number that fits comes back.** -/
theorem value_bytes_of_lt {w x : ℕ} (h : x < 256 ^ w) : value (bytes w x) = x := by
  rw [value_bytes, Nat.mod_eq_of_lt h]

/-- What bytes can hold. -/
theorem value_lt (bs : List UInt8) : value bs < 256 ^ bs.length := by
  induction bs with
  | nil => exact Nat.one_pos
  | cons b bs ih =>
      have hb := b.toNat_lt
      rw [value, List.length_cons, pow_succ]
      omega

/-- **Bytes come back.** -/
theorem bytes_value (bs : List UInt8) : bytes bs.length (value bs) = bs := by
  induction bs with
  | nil => rfl
  | cons b bs ih =>
      have hb := b.toNat_lt
      have hlow : UInt8.ofNat (b.toNat + 256 * value bs) = b := by
        refine UInt8.toNat_inj.1 ?_
        rw [UInt8.toNat_ofNat']
        omega
      have hhigh : (b.toNat + 256 * value bs) / 256 = value bs := by omega
      rw [List.length_cons, value, bytes, hlow, hhigh, ih]

/-- What does not fit in the bytes does not show in them. -/
theorem bytes_mod (w x : ℕ) : bytes w (x % 256 ^ w) = bytes w x := by
  induction w generalizing x with
  | zero => rfl
  | succ w ih =>
      have hlow : UInt8.ofNat (x % 256 ^ (w + 1)) = UInt8.ofNat x := by
        refine UInt8.toNat_inj.1 ?_
        rw [UInt8.toNat_ofNat', UInt8.toNat_ofNat', pow_succ', Nat.mod_mul_right_mod]
      rw [bytes, bytes, hlow, pow_succ', Nat.mod_mul_right_div_self, ih]

/-- The `w` bytes at `offset`, in a record of which the part in front is `offset` bytes long. -/
theorem take_drop_bytes {front : List UInt8} {offset : ℕ} (h : front.length = offset) (w x : ℕ)
    (rest : List UInt8) : ((front ++ (bytes w x ++ rest)).drop offset).take w = bytes w x := by
  rw [List.drop_left' h, List.take_left' (length_bytes w x)]

end LittleEndian
end Lib
end BreUtils
