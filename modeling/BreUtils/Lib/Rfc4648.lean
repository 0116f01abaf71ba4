/-
# The Base 64 encoding of RFC 4648

Section 4: three bytes make a group of 24 bits, which is read as four numbers of 6 bits,
each of them written as a letter of the alphabet.  When the last group has only one byte
or two, zero bits fill it up to the next letter, and `=` stands for each letter that is
missing.
-/

import BreUtils.Lib.Cursor
import Mathlib.Algebra.Group.Nat.Defs

namespace BreUtils
namespace Lib
namespace Rfc4648

/-- Table 1. -/
def alphabet : List UInt8 :=
  ascii "ABCDEFGHIJKLMNOPQRSTUVWXYZabcdefghijklmnopqrstuvwxyz0123456789+/"

/-- The letter for a number below 64. -/
def letter (d : ℕ) : UInt8 := alphabet.getD d 0

/-- A group of 24 bits. -/
def group (a b c : UInt8) : ℕ := a.toNat * 2 ^ 16 + b.toNat * 2 ^ 8 + c.toNat

/-- The 6 bits of a group that have `6 * k` bits behind them. -/
def sextet (n k : ℕ) : ℕ := n / 64 ^ k % 64

/-- The Base 64 encoding. -/
def encode : List UInt8 → List UInt8
  | a :: b :: c :: s =>
      letter (sextet (group a b c) 3) :: letter (sextet (group a b c) 2) ::
        letter (sextet (group a b c) 1) :: letter (sextet (group a b c) 0) :: encode s
  | [a, b] =>
      [letter (sextet (group a b 0) 3), letter (sextet (group a b 0) 2),
        letter (sextet (group a b 0) 1), ch '=']
  | [a] => [letter (sextet (group a 0 0) 3), letter (sextet (group a 0 0) 2), ch '=', ch '=']
  | [] => []

/-- The alphabet by its codes. -/
theorem alphabet_eq : alphabet =
    [65, 66, 67, 68, 69, 70, 71, 72, 73, 74, 75, 76, 77, 78, 79, 80,
      81, 82, 83, 84, 85, 86, 87, 88, 89, 90, 97, 98, 99, 100, 101, 102,
      103, 104, 105, 106, 107, 108, 109, 110, 111, 112, 113, 114, 115, 116, 117, 118,
      119, 120, 121, 122, 48, 49, 50, 51, 52, 53, 54, 55, 56, 57, 43, 47] := by
  decide +kernel

/-- 64 characters. -/
theorem length_alphabet : alphabet.length = 64 := by
  rw [alphabet_eq]
  rfl

/-- The character of a digit. -/
theorem getElem?_alphabet {d : ℕ} (hd : d < 64) : alphabet[d]? = some (letter d) := by
  have hlength : d < alphabet.length := length_alphabet ▸ hd
  rw [letter, List.getD_eq_getElem?_getD, List.getElem?_eq_getElem hlength, Option.getD_some]

/-- One of the RFC's own examples. -/
example : encode (ascii "foob") = ascii "Zm9vYg==" := by decide +kernel

/-- Every group takes four letters. -/
theorem length_encode (s : List UInt8) : (encode s).length = 4 * ((s.length + 2) / 3) := by
  induction s using encode.induct with
  | case1 a b c s ih =>
      simp only [encode, List.length_cons, ih]
      omega
  | case2 a b => simp only [encode, List.length_cons, List.length_nil]
  | case3 a => simp only [encode, List.length_cons, List.length_nil]
  | case4 => rfl

section Sextets

variable (a b c : UInt8)

/-- The first six bits of three bytes, by themselves. -/
theorem sextet_three : sextet (group a b c) 3 = a.toNat / 4 := by
  have ha := a.toNat_lt
  have hb := b.toNat_lt
  have hc := c.toNat_lt
  unfold sextet group
  omega

/-- The next six. -/
theorem sextet_two : sextet (group a b c) 2 = 16 * (a.toNat % 4) + b.toNat / 16 := by
  have hb := b.toNat_lt
  have hc := c.toNat_lt
  unfold sextet group
  omega

/-- The next six. -/
theorem sextet_one : sextet (group a b c) 1 = 4 * (b.toNat % 16) + c.toNat / 64 := by
  have hc := c.toNat_lt
  unfold sextet group
  omega

/-- The last six. -/
theorem sextet_zero : sextet (group a b c) 0 = c.toNat % 64 := by
  unfold sextet group
  omega

end Sextets

/-- Six bits. -/
theorem sextet_lt (n k : ℕ) : sextet n k < 64 := Nat.mod_lt _ (by decide)

end Rfc4648
end Lib
end BreUtils
