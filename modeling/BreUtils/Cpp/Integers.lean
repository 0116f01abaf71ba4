/-
# Integers out of text

`std::stoi`, `stoul`, `stoll` and `stoull` on a platform whose `long` has 64 bits.
All of them read blanks, a sign and decimal digits off the front of the text, and do
not look at what follows.  They throw `std::invalid_argument` when there are no digits
and `std::out_of_range` when the number does not fit.  The unsigned ones take a minus
sign too, and negate within their type.
-/

import BreUtils.Cpp.Text

namespace BreUtils
namespace Cpp

open Lib

/-- What `strtol` and its kin read in base ten: whether there is a minus sign, and the number behind
it. -/
def strtoInteger (s : Bytes) : Option (Bool × ℕ) :=
  let s := s.dropWhile isspace
  let negative := s.head? == some (ch '-')
  let ds := (if negative || s.head? == some (ch '+') then s.tail else s).takeWhile isdigit
  if ds = [] then none else some (negative, decimal ds)

/-- A signed number of `bits` bits. -/
def stoSigned (bits : ℕ) (s : Bytes) : Except Exn ℤ :=
  match strtoInteger s with
  | none => .error .invalidArgument
  | some (negative, n) =>
      let v : ℤ := if negative then -(n : ℤ) else n
      if -2 ^ (bits - 1) ≤ v ∧ v < 2 ^ (bits - 1) then .ok v else .error .outOfRange

/-- An unsigned number of 64 bits. -/
def stoUnsigned (s : Bytes) : Except Exn ℕ :=
  match strtoInteger s with
  | none => .error .invalidArgument
  | some (negative, n) =>
      if n < 2 ^ 64 then .ok (if negative then (2 ^ 64 - n) % 2 ^ 64 else n)
      else .error .outOfRange

/-- `std::stoi`. -/
def stoi (s : Bytes) : Except Exn Int32 := (stoSigned 32 s).map Int32.ofInt

/-- `std::stoll`. -/
def stoll (s : Bytes) : Except Exn Int64 := (stoSigned 64 s).map Int64.ofInt

/-- `std::stoul`, of type `unsigned long`. -/
def stoul (s : Bytes) : Except Exn UInt64 := (stoUnsigned s).map UInt64.ofNat

/-- `std::stoull`. -/
def stoull (s : Bytes) : Except Exn UInt64 := (stoUnsigned s).map UInt64.ofNat

/-! ### What they return -/

/-- A number with a sign. -/
def signed (negative : Bool) (n : ℕ) : ℤ := if negative then -n else n

section

variable {s : Bytes} {negative : Bool} {n : ℕ}

/-- `stoi`, `stol` and `stoll` of a text with a number: its value, if it fits. -/
theorem stoSigned_eq (bits : ℕ) (h : strtoInteger s = some (negative, n)) :
    stoSigned bits s =
      if -2 ^ (bits - 1) ≤ signed negative n ∧ signed negative n < 2 ^ (bits - 1) then
        .ok (signed negative n)
      else .error .outOfRange := by
  rw [stoSigned, h]
  rfl

/-- `stoul` and `stoull` of a text with a number: a minus sign wraps around. -/
theorem stoUnsigned_eq (h : strtoInteger s = some (negative, n)) :
    stoUnsigned s =
      if n < 2 ^ 64 then .ok (if negative then (2 ^ 64 - n) % 2 ^ 64 else n)
      else .error .outOfRange := by
  rw [stoUnsigned, h]

/-- Without digits they throw. -/
theorem sto_eq_error (h : strtoInteger s = none) :
    (∀ bits, stoSigned bits s = .error .invalidArgument) ∧
      stoUnsigned s = .error .invalidArgument := by
  constructor
  · intro bits
    rw [stoSigned, h]
  · rw [stoUnsigned, h]

end

example : stoi (ascii " -42x") = .ok (-42) ∧ stoi (ascii "2147483648") = .error .outOfRange ∧
    stoul (ascii "-1") = .ok 18446744073709551615 := by decide +kernel

end Cpp
end BreUtils
