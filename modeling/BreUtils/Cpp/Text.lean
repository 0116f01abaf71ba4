/-
# The C++ standard library, as the JSON sources use it

A `std::string` is a list of bytes.  `std::isspace` and `std::isdigit` are those
of the "C" locale, on bytes above 127 too, where the sources pass a negative
`char`: no byte above 127 is a space or a digit there.  `std::from_chars` reads
the longest prefix of its pattern and leaves its target unwritten when it reads
none.  What the standard leaves open is collected in `Runtime`: the arithmetic of
`double`, and the value that an uninitialised variable holds.
-/

import BreUtils.Lib.Cursor
import Mathlib.Data.FinEnum
import Mathlib.Algebra.Order.Ring.Rat

namespace BreUtils
namespace Cpp

open Lib

/-- `std::string`. -/
abbrev Bytes := List UInt8

/-- What ends a call of the JSON sources other than by returning. -/
inductive Exn where
  /-- `bre::json::JsonParseException`, with its message. -/
  | jsonParseException (what : Bytes)
  /-- `std::out_of_range`. -/
  | outOfRange
  /-- `std::invalid_argument`. -/
  | invalidArgument
  /-- `s[i]` with `i > s.size()`, which C++ leaves undefined. -/
  | undefinedRead
  /-- No behaviour of the code: the recursion bound of the model ran out. -/
  | outOfFuel
  deriving DecidableEq, Repr

/-- `std::isspace`: space, `\t`, `\n`, `\v`, `\f`, `\r`. -/
def isspace (c : UInt8) : Bool := c == 0x20 || (0x09 ≤ c && c ≤ 0x0D)

/-- `std::isdigit`. -/
def isdigit (c : UInt8) : Bool := ch '0' ≤ c && c ≤ ch '9'

/-- `s[i]` of a `const std::string`: the byte, or the terminating `\0` at `i = s.size()`. -/
def charAt (s : Bytes) (i : ℕ) : Except Exn UInt8 :=
  if i < s.length then .ok (s.getD i 0)
  else if i = s.length then .ok 0
  else .error .undefinedRead

/-- `s.substr(pos, count)`. -/
def substr (s : Bytes) (pos count : ℕ) : Except Exn Bytes :=
  if pos ≤ s.length then .ok ((s.drop pos).take count) else .error .outOfRange

/-- The number that a run of decimal digits writes. -/
def decimal (ds : Bytes) : ℕ := ds.foldl (fun v d => 10 * v + (d.toNat - 48)) 0

/-- `std::from_chars(first, last, value)` for an `int`: an optional `-` and at least one digit.
`none` stands for `ec != std::errc()`. -/
def fromCharsInt (s : Bytes) : Option Int32 :=
  let negative := s.head? == some (ch '-')
  let ds := (if negative then s.tail else s).takeWhile isdigit
  let v : ℤ := if negative then -(decimal ds : ℤ) else decimal ds
  if ds = [] then none
  else if -2 ^ 31 ≤ v ∧ v < 2 ^ 31 then some (Int32.ofInt v) else none

/-- The value of a hexadecimal digit. -/
def hexValue (c : UInt8) : Option ℕ :=
  if ch '0' ≤ c ∧ c ≤ ch '9' then some (c.toNat - 48)
  else if ch 'a' ≤ c ∧ c ≤ ch 'f' then some (c.toNat - 87)
  else if ch 'A' ≤ c ∧ c ≤ ch 'F' then some (c.toNat - 55)
  else none

/-- The digits at the front of a text, and the number they write in base sixteen. -/
def hexPrefix (s : Bytes) : List ℕ := (s.takeWhile fun c => (hexValue c).isSome).filterMap hexValue

/-- `std::from_chars(first, last, value, 16)` for an `unsigned int`.  `none` stands for
`ec != std::errc()`, which leaves `value` as it was. -/
def fromCharsHex (s : Bytes) : Option UInt32 :=
  let ds := hexPrefix s
  let v := ds.foldl (fun v d => 16 * v + d) 0
  if ds = [] then none else if v < 2 ^ 32 then some (UInt32.ofNat v) else none

/-- What the sources take from the platform: the doubles, and the indeterminate value of a variable
that is read before it is written.  A read is named by the number of bytes of the text behind it,
which differs at every read of one run. -/
structure Runtime (D : Type) where
  /-- The double `strtod` reads off the front of a text, `none` when it sets `ERANGE`. -/
  strtod : Bytes → Option D
  infinity : D
  neg : D → D
  /-- `a == b` on doubles. -/
  beq : D → D → Bool
  /-- `std::to_string(double)`. -/
  toString : D → Bytes
  indeterminate : ℕ → UInt32

/-- The number that a literal writes, exactly. -/
def decimalValue (s : Bytes) : ℚ :=
  let negative := s.head? == some (ch '-')
  let s := if negative then s.tail else s
  let int := s.takeWhile isdigit
  let s := s.dropWhile isdigit
  let frac := if s.head? == some (ch '.') then s.tail.takeWhile isdigit else []
  let s := if s.head? == some (ch '.') then s.tail.dropWhile isdigit else s
  let x := if s.head? == some (ch 'e') || s.head? == some (ch 'E') then s.tail else []
  let small := x.head? == some (ch '-')
  let e := decimal ((if small || x.head? == some (ch '+') then x.tail else x).takeWhile isdigit)
  let m : ℚ := (if negative then -(decimal (int ++ frac) : ℤ) else decimal (int ++ frac) : ℤ) /
    (10 ^ frac.length : ℕ)
  if small then m / (10 ^ e : ℕ) else m * (10 ^ e : ℕ)

/-- A platform without rounding, for examples: rational numbers in place of doubles, `2 ^ 1024` in
place of infinity.  On numbers that a double holds exactly it is a platform like any other. -/
def Runtime.exact : Runtime ℚ where
  strtod s :=
    let v := decimalValue s
    if -2 ^ 1024 < v ∧ v < 2 ^ 1024 then some v else none
  infinity := 2 ^ 1024
  neg := Neg.neg
  beq a b := a == b
  toString v :=
    let n := (|v| * 10 ^ 6).floor.toNat
    let frac := ascii (Nat.repr (n % 10 ^ 6))
    (if v < 0 then [ch '-'] else []) ++ ascii (Nat.repr (n / 10 ^ 6)) ++
      ch '.' :: (List.replicate (6 - frac.length) (ch '0') ++ frac)
  indeterminate _ := 0

/-- Whether `strtod` finds a decimal number at the front of `s`: after blanks and a sign, a digit,
or a point and a digit.  (It also reads `inf` and `nan`; no text of the sources has those letters
there.) -/
def hasNumber (s : Bytes) : Bool :=
  let s := s.dropWhile isspace
  let s := if s.head? == some (ch '-') || s.head? == some (ch '+') then s.tail else s
  let s := if s.head? == some (ch '.') then s.tail else s
  s.head?.any isdigit

/-- `std::stod`. -/
def stod {D : Type} (rt : Runtime D) (s : Bytes) : Except Exn D :=
  if hasNumber s then
    match rt.strtod s with
    | some d => .ok d
    | none => .error .outOfRange
  else .error .invalidArgument

/-- A digit is no blank. -/
theorem isspace_of_isdigit : ∀ c : UInt8, isdigit c = true → isspace c = false := by
  decide +kernel

/-! ### Calls that return and calls that throw -/

section Except

variable {α β : Type} (a : α) (e : Exn) (f : α → Except Exn β)

/-- What returns goes on. -/
@[simp] theorem ok_bind : (Except.ok a >>= f) = f a := rfl

/-- What throws does not. -/
@[simp] theorem error_bind : (Except.error e >>= f) = Except.error e := rfl

/-- A value is returned. -/
@[simp] theorem pure_eq_ok : (pure a : Except Exn α) = Except.ok a := rfl

/-- An exception is thrown. -/
@[simp] theorem throw_eq_error : (throw e : Except Exn α) = Except.error e := rfl

/-- Where a mapped result comes from. -/
theorem map_eq_ok {x : Except Exn α} {f : α → β} {b : β} :
    x.map f = .ok b ↔ ∃ a, x = .ok a ∧ f a = b := by
  cases x with
  | ok a => simp [Except.map]
  | error e => simp [Except.map]

/-- Where the result of a chain comes from. -/
theorem bind_eq_ok {x : Except Exn α} {f : α → Except Exn β} {b : β} :
    (x >>= f) = .ok b ↔ ∃ a, x = .ok a ∧ f a = .ok b := by
  cases x with
  | ok a => simp
  | error e => simp

end Except

/-! ### Reads at a cursor -/

/-- `s[p]` is the character that is ahead. -/
theorem charAt_cons {s t : Bytes} {p : ℕ} {c : UInt8} (h : At s p (c :: t)) :
    charAt s p = .ok c := by
  have hlt := h.add_length
  rw [List.length_cons] at hlt
  rw [charAt, if_pos (by omega), List.getD_eq_getElem?_getD, h.getElem?_cons, Option.getD_some]

/-- At the end `s[p]` is the NUL. -/
theorem charAt_nil {s : Bytes} {p : ℕ} (h : At s p []) : charAt s p = .ok 0 := by
  have hlen := h.add_length
  rw [List.length_nil] at hlen
  rw [charAt, if_neg (by omega), if_pos (by omega)]

/-- Reading at a cursor never runs past the terminating `\0`. -/
theorem charAt_at {s t : Bytes} {p : ℕ} (h : At s p t) : charAt s p = .ok (t.headD 0) := by
  cases t with
  | nil => exact charAt_nil h
  | cons c t => exact charAt_cons h

/-- The terminating `\0` is mistaken for no other byte. -/
theorem headD_ne {s : Bytes} {c : UInt8} (hs : s.head? ≠ some c) (hc : c ≠ 0) : s.headD 0 ≠ c := by
  cases s with
  | nil => exact hc.symm
  | cons d s => exact fun h => hs (congrArg some h)

/-- `substr` takes from what is ahead. -/
theorem substr_at {s t : Bytes} {p : ℕ} (h : At s p t) (n : ℕ) :
    substr s p n = .ok (t.take n) := by
  rw [substr, if_pos h.le_length, h.drop_eq]

end Cpp
end BreUtils
