/-
# The calculator of `NifixExpression.hpp`

`exp_transplant` writes an infix expression as a text in which each operator stands
behind its operands, with a blank behind each number and each operator; `cal_s` evaluates
such a text on a stack of numbers.  A blank pushes the number read last, and what an
operator computes is such a number too.  The text is a string of blanks that is written
into, so more blanks follow, and each of them pushes a zero; the result is the topmost
entry other than zero.

The sum and the difference of two `int`s are taken modulo `2 ^ 32`.  A product or a
quotient that is no `int` is undefined, and so is a loop counter beyond the `int`s: the
loops count characters with an `int i`, and `exp_transplant` its output with an `int j`.
-/

import BreUtils.Cpp.Text

namespace BreUtils
namespace Nifix

open Lib Cpp

/-- What ends a call other than by returning. -/
inductive Stop where
  /-- `std::runtime_error`. -/
  | runtimeError
  | undefined
  deriving DecidableEq, Repr

/-- The greatest `int`. -/
def maxInt : ℕ := 2147483647

/-! ### `int` -/

/-- An `int` can be this number. -/
def IsInt (v : ℤ) : Prop := -2147483648 ≤ v ∧ v ≤ 2147483647

instance (v : ℤ) : Decidable (IsInt v) := inferInstanceAs (Decidable (_ ∧ _))

/-- A sum or a difference, as an `int`. -/
def wrap (v : ℤ) : ℤ := Int.bmod v 4294967296

/-- A product or a quotient, as an `int`. -/
def checked (v : ℤ) : Except Stop ℤ := if IsInt v then .ok v else .error .undefined

/-! ### `exp_transplant` -/

/-- `symcmp`. -/
def symcmp (a b : UInt8) : Bool :=
  b == ch '(' ||
    (b == ch '*' || b == ch '/') && (a == ch '+' || a == ch '-' || a == ch '(') ||
    (b == ch '+' || b == ch '-') && a == ch '('

/-- `stack`, from the top, and what `str2` holds in front of `j`. -/
structure Transplant where
  stack : List UInt8
  str2 : Bytes
  deriving DecidableEq, Repr

/-- `while (!stack.empty() && p(stack.top()))`: the top goes to `str2`, with a blank. -/
def popWhile (p : UInt8 → Bool) : List UInt8 → Bytes → Transplant
  | [], str2 => ⟨[], str2⟩
  | top :: stack, str2 =>
      if p top then popWhile p stack (str2 ++ [top, ch ' ']) else ⟨top :: stack, str2⟩

/-- `str2[j - 1]`.  With `j = 0` that is the byte in front of the string. -/
def behind (before : UInt8) (str2 : Bytes) : UInt8 := str2.getLast?.getD before

/-- A blank goes to `str2` unless there is one. -/
def blank (before : UInt8) (str2 : Bytes) : Bytes :=
  if behind before str2 ≠ ch ' ' then str2 ++ [ch ' '] else str2

/-- The body of the loop of `exp_transplant`, on the character `c` at `i`. -/
def transplantChar (before : UInt8) (i : ℕ) (c : UInt8) (s : Transplant) : Transplant :=
  if isdigit c then { s with str2 := s.str2 ++ [c] }
  else
    let str2 := if i ≠ 0 then blank before s.str2 else s.str2
    if c = ch ')' then
      let s := popWhile (fun top => top != ch '(') s.stack str2
      if s.stack.head? = some (ch '(') then { s with stack := s.stack.tail } else s
    else
      let s := popWhile (fun top => !symcmp top c) s.stack str2
      { s with stack := c :: s.stack }

/-- The loop of `exp_transplant`, from `i` on. -/
def transplantFrom (before : UInt8) : ℕ → Bytes → Transplant → Transplant
  | _, [], s => s
  | i, c :: cs, s => transplantFrom before (i + 1) cs (transplantChar before i c s)

/-- What `exp_transplant` writes to `str2`. -/
def transplanted (before : UInt8) (str1 : Bytes) : Bytes :=
  let s := transplantFrom before 0 str1 ⟨[], []⟩
  (popWhile (fun _ => true) s.stack (blank before s.str2)).str2

/-- `exp_transplant` on a string of `size` blanks.  Each write goes one place further, so that all
of them are in the string, at places that `j` can count, when the last one is. -/
def expTransplant (size : ℕ) (before : UInt8) (str1 : Bytes) : Except Stop Bytes :=
  let str2 := transplanted before str1
  if str1.length ≤ maxInt ∧ str2.length ≤ maxInt ∧ str2.length ≤ size then
    .ok (str2 ++ List.replicate (size - str2.length) (ch ' '))
  else .error .undefined

/-! ### `cal_s` -/

/-- `stack`, from the top, and `tmp`. -/
structure Calculation where
  stack : List ℤ
  tmp : ℤ
  deriving DecidableEq, Repr

/-- The `switch` of `cal_s`. -/
def operate (c : UInt8) (operand1 operand2 : ℤ) : Except Stop ℤ :=
  if c = ch '+' then .ok (wrap (operand1 + operand2))
  else if c = ch '-' then .ok (wrap (operand1 - operand2))
  else if c = ch '*' then checked (operand1 * operand2)
  else if c = ch '/' then
    if operand2 = 0 then .error .runtimeError else checked (operand1.tdiv operand2)
  else .error .runtimeError

/-- The body of the loop of `cal_s`. -/
def calculateChar (s : Calculation) (c : UInt8) : Except Stop Calculation :=
  if isdigit c then
    (checked (s.tmp * 10)).map fun v => { s with tmp := wrap (wrap (v + c.toNat) - 48) }
  else if c = ch ' ' then .ok ⟨s.tmp :: s.stack, 0⟩
  else
    match s.stack with
    | operand2 :: operand1 :: stack =>
        (operate c operand1 operand2).map fun v => ⟨stack, v⟩
    | _ => .error .runtimeError

/-- `cal_s`.  Its loop gets to the characters that an `int` can count, and overflows when there are
more. -/
def calS (str : Bytes) : Except Stop ℤ :=
  match (str.take (maxInt + 1)).foldlM calculateChar ⟨[], 0⟩ with
  | .error e => .error e
  | .ok s =>
      if str.length ≤ maxInt then .ok ((s.stack.find? (· ≠ 0)).getD 0) else .error .undefined

/-! ### `calculate_expression` -/

/-- `calculate_expression`, with room for `size` characters.  `none` stands for undefined
behaviour. -/
def calculate (size : ℕ) (before : UInt8) (str : Bytes) : Option ℤ :=
  match expTransplant size before str >>= calS with
  | .ok ret => some ret
  | .error .runtimeError => some 0
  | .error .undefined => none

/-- `calculate_expression`. -/
def calculateExpression (before : UInt8) (str : Bytes) : Option ℤ := calculate 100 before str

/-- The example of the header. -/
example : calculateExpression 0 (ascii "5*6-5") = some 25 := by decide +kernel

end Nifix
end BreUtils
