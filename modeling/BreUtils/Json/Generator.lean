/-
# `bre::json::Generator`

`Json/json_generator.hpp`, function by function.  The recursion goes through
`generateValue` alone: `generateArray` and `generateObject` take the texts of the
children, in the order in which the sources put them together: that of an object is
the order of iteration.  `none` stands for
the overflow of `level * indentWidth_`, an `int` product, in `indent`.
-/

import BreUtils.Json.Value

namespace BreUtils
namespace Json

open Lib Cpp

variable {D : Type}

/-- `std::to_string(int)`. -/
def toStringInt (i : Int32) : Bytes :=
  (if i.toInt < 0 then [ch '-'] else []) ++ ascii (toString i.toInt.natAbs)

/-- What `escapeString` appends for one character. -/
def escapeChar (c : UInt8) : Bytes :=
  if c = ch '"' then ascii "\\\""
  else if c = ch '\\' then ascii "\\\\"
  else if c = 0x08 then ascii "\\b"
  else if c = 0x0C then ascii "\\f"
  else if c = ch '\n' then ascii "\\n"
  else if c = ch '\r' then ascii "\\r"
  else if c = ch '\t' then ascii "\\t"
  else [c]

/-- `escapeString`. -/
def escapeString (s : Bytes) : Bytes := s.flatMap escapeChar

section Layout

variable (indentWidth : Int32)

/-- `indent`. -/
def indent (level : ℕ) : Option Bytes :=
  if level * indentWidth.toInt < 2 ^ 31 then
    some (List.replicate (level * indentWidth.toInt).toNat (ch ' '))
  else none

/-- `if (indentWidth_ > 0) result += indent(level);` -/
def prettyIndent (level : ℕ) : Option Bytes :=
  if indentWidth > 0 then indent indentWidth level else some []

/-- `if (indentWidth_ > 0) result += "\n";` -/
def prettyNewline : Bytes := if indentWidth > 0 then [ch '\n'] else []

/-- The loop of `generateArray` and of `generateObject`, over the texts of the children. -/
def generateItems (level : ℕ) : List (Option Bytes) → Option Bytes
  | [] => some []
  | item :: items => do
      let indentation ← prettyIndent indentWidth level
      let text ← item
      let rest ← generateItems level items
      return indentation ++ text ++ (if items = [] then [] else [ch ',']) ++
        prettyNewline indentWidth ++ rest

/-- `generateArray`, over the texts of the elements. -/
def generateArray (array : List (Option Bytes)) (level : ℕ) : Option Bytes :=
  if array = [] then some (ascii "[]")
  else do
    let items ← generateItems indentWidth level array
    let indentation ← prettyIndent indentWidth (level - 1)
    return ascii "[" ++ prettyNewline indentWidth ++ items ++ indentation ++ ascii "]"

/-- `generateObject`, over the keys and the texts of the values, in the order of iteration. -/
def generateObject (object : List (Bytes × Option Bytes)) (level : ℕ) : Option Bytes :=
  if object = [] then some (ascii "\x7b\x7d")
  else do
    let items ← generateItems indentWidth level (object.map fun (key, value) =>
      value.map fun text => ascii "\"" ++ escapeString key ++ ascii "\": " ++ text)
    let indentation ← prettyIndent indentWidth (level - 1)
    return ascii "\x7b" ++ prettyNewline indentWidth ++ items ++ indentation ++ ascii "\x7d"

end Layout

/-- `generateValue`. -/
def generateValue (rt : Runtime D) (indentWidth : Int32) (level : ℕ) :
    Value D → Option Bytes
  | .null => some (ascii "null")
  | .bool b => some (if b then ascii "true" else ascii "false")
  | .int i => some (toStringInt i)
  | .double d => some (rt.toString d)
  | .string s => some (ascii "\"" ++ escapeString s ++ ascii "\"")
  | .array a =>
      generateArray indentWidth
        (a.attach.map fun ⟨v, _⟩ => generateValue rt indentWidth (level + 1) v) (level + 1)
  | .object o =>
      generateObject indentWidth
        (o.attach.map fun ⟨(key, value), _⟩ =>
          (key, generateValue rt indentWidth (level + 1) value)) (level + 1)
termination_by v => sizeOf v
decreasing_by
  · have := List.sizeOf_lt_of_mem ‹_ ∈ a›
    simp only [Value.array.sizeOf_spec]
    omega
  · have := List.sizeOf_lt_of_mem ‹_ ∈ o›
    simp only [Value.object.sizeOf_spec, Prod.mk.sizeOf_spec] at *
    omega

/-- `Generator::generate`. -/
def generate (rt : Runtime D) (val : Value D) (pretty : Bool) (indentWidth : Int32) :
    Option Bytes :=
  generateValue rt (if pretty then indentWidth else 0) 0 val

section Equations

variable (rt : Runtime D) (indentWidth : Int32) (level : ℕ)

/-- An array is written from its elements. -/
theorem generateValue_array (a : List (Value D)) :
    generateValue rt indentWidth level (.array a) =
      generateArray indentWidth (a.map (generateValue rt indentWidth (level + 1)))
        (level + 1) := by
  rw [generateValue]
  simp

/-- An object is written from its members. -/
theorem generateValue_object (o : List (Bytes × Value D)) :
    generateValue rt indentWidth level (.object o) =
      generateObject indentWidth (o.map fun e =>
        (e.1, generateValue rt indentWidth (level + 1) e.2)) (level + 1) := by
  rw [generateValue]
  congr 1
  simp [List.map_attach_eq_pmap]

end Equations

end Json
end BreUtils
