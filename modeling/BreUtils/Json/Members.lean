/-
# The members of `bre::json::Value`

`Json/json_value.hpp`, as the class is laid out: a `Value` has two fields, the tag `type_`
and the variant `value_`, and its member functions write them one after the other.
`std::get` throws where the variant holds another alternative than the one asked for; the
member functions look at the tag before they ask.  Whether the two agree is the subject of
`BreUtils.Json.Agreement`; `BreUtils.Json.Value` is what they say together.

A member function is a program over the two fields (`BreUtils.Lib.Throwing`).  Memory does
not run out.  A `std::vector` has at most `maxSize` elements, and `resize` and `push_back`
throw where there would be more.
-/

import BreUtils.Cpp.Text
import BreUtils.Lib.Throwing

namespace BreUtils
namespace Json

open Cpp Lib

/-- `enum class Type`. -/
inductive ValueType where
  | null
  | bool
  | int
  | double
  | string
  | array
  | object
  deriving DecidableEq, Repr

/-- `std::variant<std::monostate, bool, int64_t, double, std::string, Array, Object>`, over the
doubles `D` and the elements `V`. -/
inductive Variant (D V : Type) where
  | monostate
  | bool (b : Bool)
  | int64 (i : Int64)
  | double (d : D)
  | string (s : Bytes)
  | array (a : List V)
  | object (o : List (Bytes × V))

/-- `Value`, with its two fields. -/
structure Node (D : Type) where
  type_ : ValueType
  value_ : Variant D (Node D)

/-- What the member functions throw. -/
inductive Thrown where
  /-- `JsonParseException`, with its message. -/
  | jsonParseException (what : Bytes)
  /-- `std::out_of_range`. -/
  | outOfRange (what : Bytes)
  /-- `std::length_error`. -/
  | lengthError
  /-- `std::bad_variant_access`. -/
  | badVariantAccess
  deriving DecidableEq, Repr

variable {D V α : Type}

namespace Variant

/-- The tag for what a variant holds. -/
def type : Variant D V → ValueType
  | .monostate => .null
  | .bool _ => .bool
  | .int64 _ => .int
  | .double _ => .double
  | .string _ => .string
  | .array _ => .array
  | .object _ => .object

/-- The values inside. -/
def children : Variant D V → List V
  | .array a => a
  | .object o => o.map Prod.snd
  | _ => []

/-- `std::get<bool>`; none where it throws. -/
def bool? : Variant D V → Option Bool
  | .bool b => some b
  | _ => none

/-- `std::get<int64_t>`. -/
def int64? : Variant D V → Option Int64
  | .int64 i => some i
  | _ => none

/-- `std::get<double>`. -/
def double? : Variant D V → Option D
  | .double d => some d
  | _ => none

/-- `std::get<std::string>`. -/
def string? : Variant D V → Option Bytes
  | .string s => some s
  | _ => none

/-- `std::get<JsonArray>`. -/
def array? : Variant D V → Option (List V)
  | .array a => some a
  | _ => none

/-- `std::get<JsonObject>`. -/
def object? : Variant D V → Option (List (Bytes × V))
  | .object o => some o
  | _ => none

end Variant

namespace Node

/-! ### The constructors -/

/-- `Value()`. -/
def null : Node D := ⟨.null, .monostate⟩

/-- `Value(bool)`. -/
def ofBool (b : Bool) : Node D := ⟨.bool, .bool b⟩

/-- `Value(int)`. -/
def ofInt (i : Int32) : Node D := ⟨.int, .int64 i.toInt64⟩

/-- `Value(double)`. -/
def ofDouble (d : D) : Node D := ⟨.double, .double d⟩

/-- `Value(const char*)` and `Value(const std::string&)`. -/
def ofString (s : Bytes) : Node D := ⟨.string, .string s⟩

/-- `Value(const Array&)`. -/
def ofArray (arr : List (Node D)) : Node D := ⟨.array, .array arr⟩

/-- `Value(const Object&)`. -/
def ofObject (obj : List (Bytes × Node D)) : Node D := ⟨.object, .object obj⟩

/-- `Value(const Value&)`: each level copies the tag and the variant. -/
def copy (other : Node D) : Node D := ⟨other.type_, other.value_⟩

/-- What is left of a value when its variant was moved from: the tag and the alternative are kept, a
vector or a map is empty, and a string has whatever bytes. -/
def movedFrom (n : Node D) (left : Bytes) : Node D :=
  match n.value_ with
  | .string _ => { n with value_ := .string left }
  | .array _ => { n with value_ := .array [] }
  | .object _ => { n with value_ := .object [] }
  | _ => n

/-! ### To write both fields -/

/-- A member function of `Value`. -/
abbrev Method (D α : Type) := Throwing (Node D) Thrown α

/-- Two assignments: first the tag, then the variant. -/
def assign (t : ValueType) (v : Variant D (Node D)) : Method D Unit := do
  modify fun n => { n with type_ := t }
  modify fun n => { n with value_ := v }

/-- `operator=`, both of them: the variant of `other` is copied or moved. -/
def assignFrom (other : Node D) : Method D Unit := assign other.type_ other.value_

/-- `Clear` and `SetNull`. -/
def clear : Method D Unit := assign .null .monostate

/-- `setBool`. -/
def setBool (b : Bool) : Method D Unit := assign .bool (.bool b)

/-- `setInt`, which widens its argument. -/
def setInt (i : Int32) : Method D Unit := assign .int (.int64 i.toInt64)

/-- `setDouble`. -/
def setDouble (d : D) : Method D Unit := assign .double (.double d)

/-- `setString`. -/
def setString (s : Bytes) : Method D Unit := assign .string (.string s)

/-- `setArray`: an empty one. -/
def setArray : Method D Unit := assign .array (.array [])

/-- `setObject`: an empty one. -/
def setObject : Method D Unit := assign .object (.object [])

/-! ### To look at the tag and to take the variant -/

/-- `checkType`: another type throws. -/
def checkType (expected : ValueType) : Method D Unit := do
  let n ← get
  if n.type_ ≠ expected then throw (.jsonParseException (ascii "Type Error: Invalid type"))
  else pure ()

/-- `std::get<A>(value_)`, where `pick` takes the alternative `A`. -/
def stdGet (pick : Variant D (Node D) → Option α) : Method D α := do
  let n ← get
  match pick n.value_ with
  | some a => pure a
  | none => throw .badVariantAccess

/-- The functions `As…`. -/
def as (expected : ValueType) (pick : Variant D (Node D) → Option α) : Method D α := do
  checkType expected
  stdGet pick

/-- `asBool`. -/
def asBool : Method D Bool := as .bool Variant.bool?

/-- The `int64_t` becomes an `int`. -/
def asInt : Method D Int32 := do
  let i ← as .int Variant.int64?
  pure i.toInt32

/-- `asDouble`. -/
def asDouble : Method D D := as .double Variant.double?

/-- `asString`. -/
def asString : Method D Bytes := as .string Variant.string?

/-- `asArray`. -/
def asArray : Method D (List (Node D)) := as .array Variant.array?

/-- `asObject`. -/
def asObject : Method D (List (Bytes × Node D)) := as .object Variant.object?

/-- `isUInt`. -/
def isUInt : Method D Bool := do
  let n ← get
  if n.type_ = .int then
    let i ← asInt
    pure (0 ≤ i)
  else pure false

/-- `empty`. -/
def empty : Method D Bool := do
  let n ← get
  match n.type_ with
  | .null => pure true
  | .bool => pure false
  | .int => pure false
  | .double => pure false
  | .string => do
      let s ← stdGet Variant.string?
      pure s.isEmpty
  | .array => do
      let arr ← stdGet Variant.array?
      pure arr.isEmpty
  | .object => do
      let obj ← stdGet Variant.object?
      pure obj.isEmpty

/-- `size`. -/
def size : Method D ℕ := do
  let n ← get
  match n.type_ with
  | .array => do
      let arr ← stdGet Variant.array?
      pure arr.length
  | .object => do
      let obj ← stdGet Variant.object?
      pure obj.length
  | _ => pure 0

/-! ### Arrays -/

/-- The way from a value to one inside it. -/
inductive Step where
  | index (i : ℕ)
  | key (k : Bytes)
  deriving DecidableEq, Repr

/-- The array is written in place. -/
def writeArray (arr : List (Node D)) : Method D Unit :=
  modify fun n => { n with value_ := .array arr }

variable (maxSize : ℕ)

/-- `std::vector::resize`. -/
def resizeVector (arr : List (Node D)) (newSize : ℕ) : Method D Unit :=
  if arr.length < newSize ∧ maxSize < newSize then throw .lengthError
  else writeArray (arr.take newSize ++ List.replicate (newSize - arr.length) null)

/-- A negative `newSize` becomes a huge `size_t`. -/
def resize (newSize : Int32) : Method D Unit := do
  let arr ← as .array Variant.array?
  resizeVector maxSize arr (newSize.toInt % 2 ^ 64).toNat

/-- `operator[](size_t)`.  For the greatest `size_t` the new size overflows to 0, and the reference
that is returned refers to nothing. -/
def atIndex (index : UInt64) : Method D Step := do
  let arr ← as .array Variant.array?
  if index.toNat ≥ arr.length then resizeVector maxSize arr (index + 1).toNat
  else pure ()
  pure (.index index.toNat)

/-- `operator[](size_t) const`. -/
def constAtIndex (index : UInt64) : Method D Step := do
  let arr ← as .array Variant.array?
  if index.toNat ≥ arr.length then throw (.outOfRange (ascii "Array index out of range"))
  else pure (.index index.toNat)

/-- `Append`, with a copy of its argument. -/
def append (val : Node D) : Method D Unit := do
  let arr ← as .array Variant.array?
  if maxSize ≤ arr.length then throw .lengthError
  else writeArray (arr ++ [val])

/-- `Remove(size_t)`. -/
def removeIndex (index : UInt64) : Method D Unit := do
  let arr ← as .array Variant.array?
  if index.toNat ≥ arr.length then throw (.outOfRange (ascii "Array index out of range"))
  else writeArray (arr.eraseIdx index.toNat)

/-! ### Objects -/

/-- The object is written in place. -/
def writeObject (obj : List (Bytes × Node D)) : Method D Unit :=
  modify fun n => { n with value_ := .object obj }

/-- `unordered_map::operator[]` and `insert`: nothing happens where the key is there. -/
def emplace (obj : List (Bytes × Node D)) (key : Bytes) (n : Node D) : List (Bytes × Node D) :=
  if (obj.map Prod.fst).contains key then obj else obj ++ [(key, n)]

/-- `operator[](const std::string&)` of an object. -/
def atKeyOfObject (key : Bytes) : Method D Step := do
  let obj ← as .object Variant.object?
  writeObject (emplace obj key null)
  pure (.key key)

/-- `operator[](const std::string&)`: of `Null` it first makes an object with this key. -/
def atKey (key : Bytes) : Method D Step := do
  let n ← get
  if n.type_ = .null then
    assignFrom (ofObject [(key, null)])
    atKeyOfObject key
  else atKeyOfObject key

/-- `operator[](const std::string&) const`; `none` stands for the static empty value. -/
def constAtKey (key : Bytes) : Method D (Option Step) := do
  let obj ← as .object Variant.object?
  pure ((obj.lookup key).map fun _ => .key key)

/-- `Remove(const std::string&)`. -/
def removeKey (key : Bytes) : Method D Unit := do
  let obj ← as .object Variant.object?
  writeObject (obj.filter (·.1 ≠ key))

/-! ### Calls -/

/-- A call of a member function that is not given another `Value`. -/
inductive Call (D : Type) where
  | clear
  | setBool (b : Bool)
  | setInt (i : Int32)
  | setDouble (d : D)
  | setString (s : Bytes)
  | setArray
  | setObject
  | asBool
  | asInt
  | asDouble
  | asString
  | asArray
  | asObject
  | isUInt
  | empty
  | size
  | resize (newSize : Int32)
  | atIndex (index : UInt64)
  | constAtIndex (index : UInt64)
  | removeIndex (index : UInt64)
  | atKey (key : Bytes)
  | constAtKey (key : Bytes)
  | removeKey (key : Bytes)

/-- What a call does, whatever it returns. -/
def discard (m : Method D α) : Method D Unit := do
  let _ ← m
  pure ()

/-- The method that a call runs. -/
def Call.method : Call D → Method D Unit
  | .clear => Node.clear
  | .setBool b => Node.setBool b
  | .setInt i => Node.setInt i
  | .setDouble d => Node.setDouble d
  | .setString s => Node.setString s
  | .setArray => Node.setArray
  | .setObject => Node.setObject
  | .asBool => discard Node.asBool
  | .asInt => discard Node.asInt
  | .asDouble => discard Node.asDouble
  | .asString => discard Node.asString
  | .asArray => discard Node.asArray
  | .asObject => discard Node.asObject
  | .isUInt => discard Node.isUInt
  | .empty => discard Node.empty
  | .size => discard Node.size
  | .resize newSize => Node.resize maxSize newSize
  | .atIndex index => discard (Node.atIndex maxSize index)
  | .constAtIndex index => discard (Node.constAtIndex index)
  | .removeIndex index => Node.removeIndex index
  | .atKey key => discard (Node.atKey key)
  | .constAtKey key => discard (Node.constAtKey key)
  | .removeKey key => Node.removeKey key

end Node
end Json
end BreUtils
