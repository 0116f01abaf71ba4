/-
# `bre::json::Value`

`Json/json_value.hpp` and the comparison in `Json/json_tool.hpp`.  A value holds
one of the alternatives of the variant; an `Object` is an `unordered_map`, here
the list of its pairs in the order in which the standard library iterates over
them.  That order is unspecified, and `==` does not see it.  `canon` puts the
pairs of every object in the order of their keys (`BreUtils.Lib.AssocMap`).
-/

import BreUtils.Cpp.Text
import BreUtils.Lib.AssocMap

namespace BreUtils
namespace Json

open Lib Cpp

/-- `Value`, over the doubles `D`. -/
inductive Value (D : Type) where
  | null
  | bool (b : Bool)
  | int (i : Int32)
  | double (d : D)
  | string (s : Bytes)
  | array (a : List (Value D))
  | object (o : List (Bytes × Value D))

variable {D : Type}

namespace Value

/-- `AsString`: `checkType` throws on any other type. -/
def asString : Value D → Except Exn Bytes
  | .string s => .ok s
  | _ => .error (.jsonParseException (ascii "Type Error: Invalid type"))

mutual

/-- `Value::operator==`. -/
def beq (rt : Runtime D) : Value D → Value D → Bool
  | .null, .null => true
  | .bool a, .bool b => a == b
  | .int i, .int j => i == j
  | .double d, .double e => rt.beq d e
  | .string s, .string t => s == t
  | .array a, .array b => a.length == b.length && beqArray rt a b
  | .object a, .object b => a.length == b.length && beqObject rt a b
  | _, _ => false

/-- The comparison of two arrays of one length, element by element. -/
def beqArray (rt : Runtime D) : List (Value D) → List (Value D) → Bool
  | [], _ => true
  | _ :: _, [] => false
  | v :: vs, w :: ws => beq rt v w && beqArray rt vs ws

/-- `==` on two `unordered_map`s of one size: every key of the left one is found in the right one
with an equal value. -/
def beqObject (rt : Runtime D) : List (Bytes × Value D) → List (Bytes × Value D) → Bool
  | [], _ => true
  | (k, v) :: ms, o =>
      (match o.lookup k with
        | some w => beq rt v w
        | none => false) && beqObject rt ms o

end

/-- The keys of every object inside the value are distinct. -/
inductive WF : Value D → Prop
  | null : WF .null
  | bool (b : Bool) : WF (.bool b)
  | int (i : Int32) : WF (.int i)
  | double (d : D) : WF (.double d)
  | string (s : Bytes) : WF (.string s)
  | array {a : List (Value D)} : (∀ v ∈ a, WF v) → WF (.array a)
  | object {o : List (Bytes × Value D)} : (o.map Prod.fst).Nodup → (∀ e ∈ o, WF e.2) →
      WF (.object o)

/-- No double is inside the value. -/
inductive NoDouble : Value D → Prop
  | null : NoDouble .null
  | bool (b : Bool) : NoDouble (.bool b)
  | int (i : Int32) : NoDouble (.int i)
  | string (s : Bytes) : NoDouble (.string s)
  | array {a : List (Value D)} : (∀ v ∈ a, NoDouble v) → NoDouble (.array a)
  | object {o : List (Bytes × Value D)} : (∀ e ∈ o, NoDouble e.2) → NoDouble (.object o)

/-- All doubles inside the value satisfy `P`. -/
inductive AllDouble (P : D → Prop) : Value D → Prop
  | null : AllDouble P .null
  | bool (b : Bool) : AllDouble P (.bool b)
  | int (i : Int32) : AllDouble P (.int i)
  | double {d : D} : P d → AllDouble P (.double d)
  | string (s : Bytes) : AllDouble P (.string s)
  | array {a : List (Value D)} : (∀ v ∈ a, AllDouble P v) → AllDouble P (.array a)
  | object {o : List (Bytes × Value D)} : (∀ e ∈ o, AllDouble P e.2) → AllDouble P (.object o)

/-- Without doubles there is nothing to ask of them. -/
theorem NoDouble.allDouble {v : Value D} (h : v.NoDouble) (P : D → Prop) : v.AllDouble P := by
  induction h with
  | null => exact .null
  | bool b => exact .bool b
  | int i => exact .int i
  | string s => exact .string s
  | array _ ih => exact .array ih
  | object _ ih => exact .object ih

/-- The same value with the pairs of every object in the order of their keys. -/
def canon : Value D → Value D
  | .null => .null
  | .bool b => .bool b
  | .int i => .int i
  | .double d => .double d
  | .string s => .string s
  | .array a => .array (a.attach.map fun ⟨v, _⟩ => canon v)
  | .object o => .object
      ((o.attach.map fun ⟨(k, v), _⟩ => (k, canon v)).foldl
        (fun m e => AssocMap.assign m e.1 e.2) [])
termination_by v => sizeOf v
decreasing_by
  · have := List.sizeOf_lt_of_mem ‹_ ∈ a›
    simp only [Value.array.sizeOf_spec]
    omega
  · have := List.sizeOf_lt_of_mem ‹_ ∈ o›
    simp only [Value.object.sizeOf_spec, Prod.mk.sizeOf_spec] at *
    omega

/-- The canonical form of an array. -/
theorem canon_array (a : List (Value D)) : canon (.array a) = .array (a.map canon) := by
  rw [canon]
  simp

/-- The canonical form of an object has the last value of each key. -/
theorem canon_object (o : List (Bytes × Value D)) :
    canon (.object o) = .object
      ((o.map fun e => (e.1, canon e.2)).foldl (fun m e => AssocMap.assign m e.1 e.2) []) := by
  rw [canon]
  simp [List.map_attach_eq_pmap]

/-- An array equals its canonical form if its elements do. -/
theorem beqArray_canon {rt : Runtime D} {a : List (Value D)}
    (h : ∀ v ∈ a, beq rt (canon v) v = true) : beqArray rt (a.map canon) a = true := by
  induction a with
  | nil => rfl
  | cons v a ih =>
      rw [List.map_cons, beqArray, h v (List.mem_cons_self ..),
        ih fun w hw => h w (List.mem_cons_of_mem _ hw)]
      rfl

/-- An object whose members are all in another one. -/
theorem beqObject_of_lookup {rt : Runtime D} {m o : List (Bytes × Value D)}
    (h : ∀ e ∈ m, ∃ v, o.lookup e.1 = some v ∧ beq rt e.2 v = true) : beqObject rt m o = true := by
  induction m with
  | nil => rfl
  | cons e m ih =>
      obtain ⟨k, w⟩ := e
      obtain ⟨v, hv, hbeq⟩ := h (k, w) (List.mem_cons_self ..)
      rw [beqObject, hv]
      simp only [hbeq, Bool.true_and]
      exact ih fun e he => h e (List.mem_cons_of_mem _ he)

/-- **A value without doubles equals its canonical form**; a NaN does not even equal itself. -/
theorem canon_beq {rt : Runtime D} {v : Value D} (hv : v.WF) (hd : v.NoDouble) :
    beq rt (canon v) v = true := by
  induction hv with
  | null | bool | int | string => simp [canon, beq]
  | double d => cases hd
  | @array a _ ih =>
      have hd : ∀ v ∈ a, v.NoDouble := by cases hd; assumption
      rw [canon_array, beq, beqArray_canon fun v hv => ih v hv (hd v hv)]
      simp
  | @object o ho _ ih =>
      have hd : ∀ e ∈ o, e.2.NoDouble := by cases hd; assumption
      have hkeys : (o.map fun e => (e.1, canon e.2)).map Prod.fst = o.map Prod.fst := by simp
      have hperm := AssocMap.foldl_assign_perm (hkeys ▸ ho)
      rw [canon_object, beq, hperm.length_eq]
      simp only [List.length_map, BEq.rfl, Bool.true_and]
      refine beqObject_of_lookup fun e he => ?_
      obtain ⟨e, hmem, rfl⟩ := List.mem_map.1 (hperm.mem_iff.1 he)
      exact ⟨e.2, AssocMap.lookup_of_nodup ho hmem, ih e hmem (hd e hmem)⟩

end Value

end Json
end BreUtils
