/-
# The tag of a `Value` names what its variant holds

A `Value` has two fields that no type keeps together (`BreUtils.Json.Members`).  A value
is `Consistent` when the tag names the alternative that the variant holds, there and in
every value inside.  Each constructor makes a consistent value, and each member function,
called on one, leaves one, or throws before its first write and leaves what it found; and
it never throws `std::bad_variant_access` (`Call.keeps`).

That is what the other modules rely on, where a value is its alternative and has no tag:
the consistent values are those of `BreUtils.Json.Value`, written with both fields
(`consistent_iff`).
-/

import BreUtils.Json.Members
import BreUtils.Json.Value
import BreUtils.Lib.Tree

namespace BreUtils
namespace Json
namespace Node

open Cpp Lib Throwing

variable {D α : Type}

/-- **The two fields agree**, here and in every value inside. -/
inductive Consistent : Node D → Prop
  | mk {n : Node D} (tag : n.value_.type = n.type_)
      /- The `int64_t` was an `int`. -/
      (fits : ∀ i, n.value_ = .int64 i → ∃ j : Int32, i = j.toInt64)
      /- A map has one value under each key. -/
      (keys : ∀ o, n.value_ = .object o → (o.map Prod.fst).Nodup)
      (inside : ∀ m ∈ n.value_.children, Consistent m) : Consistent n

namespace Consistent

variable {n : Node D}

/-- The tag is that of the value. -/
theorem tag (h : Consistent n) : n.value_.type = n.type_ := by
  cases h
  assumption

/-- An integer was an `int`. -/
theorem fits (h : Consistent n) {i : Int64} (hi : n.value_ = .int64 i) :
    ∃ j : Int32, i = j.toInt64 := by
  obtain ⟨-, hfits, -, -⟩ := h
  exact hfits i hi

/-- The keys of an object are distinct. -/
theorem keys (h : Consistent n) {o : List (Bytes × Node D)} (ho : n.value_ = .object o) :
    (o.map Prod.fst).Nodup := by
  obtain ⟨-, -, hkeys, -⟩ := h
  exact hkeys o ho

/-- What is inside is consistent. -/
theorem inside (h : Consistent n) {m : Node D} (hm : m ∈ n.value_.children) : Consistent m := by
  obtain ⟨-, -, -, hinside⟩ := h
  exact hinside m hm

end Consistent

/-! ### The constructors -/

/-- A variant with nothing to agree on below the tag. -/
theorem consistent_of_leaf (v : Variant D (Node D)) (hint : v.int64? = none)
    (hobject : v.object? = none) (hchildren : v.children = []) : Consistent ⟨v.type, v⟩ := by
  refine .mk rfl ?_ ?_ ?_
  · rintro i rfl
    cases hint
  · rintro o rfl
    cases hobject
  · intro m hm
    rw [hchildren] at hm
    exact absurd hm List.not_mem_nil

/-- Null. -/
theorem consistent_null : Consistent (null : Node D) :=
  consistent_of_leaf .monostate rfl rfl rfl

/-- A node of a bool, -/
theorem consistent_ofBool (b : Bool) : Consistent (ofBool b : Node D) :=
  consistent_of_leaf (.bool b) rfl rfl rfl

/-- of an `int`, -/
theorem consistent_ofInt (i : Int32) : Consistent (ofInt i : Node D) :=
  .mk rfl (fun _ hi => ⟨i, (Variant.int64.inj hi).symm⟩) (by simp [ofInt])
    (by simp [ofInt, Variant.children])

/-- of a double, -/
theorem consistent_ofDouble (d : D) : Consistent (ofDouble d) :=
  consistent_of_leaf (.double d) rfl rfl rfl

/-- of a string, -/
theorem consistent_ofString (s : Bytes) : Consistent (ofString s : Node D) :=
  consistent_of_leaf (.string s) rfl rfl rfl

/-- of consistent elements, -/
theorem consistent_ofArray {arr : List (Node D)} (h : ∀ m ∈ arr, Consistent m) :
    Consistent (ofArray arr) :=
  .mk rfl (by simp [ofArray]) (by simp [ofArray]) h

/-- and of consistent members. -/
theorem consistent_ofObject {obj : List (Bytes × Node D)} (hkeys : (obj.map Prod.fst).Nodup)
    (h : ∀ e ∈ obj, Consistent e.2) : Consistent (ofObject obj) := by
  refine .mk rfl (by simp [ofObject]) (fun o ho => Variant.object.inj ho ▸ hkeys) fun m hm => ?_
  obtain ⟨e, he, rfl⟩ := List.mem_map.1 hm
  exact h e he

/-- A copy is the same node. -/
theorem copy_eq (n : Node D) : n.copy = n := by
  cases n
  rfl

/-- A value that was moved from is consistent still. -/
theorem Consistent.movedFrom {n : Node D} (h : Consistent n) (left : Bytes) :
    Consistent (n.movedFrom left) := by
  obtain ⟨t, v⟩ := n
  obtain rfl : v.type = t := h.tag
  cases v with
  | string s => exact consistent_ofString left
  | array a => exact consistent_ofArray (by simp)
  | object o => exact consistent_ofObject (by simp) (by simp)
  | monostate | bool | int64 | double => exact h

/-! ### The member functions -/

/-- Every exception but `std::bad_variant_access`. -/
def Allowed (e : Thrown) : Prop := e ≠ .badVariantAccess

/-- The member function leaves a consistent value, or throws and leaves the value that it found. -/
abbrev Keeps (m : Method D α) : Prop := Strong Allowed Consistent m fun _ n => n.Consistent

/-- Behind `checkType` the tag is the expected one. -/
theorem reads_checkType (expected : ValueType) {P : Node D → Prop} :
    Reads Allowed P (checkType expected) fun _ n => P n ∧ n.type_ = expected := by
  refine Reads.bind (Reads.get (Q := fun m n => m = n ∧ P n) fun n hn => ⟨rfl, hn⟩) fun m => ?_
  refine Reads.ite (fun _ => Reads.throw (by simp [Allowed])) fun htype => Reads.pure ?_
  rintro n ⟨rfl, hn⟩
  exact ⟨hn, not_not.1 htype⟩

/-- `std::get` does not throw when the variant holds what it asks for. -/
theorem reads_stdGet {pick : Variant D (Node D) → Option α} {P : Node D → Prop}
    (h : ∀ n, P n → ∃ a, pick n.value_ = some a) :
    Reads Allowed P (stdGet pick) fun a n => P n ∧ pick n.value_ = some a := by
  intro n hn
  obtain ⟨a, ha⟩ := h n hn
  refine Or.inl ⟨a, ?_, hn, ha⟩
  unfold stdGet
  rw [exec_bind_of_ok (exec_get n), ha]
  rfl

/-- To look at the tag is enough. -/
theorem reads_as {expected : ValueType} {pick : Variant D (Node D) → Option α}
    (h : ∀ v : Variant D (Node D), v.type = expected → ∃ a, pick v = some a) :
    Reads Allowed Consistent (as expected pick) fun a n =>
      (n.Consistent ∧ n.type_ = expected) ∧ pick n.value_ = some a :=
  (reads_checkType expected).bind fun _ =>
    reads_stdGet fun n hn => h n.value_ (hn.1.tag.trans hn.2)

/-- A value with the type of an array is one. -/
theorem exists_array {v : Variant D (Node D)} (h : v.type = .array) : ∃ a, v.array? = some a := by
  cases v <;> simp [Variant.type, Variant.array?] at h ⊢

/-- A value with the type of an object is one. -/
theorem exists_object {v : Variant D (Node D)} (h : v.type = .object) :
    ∃ o, v.object? = some o := by
  cases v <;> simp [Variant.type, Variant.object?] at h ⊢

/-- A node with an array in it. -/
theorem eq_ofArray {n : Node D} {arr : List (Node D)} (ht : n.type_ = .array)
    (h : n.value_.array? = some arr) : n = ofArray arr := by
  obtain ⟨t, v⟩ := n
  obtain rfl : t = .array := ht
  cases v <;> simp [Variant.array?] at h
  rw [h, ofArray]

/-- A node with an object in it. -/
theorem eq_ofObject {n : Node D} {obj : List (Bytes × Node D)} (ht : n.type_ = .object)
    (h : n.value_.object? = some obj) : n = ofObject obj := by
  obtain ⟨t, v⟩ := n
  obtain rfl : t = .object := ht
  cases v <;> simp [Variant.object?] at h
  rw [h, ofObject]

/-- Both assignments are made, and nothing is thrown between them. -/
theorem total_assign (t : ValueType) (v : Variant D (Node D)) {P : Node D → Prop} :
    Total P (assign t v) fun _ n => n = ⟨t, v⟩ := by
  refine Total.bind (R := fun _ n => n.type_ = t) (Total.modify fun n _ => rfl) fun _ => ?_
  refine Total.modify fun n hn => ?_
  rw [← hn]

/-- An assignment leaves what was assigned. -/
theorem consistent_assign {t : ValueType} {v : Variant D (Node D)} (h : Consistent ⟨t, v⟩) :
    Total Consistent (assign t v) fun _ n => n.Consistent := by
  intro n _
  obtain ⟨a, u, hexec, rfl⟩ := total_assign t v (P := fun _ => True) n trivial
  exact ⟨a, _, hexec, h⟩

/-- An assignment of a consistent value. -/
theorem keeps_assign {t : ValueType} {v : Variant D (Node D)} (h : Consistent ⟨t, v⟩) :
    Keeps (assign t v) := (consistent_assign h).strong

/-- An assignment of another node. -/
theorem consistent_assignFrom {other : Node D} (h : Consistent other) :
    Total Consistent (assignFrom other) fun _ n => n.Consistent :=
  consistent_assign (show Consistent other.copy from (copy_eq other).symm ▸ h)

/-- The function looks for an array and goes on with its elements. -/
theorem keeps_array {f : List (Node D) → Method D α}
    (hf : ∀ arr, (∀ m ∈ arr, Consistent m) →
      Strong Allowed (fun n => n = ofArray arr) (f arr) fun _ n => n.Consistent) :
    Keeps (do
      let arr ← as .array Variant.array?
      f arr) := by
  refine Strong.bind (reads_as fun v hv => exists_array hv) fun arr => ?_
  rintro n ⟨⟨hn, htype⟩, harr⟩
  obtain rfl := eq_ofArray htype harr
  exact hf arr (fun m hm => hn.inside hm) _ rfl

/-- The function looks for an object and goes on with its members. -/
theorem keeps_object {f : List (Bytes × Node D) → Method D α}
    (hf : ∀ obj, (obj.map Prod.fst).Nodup → (∀ e ∈ obj, Consistent e.2) →
      Strong Allowed (fun n => n = ofObject obj) (f obj) fun _ n => n.Consistent) :
    Keeps (do
      let obj ← as .object Variant.object?
      f obj) := by
  refine Strong.bind (reads_as fun v hv => exists_object hv) fun obj => ?_
  rintro n ⟨⟨hn, htype⟩, hobj⟩
  obtain rfl := eq_ofObject htype hobj
  exact hf obj (hn.keys rfl) (fun e he => hn.inside (List.mem_map_of_mem he)) _ rfl

/-- A write to the array of a node. -/
theorem total_writeArray {arr arr' : List (Node D)} (h : ∀ m ∈ arr', Consistent m) :
    Total (fun n => n = ofArray arr) (writeArray arr') fun _ n => n.Consistent := by
  refine Total.modify ?_
  rintro n rfl
  exact consistent_ofArray h

/-- A write to the object of a node. -/
theorem total_writeObject {obj obj' : List (Bytes × Node D)} (hkeys : (obj'.map Prod.fst).Nodup)
    (h : ∀ e ∈ obj', Consistent e.2) :
    Total (fun n => n = ofObject obj) (writeObject obj') fun _ n => n.Consistent := by
  refine Total.modify ?_
  rintro n rfl
  exact consistent_ofObject hkeys h

/-- A vector that grows is filled with nulls. -/
theorem strong_resizeVector (maxSize : ℕ) {arr : List (Node D)} (h : ∀ m ∈ arr, Consistent m)
    (newSize : ℕ) : Strong Allowed (fun n => n = ofArray arr) (resizeVector maxSize arr newSize)
      fun _ n => n.Consistent := by
  unfold resizeVector
  split_ifs
  · exact (Reads.throw (by simp [Allowed])).strong
  · refine (total_writeArray fun m hm => ?_).strong
    rcases List.mem_append.1 hm with hm | hm
    · exact h m (List.mem_of_mem_take hm)
    · rw [List.eq_of_mem_replicate hm]
      exact consistent_null

/-- `resize`. -/
theorem keeps_resize (maxSize : ℕ) (newSize : Int32) :
    Keeps (resize maxSize newSize : Method D Unit) :=
  keeps_array fun _ h => strong_resizeVector maxSize h _

/-- `operator[]` with an index. -/
theorem keeps_atIndex (maxSize : ℕ) (index : UInt64) :
    Keeps (atIndex maxSize index : Method D Step) := by
  refine keeps_array fun arr h => ?_
  have hpure : ∀ _ : Unit, Total Consistent (pure (.index index.toNat) : Method D Step)
      fun _ n => n.Consistent := fun _ => Total.pure fun _ hn => hn
  by_cases hindex : index.toNat ≥ arr.length
  · simp only [if_pos hindex]
    exact (strong_resizeVector maxSize h _).bind_total hpure
  · simp only [if_neg hindex]
    refine (Total.pure ?_).strong
    rintro n rfl
    exact consistent_ofArray h

/-- The constant `operator[]` with an index. -/
theorem keeps_constAtIndex (index : UInt64) : Keeps (constAtIndex index : Method D Step) := by
  refine keeps_array fun arr h => ?_
  refine (Reads.ite (fun _ => Reads.throw (by simp [Allowed])) fun _ => Reads.pure ?_).strong
  rintro n rfl
  exact consistent_ofArray h

/-- `append`. -/
theorem keeps_append (maxSize : ℕ) {val : Node D} (hval : Consistent val) :
    Keeps (append maxSize val) := by
  refine keeps_array fun arr h => ?_
  split_ifs
  · exact (Reads.throw (by simp [Allowed])).strong
  · refine (total_writeArray fun m hm => ?_).strong
    rcases List.mem_append.1 hm with hm | hm
    · exact h m hm
    · exact List.mem_singleton.1 hm ▸ hval

/-- `remove` with an index. -/
theorem keeps_removeIndex (index : UInt64) : Keeps (removeIndex index : Method D Unit) := by
  refine keeps_array fun arr h => ?_
  split_ifs
  · exact (Reads.throw (by simp [Allowed])).strong
  · exact (total_writeArray fun m hm => h m (List.mem_of_mem_eraseIdx hm)).strong

/-- A key that is there is not put in again. -/
theorem nodup_emplace {obj : List (Bytes × Node D)} (h : (obj.map Prod.fst).Nodup) (key : Bytes)
    (n : Node D) : ((emplace obj key n).map Prod.fst).Nodup := by
  unfold emplace
  split_ifs with hkey
  · exact h
  · rw [List.map_append, List.nodup_append]
    refine ⟨h, List.nodup_singleton _, ?_⟩
    rintro k hk _ hsame rfl
    have hsame : k = key := List.mem_singleton.1 hsame
    exact hkey (List.contains_iff_mem.2 (hsame ▸ hk))

/-- What is put in is consistent, like the rest. -/
theorem consistent_emplace {obj : List (Bytes × Node D)} (h : ∀ e ∈ obj, Consistent e.2)
    (key : Bytes) {n : Node D} (hn : Consistent n) : ∀ e ∈ emplace obj key n, Consistent e.2 := by
  intro e he
  unfold emplace at he
  split_ifs at he
  · exact h e he
  · rcases List.mem_append.1 he with he | he
    · exact h e he
    · exact List.mem_singleton.1 he ▸ hn

/-- `operator[]` puts a null under a key that is not there. -/
theorem exec_atKeyOfObject (obj : List (Bytes × Node D)) (key : Bytes) :
    exec (atKeyOfObject key) (ofObject obj) =
      (.ok (.key key), ofObject (emplace obj key null)) := rfl

/-- `operator[]` with a key, on an object. -/
theorem keeps_atKeyOfObject (key : Bytes) : Keeps (atKeyOfObject key : Method D Step) := by
  refine keeps_object fun obj hkeys h => ?_
  rintro n rfl
  exact Or.inl ⟨_, _, exec_atKeyOfObject obj key,
    consistent_ofObject (nodup_emplace hkeys key null) (consistent_emplace h key consistent_null)⟩

/-- `Null` becomes an object first, and nothing is thrown after that. -/
theorem keeps_atKey (key : Bytes) : Keeps (atKey key : Method D Step) := by
  intro n hn
  unfold atKey
  rw [exec_bind_of_ok (exec_get n)]
  by_cases hnull : n.type_ = .null
  · obtain ⟨_, u, hassign, rfl⟩ :=
      total_assign .object (.object [(key, null)]) (P := fun _ => True) n trivial
    rw [if_pos hnull, exec_bind_of_ok (by exact hassign)]
    refine Or.inl ⟨_, _, exec_atKeyOfObject [(key, null)] key, ?_⟩
    refine consistent_ofObject (nodup_emplace (by simp) key null)
      (consistent_emplace (fun e he => ?_) key consistent_null)
    rw [List.mem_singleton.1 he]
    exact consistent_null
  · rw [if_neg hnull]
    exact keeps_atKeyOfObject key n hn

/-- The constant `operator[]` with a key. -/
theorem keeps_constAtKey (key : Bytes) : Keeps (constAtKey key : Method D (Option Step)) := by
  refine keeps_object fun obj hkeys h => (Total.pure ?_).strong
  rintro n rfl
  exact consistent_ofObject hkeys h

/-- `remove` with a key. -/
theorem keeps_removeKey (key : Bytes) : Keeps (removeKey key : Method D Unit) := by
  refine keeps_object fun obj hkeys h => (total_writeObject ?_ fun e he => ?_).strong
  · exact hkeys.sublist (List.filter_sublist.map Prod.fst)
  · exact h e (List.mem_of_mem_filter he)

/-! ### Functions that read -/

/-- A reader of one type. -/
theorem keeps_as {expected : ValueType} {pick : Variant D (Node D) → Option α}
    (h : ∀ v : Variant D (Node D), v.type = expected → ∃ a, pick v = some a) :
    Keeps (as expected pick) := by
  intro n hn
  rcases reads_as h n hn with ⟨a, hexec, ⟨hn, -⟩, -⟩ | hthrow
  · exact Or.inl ⟨a, n, hexec, hn⟩
  · exact Or.inr hthrow

/-- `asInt`. -/
theorem keeps_asInt : Keeps (asInt : Method D Int32) :=
  (keeps_as fun v hv => by
    cases v <;> simp [Variant.type, Variant.int64?] at hv ⊢).bind_total
      fun _ => Total.pure fun _ hn => hn

/-- `isUInt`. -/
theorem keeps_isUInt : Keeps (isUInt : Method D Bool) := by
  rintro ⟨t, v⟩ hn
  obtain rfl : v.type = t := hn.tag
  cases v <;> exact Or.inl ⟨_, _, rfl, hn⟩

/-- `empty`. -/
theorem keeps_empty : Keeps (empty : Method D Bool) := by
  rintro ⟨t, v⟩ hn
  obtain rfl : v.type = t := hn.tag
  cases v <;> exact Or.inl ⟨_, _, rfl, hn⟩

/-- `size`. -/
theorem keeps_size : Keeps (size : Method D ℕ) := by
  rintro ⟨t, v⟩ hn
  obtain rfl : v.type = t := hn.tag
  cases v <;> exact Or.inl ⟨_, _, rfl, hn⟩

/-- What a function returns may be forgotten. -/
theorem keeps_discard {m : Method D α} (h : Keeps m) : Keeps (discard m) :=
  h.bind_total fun _ => Total.pure fun _ hn => hn

/-- **Every call keeps the two fields in agreement**, and does all of its work or none. -/
theorem Call.keeps (maxSize : ℕ) (c : Call D) : Keeps (c.method maxSize) := by
  cases c with
  | clear => exact keeps_assign consistent_null
  | setBool b => exact keeps_assign (consistent_ofBool b)
  | setInt i => exact keeps_assign (consistent_ofInt i)
  | setDouble d => exact keeps_assign (consistent_ofDouble d)
  | setString s => exact keeps_assign (consistent_ofString s)
  | setArray => exact keeps_assign (consistent_ofArray (by simp))
  | setObject => exact keeps_assign (consistent_ofObject (by simp) (by simp))
  | asBool =>
      exact keeps_discard (keeps_as fun v hv => by
        cases v <;> simp [Variant.type, Variant.bool?] at hv ⊢)
  | asInt => exact keeps_discard keeps_asInt
  | asDouble =>
      exact keeps_discard (keeps_as fun v hv => by
        cases v <;> simp [Variant.type, Variant.double?] at hv ⊢)
  | asString =>
      exact keeps_discard (keeps_as fun v hv => by
        cases v <;> simp [Variant.type, Variant.string?] at hv ⊢)
  | asArray => exact keeps_discard (keeps_as fun v hv => exists_array hv)
  | asObject => exact keeps_discard (keeps_as fun v hv => exists_object hv)
  | isUInt => exact keeps_discard keeps_isUInt
  | empty => exact keeps_discard keeps_empty
  | size => exact keeps_discard keeps_size
  | resize newSize => exact keeps_resize maxSize newSize
  | atIndex index => exact keeps_discard (keeps_atIndex maxSize index)
  | constAtIndex index => exact keeps_discard (keeps_constAtIndex index)
  | removeIndex index => exact keeps_removeIndex index
  | atKey key => exact keeps_discard (keeps_atKey key)
  | constAtKey key => exact keeps_discard (keeps_constAtKey key)
  | removeKey key => exact keeps_removeKey key

/-! ### Values without a tag -/

/-- A value, with both fields. -/
def ofValue : Value D → Node D
  | .null => null
  | .bool b => ofBool b
  | .int i => ofInt i
  | .double d => ofDouble d
  | .string s => ofString s
  | .array a => ofArray (a.attach.map fun ⟨v, _⟩ => ofValue v)
  | .object o => ofObject (o.attach.map fun ⟨(k, v), _⟩ => (k, ofValue v))
termination_by v => sizeOf v
decreasing_by
  · have := List.sizeOf_lt_of_mem ‹_ ∈ a›
    simp only [Value.array.sizeOf_spec]
    omega
  · have := List.sizeOf_lt_of_mem ‹_ ∈ o›
    simp only [Value.object.sizeOf_spec, Prod.mk.sizeOf_spec] at *
    omega

/-- The node of an array. -/
theorem ofValue_array (a : List (Value D)) : ofValue (.array a) = ofArray (a.map ofValue) := by
  rw [ofValue]
  simp

/-- The node of an object. -/
theorem ofValue_object (o : List (Bytes × Value D)) :
    ofValue (.object o) = ofObject (o.map fun e => (e.1, ofValue e.2)) := by
  rw [ofValue]
  simp [List.map_attach_eq_pmap]

/-- **A value is a consistent node.** -/
theorem consistent_ofValue {v : Value D} (h : v.WF) : (ofValue v).Consistent := by
  induction h with
  | null =>
      rw [ofValue]
      exact consistent_null
  | bool b =>
      rw [ofValue]
      exact consistent_ofBool b
  | int i =>
      rw [ofValue]
      exact consistent_ofInt i
  | double d =>
      rw [ofValue]
      exact consistent_ofDouble d
  | string s =>
      rw [ofValue]
      exact consistent_ofString s
  | @array a _ ih =>
      rw [ofValue_array]
      refine consistent_ofArray fun m hm => ?_
      obtain ⟨v, hv, rfl⟩ := List.mem_map.1 hm
      exact ih v hv
  | @object o hkeys _ ih =>
      rw [ofValue_object]
      refine consistent_ofObject ?_ fun e he => ?_
      · rw [List.map_map]
        exact hkeys
      · obtain ⟨e, he', rfl⟩ := List.mem_map.1 he
        exact ih e he'

/-- Where every element of a list is an image, the list is one. -/
theorem exists_map_eq {A B : Type} {f : A → B} {P : A → Prop} {l : List B}
    (h : ∀ b ∈ l, ∃ a, P a ∧ f a = b) : ∃ l' : List A, (∀ a ∈ l', P a) ∧ l'.map f = l := by
  induction l with
  | nil => exact ⟨[], by simp, rfl⟩
  | cons b l ih =>
      obtain ⟨a, ha, rfl⟩ := h b List.mem_cons_self
      obtain ⟨l', hl', rfl⟩ := ih fun c hc => h c (List.mem_cons_of_mem _ hc)
      refine ⟨a :: l', fun c hc => ?_, rfl⟩
      rcases List.mem_cons.1 hc with rfl | hc
      · exact ha
      · exact hl' c hc

/-- **A consistent value is a value without a tag.** -/
theorem consistent_iff {n : Node D} : n.Consistent ↔ ∃ v : Value D, v.WF ∧ ofValue v = n := by
  constructor
  · intro h
    induction h with
    | @mk n tag fits keys inside ih =>
        obtain ⟨t, v⟩ := n
        obtain rfl : v.type = t := tag
        cases v with
        | monostate => exact ⟨.null, .null, by rw [ofValue]; rfl⟩
        | bool b => exact ⟨.bool b, .bool b, by rw [ofValue]; rfl⟩
        | int64 i =>
            obtain ⟨j, rfl⟩ := fits i rfl
            exact ⟨.int j, .int j, by rw [ofValue]; rfl⟩
        | double d => exact ⟨.double d, .double d, by rw [ofValue]; rfl⟩
        | string s => exact ⟨.string s, .string s, by rw [ofValue]; rfl⟩
        | array a =>
            obtain ⟨vs, hvs, hmap⟩ := exists_map_eq ih
            refine ⟨.array vs, .array hvs, ?_⟩
            rw [ofValue_array, hmap]
            rfl
        | object o =>
            have hmembers : ∀ e ∈ o, ∃ e' : Bytes × Value D, e'.2.WF ∧
                (e'.1, ofValue e'.2) = e := by
              intro e he
              obtain ⟨v, hv, heq⟩ := ih e.2 (List.mem_map_of_mem he)
              exact ⟨(e.1, v), hv, by rw [heq]⟩
            obtain ⟨ms, hms, hmap⟩ := exists_map_eq hmembers
            have hkeys : ms.map Prod.fst = o.map Prod.fst := by
              rw [← hmap, List.map_map]
              rfl
            refine ⟨.object ms, .object (hkeys ▸ keys o rfl) hms, ?_⟩
            rw [ofValue_object, hmap]
            rfl
  · rintro ⟨v, hv, rfl⟩
    exact consistent_ofValue hv

end Node
end Json
end BreUtils
