/-
# What `Value::operator==` compares

Two objects are compared as `unordered_map`s: they are of one size, and every key of the one is
found in the other with an equal value.  As the keys are distinct, that is the same the other way
round, so `==` is symmetric, and transitive (`beq_equivalence`).  It is no more than what `==` on
doubles is: a value that has a NaN anywhere inside does not equal itself.

`canon` puts the pairs of every object in the order of their keys.  On values whose doubles are
equal only if they are the same, `==` says that the canonical forms are: it sees the whole content,
and nothing of the order of iteration (`beq_iff_canon`).
-/

import BreUtils.Json.Value

namespace BreUtils
namespace Json

open Lib Cpp

variable {D : Type} {rt : Runtime D}

namespace Value

/-! ### Containers -/

/-- Two arrays. -/
theorem beq_array {a b : List (Value D)} :
    beq rt (.array a) (.array b) = true ↔ a.length = b.length ∧
      ∀ (i : ℕ) (v : Value D), a[i]? = some v → ∃ w, b[i]? = some w ∧ beq rt v w = true := by
  rw [beq, Bool.and_eq_true, beq_iff_eq]
  refine and_congr_right fun hlength => ?_
  induction a generalizing b with
  | nil => simp [beqArray]
  | cons v a ih =>
      cases b with
      | nil => simp at hlength
      | cons w b =>
          rw [beqArray, Bool.and_eq_true, ih (by simpa using hlength)]
          constructor
          · rintro ⟨hvw, hrest⟩ i u hu
            cases i with
            | zero =>
                obtain rfl : v = u := by simpa using hu
                exact ⟨w, rfl, hvw⟩
            | succ i => exact hrest i u (by simpa using hu)
          · intro h
            refine ⟨?_, fun i u hu => h (i + 1) u (by simpa using hu)⟩
            obtain ⟨x, hx, hvx⟩ := h 0 v rfl
            obtain rfl : w = x := by simpa using hx
            exact hvx

/-- The loop over the members of the first object. -/
theorem beqObject_iff {o p : List (Bytes × Value D)} :
    beqObject rt o p = true ↔ ∀ e ∈ o, ∃ w, p.lookup e.1 = some w ∧ beq rt e.2 w = true := by
  refine ⟨fun h => ?_, beqObject_of_lookup⟩
  induction o with
  | nil => exact fun e he => absurd he List.not_mem_nil
  | cons e o ih =>
      obtain ⟨k, v⟩ := e
      rw [beqObject, Bool.and_eq_true] at h
      intro e he
      rcases List.mem_cons.1 he with rfl | he
      · have hfound := h.1
        cases hlookup : p.lookup k with
        | none => simp [hlookup] at hfound
        | some w => exact ⟨w, rfl, by simpa [hlookup] using hfound⟩
      · exact ih h.2 e he

/-- Two objects. -/
theorem beq_object {o p : List (Bytes × Value D)} :
    beq rt (.object o) (.object p) = true ↔ o.length = p.length ∧
      ∀ e ∈ o, ∃ w, p.lookup e.1 = some w ∧ beq rt e.2 w = true := by
  rw [beq, Bool.and_eq_true, beq_iff_eq, beqObject_iff]

/-! ### Symmetric and transitive -/

/-- `==` on doubles goes both ways, and on: it does so for the doubles of the standard, of which a
NaN does not equal itself. -/
structure PartialEquivalence (rt : Runtime D) : Prop where
  symm : ∀ {d e : D}, rt.beq d e = true → rt.beq e d = true
  trans : ∀ {d e f : D}, rt.beq d e = true → rt.beq e f = true → rt.beq d f = true

/-- **The comparison is symmetric,** -/
theorem beq_symm (hrt : PartialEquivalence rt) {u v : Value D} (hu : u.WF) (hv : v.WF)
    (h : u.beq rt v = true) : v.beq rt u = true := by
  induction hu generalizing v with
  | null => cases v <;> simp_all [beq]
  | bool b => cases v <;> simp_all [beq]
  | int i => cases v <;> simp_all [beq]
  | string s => cases v <;> simp_all [beq]
  | double d =>
      cases v with
      | double e =>
          rw [beq] at h ⊢
          exact hrt.symm h
      | null | bool | int | string | array | object => simp [beq] at h
  | @array a _ ih =>
      cases v with
      | array b =>
          have hb : ∀ w ∈ b, w.WF := by cases hv; assumption
          rw [beq_array] at h ⊢
          refine ⟨h.1.symm, fun i w hw => ?_⟩
          obtain ⟨hi, -⟩ := List.getElem?_eq_some_iff.1 hw
          have hv : a[i]? = some (a.get ⟨i, h.1 ▸ hi⟩) := List.getElem?_eq_getElem _
          obtain ⟨x, hx, hbeq⟩ := h.2 i _ hv
          obtain rfl := Option.some.inj (hw.symm.trans hx)
          exact ⟨_, hv, ih _ (List.mem_of_getElem? hv) (hb _ (List.mem_of_getElem? hw)) hbeq⟩
      | null | bool | int | double | string | object => simp [beq] at h
  | @object o ho _ ih =>
      cases v with
      | object p =>
          obtain ⟨hp, hvalues⟩ : (p.map Prod.fst).Nodup ∧ ∀ e ∈ p, e.2.WF := by
            cases hv with
            | object hp hvalues => exact ⟨hp, hvalues⟩
          rw [beq_object] at h ⊢
          refine ⟨h.1.symm, ?_⟩
          have hpairs := AssocMap.exists_lookup_symm (R := fun v w => beq rt w v = true) ho hp h.1
            fun e he => by
              obtain ⟨w, hw, hbeq⟩ := h.2 e he
              exact ⟨w, hw, ih e he (hvalues _ (AssocMap.mem_of_lookup hw)) hbeq⟩
          exact hpairs
      | null | bool | int | double | string | array => simp [beq] at h

/-- **and transitive.** -/
theorem beq_trans (hrt : PartialEquivalence rt) {u v w : Value D} (hu : u.WF)
    (h : u.beq rt v = true) (h' : v.beq rt w = true) : u.beq rt w = true := by
  induction hu generalizing v w with
  | null => cases v <;> cases w <;> simp_all [beq]
  | bool b => cases v <;> cases w <;> simp_all [beq]
  | int i => cases v <;> cases w <;> simp_all [beq]
  | string s => cases v <;> cases w <;> simp_all [beq]
  | double d =>
      cases v with
      | double e =>
          cases w with
          | double f =>
              rw [beq] at h h' ⊢
              exact hrt.trans h h'
          | null | bool | int | string | array | object => simp [beq] at h'
      | null | bool | int | string | array | object => simp [beq] at h
  | @array a _ ih =>
      cases v with
      | array b =>
          cases w with
          | array c =>
              rw [beq_array] at h h' ⊢
              refine ⟨h.1.trans h'.1, fun i u hu => ?_⟩
              obtain ⟨x, hx, hux⟩ := h.2 i u hu
              obtain ⟨y, hy, hxy⟩ := h'.2 i x hx
              exact ⟨y, hy, ih u (List.mem_of_getElem? hu) hux hxy⟩
          | null | bool | int | double | string | object => simp [beq] at h'
      | null | bool | int | double | string | object => simp [beq] at h
  | @object o _ _ ih =>
      cases v with
      | object p =>
          cases w with
          | object q =>
              rw [beq_object] at h h' ⊢
              refine ⟨h.1.trans h'.1, fun e he => ?_⟩
              obtain ⟨x, hx, hex⟩ := h.2 e he
              obtain ⟨y, hy, hxy⟩ := h'.2 (e.1, x) (AssocMap.mem_of_lookup hx)
              exact ⟨y, hy, ih e he hex hxy⟩
          | null | bool | int | double | string | array => simp [beq] at h'
      | null | bool | int | double | string | array => simp [beq] at h

/-- A value equals itself exactly if its doubles do. -/
theorem beq_self {v : Value D} (hv : v.WF) :
    v.beq rt v = true ↔ v.AllDouble fun d => rt.beq d d = true := by
  induction hv with
  | null => exact iff_of_true rfl .null
  | bool b => exact iff_of_true (by simp [beq]) (.bool b)
  | int i => exact iff_of_true (by simp [beq]) (.int i)
  | string s => exact iff_of_true (by simp [beq]) (.string s)
  | double d =>
      rw [beq]
      refine ⟨fun h => .double h, fun h => ?_⟩
      cases h
      assumption
  | @array a _ ih =>
      rw [beq_array]
      constructor
      · rintro ⟨-, h⟩
        refine .array fun v hv => (ih v hv).1 ?_
        obtain ⟨i, hi⟩ := List.getElem?_of_mem hv
        obtain ⟨w, hw, hbeq⟩ := h i v hi
        rwa [Option.some.inj (hi.symm.trans hw)] at hbeq ⊢
      · intro h
        have ha : ∀ v ∈ a, v.AllDouble fun d => rt.beq d d = true := by cases h; assumption
        refine ⟨rfl, fun i v hi => ⟨v, hi, ?_⟩⟩
        have hmem := List.mem_of_getElem? hi
        exact (ih v hmem).2 (ha v hmem)
  | @object o ho _ ih =>
      rw [beq_object]
      constructor
      · rintro ⟨-, h⟩
        refine .object fun e he => (ih e he).1 ?_
        obtain ⟨w, hw, hbeq⟩ := h e he
        rw [AssocMap.lookup_of_nodup ho he] at hw
        rwa [← Option.some.inj hw] at hbeq
      · intro h
        have ho' : ∀ e ∈ o, e.2.AllDouble fun d => rt.beq d d = true := by cases h; assumption
        exact ⟨rfl, fun e he => ⟨e.2, AssocMap.lookup_of_nodup ho he, (ih e he).2 (ho' e he)⟩⟩

/-- **`==` is a partial equivalence**, on all values whose objects have distinct keys and in
whichever order these are iterated: it is symmetric and transitive, and exactly the values without a
NaN inside equal themselves. -/
theorem beq_equivalence (rt : Runtime D) (hrt : PartialEquivalence rt) (u v w : Value D)
    (hu : u.WF) (hv : v.WF) :
    (u.beq rt v = v.beq rt u) ∧
      (u.beq rt v = true → v.beq rt w = true → u.beq rt w = true) ∧
      (u.beq rt u = true ↔ u.AllDouble fun d => rt.beq d d = true) := by
  refine ⟨?_, beq_trans hrt hu, beq_self hu⟩
  rw [Bool.eq_iff_iff]
  exact ⟨beq_symm hrt hu hv, beq_symm hrt hv hu⟩

/-- An object with two keys. -/
theorem WF.pair {k l : Bytes} {v w : Value D} (hkl : k ≠ l) (hv : v.WF) (hw : w.WF) :
    (Value.object [(k, v), (l, w)]).WF := by
  refine .object (by simpa using hkl) fun e he => ?_
  simp only [List.mem_cons, List.not_mem_nil, or_false] at he
  rcases he with rfl | rfl
  · exact hv
  · exact hw

/-- One object, iterated in two orders. -/
theorem beq_equivalence_sample :
    let u : Value ℚ := .object [(ascii "a", .int 1), ([], .null)]
    let v : Value ℚ := .object [([], .null), (ascii "a", .int 1)]
    (u.beq Runtime.exact v = v.beq Runtime.exact u) ∧
      (u.beq Runtime.exact v = true → v.beq Runtime.exact u = true → u.beq Runtime.exact u = true) ∧
      (u.beq Runtime.exact u = true ↔ u.AllDouble fun d => Runtime.exact.beq d d = true) := by
  have hrt : PartialEquivalence Runtime.exact := by
    constructor <;> simp_all [Runtime.exact]
  exact beq_equivalence Runtime.exact hrt _ _ _ (.pair (by decide) (.int 1) .null)
    (.pair (by decide) .null (.int 1))

/-! ### The canonical form -/

/-- The keys stay. -/
theorem keys_canon (o : List (Bytes × Value D)) :
    (o.map fun e => (e.1, canon e.2)).map Prod.fst = o.map Prod.fst := by
  simp

/-- The pairs of a canonical object. -/
theorem canon_object_lookup {o : List (Bytes × Value D)} (ho : (o.map Prod.fst).Nodup) (k : Bytes) :
    ((o.map fun e => (e.1, canon e.2)).foldl (fun m e => AssocMap.assign m e.1 e.2) []).lookup k =
      (o.lookup k).map canon := by
  have hkeys : ((o.map fun e => (e.1, canon e.2)).map Prod.fst).Nodup :=
    (keys_canon o).symm ▸ ho
  have hperm := AssocMap.foldl_assign_perm hkeys
  rw [AssocMap.lookup_of_perm ((hperm.map Prod.fst).nodup_iff.2 hkeys) hperm]
  induction o with
  | nil => rfl
  | cons e o ih =>
      obtain ⟨l, v⟩ := e
      rw [List.map_cons, AssocMap.lookup_cons, AssocMap.lookup_cons]
      split_ifs
      · rfl
      · have ho' : (o.map Prod.fst).Nodup := (List.nodup_cons.1 ho).2
        have hkeys' : ((o.map fun e => (e.1, canon e.2)).map Prod.fst).Nodup :=
          (keys_canon o).symm ▸ ho'
        exact ih ho' hkeys' (AssocMap.foldl_assign_perm hkeys')

/-- Two arrays have the same canonical form if their elements have. -/
theorem canon_array_eq {a b : List (Value D)} :
    canon (.array a) = canon (.array b) ↔ a.length = b.length ∧
      ∀ (i : ℕ) (v : Value D), a[i]? = some v → ∃ w, b[i]? = some w ∧ canon v = canon w := by
  rw [canon_array, canon_array, Value.array.injEq]
  constructor
  · intro h
    refine ⟨by simpa using congrArg List.length h, fun i v hv => ?_⟩
    have hi : (b.map canon)[i]? = some (canon v) := by
      rw [← h, List.getElem?_map, hv, Option.map_some]
    rw [List.getElem?_map] at hi
    obtain ⟨w, hw, hcanon⟩ := Option.map_eq_some_iff.1 hi
    exact ⟨w, hw, hcanon.symm⟩
  · rintro ⟨hlength, h⟩
    refine List.ext_getElem? fun i => ?_
    rw [List.getElem?_map, List.getElem?_map]
    cases hv : a[i]? with
    | none =>
        rw [List.getElem?_eq_none_iff] at hv
        rw [List.getElem?_eq_none (hlength ▸ hv)]
    | some v =>
        obtain ⟨w, hw, hcanon⟩ := h i v hv
        rw [hw, Option.map_some, Option.map_some, hcanon]

/-- So do two objects, whatever the order of their pairs. -/
theorem canon_object_eq {o p : List (Bytes × Value D)} (ho : (o.map Prod.fst).Nodup)
    (hp : (p.map Prod.fst).Nodup) :
    canon (.object o) = canon (.object p) ↔ o.length = p.length ∧
      ∀ e ∈ o, ∃ w, p.lookup e.1 = some w ∧ canon e.2 = canon w := by
  have hokeys : ((o.map fun e => (e.1, canon e.2)).map Prod.fst).Nodup :=
    (keys_canon o).symm ▸ ho
  have hpkeys : ((p.map fun e => (e.1, canon e.2)).map Prod.fst).Nodup :=
    (keys_canon p).symm ▸ hp
  rw [canon_object, canon_object, Value.object.injEq]
  constructor
  · intro h
    have hlength := (AssocMap.foldl_assign_perm hokeys).symm.length_eq.trans
      ((congrArg List.length h).trans (AssocMap.foldl_assign_perm hpkeys).length_eq)
    refine ⟨by simpa using hlength, fun e he => ?_⟩
    have hlookup := canon_object_lookup hp e.1
    rw [← h, canon_object_lookup ho, AssocMap.lookup_of_nodup ho he, Option.map_some] at hlookup
    obtain ⟨w, hw, hcanon⟩ := Option.map_eq_some_iff.1 hlookup.symm
    exact ⟨w, hw, hcanon.symm⟩
  · rintro ⟨hlength, h⟩
    have hback := AssocMap.exists_lookup_symm (R := fun v w => canon v = canon w) ho hp hlength h
    refine (AssocMap.lastWins_foldl _).1.ext (AssocMap.lastWins_foldl _).1 fun k => ?_
    rw [canon_object_lookup ho, canon_object_lookup hp]
    cases hv : o.lookup k with
    | some v =>
        obtain ⟨w, hw, hcanon⟩ := h (k, v) (AssocMap.mem_of_lookup hv)
        rw [hw, Option.map_some, Option.map_some, hcanon]
    | none =>
        cases hw : p.lookup k with
        | none => rfl
        | some w =>
            obtain ⟨v, hv', -⟩ := hback (k, w) (AssocMap.mem_of_lookup hw)
            rw [hv] at hv'
            cases hv'

/-- **`==` compares content.**  On values whose doubles are equal only if they are the same, two
values are equal exactly if they are the same once the pairs of every object are in the order of
their keys. -/
theorem beq_iff_canon (rt : Runtime D) (P : D → Prop)
    (hP : ∀ d e, P d → P e → (rt.beq d e = true ↔ d = e)) (u v : Value D) (hu : u.WF) (hv : v.WF)
    (hdu : u.AllDouble P) (hdv : v.AllDouble P) :
    u.beq rt v = true ↔ u.canon = v.canon := by
  induction hu generalizing v with
  | null => cases v <;> simp [beq, canon]
  | bool b => cases v <;> simp [beq, canon]
  | int i => cases v <;> simp [beq, canon]
  | string s => cases v <;> simp [beq, canon]
  | double d =>
      cases v with
      | double e =>
          cases hdu with
          | double hd =>
              cases hdv with
              | double he => simp [beq, canon, hP d e hd he]
      | null | bool | int | string | array | object => simp [beq, canon]
  | @array a _ ih =>
      cases v with
      | array b =>
          have ha : ∀ v ∈ a, v.AllDouble P := by cases hdu; assumption
          have hb : ∀ v ∈ b, v.AllDouble P := by cases hdv; assumption
          have hwf : ∀ v ∈ b, v.WF := by cases hv; assumption
          rw [beq_array, canon_array_eq]
          refine and_congr_right fun _ => forall_congr' fun i => forall_congr' fun x =>
            forall_congr' fun hx => exists_congr fun y => and_congr_right fun hy => ?_
          have hx := List.mem_of_getElem? hx
          have hy := List.mem_of_getElem? hy
          exact ih x hx y (hwf y hy) (ha x hx) (hb y hy)
      | null | bool | int | double | string | object => simp [beq, canon]
  | @object o ho _ ih =>
      cases v with
      | object p =>
          have hdo : ∀ e ∈ o, e.2.AllDouble P := by cases hdu; assumption
          have hdp : ∀ e ∈ p, e.2.AllDouble P := by cases hdv; assumption
          obtain ⟨hp, hwf⟩ : (p.map Prod.fst).Nodup ∧ ∀ e ∈ p, e.2.WF := by
            cases hv with
            | object hp hwf => exact ⟨hp, hwf⟩
          rw [beq_object, canon_object_eq ho hp]
          refine and_congr_right fun _ => forall_congr' fun e => forall_congr' fun he =>
            exists_congr fun w => and_congr_right fun hw => ?_
          have hmem := AssocMap.mem_of_lookup hw
          exact ih e he w (hwf _ hmem) (hdo e he) (hdp _ hmem)
      | null | bool | int | double | string | array => simp [beq, canon]

/-- `beq_iff_canon` where `==` on doubles is equality. -/
theorem beq_iff_canon_sample :
    let u : Value ℚ := .object [(ascii "a", .double 1), ([], .null)]
    let v : Value ℚ := .object [([], .null), (ascii "a", .double 1)]
    u.beq Runtime.exact v = true ↔ u.canon = v.canon := by
  have hpair {k l : Bytes} {v w : Value ℚ} (hv : v.AllDouble fun _ => True)
      (hw : w.AllDouble fun _ => True) :
      (Value.object [(k, v), (l, w)]).AllDouble fun _ => True := by
    refine .object fun e he => ?_
    simp only [List.mem_cons, List.not_mem_nil, or_false] at he
    rcases he with rfl | rfl
    · exact hv
    · exact hw
  refine beq_iff_canon Runtime.exact (fun _ => True) ?_ _ _ (.pair (by decide) (.double 1) .null)
    (.pair (by decide) .null (.double 1)) (hpair (.double trivial) .null)
    (hpair .null (.double trivial))
  simp [Runtime.exact]

end Value
end Json
end BreUtils
