/-
# What becomes of doubles

`std::to_string` writes a double with six digits behind the point, and `std::stod` reads that text,
so a double does not always come back.  It comes back as another double at most (`reread`), and
nothing else of a value changes: what the parser makes of the generator's text is the value with its
doubles reread, and it equals the value exactly if each of them does
(`parse_generate_doubles`).

The parser returns canonical values: the keys of every object are distinct (`canonical_of_parse`).
So to parse a text, to generate one from the value and to parse that changes the doubles at most
(`parse_generate_parse`), and a text without doubles is brought to a form that stays.
-/

import BreUtils.Json.Equality
import BreUtils.Json.RoundTrip

namespace BreUtils
namespace Json

open Lib Cpp
open Rfc8259 (Number)

variable {D : Type}

/-- A map that leaves each element alone. -/
theorem map_eq_self {α : Type*} {f : α → α} {l : List α} : l.map f = l ↔ ∀ a ∈ l, f a = a := by
  have h := List.map_inj_left (f := f) (g := id) (l := l)
  rwa [List.map_id] at h

namespace Value

/-- The same value with other doubles. -/
def mapDouble (f : D → D) : Value D → Value D
  | .null => .null
  | .bool b => .bool b
  | .int i => .int i
  | .double d => .double (f d)
  | .string s => .string s
  | .array a => .array (a.attach.map fun ⟨v, _⟩ => mapDouble f v)
  | .object o => .object (o.attach.map fun ⟨(k, v), _⟩ => (k, mapDouble f v))
termination_by v => sizeOf v
decreasing_by
  · have := List.sizeOf_lt_of_mem ‹_ ∈ a›
    simp only [Value.array.sizeOf_spec]
    omega
  · have := List.sizeOf_lt_of_mem ‹_ ∈ o›
    simp only [Value.object.sizeOf_spec, Prod.mk.sizeOf_spec] at *
    omega

variable {f : D → D}

/-- The doubles in an array. -/
theorem mapDouble_array (a : List (Value D)) :
    mapDouble f (.array a) = .array (a.map (mapDouble f)) := by
  rw [mapDouble]
  simp

/-- The doubles in an object. -/
theorem mapDouble_object (o : List (Bytes × Value D)) :
    mapDouble f (.object o) = .object (o.map fun e => (e.1, mapDouble f e.2)) := by
  rw [mapDouble]
  simp [List.map_attach_eq_pmap]

/-- The keys stay. -/
theorem keys_mapDouble (o : List (Bytes × Value D)) :
    (o.map fun e => (e.1, mapDouble f e.2)).map Prod.fst = o.map Prod.fst := by
  simp

/-- **A value equals its canonical form with other doubles** exactly if these are equal. -/
theorem canon_mapDouble_beq {rt : Runtime D} {v : Value D} (hv : v.WF) :
    beq rt (v.mapDouble f).canon v = true ↔ v.AllDouble fun d => rt.beq (f d) d = true := by
  induction hv with
  | null => exact iff_of_true (by simp [mapDouble, canon, beq]) .null
  | bool b => exact iff_of_true (by simp [mapDouble, canon, beq]) (.bool b)
  | int i => exact iff_of_true (by simp [mapDouble, canon, beq]) (.int i)
  | string s => exact iff_of_true (by simp [mapDouble, canon, beq]) (.string s)
  | double d =>
      rw [mapDouble, canon, beq]
      refine ⟨fun h => .double h, fun h => ?_⟩
      cases h
      assumption
  | @array a _ ih =>
      rw [mapDouble_array, canon_array, beq_array]
      constructor
      · rintro ⟨-, h⟩
        refine .array fun v hv => (ih v hv).1 ?_
        obtain ⟨i, hi⟩ := List.getElem?_of_mem hv
        obtain ⟨w, hw, hbeq⟩ := h i (v.mapDouble f).canon (by simp [hi])
        rwa [Option.some.inj (hi.symm.trans hw)] at hbeq ⊢
      · intro h
        have ha : ∀ v ∈ a, v.AllDouble fun d => rt.beq (f d) d = true := by cases h; assumption
        refine ⟨by simp, fun i u hu => ?_⟩
        simp only [List.getElem?_map, Option.map_map, Option.map_eq_some_iff] at hu
        obtain ⟨v, hi, rfl⟩ := hu
        have hmem := List.mem_of_getElem? hi
        exact ⟨v, hi, (ih v hmem).2 (ha v hmem)⟩
  | @object o ho _ ih =>
      have hkeys : (((o.map fun e => (e.1, mapDouble f e.2)).map fun e =>
          (e.1, canon e.2)).map Prod.fst).Nodup := by
        rw [keys_canon, keys_mapDouble]
        exact ho
      have hperm := AssocMap.foldl_assign_perm hkeys
      rw [mapDouble_object, canon_object, beq_object, hperm.length_eq]
      constructor
      · rintro ⟨-, h⟩
        refine .object fun e he => (ih e he).1 ?_
        have hmem : (e.1, (e.2.mapDouble f).canon) ∈
            (o.map fun e => (e.1, mapDouble f e.2)).map fun e => (e.1, canon e.2) :=
          List.mem_map_of_mem (List.mem_map_of_mem he)
        obtain ⟨w, hw, hbeq⟩ := h _ (hperm.mem_iff.2 hmem)
        rw [AssocMap.lookup_of_nodup ho he] at hw
        rwa [← Option.some.inj hw] at hbeq
      · intro h
        have ho' : ∀ e ∈ o, e.2.AllDouble fun d => rt.beq (f d) d = true := by
          cases h; assumption
        refine ⟨by simp, fun e he => ?_⟩
        obtain ⟨e', hmem, rfl⟩ := List.mem_map.1 (hperm.mem_iff.1 he)
        obtain ⟨x, hx, rfl⟩ := List.mem_map.1 hmem
        exact ⟨x.2, AssocMap.lookup_of_nodup ho hx, (ih x hx).2 (ho' x hx)⟩

end Value

/-! ### One double -/

section Reading

variable (rt : Runtime D)

/-- The text of `std::to_string` for a finite double: a number literal, with digits behind the point
and no exponent. -/
def WritesFixed (d : D) : Prop :=
  ∃ n : Number, n.Valid ∧ n.frac.isSome ∧ n.exp = none ∧ rt.toString d = n.text

/-- What the parser reads where the generator has written a double. -/
def reread (d : D) : D :=
  match rt.strtod (rt.toString d) with
  | some e => e
  | none => if (rt.toString d).head? = some (ch '-') then rt.neg rt.infinity else rt.infinity

/-- The value that the generator's text denotes. -/
def denoted (v : Value D) : Value D := (v.mapDouble (reread rt)).canon

variable {rt}

/-- A number with a fraction is read as a double. -/
theorem numberValue_reread {n : Number} {d : D} (hn : n.Valid) (hfrac : n.frac.isSome)
    (htext : rt.toString d = n.text) : numberValue rt n = .double (reread rt d) := by
  have hint : ¬ IsInt n := fun h => by simp [h.1] at hfrac
  rw [numberValue, if_neg hint, doubleValue, reread, htext]
  cases rt.strtod n.text with
  | some e => rfl
  | none =>
      simp only [head?_text (scanned_of_valid hn)]

/-- A double that `std::to_string` wrote is a number of the dialect. -/
theorem derives_toString {d : D} (hd : WritesFixed rt d) {t : Bytes} (ht : MayFollow t) :
    Derives (dialect rt) (rt.toString d ++ t) (.value (.double (reread rt d))) t := by
  obtain ⟨n, hn, hfrac, -, htext⟩ := hd
  refine .number ⟨n, scanned_of_valid hn, ht.longest, Or.inl hn.int_ne_nil, ?_, ?_⟩
  · exact (numberValue_reread hn hfrac htext).symm
  · rw [htext]

/-- The layout of the generator fits the dialect where a value denotes itself with its doubles
reread. -/
theorem dialect_fits_denoted (rt : Runtime D) :
    Fits (dialect rt) (fun _ => True) id (denoted rt) where
  refl := .refl
  gap := (dialect_fits rt).gap
  trail _ := rfl
  null := by rw [denoted, Value.mapDouble, Value.canon]; rfl
  bool b := by rw [denoted, Value.mapDouble, Value.canon]; rfl
  int i t ht := by
    have hint := (dialect_fits rt).int i ht
    rwa [denoted, Value.mapDouble]
  string s := by rw [denoted, Value.mapDouble, Value.canon]; rfl
  text := (dialect_fits rt).text
  array a := by
    rw [denoted, Value.mapDouble_array, Value.canon_array, List.map_map]
    rfl
  object o _ := by
    refine ⟨_, AssocMap.lastWins_foldl _, ?_⟩
    rw [denoted, Value.mapDouble_object, Value.canon_object, List.map_map]
    rfl

end Reading

/-! ### Values -/

/-- What is generated is read as the value with its doubles reread. -/
theorem generate_denoted (rt : Runtime D) {v : Value D} (hv : v.WF)
    (hd : v.AllDouble (WritesFixed rt)) {pretty : Bool} {indentWidth : Int32}
    (hroom : pretty = true → v.depth * indentWidth.toInt < 2 ^ 31) :
    ∃ text, generate rt v pretty indentWidth = some text ∧
      parse rt text true = .ok (denoted rt v) := by
  have hdouble (d : D) (hd : WritesFixed rt d) :
      Writes (dialect rt) (denoted rt) (rt.toString d) (.double d) := by
    intro t ht
    rw [denoted, Value.mapDouble, Value.canon]
    exact derives_toString hd fun c hc => (ht c hc).imp_left (isspace_of_isWs c)
  obtain ⟨text, htext, hwrites⟩ := (dialect_fits_denoted rt).generateValue_writes_double rt hdouble
    hv hd hv.allText (room_of_pretty hroom)
  refine ⟨text, htext, ?_⟩
  have h := hwrites [] (by simp [Closes])
  rw [List.append_nil] at h
  exact parse_of_derives (.refl _) h

/-- **The round trip of any value**, its doubles written by `std::to_string` as the standard says:
in either layout, and every indentation that does not overflow, `generate` writes a text, strict
mode reads the value back with its doubles reread, and that equals the value exactly if each of them
does. -/
theorem parse_generate_doubles (rt : Runtime D) {v : Value D} (hv : v.WF)
    (hd : v.AllDouble (WritesFixed rt)) (pretty : Bool) (indentWidth : Int32)
    (hroom : pretty = true → v.depth * indentWidth.toInt < 2 ^ 31) :
    ∃ text, generate rt v pretty indentWidth = some text ∧
      parse rt text true = .ok (denoted rt v) ∧
      ((denoted rt v).beq rt v = true ↔ v.AllDouble fun d => rt.beq (reread rt d) d = true) := by
  obtain ⟨text, htext, hread⟩ := generate_denoted rt hv hd hroom
  exact ⟨text, htext, hread, Value.canon_mapDouble_beq hv⟩

/-- A third is written as `0.333333`. -/
theorem writesFixed_third : WritesFixed Runtime.exact (1 / 3) := by
  refine ⟨⟨false, ascii "0", some (ascii "333333"), none⟩, ⟨Or.inl rfl, ?_, by simp⟩, rfl, rfl, ?_⟩
  · rintro ds ⟨⟩
    decide +kernel
  · decide +kernel

/-- `parse_generate_doubles` at a third, which does not come back. -/
theorem parse_generate_doubles_sample :
    let v : Value ℚ := .array [.double (1 / 3), .int 1]
    ∃ text, generate Runtime.exact v false 2 = some text ∧
      parse Runtime.exact text true = .ok (denoted Runtime.exact v) ∧
      ((denoted Runtime.exact v).beq Runtime.exact v = true ↔
        v.AllDouble fun d => Runtime.exact.beq (reread Runtime.exact d) d = true) := by
  refine parse_generate_doubles Runtime.exact (.array fun v hv => ?_) (.array fun v hv => ?_)
    false 2 (by simp)
  · simp only [List.mem_cons, List.not_mem_nil, or_false] at hv
    rcases hv with rfl | rfl
    · exact .double _
    · exact .int _
  · simp only [List.mem_cons, List.not_mem_nil, or_false] at hv
    rcases hv with rfl | rfl
    · exact .double writesFixed_third
    · exact .int _

/-! ### Texts -/

/-- The pairs of every object inside the value are in the order of their keys, which are
distinct. -/
structure Canonical (v : Value D) : Prop where
  wf : v.WF
  canon : v.canon = v

/-- An object with sorted keys and canonical members. -/
theorem canonical_object {o : List (Bytes × Value D)} (hsorted : AssocMap.Sorted o)
    (ho : ∀ e ∈ o, Canonical e.2) : Canonical (.object o) := by
  have hkeys : (o.map Prod.fst).Nodup :=
    List.pairwise_map.2 (hsorted.imp fun h => Std.ne_of_lt h)
  refine ⟨.object hkeys fun e he => (ho e he).wf, ?_⟩
  have hsame : (o.map fun e => (e.1, e.2.canon)) = o :=
    map_eq_self.2 fun e he => Prod.ext rfl (ho e he).canon
  rw [Value.canon_object, hsame]
  congr 1
  refine (AssocMap.lastWins_foldl o).1.ext hsorted fun k => ?_
  have hperm := AssocMap.foldl_assign_perm hkeys
  exact AssocMap.lookup_of_perm ((hperm.map Prod.fst).nodup_iff.2 hkeys) hperm k

/-- What is read is canonical: a value, elements, members. -/
def CanonicalNode : Node Bytes (Value D) → Prop
  | .value v => Canonical v
  | .elements vs => ∀ v ∈ vs, Canonical v
  | .members ms => ∀ e ∈ ms, Canonical e.2

/-- The members of a text make a canonical object. -/
theorem canonical_of_lastWins {rt : Runtime D} {ms : List (Bytes × Value D)}
    (hms : ∀ e ∈ ms, Canonical e.2) {v : Value D} (h : (dialect rt).object ms v) : Canonical v := by
  obtain ⟨o, ⟨hsorted, hlookup⟩, rfl⟩ := h
  have hkeys : (o.map Prod.fst).Nodup :=
    List.pairwise_map.2 (hsorted.imp fun h => Std.ne_of_lt h)
  refine canonical_object hsorted fun e he => ?_
  have hfound := AssocMap.lookup_of_nodup hkeys he
  rw [hlookup] at hfound
  exact hms _ (List.mem_reverse.1 (AssocMap.mem_of_lookup hfound))

/-- By induction on the derivation. -/
theorem canonical_of_derives {rt : Runtime D} {s t : Bytes} {n : Node Bytes (Value D)}
    (h : Derives (dialect rt) s n t) : CanonicalNode n := by
  induction h with
  | null t => exact ⟨.null, by simp [dialect, Value.canon]⟩
  | true t => exact ⟨.bool _, by simp [dialect, Value.canon]⟩
  | false t => exact ⟨.bool _, by simp [dialect, Value.canon]⟩
  | number h =>
      obtain ⟨n, -, -, -, rfl, -⟩ := h
      rw [numberValue]
      split_ifs
      · exact ⟨.int _, by simp [Value.canon]⟩
      · unfold doubleValue
        split
        · exact ⟨.double _, by simp [Value.canon]⟩
        · exact ⟨.double _, by simp [Value.canon]⟩
  | string h => exact ⟨.string _, by simp [dialect, Value.canon]⟩
  | emptyArray h => exact ⟨.array (by simp), by simp [dialect, Value.canon_array]⟩
  | array h ih =>
      refine ⟨.array fun v hv => (ih v hv).wf, ?_⟩
      show Value.canon (.array _) = _
      rw [Value.canon_array, map_eq_self.2 fun v hv => (ih v hv).canon]
      rfl
  | emptyObject h hv => exact canonical_of_lastWins (by simp) hv
  | object h hv ih => exact canonical_of_lastWins ih hv
  | lastElement h₁ h h₂ h₃ ih =>
      intro v hv
      rw [List.mem_singleton.1 hv]
      exact ih
  | element h₁ h h₂ h' ih ih' =>
      intro v hv
      rcases List.mem_cons.1 hv with rfl | hv
      · exact ih
      · exact ih' v hv
  | lastMember h₁ hk h₂ h₃ h h₄ h₅ ih =>
      intro e he
      rw [List.mem_singleton.1 he]
      exact ih
  | member h₁ hk h₂ h₃ h h₄ h' ih ih' =>
      intro e he
      rcases List.mem_cons.1 he with rfl | he
      · exact ih
      · exact ih' e he

/-- **The parser returns canonical values.** -/
theorem canonical_of_parse {rt : Runtime D} {s : Bytes} {v : Value D}
    (h : parse rt s true = .ok v) : Canonical v := by
  obtain ⟨s₁, t, -, hv⟩ := parse_eq_ok_iff.1 h
  exact canonical_of_derives hv

/-- A value is the same with other doubles exactly if these are the same. -/
theorem Value.mapDouble_eq_self {f : D → D} {v : Value D} (hv : v.WF) :
    v.mapDouble f = v ↔ v.AllDouble fun d => f d = d := by
  induction hv with
  | null => exact iff_of_true (by rw [Value.mapDouble]) .null
  | bool b => exact iff_of_true (by rw [Value.mapDouble]) (.bool b)
  | int i => exact iff_of_true (by rw [Value.mapDouble]) (.int i)
  | string s => exact iff_of_true (by rw [Value.mapDouble]) (.string s)
  | double d =>
      rw [Value.mapDouble, Value.double.injEq]
      refine ⟨fun h => .double h, fun h => ?_⟩
      cases h
      assumption
  | @array a _ ih =>
      rw [Value.mapDouble_array, Value.array.injEq, map_eq_self]
      constructor
      · exact fun h => .array fun v hv => (ih v hv).1 (h v hv)
      · intro h v hv
        cases h with
        | array h => exact (ih v hv).2 (h v hv)
  | @object o _ _ ih =>
      rw [Value.mapDouble_object, Value.object.injEq, map_eq_self]
      constructor
      · exact fun h => .object fun e he => (ih e he).1 (congrArg Prod.snd (h e he))
      · intro h e he
        cases h with
        | object h => exact Prod.ext rfl ((ih e he).2 (h e he))

/-- The children of a canonical value are canonical, and the pairs of an object in order. -/
theorem Canonical.elements {a : List (Value D)} (h : Canonical (.array a)) :
    ∀ v ∈ a, Canonical v := by
  obtain ⟨hwf, hcanon⟩ := h
  have ha : ∀ v ∈ a, v.WF := by cases hwf; assumption
  rw [Value.canon_array, Value.array.injEq, map_eq_self] at hcanon
  exact fun v hv => ⟨ha v hv, hcanon v hv⟩

/-- What is in a canonical object. -/
theorem Canonical.members {o : List (Bytes × Value D)} (h : Canonical (.object o)) :
    AssocMap.Sorted o ∧ ∀ e ∈ o, Canonical e.2 := by
  obtain ⟨hwf, hcanon⟩ := h
  obtain ⟨hkeys, ho⟩ : (o.map Prod.fst).Nodup ∧ ∀ e ∈ o, e.2.WF := by
    cases hwf with
    | object hkeys ho => exact ⟨hkeys, ho⟩
  rw [Value.canon_object, Value.object.injEq] at hcanon
  constructor
  · rw [← hcanon]
    exact (AssocMap.lastWins_foldl _).1
  · intro e he
    refine ⟨ho e he, ?_⟩
    have hlookup := Value.canon_object_lookup hkeys e.1
    rw [hcanon, AssocMap.lookup_of_nodup hkeys he, Option.map_some] at hlookup
    exact (Option.some.inj hlookup).symm

/-- Other doubles make no difference. -/
theorem Canonical.mapDouble {v : Value D} (h : Canonical v) (f : D → D) :
    Canonical (v.mapDouble f) := by
  induction h.wf with
  | null => exact ⟨by simp [Value.mapDouble, Value.WF.null], by simp [Value.mapDouble, Value.canon]⟩
  | bool b =>
      exact ⟨by simp [Value.mapDouble, Value.WF.bool], by simp [Value.mapDouble, Value.canon]⟩
  | int i => exact ⟨by simp [Value.mapDouble, Value.WF.int], by simp [Value.mapDouble, Value.canon]⟩
  | string s =>
      exact ⟨by simp [Value.mapDouble, Value.WF.string], by simp [Value.mapDouble, Value.canon]⟩
  | double d =>
      exact ⟨by simp [Value.mapDouble, Value.WF.double], by simp [Value.mapDouble, Value.canon]⟩
  | @array a _ ih =>
      have ha := h.elements
      rw [Value.mapDouble_array]
      have hmap : ∀ w ∈ a.map (Value.mapDouble f), Canonical w := by
        intro w hw
        obtain ⟨v, hv, rfl⟩ := List.mem_map.1 hw
        exact ih v hv (ha v hv)
      refine ⟨.array fun w hw => (hmap w hw).wf, ?_⟩
      rw [Value.canon_array, Value.array.injEq, map_eq_self]
      exact fun w hw => (hmap w hw).canon
  | @object o _ _ ih =>
      obtain ⟨hsorted, ho⟩ := h.members
      rw [Value.mapDouble_object]
      refine canonical_object (List.pairwise_map.2 (hsorted.imp id)) fun e he => ?_
      obtain ⟨x, hx, rfl⟩ := List.mem_map.1 he
      exact ih x hx (ho x hx)

/-- **To parse, to generate and to parse again changes the doubles at most.**  For every text that
strict mode accepts, with a value whose doubles are finite: the text that is generated from the
value, in either layout, is accepted, and its value is the same but for the doubles, which are
reread; it is the same value exactly if each of them is. -/
theorem parse_generate_parse (rt : Runtime D) {s : Bytes} {v : Value D}
    (hparse : parse rt s true = .ok v) (hd : v.AllDouble (WritesFixed rt)) (pretty : Bool)
    (indentWidth : Int32) (hroom : pretty = true → v.depth * indentWidth.toInt < 2 ^ 31) :
    ∃ text w, generate rt v pretty indentWidth = some text ∧ parse rt text true = .ok w ∧
      w = v.mapDouble (reread rt) ∧ (w = v ↔ v.AllDouble fun d => reread rt d = d) := by
  have hv := canonical_of_parse hparse
  obtain ⟨text, htext, hread⟩ := generate_denoted rt hv.wf hd hroom
  refine ⟨text, _, htext, hread, (hv.mapDouble _).canon, ?_⟩
  rw [denoted, (hv.mapDouble _).canon]
  exact Value.mapDouble_eq_self hv.wf

/-- `0.5` is written as `0.500000` then. -/
theorem parse_generate_parse_sample :
    ∃ text w, generate Runtime.exact (.double (1 / 2)) true 2 = some text ∧
      parse Runtime.exact text true = .ok w ∧
      w = (Value.double (1 / 2)).mapDouble (reread Runtime.exact) ∧
      (w = .double (1 / 2) ↔
        (Value.double (1 / 2)).AllDouble fun d => reread Runtime.exact d = d) := by
  have hvalid : Number.Valid ⟨false, ascii "0", some (ascii "5"), none⟩ :=
    ⟨Or.inl rfl, by rintro _ ⟨⟩; decide +kernel, by simp⟩
  have hstrtod : Runtime.exact.strtod
      (Number.text ⟨false, ascii "0", some (ascii "5"), none⟩) = some (1 / 2) := by decide +kernel
  have hvalue : numberValue Runtime.exact ⟨false, ascii "0", some (ascii "5"), none⟩ =
      .double (1 / 2) := by
    rw [numberValue, if_neg (fun h => absurd h.1 (by simp)), doubleValue, hstrtod]
  have hparse : parse Runtime.exact (ascii "0.5") true = .ok (.double (1 / 2)) :=
    parse_of_derives (.refl _) (.number ⟨_, scanned_of_valid hvalid,
      MayFollow.longest (t := []) (by simp [MayFollow]), Or.inl (by decide), hvalue.symm,
      by decide +kernel⟩)
  have hfixed : WritesFixed Runtime.exact (1 / 2) := by
    refine ⟨⟨false, ascii "0", some (ascii "500000"), none⟩, ⟨Or.inl rfl, ?_, by simp⟩, rfl, rfl,
      ?_⟩
    · rintro ds ⟨⟩
      decide +kernel
    · decide +kernel
  exact parse_generate_parse Runtime.exact hparse (.double hfixed) true 2
    fun _ => by simp [Value.depth]

end Json
end BreUtils
