/-
# The layout of the generator

What `Generator::generate` puts around the literals of a value are brackets, commas,
colons and, in the pretty layout, line breaks and blanks.  A language whose gaps may be
line breaks and blanks, and which reads the integers and the escaped strings for what they
are (`Fits`), reads the whole text (`generateValue_writes`).  That goes by induction on the
value, with the loop over the children once for arrays and objects
(`generateItems_writes`).

The indentation is an `int`.  It does not overflow if it does not at the deepest level,
and only then is there a text (`room_of_generateValue`).
-/

import BreUtils.Json.Generator
import BreUtils.Lib.Rfc8259

namespace BreUtils
namespace Json

open Lib Cpp
open Rfc8259 (Ws)

variable {D K V : Type}

/-! ### Values, all over -/

namespace Value

/-- All strings and keys inside the value satisfy `P`. -/
inductive AllText (P : Bytes → Prop) : Value D → Prop
  | null : AllText P .null
  | bool (b : Bool) : AllText P (.bool b)
  | int (i : Int32) : AllText P (.int i)
  | double (d : D) : AllText P (.double d)
  | string {s : Bytes} : P s → AllText P (.string s)
  | array {a : List (Value D)} : (∀ v ∈ a, AllText P v) → AllText P (.array a)
  | object {o : List (Bytes × Value D)} : (∀ e ∈ o, P e.1) → (∀ e ∈ o, AllText P e.2) →
      AllText P (.object o)

/-- How deeply the containers of a value are nested, the empty ones not counted: the highest
`level` that is indented. -/
def depth : Value D → ℕ
  | .array a => (a.attach.map fun ⟨v, _⟩ => depth v + 1).foldr max 0
  | .object o => (o.attach.map fun ⟨(_, v), _⟩ => depth v + 1).foldr max 0
  | _ => 0
termination_by v => sizeOf v
decreasing_by
  · have := List.sizeOf_lt_of_mem ‹_ ∈ a›
    simp only [Value.array.sizeOf_spec]
    omega
  · have := List.sizeOf_lt_of_mem ‹_ ∈ o›
    simp only [Value.object.sizeOf_spec, Prod.mk.sizeOf_spec] at *
    omega

/-- The depth of an array is that of its elements and one more. -/
theorem depth_array_eq (a : List (Value D)) :
    (Value.array a).depth = (a.map fun v => v.depth + 1).foldr max 0 := by
  rw [depth]
  simp

/-- The depth of an object is that of its members and one more. -/
theorem depth_object_eq (o : List (Bytes × Value D)) :
    (Value.object o).depth = (o.map fun e => e.2.depth + 1).foldr max 0 := by
  rw [depth]
  simp [List.map_attach_eq_pmap]

end Value

/-- No element is greater than the greatest. -/
theorem le_foldr_max {n : ℕ} {l : List ℕ} (h : n ∈ l) : n ≤ l.foldr max 0 := by
  induction l with
  | nil => cases h
  | cons m l ih =>
      rcases List.mem_cons.1 h with rfl | h
      · exact le_max_left _ _
      · exact (ih h).trans (le_max_right _ _)

/-- The greatest of some numbers is one of them. -/
theorem foldr_max_mem {l : List ℕ} (hl : l ≠ []) : l.foldr max 0 ∈ l := by
  induction l with
  | nil => exact absurd rfl hl
  | cons m l ih =>
      rw [List.foldr_cons]
      rcases max_choice m (l.foldr max 0) with h | h
      · rw [h]
        exact List.mem_cons_self
      · by_cases hnil : l = []
        · subst hnil
          simp
        · rw [h]
          exact List.mem_cons_of_mem _ (ih hnil)

/-- An element is less deep than its array. -/
theorem Value.depth_array {a : List (Value D)} {v : Value D} (h : v ∈ a) :
    v.depth + 1 ≤ (Value.array a).depth := by
  rw [Value.depth_array_eq]
  exact le_foldr_max (List.mem_map_of_mem h)

/-- A member is less deep than its object. -/
theorem Value.depth_object {o : List (Bytes × Value D)} {e : Bytes × Value D} (h : e ∈ o) :
    e.2.depth + 1 ≤ (Value.object o).depth := by
  rw [Value.depth_object_eq]
  exact le_foldr_max (List.mem_map.2 ⟨e, h, rfl⟩)

/-! ### Indentation -/

/-- `indent` overflows nowhere up to `level`. -/
def Room (indentWidth : Int32) (level : ℕ) : Prop :=
  0 < indentWidth → level * indentWidth.toInt < 2 ^ 31

/-- There is room for fewer levels. -/
theorem Room.mono {w : Int32} {m n : ℕ} (h : Room w n) (hmn : m ≤ n) : Room w m := fun hw => by
  have hpos : 0 ≤ w.toInt := Int32.le_iff_toInt_le.1 (Int32.le_of_lt hw)
  have : (m : ℤ) * w.toInt ≤ n * w.toInt := Int.mul_le_mul_of_nonneg_right (by omega) hpos
  exact this.trans_lt (h hw)

/-- The indentation is there, and consists of blanks. -/
theorem exists_prettyIndent {w : Int32} {n : ℕ} (h : Room w n) :
    ∃ b, prettyIndent w n = some b ∧ ∀ s, Ws (b ++ s) s := by
  by_cases hw : 0 < w
  · refine ⟨_, by rw [prettyIndent, if_pos hw, indent, if_pos (h hw)], fun s => ⟨_, ?_, rfl⟩⟩
    intro c hc
    rw [List.eq_of_mem_replicate hc]
    rfl
  · exact ⟨[], by rw [prettyIndent, if_neg hw], fun s => Ws.refl s⟩

/-- Where it is there, it does not overflow. -/
theorem room_of_prettyIndent {w : Int32} {n : ℕ} {b : Bytes} (h : prettyIndent w n = some b) :
    Room w n := by
  intro hw
  rw [prettyIndent, if_pos hw, indent] at h
  split_ifs at h with hroom
  exact hroom

/-- A line break and the indentation are white space. -/
theorem ws_prettyNewline (w : Int32) (s : Bytes) : Ws (prettyNewline w ++ s) s := by
  unfold prettyNewline
  split_ifs
  · exact ⟨[ch '\n'], fun c hc => List.mem_singleton.1 hc ▸ rfl, rfl⟩
  · exact Ws.refl s

/-! ### Languages that the layout fits -/

/-- What the generator puts behind a value. -/
def Closes (t : Bytes) : Prop :=
  ∀ c ∈ t.head?, Rfc8259.isWs c = true ∨ c ∈ [ch ',', ch ']', ch '}']

/-- White space before a closing character. -/
theorem closes_of_ws {s t : Bytes} {c : UInt8} (h : Ws s (c :: t))
    (hc : c ∈ [ch ',', ch ']', ch '}']) : Closes s := by
  obtain ⟨w, hw, rfl⟩ := h
  intro d hd
  cases w with
  | nil =>
      obtain rfl : c = d := Option.some.inj hd
      exact Or.inr hc
  | cons e w =>
      obtain rfl : e = d := Option.some.inj hd
      exact Or.inl (hw e (List.mem_cons_self ..))

/-- A language with these classes over bytes. -/
abbrev onBytes (L : Language UInt8 K V) : Language UInt8 K V := { L with byte := id }

/-- **The layout fits a language**, in which a value `v` is `den v` and a key `k` is `key k`, if the
texts `P` may be strings. -/
structure Fits (L : Language UInt8 K V) (P : Bytes → Prop) (key : Bytes → K) (den : Value D → V) :
    Prop where
  refl : ∀ s, L.gap s s
  gap : ∀ {s t u}, Ws s t → L.gap t u → L.gap s u
  trail : ∀ s, L.trail s s
  null : den .null = L.null
  bool : ∀ b, den (.bool b) = L.bool b
  int : ∀ i {t}, Closes t → Derives (onBytes L) (toStringInt i ++ t) (.value (den (.int i))) t
  string : ∀ s, den (.string s) = L.ofString (key s)
  text : ∀ {s} t, P s → L.string (ascii "\"" ++ escapeString s ++ ascii "\"" ++ t) (key s) t
  array : ∀ a, den (.array a) = L.array (a.map den)
  object : ∀ o, (o.map Prod.fst).Nodup →
    L.object (o.map fun e => (key e.1, den e.2)) (den (.object o))

section Writing

variable {L : Language UInt8 K V} {P : Bytes → Prop} {key : Bytes → K} {den : Value D → V}
  (hL : Fits L P key den) {w : Int32} {level : ℕ}

/-- `text` is written for `v`: in front of anything that the generator puts behind it, it derives
`v`. -/
def Writes (L : Language UInt8 K V) (den : Value D → V) (text : Bytes) (v : Value D) : Prop :=
  ∀ t, Closes t → Derives (onBytes L) (text ++ t) (.value (den v)) t

include hL

/-- White space is a gap of a syntax that the layout fits. -/
theorem Fits.of_ws {s t : Bytes} (h : Ws s t) : L.gap s t := hL.gap h (hL.refl t)

/-- White space in front of elements or members belongs to the first gap. -/
theorem Fits.derives_of_ws {s s' t : Bytes} {n : Node K V} (hs : Ws s s')
    (h : Derives (onBytes L) s' n t) (hn : ∀ v, n ≠ .value v) : Derives (onBytes L) s n t := by
  cases h with
  | lastElement h₁ h h₂ h₃ => exact .lastElement (hL.gap hs h₁) h h₂ h₃
  | element h₁ h h₂ h' => exact .element (hL.gap hs h₁) h h₂ h'
  | lastMember h₁ hk h₂ h₃ h h₄ h₅ => exact .lastMember (hL.gap hs h₁) hk h₂ h₃ h h₄ h₅
  | member h₁ hk h₂ h₃ h h₄ h' => exact .member (hL.gap hs h₁) hk h₂ h₃ h h₄ h'
  | null | true | false | number | string | emptyArray | array | emptyObject | object =>
      exact absurd rfl (hn _)

omit hL in
/-- `text` is written for the child `x` of an array or object that `close` ends: it may be the last
child, or go in front of others. -/
structure WritesChild {α : Type*} (L : Language UInt8 K V) (node : List α → Node K V)
    (close : UInt8) (text : Bytes) (x : α) : Prop where
  last {s₀ s t : Bytes} : Ws s₀ (text ++ s) → Ws s (close :: t) →
    Derives (onBytes L) s₀ (node [x]) t
  more {s₀ s s' t : Bytes} {xs : List α} : Ws s₀ (text ++ s) → Ws s (ch ',' :: s') →
    Derives (onBytes L) s' (node xs) t → Derives (onBytes L) s₀ (node (x :: xs)) t

/-- **The loop of `generateArray` and of `generateObject`** writes the children that there are. -/
theorem Fits.generateItems_writes {α : Type*} {node : List α → Node K V} {close : UInt8}
    {item : α → Option Bytes} (hroom : Room w level) (hnode : ∀ xs v, node xs ≠ .value v)
    {xs : List α} (hne : xs ≠ [])
    (hxs : ∀ x ∈ xs, ∃ text, item x = some text ∧ WritesChild L node close text x) :
    ∃ items, generateItems w level (xs.map item) = some items ∧
      ∀ s t, Ws s (close :: t) → Derives (onBytes L) (items ++ s) (node xs) t := by
  obtain ⟨b, hb, hspaces⟩ := exists_prettyIndent hroom
  induction xs with
  | nil => exact absurd rfl hne
  | cons x xs ih =>
      obtain ⟨text, htext, hwrites⟩ := hxs x (List.mem_cons_self ..)
      cases xs with
      | nil =>
          refine ⟨b ++ text ++ [] ++ prettyNewline w ++ [], ?_, fun s t hs => ?_⟩
          · simp [generateItems, hb, htext]
          · simp only [List.append_nil, List.append_assoc]
            exact hwrites.last (hspaces _) ((ws_prettyNewline w s).trans hs)
      | cons x' xs =>
          obtain ⟨rest, hrest, hderives⟩ := ih (List.cons_ne_nil _ _) fun y hy =>
            hxs y (List.mem_cons_of_mem _ hy)
          refine ⟨b ++ text ++ [ch ','] ++ prettyNewline w ++ rest, ?_, fun s t hs => ?_⟩
          · rw [List.map_cons, generateItems, hb, htext, hrest]
            simp
          · have hrest := hL.derives_of_ws (ws_prettyNewline w _) (hderives s t hs) (hnode _)
            simp only [List.append_assoc]
            exact hwrites.more (hspaces _) (.refl _) hrest

/-- An element of an array is written in its place. -/
theorem Fits.writesChild_element {text : Bytes} {v : Value D} (h : Writes L den text v) :
    WritesChild L (fun vs : List (Value D) => .elements (vs.map den)) (ch ']') text v where
  last hs₀ hs :=
    .lastElement (hL.of_ws hs₀) (h _ (closes_of_ws hs (by simp))) (hL.of_ws hs) (hL.trail _)
  more hs₀ hs hrest :=
    .element (hL.of_ws hs₀) (h _ (closes_of_ws hs (by simp))) (hL.of_ws hs) hrest

/-- A member of an object is written in its place, behind its key. -/
theorem Fits.writesChild_member {text : Bytes} {e : Bytes × Value D} (hkey : P e.1)
    (h : Writes L den text e.2) :
    WritesChild L
      (fun ms : List (Bytes × Value D) => .members (ms.map fun e => (key e.1, den e.2)))
      (ch '}') (ascii "\"" ++ escapeString e.1 ++ ascii "\": " ++ text) e := by
  have hblank (s : Bytes) : L.gap (ch ' ' :: s) s :=
    hL.of_ws ⟨[ch ' '], fun c hc => List.mem_singleton.1 hc ▸ rfl, rfl⟩
  have hkey (t : Bytes) : L.string (ascii "\"" ++ escapeString e.1 ++ ascii "\": " ++ text ++ t)
      (key e.1) (ch ':' :: ch ' ' :: (text ++ t)) := by
    have htext := hL.text (ch ':' :: ch ' ' :: (text ++ t)) hkey
    simpa [ascii] using htext
  constructor
  · intro s₀ s t hs₀ hs
    exact .lastMember (hL.of_ws hs₀) (hkey _) (hL.refl _) (hblank _)
      (h _ (closes_of_ws hs (by simp))) (hL.of_ws hs) (hL.trail _)
  · intro s₀ s s' t ms hs₀ hs hrest
    exact .member (hL.of_ws hs₀) (hkey _) (hL.refl _) (hblank _)
      (h _ (closes_of_ws hs (by simp))) (hL.of_ws hs) hrest

/-- **The generator writes every value**, in a layout that does not overflow, if it writes the
doubles inside. -/
theorem Fits.generateValue_writes_double (rt : Runtime D) {Q : D → Prop}
    (hdouble : ∀ d, Q d → Writes L den (rt.toString d) (.double d)) {v : Value D} (hv : v.WF)
    (hd : v.AllDouble Q) (hP : v.AllText P) (hroom : Room w (level + v.depth)) :
    ∃ text, generateValue rt w level v = some text ∧ Writes L den text v := by
  induction hv generalizing level with
  | null =>
      refine ⟨ascii "null", by rw [generateValue], fun t _ => ?_⟩
      rw [hL.null]
      have hnull := Derives.null (L := onBytes L) t
      rwa [List.map_id] at hnull
  | bool b =>
      refine ⟨_, by rw [generateValue], fun t _ => ?_⟩
      rw [hL.bool]
      cases b
      · have hfalse := Derives.false (L := onBytes L) t
        rwa [List.map_id] at hfalse
      · have htrue := Derives.true (L := onBytes L) t
        rwa [List.map_id] at htrue
  | int i => exact ⟨_, by rw [generateValue], fun t ht => hL.int i ht⟩
  | double d =>
      cases hd with
      | double hd => exact ⟨_, by rw [generateValue], hdouble d hd⟩
  | string s =>
      refine ⟨_, by rw [generateValue], fun t _ => ?_⟩
      rw [hL.string]
      cases hP with
      | string hs => exact .string (hL.text t hs)
  | @array a _ ih =>
      have hd : ∀ v ∈ a, v.AllDouble Q := by cases hd; assumption
      have hP : ∀ v ∈ a, v.AllText P := by cases hP; assumption
      have hvs : ∀ v ∈ a, ∃ text, generateValue rt w (level + 1) v = some text ∧
          Writes L den text v := fun v hv =>
        ih v hv (hd v hv) (hP v hv) (hroom.mono (by have := Value.depth_array hv; omega))
      rw [generateValue_array, generateArray]
      by_cases ha : a = []
      · subst ha
        refine ⟨_, if_pos rfl, fun t _ => ?_⟩
        rw [hL.array]
        exact .emptyArray (hL.refl _)
      · obtain ⟨v, hv⟩ := List.exists_mem_of_ne_nil a ha
        have hdepth := Value.depth_array hv
        obtain ⟨items, hitems, hderives⟩ := hL.generateItems_writes
          (hroom.mono (show level + 1 ≤ _ by omega)) (by rintro _ _ ⟨⟩) ha fun v hv =>
            (hvs v hv).imp fun _ h => ⟨h.1, hL.writesChild_element h.2⟩
        obtain ⟨b, hb, hspaces⟩ := exists_prettyIndent (hroom.mono (Nat.le_add_right level _))
        refine ⟨_, by rw [if_neg (by simpa using ha), hitems, Nat.add_sub_cancel, hb]; rfl,
          fun t _ => ?_⟩
        have h := hL.derives_of_ws (ws_prettyNewline w _) (hderives _ t (hspaces _))
          (by rintro v ⟨⟩)
        rw [hL.array]
        simp only [List.append_assoc]
        exact .array h
  | @object o ho _ ih =>
      have hd : ∀ e ∈ o, e.2.AllDouble Q := by cases hd; assumption
      obtain ⟨hkeys, hP⟩ : (∀ e ∈ o, P e.1) ∧ ∀ e ∈ o, e.2.AllText P := by
        cases hP with
        | object hkeys hvalues => exact ⟨hkeys, hvalues⟩
      have hmembers : ∀ e ∈ o, ∃ text, ((generateValue rt w (level + 1) e.2).map fun text =>
            ascii "\"" ++ escapeString e.1 ++ ascii "\": " ++ text) = some text ∧
          WritesChild L (fun ms : List (Bytes × Value D) =>
            .members (ms.map fun e => (key e.1, den e.2))) (ch '}') text e := fun e he => by
        have hdepth := Value.depth_object he
        obtain ⟨text, htext, hwrites⟩ := ih e he (hd e he) (hP e he)
          (hroom.mono (show level + 1 + e.2.depth ≤ _ by omega))
        exact ⟨_, by rw [htext, Option.map_some], hL.writesChild_member (hkeys e he) hwrites⟩
      rw [generateValue_object, generateObject]
      by_cases hnil : o = []
      · subst hnil
        exact ⟨_, if_pos rfl, fun t _ => .emptyObject (hL.refl _) (hL.object [] ho)⟩
      · obtain ⟨e, he⟩ := List.exists_mem_of_ne_nil o hnil
        have hdepth := Value.depth_object he
        obtain ⟨items, hitems, hderives⟩ := hL.generateItems_writes
          (hroom.mono (show level + 1 ≤ _ by omega)) (by rintro _ _ ⟨⟩) hnil hmembers
        simp only [List.map_map, Function.comp_def]
        obtain ⟨b, hb, hspaces⟩ := exists_prettyIndent (hroom.mono (Nat.le_add_right level _))
        refine ⟨_, by rw [if_neg (by simpa using hnil), hitems, Nat.add_sub_cancel, hb]; rfl,
          fun t _ => ?_⟩
        have h := hL.derives_of_ws (ws_prettyNewline w _) (hderives _ t (hspaces _))
          (by rintro v ⟨⟩)
        simp only [List.append_assoc]
        exact .object h (hL.object o ho)

/-- **The generator writes every value without doubles**, in a layout that does not overflow. -/
theorem Fits.generateValue_writes (rt : Runtime D) {v : Value D} (hv : v.WF) (hd : v.NoDouble)
    (hP : v.AllText P) (hroom : Room w (level + v.depth)) :
    ∃ text, generateValue rt w level v = some text ∧ Writes L den text v :=
  hL.generateValue_writes_double rt (Q := fun _ => False) (fun _ => False.elim) hv
    (hd.allDouble _) hP hroom

end Writing

end Json
end BreUtils
