/-
# Programs over `Value`s

A program constructs values under names, destroys them, and calls member functions on
them and on the values inside, to which the two `operator[]` give references.  A call may
be given another value: to copy it, to move it, or to append a copy of it.  An assignment
is between two values of which neither is inside the other; one to itself does nothing.

In every state of every program the two fields of every live value agree, at every depth,
those that were moved from included; no call throws `std::bad_variant_access`; and a call
that throws changes nothing (`agreement`).
-/

import BreUtils.Json.Agreement
import BreUtils.Lib.Transition
import Mathlib.Logic.Function.Basic

namespace BreUtils
namespace Json

open Cpp Lib Throwing

variable {D : Type}

/-! ### Values inside values -/

namespace Node

/-- The value one step inside, if there is one. -/
def child (n : Node D) : Step → Option (Node D)
  | .index i => n.value_.array?.bind (·[i]?)
  | .key k => n.value_.object?.bind (·.lookup k)

/-- The value with another in place of that one. -/
def putChild (n : Node D) (s : Step) (c : Node D) : Node D :=
  match s, n.value_ with
  | .index i, .array arr => { n with value_ := .array (arr.set i c) }
  | .key k, .object obj =>
      { n with value_ := .object (obj.map fun e => if e.1 = k then (e.1, c) else e) }
  | _, _ => n

/-- A child of a consistent node is consistent. -/
theorem Consistent.child {n : Node D} (h : Consistent n) {s : Step} {c : Node D}
    (hc : n.child s = some c) : Consistent c := by
  obtain ⟨t, v⟩ := n
  cases s with
  | index i =>
      cases v <;> simp only [Node.child, Variant.array?, Option.bind_none, Option.bind_some,
        reduceCtorEq] at hc
      exact h.inside (List.mem_of_getElem? hc)
  | key k =>
      cases v <;> simp only [Node.child, Variant.object?, Option.bind_none, Option.bind_some,
        reduceCtorEq] at hc
      obtain ⟨l, r, ho, -⟩ := List.lookup_eq_some_iff.1 hc
      refine h.inside (List.mem_map.2 ⟨(k, c), ?_, rfl⟩)
      rw [ho]
      simp

/-- A member that is replaced keeps its key. -/
theorem map_putKey (obj : List (Bytes × Node D)) (k : Bytes) (c : Node D) :
    (obj.map fun e => if e.1 = k then (e.1, c) else e).map Prod.fst = obj.map Prod.fst := by
  rw [List.map_map]
  refine List.map_congr_left fun e _ => ?_
  simp only [Function.comp_apply]
  split_ifs <;> rfl

/-- A consistent child in a consistent node. -/
theorem Consistent.putChild {n : Node D} (h : Consistent n) (s : Step) {c : Node D}
    (hc : Consistent c) : Consistent (n.putChild s c) := by
  obtain ⟨t, v⟩ := n
  obtain rfl : v.type = t := h.tag
  unfold Node.putChild
  split
  · rename_i i arr hv
    obtain rfl : v = .array arr := hv
    refine consistent_ofArray fun m hm => ?_
    rcases List.mem_or_eq_of_mem_set hm with hm | rfl
    · exact h.inside hm
    · exact hc
  · rename_i k obj hv
    obtain rfl : v = .object obj := hv
    refine consistent_ofObject ?_ fun e he => ?_
    · rw [map_putKey]
      exact h.keys rfl
    · obtain ⟨e', he', rfl⟩ := List.mem_map.1 he
      split_ifs
      · exact hc
      · exact h.inside (List.mem_map_of_mem he')
  · exact h

/-- To put a value where it is changes nothing. -/
theorem Consistent.putChild_self {n : Node D} (h : Consistent n) {s : Step} {c : Node D}
    (hc : n.child s = some c) : n.putChild s c = n := by
  obtain ⟨t, v⟩ := n
  cases s with
  | index i =>
      cases v <;> simp only [Node.child, Variant.array?, Option.bind_none, Option.bind_some,
        reduceCtorEq] at hc
      obtain ⟨hi, rfl⟩ := List.getElem?_eq_some_iff.1 hc
      simp only [Node.putChild, List.set_getElem_self]
  | key k =>
      cases v <;> simp only [Node.child, Variant.object?, Option.bind_none, Option.bind_some,
        reduceCtorEq] at hc
      rename_i obj
      have hsame : (obj.map fun e => if e.1 = k then (e.1, c) else e) = obj := by
        refine (List.map_congr_left fun e he => ?_).trans (List.map_id obj)
        have hlookup := AssocMap.lookup_of_nodup (h.keys rfl) he
        split_ifs with hk
        · rw [hk, hc] at hlookup
          rw [Option.some.inj hlookup]
          rfl
        · rfl
      simp only [Node.putChild, hsame]

end Node

/-! ### Programs -/

/-- How a program names a value: a variable, and the way from its value to the one inside. -/
structure Place (Name : Type) where
  root : Name
  path : List Node.Step
  deriving DecidableEq

/-- One of the two values is inside the other, or they are the same. -/
def Place.Overlaps {Name : Type} (p q : Place Name) : Prop :=
  p.root = q.root ∧ (p.path <+: q.path ∨ q.path <+: p.path)

/-- The live values, by the names of their variables. -/
abbrev Store (Name D : Type) := Name → Option (Node D)

variable {Name : Type} [DecidableEq Name]

instance (p q : Place Name) : Decidable (p.Overlaps q) :=
  inferInstanceAs (Decidable (_ ∧ (_ ∨ _)))

namespace Store

/-- The value at a place. -/
def read (s : Store Name D) (p : Place Name) : Option (Node D) :=
  (s p.root).bind fun n => Transition.run Node.child n p.path

/-- The store with another value at a place. -/
def write (s : Store Name D) (p : Place Name) (m : Node D) : Store Name D :=
  match s p.root with
  | none => s
  | some n => Function.update s p.root (some (Tree.replace Node.child Node.putChild n p.path m))

/-- **Every live value is consistent.** -/
def Consistent (s : Store Name D) : Prop := ∀ x n, s x = some n → n.Consistent

variable {s : Store Name D} {p : Place Name} {m n : Node D}

omit [DecidableEq Name] in
/-- What is read from the store is consistent. -/
theorem Consistent.read (hs : s.Consistent) (h : s.read p = some n) : n.Consistent := by
  obtain ⟨r, hr, hrun⟩ := Option.bind_eq_some_iff.1 h
  exact Transition.run_invariant (fun _ _ _ hn hc => Node.Consistent.child hn hc) (hs _ _ hr) hrun

/-- A consistent node in a consistent store. -/
theorem Consistent.update (hs : s.Consistent) (x : Name) (hn : n.Consistent) :
    Store.Consistent (Function.update s x (some n)) := by
  intro y m hm
  by_cases hxy : y = x
  · subst hxy
    rw [Function.update_self] at hm
    exact Option.some.inj hm ▸ hn
  · rw [Function.update_of_ne hxy] at hm
    exact hs y m hm

/-- A write of a consistent node anywhere in the store. -/
theorem Consistent.write (hs : s.Consistent) (p : Place Name) (hm : m.Consistent) :
    (s.write p m).Consistent := by
  unfold Store.write
  split
  · exact hs
  · rename_i n hn
    exact hs.update _ (Tree.replace_invariant (fun _ _ _ hq hc => Node.Consistent.child hq hc)
      (fun _ a _ _ hq _ hr => Node.Consistent.putChild hq a hr) (hs _ n hn) hm)

/-- To write a value where it is changes nothing. -/
theorem Consistent.write_self (hs : s.Consistent) (h : s.read p = some n) : s.write p n = s := by
  obtain ⟨r, hr, hrun⟩ := Option.bind_eq_some_iff.1 h
  have hsame : Tree.replace Node.child Node.putChild r p.path n = r :=
    Tree.replace_self (fun _ _ _ hq hc => Node.Consistent.child hq hc)
      (fun _ _ _ hq hc => Node.Consistent.putChild_self hq hc) (hs _ _ hr) hrun
  unfold Store.write
  rw [hr]
  show Function.update s p.root (some (Tree.replace Node.child Node.putChild r p.path n)) = s
  rw [hsame, ← hr, Function.update_eq_self]

end Store

/-- What a value is constructed from.  An `Array` or an `Object` has copies of live values for its
elements.  `left`: the bytes of a string that was moved from. -/
inductive Args (Name D : Type) where
  | default
  | bool (b : Bool)
  | int (i : Int32)
  | double (d : D)
  | string (s : Bytes)
  | array (elements : List (Place Name))
  | object (members : List (Bytes × Place Name))
  | copy (other : Place Name)
  | move (other : Place Name) (left : Bytes)

/-- One statement of a program. -/
inductive Op (Name D : Type) where
  | construct (x : Name) (args : Args Name D)
  | destroy (x : Name)
  | copyAssign (p other : Place Name)
  | moveAssign (p other : Place Name) (left : Bytes)
  | append (p val : Place Name)
  | call (p : Place Name) (c : Node.Call D)

variable (maxSize : ℕ)

namespace Store

/-- A member function runs on the value at a place. -/
def run (s : Store Name D) (p : Place Name) (m : Node.Method D Unit) :
    Option (Except Thrown Unit × Store Name D) :=
  (s.read p).map fun n => ((exec m n).1, s.write p (exec m n).2)

/-- What a constructor makes, and the store it leaves. -/
def make (s : Store Name D) : Args Name D → Option (Node D × Store Name D)
  | .default => some (.null, s)
  | .bool b => some (.ofBool b, s)
  | .int i => some (.ofInt i, s)
  | .double d => some (.ofDouble d, s)
  | .string str => some (.ofString str, s)
  | .array elements => (elements.mapM s.read).map fun arr => (.ofArray arr, s)
  | .object members =>
      (members.mapM fun e => (s.read e.2).map fun n => (e.1, n)).map fun obj =>
        (.ofObject (obj.foldl (fun o e => Node.emplace o e.1 e.2) []), s)
  | .copy other => (s.read other).map fun n => (n.copy, s)
  | .move other left => (s.read other).map fun n => (n.copy, s.write other (n.movedFrom left))

/-- What a statement returns or throws, and the store it leaves.  A statement that names no live
value, or constructs one where there is one, is none of a program. -/
def perform (s : Store Name D) : Op Name D → Option (Except Thrown Unit × Store Name D)
  | .construct x args =>
      match s x with
      | some _ => none
      | none => (s.make args).map fun made => (.ok (), Function.update made.2 x (some made.1))
  | .destroy x => (s x).map fun _ => (.ok (), Function.update s x none)
  | .copyAssign p other =>
      (s.read other).bind fun n =>
        if p = other then some (.ok (), s)
        else if p.Overlaps other then none
        else s.run p (Node.assignFrom n.copy)
  | .moveAssign p other left =>
      (s.read other).bind fun n =>
        if p = other then some (.ok (), s)
        else if p.Overlaps other then none
        else (s.run p (Node.assignFrom n)).map fun done =>
          (done.1, done.2.write other (n.movedFrom left))
  | .append p val => (s.read val).bind fun n => s.run p (Node.append maxSize n.copy)
  | .call p c => s.run p (c.method maxSize)

/-- A program goes on with the store that a statement leaves, whether it threw or not. -/
def step (s : Store Name D) (op : Op Name D) : Option (Store Name D) :=
  (s.perform maxSize op).map Prod.snd

/-- No value is live. -/
def init : Store Name D := fun _ => none

/-! ### What holds in every state of every program -/

/-- What is asked of a statement: it leaves consistent values, and when it throws, that is not
`std::bad_variant_access`, and nothing has changed. -/
structure Sound (s : Store Name D) (r : Except Thrown Unit) (s' : Store Name D) : Prop where
  consistent : s'.Consistent
  thrown : ∀ e, r = .error e → e ≠ .badVariantAccess ∧ s' = s

variable {maxSize} {s s' : Store Name D} {p : Place Name} {r : Except Thrown Unit}

omit [DecidableEq Name] in
/-- A call that returns and leaves the store consistent. -/
theorem Sound.of_ok (h : s'.Consistent) : Sound s (.ok ()) s' := ⟨h, by simp⟩

/-- A member function that does all or nothing is sound where it runs. -/
theorem run_sound (hs : s.Consistent) {m : Node.Method D Unit} (hm : Node.Keeps m)
    (h : s.run p m = some (r, s')) : Sound s r s' := by
  obtain ⟨n, hn, heq⟩ := Option.map_eq_some_iff.1 h
  obtain ⟨rfl, rfl⟩ := Prod.mk.inj heq
  rcases hm n (hs.read hn) with ⟨a, t, hexec, ht⟩ | ⟨e, hexec, he⟩
  · rw [hexec]
    exact .of_ok (hs.write p ht)
  · rw [hexec]
    refine ⟨hs.write p (hs.read hn), fun e' he' => ?_⟩
    obtain rfl := Except.error.inj he'
    exact ⟨he, hs.write_self hn⟩

/-- So is one that does not throw, and it returns. -/
theorem run_total (hs : s.Consistent) {m : Node.Method D Unit}
    (hm : Total Node.Consistent m fun _ n => n.Consistent) (h : s.run p m = some (r, s')) :
    r = .ok () ∧ s'.Consistent := by
  obtain ⟨n, hn, heq⟩ := Option.map_eq_some_iff.1 h
  obtain ⟨rfl, rfl⟩ := Prod.mk.inj heq
  obtain ⟨a, t, hexec, ht⟩ := hm n (hs.read hn)
  rw [hexec]
  exact ⟨rfl, hs.write p ht⟩

/-- Where the results of a mapped list come from. -/
theorem exists_of_mapM {A B : Type} {f : A → Option B} {l : List A} {bs : List B}
    (h : l.mapM f = some bs) : ∀ b ∈ bs, ∃ a, f a = some b := by
  induction l generalizing bs with
  | nil =>
      obtain rfl := Option.some.inj (h : some [] = some bs)
      simp
  | cons a l ih =>
      rw [List.mapM_cons] at h
      obtain ⟨b, hb, h⟩ := Option.bind_eq_some_iff.1 h
      obtain ⟨bs', hbs', h⟩ := Option.bind_eq_some_iff.1 h
      obtain rfl := Option.some.inj h
      intro b' hb'
      rcases List.mem_cons.1 hb' with rfl | hb'
      · exact ⟨a, hb⟩
      · exact ih hbs' b' hb'

/-- The members of an `Object` are put in one after the other. -/
theorem consistent_foldl {ms obj : List (Bytes × Node D)} (hms : ∀ e ∈ ms, e.2.Consistent)
    (hkeys : (obj.map Prod.fst).Nodup) (hobj : ∀ e ∈ obj, e.2.Consistent) :
    (Node.ofObject (ms.foldl (fun o e => Node.emplace o e.1 e.2) obj)).Consistent := by
  induction ms generalizing obj with
  | nil => exact Node.consistent_ofObject hkeys hobj
  | cons e ms ih =>
      exact ih (fun e' he' => hms e' (List.mem_cons_of_mem _ he'))
        (Node.nodup_emplace hkeys e.1 e.2)
        (Node.consistent_emplace hobj e.1 (hms e List.mem_cons_self))

/-- **What a constructor makes is consistent**, and so is what it leaves. -/
theorem make_consistent (hs : s.Consistent) {args : Args Name D} {n : Node D}
    (h : s.make args = some (n, s')) : n.Consistent ∧ s'.Consistent := by
  cases args with
  | default =>
      obtain ⟨rfl, rfl⟩ := Prod.mk.inj (Option.some.inj h)
      exact ⟨Node.consistent_null, hs⟩
  | bool b =>
      obtain ⟨rfl, rfl⟩ := Prod.mk.inj (Option.some.inj h)
      exact ⟨Node.consistent_ofBool b, hs⟩
  | int i =>
      obtain ⟨rfl, rfl⟩ := Prod.mk.inj (Option.some.inj h)
      exact ⟨Node.consistent_ofInt i, hs⟩
  | double d =>
      obtain ⟨rfl, rfl⟩ := Prod.mk.inj (Option.some.inj h)
      exact ⟨Node.consistent_ofDouble d, hs⟩
  | string str =>
      obtain ⟨rfl, rfl⟩ := Prod.mk.inj (Option.some.inj h)
      exact ⟨Node.consistent_ofString str, hs⟩
  | array elements =>
      obtain ⟨arr, harr, heq⟩ := Option.map_eq_some_iff.1 h
      obtain ⟨rfl, rfl⟩ := Prod.mk.inj heq
      refine ⟨Node.consistent_ofArray fun m hm => ?_, hs⟩
      obtain ⟨p, hp⟩ := exists_of_mapM harr m hm
      exact hs.read hp
  | object members =>
      obtain ⟨ms, hms, heq⟩ := Option.map_eq_some_iff.1 h
      obtain ⟨rfl, rfl⟩ := Prod.mk.inj heq
      refine ⟨consistent_foldl (fun e he => ?_) (by simp) (by simp), hs⟩
      obtain ⟨member, hmember⟩ := exists_of_mapM hms e he
      obtain ⟨n, hn, rfl⟩ := Option.map_eq_some_iff.1 hmember
      exact hs.read hn
  | copy other =>
      obtain ⟨m, hm, heq⟩ := Option.map_eq_some_iff.1 h
      obtain ⟨rfl, rfl⟩ := Prod.mk.inj heq
      rw [Node.copy_eq]
      exact ⟨hs.read hm, hs⟩
  | move other left =>
      obtain ⟨m, hm, heq⟩ := Option.map_eq_some_iff.1 h
      obtain ⟨rfl, rfl⟩ := Prod.mk.inj heq
      rw [Node.copy_eq]
      exact ⟨hs.read hm, hs.write other ((hs.read hm).movedFrom left)⟩

/-- **Every statement is sound.** -/
theorem perform_sound (hs : s.Consistent) {op : Op Name D}
    (h : s.perform maxSize op = some (r, s')) : Sound s r s' := by
  cases op with
  | construct x args =>
      simp only [perform] at h
      split at h
      · exact absurd h (by simp)
      · obtain ⟨⟨n, u⟩, hmade, heq⟩ := Option.map_eq_some_iff.1 h
        obtain ⟨rfl, rfl⟩ := Prod.mk.inj heq
        obtain ⟨hn, hu⟩ := make_consistent hs hmade
        exact .of_ok (hu.update x hn)
  | destroy x =>
      obtain ⟨n, hn, heq⟩ := Option.map_eq_some_iff.1 h
      obtain ⟨rfl, rfl⟩ := Prod.mk.inj heq
      refine .of_ok fun y m hm => ?_
      by_cases hxy : y = x
      · subst hxy
        exact absurd hm (by simp)
      · exact hs y m (Function.update_of_ne hxy none s ▸ hm)
  | copyAssign p other =>
      obtain ⟨n, hn, h⟩ := Option.bind_eq_some_iff.1 h
      split_ifs at h with hself hoverlaps
      · obtain ⟨rfl, rfl⟩ := Prod.mk.inj (Option.some.inj h)
        exact .of_ok hs
      · rw [Node.copy_eq] at h
        exact run_sound hs (Node.consistent_assignFrom (hs.read hn)).strong h
  | moveAssign p other left =>
      obtain ⟨n, hn, h⟩ := Option.bind_eq_some_iff.1 h
      split_ifs at h with hself hoverlaps
      · obtain ⟨rfl, rfl⟩ := Prod.mk.inj (Option.some.inj h)
        exact .of_ok hs
      · obtain ⟨⟨r', t⟩, hrun, heq⟩ := Option.map_eq_some_iff.1 h
        obtain ⟨rfl, rfl⟩ := Prod.mk.inj heq
        obtain ⟨rfl, ht⟩ := run_total hs (Node.consistent_assignFrom (hs.read hn)) hrun
        exact .of_ok (ht.write other ((hs.read hn).movedFrom left))
  | append p val =>
      obtain ⟨n, hn, h⟩ := Option.bind_eq_some_iff.1 h
      rw [Node.copy_eq] at h
      exact run_sound hs (Node.keeps_append maxSize (hs.read hn)) h
  | call p c => exact run_sound hs (c.keeps maxSize) h

/-- **The two fields of every live value agree, in every state of every program**: at every depth
the tag names the alternative that the variant holds.  No statement throws
`std::bad_variant_access`, and one that throws leaves all values as they were. -/
theorem agreement (maxSize : ℕ) (ops : List (Op Name D)) (s : Store Name D)
    (h : Transition.run (step maxSize) init ops = some s) :
    (∀ x n, s x = some n → n.Consistent) ∧
      ∀ op r s', s.perform maxSize op = some (r, s') →
        r ≠ .error .badVariantAccess ∧ ∀ e, r = .error e → s' = s := by
  have hs : s.Consistent := by
    refine Transition.run_invariant (fun u op v hu hstep => ?_)
      (fun _ _ hn => absurd hn (by simp [init])) h
    obtain ⟨⟨r, t⟩, hperform, rfl⟩ := Option.map_eq_some_iff.1 hstep
    exact (perform_sound hu hperform).consistent
  refine ⟨hs, fun op r s' hperform => ?_⟩
  have hsound := perform_sound hs hperform
  refine ⟨?_, fun e he => (hsound.thrown e he).2⟩
  rintro rfl
  exact (hsound.thrown _ rfl).1 rfl

/-- An object with an array that is resized to a negative size, and moved away. -/
def sample : List (Op ℕ ℚ) :=
  [.construct 0 .default, .call ⟨0, []⟩ (.atKey (ascii "a")),
    .call ⟨0, [.key (ascii "a")]⟩ .setArray,
    .call ⟨0, [.key (ascii "a")]⟩ (.atIndex 2),
    .call ⟨0, [.key (ascii "a")]⟩ (.resize (-1)),
    .construct 1 (.move ⟨0, [.key (ascii "a")]⟩ []),
    .append ⟨1, []⟩ ⟨0, []⟩]

/-- After the sample run every node is consistent. -/
theorem agreement_sample :
    ∃ s, Transition.run (step 1000) init sample = some s ∧ (s 1).isSome = true ∧
      ∀ x n, s x = some n → n.Consistent := by
  obtain ⟨s, hs⟩ : ∃ s, Transition.run (step 1000) init sample = some s := ⟨_, rfl⟩
  refine ⟨s, hs, ?_, (agreement 1000 sample s hs).1⟩
  obtain rfl := Option.some.inj hs
  rfl

end Store
end Json
end BreUtils
