/-
# Where the walks of the prefix tree read

A walk has no test of its own for the end of the text.  The `\0` behind the text ends it as
long as no node that it gets to has the letter `\0`, and a node has it after a text with a
`\0` in it was inserted.  Then a walk over what stands before that `\0` goes on behind its
own text.

So every call of a run stays inside its text exactly if no text that is looked up or inserted
is followed, in a text inserted before, by a `\0` (`reads_inside_iff`).
-/

import BreUtils.PrefixTree.Words

namespace BreUtils
namespace PrefixTree

open Lib Cpp

/-! ### The calls and their reads -/

/-- The places that `walk` reads, up to the first one behind the text and its `\0`. -/
def walkReads (h : Heap) (str : Bytes) (p i : ℕ) : List ℕ :=
  i :: if i ≤ str.length then
    if h.contain p (charAt str i) then
      (h.getIndexAtChar p (charAt str i)).elim [] fun q =>
        if i + 1 < 2 ^ 31 then walkReads h str q (i + 1) else []
    else []
  else []
termination_by str.length + 1 - i

/-- The places that `extend` reads. -/
def extendReads (str : Bytes) (i : ℕ) : List ℕ :=
  if i < str.length then
    i :: if i + 1 < 2 ^ 31 then extendReads str (i + 1) else []
  else []
termination_by str.length - i

/-- A call of the tree. -/
inductive Call where
  | insert (str : Bytes)
  | search (str : Bytes)
  | startWith (str : Bytes)
  deriving DecidableEq

namespace Call

/-- The argument. -/
def str : Call → Bytes
  | insert str | search str | startWith str => str

/-- The tree after the call. -/
def step (h : Heap) : Call → Option Heap
  | insert str => PrefixTree.insert h str
  | search str => (PrefixTree.search h str).map fun _ => h
  | startWith str => (PrefixTree.startWith h str).map fun _ => h

/-- The places of `str` that the call reads. -/
def reads (h : Heap) : Call → List ℕ
  | insert str =>
      if str = [] then []
      else walkReads h str 0 0 ++ (walk h str 0 0).elim [] fun (_, i) => extendReads str i
  | search str | startWith str => if str = [] then [] else walkReads h str 0 0

/-- Every place that the call reads is in the text, or right behind it. -/
def ReadsInside (h : Heap) (c : Call) : Prop := ∀ i ∈ c.reads h, i ≤ c.str.length

/-- The texts that calls insert. -/
def inserted (calls : List Call) : List Bytes :=
  calls.filterMap fun
    | insert str => some str
    | search _ | startWith _ => none

/-- No text among `words` goes on with a `\0` behind the text of the call. -/
def Delimited (words : List Bytes) (c : Call) : Prop :=
  c.str = [] ∨ ∀ w ∈ words, ¬ c.str ++ [0] <+: w

end Call

variable {h h' : Heap} {S E : Set Bytes} {p q i : ℕ} {s w str : Bytes} {words : List Bytes}
  {c : Call} {calls : List Call}

/-! ### One call -/

/-- A walk reads at least the place where it starts. -/
theorem mem_walkReads_self : i ∈ walkReads h str p i := by
  rw [walkReads]
  exact List.mem_cons_self

/-- What a walk reads at a place of the text. -/
theorem walkReads_of_child (hi : i ≤ str.length) (hrange : i + 1 < 2 ^ 31)
    (hq : child h p (str.getD i 0) = some q) :
    walkReads h str p i = i :: walkReads h str q (i + 1) := by
  have hcontain : h.contain p (charAt str i) = true := by
    rw [charAt, contain_letter, hq]
    rfl
  have hchild : h.getIndexAtChar p (charAt str i) = some q := hq
  rw [walkReads, if_pos hi, if_pos hcontain, hchild, Option.elim_some, if_pos hrange]

theorem walkReads_of_no_child (hq : child h p (str.getD i 0) = none) :
    walkReads h str p i = [i] := by
  have hcontain : h.contain p (charAt str i) = false := by
    rw [charAt, contain_letter, hq]
    rfl
  rw [walkReads, hcontain]
  simp

/-- **A walk stays inside** if the text is not followed by a `\0` in the tree. -/
theorem walkReads_le (hh : Holds h S E) (hnul : str ++ [0] ∉ S)
    (hp : Transition.run (child h) 0 (str.take i) = some p) (hi : i ≤ str.length) :
    ∀ j ∈ walkReads h str p i, j ≤ str.length := by
  induction hn : str.length - i using Nat.strong_induction_on generalizing i p with
  | _ n ih =>
      cases hq : child h p (str.getD i 0) with
      | none =>
          rw [walkReads_of_no_child hq]
          exact List.forall_mem_singleton.2 hi
      | some q =>
          have hlt : i < str.length := by
            refine hi.lt_of_ne ?_
            rintro rfl
            refine hnul ((hh.mem_iff _).2 ⟨q, Transition.run_concat_eq_some.2 ⟨p, ?_, ?_⟩⟩)
            · rwa [List.take_length] at hp
            · simpa using hq
          have hnext : Transition.run (child h) 0 (str.take (i + 1)) = some q := by
            rw [take_add_one hlt]
            exact Transition.run_concat_eq_some.2 ⟨p, hp, hq⟩
          by_cases hrange : i + 1 < 2 ^ 31
          · rw [walkReads_of_child hi hrange hq]
            exact List.forall_mem_cons.2 ⟨hi, ih _ (by omega) hnext hlt rfl⟩
          · have hcontain : h.contain p (charAt str i) = true := by
              rw [charAt, contain_letter, hq]
              rfl
            have hchild : h.getIndexAtChar p (charAt str i) = some q := hq
            rw [walkReads, if_pos hi, if_pos hcontain, hchild, Option.elim_some, if_neg hrange]
            exact List.forall_mem_singleton.2 hi

/-- **A walk goes on behind the text** if the tree goes on with a `\0`. -/
theorem mem_walkReads (hh : Holds h S E) (hshort : ∀ s ∈ S, s.length < 2 ^ 31)
    (hnul : str ++ [0] ∈ S) (hp : Transition.run (child h) 0 (str.take i) = some p)
    (hi : i ≤ str.length) : str.length + 1 ∈ walkReads h str p i := by
  have hlength : str.length + 1 < 2 ^ 31 := by
    have hlt := hshort _ hnul
    rwa [List.length_append] at hlt
  obtain ⟨r, hr⟩ := (hh.mem_iff _).1 hnul
  induction hn : str.length - i using Nat.strong_induction_on generalizing i p with
  | _ n ih =>
      rcases hi.lt_or_eq with hlt | rfl
      · have hbegins : str.take (i + 1) <+: str ++ [0] :=
          (List.take_prefix _ _).trans (List.prefix_append _ _)
        obtain ⟨q, hnext⟩ := Tree.run_of_prefix hbegins hr
        have hq : child h p (str.getD i 0) = some q := by
          have hstep := hnext
          rw [take_add_one hlt] at hstep
          obtain ⟨p', hp', hq⟩ := Transition.run_concat_eq_some.1 hstep
          rwa [Option.some.inj (hp.symm.trans hp')]
        rw [walkReads_of_child hi (by omega) hq]
        exact List.mem_cons_of_mem _ (ih _ (by omega) hnext hlt rfl)
      · obtain ⟨p', hp', hq⟩ := Transition.run_concat_eq_some.1 hr
        rw [List.take_length] at hp
        obtain rfl := Option.some.inj (hp.symm.trans hp')
        have hzero : child h p (str.getD str.length 0) = some r := by simpa using hq
        rw [walkReads_of_child le_rfl hlength hzero]
        exact List.mem_cons_of_mem _ mem_walkReads_self

theorem extendReads_lt : ∀ j ∈ extendReads str i, j < str.length := by
  induction hn : str.length - i using Nat.strong_induction_on generalizing i with
  | _ n ih =>
      rw [extendReads]
      split_ifs with hi hrange
      · exact List.forall_mem_cons.2 ⟨hi, ih _ (by omega) rfl⟩
      · exact List.forall_mem_singleton.2 hi
      · exact fun j hj => absurd hj List.not_mem_nil

/-- Behind the walk a call reads only places of its text. -/
theorem Call.reads_eq (hc : c.str ≠ []) :
    ∃ rest, c.reads h = walkReads h c.str 0 0 ++ rest ∧ ∀ i ∈ rest, i ≤ c.str.length := by
  cases c with
  | insert str =>
      refine ⟨(walk h str 0 0).elim [] fun e => extendReads str e.2, if_neg hc, fun i hi => ?_⟩
      cases hwalk : walk h str 0 0 with
      | none =>
          rw [hwalk] at hi
          exact absurd hi List.not_mem_nil
      | some e =>
          rw [hwalk] at hi
          exact (extendReads_lt i hi).le
  | search str | startWith str =>
      refine ⟨[], ?_, fun i hi => absurd hi List.not_mem_nil⟩
      rw [List.append_nil]
      exact if_neg hc

/-- **Where a call reads:** inside its text, exactly if no inserted text goes on with a `\0`
behind it. -/
theorem Call.readsInside_iff (hh : Holds h (beginnings words) E)
    (hshort : ∀ w ∈ words, w.length < 2 ^ 31) : c.ReadsInside h ↔ c.Delimited words := by
  by_cases hc : c.str = []
  · refine iff_of_true ?_ (Or.inl hc)
    cases c with
    | insert str | search str | startWith str =>
        change str = [] at hc
        simp [Call.ReadsInside, Call.reads, hc]
  · have hnul : c.str ++ [0] ∈ beginnings words ↔ ∃ w ∈ words, c.str ++ [0] <+: w :=
      or_iff_right (by simp)
    have hroot : Transition.run (child h) 0 (c.str.take 0) = some 0 := rfl
    obtain ⟨rest, hreads, hrest⟩ := Call.reads_eq (h := h) hc
    rw [Call.Delimited, or_iff_right hc, Call.ReadsInside, hreads, List.forall_mem_append,
      and_iff_left hrest]
    constructor
    · intro hinside w hw hbegins
      have hmem := mem_walkReads hh (fun s hs => length_lt_of_mem hshort hs)
        (hnul.2 ⟨w, hw, hbegins⟩) hroot (Nat.zero_le _)
      exact absurd (hinside _ hmem) (by omega)
    · intro hfree
      refine walkReads_le hh (fun hmem => ?_) hroot (Nat.zero_le _)
      obtain ⟨w, hw, hbegins⟩ := hnul.1 hmem
      exact hfree w hw hbegins

/-- **What a call does** that reads inside its text. -/
theorem Call.step_spec (hh : Holds h (beginnings words) (kept words))
    (hshort : ∀ w ∈ words, w.length < 2 ^ 31) (hfree : c.Delimited words) :
    ((∀ w ∈ inserted [c], w.length < 2 ^ 31) ∧ ∃ h', c.step h = some h' ∧
        Holds h' (beginnings (words ++ inserted [c])) (kept (words ++ inserted [c]))) ∨
      ¬ (∀ w ∈ inserted [c], w.length < 2 ^ 31) ∧ c.step h = none := by
  have hnul : c.str = [] ∨ c.str ++ [0] ∉ beginnings words := by
    refine hfree.imp_right fun hfree hmem => ?_
    rcases hmem with hmem | ⟨w, hw, hbegins⟩
    · exact absurd hmem (by simp)
    · exact hfree w hw hbegins
  have hlook (str : Bytes) (hstr : str = [] ∨ str ++ [0] ∉ beginnings words) :
      str = [] ∨ ∃ e, walk h str 0 0 = some e := by
    refine hstr.imp_right fun hstr => ?_
    obtain ⟨k, q, -, -, -, -, hwalk⟩ := walk_words hh hshort str hstr
    exact ⟨(q, k), hwalk⟩
  cases c with
  | insert str =>
      have hinserted : inserted [insert str] = [str] := rfl
      rw [hinserted, List.forall_mem_singleton, not_lt]
      exact insert_spec hh hshort hnul
  | search str =>
      refine Or.inl ⟨fun w hw => absurd hw List.not_mem_nil, h, ?_, ?_⟩
      · rw [step, PrefixTree.search]
        rcases hlook str hnul with hstr | ⟨e, he⟩
        · rw [if_pos hstr]
          rfl
        · rw [he]
          split_ifs <;> rfl
      · exact (List.append_nil words).symm ▸ hh
  | startWith str =>
      refine Or.inl ⟨fun w hw => absurd hw List.not_mem_nil, h, ?_, ?_⟩
      · rw [step, PrefixTree.startWith]
        rcases hlook str hnul with hstr | ⟨e, he⟩
        · rw [if_pos hstr]
          rfl
        · rw [he]
          split_ifs <;> rfl
      · exact (List.append_nil words).symm ▸ hh

/-! ### Runs of calls -/

/-- **A run stays inside the texts:** it is defined to its end, and every call of it reads inside
its own text. -/
def StaysInside (calls : List Call) : Prop :=
  (∃ h, Transition.run Call.step .init calls = some h) ∧
    ∀ before c h, before ++ [c] <+: calls → Transition.run Call.step .init before = some h →
      c.ReadsInside h

/-- The texts are short enough for an `int`, and none is followed by a `\0` in a text that was
inserted before. -/
def Harmless (calls : List Call) : Prop :=
  (∀ w ∈ Call.inserted calls, w.length < 2 ^ 31) ∧
    ∀ before c, before ++ [c] <+: calls → c.Delimited (Call.inserted before)

theorem Call.inserted_concat : inserted (calls ++ [c]) = inserted calls ++ inserted [c] :=
  List.filterMap_append

theorem run_concat : Transition.run Call.step .init (calls ++ [c]) =
    (Transition.run Call.step .init calls).bind fun h => c.step h := by
  rw [Transition.run_append]
  simp

theorem staysInside_concat : StaysInside (calls ++ [c]) ↔ StaysInside calls ∧
    ∃ h, Transition.run Call.step .init calls = some h ∧ c.ReadsInside h ∧
      ∃ h', c.step h = some h' := by
  constructor
  · rintro ⟨⟨h', hrun⟩, hinside⟩
    rw [run_concat, Option.bind_eq_some_iff] at hrun
    obtain ⟨h, hrun, hstep⟩ := hrun
    refine ⟨⟨⟨h, hrun⟩, fun before d g hbegins hg => ?_⟩, h, hrun, ?_, h', hstep⟩
    · exact hinside before d g (hbegins.trans (List.prefix_append _ _)) hg
    · exact hinside calls c h List.prefix_rfl hrun
  · rintro ⟨⟨-, hinside⟩, h, hrun, hreads, h', hstep⟩
    refine ⟨⟨h', ?_⟩, fun before d g hbegins hg => ?_⟩
    · rw [run_concat, hrun, Option.bind_some, hstep]
    · rcases List.prefix_concat_iff.1 hbegins with heq | hbegins
      · obtain ⟨rfl, hd⟩ := List.append_inj' heq rfl
        obtain rfl := List.singleton_inj.1 hd
        rwa [Option.some.inj (hg.symm.trans hrun)]
      · exact hinside before d g hbegins hg

theorem harmless_concat : Harmless (calls ++ [c]) ↔ Harmless calls ∧
    (∀ w ∈ Call.inserted [c], w.length < 2 ^ 31) ∧ c.Delimited (Call.inserted calls) := by
  have hshort : (∀ w ∈ Call.inserted (calls ++ [c]), w.length < 2 ^ 31) ↔
      (∀ w ∈ Call.inserted calls, w.length < 2 ^ 31) ∧
        ∀ w ∈ Call.inserted [c], w.length < 2 ^ 31 := by
    rw [Call.inserted_concat]
    exact List.forall_mem_append
  have hfree : (∀ before d, before ++ [d] <+: calls ++ [c] → d.Delimited (Call.inserted before)) ↔
      (∀ before d, before ++ [d] <+: calls → d.Delimited (Call.inserted before)) ∧
        c.Delimited (Call.inserted calls) := by
    constructor
    · intro hall
      refine ⟨fun before d hbegins => ?_, hall calls c List.prefix_rfl⟩
      exact hall before d (hbegins.trans (List.prefix_append _ _))
    · rintro ⟨hall, hc⟩ before d hbegins
      rcases List.prefix_concat_iff.1 hbegins with heq | hbegins
      · obtain ⟨rfl, hd⟩ := List.append_inj' heq rfl
        obtain rfl := List.singleton_inj.1 hd
        exact hc
      · exact hall before d hbegins
  unfold Harmless
  rw [hshort, hfree]
  tauto

/-- **Any calls:** the tree holds what was inserted, or a read was outside or `i` overflowed. -/
theorem holds_of_calls (calls : List Call) :
    (Harmless calls ∧ StaysInside calls ∧ ∃ h, Transition.run Call.step .init calls = some h ∧
        Holds h (beginnings (Call.inserted calls)) (kept (Call.inserted calls))) ∨
      ¬ Harmless calls ∧ ¬ StaysInside calls := by
  induction calls using List.reverseRecOn with
  | nil =>
      have hnone (before : List Call) (c : Call) : ¬ before ++ [c] <+: [] := by simp
      refine Or.inl
        ⟨⟨fun w hw => absurd hw List.not_mem_nil, ?_⟩, ⟨⟨.init, rfl⟩, ?_⟩, .init, rfl, ?_⟩
      · exact fun before c hbegins => absurd hbegins (hnone before c)
      · exact fun before c _ hbegins => absurd hbegins (hnone before c)
      · exact holds_nil
  | append_singleton calls c ih =>
      rw [harmless_concat, staysInside_concat]
      rcases ih with ⟨hharmless, hstays, h, hrun, hh⟩ | ⟨hharmless, hstays⟩
      · have hreads := Call.readsInside_iff (c := c) hh hharmless.1
        by_cases hfree : c.Delimited (Call.inserted calls)
        · rcases Call.step_spec hh hharmless.1 hfree with ⟨hshort, h', hstep, hh'⟩ | ⟨hlong, hstep⟩
          · refine Or.inl ⟨⟨hharmless, hshort, hfree⟩,
              ⟨hstays, h, hrun, hreads.2 hfree, h', hstep⟩, h', ?_, ?_⟩
            · rw [run_concat, hrun, Option.bind_some, hstep]
            · rwa [Call.inserted_concat]
          · refine Or.inr ⟨fun hall => hlong hall.2.1, ?_⟩
            rintro ⟨-, g, hg, -, g', hg'⟩
            obtain rfl := Option.some.inj (hrun.symm.trans hg)
            rw [hstep] at hg'
            cases hg'
        · refine Or.inr ⟨fun hall => hfree hall.2.2, ?_⟩
          rintro ⟨-, g, hg, hinside, -⟩
          obtain rfl := Option.some.inj (hrun.symm.trans hg)
          exact hfree (hreads.1 hinside)
      · exact Or.inr ⟨fun hall => hharmless hall.1, fun hall => hstays hall.1⟩

/-- **Where the walks read:** the calls of a run stay inside their texts exactly if the inserted
texts are shorter than `2 ^ 31` bytes and no text of a call is followed by a `\0` in a text that
was inserted before. -/
theorem reads_inside_iff (calls : List Call) : StaysInside calls ↔ Harmless calls := by
  rcases holds_of_calls calls with ⟨hharmless, hstays, -⟩ | ⟨hharmless, hstays⟩
  · exact iff_of_true hstays hharmless
  · exact iff_of_false hstays hharmless

/-- After `a\0b` the search for `a` reads the place behind the `\0` that ends it. -/
theorem search_reads_outside :
    (∃ h, Transition.run Call.step .init [.insert [97, 0, 98]] = some h ∧
      (Call.search [97]).reads h = [0, 1, 2]) ∧
    ¬ StaysInside [.insert [97, 0, 98], .search [97]] := by
  have hread : ((Transition.run Call.step .init [.insert [97, 0, 98]]).map fun h =>
      (Call.search [97]).reads h) = some [0, 1, 2] := by
    decide +kernel
  obtain ⟨h, hrun, hh⟩ := Option.map_eq_some_iff.1 hread
  refine ⟨⟨h, hrun, hh⟩, ?_⟩
  rintro ⟨-, hinside⟩
  have hlast : 2 ∈ (Call.search [97]).reads h := by simp [hh]
  exact absurd (hinside _ _ h List.prefix_rfl hrun 2 hlast) (by decide)

end PrefixTree
end BreUtils
