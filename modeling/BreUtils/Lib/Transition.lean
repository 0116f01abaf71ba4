/-
# Runs of a transition system

A system is a partial step function: an action is possible in a state or it is not,
and when it is, it leads to one state.  Whatever is left to chance, such as which
thread moves or which waiting thread a notification wakes, is part of the action.
So a run is a list of actions, and two runs of the same actions end in the same
state.

What holds at the start and is kept by each step holds after each run
(`run_invariant`).  When a step keeps it on a condition only, it holds after each run
whose steps all meet the condition (`run_invariant_of_meets`).  The states that a run
passes through are the ends of its beginnings, so a theorem about the end of every
run is one about every state of every run; and where the condition says of each step
whether it keeps the property, it says of each run whether all its states have it
(`forall_states_iff`).
-/

import Mathlib.Data.List.Induction

namespace BreUtils
namespace Lib
namespace Transition

variable {S A : Type*} (step : S → A → Option S)

/-- The state that a run ends in, if its actions are possible one after the other. -/
def run (s : S) (as : List A) : Option S := as.foldlM step s

/-- No action, no step. -/
@[simp] theorem run_nil (s : S) : run step s [] = some s := rfl

/-- The first action goes first. -/
@[simp] theorem run_cons (s : S) (a : A) (as : List A) :
    run step s (a :: as) = (step s a).bind fun t => run step t as := rfl

/-- One run after another. -/
theorem run_append (s : S) (as bs : List A) :
    run step s (as ++ bs) = (run step s as).bind fun t => run step t bs := by
  unfold run
  rw [List.foldlM_append]
  rfl

variable {step} in
/-- A run by one more action. -/
theorem run_concat_eq_some {s t : S} {as : List A} {a : A} :
    run step s (as ++ [a]) = some t ↔ ∃ u, run step s as = some u ∧ step u a = some t := by
  rw [run_append, Option.bind_eq_some_iff]
  simp

/-- Every step of a run meets a condition on the state before it and its action. -/
def Meets (P : S → A → Prop) : S → List A → Prop
  | _, [] => True
  | s, a :: as => P s a ∧ ∀ t, step s a = some t → Meets P t as

variable {step}

/-- One more action at the start of a run. -/
theorem Meets.cons {P : S → A → Prop} {s t : S} {a : A} {as : List A} (ha : P s a)
    (h : step s a = some t) (ht : Meets step P t as) : Meets step P s (a :: as) := by
  refine ⟨ha, fun u hu => ?_⟩
  obtain rfl := Option.some.inj (h.symm.trans hu)
  exact ht

/-- One more action at its end. -/
theorem meets_concat {P : S → A → Prop} {s : S} {as : List A} {a : A} :
    Meets step P s (as ++ [a]) ↔
      Meets step P s as ∧ ∀ t, run step s as = some t → P t a := by
  induction as generalizing s with
  | nil => simp [Meets]
  | cons b as ih =>
      rw [List.cons_append]
      unfold Meets
      constructor
      · rintro ⟨hb, h⟩
        refine ⟨⟨hb, fun t ht => (ih.1 (h t ht)).1⟩, fun u hu => ?_⟩
        rw [run_cons, Option.bind_eq_some_iff] at hu
        obtain ⟨t, ht, hu⟩ := hu
        exact (ih.1 (h t ht)).2 u hu
      · rintro ⟨⟨hb, h⟩, hlast⟩
        refine ⟨hb, fun t ht => ih.2 ⟨h t ht, fun u hu => hlast u ?_⟩⟩
        rw [run_cons, ht, Option.bind_some]
        exact hu

/-- The steps of a run that goes on meet the condition from where it goes on. -/
theorem meets_append {P : S → A → Prop} {s : S} {as bs : List A} :
    Meets step P s (as ++ bs) ↔
      Meets step P s as ∧ ∀ t, run step s as = some t → Meets step P t bs := by
  induction bs using List.reverseRecOn with
  | nil => simp [Meets]
  | append_singleton bs b ih =>
      rw [← List.append_assoc, meets_concat, ih, and_assoc]
      refine and_congr_right fun _ => ?_
      simp only [meets_concat, run_append, Option.bind_eq_some_iff]
      constructor
      · rintro ⟨hbs, hb⟩ t ht
        exact ⟨hbs t ht, fun u hu => hb u ⟨t, ht, hu⟩⟩
      · intro h
        refine ⟨fun t ht => (h t ht).1, ?_⟩
        rintro u ⟨t, ht, hu⟩
        exact (h t ht).2 u hu

/-- A condition that every step meets. -/
theorem meets_of_forall {P : S → A → Prop} (h : ∀ s a, P s a) (s : S) (as : List A) :
    Meets step P s as := by
  induction as generalizing s with
  | nil => trivial
  | cons a as ih => exact ⟨h s a, fun t _ => ih t⟩

/-- A condition on the actions alone. -/
theorem meets_of_forall_mem {P : A → Prop} {as : List A} (h : ∀ a ∈ as, P a) (s : S) :
    Meets step (fun _ => P) s as := by
  induction as generalizing s with
  | nil => trivial
  | cons a as ih =>
      exact ⟨h a List.mem_cons_self, fun t _ => ih (fun b hb => h b (List.mem_cons_of_mem _ hb)) t⟩

/-- Two conditions that say the same wherever a run can get to. -/
theorem meets_congr {I : S → Prop} {P Q : S → A → Prop}
    (hstep : ∀ s a t, I s → step s a = some t → I t) (hPQ : ∀ s a, I s → (P s a ↔ Q s a))
    {s : S} (hs : I s) (as : List A) : Meets step P s as ↔ Meets step Q s as := by
  induction as generalizing s with
  | nil => exact Iff.rfl
  | cons a as ih =>
      unfold Meets
      refine and_congr (hPQ s a hs) (forall_congr' fun t => ?_)
      constructor
      · exact fun h ht => (ih (hstep s a t hs ht)).1 (h ht)
      · exact fun h ht => (ih (hstep s a t hs ht)).2 (h ht)

/-- **What each step keeps on a condition holds after each run whose steps all meet it.** -/
theorem run_invariant_of_meets {I : S → Prop} {P : S → A → Prop}
    (hstep : ∀ s a t, I s → P s a → step s a = some t → I t) {s t : S} {as : List A}
    (hs : I s) (hP : Meets step P s as) (h : run step s as = some t) : I t := by
  induction as generalizing s with
  | nil =>
      rw [run_nil, Option.some.injEq] at h
      exact h ▸ hs
  | cons a as ih =>
      rw [run_cons, Option.bind_eq_some_iff] at h
      obtain ⟨u, hu, h⟩ := h
      exact ih (hstep s a u hs hP.1 hu) (hP.2 u hu) h

/-- **What each step keeps holds after each run.** -/
theorem run_invariant {I : S → Prop} (hstep : ∀ s a t, I s → step s a = some t → I t)
    {s t : S} {as : List A} (hs : I s) (h : run step s as = some t) : I t :=
  run_invariant_of_meets (P := fun _ _ => True) (fun s a t hs _ => hstep s a t hs) hs
    (meets_of_forall (fun _ _ => trivial) s as) h

/-- A run of steps that stay where they are. -/
theorem run_eq_self {s : S} {as : List A} (h : ∀ a ∈ as, step s a = some s) :
    run step s as = some s := by
  induction as with
  | nil => rfl
  | cons a as ih =>
      rw [run_cons, h a List.mem_cons_self, Option.bind_some]
      exact ih fun b hb => h b (List.mem_cons_of_mem _ hb)

/-- **What each step does in one system and the other, each run does.**  `R` says which states
belong together. -/
theorem run_simulation {S' : Type*} {step' : S' → A → Option S'} {R : S → S' → Prop}
    (hstep : ∀ s t a s', R s t → step s a = some s' → ∃ t', step' t a = some t' ∧ R s' t')
    {s s' : S} {t : S'} {as : List A} (hR : R s t) (h : run step s as = some s') :
    ∃ t', run step' t as = some t' ∧ R s' t' := by
  induction as generalizing s t with
  | nil =>
      obtain rfl := Option.some.inj h
      exact ⟨t, rfl, hR⟩
  | cons a as ih =>
      rw [run_cons, Option.bind_eq_some_iff] at h
      obtain ⟨u, hu, h⟩ := h
      obtain ⟨v, hv, huv⟩ := hstep s t a u hR hu
      obtain ⟨t', ht', hR'⟩ := ih huv h
      exact ⟨t', by rw [run_cons, hv, Option.bind_some, ht'], hR'⟩

/-- **A property of every state of a run is one of its steps.**  Where a step out of a state with
`I` ends in one exactly if it meets `P`, every state of a run has `I` exactly if every step meets
`P`.  The proof may use what `J` says of the states of such a run. -/
theorem forall_states_iff {I J : S → Prop} {P : S → A → Prop}
    (hJ : ∀ s a t, J s → step s a = some t → J t)
    (hstep : ∀ s a, J s → I s → ((∀ t, step s a = some t → I t) ↔ P s a))
    {s : S} (hJs : J s) (hs : I s) (as : List A) :
    (∀ done, done <+: as → ∀ t, run step s done = some t → I t) ↔ Meets step P s as := by
  induction as generalizing s with
  | nil =>
      refine iff_of_true (fun done hdone t ht => ?_) trivial
      rw [List.prefix_nil.1 hdone, run_nil] at ht
      exact Option.some.inj ht ▸ hs
  | cons a as ih =>
      constructor
      · intro h
        have hnext (t : S) (ht : step s a = some t) : I t :=
          h [a] (by simp) t (by simp [ht])
        refine ⟨(hstep s a hJs hs).1 hnext, fun t ht => ?_⟩
        refine (ih (hJ s a t hJs ht) (hnext t ht)).1 fun done hdone u hu => ?_
        refine h (a :: done) ((List.prefix_cons_inj a).2 hdone) u ?_
        rw [run_cons, ht, Option.bind_some]
        exact hu
      · rintro ⟨ha, h⟩ done hdone u hu
        cases done with
        | nil => exact Option.some.inj hu ▸ hs
        | cons b done =>
            obtain ⟨rfl, hrest⟩ := List.cons_prefix_cons.1 hdone
            rw [run_cons, Option.bind_eq_some_iff] at hu
            obtain ⟨t, ht, hu⟩ := hu
            have hnext := (hstep s b hJs hs).2 ha t ht
            exact (ih (hJ s b t hJs ht) hnext).2 (h t ht) done hrest u hu

end Transition
end Lib
end BreUtils
