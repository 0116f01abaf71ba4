/-
# What a run can still come to

Safety says what no run does.  That a system is never stuck says instead that from each of its
states some run leads where it should, by steps that are allowed, such as those of its own threads
without an error between.

`Reaches step P s t` is such a run from `s` to `t`, where `P` says which steps are allowed in which
states.  From a state with an invariant a goal is reached if, short of the goal, some allowed run
keeps the invariant and makes a measure smaller (`exists_of_descent`).  Where no allowed step makes
it larger, those that make it smaller come to an end, whoever moves (`countP_add_le`).  And what a
part of a system reaches, the system reaches (`Reaches.lift`).
-/

import BreUtils.Lib.Transition

namespace BreUtils
namespace Lib
namespace Transition

variable {S A : Type*} (step : S → A → Option S) (P : S → A → Prop)

/-- A run of allowed steps leads from one state to the other. -/
def Reaches (s t : S) : Prop := ∃ as, Meets step P s as ∧ run step s as = some t

variable {step} {P}

/-- A state reaches itself. -/
theorem Reaches.refl (s : S) : Reaches step P s s := ⟨[], trivial, rfl⟩

/-- One step. -/
theorem Reaches.single {s t : S} {a : A} (ha : P s a) (h : step s a = some t) :
    Reaches step P s t := by
  refine ⟨[a], ⟨ha, fun _ _ => trivial⟩, ?_⟩
  rw [run_cons, h, Option.bind_some, run_nil]

/-- One way after another. -/
theorem Reaches.trans {s t u : S} (h : Reaches step P s t) (h' : Reaches step P t u) :
    Reaches step P s u := by
  obtain ⟨as, has, hrun⟩ := h
  obtain ⟨bs, hbs, hrun'⟩ := h'
  refine ⟨as ++ bs, meets_append.2 ⟨has, fun v hv => ?_⟩, ?_⟩
  · obtain rfl := Option.some.inj (hrun.symm.trans hv)
    exact hbs
  · rw [run_append, hrun, Option.bind_some, hrun']

/-- More steps are allowed. -/
theorem Reaches.mono {Q : S → A → Prop} (hPQ : ∀ s a, P s a → Q s a) {s t : S}
    (h : Reaches step P s t) : Reaches step Q s t := by
  obtain ⟨as, has, hrun⟩ := h
  refine ⟨as, ?_, hrun⟩
  clear hrun
  induction as generalizing s with
  | nil => trivial
  | cons a as ih => exact ⟨hPQ s a has.1, fun t ht => ih (has.2 t ht)⟩

/-- What each allowed step keeps. -/
theorem Reaches.invariant {I : S → Prop} (hstep : ∀ s a t, I s → P s a → step s a = some t → I t)
    {s t : S} (h : Reaches step P s t) (hs : I s) : I t := by
  obtain ⟨as, has, hrun⟩ := h
  exact run_invariant_of_meets hstep hs has hrun

/-- **A step of the part is one of the whole, so a run is one too.** -/
theorem Reaches.lift {S' A' : Type*} {step' : S' → A' → Option S'} {P' : S' → A' → Prop}
    {f : S → S'} {g : A → A'}
    (hstep : ∀ s a t, P s a → step s a = some t →
      P' (f s) (g a) ∧ step' (f s) (g a) = some (f t))
    {s t : S} (h : Reaches step P s t) : Reaches step' P' (f s) (f t) := by
  obtain ⟨as, has, hrun⟩ := h
  induction as generalizing s with
  | nil =>
      obtain rfl := Option.some.inj hrun
      exact Reaches.refl _
  | cons a as ih =>
      rw [run_cons, Option.bind_eq_some_iff] at hrun
      obtain ⟨u, hu, hrun⟩ := hrun
      obtain ⟨ha, hu'⟩ := hstep s a u has.1 hu
      exact (Reaches.single ha hu').trans (ih (has.2 u hu) hrun)

/-- **A goal is reached by going down**: short of it, some run keeps the invariant and lowers the
measure. -/
theorem exists_of_descent {I G : S → Prop} (measure : S → ℕ)
    (hdown : ∀ s, I s → ¬ G s → ∃ t, Reaches step P s t ∧ I t ∧ measure t < measure s)
    {s : S} (hs : I s) : ∃ t, Reaches step P s t ∧ I t ∧ G t := by
  induction hn : measure s using Nat.strongRecOn generalizing s with
  | ind n ih =>
      by_cases hgoal : G s
      · exact ⟨s, Reaches.refl s, hs, hgoal⟩
      · obtain ⟨t, hst, ht, hless⟩ := hdown s hs hgoal
        obtain ⟨u, htu, hu, hgoal'⟩ := ih (measure t) (hn ▸ hless) ht rfl
        exact ⟨u, hst.trans htu, hu, hgoal'⟩

/-- **Where the steps that count go down and no other one goes up, no run has more of them than the
measure.** -/
theorem countP_add_le {I : S → Prop} (measure : S → ℕ) (counts : A → Bool)
    (hdown : ∀ s a t, I s → P s a → step s a = some t →
      I t ∧ measure t ≤ measure s ∧ (counts a = true → measure t < measure s))
    {s t : S} {as : List A} (hs : I s) (hP : Meets step P s as) (h : run step s as = some t) :
    I t ∧ as.countP counts + measure t ≤ measure s := by
  induction as generalizing s with
  | nil =>
      obtain rfl := Option.some.inj h
      exact ⟨hs, by simp⟩
  | cons a as ih =>
      rw [run_cons, Option.bind_eq_some_iff] at h
      obtain ⟨u, hu, h⟩ := h
      obtain ⟨hIu, hle, hless⟩ := hdown s a u hs hP.1 hu
      obtain ⟨hIt, hcount⟩ := ih hIu (hP.2 u hu) h
      refine ⟨hIt, ?_⟩
      rw [List.countP_cons]
      split_ifs with ha
      · have := hless ha
        omega
      · omega

end Transition
end Lib
end BreUtils
