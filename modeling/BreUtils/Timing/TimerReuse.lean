/-
# One thread that uses a timer again and again

One thread calls `Wait`, `AsyncWait` and `Cancel` of a `Timer` in any order, and the
threads that the timer started go on in between.  The first `AsyncWait` leaves
`m_Thread` joinable for good: the work of the thread may be over, `Cancel` may have
stopped it, but nobody joins it before the destructor.  So the second `AsyncWait` moves
its thread into a joinable `m_Thread`, and that ends the process, after a moment in
which two threads may run.

Each call of `AsyncWait` is one that is still inside, or the one that made `m_Thread`
joinable (`Counted`).  So a timer is sound in every state of a run if `AsyncWait` is
called at most once, and no other run in which the calls come to their ends is
(`reusable_iff`).
-/

import BreUtils.Timing.Timer

namespace BreUtils
namespace Timing

open Lib
open Lib.Transition (run run_concat_eq_some)

/-- The calls of `AsyncWait` that have not made their thread. -/
def Call.unspawned : Call → ℕ
  | .spawn _ => 1
  | _ => 0

/-- The calls of `AsyncWait` that have not moved their thread into `m_Thread`. -/
def Call.unassigned : Call → ℕ
  | .spawn _ | .assign => 1
  | _ => 0

namespace Timer

/-- A step of the calling thread or of a thread of the timer. -/
inductive Activity where
  | action (a : Action Unit)
  /-- The end of `Wait(func)`, which has slept and called `func`. -/
  | wait

/-- **One step.** -/
def stepOrWait (s : Timer Unit) : Activity → Option (Timer Unit)
  | .action a => step s a
  | .wait => if s.terminated then none else proceed s () .idle { s with stop := true }

/-- A call of `AsyncWait`. -/
def Activity.isAsyncWait : Activity → Bool
  | .action (.asyncWait _ _) => true
  | _ => false

/-- How often `AsyncWait` is called. -/
def asyncWaits (as : List Activity) : ℕ := as.countP Activity.isAsyncWait

/-- The threads of the timer that have not returned. -/
def threads (s : Timer Unit) : ℕ := s.workers.countP fun w => w.phase ≠ .done

/-- No `AsyncWait` has assigned to a joinable `m_Thread`, and there is one thread at most. -/
def Sound (s : Timer Unit) : Prop := s.terminated = false ∧ threads s ≤ 1

/-! ### Calls of `AsyncWait` -/

/-- What the state knows of the `n` calls of `AsyncWait` before it. -/
structure Counted (n : ℕ) (s : Timer Unit) : Prop where
  workers : s.workers.length + (s.call ()).unspawned = n
  joinable : s.joinable.toNat + (s.call ()).unassigned = n
  terminated : s.terminated = true → n = 2

variable {s t : Timer Unit} {n : ℕ}

theorem counted_init : Counted 0 init where
  workers := rfl
  joinable := rfl
  terminated := by simp [init]

/-- The caller goes on, and what it has done so far agrees with where it is then. -/
theorem counted_inside {c : Call} (hworkers : s.workers.length + c.unspawned = n)
    (hjoinable : s.joinable.toNat + c.unassigned = n) (halive : s.terminated = false) :
    Counted n (inside s () c) where
  workers := by simpa [inside] using hworkers
  joinable := by simpa [inside] using hjoinable
  terminated := by simp [inside, halive]

/-- **A step counts the call of `AsyncWait` that it is.** -/
theorem counted_of_step {a : Activity} (hs : Counted n s) (h : stepOrWait s a = some t) :
    Counted (n + a.isAsyncWait.toNat) t := by
  obtain ⟨hworkers, hjoinable, hterminated⟩ := hs
  cases a with
  | wait =>
      simp only [stepOrWait] at h
      split_ifs at h with halive
      obtain ⟨-, rfl⟩ := proceed_eq_some h
      exact ⟨hworkers, hjoinable, hterminated⟩
  | action a =>
      obtain ⟨halive, h⟩ := step_alive h
      cases a with
      | asyncWait u isLoop =>
          obtain ⟨hcall, rfl⟩ := proceed_eq_some h
          rw [hcall] at hworkers hjoinable
          refine counted_inside ?_ ?_ halive
          · simpa [Call.unspawned, Activity.isAsyncWait] using hworkers
          · simpa [Call.unassigned, Activity.isAsyncWait] using hjoinable
      | spawn u =>
          simp only [stepAlive] at h
          split at h
          case h_2 => exact absurd h (by simp)
          case h_1 isLoop hcall =>
            obtain rfl := Option.some.inj h
            rw [hcall] at hworkers hjoinable
            refine counted_inside ?_ hjoinable halive
            simpa [Call.unspawned, Activity.isAsyncWait] using hworkers
      | assign u =>
          obtain ⟨hcall, rfl⟩ := proceed_eq_some h
          by_cases hj : s.joinable
          · rw [if_pos hj]
            refine ⟨hworkers, hjoinable, fun _ => ?_⟩
            rw [hcall, hj] at hjoinable
            exact hjoinable.symm
          · rw [if_neg hj]
            rw [hcall] at hworkers hjoinable
            refine counted_inside hworkers ?_ halive
            simpa [hj, Call.unassigned, Activity.isAsyncWait] using hjoinable
      | cancel u =>
          obtain ⟨hcall, rfl⟩ := proceed_eq_some h
          rw [hcall] at hworkers hjoinable
          exact counted_inside hworkers hjoinable halive
      | cancelReturns u =>
          obtain ⟨hcall, rfl⟩ := proceed_eq_some h
          rw [hcall] at hworkers hjoinable
          exact counted_inside hworkers hjoinable halive
      | worker i m =>
          obtain ⟨w, -, h⟩ := Option.bind_eq_some_iff.1 h
          obtain ⟨p, -, rfl⟩ := Option.map_eq_some_iff.1 h
          exact ⟨by simpa [Activity.isAsyncWait] using hworkers, hjoinable, hterminated⟩

theorem asyncWaits_concat (as : List Activity) (a : Activity) :
    asyncWaits (as ++ [a]) = asyncWaits as + a.isAsyncWait.toNat := by
  unfold asyncWaits
  rw [List.countP_append, List.countP_singleton]
  cases a.isAsyncWait <;> rfl

/-- **A run counts its calls of `AsyncWait`.** -/
theorem counted_of_run {as : List Activity} (h : run stepOrWait init as = some s) :
    Counted (asyncWaits as) s := by
  induction as using List.reverseRecOn generalizing s with
  | nil =>
      obtain rfl := Option.some.inj h
      exact counted_init
  | append_singleton as a ih =>
      obtain ⟨t, ht, hstep⟩ := run_concat_eq_some.1 h
      rw [asyncWaits_concat]
      exact counted_of_step (ih ht) hstep

/-! ### Using a timer again -/

/-- **One call of `AsyncWait` leaves the timer sound.** -/
theorem Counted.sound (hs : Counted n s) (hn : n ≤ 1) : Sound s := by
  constructor
  · by_contra halive
    have htwo := hs.terminated (by simpa using halive)
    omega
  · have hthreads : threads s ≤ s.workers.length := List.countP_le_length
    have hworkers := hs.workers
    omega

/-- The caller is outside of `AsyncWait`, or the process has ended. -/
def AtRest (s : Timer Unit) : Prop := (s.call ()).unassigned = 0 ∨ s.terminated = true

/-- **A second call of `AsyncWait` comes to no other end.** -/
theorem Counted.terminated_iff (hs : Counted n s) (hrest : AtRest s) :
    s.terminated = true ↔ 2 ≤ n := by
  constructor
  · intro h
    exact Nat.le_of_eq (hs.terminated h).symm
  · intro hn
    rcases hrest with hcall | h
    · have hjoinable := hs.joinable
      have hbit := Bool.toNat_le s.joinable
      omega
    · exact h

/-- **The timer is sound in every state of a run with at most one call of `AsyncWait`; and of the
runs in which the calls have come to their ends in no other.** -/
theorem reusable_iff (as : List Activity) :
    (asyncWaits as ≤ 1 →
      ∀ done, done <+: as → ∀ s, run stepOrWait init done = some s → Sound s) ∧
    ∀ s, run stepOrWait init as = some s → AtRest s →
      ((∀ done, done <+: as → ∀ t, run stepOrWait init done = some t → Sound t) ↔
        asyncWaits as ≤ 1) := by
  have hsound (hn : asyncWaits as ≤ 1) (done : List Activity) (hdone : done <+: as)
      (s : Timer Unit) (hs : run stepOrWait init done = some s) : Sound s :=
    (counted_of_run hs).sound (Nat.le_trans hdone.sublist.countP_le hn)
  refine ⟨hsound, fun s hs hrest => ⟨fun hall => ?_, hsound⟩⟩
  by_contra hn
  have hterminated := ((counted_of_run hs).terminated_iff hrest).2 (by omega)
  have halive := (hall as List.prefix_rfl s hs).1
  exact absurd hterminated (by simp [halive])

/-- The thread of the first `AsyncWait` has returned when the second one is called. -/
theorem not_reusable :
    ¬ ∀ (as : List Activity) (s : Timer Unit), run stepOrWait init as = some s → Sound s := by
  intro h
  let arm : List Activity := [.action (.asyncWait () false), .action (.spawn ()),
    .action (.assign ())]
  let fire : List Activity := [.action (.worker 0 .test), .action (.worker 0 .lock),
    .action (.worker 0 (.wake true)), .action (.worker 0 .invoke), .action (.worker 0 .finish)]
  have hsound := h (arm ++ fire ++ arm) _ rfl
  exact absurd hsound.1 (by decide)

end Timer
end Timing
end BreUtils
