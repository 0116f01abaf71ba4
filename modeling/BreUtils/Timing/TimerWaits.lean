/-
# What `MultiTaskTimer::Run` waits for

`Run` waits without an end on an empty queue, and until the first task is due on any other.  A task
that is added meanwhile may be due before that, so `Add` notifies.  Kept with the timer are the end
of the wait and whether a notification has come: a wait is over by then or by that, or for no reason
at all.

Between them they are enough, in a run whose steps are all orderly.  While `Run` waits, it is
notified or its wait ends no later than any task in the queue is due (`Timed`); so whenever a task
is due, `Run` is not waiting, or its wait is over (`never_oversleeps`).  And it does not leave
before the work is done: when it returns, each callback that was added up to then has been called
(`all_executed`).
-/

import BreUtils.Timing.MultiTaskTimer

namespace BreUtils
namespace Timing

open Lib.Transition (run run_invariant run_invariant_of_meets Meets)

/-- A timer, and the wait of its `Run`. -/
structure WaitingTimer (F : Type*) where
  timer : MultiTaskTimer F
  /-- The end of `_cv.wait_until`; `_cv.wait` has none. -/
  deadline : Option ℕ
  /-- A `notify_one` has come since `Run` waits. -/
  notified : Bool

namespace WaitingTimer

open MultiTaskTimer (Action IsTop defined_of_orderly)

variable {F : Type*}

def init (now : ℕ) : WaitingTimer F := ⟨MultiTaskTimer.init now, none, false⟩

/-- `Run` is in `_cv.wait` or in `_cv.wait_until`. -/
def Waiting (s : WaitingTimer F) : Prop := s.timer.phase = .waiting

/-- **One step**: that of the timer, with what it does to the wait. -/
def step (s : WaitingTimer F) (a : Action F) : Option (WaitingTimer F) :=
  (s.timer.step a).map fun timer =>
    match a with
    | .lock top =>
        -- `_cv.wait_until(lock, _tasks.top().due_time)`, if there is a task
        ⟨timer, s.timer.tasks[top]?.map TimerTask.dueTime, false⟩
    | .add _ _ _ _ =>
        match s.timer.phase with
        | .waiting => ⟨timer, s.deadline, true⟩
        | _ => ⟨timer, s.deadline, s.notified⟩
    | _ => ⟨timer, s.deadline, s.notified⟩

variable {s t : WaitingTimer F} {a : Action F} {as : List (Action F)}

/-- The timer itself does not notice. -/
theorem step_timer (h : step s a = some t) : s.timer.step a = some t.timer := by
  obtain ⟨timer, htimer, rfl⟩ := Option.map_eq_some_iff.1 h
  rw [htimer]
  split
  · rfl
  · split
    · rfl
    · rfl
  · rfl

theorem run_timer {now : ℕ} (h : run step (init now) as = some s) :
    run MultiTaskTimer.step (MultiTaskTimer.init now) as = some s.timer := by
  obtain ⟨timer, htimer, rfl⟩ := Lib.Transition.run_simulation
    (R := fun s timer => s.timer = timer)
    (fun u v b w huv hw => ⟨w.timer, huv ▸ step_timer hw, rfl⟩) rfl h
  exact htimer

/-! ### The end of a wait -/

/-- A step of the timer that is defined. -/
def Orderly (s : WaitingTimer F) (a : Action F) : Prop := s.timer.Orderly a

theorem meets_timer {u : WaitingTimer F} (h : Meets step Orderly u as) :
    Meets MultiTaskTimer.step MultiTaskTimer.Orderly u.timer as := by
  induction as generalizing u with
  | nil => trivial
  | cons a as ih =>
      refine ⟨h.1, fun timer htimer => ?_⟩
      obtain ⟨v, hv⟩ : ∃ v, step u a = some v := by simp [step, htimer]
      obtain rfl := Option.some.inj ((step_timer hv).symm.trans htimer)
      exact ih (h.2 v hv)

/-- A notification has come, or the wait ends no later than this time. -/
def WakesBy (s : WaitingTimer F) (time : ℕ) : Prop :=
  s.notified = true ∨ ∃ deadline, s.deadline = some deadline ∧ deadline ≤ time

theorem WakesBy.mono {time later : ℕ} (h : s.WakesBy time) (hle : time ≤ later) :
    s.WakesBy later := by
  refine h.imp_right ?_
  rintro ⟨deadline, hdeadline, htime⟩
  exact ⟨deadline, hdeadline, Nat.le_trans htime hle⟩

/-- While `Run` waits, it wakes by the time that any task is due. -/
def Timed (s : WaitingTimer F) : Prop :=
  s.Waiting → ∀ task ∈ s.timer.tasks, s.WakesBy task.dueTime

/-- The section of `Run`, where it ends in a wait: the queue is empty, or the first task is not
due. -/
theorem lock_waiting {u v : MultiTaskTimer F} {top : ℕ} (h : MultiTaskTimer.lock u top = some v)
    (hv : v.phase = .waiting) :
    v.tasks = u.tasks ∧
      (u.tasks = [] ∨ ∃ task, u.tasks[top]? = some task ∧ IsTop u.tasks task ∧
        u.now < task.dueTime) := by
  unfold MultiTaskTimer.lock at h
  dsimp only at h
  split_ifs at h with hempty
  · obtain rfl := Option.some.inj h
    exact ⟨rfl, Or.inl hempty⟩
  · split at h
    · exact absurd h (by simp)
    · rename_i task htask
      split_ifs at h with htop hdue
      · obtain rfl := Option.some.inj h
        exact absurd hv (by simp)
      · obtain rfl := Option.some.inj h
        exact ⟨rfl, Or.inr ⟨task, htask, htop, Nat.lt_of_not_le hdue⟩⟩

/-- The steps of `Run` outside of its section. -/
def Outside : Action F → Prop
  | .run | .wake | .execute | .finish _ | .check => True
  | _ => False

/-- Only the section of `Run` ends in a wait. -/
theorem not_waiting_of_step {u v : MultiTaskTimer F} (ha : Outside a) (horderly : u.Orderly a)
    (h : MultiTaskTimer.step u a = some v) : v.phase ≠ .waiting := by
  cases (MultiTaskTimer.step_cases h).2 with
  | undefined hnot => exact absurd horderly hnot
  | tick | add | waits | takes => exact ha.elim
  | run | wake => simp
  | execute =>
      unfold MultiTaskTimer.execute
      split_ifs <;> simp
  | finish | check =>
      dsimp only
      split_ifs <;> simp

/-- **Each step keeps the end of the wait in time.** -/
theorem step_timed (hs : Timed s) (ha : s.Orderly a) (h : step s a = some t) : Timed t := by
  intro hwaiting task htask
  obtain ⟨timer, htimer, rfl⟩ := Option.map_eq_some_iff.1 h
  cases a with
  | tick elapsed =>
      cases (MultiTaskTimer.step_cases htimer).2 with
      | undefined hnot => exact absurd ha hnot
      | tick => exact hs hwaiting task htask
  | add delay callback caller room =>
      cases (MultiTaskTimer.step_cases htimer).2 with
      | undefined hnot => exact absurd ha hnot
      | add =>
          cases hphase : s.timer.phase with
          | waiting => exact Or.inl rfl
          | idle | head | taken | executing | checking =>
              simp only [hphase] at hwaiting
              exact absurd (hphase.symm.trans hwaiting) (by simp)
  | lock top =>
      obtain ⟨htasks, hempty | ⟨first, hfirst, htop, -⟩⟩ :=
        lock_waiting (MultiTaskTimer.lock_of_step htimer).2 hwaiting
      · have hnone : timer.tasks = [] := htasks.trans hempty
        have hmem : task ∈ timer.tasks := htask
        rw [hnone] at hmem
        exact absurd hmem List.not_mem_nil
      · have hmem : task ∈ s.timer.tasks := htasks ▸ htask
        refine Or.inr ⟨first.dueTime, ?_, htop task hmem⟩
        show s.timer.tasks[top]?.map TimerTask.dueTime = some first.dueTime
        rw [hfirst]
        rfl
  | run => exact absurd hwaiting (not_waiting_of_step (by trivial) ha htimer)
  | wake => exact absurd hwaiting (not_waiting_of_step (by trivial) ha htimer)
  | execute => exact absurd hwaiting (not_waiting_of_step (by trivial) ha htimer)
  | finish throws => exact absurd hwaiting (not_waiting_of_step (by trivial) ha htimer)
  | check => exact absurd hwaiting (not_waiting_of_step (by trivial) ha htimer)

/-- **`Run` never oversleeps.**  In every state of every orderly run, however `Add` interleaves with
it: nothing undefined has happened, and while `Run` waits it is notified, or its wait has an end
that is no later than the time that any task in the queue is due. -/
theorem never_oversleeps {now : ℕ} (has : Meets step Orderly (init now) as)
    (h : run step (init now) as = some s) :
    s.timer.isUndefined = false ∧
      (s.Waiting → ∀ task ∈ s.timer.tasks,
        s.WakesBy task.dueTime ∧ (task.dueTime ≤ s.timer.now → s.WakesBy s.timer.now)) := by
  have htimed : Timed s := run_invariant_of_meets (fun _ _ _ hs ha h => step_timed hs ha h)
    (fun hwaiting => absurd hwaiting (by simp [Waiting, init, MultiTaskTimer.init])) has h
  refine ⟨defined_of_orderly (meets_timer has) (run_timer h), fun hwaiting task htask => ?_⟩
  have hwakes := htimed hwaiting task htask
  exact ⟨hwakes, hwakes.mono⟩

/-- A task is added while `Run` waits for a later one, and there is room for it. -/
theorem never_oversleeps_sample :
    ∃ s : WaitingTimer Unit, run step (init 0) [.add 9 (some ()) .other 1, .run, .lock 0,
        .add 1 (some ()) .other 0] = some s ∧
      s.deadline = some 9000000 ∧ ∀ task ∈ s.timer.tasks, s.WakesBy task.dueTime := by
  obtain ⟨s, h, hwaiting, hdeadline, has⟩ : ∃ s : WaitingTimer Unit,
      run step (init 0) [.add 9 (some ()) .other 1, .run, .lock 0,
        .add 1 (some ()) .other 0] = some s ∧ s.Waiting ∧ s.deadline = some 9000000 ∧
      Meets step Orderly (init 0 : WaitingTimer Unit) [.add 9 (some ()) .other 1, .run, .lock 0,
        .add 1 (some ()) .other 0] :=
    ⟨_, rfl, rfl, rfl, .cons (fun _ => rfl) rfl (.cons trivial rfl (.cons trivial rfl
      (.cons (fun _ => rfl) rfl trivial)))⟩
  exact ⟨s, h, hdeadline, fun task htask => ((never_oversleeps has h).2 hwaiting task htask).1⟩

end WaitingTimer

/-! ### Nothing is left undone -/

namespace MultiTaskTimer

variable {F : Type*} {s t : MultiTaskTimer F}

/-- Every callback that was added has been called, or its task is in hand or in the queue. -/
def Kept (s : MultiTaskTimer F) : Prop :=
  ∀ task ∈ s.added, task.callback.isSome → task ∈ gone s ++ s.tasks

theorem Kept.of_subset (hs : Kept s) (hadded : t.added = s.added)
    (h : ∀ task ∈ gone s ++ s.tasks, task.callback.isSome → task ∈ gone t ++ t.tasks) : Kept t := by
  intro task htask hcallback
  rw [hadded] at htask
  exact h task (hs task htask hcallback) hcallback

/-- With no task in hand, what is gone was executed. -/
theorem gone_of_empty_handed (h : RunPhase.inHand s.phase = []) :
    gone s = s.executed.map Execution.task := by
  rw [gone, h, List.append_nil]

theorem step_kept {a : Action F} (hs : Kept s) (h : step s a = some t) : Kept t := by
  cases (step_cases h).2 with
  | undefined | tick => exact hs
  | add =>
      intro task htask hcallback
      rcases List.mem_append.1 htask with htask | htask
      · have hmem := hs task htask hcallback
        rcases List.mem_append.1 hmem with hmem | hmem
        · exact List.mem_append_left _ hmem
        · exact List.mem_append_right _ (List.mem_append_left _ hmem)
      · exact List.mem_append_right _ (List.mem_append_right _ htask)
  | run hphase | waits hphase | wake hphase | finish hphase | check hphase =>
      refine hs.of_subset rfl fun task hmem _ => ?_
      rw [gone_of_empty_handed (by rw [hphase]; rfl)] at hmem
      refine List.append_subset.2 ⟨fun x hx => ?_, List.subset_append_right _ _⟩ hmem
      exact List.mem_append_left _ (List.mem_append_left _ hx)
  | @takes top task hphase htask htop hdue =>
      refine hs.of_subset rfl fun x hmem _ => ?_
      obtain ⟨hlt, rfl⟩ := List.getElem?_eq_some_iff.1 htask
      rw [gone_of_empty_handed (by rw [hphase]; rfl)] at hmem
      -- the task that is taken is in hand, the others stay
      rcases List.mem_append.1 hmem with hmem | hmem
      · exact List.mem_append_left _ (List.mem_append_left _ hmem)
      · have hperm := List.getElem_cons_eraseIdx_perm hlt
        rcases List.mem_cons.1 (hperm.symm.subset hmem) with rfl | hmem
        · exact List.mem_append_left _ (List.mem_append_right _ (List.mem_singleton_self _))
        · exact List.mem_append_right _ hmem
  | @execute task hphase =>
      unfold execute
      split_ifs with hcall
      · refine hs.of_subset rfl fun x hmem _ => ?_
        rw [gone, hphase] at hmem
        rcases List.mem_append.1 hmem with hmem | hmem
        · refine List.mem_append_left _ (List.mem_append_left _ ?_)
          rw [List.map_append]
          exact hmem
        · exact List.mem_append_right _ hmem
      · refine hs.of_subset rfl fun x hmem hcallback => ?_
        rw [gone, hphase] at hmem
        rcases List.mem_append.1 hmem with hmem | hmem
        · rcases List.mem_append.1 hmem with hmem | hmem
          · exact List.mem_append_left _ (List.mem_append_left _ hmem)
          · -- an empty `std::function` has nothing to call
            rw [List.mem_singleton.1 hmem] at hcallback
            exact absurd hcallback hcall
        · exact List.mem_append_right _ hmem

/-- Every callback that was added has been called exactly once, and not before it was due. -/
def AllExecuted (s : MultiTaskTimer F) : Prop :=
  ∀ task ∈ s.added, task.callback.isSome →
    ∃ e ∈ s.executed, e.task = task ∧ task.dueTime ≤ e.time ∧
      ∀ f ∈ s.executed, f.task.serial = task.serial → f = e

/-- With an empty queue and no task in hand, all is done. -/
theorem allExecuted_of_run {now : ℕ} {as : List (Action F)}
    (h : run step (init now) as = some s) (hhand : RunPhase.inHand s.phase = [])
    (hempty : s.tasks = []) : AllExecuted s := by
  have hs : Inv s := run_invariant (fun _ _ _ => inv_step) (inv_init now) h
  have hkept : Kept s := run_invariant (fun _ _ _ hs h => step_kept hs h) (by simp [Kept, init]) h
  have hnodup := hs.distinct
  rw [gone_of_empty_handed hhand, hempty, List.append_nil, List.map_map] at hnodup
  intro task htask hcallback
  have hgone := hkept task htask hcallback
  rw [gone_of_empty_handed hhand, hempty, List.append_nil, List.mem_map] at hgone
  obtain ⟨e, he, rfl⟩ := hgone
  exact ⟨e, he, rfl, hs.timely e he, fun f hf hserial =>
    List.inj_on_of_nodup_map hnodup hf he hserial⟩

/-- **`Run` returns when the work is done.**  Whenever `Run` returns without an exception, nothing
undefined has happened, and every callback that was added so far has been called exactly once, and
not before it was due. -/
theorem all_executed {now : ℕ} {as : List (Action F)} (h : run step (init now) as = some s)
    (hreturn : step s .check = some t) (hidle : t.phase = .idle) :
    t.isUndefined = false ∧ ∀ task ∈ t.added, task.callback.isSome →
      ∃ e ∈ t.executed, e.task = task ∧ task.dueTime ≤ e.time ∧
        ∀ f ∈ t.executed, f.task.serial = task.serial → f = e := by
  have hdefined := (step_cases hreturn).1
  have hchecking : s.phase = .checking := by
    rw [step_of_defined hdefined, act] at hreturn
    split at hreturn
    · assumption
    · cases hreturn
  obtain ⟨-, hempty⟩ := (idle_of_step hreturn (by simp [hchecking]) hidle).resolve_left (by simp)
  have hdone : AllExecuted s := allExecuted_of_run h (by rw [hchecking]; rfl) hempty
  cases (step_cases hreturn).2 with
  | undefined => exact absurd (hchecking.symm.trans hidle) (by simp)
  | check => exact ⟨hdefined, hdone⟩

/-- Two tasks, one of them added by the callback of the other. -/
theorem all_executed_nested :
    ∃ s t : MultiTaskTimer Unit, run step (init 0) [.add 1 (some ()) .other 0, .run, .tick 1000000,
        .lock 0, .execute, .add 0 (some ()) .ordered 0, .finish false, .check, .lock 0, .execute,
        .finish false] = some s ∧ step s .check = some t ∧ t.added.length = 2 ∧
      ∀ task ∈ t.added, task.callback.isSome →
        ∃ e ∈ t.executed, e.task = task ∧ task.dueTime ≤ e.time ∧
          ∀ f ∈ t.executed, f.task.serial = task.serial → f = e := by
  obtain ⟨s, h, t, hreturn, hidle, hlength⟩ : ∃ s : MultiTaskTimer Unit, run step (init 0)
      [.add 1 (some ()) .other 0, .run, .tick 1000000, .lock 0, .execute,
        .add 0 (some ()) .ordered 0, .finish false, .check, .lock 0, .execute,
        .finish false] = some s ∧
      ∃ t, step s .check = some t ∧ t.phase = .idle ∧ t.added.length = 2 :=
    ⟨_, rfl, _, rfl, rfl, rfl⟩
  exact ⟨s, t, h, hreturn, hlength, (all_executed h hreturn hidle).2⟩

end MultiTaskTimer

end Timing
end BreUtils
