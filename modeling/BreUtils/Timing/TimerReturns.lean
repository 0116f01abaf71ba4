/-
# When `MultiTaskTimer::Run` returns

That `Run` has done its work when it returns (`MultiTaskTimer.all_executed`) says nothing about
whether it returns.  Here nobody adds a task any more, no callback throws, and a wait ends by a
notification or by its time only.

Then `Run` takes six steps for a task at most, however long the clock stands or runs between them:
before a task is taken, `Run` may come out of one wait that was notified and of one whose time is
up, and after the second one the first task is due (`work`).  And it stands still for one reason
only, that no task is due yet (`moves_or_waits`).  So it comes to its end with everything done
(`run_comes_to_end`), unless it was called on an empty queue, from where it waits for an `Add`, or
an `Add` that came before has left it a look at the tasks that is undefined (`Sound`,
`returns_iff`).
-/

import BreUtils.Lib.Reaches
import BreUtils.Timing.TimerWaits
import Mathlib.Data.List.MinMax

namespace BreUtils
namespace Timing

open Lib.Transition (run run_append run_invariant_of_meets Meets Reaches)

namespace MultiTaskTimer

variable {F : Type*} {s t : MultiTaskTimer F}

/-- A queue that is not empty has a first task. -/
theorem exists_top {tasks : List (TimerTask F)} (h : tasks ≠ []) :
    ∃ (top : ℕ) (task : TimerTask F), tasks[top]? = some task ∧ IsTop tasks task := by
  obtain ⟨task, htask⟩ : ∃ task, tasks.argmin TimerTask.dueTime = some task :=
    Option.ne_none_iff_exists'.1 (mt List.argmin_eq_none.1 h)
  obtain ⟨top, htop⟩ := List.getElem?_of_mem (List.argmin_mem htask)
  exact ⟨top, task, htop, fun other hother => List.le_of_mem_argmin hother htask⟩

theorem exists_lock (h : s.tasks ≠ []) : ∃ top t, lock s top = some t := by
  obtain ⟨top, task, htask, htop⟩ := exists_top h
  refine ⟨top, ?_⟩
  dsimp only [lock]
  simp only [if_neg h, htask, if_pos htop]
  split_ifs
  · exact ⟨_, rfl⟩
  · exact ⟨_, rfl⟩

/-- `Run` has a task to wait for or to see to, or it has returned and left none. -/
def Busy (s : MultiTaskTimer F) : Prop :=
  match s.phase with
  | .idle => s.tasks = []
  | .head | .waiting => s.tasks ≠ []
  | .taken _ | .executing | .checking => True

/-- Not a call of `Add` or of `Run`, and no exception. -/
def Calm : Action F → Prop
  | .add _ _ _ _ | .run => False
  | .finish throws => throws = false
  | .tick _ | .lock _ | .wake | .execute | .check => True

theorem step_busy {a : Action F} (hs : Busy s) (ha : Calm a) (h : step s a = some t) : Busy t := by
  unfold Busy at hs
  cases (step_cases h).2 with
  | undefined | tick => exact hs
  | add | run => exact ha.elim
  | waits hphase | wake hphase =>
      rw [hphase] at hs
      exact hs
  | takes => trivial
  | execute =>
      unfold execute
      split_ifs <;> trivial
  | finish =>
      obtain rfl : _ = false := ha
      trivial
  | check =>
      by_cases hempty : s.tasks = []
      · simp only [if_pos hempty]
        exact hempty
      · simp only [if_neg hempty]
        exact hempty

/-- The next look of `Run` at the tasks without the mutex is defined, as far as the `Add`s before
now are concerned. -/
def Sound (s : MultiTaskTimer F) : Prop :=
  match s.phase with
  | .idle | .head => True
  | .waiting => s.reference ≠ .dangling
  | .taken _ | .executing | .checking => s.unordered = false

/-- Only an `Add` changes that, and what is undefined is not done. -/
theorem sound_iff_of_step {a : Action F} (ha : Calm a) (horderly : Orderly s a)
    (h : step s a = some t) : Sound t ↔ Sound s := by
  unfold Sound
  cases (step_cases h).2 with
  | undefined hnot => exact absurd horderly hnot
  | tick => exact Iff.rfl
  | add | run => exact ha.elim
  | waits hphase hreference =>
      rw [hphase]
      exact iff_of_true hreference trivial
  | takes hphase =>
      rw [hphase]
      exact iff_of_true rfl trivial
  | wake hphase =>
      rw [hphase]
      exact iff_of_true trivial (horderly hphase)
  | execute hphase =>
      rw [hphase]
      unfold execute
      split_ifs <;> exact Iff.rfl
  | finish hphase =>
      obtain rfl : _ = false := ha
      rw [hphase]
      exact Iff.rfl
  | check hphase hunordered =>
      rw [hphase]
      refine iff_of_true ?_ hunordered
      dsimp only
      split_ifs <;> trivial

/-- `Run` has seen no task yet and there is none. -/
def Starved (s : MultiTaskTimer F) : Prop :=
  (s.phase = .head ∨ s.phase = .waiting) ∧ s.tasks = []

theorem busy_of_not_starved (hs : ¬ Starved s) (hrunning : s.phase ≠ .idle) : Busy s := by
  unfold Busy
  cases hphase : s.phase with
  | idle => exact absurd hphase hrunning
  | head => exact fun hempty => hs ⟨Or.inl hphase, hempty⟩
  | waiting => exact fun hempty => hs ⟨Or.inr hphase, hempty⟩
  | taken | executing | checking => trivial

/-- Only `Add` helps. -/
theorem step_starved {a : Action F} (hs : Starved s) (ha : Calm a) (h : step s a = some t) :
    Starved t := by
  obtain ⟨hphase, hempty⟩ := hs
  cases (step_cases h).2 with
  | undefined | tick => exact ⟨hphase, hempty⟩
  | add | run => exact ha.elim
  | waits => exact ⟨Or.inr rfl, hempty⟩
  | takes _ htask => simp [hempty] at htask
  | wake => exact ⟨Or.inl rfl, hempty⟩
  | execute hother | finish hother | check hother => simp [hother] at hphase

end MultiTaskTimer

namespace WaitingTimer

open MultiTaskTimer (Action IsTop Busy Calm Sound Starved AllExecuted defined_of_orderly)

variable {F : Type*} {s t : WaitingTimer F} {a : Action F} {as bs : List (Action F)}

/-- No task is added, no callback throws, a wait ends by a notification or by its time, and nothing
undefined is done. -/
def Quiet (s : WaitingTimer F) (a : Action F) : Prop :=
  s.Orderly a ∧ Calm a ∧ (a = .wake → s.WakesBy s.timer.now)

/-- The steps of the thread of `Run`. -/
def ofRun : Action F → Bool
  | .tick _ | .add _ _ _ _ => false
  | .run | .lock _ | .wake | .execute | .finish _ | .check => true

/-- A wait that nobody has ended yet is one for a task in the queue. -/
def Aimed (s : WaitingTimer F) : Prop :=
  s.Waiting → s.notified = false → ∀ deadline, s.deadline = some deadline →
    ∃ task ∈ s.timer.tasks, task.dueTime ≤ deadline

theorem step_aimed (hs : Aimed s) (ha : s.Orderly a) (h : step s a = some t) : Aimed t := by
  intro hwaiting hnotified deadline hdeadline
  obtain ⟨timer, htimer, rfl⟩ := Option.map_eq_some_iff.1 h
  cases a with
  | tick elapsed =>
      cases (MultiTaskTimer.step_cases htimer).2 with
      | undefined hnot => exact absurd ha hnot
      | tick => exact hs hwaiting hnotified deadline hdeadline
  | add delay callback caller room =>
      cases (MultiTaskTimer.step_cases htimer).2 with
      | undefined hnot => exact absurd ha hnot
      | add =>
          cases hphase : s.timer.phase with
          | waiting => simp [hphase] at hnotified
          | idle | head | taken | executing | checking =>
              simp only [hphase] at hwaiting
              exact absurd (hphase.symm.trans hwaiting) (by simp)
  | lock top =>
      obtain ⟨htasks, -⟩ := lock_waiting (MultiTaskTimer.lock_of_step htimer).2 hwaiting
      obtain ⟨task, htask, rfl⟩ := Option.map_eq_some_iff.1 hdeadline
      refine ⟨task, ?_, Nat.le_refl _⟩
      show task ∈ timer.tasks
      rw [htasks]
      exact List.mem_of_getElem? htask
  | run => exact absurd hwaiting (not_waiting_of_step (by trivial) ha htimer)
  | wake => exact absurd hwaiting (not_waiting_of_step (by trivial) ha htimer)
  | execute => exact absurd hwaiting (not_waiting_of_step (by trivial) ha htimer)
  | finish throws => exact absurd hwaiting (not_waiting_of_step (by trivial) ha htimer)
  | check => exact absurd hwaiting (not_waiting_of_step (by trivial) ha htimer)

/-- `Run` is under way. -/
structure Underway (s : WaitingTimer F) : Prop where
  timed : Timed s
  aimed : Aimed s
  busy : Busy s.timer
  sound : Sound s.timer
  defined : s.timer.isUndefined = false

theorem step_underway (hs : Underway s) (ha : Quiet s a) (h : step s a = some t) : Underway t where
  timed := step_timed hs.timed ha.1 h
  aimed := step_aimed hs.aimed ha.1 h
  busy := MultiTaskTimer.step_busy hs.busy ha.2.1 (step_timer h)
  sound := (MultiTaskTimer.sound_iff_of_step ha.2.1 ha.1 (step_timer h)).2 hs.sound
  defined := (MultiTaskTimer.step_defined_iff hs.defined a).2 ha.1 _ (step_timer h)

/-! ### What is left to do -/

/-- Some task is due. -/
def Due (s : MultiTaskTimer F) : Prop := ∃ task ∈ s.tasks, task.dueTime ≤ s.now

instance (s : MultiTaskTimer F) : Decidable (Due s) :=
  inferInstanceAs (Decidable (∃ task ∈ s.tasks, task.dueTime ≤ s.now))

/-- The steps that are left to `Run` at most: for each task in the queue two waits, the section that
takes it and the three steps after it. -/
def work (s : WaitingTimer F) : ℕ :=
  6 * s.timer.tasks.length +
    match s.timer.phase with
    | .idle => 0
    | .head => if Due s.timer then 0 else 2
    | .waiting => if s.notified then 3 else 1
    | .checking => 3
    | .executing => 4
    | .taken _ => 5

theorem work_le (s : WaitingTimer F) : work s ≤ 6 * s.timer.tasks.length + 5 := by
  unfold work
  split <;> (try split_ifs) <;> omega

/-- The clock does not make work. -/
theorem work_tick (s : WaitingTimer F) (elapsed : ℕ) :
    work { s with timer := { s.timer with now := s.timer.now + elapsed } } ≤ work s := by
  have hdue (h : Due s.timer) : Due { s.timer with now := s.timer.now + elapsed } := by
    obtain ⟨task, htask, hle⟩ := h
    exact ⟨task, htask, Nat.le_add_right_of_le hle⟩
  unfold work
  dsimp only
  split
  · exact Nat.le_refl _
  · split_ifs with hafter hbefore hbefore
    · exact Nat.le_refl _
    · omega
    · exact absurd (hdue hbefore) hafter
    · exact Nat.le_refl _
  all_goals exact Nat.le_refl _

theorem work_lock {top : ℕ} (h : step s (.lock top) = some t) : work t < work s := by
  obtain ⟨timer, htimer, rfl⟩ := Option.map_eq_some_iff.1 h
  obtain ⟨hphase, hlock⟩ := MultiTaskTimer.lock_of_step htimer
  unfold work
  rw [hphase]
  rcases MultiTaskTimer.lock_cases hlock with ⟨reference, -, rfl⟩ | ⟨task, htask, -, hdue, rfl⟩
  · -- it waits, as the first task is not due
    have hlater : ¬ Due s.timer := by
      rintro ⟨task, htask, hdue⟩
      obtain ⟨-, hempty | ⟨first, -, htop, hlater⟩⟩ := lock_waiting hlock rfl
      · rw [hempty] at htask
        cases htask
      · have hle := htop task htask
        omega
    simp [hlater]
  · obtain ⟨hlt, hget⟩ := List.getElem?_eq_some_iff.1 htask
    have hnow : Due s.timer := ⟨task, hget ▸ List.getElem_mem hlt, hdue⟩
    have hlength := List.length_eraseIdx_of_lt hlt
    dsimp only
    rw [if_pos hnow, hlength]
    omega

/-- After a wait whose time is up, a task is due. -/
theorem work_wake (hs : Aimed s) (ha : Quiet s .wake) (h : step s .wake = some t) :
    work t < work s := by
  have hwakes := ha.2.2 rfl
  obtain ⟨timer, htimer, rfl⟩ := Option.map_eq_some_iff.1 h
  cases (MultiTaskTimer.step_cases htimer).2 with
  | undefined hnot => exact absurd ha.1 hnot
  | wake hphase =>
      unfold work
      rw [hphase]
      dsimp only
      by_cases hnotified : s.notified = true
      · rw [if_pos hnotified]
        split_ifs <;> omega
      · obtain ⟨deadline, hdeadline, hle⟩ := hwakes.resolve_left hnotified
        obtain ⟨task, htask, hdue⟩ := hs hphase (by simpa using hnotified) deadline hdeadline
        rw [if_neg hnotified, if_pos ⟨task, htask, hdue.trans hle⟩]
        omega

/-- **Each step of `Run` leaves it less to do.** -/
theorem work_step (hs : Underway s) (ha : Quiet s a) (h : step s a = some t) :
    work t ≤ work s ∧ (ofRun a = true → work t < work s) := by
  have of_less (hless : work t < work s) :
      work t ≤ work s ∧ (ofRun a = true → work t < work s) :=
    ⟨hless.le, fun _ => hless⟩
  cases a with
  | tick elapsed =>
      obtain ⟨timer, htimer, rfl⟩ := Option.map_eq_some_iff.1 h
      cases (MultiTaskTimer.step_cases htimer).2 with
      | undefined hnot => exact absurd ha.1 hnot
      | tick => exact ⟨work_tick s elapsed, by simp [ofRun]⟩
  | add | run => exact ha.2.1.elim
  | lock top => exact of_less (work_lock h)
  | wake => exact of_less (work_wake hs.aimed ha h)
  | execute =>
      refine of_less ?_
      obtain ⟨timer, htimer, rfl⟩ := Option.map_eq_some_iff.1 h
      cases (MultiTaskTimer.step_cases htimer).2 with
      | undefined hnot => exact absurd ha.1 hnot
      | execute hphase =>
          unfold work MultiTaskTimer.execute
          split_ifs <;> simp [hphase]
  | finish throws =>
      refine of_less ?_
      obtain rfl : throws = false := ha.2.1
      obtain ⟨timer, htimer, rfl⟩ := Option.map_eq_some_iff.1 h
      cases (MultiTaskTimer.step_cases htimer).2 with
      | undefined hnot => exact absurd ha.1 hnot
      | finish hphase => simp [work, hphase]
  | check =>
      refine of_less ?_
      obtain ⟨timer, htimer, rfl⟩ := Option.map_eq_some_iff.1 h
      cases (MultiTaskTimer.step_cases htimer).2 with
      | undefined hnot => exact absurd ha.1 hnot
      | check hphase =>
          unfold work
          rw [hphase]
          by_cases hempty : s.timer.tasks = []
          · simp [hempty]
          · simp only [if_neg hempty]
            split_ifs <;> omega

/-- **`Run` stands still only while no task is due.** -/
theorem moves_or_waits (hs : Underway s) (hrunning : s.timer.phase ≠ .idle) :
    (∃ a t, ofRun a = true ∧ Quiet s a ∧ step s a = some t) ∨
      s.Waiting ∧ ∀ task ∈ s.timer.tasks, s.timer.now < task.dueTime := by
  have hbusy := hs.busy
  have hsound := hs.sound
  unfold Busy at hbusy
  unfold Sound at hsound
  -- each step that `Run` can take is one of the timer
  have of_act (a : Action F) (hof : ofRun a = true) (ha : Quiet s a)
      (h : (s.timer.act a).isSome = true) :
      ∃ a t, ofRun a = true ∧ Quiet s a ∧ step s a = some t := by
    obtain ⟨timer, htimer⟩ := Option.isSome_iff_exists.1 h
    rw [← MultiTaskTimer.step_of_defined hs.defined] at htimer
    exact ⟨a, _, hof, ha, by simp only [step, htimer]; rfl⟩
  cases hphase : s.timer.phase with
  | idle => exact absurd hphase hrunning
  | head =>
      rw [hphase] at hbusy
      obtain ⟨top, timer, hlock⟩ := MultiTaskTimer.exists_lock hbusy
      exact Or.inl (of_act (.lock top) rfl ⟨trivial, trivial, by simp⟩
        (by simp [MultiTaskTimer.act, hphase, hlock]))
  | waiting =>
      rw [hphase] at hsound
      by_cases hwakes : s.WakesBy s.timer.now
      · exact Or.inl (of_act .wake rfl ⟨fun _ => hsound, trivial, fun _ => hwakes⟩
          (by simp [MultiTaskTimer.act, hphase, hsound]))
      · refine Or.inr ⟨hphase, fun task htask => Nat.lt_of_not_le fun hdue => hwakes ?_⟩
        exact (hs.timed hphase task htask).mono hdue
  | taken task =>
      exact Or.inl (of_act .execute rfl ⟨trivial, trivial, by simp⟩
        (by simp [MultiTaskTimer.act, hphase]))
  | executing =>
      exact Or.inl (of_act (.finish false) rfl ⟨trivial, rfl, by simp⟩
        (by simp [MultiTaskTimer.act, hphase]))
  | checking =>
      rw [hphase] at hsound
      exact Or.inl (of_act .check rfl ⟨fun _ => hsound, trivial, by simp⟩
        (by simp [MultiTaskTimer.act, hphase, hsound]))

/-! ### To the end -/

theorem underway_of_run {now : ℕ} (has : Meets step Orderly (init now) as)
    (h : run step (init now) as = some s) (hrunning : s.timer.phase ≠ .idle)
    (hstarved : ¬ Starved s.timer) (hsound : Sound s.timer) : Underway s := by
  have hfresh : ¬ (init now : WaitingTimer F).Waiting := by
    simp [Waiting, init, MultiTaskTimer.init]
  refine ⟨?_, ?_, MultiTaskTimer.busy_of_not_starved hstarved hrunning, hsound,
    defined_of_orderly (meets_timer has) (run_timer h)⟩
  · exact run_invariant_of_meets (fun _ _ _ hs ha h => step_timed hs ha h)
      (fun h => absurd h hfresh) has h
  · exact run_invariant_of_meets (fun _ _ _ hs ha h => step_aimed hs ha h)
      (fun h => absurd h hfresh) has h

/-- Where `Run` has returned, nothing is left. -/
theorem allExecuted_of_idle {now : ℕ} (h : run step (init now) as = some s)
    (hrun : run step s bs = some t) (ht : Busy t.timer) (hidle : t.timer.phase = .idle) :
    t.timer.AllExecuted := by
  have hall : run step (init now) (as ++ bs) = some t := by
    rw [run_append, h, Option.bind_some, hrun]
  unfold Busy at ht
  rw [hidle] at ht
  exact MultiTaskTimer.allExecuted_of_run (run_timer hall) (by rw [hidle]; rfl) ht

/-- **`Run` comes to its end.**  From any state of any orderly run in which `Run` has a task to see
to and its next look at the tasks is defined, while no task is added, no callback throws and no wait
ends without a reason, `Run` takes at most six steps for each task in the queue and five more,
whatever the clock does between them.  Wherever it stands it has returned, with every callback
called exactly once, or can move, or waits and no task is due. -/
theorem run_comes_to_end {now : ℕ} (has : Meets step Orderly (init now) as)
    (h : run step (init now) as = some s) (hrunning : s.timer.phase ≠ .idle)
    (hstarved : ¬ Starved s.timer) (hsound : Sound s.timer)
    (hquiet : Meets step Quiet s bs) (hrun : run step s bs = some t) :
    bs.countP ofRun ≤ 6 * s.timer.tasks.length + 5 ∧
      (t.timer.phase = .idle ∧ t.timer.AllExecuted ∨
        (∃ a u, ofRun a = true ∧ Quiet t a ∧ step t a = some u) ∨
        t.Waiting ∧ ∀ task ∈ t.timer.tasks, t.timer.now < task.dueTime) := by
  have hs := underway_of_run has h hrunning hstarved hsound
  obtain ⟨ht, hcount⟩ := Lib.Transition.countP_add_le work ofRun
    (fun _ _ _ hs ha h => ⟨step_underway hs ha h, work_step hs ha h⟩) hs hquiet hrun
  refine ⟨?_, ?_⟩
  · have hle := work_le s
    omega
  · by_cases hidle : t.timer.phase = .idle
    · exact Or.inl ⟨hidle, allExecuted_of_idle h hrun ht.busy hidle⟩
    · exact Or.inr (moves_or_waits ht hidle)

/-- `Run` waits for a task that is due in a millisecond. -/
def waitingRun : List (Action Unit) := [.add 1 (some ()) .other 0, .run, .lock 0]

theorem waitingRun_spec : ∃ s : WaitingTimer Unit, run step (init 0) waitingRun = some s ∧
    Meets step Orderly (init 0) waitingRun ∧ s.timer.phase = .waiting ∧
    s.timer.tasks.length = 1 ∧ s.timer.reference = .valid ∧ s.deadline = some 1000000 ∧
    ∃ t, run step s [.tick 1000000, .wake, .lock 0] = some t ∧
      Meets step Quiet s [.tick 1000000, .wake, .lock 0] := by
  refine ⟨_, rfl, .cons (fun _ => rfl) rfl (.cons trivial rfl (.cons trivial rfl trivial)), rfl,
    rfl, rfl, rfl, _, rfl, .cons ⟨trivial, trivial, by simp⟩ rfl
      (.cons ⟨?_, trivial, fun _ => ?_⟩ rfl (.cons ⟨trivial, trivial, by simp⟩ rfl trivial))⟩
  · exact fun _ => by decide
  · exact Or.inr ⟨_, rfl, by decide⟩

/-- The clock goes on, and `Run` takes the task. -/
theorem run_comes_to_end_sample :
    ∃ s t : WaitingTimer Unit, run step (init 0) waitingRun = some s ∧
      run step s [.tick 1000000, .wake, .lock 0] = some t ∧
      (t.timer.phase = .idle ∧ t.timer.AllExecuted ∨
        (∃ a u, ofRun a = true ∧ Quiet t a ∧ step t a = some u) ∨
        t.Waiting ∧ ∀ task ∈ t.timer.tasks, t.timer.now < task.dueTime) := by
  obtain ⟨s, hs, has, hphase, hlength, hreference, -, t, ht, hquiet⟩ := waitingRun_spec
  refine ⟨s, t, hs, ht, (run_comes_to_end has hs (by simp [hphase]) ?_ ?_ hquiet ht).2⟩
  · rintro ⟨-, hempty⟩
    simp [hempty] at hlength
  · simp [Sound, hphase, hreference]

/-- What `Run` cannot do at once it can do when the clock has gone on. -/
theorem exists_less (hs : Underway s) (hrunning : s.timer.phase ≠ .idle) :
    ∃ t, Reaches step Quiet s t ∧ Underway t ∧ work t < work s := by
  rcases moves_or_waits hs hrunning with ⟨a, t, hof, ha, h⟩ | ⟨hwaiting, hlater⟩
  · exact ⟨t, .single ha h, step_underway hs ha h, (work_step hs ha h).2 hof⟩
  · have hbusy := hs.busy
    unfold Busy at hbusy
    rw [hwaiting] at hbusy
    obtain ⟨task, htask⟩ := List.exists_mem_of_ne_nil _ hbusy
    have hless := hlater task htask
    obtain ⟨u, hu, htimer⟩ : ∃ u, step s (.tick (task.dueTime - s.timer.now)) = some u ∧
        u.timer = { s.timer with now := s.timer.now + (task.dueTime - s.timer.now) } := by
      simp [step, MultiTaskTimer.step_of_defined hs.defined, MultiTaskTimer.act]
    have htick : Quiet s (.tick (task.dueTime - s.timer.now)) := ⟨trivial, trivial, by simp⟩
    have hsu := step_underway hs htick hu
    rcases moves_or_waits hsu (by rwa [htimer]) with ⟨a, t, hof, ha, h⟩ | ⟨-, hlater'⟩
    · refine ⟨t, (Reaches.single htick hu).trans (.single ha h), step_underway hsu ha h, ?_⟩
      exact ((work_step hsu ha h).2 hof).trans_le (work_step hs htick hu).1
    · have hnot := hlater' task (by rwa [htimer])
      rw [htimer] at hnot
      dsimp only at hnot
      omega

/-- **When `Run` returns.**  From any state of any orderly run in which `Run` has not returned, it
can go on to its end with every callback called exactly once, without a further `Add`, an exception,
a spurious wake-up or anything undefined, if and only if it is not before an empty queue and its
next look at the tasks is defined. -/
theorem returns_iff {now : ℕ} (has : Meets step Orderly (init now) as)
    (h : run step (init now) as = some s) (hrunning : s.timer.phase ≠ .idle) :
    (∃ t, Reaches step Quiet s t ∧ t.timer.phase = .idle ∧ t.timer.AllExecuted) ↔
      ¬ Starved s.timer ∧ Sound s.timer := by
  constructor
  · rintro ⟨t, hst, hidle, -⟩
    refine ⟨fun hstarved => ?_, ?_⟩
    · obtain ⟨hphase, -⟩ : Starved t.timer := hst.invariant (I := fun s => Starved s.timer)
        (fun _ _ _ hs ha h => MultiTaskTimer.step_starved hs ha.2.1 (step_timer h)) hstarved
      simp [hidle] at hphase
    · by_contra hsound
      have hend : ¬ Sound t.timer := hst.invariant (I := fun s => ¬ Sound s.timer)
        (fun _ _ _ hs ha h =>
          (MultiTaskTimer.sound_iff_of_step ha.2.1 ha.1 (step_timer h)).not.2 hs) hsound
      simp [Sound, hidle] at hend
  · rintro ⟨hstarved, hsound⟩
    obtain ⟨t, hst, ht, hidle⟩ := Lib.Transition.exists_of_descent (I := Underway)
      (G := fun s => s.timer.phase = .idle) work (fun _ hs hrunning => exists_less hs hrunning)
      (underway_of_run has h hrunning hstarved hsound)
    have ⟨bs, _, hrun⟩ := hst
    exact ⟨t, hst, hidle, allExecuted_of_idle h hrun ht.busy hidle⟩

theorem returns_iff_sample :
    ∃ s : WaitingTimer Unit, run step (init 0) waitingRun = some s ∧
      ∃ t, Reaches step Quiet s t ∧ t.timer.phase = .idle ∧ t.timer.AllExecuted := by
  obtain ⟨s, hs, has, hphase, hlength, hreference, -⟩ := waitingRun_spec
  refine ⟨s, hs, (returns_iff has hs (by simp [hphase])).2 ⟨?_, ?_⟩⟩
  · rintro ⟨-, hempty⟩
    simp [hempty] at hlength
  · simp [Sound, hphase, hreference]

/-- **`Run` before the first `Add` waits without an end.** -/
theorem starved :
    ∃ s : WaitingTimer Unit, run step (init 0) [.run, .lock 0] = some s ∧ s.Waiting ∧
      s.deadline = none ∧ Starved s.timer :=
  ⟨_, rfl, rfl, rfl, Or.inr rfl, rfl⟩

end WaitingTimer

end Timing
end BreUtils
