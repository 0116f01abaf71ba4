/-
# The queue of timed tasks of `Timer.hpp`

`MultiTaskTimer::Add` puts a task under the mutex into a priority queue, due `delay`
milliseconds from then, and wakes `Run`; it may be called by any thread at any time,
also from inside a callback.  `Run` takes the first task when it is due and executes
it without the mutex.  A section under the mutex is one step.  The clock goes on by any
amount in between, a wait may end at any time, and which of several tasks that are due
first the queue has at its top is left to chance.

What is added is due no earlier than the clock reads, and what is taken is due no later.
So the clock stands between the tasks that were taken and those still to come, and the
tasks are executed in the order of their due times, however the two mix.

Twice, though, `Run` gets at the tasks without the mutex.  `wait_until` is given a
reference into them, and reads it again when the wait is over; an `Add` that has to move
the tasks to another block has left it dangling by then.  And `Run` looks whether there are
any tasks left behind each callback; an `Add` of another thread between the section before
and the section after that is a data race.  A run is in order exactly as long as neither
happens (`executed_in_order_iff`).
-/

import BreUtils.Lib.Transition
import Mathlib.Algebra.Group.Nat.Defs
import Mathlib.Data.List.Nodup
import Mathlib.Data.List.Perm.Basic
import Mathlib.Order.Basic

namespace BreUtils
namespace Timing

open Lib.Transition (run run_invariant_of_meets forall_states_iff Meets)

/-- `TimerTask`, numbered as it was added.  An empty `std::function` is no callback. -/
structure TimerTask (F : Type*) where
  dueTime : ℕ
  callback : Option F
  serial : ℕ

/-- A callback that was called, and the time. -/
structure Execution (F : Type*) where
  task : TimerTask F
  time : ℕ

/-- Where the thread of `Run` is. -/
inductive RunPhase (F : Type*) where
  /-- Not in `Run`. -/
  | idle
  /-- Before it takes the mutex. -/
  | head
  /-- In `_cv.wait`, or in `_cv.wait_until`. -/
  | waiting
  /-- It has taken a task and gave the mutex back. -/
  | taken (task : TimerTask F)
  /-- In `task.callback()`. -/
  | executing
  /-- Before it looks at `_tasks` once more, without the mutex. -/
  | checking

/-- `_tasks.top().due_time`, as `_cv.wait_until` has been given it. -/
inductive Reference where
  /-- `Run` is not in `wait_until`. -/
  | none
  | valid
  /-- What it refers to has been moved. -/
  | dangling
  deriving DecidableEq

/-- The tasks move to another block. -/
def Reference.move : Reference → Reference
  | .none => .none
  | .valid | .dangling => .dangling

/-- Who calls `Add`. -/
inductive Caller where
  /-- The thread of `Run`, from inside a callback, or one that is ordered with it by other means
  than the mutex of the timer. -/
  | ordered
  /-- Any other thread. -/
  | other
  deriving DecidableEq

/-- `MultiTaskTimer`, the steady clock in nanoseconds, and where `Run` is.  `added` and `executed`
are the books: every task that was added, and every callback that was called, in order. -/
structure MultiTaskTimer (F : Type*) where
  tasks : List (TimerTask F) := []
  now : ℕ
  phase : RunPhase F := .idle
  added : List (TimerTask F) := []
  executed : List (Execution F) := []
  /-- For how many tasks there is room where they are. -/
  capacity : ℕ := 0
  reference : Reference := .none
  /-- Another thread has called `Add` since `Run` last had the mutex. -/
  unordered : Bool := false
  /-- `Run` has looked at `_tasks` since it last had the mutex. -/
  looked : Bool := false
  /-- Something undefined has happened. -/
  isUndefined : Bool := false

namespace MultiTaskTimer

variable {F : Type*}

/-- A new timer, at any time. -/
def init (now : ℕ) : MultiTaskTimer F := { now }

inductive Action (F : Type*) where
  /-- The clock goes on. -/
  | tick (elapsed : ℕ)
  /-- `room`: how much more than needed is there if the tasks have to move. -/
  | add (delay : UInt32) (callback : Option F) (caller : Caller) (room : ℕ)
  /-- `Run()` is called. -/
  | run
  /-- `Run` takes the mutex; `top`: where in the queue its first task is. -/
  | lock (top : ℕ)
  /-- `Run` is back from its wait. -/
  | wake
  | execute
  /-- The callback returns, or throws out of `Run`. -/
  | finish (throws : Bool)
  | check

/-- A number of milliseconds, on the clock. -/
def milliseconds (n : ℕ) : ℕ := n * 1000000

/-- The task that `Add` makes. -/
def newTask (s : MultiTaskTimer F) (delay : UInt32) (callback : Option F) : TimerTask F :=
  ⟨s.now + milliseconds delay.toNat, callback, s.added.length⟩

/-- `Add`.  It returns the number of tasks, as an `int`. -/
def add (s : MultiTaskTimer F) (delay : UInt32) (callback : Option F) (caller : Caller)
    (room : ℕ) : Int × MultiTaskTimer F :=
  let tasks := s.tasks ++ [newTask s delay callback]
  let isFull := decide (s.capacity ≤ s.tasks.length)
  ((tasks.length : Int).bmod (2 ^ 32),
    { s with
      tasks
      added := s.added ++ [newTask s delay callback]
      capacity := if isFull then tasks.length + room else s.capacity
      reference := if isFull then s.reference.move else s.reference
      unordered := s.unordered || caller == .other })

/-- `_tasks.top()` may be this task: none is due before it. -/
def IsTop (tasks : List (TimerTask F)) (task : TimerTask F) : Prop :=
  ∀ other ∈ tasks, task.dueTime ≤ other.dueTime

instance (tasks : List (TimerTask F)) (task : TimerTask F) : Decidable (IsTop tasks task) :=
  inferInstanceAs (Decidable (∀ other ∈ tasks, task.dueTime ≤ other.dueTime))

/-- The section of `Run`: take the first task if it is due, else wait. -/
def lock (s : MultiTaskTimer F) (top : ℕ) : Option (MultiTaskTimer F) :=
  -- the mutex orders what was added so far
  let s := { s with unordered := false, looked := false }
  if s.tasks = [] then some { s with phase := .waiting, reference := .none }
  else
    match s.tasks[top]? with
    | none => none
    | some task =>
        if IsTop s.tasks task then
          if task.dueTime ≤ s.now then
            some { s with tasks := s.tasks.eraseIdx top, phase := .taken task }
          else some { s with phase := .waiting, reference := .valid }
        else none

/-- `Run` calls the callback that it has taken, if there is one. -/
def execute (s : MultiTaskTimer F) (task : TimerTask F) : MultiTaskTimer F :=
  if task.callback.isSome then
    { s with phase := .executing, executed := s.executed ++ [⟨task, s.now⟩] }
  else { s with phase := .checking }

/-- What the actions do, as long as all is defined. -/
def act (s : MultiTaskTimer F) : Action F → Option (MultiTaskTimer F)
  | .tick elapsed => some { s with now := s.now + elapsed }
  | .add delay callback caller room =>
      if caller = .other ∧ s.looked = true then some { s with isUndefined := true }
      else some (add s delay callback caller room).2
  | .run => match s.phase with
    | .idle => some { s with phase := .head }
    | _ => none
  | .lock top => match s.phase with
    | .head => lock s top
    | _ => none
  | .wake => match s.phase with
    | .waiting =>
        if s.reference = .dangling then some { s with isUndefined := true }
        else some { s with phase := .head, reference := .none }
    | _ => none
  | .execute => match s.phase with
    | .taken task => some (execute s task)
    | _ => none
  | .finish throws => match s.phase with
    | .executing => some { s with phase := if throws then .idle else .checking }
    | _ => none
  | .check => match s.phase with
    | .checking =>
        if s.unordered = true then some { s with isUndefined := true }
        else some { s with phase := if s.tasks = [] then .idle else .head, looked := true }
    | _ => none

/-- **One step.**  Nothing can be said of what comes behind something undefined. -/
def step (s : MultiTaskTimer F) (a : Action F) : Option (MultiTaskTimer F) :=
  if s.isUndefined = true then none else act s a

/-- A step that is defined: `wait_until` comes back to a task that is where it was; `Run` does not
look at `_tasks` when another thread has called `Add` since the section before; nor does another
thread call `Add` when `Run` has looked, until its next section. -/
def Orderly (s : MultiTaskTimer F) : Action F → Prop
  | .add _ _ caller _ => caller = .other → s.looked = false
  | .wake => s.phase = .waiting → s.reference ≠ .dangling
  | .check => s.phase = .checking → s.unordered = false
  | _ => True

/-- What the steps do, case by case. -/
inductive Steps (s : MultiTaskTimer F) : Action F → MultiTaskTimer F → Prop
  | undefined {a : Action F} : ¬ Orderly s a → Steps s a { s with isUndefined := true }
  | tick {elapsed : ℕ} : Steps s (.tick elapsed) { s with now := s.now + elapsed }
  | add {delay : UInt32} {callback : Option F} {caller : Caller} {room : ℕ} :
      Steps s (.add delay callback caller room) (add s delay callback caller room).2
  | run : s.phase = .idle → Steps s .run { s with phase := .head }
  | waits {top : ℕ} {reference : Reference} : s.phase = .head → reference ≠ .dangling →
      Steps s (.lock top)
        { s with phase := .waiting, reference, unordered := false, looked := false }
  | takes {top : ℕ} {task : TimerTask F} : s.phase = .head → s.tasks[top]? = some task →
      IsTop s.tasks task → task.dueTime ≤ s.now →
      Steps s (.lock top)
        { s with
          tasks := s.tasks.eraseIdx top
          phase := .taken task
          unordered := false
          looked := false }
  | wake : s.phase = .waiting → Steps s .wake { s with phase := .head, reference := .none }
  | execute {task : TimerTask F} : s.phase = .taken task → Steps s .execute (execute s task)
  | finish {throws : Bool} : s.phase = .executing →
      Steps s (.finish throws) { s with phase := if throws then .idle else .checking }
  | check : s.phase = .checking → s.unordered = false →
      Steps s .check { s with phase := if s.tasks = [] then .idle else .head, looked := true }

variable {s t : MultiTaskTimer F}

/-- What the section of `Run` does: it waits, or it takes a first task that is due. -/
theorem lock_cases {top : ℕ} (h : lock s top = some t) :
    (∃ reference ≠ .dangling,
        t = { s with phase := .waiting, reference, unordered := false, looked := false }) ∨
      ∃ task, s.tasks[top]? = some task ∧ IsTop s.tasks task ∧ task.dueTime ≤ s.now ∧
        t = { s with
          tasks := s.tasks.eraseIdx top
          phase := .taken task
          unordered := false
          looked := false } := by
  unfold lock at h
  dsimp only at h
  split_ifs at h
  · exact Or.inl ⟨.none, by decide, (Option.some.inj h).symm⟩
  · split at h
    · exact absurd h (by simp)
    · next task htask =>
      split_ifs at h with htop hdue
      · exact Or.inr ⟨task, htask, htop, hdue, (Option.some.inj h).symm⟩
      · exact Or.inl ⟨.valid, by decide, (Option.some.inj h).symm⟩

theorem steps_of_act {a : Action F} (h : act s a = some t) : Steps s a t := by
  cases a with
  | tick elapsed => exact Option.some.inj h ▸ .tick
  | add delay callback caller room =>
      simp only [act] at h
      split_ifs at h with hrace
      · exact Option.some.inj h ▸ .undefined (by simp [Orderly, hrace.1, hrace.2])
      · exact Option.some.inj h ▸ .add
  | run =>
      simp only [act] at h
      split at h
      · next hphase => exact Option.some.inj h ▸ .run hphase
      · cases h
  | lock top =>
      simp only [act] at h
      split at h
      · next hphase =>
        rcases lock_cases h with ⟨reference, hreference, rfl⟩ | ⟨task, htask, htop, hdue, rfl⟩
        · exact .waits hphase hreference
        · exact .takes hphase htask htop hdue
      · cases h
  | wake =>
      simp only [act] at h
      split at h
      · next hphase =>
        split_ifs at h with hdangling
        · exact Option.some.inj h ▸ .undefined (by simp [Orderly, hphase, hdangling])
        · exact Option.some.inj h ▸ .wake hphase
      · cases h
  | execute =>
      simp only [act] at h
      split at h
      · next task hphase => exact Option.some.inj h ▸ .execute hphase
      · cases h
  | finish throws =>
      simp only [act] at h
      split at h
      · next hphase => exact Option.some.inj h ▸ .finish hphase
      · cases h
  | check =>
      simp only [act] at h
      split at h
      · next hphase =>
        by_cases hrace : s.unordered = true
        · rw [if_pos hrace] at h
          exact Option.some.inj h ▸ .undefined (by simp [Orderly, hphase, hrace])
        · rw [if_neg hrace] at h
          exact Option.some.inj h ▸ .check hphase (by simpa using hrace)
      · cases h

/-- **What a step does.** -/
theorem step_cases {a : Action F} (h : step s a = some t) :
    s.isUndefined = false ∧ Steps s a t := by
  unfold step at h
  split_ifs at h with hdefined
  exact ⟨by simpa using hdefined, steps_of_act h⟩

theorem step_of_defined (hs : s.isUndefined = false) (a : Action F) : step s a = act s a :=
  if_neg (by simp [hs])

/-- Only at its head does `Run` enter its section. -/
theorem lock_of_step {top : ℕ} (h : step s (.lock top) = some t) :
    s.phase = .head ∧ lock s top = some t := by
  rw [step_of_defined (step_cases h).1, act] at h
  split at h
  · next hphase => exact ⟨hphase, h⟩
  · cases h

/-- **A step is defined exactly if it is orderly.** -/
theorem step_defined_iff (hs : s.isUndefined = false) (a : Action F) :
    (∀ t, step s a = some t → t.isUndefined = false) ↔ Orderly s a := by
  constructor
  · intro h
    rw [step_of_defined hs] at h
    cases a with
    | add delay callback caller room =>
        intro hother
        by_contra hlooked
        have hstep := h { s with isUndefined := true }
          (if_pos ⟨hother, by simpa using hlooked⟩)
        cases hstep
    | wake =>
        intro hphase hdangling
        have hstep := h { s with isUndefined := true }
          (by simp only [act, hphase, if_pos hdangling])
        cases hstep
    | check =>
        intro hphase
        by_contra hrace
        have hstep := h { s with isUndefined := true }
          (by simp only [act, hphase, if_pos (by simpa using hrace)])
        cases hstep
    | _ => trivial
  · intro ha t h
    obtain ⟨-, hsteps⟩ := step_cases h
    cases hsteps with
    | undefined hnot => exact absurd ha hnot
    | execute =>
        unfold execute
        split_ifs
        · exact hs
        · exact hs
    | _ => exact hs

/-! ### The clock between what was taken and what is to come -/

/-- The task that `Run` has taken and not yet executed. -/
def RunPhase.inHand : RunPhase F → List (TimerTask F)
  | .taken task => [task]
  | _ => []

/-- The tasks that were taken and have a callback, and the one in hand, in order. -/
def gone (s : MultiTaskTimer F) : List (TimerTask F) :=
  s.executed.map Execution.task ++ RunPhase.inHand s.phase

/-- The invariant of the timer. -/
structure Inv (s : MultiTaskTimer F) : Prop where
  booked : ∀ task ∈ gone s ++ s.tasks, s.added[task.serial]? = some task
  distinct : ((gone s ++ s.tasks).map TimerTask.serial).Nodup
  ordered : (gone s).Pairwise fun x y => x.dueTime ≤ y.dueTime
  due : ∀ task ∈ gone s, task.dueTime ≤ s.now
  ahead : ∀ x ∈ gone s, ∀ y ∈ s.tasks, x.dueTime ≤ y.dueTime
  timely : ∀ e ∈ s.executed, e.task.dueTime ≤ e.time

theorem inv_init (now : ℕ) : Inv (init now : MultiTaskTimer F) := by
  constructor <;> simp [init, gone, RunPhase.inHand]

/-- Where `Run` is matters only as far as it has a task in hand. -/
theorem Inv.of_same (hs : Inv s) (htasks : t.tasks = s.tasks) (hnow : t.now = s.now)
    (hadded : t.added = s.added) (hexecuted : t.executed = s.executed)
    (h : (RunPhase.inHand t.phase).Sublist (RunPhase.inHand s.phase)) : Inv t := by
  have hgone : (gone t).Sublist (gone s) := by
    rw [gone, hexecuted]
    exact h.append_left _
  refine ⟨?_, ?_, hs.ordered.sublist hgone, ?_, ?_, ?_⟩
  · rw [htasks, hadded]
    exact fun task htask => hs.booked task ((hgone.append_right _).subset htask)
  · rw [htasks]
    exact hs.distinct.sublist ((hgone.append_right _).map _)
  · rw [hnow]
    exact fun task htask => hs.due task (hgone.subset htask)
  · rw [htasks]
    exact fun x hx => hs.ahead x (hgone.subset hx)
  · rw [hexecuted]
    exact hs.timely

theorem inv_tick (hs : Inv s) (elapsed : ℕ) : Inv { s with now := s.now + elapsed } :=
  { hs with due := fun task htask => Nat.le_add_right_of_le (hs.due task htask) }

/-- **A task that is added comes after all that are gone**: they were due by now. -/
theorem inv_add (hs : Inv s) (delay : UInt32) (callback : Option F) (caller : Caller) (room : ℕ) :
    Inv (add s delay callback caller room).2 := by
  set task := newTask s delay callback with htask
  have hnew : s.added[task.serial]? = none := List.getElem?_eq_none (Nat.le_refl _)
  have happend (x : TimerTask F) (hx : x ∈ gone s ++ s.tasks) :
      (s.added ++ [task])[x.serial]? = some x := by
    rw [List.getElem?_append_left (List.getElem?_eq_some_iff.1 (hs.booked x hx)).1]
    exact hs.booked x hx
  have htasks : gone (add s delay callback caller room).2 ++
      (add s delay callback caller room).2.tasks = gone s ++ s.tasks ++ [task] :=
    (List.append_assoc _ _ _).symm
  exact {
    booked := fun x hx => by
      rw [htasks] at hx
      rcases List.mem_append.1 hx with hx | hx
      · exact happend x hx
      · obtain rfl := List.mem_singleton.1 hx
        exact List.getElem?_concat_length
    distinct := by
      rw [htasks, List.map_append]
      refine hs.distinct.append (List.nodup_singleton _) ?_
      rw [List.map_singleton, List.disjoint_singleton]
      intro hmem
      obtain ⟨x, hx, hserial⟩ := List.mem_map.1 hmem
      have hbooked := hs.booked x hx
      rw [hserial, hnew] at hbooked
      exact absurd hbooked (by simp)
    ordered := hs.ordered
    due := hs.due
    ahead := fun x hx y hy => by
      rcases List.mem_append.1 hy with hy | hy
      · exact hs.ahead x hx y hy
      · obtain rfl := List.mem_singleton.1 hy
        exact Nat.le_add_right_of_le (hs.due x hx)
    timely := hs.timely }

/-- **The task that is taken comes after all that are gone, and before all that stay.** -/
theorem inv_taken {top : ℕ} {task : TimerTask F} (hs : Inv s)
    (hhand : RunPhase.inHand s.phase = []) (htask : s.tasks[top]? = some task)
    (htop : IsTop s.tasks task) (hdue : task.dueTime ≤ s.now) :
    Inv { s with
      tasks := s.tasks.eraseIdx top
      phase := .taken task
      unordered := false
      looked := false } := by
  set t : MultiTaskTimer F :=
    { s with
      tasks := s.tasks.eraseIdx top
      phase := .taken task
      unordered := false
      looked := false }
  have hgone : gone t = gone s ++ [task] := by
    simp only [gone]
    rw [hhand, List.append_nil]
    rfl
  have hmem : task ∈ s.tasks := List.mem_of_getElem? htask
  have hperm : (gone t ++ t.tasks).Perm (gone s ++ s.tasks) := by
    rw [hgone, List.append_assoc]
    refine List.Perm.append_left _ ?_
    obtain ⟨hlt, rfl⟩ := List.getElem?_eq_some_iff.1 htask
    exact List.getElem_cons_eraseIdx_perm hlt
  exact {
    booked := fun x hx => hs.booked x (hperm.subset hx)
    distinct := (hperm.map _).nodup_iff.2 hs.distinct
    ordered := by
      rw [hgone, List.pairwise_append]
      refine ⟨hs.ordered, List.pairwise_singleton _ _, fun x hx y hy => ?_⟩
      obtain rfl := List.mem_singleton.1 hy
      exact hs.ahead x hx y hmem
    due := fun x hx => by
      rw [hgone] at hx
      rcases List.mem_append.1 hx with hx | hx
      · exact hs.due x hx
      · obtain rfl := List.mem_singleton.1 hx
        exact hdue
    ahead := fun x hx y hy => by
      replace hy : y ∈ s.tasks := List.mem_of_mem_eraseIdx hy
      rw [hgone] at hx
      rcases List.mem_append.1 hx with hx | hx
      · exact hs.ahead x hx y hy
      · obtain rfl := List.mem_singleton.1 hx
        exact htop y hy
    timely := hs.timely }

/-- The task in hand goes into the books when it is executed. -/
theorem inv_execute {task : TimerTask F} (hs : Inv s) (hphase : s.phase = .taken task) :
    Inv (execute s task) := by
  unfold execute
  split_ifs
  · have hgone : gone { s with phase := .executing, executed := s.executed ++ [⟨task, s.now⟩] } =
        gone s := by simp [gone, hphase, RunPhase.inHand]
    have hmem : task ∈ gone s := by simp [gone, hphase, RunPhase.inHand]
    exact {
      booked := by rw [hgone]; exact hs.booked
      distinct := by rw [hgone]; exact hs.distinct
      ordered := by rw [hgone]; exact hs.ordered
      due := by rw [hgone]; exact hs.due
      ahead := by rw [hgone]; exact hs.ahead
      timely := fun e he => by
        rcases List.mem_append.1 he with he | he
        · exact hs.timely e he
        · obtain rfl := List.mem_singleton.1 he
          exact hs.due task hmem }
  · exact hs.of_same rfl rfl rfl rfl (List.nil_sublist _)

/-- **Each step keeps the invariant.** -/
theorem inv_step {a : Action F} (hs : Inv s) (h : step s a = some t) : Inv t := by
  cases (step_cases h).2 with
  | undefined => exact hs.of_same rfl rfl rfl rfl (List.Sublist.refl _)
  | tick => exact inv_tick hs _
  | add => exact inv_add hs _ _ _ _
  | run | waits | wake => exact hs.of_same rfl rfl rfl rfl (List.nil_sublist _)
  | takes hphase htask htop hdue => exact inv_taken hs (by rw [hphase]; rfl) htask htop hdue
  | execute hphase => exact inv_execute hs hphase
  | finish | check =>
      refine hs.of_same rfl rfl rfl rfl ?_
      dsimp only
      split_ifs
      · exact List.nil_sublist _
      · exact List.nil_sublist _

/-- `Run` is left with a callback that throws, or it returns and has seen an empty queue. -/
theorem idle_of_step {a : Action F} (h : step s a = some t) (hs : s.phase ≠ .idle)
    (ht : t.phase = .idle) : a = .finish true ∨ a = .check ∧ s.tasks = [] := by
  cases (step_cases h).2 with
  | undefined | tick | add => exact absurd ht hs
  | run hphase => exact absurd hphase hs
  | waits | takes | wake => exact absurd ht (by simp)
  | execute =>
      unfold execute at ht
      split_ifs at ht
  | @finish throws =>
      cases throws with
      | true => exact Or.inl rfl
      | false => exact absurd ht (by simp)
  | check =>
      refine Or.inr ⟨rfl, ?_⟩
      by_contra hne
      simp [hne] at ht

/-- Nothing undefined has happened, each task was executed at most once, not before it was due, and
after those that were due before it; and `Run` returns only when it has seen an empty queue. -/
structure InOrder (s : MultiTaskTimer F) : Prop where
  defined : s.isUndefined = false
  booked : ∀ e ∈ s.executed, s.added[e.task.serial]? = some e.task
  once : (s.executed.map fun e => e.task.serial).Nodup
  timely : ∀ e ∈ s.executed, e.task.dueTime ≤ e.time
  ordered : s.executed.Pairwise fun e f => e.task.dueTime ≤ f.task.dueTime
  returns : ∀ a t, step s a = some t → s.phase ≠ .idle → t.phase = .idle →
    a = .finish true ∨ a = .check ∧ s.tasks = []

/-- What is defined is in order. -/
theorem inOrder_iff (hs : Inv s) : InOrder s ↔ s.isUndefined = false := by
  refine ⟨InOrder.defined, fun hdefined => ?_⟩
  have hgone : (s.executed.map Execution.task).Sublist (gone s) := List.sublist_append_left _ _
  have hmem (e : Execution F) (he : e ∈ s.executed) : e.task ∈ gone s :=
    hgone.subset (List.mem_map_of_mem he)
  have hordered := List.pairwise_map.1 (hs.ordered.sublist hgone)
  refine ⟨hdefined, fun e he => hs.booked e.task (List.mem_append_left _ (hmem e he)), ?_,
    hs.timely, hordered, fun a t => idle_of_step⟩
  have hserials := hs.distinct.sublist ((hgone.trans (List.sublist_append_left _ _)).map _)
  rwa [List.map_map] at hserials

/-- **When the tasks are executed in order.**  In all states that a run passes through, nothing
undefined has happened and each task has been executed at most once, not before it was due, and
after those due before it, and `Run` returns only when it has seen an empty queue, if and only if
all its steps are orderly. -/
theorem executed_in_order_iff (now : ℕ) (as : List (Action F)) :
    (∀ done, done <+: as → ∀ s, run step (init now) done = some s → InOrder s) ↔
      Meets step Orderly (init now) as := by
  refine forall_states_iff (J := Inv) (fun _ _ _ => inv_step) (fun s a hinv hs => ?_)
    (inv_init now) ((inOrder_iff (inv_init now)).2 rfl) as
  rw [← step_defined_iff hs.defined a]
  exact forall₂_congr fun t h => inOrder_iff (inv_step hinv h)

/-- A task is added first and due last, and a callback adds another one in between: an orderly
run. -/
example : (run step (init 0 : MultiTaskTimer Unit) [.add 5 (some ()) .other 1,
    .add 1 (some ()) .other 0, .run, .tick 1000000, .lock 1, .execute,
    .add 2 (some ()) .ordered 0, .finish false, .check, .tick 9000000, .lock 1, .execute,
    .finish false, .check, .lock 0, .execute, .finish false, .check]).map
      (fun s => (s.executed.map fun e => e.task.serial, s.isUndefined)) =
    some ([1, 2, 0], false) := by
  decide

/-- In an orderly run nothing undefined happens. -/
theorem defined_of_orderly {now : ℕ} {as : List (Action F)}
    (has : Meets step Orderly (init now) as) (h : run step (init now) as = some s) :
    s.isUndefined = false :=
  run_invariant_of_meets (I := fun s : MultiTaskTimer F => s.isUndefined = false)
    (fun _ a t hs ha h => (step_defined_iff hs a).2 ha t h) rfl has h

/-- While `Run` waits for its only task, another thread adds one that there is no room for. -/
def danglingRun : List (Action Unit) :=
  [.add 9 (some ()) .other 0, .run, .lock 0, .add 1 (some ()) .other 0, .wake]

/-- While `Run` executes its only task, another thread adds one. -/
def racingRun : List (Action Unit) :=
  [.add 1 (some ()) .other 0, .run, .tick 1000000, .lock 0, .execute, .add 1 (some ()) .other 0,
    .finish false, .check]

theorem not_in_order :
    (∃ s, run step (init 0) danglingRun = some s ∧ s.isUndefined = true) ∧
      (∃ s, run step (init 0) racingRun = some s ∧ s.isUndefined = true) ∧
      ¬ ∀ (as : List (Action Unit)) (s : MultiTaskTimer Unit),
        run step (init 0) as = some s → InOrder s := by
  refine ⟨⟨_, rfl, rfl⟩, ⟨_, rfl, rfl⟩, fun hall => ?_⟩
  have hdefined := (hall danglingRun _ rfl).defined
  cases hdefined

end MultiTaskTimer
end Timing
end BreUtils
