/-
# The timer of `Timer.hpp`

`Timer::AsyncWait` clears `m_Stop` and starts a thread that waits for the interval and
calls `func`, once or in a loop; `Timer::Cancel` sets `m_Stop` under the mutex and
notifies.  A section under the mutex is one step, and so is each read or write of the
atomic `m_Stop` outside of it.  Any number of callers use the timer.  When a waiting
thread wakes, and whether its time is up then, is left to chance.

After a `Cancel` the callback should rest until the next `AsyncWait`.  The thread tests
`m_Stop` for the last time when it leaves `wait_until`, and it gives the mutex back
before it calls `func`.  A `Cancel` that runs in between returns, and `func` is called
after it (`invoked_after_cancel`).  The other way is a `m_Stop` that an `AsyncWait` of
another caller cleared before the `Cancel` returned.  There is no third way: the timer
is silent after each `Cancel` exactly if none returns while a callback is on its way
(`silent_iff`).
-/

import BreUtils.Lib.Transition
import Mathlib.Logic.Function.Basic

namespace BreUtils
namespace Timing

open Lib
open Lib.Transition (run run_nil run_cons Meets)

/-- Where the thread that `AsyncWait` starts is in its lambda. -/
inductive Phase where
  /-- At `while (!m_Stop)`. -/
  | head
  /-- Before it takes the mutex. -/
  | arming
  /-- Blocked in `wait_until`. -/
  | waiting
  /-- Out of `wait_until` with `false`, without the mutex, before `func()`. -/
  | expired
  /-- In `func()`. -/
  | running
  /-- Returned. -/
  | done
  deriving DecidableEq

/-- A thread that `AsyncWait` started, and the flag that it was started with. -/
structure Worker where
  isLoop : Bool
  phase : Phase
  deriving DecidableEq

/-- What a thread does next. -/
inductive Move where
  | test
  | lock
  /-- It is awake and has the mutex again; `timedOut`: because its time is up. -/
  | wake (timedOut : Bool)
  | invoke
  | finish
  deriving DecidableEq

/-- The lambda of `AsyncWait`, one move.  `wait_until` looks at `m_Stop` before it blocks and each
time that it wakes, and is left with `true` if it is set. -/
def Worker.move (stop : Bool) (w : Worker) : Move → Option Phase
  | .test => if w.phase = .head then some (if stop then .done else .arming) else none
  | .lock => if w.phase = .arming then some (if stop then .done else .waiting) else none
  | .wake timedOut =>
      if w.phase = .waiting then
        some (if stop then .done else if timedOut then .expired else .waiting)
      else none
  | .invoke => if w.phase = .expired then some .running else none
  | .finish => if w.phase = .running then some (if w.isLoop then .head else .done) else none

/-- The call that a caller is inside of. -/
inductive Call where
  | idle
  /-- `AsyncWait`, before the thread is made. -/
  | spawn (isLoop : Bool)
  /-- `AsyncWait`, before the thread is moved into `m_Thread`. -/
  | assign
  /-- `Cancel`, after its section. -/
  | cancel
  deriving DecidableEq

/-- `Timer`, the threads it started, and where its callers are.  `cancelled`: a `Cancel` has
returned, and `AsyncWait` was not called since. -/
structure Timer (U : Type*) where
  stop : Bool
  joinable : Bool
  workers : List Worker
  call : U → Call
  terminated : Bool
  cancelled : Bool

namespace Timer

variable {U : Type*}

/-- The constructor. -/
def init : Timer U := ⟨true, false, [], fun _ => .idle, false, false⟩

/-- A step of a caller or of a thread. -/
inductive Action (U : Type*) where
  /-- `AsyncWait(func, is_loop)` is called, and clears `m_Stop`. -/
  | asyncWait (u : U) (isLoop : Bool)
  | spawn (u : U)
  | assign (u : U)
  /-- `Cancel()` is called, up to the end of its section. -/
  | cancel (u : U)
  | cancelReturns (u : U)
  | worker (i : ℕ) (m : Move)

variable [DecidableEq U]

/-- A caller is inside of another call. -/
def inside (s : Timer U) (u : U) (c : Call) : Timer U :=
  { s with call := Function.update s.call u c }

/-- A caller goes on from where the step starts. -/
def proceed (s : Timer U) (u : U) (c : Call) (t : Timer U) : Option (Timer U) :=
  if s.call u = c then some t else none

/-- What a step does while the process lives.  Moving a thread into a `std::thread` that is
joinable ends the process, and `m_Thread` is joined by the destructor only. -/
def stepAlive (s : Timer U) : Action U → Option (Timer U)
  | .asyncWait u isLoop =>
      proceed s u .idle (inside { s with stop := false, cancelled := false } u (.spawn isLoop))
  | .spawn u =>
      match s.call u with
      | .spawn isLoop =>
          some (inside { s with workers := s.workers ++ [⟨isLoop, .head⟩] } u .assign)
      | _ => none
  | .assign u =>
      proceed s u .assign
        (if s.joinable then { s with terminated := true }
        else inside { s with joinable := true } u .idle)
  | .cancel u => proceed s u .idle (inside { s with stop := true } u .cancel)
  | .cancelReturns u => proceed s u .cancel (inside { s with cancelled := true } u .idle)
  | .worker i m =>
      s.workers[i]?.bind fun w =>
        (w.move s.stop m).map fun p => { s with workers := s.workers.set i ⟨w.isLoop, p⟩ }

/-- **One step.** -/
def step (s : Timer U) (a : Action U) : Option (Timer U) :=
  if s.terminated then none else stepAlive s a

/-! ### A callback on its way -/

/-- The thread comes to `func()` again unless somebody sets `m_Stop`. -/
def Live (w : Worker) : Prop := w.phase ≠ .done ∧ (w.phase = .running → w.isLoop = true)

/-- A callback can start with no new call of `AsyncWait`: a thread is between its time-out and
`func()`, or `m_Stop` is clear and there is a thread that comes to `func()`, or will be. -/
def OnItsWay (s : Timer U) : Prop :=
  s.terminated = false ∧
    ((∃ w ∈ s.workers, w.phase = .expired) ∨
      s.stop = false ∧ ((∃ w ∈ s.workers, Live w) ∨ ∃ u isLoop, s.call u = .spawn isLoop))

/-- What a move of a thread can be. -/
theorem move_cases {stop : Bool} {w : Worker} {m : Move} {p : Phase}
    (h : w.move stop m = some p) :
    (m = .test ∧ w.phase = .head ∧ p = if stop then .done else .arming) ∨
      (m = .lock ∧ w.phase = .arming ∧ p = if stop then .done else .waiting) ∨
      (∃ timedOut, m = .wake timedOut ∧ w.phase = .waiting ∧
        p = if stop then .done else if timedOut then .expired else .waiting) ∨
      (m = .invoke ∧ w.phase = .expired ∧ p = .running) ∨
      m = .finish ∧ w.phase = .running ∧ p = if w.isLoop then .head else .done := by
  cases m <;>
    · simp only [Worker.move] at h
      split at h
      · simp_all
      · exact absurd h (by simp)

/-- A thread is out of `wait_until` with `false` only if `m_Stop` was clear. -/
theorem expired_of_move {stop : Bool} {w : Worker} {m : Move}
    (h : w.move stop m = some .expired) : stop = false ∧ Live w := by
  rcases move_cases h with ⟨-, -, hp⟩ | ⟨-, -, hp⟩ | ⟨_, -, hw, hp⟩ | ⟨-, -, ⟨⟩⟩ | ⟨-, -, hp⟩
  case inr.inr.inl =>
    cases stop with
    | true => exact absurd hp (by simp)
    | false => exact ⟨rfl, by simp [hw], by simp [hw]⟩
  all_goals split_ifs at hp

/-- No move brings a thread back to life. -/
theorem live_of_move {stop : Bool} {w : Worker} {m : Move} {p : Phase}
    (h : w.move stop m = some p) (hp : Live ⟨w.isLoop, p⟩) : Live w := by
  rcases move_cases h with ⟨-, hw, -⟩ | ⟨-, hw, -⟩ | ⟨_, -, hw, -⟩ | ⟨-, hw, -⟩ | ⟨-, hw, rfl⟩
  case inr.inr.inr.inr =>
    refine ⟨by simp [hw], fun _ => ?_⟩
    by_contra hloop
    exact hp.1 (by simp [hloop])
  all_goals exact ⟨by simp [hw], by simp [hw]⟩

/-! ### Without a new `AsyncWait` nothing gets on its way -/

variable {s t : Timer U}

omit [DecidableEq U] in
/-- The thread that moved came to `func()` before if it does so after. -/
theorem onItsWay_of_worker {i : ℕ} {m : Move} {w : Worker} {p : Phase}
    (hw : s.workers[i]? = some w) (hm : w.move s.stop m = some p)
    (h : OnItsWay { s with workers := s.workers.set i ⟨w.isLoop, p⟩ }) : OnItsWay s := by
  have hmem : w ∈ s.workers := List.mem_of_getElem? hw
  refine ⟨h.1, ?_⟩
  rcases h.2 with ⟨v, hv, hexpired⟩ | ⟨hstop, ⟨v, hv, hlive⟩ | hspawn⟩
  · rcases List.mem_or_eq_of_mem_set hv with hv | rfl
    · exact Or.inl ⟨v, hv, hexpired⟩
    · obtain rfl : p = .expired := hexpired
      obtain ⟨hstop, hlive⟩ := expired_of_move hm
      exact Or.inr ⟨hstop, Or.inl ⟨w, hmem, hlive⟩⟩
  · rcases List.mem_or_eq_of_mem_set hv with hv | rfl
    · exact Or.inr ⟨hstop, Or.inl ⟨v, hv, hlive⟩⟩
    · exact Or.inr ⟨hstop, Or.inl ⟨w, hmem, live_of_move hm hlive⟩⟩
  · exact Or.inr ⟨hstop, Or.inr hspawn⟩

omit [DecidableEq U] in
theorem proceed_eq_some {u : U} {c : Call} {x : Timer U} (h : proceed s u c x = some t) :
    s.call u = c ∧ t = x := by
  unfold proceed at h
  split_ifs at h with hu
  exact ⟨hu, (Option.some.inj h).symm⟩

/-- A caller that goes on elsewhere leaves the others where they are. -/
theorem exists_spawn_of_update {u : U} {c : Call} (hc : ∀ isLoop, c ≠ .spawn isLoop)
    (h : ∃ v isLoop, Function.update s.call u c v = .spawn isLoop) :
    ∃ v isLoop, s.call v = .spawn isLoop := by
  obtain ⟨v, isLoop, hv⟩ := h
  refine ⟨v, isLoop, ?_⟩
  by_cases huv : v = u
  · subst huv
    rw [Function.update_self] at hv
    exact absurd hv (hc isLoop)
  · rwa [Function.update_of_ne huv] at hv

theorem step_alive {a : Action U} (h : step s a = some t) :
    s.terminated = false ∧ stepAlive s a = some t := by
  unfold step at h
  split_ifs at h with hs
  exact ⟨by simpa using hs, h⟩

/-- **What is on its way after a step was so before**, but for a call of `AsyncWait`. -/
theorem onItsWay_of_step {a : Action U} (h : step s a = some t)
    (ha : ∀ u isLoop, a ≠ .asyncWait u isLoop) (ht : OnItsWay t) : OnItsWay s := by
  obtain ⟨halive, h⟩ := step_alive h
  cases a with
  | asyncWait u isLoop => exact absurd rfl (ha u isLoop)
  | spawn u =>
      simp only [stepAlive] at h
      split at h
      case h_2 => exact absurd h (by simp)
      case h_1 isLoop hu =>
        obtain rfl := Option.some.inj h
        refine ⟨halive, ?_⟩
        rcases ht.2 with ⟨w, hw, hexpired⟩ | ⟨hstop, -⟩
        · rcases List.mem_append.1 hw with hw | hw
          · exact Or.inl ⟨w, hw, hexpired⟩
          · obtain rfl := List.mem_singleton.1 hw
            exact absurd hexpired (by simp)
        · exact Or.inr ⟨hstop, Or.inr ⟨u, isLoop, hu⟩⟩
  | assign u =>
      obtain ⟨-, rfl⟩ := proceed_eq_some h
      split at ht
      · exact absurd ht.1 (by simp)
      · exact ⟨halive, ht.2.imp_right fun hlate => ⟨hlate.1,
          hlate.2.imp_right (exists_spawn_of_update (by simp))⟩⟩
  | cancel u =>
      obtain ⟨-, rfl⟩ := proceed_eq_some h
      rcases ht.2 with hexpired | ⟨hstop, -⟩
      · exact ⟨halive, Or.inl hexpired⟩
      · exact absurd hstop (by simp [inside])
  | cancelReturns u =>
      obtain ⟨-, rfl⟩ := proceed_eq_some h
      exact ⟨halive, ht.2.imp_right fun hlate => ⟨hlate.1,
        hlate.2.imp_right (exists_spawn_of_update (by simp))⟩⟩
  | worker i m =>
      obtain ⟨w, hw, h⟩ := Option.bind_eq_some_iff.1 h
      obtain ⟨p, hp, rfl⟩ := Option.map_eq_some_iff.1 h
      exact onItsWay_of_worker hw hp ht

/-- A callback that starts was on its way. -/
theorem onItsWay_of_invoke {i : ℕ} (h : step s (.worker i .invoke) = some t) : OnItsWay s := by
  obtain ⟨halive, h⟩ := step_alive h
  obtain ⟨w, hw, h⟩ := Option.bind_eq_some_iff.1 h
  obtain ⟨p, hp, -⟩ := Option.map_eq_some_iff.1 h
  refine ⟨halive, Or.inl ⟨w, List.mem_of_getElem? hw, ?_⟩⟩
  simp only [Worker.move] at hp
  split_ifs at hp with hexpired
  exact hexpired

/-- No callback starts from here on before `AsyncWait` is called. -/
def Silent (s : Timer U) : Prop :=
  ∀ as t, run step s as = some t → (∀ u isLoop, .asyncWait u isLoop ∉ as) →
    ∀ i, .worker i .invoke ∉ as

theorem silent_of_not_onItsWay (hs : ¬ OnItsWay s) : Silent s := by
  intro as t hrun hasync i hi
  induction as generalizing s with
  | nil => exact absurd hi List.not_mem_nil
  | cons a as ih =>
      rw [run_cons, Option.bind_eq_some_iff] at hrun
      obtain ⟨u, hu, hrun⟩ := hrun
      rcases List.mem_cons.1 hi with rfl | hi
      · exact hs (onItsWay_of_invoke hu)
      · refine ih (fun hway => hs ?_) hrun (fun v isLoop hmem => ?_) hi
        · refine onItsWay_of_step hu (fun v isLoop ha => ?_) hway
          exact hasync v isLoop (ha ▸ List.mem_cons_self)
        · exact hasync v isLoop (List.mem_cons_of_mem _ hmem)

/-! ### What is on its way can arrive -/

/-- There is a run without `AsyncWait` on which a callback starts. -/
theorem not_silent_iff : ¬ Silent s ↔
    ∃ as t, run step s as = some t ∧ (∀ u isLoop, .asyncWait u isLoop ∉ as) ∧
      ∃ i, .worker i .invoke ∈ as := by
  unfold Silent
  push Not
  rfl

theorem not_silent_of_step {a : Action U} (h : step s a = some t)
    (ha : ∀ u isLoop, a ≠ .asyncWait u isLoop) (ht : ¬ Silent t) : ¬ Silent s := by
  rw [not_silent_iff] at ht ⊢
  obtain ⟨as, v, hrun, hasync, i, hi⟩ := ht
  refine ⟨a :: as, v, by simp [h, hrun], fun u isLoop hmem => ?_, i, List.mem_cons_of_mem a hi⟩
  rcases List.mem_cons.1 hmem with hmem | hmem
  · exact ha u isLoop hmem.symm
  · exact hasync u isLoop hmem

/-- The thread at index `i` moves. -/
theorem step_worker {i : ℕ} {m : Move} {w : Worker} {p : Phase} (halive : s.terminated = false)
    (hw : s.workers[i]? = some w) (hm : w.move s.stop m = some p) :
    step s (.worker i m) = some { s with workers := s.workers.set i ⟨w.isLoop, p⟩ } := by
  simp [step, stepAlive, halive, hw, hm]

theorem not_silent_of_move {i : ℕ} {m : Move} {w : Worker} {p : Phase}
    (halive : s.terminated = false) (hw : s.workers[i]? = some w)
    (hm : w.move s.stop m = some p)
    (ht : ¬ Silent { s with workers := s.workers.set i ⟨w.isLoop, p⟩ }) : ¬ Silent s :=
  not_silent_of_step (step_worker halive hw hm) (by simp) ht

theorem not_silent_of_expired {i : ℕ} {w : Worker} (halive : s.terminated = false)
    (hw : s.workers[i]? = some w) (hexpired : w.phase = .expired) : ¬ Silent s := by
  rw [not_silent_iff]
  have hm : w.move s.stop .invoke = some .running := by simp [Worker.move, hexpired]
  exact ⟨[.worker i .invoke], _, by rw [run_cons, step_worker halive hw hm]; rfl, by simp, i,
    by simp⟩

/-- The worker that moved, in its place. -/
theorem getElem?_moved {ws : List Worker} {i : ℕ} {w v : Worker} (hw : ws[i]? = some w) :
    (ws.set i v)[i]? = some v := by
  rw [List.getElem?_set_self (List.getElem?_eq_some_iff.1 hw).1]

section

variable {i : ℕ} {w : Worker} (halive : s.terminated = false) (hstop : s.stop = false)
  (hw : s.workers[i]? = some w)

include halive hstop hw

/-! With `m_Stop` clear, from the last phase before `func()` to the first. -/

theorem not_silent_of_waiting (hp : w.phase = .waiting) : ¬ Silent s := by
  have hm : w.move s.stop (.wake true) = some .expired := by simp [Worker.move, hp, hstop]
  exact not_silent_of_move halive hw hm (not_silent_of_expired halive (getElem?_moved hw) rfl)

theorem not_silent_of_arming (hp : w.phase = .arming) : ¬ Silent s := by
  have hm : w.move s.stop .lock = some .waiting := by simp [Worker.move, hp, hstop]
  exact not_silent_of_move halive hw hm
    (not_silent_of_waiting halive hstop (getElem?_moved hw) rfl)

theorem not_silent_of_head (hp : w.phase = .head) : ¬ Silent s := by
  have hm : w.move s.stop .test = some .arming := by simp [Worker.move, hp, hstop]
  exact not_silent_of_move halive hw hm
    (not_silent_of_arming halive hstop (getElem?_moved hw) rfl)

/-- **With `m_Stop` clear, a thread that has not returned for good comes to `func()`.** -/
theorem not_silent_of_live (hlive : Live w) : ¬ Silent s := by
  cases hp : w.phase with
  | head => exact not_silent_of_head halive hstop hw hp
  | arming => exact not_silent_of_arming halive hstop hw hp
  | waiting => exact not_silent_of_waiting halive hstop hw hp
  | expired => exact not_silent_of_expired halive hw hp
  | running =>
      have hm : w.move s.stop .finish = some .head := by simp [Worker.move, hp, hlive.2 hp]
      exact not_silent_of_move halive hw hm
        (not_silent_of_head halive hstop (getElem?_moved hw) rfl)
  | done => exact absurd hp hlive.1

end

/-- **The timer is silent exactly if no callback is on its way.** -/
theorem silent_iff_not_onItsWay : Silent s ↔ ¬ OnItsWay s := by
  refine ⟨fun hs hway => ?_, silent_of_not_onItsWay⟩
  rcases hway with ⟨halive, ⟨w, hw, hexpired⟩ | ⟨hstop, ⟨w, hw, hlive⟩ | ⟨u, isLoop, hu⟩⟩⟩
  · obtain ⟨i, hi⟩ := List.mem_iff_getElem?.1 hw
    exact not_silent_of_expired halive hi hexpired hs
  · obtain ⟨i, hi⟩ := List.mem_iff_getElem?.1 hw
    exact not_silent_of_live halive hstop hi hlive hs
  · have hstep : step s (.spawn u) =
        some (inside { s with workers := s.workers ++ [⟨isLoop, .head⟩] } u .assign) := by
      simp [step, stepAlive, halive, hu]
    refine not_silent_of_step hstep (by simp) ?_ hs
    exact not_silent_of_live (i := s.workers.length) (w := ⟨isLoop, .head⟩) halive hstop
      (by simp [inside]) ⟨by simp, by simp⟩

/-! ### `Cancel` -/

/-- No `Cancel` returns while a callback is on its way. -/
def ReturnsInTime (s : Timer U) : Action U → Prop
  | .cancelReturns u => s.call u = .cancel → ¬ OnItsWay s
  | _ => True

/-- Only the return of a `Cancel` starts a time in which the timer should be silent. -/
theorem cancelled_of_step {a : Action U} (h : step s a = some t) (ht : t.cancelled = true) :
    (s.cancelled = true ∧ ∀ u isLoop, a ≠ .asyncWait u isLoop) ∨
      ∃ u, a = .cancelReturns u ∧ s.call u = .cancel ∧
        t = inside { s with cancelled := true } u .idle := by
  obtain ⟨-, h⟩ := step_alive h
  cases a with
  | asyncWait u isLoop =>
      obtain ⟨-, rfl⟩ := proceed_eq_some h
      exact absurd ht (by simp [inside])
  | spawn u =>
      simp only [stepAlive] at h
      split at h
      · obtain rfl := Option.some.inj h
        exact Or.inl ⟨ht, by simp⟩
      · exact absurd h (by simp)
  | assign u =>
      obtain ⟨-, rfl⟩ := proceed_eq_some h
      refine Or.inl ⟨?_, by simp⟩
      split at ht
      · exact ht
      · exact ht
  | cancel u =>
      obtain ⟨-, rfl⟩ := proceed_eq_some h
      exact Or.inl ⟨ht, by simp⟩
  | cancelReturns u =>
      obtain ⟨hu, rfl⟩ := proceed_eq_some h
      exact Or.inr ⟨u, rfl, hu, rfl⟩
  | worker i m =>
      obtain ⟨w, -, h⟩ := Option.bind_eq_some_iff.1 h
      obtain ⟨p, -, rfl⟩ := Option.map_eq_some_iff.1 h
      exact Or.inl ⟨ht, by simp⟩

/-- The return itself puts nothing on its way and takes nothing off it. -/
theorem onItsWay_cancelReturns {u : U} (hu : s.call u = .cancel) :
    OnItsWay (inside { s with cancelled := true } u .idle) ↔ OnItsWay s := by
  refine and_congr_right fun _ => or_congr_right (and_congr_right fun _ => or_congr_right ?_)
  refine ⟨exists_spawn_of_update (by simp), ?_⟩
  rintro ⟨v, isLoop, hv⟩
  have huv : v ≠ u := by
    rintro rfl
    exact absurd (hu.symm.trans hv) (by simp)
  exact ⟨v, isLoop, by simpa [inside, huv] using hv⟩

/-- **One step keeps the timer silent after a `Cancel` exactly if it is no late return of one.** -/
theorem step_returnsInTime (a : Action U) (hs : s.cancelled = true → ¬ OnItsWay s) :
    (∀ t, step s a = some t → t.cancelled = true → ¬ OnItsWay t) ↔ ReturnsInTime s a := by
  constructor
  · intro h
    cases a with
    | cancelReturns u =>
        intro hu hway
        have hstep : step s (.cancelReturns u) =
            some (inside { s with cancelled := true } u .idle) := by
          simp [step, stepAlive, proceed, hway.1, hu]
        exact h _ hstep rfl ((onItsWay_cancelReturns hu).2 hway)
    | asyncWait | spawn | assign | cancel | worker => trivial
  · intro ha t ht hcancelled hway
    rcases cancelled_of_step ht hcancelled with ⟨hbefore, hasync⟩ | ⟨u, rfl, hu, rfl⟩
    · exact hs hbefore (onItsWay_of_step ht hasync hway)
    · exact ha hu ((onItsWay_cancelReturns hu).1 hway)

/-- **After each `Cancel` of a run the timer is silent until `AsyncWait` is called, exactly if no
`Cancel` of the run returns while a callback is on its way.** -/
theorem silent_iff (as : List (Action U)) :
    (∀ done, done <+: as → ∀ s, run step init done = some s → s.cancelled = true → Silent s) ↔
      Meets step ReturnsInTime init as := by
  simp only [silent_iff_not_onItsWay]
  have hinit : (init : Timer U).cancelled = true → ¬ OnItsWay (init : Timer U) :=
    fun h => absurd h (by simp [init])
  exact Transition.forall_states_iff (I := fun s => s.cancelled = true → ¬ OnItsWay s)
    (J := fun _ => True) (fun _ _ _ _ _ => trivial)
    (fun s a _ hs => step_returnsInTime a hs) trivial hinit as

/-- A `Cancel` comes when the time is up, and `func` is called after it has returned. -/
theorem invoked_after_cancel :
    ¬ ∀ (as : List (Action Unit)) (s : Timer Unit), run step init as = some s →
      s.cancelled = true → ∀ i, step s (.worker i .invoke) = none := by
  intro h
  have hnone := h [.asyncWait () false, .spawn (), .assign (), .worker 0 .test, .worker 0 .lock,
    .worker 0 (.wake true), .cancel (), .cancelReturns ()] _ rfl rfl 0
  exact absurd (congrArg Option.isSome hnone) (by decide)

end Timer
end Timing
end BreUtils
