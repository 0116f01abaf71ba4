/-
# The queue of `BlockQueue.hpp`

A monitor: one mutex, a queue of at most `capacity` items, and two condition
variables.  The state changes in critical sections only, so a section is one step:
from taking the mutex to giving it back, be it at the end of the call or in `wait`.
A call that waited takes the mutex again when it is awake and goes on where it was.
`Close` gives the mutex back before it notifies, so its two `notify_all` are steps of
their own.

Threads come from any type, in any number; each is idle or inside one call.  What
fate decides is part of the step: which thread moves, which blocked thread a
`notify_one` wakes, when a blocked thread wakes by itself (spuriously, or because the
time of its `wait_for` is up), and whether `wait_for` reports a time-out.
-/

import BreUtils.Lib.CondVar
import BreUtils.Lib.Fifo
import BreUtils.Lib.Transition
import Mathlib.Logic.Function.Basic

namespace BreUtils
namespace Sync

open Lib

/-- The call that a thread is inside of, where it does not hold the mutex. -/
inductive Call (V : Type*) where
  | idle
  /-- `Push(item)`, in `condProducer.wait`. -/
  | push (item : V)
  /-- `Pop(item)`, in `condConsumer.wait`. -/
  | pop
  /-- `Pop(item, timeout_ms)`, in `condConsumer.wait_for`. -/
  | popFor
  /-- `Close()`, before `condProducer.notify_all()`. -/
  | closeProducers
  /-- `Close()`, before `condConsumer.notify_all()`. -/
  | closeConsumers
  deriving DecidableEq

/-- `BlockQueue<T>`, and where its threads are.  The queue is kept with its books. -/
structure BlockQueue (T V : Type*) where
  items : Fifo V
  isClose : Bool
  condConsumer : CondVar T
  condProducer : CondVar T
  call : T → Call V

namespace BlockQueue

variable {T V : Type*} [DecidableEq T] (capacity : ℕ)

/-- The constructor. -/
def init : BlockQueue T V := ⟨{}, false, .empty, .empty, fun _ => .idle⟩

/-- A step: the thread that moves, and what is left to chance. -/
inductive Action (T V : Type*) where
  /-- Both overloads of `Push`. -/
  | push (t : T) (item : V) (woken : Option T)
  | pop (t : T) (woken : Option T)
  | popFor (t : T) (woken : Option T)
  /-- A thread that is awake takes the mutex back; `expired`: `wait_for` reports a time-out. -/
  | resume (t : T) (expired : Bool) (woken : Option T)
  /-- A blocked thread wakes by itself. -/
  | rouse (t : T)
  | close (t : T)
  | notifyProducers (t : T)
  | notifyConsumers (t : T)
  | flush (woken : Option T)

/-- `Push` from its `while` on, with the mutex: wait if the queue is full, else enqueue. -/
def pushLocked (s : BlockQueue T V) (t : T) (item : V) (woken : Option T) :
    Option (BlockQueue T V) :=
  if s.items.queue.length ≥ capacity then
    some { s with
      condProducer := s.condProducer.wait t
      call := Function.update s.call t (.push item) }
  else
    (s.condConsumer.notifyOne woken).map fun c =>
      { s with
        items := s.items.push item
        condConsumer := c
        call := Function.update s.call t .idle }

/-- `Pop` from its `while` on, with the mutex: wait if the queue is empty, else take the front and
return `true`.  The two overloads differ in how they wait. -/
def popLocked (s : BlockQueue T V) (t : T) (waiting : Call V) (woken : Option T) :
    Option (BlockQueue T V) :=
  match s.items.pop with
  | none =>
      some { s with
        condConsumer := s.condConsumer.wait t
        call := Function.update s.call t waiting }
  | some items =>
      (s.condProducer.notifyOne woken).map fun c =>
        { s with items, condProducer := c, call := Function.update s.call t .idle }

/-- A call returns, and does nothing else. -/
def leave (s : BlockQueue T V) (t : T) : BlockQueue T V :=
  { s with call := Function.update s.call t .idle }

/-- What a call does when it is back from `wait`, with the mutex.  Only the two forms of `Pop` look
at `isClose`. -/
def resumeLocked (s : BlockQueue T V) (t : T) (expired : Bool) (woken : Option T) :
    Option (BlockQueue T V) :=
  match s.call t with
  | .push item =>
      (s.condProducer.resume t).bind fun c =>
        pushLocked capacity { s with condProducer := c } t item woken
  | .pop =>
      (s.condConsumer.resume t).bind fun c =>
        if s.isClose then some (leave { s with condConsumer := c } t)
        else popLocked { s with condConsumer := c } t .pop woken
  | .popFor =>
      (s.condConsumer.resume t).bind fun c =>
        if expired then some (leave { s with condConsumer := c } t)
        else if s.isClose then some (leave { s with condConsumer := c } t)
        else popLocked { s with condConsumer := c } t .popFor woken
  | _ => none

/-- A thread that is blocked in a call wakes by itself. -/
def rouse (s : BlockQueue T V) (t : T) : Option (BlockQueue T V) :=
  match s.call t with
  | .push _ => (s.condProducer.rouse t).map fun c => { s with condProducer := c }
  | .pop | .popFor => (s.condConsumer.rouse t).map fun c => { s with condConsumer := c }
  | _ => none

/-- A thread starts a call when it is inside of none. -/
def start (s : BlockQueue T V) (t : T) (body : Option (BlockQueue T V)) :
    Option (BlockQueue T V) :=
  match s.call t with
  | .idle => body
  | _ => none

/-- **One step.** -/
def step (s : BlockQueue T V) : Action T V → Option (BlockQueue T V)
  | .push t item woken => start s t (pushLocked capacity s t item woken)
  | .pop t woken => start s t (popLocked s t .pop woken)
  | .popFor t woken => start s t (popLocked s t .popFor woken)
  | .resume t expired woken => resumeLocked capacity s t expired woken
  | .rouse t => rouse s t
  | .close t =>
      start s t (some { s with
        items := s.items.clear
        isClose := true
        call := Function.update s.call t .closeProducers })
  | .notifyProducers t =>
      match s.call t with
      | .closeProducers =>
          some { s with
            condProducer := s.condProducer.notifyAll
            call := Function.update s.call t .closeConsumers }
      | _ => none
  | .notifyConsumers t =>
      match s.call t with
      | .closeConsumers =>
          some { s with
            condConsumer := s.condConsumer.notifyAll
            call := Function.update s.call t .idle }
      | _ => none
  | .flush woken => (s.condConsumer.notifyOne woken).map fun c => { s with condConsumer := c }

variable {capacity} {s s' : BlockQueue T V} {t : T} {item : V} {woken : Option T}

/-- A push gets past its `while`: it found room in the queue. -/
def Enqueues (capacity : ℕ) (s : BlockQueue T V) : Action T V → Prop
  | .push _ _ _ => s.items.queue.length < capacity
  | .resume t _ _ => (∃ item, s.call t = .push item) ∧ s.items.queue.length < capacity
  | _ => False

/-! ### What each section does -/

omit [DecidableEq T] in
theorem start_eq_some {o : Option (BlockQueue T V)} (h : start s t o = some s') :
    s.call t = .idle ∧ o = some s' := by
  unfold start at h
  split at h
  · exact ⟨‹_›, h⟩
  · exact absurd h (by simp)

/-- `Push` waits, or there is room and the item joins the line. -/
theorem pushLocked_cases (h : pushLocked capacity s t item woken = some s') :
    (s' = { s with
        condProducer := s.condProducer.wait t
        call := Function.update s.call t (.push item) }) ∨
      s.items.queue.length < capacity ∧
        ∃ c, s.condConsumer.notifyOne woken = some c ∧
          s' = { s with
            items := s.items.push item
            condConsumer := c
            call := Function.update s.call t .idle } := by
  unfold pushLocked at h
  split_ifs at h with hfull
  · exact Or.inl (Option.some.inj h).symm
  · obtain ⟨c, hc, rfl⟩ := Option.map_eq_some_iff.1 h
    exact Or.inr ⟨by omega, c, hc, rfl⟩

/-- `Pop` waits on an empty queue, or takes the front. -/
theorem popLocked_cases {waiting : Call V} (h : popLocked s t waiting woken = some s') :
    (s.items.queue = [] ∧
        s' = { s with
          condConsumer := s.condConsumer.wait t
          call := Function.update s.call t waiting }) ∨
      ∃ items c, s.items.pop = some items ∧ s.condProducer.notifyOne woken = some c ∧
        s' = { s with items, condProducer := c, call := Function.update s.call t .idle } := by
  unfold popLocked at h
  split at h
  · rename_i hempty
    exact Or.inl ⟨Fifo.pop_eq_none.1 hempty, (Option.some.inj h).symm⟩
  · rename_i items hpop
    obtain ⟨c, hc, rfl⟩ := Option.map_eq_some_iff.1 h
    exact Or.inr ⟨items, c, hpop, hc, rfl⟩

/-- A call that is back from `wait` goes on as at its start, or it is a `Pop` and returns.  No `Pop`
goes on when the queue is closed. -/
theorem resumeLocked_cases {expired : Bool}
    (h : resumeLocked capacity s t expired woken = some s') :
    (∃ item c, s.call t = .push item ∧ s.condProducer.resume t = some c ∧
        pushLocked capacity { s with condProducer := c } t item woken = some s') ∨
      (s.call t = .pop ∨ s.call t = .popFor) ∧
        ∃ c, s.condConsumer.resume t = some c ∧
          (s' = leave { s with condConsumer := c } t ∨
            s.isClose = false ∧
              popLocked { s with condConsumer := c } t (s.call t) woken = some s') := by
  unfold resumeLocked at h
  split at h
  · rename_i item hcall
    obtain ⟨c, hc, hpush⟩ := Option.bind_eq_some_iff.1 h
    exact Or.inl ⟨item, c, hcall, hc, hpush⟩
  · rename_i hcall
    obtain ⟨c, hc, h⟩ := Option.bind_eq_some_iff.1 h
    refine Or.inr ⟨Or.inl hcall, c, hc, ?_⟩
    split_ifs at h with hclose
    · exact Or.inl (Option.some.inj h).symm
    · exact Or.inr ⟨by simpa using hclose, hcall ▸ h⟩
  · rename_i hcall
    obtain ⟨c, hc, h⟩ := Option.bind_eq_some_iff.1 h
    refine Or.inr ⟨Or.inr hcall, c, hc, ?_⟩
    split_ifs at h with hexpired hclose
    · exact Or.inl (Option.some.inj h).symm
    · exact Or.inl (Option.some.inj h).symm
    · exact Or.inr ⟨by simpa using hclose, hcall ▸ h⟩
  · exact absurd h (by simp)

/-- A thread wakes by itself on the one condition variable or on the other. -/
theorem rouse_cases (h : rouse s t = some s') :
    (∃ c, s.condProducer.rouse t = some c ∧ s' = { s with condProducer := c }) ∨
      ∃ c, s.condConsumer.rouse t = some c ∧ s' = { s with condConsumer := c } := by
  unfold rouse at h
  split at h
  · obtain ⟨c, hc, rfl⟩ := Option.map_eq_some_iff.1 h
    exact Or.inl ⟨c, hc, rfl⟩
  · obtain ⟨c, hc, rfl⟩ := Option.map_eq_some_iff.1 h
    exact Or.inr ⟨c, hc, rfl⟩
  · obtain ⟨c, hc, rfl⟩ := Option.map_eq_some_iff.1 h
    exact Or.inr ⟨c, hc, rfl⟩
  · exact absurd h (by simp)

/-- `Close` after its section: it wakes the producers, then the consumers. -/
theorem notifyProducers_eq_some (h : step capacity s (.notifyProducers t) = some s') :
    s' = { s with
      condProducer := s.condProducer.notifyAll
      call := Function.update s.call t .closeConsumers } := by
  simp only [step] at h
  split at h
  · exact (Option.some.inj h).symm
  · exact absurd h (by simp)

theorem notifyConsumers_eq_some (h : step capacity s (.notifyConsumers t) = some s') :
    s' = { s with
      condConsumer := s.condConsumer.notifyAll
      call := Function.update s.call t .idle } := by
  simp only [step] at h
  split at h
  · exact (Option.some.inj h).symm
  · exact absurd h (by simp)

/-! ### What a step can do to the items -/

theorem pushLocked_items (h : pushLocked capacity s t item woken = some s') :
    s'.isClose = s.isClose ∧
      (s'.items = s.items ∨
        s.items.queue.length < capacity ∧ s'.items = s.items.push item) := by
  rcases pushLocked_cases h with rfl | ⟨hroom, c, -, rfl⟩
  · exact ⟨rfl, Or.inl rfl⟩
  · exact ⟨rfl, Or.inr ⟨hroom, rfl⟩⟩

theorem popLocked_items {waiting : Call V} (h : popLocked s t waiting woken = some s') :
    s'.isClose = s.isClose ∧ (s'.items = s.items ∨ s.items.pop = some s'.items) := by
  rcases popLocked_cases h with ⟨-, rfl⟩ | ⟨items, c, hpop, -, rfl⟩
  · exact ⟨rfl, Or.inl rfl⟩
  · exact ⟨rfl, Or.inr hpop⟩

/-- A call that is back from `wait` can only do what it could have done at its start. -/
theorem resumeLocked_items {expired : Bool}
    (h : resumeLocked capacity s t expired woken = some s') :
    s'.isClose = s.isClose ∧
      (s'.items = s.items ∨
        ((∃ item, s.call t = .push item) ∧ s.items.queue.length < capacity ∧
          ∃ item, s'.items = s.items.push item) ∨
        s.items.pop = some s'.items) := by
  rcases resumeLocked_cases h with ⟨item, c, hcall, -, hpush⟩ | ⟨-, c, -, rfl | ⟨-, hpop⟩⟩
  · rcases pushLocked_items hpush with ⟨hclose, hitems | ⟨hroom, hitems⟩⟩
    · exact ⟨hclose, Or.inl hitems⟩
    · exact ⟨hclose, Or.inr (Or.inl ⟨⟨item, hcall⟩, hroom, item, hitems⟩)⟩
  · exact ⟨rfl, Or.inl rfl⟩
  · exact ⟨(popLocked_items hpop).1, (popLocked_items hpop).2.imp_right Or.inr⟩

/-- **The queue is a bounded first-in, first-out queue.**  A step leaves the items alone, or lets a
push that found room enqueue, or hands out the front, or is the section of `Close`. -/
theorem step_items {a : Action T V} (h : step capacity s a = some s') :
    s'.isClose = s.isClose ∧
        (s'.items = s.items ∨
          (Enqueues capacity s a ∧ ∃ item, s'.items = s.items.push item) ∨
          s.items.pop = some s'.items) ∨
      s'.isClose = true ∧ s'.items = s.items.clear ∧ ∃ t, s'.call t = .closeProducers := by
  cases a with
  | push t item woken =>
      obtain ⟨-, h⟩ := start_eq_some h
      rcases pushLocked_items h with ⟨hclose, hitems | ⟨hroom, hitems⟩⟩
      · exact Or.inl ⟨hclose, Or.inl hitems⟩
      · exact Or.inl ⟨hclose, Or.inr (Or.inl ⟨hroom, _, hitems⟩)⟩
  | pop t woken =>
      obtain ⟨-, h⟩ := start_eq_some h
      exact Or.inl ⟨(popLocked_items h).1, (popLocked_items h).2.imp_right Or.inr⟩
  | popFor t woken =>
      obtain ⟨-, h⟩ := start_eq_some h
      exact Or.inl ⟨(popLocked_items h).1, (popLocked_items h).2.imp_right Or.inr⟩
  | resume t expired woken =>
      rcases resumeLocked_items h with ⟨hclose, hitems | ⟨hpush, hroom, hitems⟩ | hitems⟩
      · exact Or.inl ⟨hclose, Or.inl hitems⟩
      · exact Or.inl ⟨hclose, Or.inr (Or.inl ⟨⟨hpush, hroom⟩, hitems⟩)⟩
      · exact Or.inl ⟨hclose, Or.inr (Or.inr hitems)⟩
  | rouse t =>
      rcases rouse_cases h with ⟨c, -, rfl⟩ | ⟨c, -, rfl⟩
      · exact Or.inl ⟨rfl, Or.inl rfl⟩
      · exact Or.inl ⟨rfl, Or.inl rfl⟩
  | close t =>
      obtain ⟨-, h⟩ := start_eq_some h
      obtain rfl := Option.some.inj h
      exact Or.inr ⟨rfl, rfl, _, Function.update_self ..⟩
  | notifyProducers t =>
      obtain rfl := notifyProducers_eq_some h
      exact Or.inl ⟨rfl, Or.inl rfl⟩
  | notifyConsumers t =>
      obtain rfl := notifyConsumers_eq_some h
      exact Or.inl ⟨rfl, Or.inl rfl⟩
  | flush woken =>
      obtain ⟨c, -, rfl⟩ := Option.map_eq_some_iff.1 h
      exact Or.inl ⟨rfl, Or.inl rfl⟩

/-! ### The queue over whole runs -/

omit [DecidableEq T] in
theorem Enqueues.room {a : Action T V} (h : Enqueues capacity s a) :
    s.items.queue.length < capacity := by
  unfold Enqueues at h
  split at h
  · exact h
  · exact h.2
  · exact h.elim

/-- What a step keeps: the bound on the queue, and the balance of the books. -/
theorem step_fifo {a : Action T V}
    (hs : s.items.queue.length ≤ capacity ∧ s.items.Balanced)
    (h : step capacity s a = some s') :
    s'.items.queue.length ≤ capacity ∧ s'.items.Balanced := by
  obtain ⟨hlength, hbalanced⟩ := hs
  rcases step_items h with ⟨-, hitems | ⟨hroom, item, hitems⟩ | hitems⟩ | ⟨-, hitems, -⟩
  · rw [hitems]
    exact ⟨hlength, hbalanced⟩
  · have hlt := hroom.room
    rw [hitems, Fifo.length_push]
    exact ⟨by omega, hbalanced.push item⟩
  · refine ⟨?_, hbalanced.pop hitems⟩
    obtain ⟨i, rest, hqueue, hpop⟩ := Fifo.pop_eq_some hitems
    rw [hqueue, List.length_cons] at hlength
    rw [hpop]
    show rest.length ≤ capacity
    omega
  · rw [hitems]
    exact ⟨Nat.zero_le _, hbalanced.clear⟩

/-- **First in, first out, and never more than `capacity`.**  However many threads push, pop and
close, and however they interleave: the items that pops returned, followed by those in the queue,
are the pushed items without those that `Close` threw away, in the order of the pushes, and every
push is accounted for once. -/
theorem fifo_and_capacity {as : List (Action T V)}
    (h : Transition.run (step capacity) init as = some s) :
    s.items.queue.length ≤ capacity ∧ s.items.Balanced :=
  Transition.run_invariant (I := fun s => s.items.queue.length ≤ capacity ∧ s.items.Balanced)
    (fun _ _ _ hs h => step_fifo hs h) ⟨Nat.zero_le _, Fifo.Balanced.empty⟩ h

/-- Two producers on a queue of one place, a spurious wake-up, a consumer, and a `Close`. -/
theorem fifo_and_capacity_sample :
    ∃ s : BlockQueue ℕ ℕ, Transition.run (step 1) init
        [.push 0 7 none, .push 1 8 none, .rouse 1, .resume 1 false none, .pop 2 (some 1),
          .resume 1 false none, .close 0] = some s ∧
      s.items.delivered = [⟨0, 7⟩] ∧ s.items.discarded = [⟨1, 8⟩] ∧
      (s.items.queue.length ≤ 1 ∧ s.items.Balanced) := by
  obtain ⟨s, h, hdelivered, hdiscarded⟩ : ∃ s : BlockQueue ℕ ℕ, Transition.run (step 1) init
      [.push 0 7 none, .push 1 8 none, .rouse 1, .resume 1 false none, .pop 2 (some 1),
        .resume 1 false none, .close 0] = some s ∧
      s.items.delivered = [⟨0, 7⟩] ∧ s.items.discarded = [⟨1, 8⟩] := ⟨_, rfl, rfl, rfl⟩
  exact ⟨s, h, hdelivered, hdiscarded, fifo_and_capacity h⟩

end BlockQueue

end Sync
end BreUtils
