/-
# How a log ends

The whole life of an asynchronous log, from `Init` to the end of `~Log`.  Two threads meet in its
`BlockQueue`: the caller, who runs `Write` and in the end the destructor, and the thread of
`asyncWrite`.  Any number of threads may call `Write`, but they do so with the mutex of the log in
hand, so they count as one; and when a `Write` has found the queue not full, only the writer can
change it before the `Push`, so looking and pushing are one step.

A `Write` that comes to the end of a file opens the next.  Where that fails it throws, and leaves a
stream without a file: until a later `Write` opens one, the lines of the queue that reach
`asyncWrite` are dropped, and so is what `<<` gives to that stream past a full queue.

`~Log` first calls `Flush` until the queue is empty, then `Close`, then it joins the writer.  So
`Close` throws nothing away, and the line that the writer has in hand is stored before the join:
when `~Log` returns and every file has opened, every line that was accepted has been given to an
open file, those of the queue in their order (`destroyed_stores_all`).  Whether it returns is
another matter (`BreUtils.Log.ShutdownJoin`).
-/

import BreUtils.Log.Log
import BreUtils.Sync.BlockQueue

namespace BreUtils
namespace Logs

open Lib Sync
open Lib.Transition (run run_invariant run_invariant_of_meets)

/-- The two threads. -/
inductive Role where
  | caller
  | writer
  deriving DecidableEq

/-- Where `asyncWrite` is. -/
inductive Writer (V : Type*) where
  /-- Before `queue->Pop(str)`, or inside of it. -/
  | popping
  /-- `Pop` has returned `true`. -/
  | storing (str : V)
  /-- `Pop` has returned `false`, and the thread is over. -/
  | returned

/-- What the writer holds. -/
def Writer.str {V : Type*} : Writer V → List V
  | .storing str => [str]
  | _ => []

/-- Where the caller is. -/
inductive Phase where
  | running
  /-- `~Log`, before `while(!queue->Empty())`. -/
  | looping
  /-- Before `queue->Flush()`. -/
  | flushing
  /-- Before `queue->Close()`, or inside of it. -/
  | closing
  /-- Before `writeThread->join()`, or inside of it. -/
  | joining
  | destroyed
  deriving DecidableEq

/-- A line at the end of its way. -/
structure Output (V : Type*) where
  /-- Who brought it there. -/
  role : Role
  str : V
  /-- The stream had a file open, and the line went into it. -/
  isOpen : Bool

/-- A log in asynchronous mode. -/
structure LogLife (V : Type*) where
  queue : BlockQueue Role V
  writer : Writer V
  phase : Phase
  /-- `fileStream.is_open()`. -/
  isOpen : Bool
  /-- The lines of all `Write` calls that returned. -/
  accepted : List V
  /-- What came to the stream. -/
  outputs : List (Output V)

namespace LogLife

variable {V : Type*}

/-- `Init`, whose file opened: an empty queue, and a thread for `asyncWrite`. -/
def init : LogLife V := ⟨BlockQueue.init, .popping, .running, true, [], []⟩

/-- A step.  The choices of `BlockQueue` are left to chance. -/
inductive Action (V : Type*) where
  /-- `Write`, into the file that is open. -/
  | write (fullMessage : V) (woken : Option Role)
  /-- `Write`, which opens another file first. -/
  | rotate (fullMessage : V) (woken : Option Role)
  /-- `Write`, whose file does not open: it throws. -/
  | openFails
  /-- `asyncWrite` calls `Pop`. -/
  | pop (woken : Option Role)
  /-- `asyncWrite` is back from the `wait` of `Pop`. -/
  | resume (woken : Option Role)
  /-- It wakes by itself. -/
  | rouse
  /-- `asyncWrite` gives its line to the stream, if that has a file. -/
  | store
  /-- `~Log` begins. -/
  | destroy
  /-- `~Log` calls `Empty`. -/
  | empty
  | flush (woken : Option Role)
  | close
  | notifyProducers
  | notifyConsumers
  | join

/-- Where `asyncWrite` is after a section of `Pop`: in `wait`, or back with an item, or back
without. -/
def popped (q q' : BlockQueue Role V) : Writer V :=
  match q'.call .writer with
  | .pop => .popping
  | _ =>
      match q'.items.delivered.drop q.items.delivered.length with
      | [] => .returned
      | i :: _ => .storing i.value

/-- What the queue does. -/
def queueStep (q : BlockQueue Role V) (a : BlockQueue.Action Role V) :
    Option (BlockQueue Role V) :=
  BlockQueue.step Log.MaxCapacity q a

/-- A section of `Pop`. -/
def popStep (s : LogLife V) (a : BlockQueue.Action Role V) : Option (LogLife V) :=
  match s.writer with
  | .popping =>
      (queueStep s.queue a).map fun q => { s with queue := q, writer := popped s.queue q }
  | _ => none

/-- A section of the queue that the caller enters in one phase and leaves in another. -/
def callerStep (s : LogLife V) (phase next : Phase) (a : BlockQueue.Action Role V) :
    Option (LogLife V) :=
  if s.phase = phase then
    (queueStep s.queue a).map fun q => { s with queue := q, phase := next }
  else none

/-- `Write` with its line: into the queue, or past a full one to the stream. -/
def writeLine (s : LogLife V) (m : V) (woken : Option Role) : Option (LogLife V) :=
  if s.phase = .running then
    if s.queue.items.queue.length ≥ Log.MaxCapacity then
      some { s with
        accepted := s.accepted ++ [m]
        outputs := s.outputs ++ [⟨.caller, m, s.isOpen⟩] }
    else
      (queueStep s.queue (.push .caller m woken)).map fun q =>
        { s with queue := q, accepted := s.accepted ++ [m] }
  else none

/-- **One step.** -/
def step (s : LogLife V) : Action V → Option (LogLife V)
  | .write m woken => writeLine s m woken
  | .rotate m woken => writeLine { s with isOpen := true } m woken
  | .openFails => if s.phase = .running then some { s with isOpen := false } else none
  | .pop woken => popStep s (.pop .writer woken)
  | .resume woken => popStep s (.resume .writer false woken)
  | .rouse => (queueStep s.queue (.rouse .writer)).map fun q => { s with queue := q }
  | .store =>
      match s.writer with
      | .storing str =>
          some { s with
            writer := .popping
            outputs := s.outputs ++ [⟨.writer, str, s.isOpen⟩] }
      | _ => none
  | .destroy => if s.phase = .running then some { s with phase := .looping } else none
  | .empty =>
      if s.phase = .looping then
        if s.queue.items.queue = [] then some { s with phase := .closing }
        else some { s with phase := .flushing }
      else none
  | .flush woken => callerStep s .flushing .looping (.flush woken)
  | .close => callerStep s .closing .closing (.close .caller)
  | .notifyProducers => callerStep s .closing .closing (.notifyProducers .caller)
  | .notifyConsumers => callerStep s .closing .joining (.notifyConsumers .caller)
  | .join =>
      match s.phase, s.writer with
      | .joining, .returned => some { s with phase := .destroyed }
      | _, _ => none

variable {s s' : LogLife V} {q q' : BlockQueue Role V} {a : Action V} {as : List (Action V)}

/-! ### What the queue does -/

/-- A section of `Pop`: the writer waits on an empty queue, or it has the front in hand, or the
queue is closed and it returns. -/
inductive Pops (q : BlockQueue Role V) : BlockQueue Role V → Writer V → Prop
  | waits (c : CondVar Role) (hqueue : q.items.queue = [])
      (hc : c = q.condConsumer ∨ q.condConsumer.resume .writer = some c ∧ q.isClose = false) :
      Pops q { q with
        condConsumer := c.wait .writer
        call := Function.update q.call .writer .pop } .popping
  | takes (c d : CondVar Role) (items : Fifo V) (i : Fifo.Item V) (hpop : q.items.pop = some items)
      (hdelivered : items.delivered = q.items.delivered ++ [i]) :
      Pops q { q with
        items, condConsumer := c, condProducer := d
        call := Function.update q.call .writer .idle } (.storing i.value)
  | returns (c : CondVar Role) (hclose : q.isClose = true) :
      Pops q { q with
        condConsumer := c
        call := Function.update q.call .writer .idle } .returned

theorem popped_wait (c : CondVar Role) :
    popped q { q with
      condConsumer := c
      call := Function.update q.call .writer .pop } = .popping := by
  simp [popped]

theorem popped_item {items : Fifo V} {i : Fifo.Item V} (c d : CondVar Role)
    (hdelivered : items.delivered = q.items.delivered ++ [i]) :
    popped q { q with
      items, condConsumer := c, condProducer := d
      call := Function.update q.call .writer .idle } = .storing i.value := by
  simp [popped, hdelivered]

theorem popped_leave (c : CondVar Role) :
    popped q (BlockQueue.leave { q with condConsumer := c } .writer) = .returned := by
  simp [popped, BlockQueue.leave]

/-- `Pop` with the mutex, at its start or back from `wait`. -/
theorem popLocked_pops {c : CondVar Role} {woken : Option Role}
    (hc : c = q.condConsumer ∨ q.condConsumer.resume .writer = some c ∧ q.isClose = false)
    (h : BlockQueue.popLocked { q with condConsumer := c } .writer .pop woken = some q') :
    Pops q q' (popped q q') := by
  rcases BlockQueue.popLocked_cases h with ⟨hqueue, rfl⟩ | ⟨items, d, hpop, -, rfl⟩
  · rw [popped_wait]
    exact .waits c hqueue hc
  · obtain ⟨i, rest, -, hitems⟩ := Fifo.pop_eq_some hpop
    have hdelivered : items.delivered = q.items.delivered ++ [i] := by rw [hitems]
    rw [popped_item c d hdelivered]
    exact .takes c d items i hpop hdelivered

theorem pop_pops {woken : Option Role} (h : queueStep q (.pop .writer woken) = some q') :
    q.call .writer = .idle ∧ Pops q q' (popped q q') := by
  obtain ⟨hidle, h⟩ := BlockQueue.start_eq_some h
  exact ⟨hidle, popLocked_pops (Or.inl rfl) h⟩

theorem resume_pops {woken : Option Role} (hcall : q.call .writer = .pop)
    (h : queueStep q (.resume .writer false woken) = some q') :
    (∃ c, q.condConsumer.resume .writer = some c) ∧ Pops q q' (popped q q') := by
  simp only [queueStep, BlockQueue.step, BlockQueue.resumeLocked, hcall] at h
  obtain ⟨c, hc, h⟩ := Option.bind_eq_some_iff.1 h
  refine ⟨⟨c, hc⟩, ?_⟩
  split_ifs at h with hclose
  · obtain rfl := Option.some.inj h
    rw [popped_leave]
    exact .returns c hclose
  · exact popLocked_pops (Or.inr ⟨hc, by simpa using hclose⟩) h

/-- What a thread brought to the stream. -/
def brought (s : LogLife V) (r : Role) : List V :=
  (s.outputs.filter (·.role = r)).map Output.str

/-- What the files have been given. -/
def fileStream (s : LogLife V) : List V := (s.outputs.filter (·.isOpen)).map Output.str

/-- What `asyncWrite` has given to the files. -/
def stored (s : LogLife V) : List V :=
  ((s.outputs.filter (·.isOpen)).filter (·.role = .writer)).map Output.str

/-- What went through the queue. -/
def queued (s : LogLife V) : List V := s.queue.items.pushed.map Fifo.Item.value

/-! ### What every step keeps -/

/-- What the caller has done to the queue in each phase: the queue is closed after it was found
empty. -/
def Calls (q : BlockQueue Role V) : Phase → Prop
  | .running | .looping | .flushing => q.call .caller = .idle ∧ q.isClose = false
  | .closing => q.items.queue = [] ∧
      (q.call .caller = .idle ∧ q.isClose = false ∨
        (q.call .caller = .closeProducers ∨ q.call .caller = .closeConsumers) ∧ q.isClose = true)
  | .joining | .destroyed => q.items.queue = [] ∧ q.call .caller = .idle ∧ q.isClose = true

/-- Where the queue has the writer. -/
def Works (q : BlockQueue Role V) : Writer V → Prop
  | .popping => q.call .writer = .idle ∨ q.call .writer = .pop ∧ .writer ∈ q.condConsumer.waiting
  | .storing _ => q.call .writer = .idle
  | .returned => q.call .writer = .idle ∧ q.isClose = true

/-- The invariant: the books of the queue balance, `Close` throws nothing away, the writer has
brought to the stream what it took but for what it holds, and both threads are where the log has
them. -/
structure Sound (s : LogLife V) : Prop where
  balanced : s.queue.items.Balanced
  discarded : s.queue.items.discarded = []
  delivered : s.queue.items.delivered.map Fifo.Item.value = brought s .writer ++ s.writer.str
  accepted : s.accepted.Perm (brought s .caller ++ queued s)
  calls : Calls s.queue s.phase
  works : Works s.queue s.writer
  ended : s.phase = .destroyed → s.writer = .returned

theorem Calls.of_writer {phase : Phase} (h : Calls q phase)
    (hcall : q'.call .caller = q.call .caller) (hclose : q'.isClose = q.isClose)
    (hqueue : q.items.queue = [] → q'.items.queue = []) : Calls q' phase := by
  cases phase with
  | running | looping | flushing =>
      simp only [Calls] at h ⊢
      rwa [hcall, hclose]
  | closing =>
      simp only [Calls] at h ⊢
      rw [hcall, hclose]
      exact ⟨hqueue h.1, h.2⟩
  | joining | destroyed =>
      simp only [Calls] at h ⊢
      rw [hcall, hclose]
      exact ⟨hqueue h.1, h.2⟩

theorem Works.of_caller {w : Writer V} (h : Works q w) (hcall : q'.call .writer = q.call .writer)
    (hclose : q.isClose = true → q'.isClose = true)
    (hwaiting : q'.condConsumer.waiting = q.condConsumer.waiting) : Works q' w := by
  cases w with
  | popping =>
      simp only [Works] at h ⊢
      rwa [hcall, hwaiting]
  | storing str =>
      simp only [Works] at h ⊢
      rwa [hcall]
  | returned =>
      simp only [Works] at h ⊢
      rw [hcall]
      exact ⟨h.1, hclose h.2⟩

theorem Works.idle {w : Writer V} (h : Works q w) (hw : w ≠ .popping) :
    q.call .writer = .idle := by
  cases w with
  | popping => exact absurd rfl hw
  | storing str => exact h
  | returned => exact h.1

theorem brought_concat (s : LogLife V) (writer : Writer V) (accepted : List V) (o : Output V)
    (r : Role) :
    brought { s with writer, accepted, outputs := s.outputs ++ [o] } r =
      if o.role = r then brought s r ++ [o.str] else brought s r := by
  by_cases ho : o.role = r <;> simp [brought, List.filter_append, ho]

theorem Sound.init : Sound (init : LogLife V) where
  balanced := Fifo.Balanced.empty
  discarded := rfl
  delivered := rfl
  accepted := List.Perm.refl _
  calls := ⟨rfl, rfl⟩
  works := Or.inl rfl
  ended := by simp [LogLife.init]

/-- Whether the stream has a file makes no difference to the threads. -/
theorem Sound.isOpen (hs : Sound s) (isOpen : Bool) : Sound { s with isOpen } :=
  ⟨hs.balanced, hs.discarded, hs.delivered, hs.accepted, hs.calls, hs.works, hs.ended⟩

/-- `Write`, past a full queue. -/
theorem Sound.direct (hs : Sound s) (m : V) :
    Sound { s with
      accepted := s.accepted ++ [m]
      outputs := s.outputs ++ [⟨.caller, m, s.isOpen⟩] } where
  balanced := hs.balanced
  discarded := hs.discarded
  delivered := by
    rw [brought_concat, if_neg (by simp)]
    exact hs.delivered
  accepted := by
    rw [brought_concat, if_pos rfl, List.append_assoc]
    refine (hs.accepted.append_right [m]).trans ?_
    rw [List.append_assoc]
    exact List.perm_append_comm.append_left _
  calls := hs.calls
  works := hs.works
  ended := hs.ended

/-- `Write`, into the queue. -/
theorem Sound.push (hs : Sound s) {m : V} {woken : Option Role} (hrunning : s.phase = .running)
    (hroom : s.queue.items.queue.length < Log.MaxCapacity)
    (h : queueStep s.queue (.push .caller m woken) = some q) :
    Sound { s with queue := q, accepted := s.accepted ++ [m] } := by
  obtain ⟨hidle, h⟩ := BlockQueue.start_eq_some h
  rcases BlockQueue.pushLocked_cases h with rfl | ⟨-, c, hc, rfl⟩
  · rw [BlockQueue.pushLocked, if_neg (by omega)] at h
    obtain ⟨c, -, h⟩ := Option.map_eq_some_iff.1 h
    have hcall := congrArg (fun q => q.call .caller) h
    simp at hcall
  · have hcalls := hs.calls
    rw [hrunning] at hcalls
    constructor
    · exact hs.balanced.push m
    · exact hs.discarded
    · exact hs.delivered
    · show (s.accepted ++ [m]).Perm (brought s .caller ++
        (s.queue.items.pushed ++
          [(⟨s.queue.items.pushed.length, m⟩ : Fifo.Item V)]).map Fifo.Item.value)
      rw [List.map_append, ← List.append_assoc]
      exact hs.accepted.append_right [m]
    · show Calls _ s.phase
      rw [hrunning]
      exact ⟨by simp, hcalls.2⟩
    · exact hs.works.of_caller (by simp) id (CondVar.waiting_notifyOne hc)
    · exact hs.ended

/-- A section of `Pop`. -/
theorem Sound.pops (hs : Sound s) (hwriter : s.writer = .popping) {w : Writer V}
    (h : Pops s.queue q w) : Sound { s with queue := q, writer := w } := by
  have hdelivered := hs.delivered
  rw [hwriter] at hdelivered
  have hended : s.phase ≠ .destroyed := by
    intro hphase
    rw [hs.ended hphase] at hwriter
    exact absurd hwriter (by simp)
  cases h with
  | waits c hqueue hc =>
      refine ⟨hs.balanced, hs.discarded, hdelivered, hs.accepted, ?_, ?_, ?_⟩
      · exact hs.calls.of_writer (by simp) rfl id
      · exact Or.inr ⟨by simp, CondVar.mem_waiting_wait c _⟩
      · exact fun hphase => absurd hphase hended
  | takes c d items i hpop hitem =>
      obtain ⟨j, rest, hqueue, hitems⟩ := Fifo.pop_eq_some hpop
      refine ⟨hs.balanced.pop hpop, ?_, ?_, ?_, ?_, ?_, ?_⟩
      · rw [hitems]
        exact hs.discarded
      · show items.delivered.map Fifo.Item.value = brought s .writer ++ [i.value]
        rw [hitem, List.map_append, hdelivered]
        simp [Writer.str]
      · show s.accepted.Perm (brought s .caller ++ items.pushed.map Fifo.Item.value)
        rw [hitems]
        exact hs.accepted
      · refine hs.calls.of_writer (by simp) rfl fun hempty => ?_
        rw [hempty] at hqueue
        exact absurd hqueue (by simp)
      · show Function.update s.queue.call .writer .idle .writer = .idle
        simp
      · exact fun hphase => absurd hphase hended
  | returns c hclose =>
      refine ⟨hs.balanced, hs.discarded, hdelivered, hs.accepted, ?_, ?_, ?_⟩
      · exact hs.calls.of_writer (by simp) rfl id
      · exact ⟨by simp, hclose⟩
      · exact fun hphase => absurd hphase hended

/-- A section of the caller that leaves the items alone. -/
theorem Sound.caller (hs : Sound s) {phase : Phase} (hitems : q.items = s.queue.items)
    (hcalls : Calls q phase) (hcall : q.call .writer = s.queue.call .writer)
    (hclose : s.queue.isClose = true → q.isClose = true)
    (hwaiting : q.condConsumer.waiting = s.queue.condConsumer.waiting)
    (hphase : phase ≠ .destroyed) : Sound { s with queue := q, phase } where
  balanced := by
    show q.items.Balanced
    rw [hitems]
    exact hs.balanced
  discarded := by
    show q.items.discarded = []
    rw [hitems]
    exact hs.discarded
  delivered := by
    show q.items.delivered.map Fifo.Item.value = brought s .writer ++ s.writer.str
    rw [hitems]
    exact hs.delivered
  accepted := by
    show s.accepted.Perm (brought s .caller ++ q.items.pushed.map Fifo.Item.value)
    rw [hitems]
    exact hs.accepted
  calls := hcalls
  works := hs.works.of_caller hcall hclose hwaiting
  ended := fun h => absurd h hphase

theorem popStep_eq_some {b : BlockQueue.Action Role V} (h : popStep s b = some s') :
    s.writer = .popping ∧ ∃ q, queueStep s.queue b = some q ∧
      s' = { s with queue := q, writer := popped s.queue q } := by
  unfold popStep at h
  split at h
  · rename_i hwriter
    obtain ⟨q, hq, rfl⟩ := Option.map_eq_some_iff.1 h
    exact ⟨hwriter, q, hq, rfl⟩
  · exact absurd h (by simp)

theorem callerStep_eq_some {phase next : Phase} {b : BlockQueue.Action Role V}
    (h : callerStep s phase next b = some s') :
    s.phase = phase ∧ ∃ q, queueStep s.queue b = some q ∧
      s' = { s with queue := q, phase := next } := by
  unfold callerStep at h
  split_ifs at h with hphase
  obtain ⟨q, hq, rfl⟩ := Option.map_eq_some_iff.1 h
  exact ⟨hphase, q, hq, rfl⟩

/-- The sections of `Close`, in their order. -/
theorem Calls.close (h : Calls q .closing) (hq : queueStep q (.close .caller) = some q') :
    q' = { q with isClose := true, call := Function.update q.call .caller .closeProducers } ∧
      Calls q' .closing := by
  obtain ⟨-, hq⟩ := BlockQueue.start_eq_some hq
  obtain rfl := Option.some.inj hq
  rw [Fifo.clear_of_queue_eq_nil h.1]
  exact ⟨rfl, h.1, Or.inr ⟨Or.inl (by simp), rfl⟩⟩

theorem Calls.notifyProducers (h : Calls q .closing)
    (hq : queueStep q (.notifyProducers .caller) = some q') :
    q' = { q with
        condProducer := q.condProducer.notifyAll
        call := Function.update q.call .caller .closeConsumers } ∧ Calls q' .closing := by
  have hq' := BlockQueue.notifyProducers_eq_some hq
  have hclosing : q.call .caller ≠ .idle := by
    intro hidle
    simp [queueStep, BlockQueue.step, hidle] at hq
  have hclose := h.2.resolve_left fun hopen => hclosing hopen.1
  rw [hq']
  exact ⟨rfl, h.1, Or.inr ⟨Or.inr (by simp), hclose.2⟩⟩

theorem Calls.notifyConsumers (h : Calls q .closing)
    (hq : queueStep q (.notifyConsumers .caller) = some q') :
    q' = { q with
        condConsumer := q.condConsumer.notifyAll
        call := Function.update q.call .caller .idle } ∧ Calls q' .joining := by
  have hq' := BlockQueue.notifyConsumers_eq_some hq
  have hclosing : q.call .caller ≠ .idle := by
    intro hidle
    simp [queueStep, BlockQueue.step, hidle] at hq
  have hclose := h.2.resolve_left fun hopen => hclosing hopen.1
  rw [hq']
  exact ⟨rfl, h.1, by simp, hclose.2⟩

theorem Sound.writeLine (hs : Sound s) {m : V} {woken : Option Role}
    (h : writeLine s m woken = some s') : Sound s' := by
  unfold LogLife.writeLine at h
  split_ifs at h with hrunning hfull
  · obtain rfl := Option.some.inj h
    exact hs.direct m
  · obtain ⟨q, hq, rfl⟩ := Option.map_eq_some_iff.1 h
    exact hs.push hrunning (by omega) hq

/-- **Every step keeps the invariant.** -/
theorem step_sound (hs : Sound s) (h : step s a = some s') : Sound s' := by
  cases a with
  | write m woken => exact hs.writeLine h
  | rotate m woken => exact (hs.isOpen true).writeLine h
  | openFails =>
      simp only [step] at h
      split_ifs at h
      obtain rfl := Option.some.inj h
      exact hs.isOpen false
  | pop woken =>
      obtain ⟨hwriter, q, hq, rfl⟩ := popStep_eq_some h
      exact hs.pops hwriter (pop_pops hq).2
  | resume woken =>
      obtain ⟨hwriter, q, hq, rfl⟩ := popStep_eq_some h
      have hworks := hs.works
      rw [hwriter] at hworks
      rcases hworks with hidle | ⟨hcall, -⟩
      · simp [queueStep, BlockQueue.step, BlockQueue.resumeLocked, hidle] at hq
      · exact hs.pops hwriter (resume_pops hcall hq).2
  | rouse =>
      obtain ⟨q, hq, rfl⟩ := Option.map_eq_some_iff.1 h
      rcases BlockQueue.rouse_cases hq with ⟨c, hc, rfl⟩ | ⟨c, hc, rfl⟩
      · exact ⟨hs.balanced, hs.discarded, hs.delivered, hs.accepted,
          hs.calls.of_writer rfl rfl id, hs.works.of_caller rfl id rfl, hs.ended⟩
      · exact ⟨hs.balanced, hs.discarded, hs.delivered, hs.accepted,
          hs.calls.of_writer rfl rfl id,
          hs.works.of_caller rfl id (CondVar.waiting_rouse hc), hs.ended⟩
  | store =>
      simp only [step] at h
      split at h
      · rename_i str hwriter
        obtain rfl := Option.some.inj h
        have hdelivered := hs.delivered
        have hidle := hs.works.idle (by simp [hwriter])
        refine ⟨hs.balanced, hs.discarded, ?_, ?_, hs.calls, Or.inl hidle, fun hphase => ?_⟩
        · rw [brought_concat, if_pos rfl]
          rw [hwriter] at hdelivered
          simpa [Writer.str] using hdelivered
        · rw [brought_concat, if_neg (by simp)]
          exact hs.accepted
        · rw [hs.ended hphase] at hwriter
          exact absurd hwriter (by simp)
      · exact absurd h (by simp)
  | destroy =>
      simp only [step] at h
      split_ifs at h with hrunning
      obtain rfl := Option.some.inj h
      have hcalls := hs.calls
      rw [hrunning] at hcalls
      exact hs.caller rfl hcalls rfl id rfl (by simp)
  | empty =>
      simp only [step] at h
      split_ifs at h with hlooping hempty
      all_goals
        obtain rfl := Option.some.inj h
        have hcalls := hs.calls
        rw [hlooping] at hcalls
      · exact hs.caller rfl ⟨hempty, Or.inl hcalls⟩ rfl id rfl (by simp)
      · exact hs.caller rfl hcalls rfl id rfl (by simp)
  | flush woken =>
      obtain ⟨hphase, q, hq, rfl⟩ := callerStep_eq_some h
      obtain ⟨c, hc, rfl⟩ := Option.map_eq_some_iff.1 hq
      have hcalls := hs.calls
      rw [hphase] at hcalls
      exact hs.caller rfl hcalls rfl id (CondVar.waiting_notifyOne hc) (by simp)
  | close =>
      obtain ⟨hphase, q, hq, rfl⟩ := callerStep_eq_some h
      have hcalls := hs.calls
      rw [hphase] at hcalls
      obtain ⟨rfl, hcalls'⟩ := hcalls.close hq
      exact hs.caller rfl hcalls' (by simp) (fun _ => rfl) rfl (by simp)
  | notifyProducers =>
      obtain ⟨hphase, q, hq, rfl⟩ := callerStep_eq_some h
      have hcalls := hs.calls
      rw [hphase] at hcalls
      obtain ⟨rfl, hcalls'⟩ := hcalls.notifyProducers hq
      exact hs.caller rfl hcalls' (by simp) id rfl (by simp)
  | notifyConsumers =>
      obtain ⟨hphase, q, hq, rfl⟩ := callerStep_eq_some h
      have hcalls := hs.calls
      rw [hphase] at hcalls
      obtain ⟨rfl, hcalls'⟩ := hcalls.notifyConsumers hq
      exact hs.caller rfl hcalls' (by simp) id (CondVar.waiting_notifyAll _) (by simp)
  | join =>
      simp only [step] at h
      split at h
      · rename_i hphase hwriter
        obtain rfl := Option.some.inj h
        have hcalls := hs.calls
        rw [hphase] at hcalls
        exact ⟨hs.balanced, hs.discarded, hs.delivered, hs.accepted, hcalls, hs.works,
          fun _ => hwriter⟩
      · exact absurd h (by simp)

theorem Sound.of_run (h : run step LogLife.init as = some s) : Sound s :=
  run_invariant (fun _ _ _ hs hstep => step_sound hs hstep) Sound.init h

/-! ### Where every file opens -/

/-- A file does not open. -/
def Action.Fails : Action V → Prop
  | .openFails => True
  | _ => False

/-- The stream has a file, and had one for every line. -/
def Intact (s : LogLife V) : Prop := s.isOpen = true ∧ ∀ o ∈ s.outputs, o.isOpen = true

theorem Intact.output (hs : Intact s) (queue : BlockQueue Role V) (writer : Writer V)
    (accepted : List V) (r : Role) (str : V) :
    Intact { s with queue, writer, accepted, outputs := s.outputs ++ [⟨r, str, s.isOpen⟩] } := by
  refine ⟨hs.1, fun o ho => ?_⟩
  rcases List.mem_append.1 ho with ho | ho
  · exact hs.2 o ho
  · rw [List.mem_singleton.1 ho]
    exact hs.1

theorem Intact.writeLine (hs : Intact s) {m : V} {woken : Option Role}
    (h : writeLine s m woken = some s') : Intact s' := by
  unfold LogLife.writeLine at h
  split_ifs at h
  · obtain rfl := Option.some.inj h
    exact hs.output s.queue s.writer _ .caller m
  · obtain ⟨q, -, rfl⟩ := Option.map_eq_some_iff.1 h
    exact hs

/-- **A step that does not fail to open a file loses no file.** -/
theorem step_intact (hs : Intact s) (ha : ¬ a.Fails) (h : step s a = some s') : Intact s' := by
  cases a with
  | write m woken => exact hs.writeLine h
  | rotate m woken => exact Intact.writeLine (s := { s with isOpen := true }) ⟨rfl, hs.2⟩ h
  | openFails => exact absurd trivial ha
  | pop woken | resume woken =>
      obtain ⟨-, q, -, rfl⟩ := popStep_eq_some h
      exact hs
  | rouse =>
      obtain ⟨q, -, rfl⟩ := Option.map_eq_some_iff.1 h
      exact hs
  | store =>
      simp only [step] at h
      split at h
      · rename_i str hwriter
        obtain rfl := Option.some.inj h
        exact hs.output s.queue .popping s.accepted .writer str
      · exact absurd h (by simp)
  | destroy | empty =>
      simp only [step] at h
      split_ifs at h
      all_goals
        obtain rfl := Option.some.inj h
        exact hs
  | flush woken | close | notifyProducers | notifyConsumers =>
      obtain ⟨-, q, -, rfl⟩ := callerStep_eq_some h
      exact hs
  | join =>
      simp only [step] at h
      split at h
      · obtain rfl := Option.some.inj h
        exact hs
      · exact absurd h (by simp)

theorem Intact.of_run (hopens : ∀ a ∈ as, ¬ Action.Fails a) (h : run step init as = some s) :
    Intact s :=
  run_invariant_of_meets (P := fun _ a => ¬ Action.Fails a)
    (fun _ _ _ hs ha h => step_intact hs ha h) ⟨rfl, by simp [init]⟩
    (Transition.meets_of_forall_mem hopens init) h

theorem Intact.filter_outputs (hs : Intact s) : s.outputs.filter (·.isOpen) = s.outputs :=
  List.filter_eq_self.2 hs.2

/-! ### The end -/

/-- What the two threads brought to the stream is all that came there. -/
theorem outputs_perm (s : LogLife V) :
    (s.outputs.map Output.str).Perm (brought s .caller ++ brought s .writer) := by
  have hsplit := (List.filter_append_perm (fun o : Output V => decide (o.role = .caller))
    s.outputs).map Output.str
  refine hsplit.symm.trans (List.Perm.of_eq ?_)
  rw [List.map_append]
  refine congrArg₂ _ rfl ?_
  unfold brought
  congr 1
  refine List.filter_congr fun o _ => ?_
  rcases o with ⟨role, str, isOpen⟩
  cases role <;> rfl

/-- When `~Log` has returned, the writer has brought to the stream what was queued. -/
theorem Sound.brought_writer (hs : Sound s) (hphase : s.phase = .destroyed) :
    brought s .writer = queued s := by
  have hcalls := hs.calls
  rw [hphase] at hcalls
  have hpushed : s.queue.items.delivered = s.queue.items.pushed := by
    have hordered := hs.balanced.ordered
    rw [hcalls.1, hs.discarded] at hordered
    simpa using hordered
  have hdelivered := hs.delivered
  rw [hs.ended hphase] at hdelivered
  rw [queued, ← hpushed, hdelivered]
  simp [Writer.str]

/-- **When `~Log` returns, every line is in a file**, if every file that was to be opened has
opened.  In every such run, whichever way the writer and the callers interleave: the files have been
given exactly the lines that were accepted, and those that went through the queue in the order in
which they did. -/
theorem destroyed_stores_all (h : run step init as = some s)
    (hopens : ∀ a ∈ as, ¬ Action.Fails a) (hphase : s.phase = .destroyed) :
    (fileStream s).Perm s.accepted ∧ stored s = queued s := by
  have hs := Sound.of_run h
  have hintact := Intact.of_run hopens h
  have hbrought := hs.brought_writer hphase
  rw [fileStream, stored, hintact.filter_outputs]
  refine ⟨?_, hbrought⟩
  refine (outputs_perm s).trans ?_
  rw [hbrought]
  exact hs.accepted.symm

/-- Two lines are written, the second into a new file, and the writer waits when the log is
destroyed. -/
theorem destroyed_stores_all_sample :
    ∃ s : LogLife ℕ, run step init [.write 7 none, .pop none, .rotate 8 none, .store, .pop none,
        .destroy, .store, .pop none, .empty, .close, .notifyProducers, .notifyConsumers,
        .resume none, .join] = some s ∧
      (fileStream s).Perm [7, 8] ∧ stored s = [7, 8] := by
  obtain ⟨s, h, hphase, haccepted, hqueued⟩ : ∃ s : LogLife ℕ,
      run step init [.write 7 none, .pop none, .rotate 8 none, .store, .pop none, .destroy, .store,
        .pop none, .empty, .close, .notifyProducers, .notifyConsumers, .resume none, .join] =
          some s ∧ s.phase = .destroyed ∧ s.accepted = [7, 8] ∧ queued s = [7, 8] :=
    ⟨_, rfl, rfl, rfl, rfl⟩
  obtain ⟨hperm, hstored⟩ := destroyed_stores_all h (by simp [Action.Fails]) hphase
  exact ⟨s, h, haccepted ▸ hperm, hstored.trans hqueued⟩

/-- A file does not open, and the line that was queued before is dropped. -/
example : (run step (init : LogLife ℕ) [.write 7 none, .pop none, .openFails, .store]).map
    (fun s => (s.accepted, fileStream s)) = some ([7], []) := by rfl

end LogLife
end Logs
end BreUtils
