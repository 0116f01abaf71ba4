/-
# When `~Log` cannot return

A `Pop` looks at `isClose` only when it is back from `wait`.  So once `Close` has notified the
consumers, a writer that is not on its way out of `wait` by then is lost: it comes to the empty
queue, or sleeps there already, and nobody notifies it again (`Late.step`).  `~Log` joins it, and
waits for good unless it wakes by itself.

Nothing else can go wrong.  From every state that a log can be in but for these, the log can still
come to its end without a thread that wakes by itself: the calls of `Flush` see to it that the queue
is emptied, and a writer that waits when `Close` runs leaves (`can_finish_iff`).
-/

import BreUtils.Log.Shutdown

namespace BreUtils
namespace Logs
namespace LogLife

open Lib Sync
open Lib.Transition (run run_invariant_of_meets)

variable {V : Type*} {s s' : LogLife V} {q q' : BlockQueue Role V} {a : Action V}
  {as : List (Action V)}

/-- `asyncWrite` is on its way out of `wait`. -/
def Awake (s : LogLife V) : Prop :=
  s.queue.call .writer = .pop ∧
    Role.writer ∈ s.queue.condConsumer.notified ∪ s.queue.condConsumer.roused

/-- `Close` has returned, and the writer is neither over nor on its way out of `wait`. -/
def Late (s : LogLife V) : Prop := s.phase = .joining ∧ s.writer ≠ .returned ∧ ¬ Awake s

/-- The writer wakes by itself. -/
def Action.Rouses : Action V → Prop
  | .rouse => True
  | _ => False

/-- The log can come to its end, though nobody wakes by itself. -/
def CanFinish (s : LogLife V) : Prop :=
  ∃ as s', (∀ a ∈ as, ¬ Action.Rouses a) ∧ run step s as = some s' ∧ s'.phase = .destroyed

theorem CanFinish.of_step {t : LogLife V} (h : step s a = some t) (ha : ¬ a.Rouses)
    (ht : CanFinish t) : CanFinish s := by
  obtain ⟨as, u, has, hrun, hphase⟩ := ht
  refine ⟨a :: as, u, ?_, ?_, hphase⟩
  · intro b hb
    rcases List.mem_cons.1 hb with rfl | hb
    · exact ha
    · exact has b hb
  · rw [Transition.run_cons, h, Option.bind_some, hrun]

/-! ### Too late is too late -/

/-- A `Pop` that finds the queue empty waits, and no wake-up is on its way. -/
theorem pop_of_empty {woken : Option Role} (hqueue : q.items.queue = [])
    (h : queueStep q (.pop .writer woken) = some q') :
    q' = { q with
      condConsumer := q.condConsumer.wait .writer
      call := Function.update q.call .writer .pop } := by
  obtain ⟨-, h⟩ := BlockQueue.start_eq_some h
  rw [BlockQueue.popLocked, Fifo.pop_eq_none.2 hqueue] at h
  exact (Option.some.inj h).symm

/-- **A writer that is too late stays so**, unless it wakes by itself. -/
theorem Late.step (hs : Sound s) (hlate : Late s) (ha : ¬ a.Rouses)
    (h : step s a = some s') : Late s' := by
  obtain ⟨hphase, hwriter, hasleep⟩ := hlate
  cases a with
  | write m woken | rotate m woken => simp [LogLife.step, writeLine, hphase] at h
  | openFails => simp [LogLife.step, hphase] at h
  | pop woken =>
      obtain ⟨-, q, hq, rfl⟩ := popStep_eq_some h
      have hcalls := hs.calls
      rw [hphase] at hcalls
      obtain rfl := pop_of_empty hcalls.1 hq
      rw [popped_wait]
      refine ⟨hphase, by simp, fun hawake => ?_⟩
      have hmem := hawake.2
      simp [CondVar.wait] at hmem
  | resume woken =>
      obtain ⟨hpopping, q, hq, rfl⟩ := popStep_eq_some h
      have hworks := hs.works
      rw [hpopping] at hworks
      rcases hworks with hidle | ⟨hcall, -⟩
      · simp [queueStep, BlockQueue.step, BlockQueue.resumeLocked, hidle] at hq
      · obtain ⟨⟨c, hc⟩, -⟩ := resume_pops hcall hq
        unfold CondVar.resume at hc
        split_ifs at hc with hmem
        exact absurd ⟨hcall, hmem⟩ hasleep
  | rouse => exact absurd trivial ha
  | store =>
      simp only [LogLife.step] at h
      split at h
      · obtain rfl := Option.some.inj h
        exact ⟨hphase, by simp, hasleep⟩
      · exact absurd h (by simp)
  | destroy => simp [LogLife.step, hphase] at h
  | empty => simp [LogLife.step, hphase] at h
  | flush woken => simp [LogLife.step, callerStep, hphase] at h
  | close => simp [LogLife.step, callerStep, hphase] at h
  | notifyProducers => simp [LogLife.step, callerStep, hphase] at h
  | notifyConsumers => simp [LogLife.step, callerStep, hphase] at h
  | join =>
      simp only [LogLife.step] at h
      split at h
      · rename_i hreturned
        exact absurd hreturned hwriter
      · exact absurd h (by simp)

theorem Late.not_canFinish (hs : Sound s) (hlate : Late s) : ¬ CanFinish s := by
  rintro ⟨as, s', has, hrun, hphase⟩
  have hend := run_invariant_of_meets (I := fun s => Sound s ∧ Late s)
    (P := fun _ a => ¬ Action.Rouses a)
    (fun _ _ _ hs ha h => ⟨step_sound hs.1 h, hs.2.step hs.1 ha h⟩) ⟨hs, hlate⟩
    (Transition.meets_of_forall_mem has s) hrun
  rw [hend.2.1] at hphase
  exact absurd hphase (by simp)

/-! ### In time, it ends -/

theorem canFinish_of_returned (hphase : s.phase = .joining) (hwriter : s.writer = .returned) :
    CanFinish s := by
  refine ⟨[.join], { s with phase := .destroyed }, by simp [Action.Rouses], ?_, rfl⟩
  simp [LogLife.step, hphase, hwriter]

/-- `Close` has returned, and the writer is awake: it sees that the queue is closed. -/
theorem canFinish_of_awake (hs : Sound s) (hphase : s.phase = .joining) (hawake : Awake s) :
    CanFinish s := by
  obtain ⟨hcall, hmem⟩ := hawake
  have hpopping : s.writer = .popping := by
    by_contra hwriter
    rw [hs.works.idle hwriter] at hcall
    exact absurd hcall (by simp)
  have hcalls := hs.calls
  rw [hphase] at hcalls
  obtain ⟨c, hc⟩ : ∃ c, s.queue.condConsumer.resume .writer = some c := ⟨_, if_pos hmem⟩
  have hresume : queueStep s.queue (.resume .writer false none) =
      some (BlockQueue.leave { s.queue with condConsumer := c } .writer) := by
    simp [queueStep, BlockQueue.step, BlockQueue.resumeLocked, hcall, hc, hcalls.2.2]
  have hstep : LogLife.step s (.resume none) = some { s with
      queue := BlockQueue.leave { s.queue with condConsumer := c } .writer
      writer := .returned } := by
    show popStep s _ = _
    rw [popStep, hpopping]
    simp only [hresume, Option.map_some, popped_leave]
  exact CanFinish.of_step hstep id (canFinish_of_returned hphase rfl)

/-- The writer is over, or in `wait`. -/
def Waits (s : LogLife V) : Prop :=
  s.writer = .returned ∨
    s.queue.call .writer = .pop ∧ .writer ∈ s.queue.condConsumer.waiting

/-- `Close` wakes a writer that waits. -/
theorem canFinish_of_closeConsumers (hs : Sound s) (hphase : s.phase = .closing)
    (hcall : s.queue.call .caller = .closeConsumers) (hwaits : Waits s) : CanFinish s := by
  have hstep : step s .notifyConsumers = some { s with
      queue := { s.queue with
        condConsumer := s.queue.condConsumer.notifyAll
        call := Function.update s.queue.call .caller .idle }
      phase := .joining } := by
    simp [LogLife.step, callerStep, queueStep, BlockQueue.step, hphase, hcall]
  refine CanFinish.of_step hstep id ?_
  rcases hwaits with hreturned | ⟨hpop, hmem⟩
  · exact canFinish_of_returned rfl hreturned
  · refine canFinish_of_awake (step_sound hs hstep) rfl ⟨by simpa using hpop, ?_⟩
    simp only [CondVar.waiting, CondVar.notifyAll, Finset.mem_union] at hmem ⊢
    tauto

theorem canFinish_of_closeProducers (hs : Sound s) (hphase : s.phase = .closing)
    (hcall : s.queue.call .caller = .closeProducers) (hwaits : Waits s) : CanFinish s := by
  have hstep : step s .notifyProducers = some { s with
      queue := { s.queue with
        condProducer := s.queue.condProducer.notifyAll
        call := Function.update s.queue.call .caller .closeConsumers }
      phase := .closing } := by
    simp [LogLife.step, callerStep, queueStep, BlockQueue.step, hphase, hcall]
  refine CanFinish.of_step hstep id ?_
  refine canFinish_of_closeConsumers (step_sound hs hstep) rfl (by simp) ?_
  simpa [Waits] using hwaits

/-- `Close` under way, with a writer that waits. -/
theorem canFinish_of_waits (hs : Sound s) (hphase : s.phase = .closing) (hwaits : Waits s) :
    CanFinish s := by
  have hcalls := hs.calls
  rw [hphase] at hcalls
  obtain ⟨hqueue, ⟨hidle, hopen⟩ | ⟨hproducers | hconsumers, -⟩⟩ := hcalls
  · have hstep : step s .close = some { s with
        queue := { s.queue with
          items := s.queue.items.clear
          isClose := true
          call := Function.update s.queue.call .caller .closeProducers }
        phase := .closing } := by
      simp [LogLife.step, callerStep, queueStep, BlockQueue.step, BlockQueue.start, hphase, hidle]
    refine CanFinish.of_step hstep id ?_
    refine canFinish_of_closeProducers (step_sound hs hstep) rfl (by simp) ?_
    simpa [Waits] using hwaits
  · exact canFinish_of_closeProducers hs hphase hproducers hwaits
  · exact canFinish_of_closeConsumers hs hphase hconsumers hwaits

/-- A writer that is done with its line comes back to the empty queue before `Close` notifies. -/
theorem canFinish_of_closing (hs : Sound s) (hphase : s.phase = .closing) : CanFinish s := by
  have hcalls := hs.calls
  rw [hphase] at hcalls
  have hpop (t : LogLife V) (ht : Sound t) (htphase : t.phase = .closing)
      (hpopping : t.writer = .popping) (hidle : t.queue.call .writer = .idle) : CanFinish t := by
    have htcalls := ht.calls
    rw [htphase] at htcalls
    have hstep : step t (.pop none) = some { t with
        queue := { t.queue with
          condConsumer := t.queue.condConsumer.wait .writer
          call := Function.update t.queue.call .writer .pop }
        writer := .popping } := by
      have hlocked : queueStep t.queue (.pop .writer none) = some { t.queue with
          condConsumer := t.queue.condConsumer.wait .writer
          call := Function.update t.queue.call .writer .pop } := by
        simp [queueStep, BlockQueue.step, BlockQueue.start, hidle, BlockQueue.popLocked,
          Fifo.pop_eq_none.2 htcalls.1]
      show popStep t _ = _
      rw [popStep, hpopping]
      simp only [hlocked, Option.map_some, popped_wait]
    refine CanFinish.of_step hstep id ?_
    refine canFinish_of_waits (step_sound ht hstep) htphase (Or.inr ⟨by simp, ?_⟩)
    exact CondVar.mem_waiting_wait _ _
  have hworks := hs.works
  cases hwriter : s.writer with
  | popping =>
      rw [hwriter] at hworks
      rcases hworks with hidle | hwaiting
      · exact hpop s hs hphase hwriter hidle
      · exact canFinish_of_waits hs hphase (Or.inr hwaiting)
  | storing str =>
      have hstep : step s .store = some { s with
          writer := .popping
          outputs := s.outputs ++ [⟨.writer, str, s.isOpen⟩] } := by
        simp [LogLife.step, hwriter]
      have hidle := hworks.idle (by simp [hwriter])
      exact CanFinish.of_step hstep id (hpop _ (step_sound hs hstep) hphase rfl hidle)
  | returned => exact canFinish_of_waits hs hphase (Or.inl hwriter)

/-! ### The queue can be emptied -/

/-- A section of `Pop` finds somebody to notify, or needs nobody. -/
theorem exists_popLocked (q : BlockQueue Role V) (waiting : Sync.Call V) :
    ∃ woken q', BlockQueue.popLocked q .writer waiting woken = some q' := by
  cases hitems : q.items.pop with
  | none =>
      refine ⟨none, { q with
        condConsumer := q.condConsumer.wait .writer
        call := Function.update q.call .writer waiting }, ?_⟩
      simp only [BlockQueue.popLocked, hitems]
  | some items =>
      obtain ⟨woken, c, hc⟩ := q.condProducer.exists_notifyOne
      refine ⟨woken, { q with
        items, condProducer := c, call := Function.update q.call .writer .idle }, ?_⟩
      simp only [BlockQueue.popLocked, hitems, hc, Option.map_some]

/-- On an open queue that is not empty, a section of `Pop` takes the front. -/
theorem Pops.length_lt {w : Writer V} (h : Pops q q' w) (hopen : q.isClose = false)
    (hqueue : q.items.queue ≠ []) : q'.items.queue.length < q.items.queue.length := by
  cases h with
  | waits c hempty hc => exact absurd hempty hqueue
  | takes c d items i hpop hdelivered =>
      obtain ⟨j, rest, hline, rfl⟩ := Fifo.pop_eq_some hpop
      rw [hline, List.length_cons]
      exact Nat.lt_succ_self rest.length
  | returns c hclose =>
      rw [hopen] at hclose
      exact absurd hclose (by simp)

/-- A writer that is not asleep can take the front of the queue. -/
theorem exists_take (hwriter : s.writer = .popping)
    (hready : s.queue.call .writer = .idle ∨ Awake s) (hopen : s.queue.isClose = false)
    (hqueue : s.queue.items.queue ≠ []) :
    ∃ a s', ¬ Action.Rouses a ∧ step s a = some s' ∧ s'.phase = s.phase ∧
      s'.queue.items.queue.length < s.queue.items.queue.length := by
  rcases hready with hidle | ⟨hcall, hmem⟩
  · obtain ⟨woken, q, hq⟩ := exists_popLocked s.queue .pop
    have hpop : queueStep s.queue (.pop .writer woken) = some q := by
      simp [queueStep, BlockQueue.step, BlockQueue.start, hidle, hq]
    refine ⟨.pop woken, { s with queue := q, writer := popped s.queue q }, id, ?_, rfl,
      (pop_pops hpop).2.length_lt hopen hqueue⟩
    show popStep s _ = _
    rw [popStep, hwriter]
    simp only [hpop, Option.map_some]
  · obtain ⟨c, hc⟩ : ∃ c, s.queue.condConsumer.resume .writer = some c := ⟨_, if_pos hmem⟩
    obtain ⟨woken, q, hq⟩ := exists_popLocked { s.queue with condConsumer := c } .pop
    have hresume : queueStep s.queue (.resume .writer false woken) = some q := by
      simpa [queueStep, BlockQueue.step, BlockQueue.resumeLocked, hcall, hc, hopen] using hq
    refine ⟨.resume woken, { s with queue := q, writer := popped s.queue q }, id, ?_, rfl,
      (resume_pops hcall hresume).2.length_lt hopen hqueue⟩
    show popStep s _ = _
    rw [popStep, hwriter]
    simp only [hresume, Option.map_some]

/-- `~Log` sees that the queue is not empty and calls `Flush`: a writer that slept is on its way. -/
theorem exists_flush (hphase : s.phase = .looping) (hqueue : s.queue.items.queue ≠ [])
    (hcall : s.queue.call .writer = .pop) (hblocked : .writer ∈ s.queue.condConsumer.blocked) :
    ∃ s', run step s [.empty, .flush (some .writer)] = some s' ∧ s'.phase = .looping ∧
      s'.writer = s.writer ∧ s'.queue.items = s.queue.items ∧ Awake s' := by
  refine ⟨{ s with
    queue := { s.queue with condConsumer := s.queue.condConsumer.notify .writer }
    phase := .looping }, ?_, rfl, rfl, rfl, hcall, ?_⟩
  · simp [LogLife.step, callerStep, queueStep, BlockQueue.step, hphase, hqueue, CondVar.notifyOne,
      hblocked]
  · simp [CondVar.notify]

/-- By induction on the length of the queue. -/
theorem canFinish_of_looping (n : ℕ) : ∀ s : LogLife V, Sound s → s.phase = .looping →
    s.queue.items.queue.length = n → CanFinish s := by
  induction n using Nat.strong_induction_on with
  | _ n ih =>
    intro s hs hphase hlength
    by_cases hqueue : s.queue.items.queue = []
    · have hstep : step s .empty = some { s with phase := .closing } := by
        simp [LogLife.step, hphase, hqueue]
      exact CanFinish.of_step hstep id (canFinish_of_closing (step_sound hs hstep) rfl)
    · have hcalls := hs.calls
      rw [hphase] at hcalls
      have htake (t : LogLife V) (ht : Sound t) (htphase : t.phase = .looping)
          (hitems : t.queue.items = s.queue.items) (hpopping : t.writer = .popping)
          (hready : t.queue.call .writer = .idle ∨ Awake t) : CanFinish t := by
        have htcalls := ht.calls
        rw [htphase] at htcalls
        obtain ⟨a, u, ha, hstep, huphase, hlt⟩ :=
          exists_take hpopping hready htcalls.2 (by rwa [hitems])
        rw [hitems, hlength] at hlt
        exact CanFinish.of_step hstep ha
          (ih _ hlt u (step_sound ht hstep) (huphase.trans htphase) rfl)
      have hworks := hs.works
      cases hwriter : s.writer with
      | popping =>
          rw [hwriter] at hworks
          rcases hworks with hidle | ⟨hcall, hwaiting⟩
          · exact htake s hs hphase rfl hwriter (Or.inl hidle)
          · by_cases hblocked : Role.writer ∈ s.queue.condConsumer.blocked
            · obtain ⟨t, hrun, htphase, htwriter, hitems, hawake⟩ :=
                exists_flush hphase hqueue hcall hblocked
              have ht := Transition.run_invariant (fun _ _ _ hs h => step_sound hs h) hs hrun
              obtain ⟨u, hu, hflush⟩ := Option.bind_eq_some_iff.1 hrun
              obtain ⟨v, hv, hnil⟩ := Option.bind_eq_some_iff.1 hflush
              obtain rfl := Option.some.inj hnil
              exact CanFinish.of_step hu id (CanFinish.of_step hv id
                (htake v ht htphase hitems (htwriter.trans hwriter) (Or.inr hawake)))
            · refine htake s hs hphase rfl hwriter (Or.inr ⟨hcall, ?_⟩)
              simp only [CondVar.waiting, Finset.mem_union] at hwaiting ⊢
              tauto
      | storing str =>
          have hstep : step s .store = some { s with
              writer := .popping
              outputs := s.outputs ++ [⟨.writer, str, s.isOpen⟩] } := by
            simp [LogLife.step, hwriter]
          have hidle := hworks.idle (by simp [hwriter])
          exact CanFinish.of_step hstep id
            (htake _ (step_sound hs hstep) hphase rfl rfl (Or.inl hidle))
      | returned =>
          rw [hwriter] at hworks
          have hopen := hcalls.2
          rw [hworks.2] at hopen
          exact absurd hopen (by simp)

theorem canFinish_of_flushing (hs : Sound s) (hphase : s.phase = .flushing) : CanFinish s := by
  obtain ⟨woken, c, hc⟩ := s.queue.condConsumer.exists_notifyOne
  have hstep : step s (.flush woken) = some { s with
      queue := { s.queue with condConsumer := c }, phase := .looping } := by
    simp [LogLife.step, callerStep, queueStep, BlockQueue.step, hphase, hc]
  exact CanFinish.of_step hstep id (canFinish_of_looping _ _ (step_sound hs hstep) rfl rfl)

/-- **When a log can come to its end.**  From every state of every run, `~Log` can still return
without a thread that wakes by itself, except where `Close` has returned and the writer is neither
over nor on its way out of `wait`: it will sleep in `Pop`, and `~Log` waits for it. -/
theorem can_finish_iff (h : run step init as = some s) : CanFinish s ↔ ¬ Late s := by
  have hs := Sound.of_run h
  constructor
  · exact fun hfinish hlate => hlate.not_canFinish hs hfinish
  · intro hlate
    cases hphase : s.phase with
    | running =>
        have hstep : step s .destroy = some { s with phase := .looping } := by
          simp [LogLife.step, hphase]
        exact CanFinish.of_step hstep id
          (canFinish_of_looping _ _ (step_sound hs hstep) rfl rfl)
    | looping => exact canFinish_of_looping _ s hs hphase rfl
    | flushing => exact canFinish_of_flushing hs hphase
    | closing => exact canFinish_of_closing hs hphase
    | joining =>
        by_cases hreturned : s.writer = .returned
        · exact canFinish_of_returned hphase hreturned
        · by_cases hawake : Awake s
          · exact canFinish_of_awake hs hphase hawake
          · exact absurd ⟨hphase, hreturned, hawake⟩ hlate
    | destroyed => exact ⟨[], s, by simp, rfl, hphase⟩

/-- The writer stores its last line while `Close` runs, and comes back too late. -/
theorem can_finish_iff_sample :
    ∃ s : LogLife ℕ, run step init [.write 7 none, .pop none, .destroy, .empty, .close,
        .notifyProducers, .notifyConsumers, .store, .pop none] = some s ∧
      stored s = [7] ∧ ¬ CanFinish s := by
  obtain ⟨s, h, hstored, hphase, hwriter, hnotified, hroused⟩ : ∃ s : LogLife ℕ,
      run step init [.write 7 none, .pop none, .destroy, .empty, .close, .notifyProducers,
        .notifyConsumers, .store, .pop none] = some s ∧ stored s = [7] ∧ s.phase = .joining ∧
      s.writer = .popping ∧ s.queue.condConsumer.notified = ∅ ∧
      s.queue.condConsumer.roused = ∅ := ⟨_, rfl, rfl, rfl, rfl, rfl, rfl⟩
  refine ⟨s, h, hstored, fun hfinish => (can_finish_iff h).1 hfinish ⟨hphase, ?_, ?_⟩⟩
  · simp [hwriter]
  · rintro ⟨-, hmem⟩
    simp [hnotified, hroused] at hmem

end LogLife
end Logs
end BreUtils
