/-
# Who is woken

As long as the queue is open, its two condition variables are signalled often enough:
while a consumer sleeps there are at least as many notified consumers on their way as
there are items, and while a producer sleeps there are at least as many notified
producers on their way as there are free places (`sleepers_covered`).  So an item that
somebody sleeps for is about to be taken, a place that somebody sleeps for is about to
be filled, and a consumer and a producer never sleep with nobody to wake them
(`sleepers_served`).

One path breaks this.  The timed `Pop` returns `false` as soon as `wait_for` reports a
time-out, and it may do so after it was notified.  Its notification then wakes nobody
(`swallowed`): an item lies in the queue and the consumers sleep on.
-/

import BreUtils.Sync.BlockQueue

namespace BreUtils
namespace Sync

open Lib

variable {T V : Type*} [DecidableEq T]

/-- `condConsumer.wait` and `condConsumer.wait_for`. -/
def Call.Pops : Call V → Prop
  | .pop | .popFor => True
  | _ => False

/-- `condProducer.wait`. -/
def Call.Pushes : Call V → Prop
  | .push _ => True
  | _ => False

namespace BlockQueue

variable {capacity : ℕ} {s s' : BlockQueue T V} {t : T} {item : V} {woken : Option T}

/-! ### Who waits where -/

/-- The threads in `condConsumer` are inside `Pop`, and those in `condProducer` inside `Push`. -/
structure Lodged (s : BlockQueue T V) : Prop where
  consumers : s.condConsumer.Lodges s.call Call.Pops
  producers : s.condProducer.Lodges s.call Call.Pushes

/-- A thread that is inside neither of the two may change its call. -/
theorem Lodged.update {x : Call V} (h : Lodged s) (hpop : ¬ (s.call t).Pops)
    (hpush : ¬ (s.call t).Pushes) : Lodged { s with call := Function.update s.call t x } :=
  ⟨h.consumers.update hpop, h.producers.update hpush⟩

/-- `Push` with the mutex: its thread is in neither of the two waits. -/
theorem pushLocked_lodged (hconsumers : s.condConsumer.Lodges s.call Call.Pops)
    (hpop : ¬ (s.call t).Pops)
    (hproducers : ∀ x, s.condProducer.Lodges (Function.update s.call t x) Call.Pushes)
    (h : pushLocked capacity s t item woken = some s') : Lodged s' := by
  rcases pushLocked_cases h with rfl | ⟨-, c, hc, rfl⟩
  · have hpushes : (Call.push item).Pushes := trivial
    have hwait := (hproducers (s.call t)).wait (t := t) hpushes
    rw [Function.update_eq_self] at hwait
    exact ⟨hconsumers.update hpop, hwait⟩
  · exact ⟨(hconsumers.notifyOne hc).update hpop, hproducers .idle⟩

theorem popLocked_lodged {waiting : Call V} (hwaiting : waiting.Pops)
    (hconsumers : ∀ x, s.condConsumer.Lodges (Function.update s.call t x) Call.Pops)
    (hproducers : s.condProducer.Lodges s.call Call.Pushes) (hpush : ¬ (s.call t).Pushes)
    (h : popLocked s t waiting woken = some s') : Lodged s' := by
  rcases popLocked_cases h with ⟨-, rfl⟩ | ⟨items, c, -, hc, rfl⟩
  · have hwait := (hconsumers (s.call t)).wait (t := t) hwaiting
    rw [Function.update_eq_self] at hwait
    exact ⟨hwait, hproducers.update hpush⟩
  · exact ⟨hconsumers .idle, (hproducers.notifyOne hc).update hpush⟩

theorem resumeLocked_lodged {expired : Bool} (hs : Lodged s)
    (h : resumeLocked capacity s t expired woken = some s') : Lodged s' := by
  rcases resumeLocked_cases h with ⟨item, c, hcall, hc, hpush⟩ | ⟨hcall, c, hc, hpop⟩
  · refine pushLocked_lodged ?_ ?_ ?_ hpush
    · exact hs.consumers
    · simp [hcall, Call.Pops]
    · exact fun x => hs.producers.resume hc
  · have hpops : (s.call t).Pops := by
      rcases hcall with hcall | hcall <;> rw [hcall] <;> trivial
    have hpush : ¬ (s.call t).Pushes := by
      rcases hcall with hcall | hcall <;> simp [hcall, Call.Pushes]
    rcases hpop with rfl | ⟨-, hpop⟩
    · exact ⟨hs.consumers.resume hc, hs.producers.update hpush⟩
    · refine popLocked_lodged hpops ?_ ?_ ?_ hpop
      · exact fun x => hs.consumers.resume hc
      · exact hs.producers
      · exact hpush

theorem step_lodged {a : Action T V} (hs : Lodged s) (h : step capacity s a = some s') :
    Lodged s' := by
  cases a with
  | push t item woken =>
      obtain ⟨hidle, h⟩ := start_eq_some h
      exact pushLocked_lodged hs.consumers (by simp [hidle, Call.Pops])
        (fun x => hs.producers.update (by simp [hidle, Call.Pushes])) h
  | pop t woken =>
      obtain ⟨hidle, h⟩ := start_eq_some h
      have hpops : (Call.pop : Call V).Pops := trivial
      exact popLocked_lodged hpops (fun x => hs.consumers.update (by simp [hidle, Call.Pops]))
        hs.producers (by simp [hidle, Call.Pushes]) h
  | popFor t woken =>
      obtain ⟨hidle, h⟩ := start_eq_some h
      have hpops : (Call.popFor : Call V).Pops := trivial
      exact popLocked_lodged hpops (fun x => hs.consumers.update (by simp [hidle, Call.Pops]))
        hs.producers (by simp [hidle, Call.Pushes]) h
  | resume t expired woken => exact resumeLocked_lodged hs h
  | rouse t =>
      rcases rouse_cases h with ⟨c, hc, rfl⟩ | ⟨c, hc, rfl⟩
      · exact ⟨hs.consumers, hs.producers.rouse hc⟩
      · exact ⟨hs.consumers.rouse hc, hs.producers⟩
  | close t =>
      obtain ⟨hidle, h⟩ := start_eq_some h
      obtain rfl := Option.some.inj h
      have hupdate := hs.update (t := t) (x := .closeProducers) (by simp [hidle, Call.Pops])
        (by simp [hidle, Call.Pushes])
      exact ⟨hupdate.consumers, hupdate.producers⟩
  | notifyProducers t =>
      simp only [step] at h
      split at h
      · rename_i hcall
        obtain rfl := Option.some.inj h
        have hupdate := hs.update (t := t) (x := .closeConsumers) (by simp [hcall, Call.Pops])
          (by simp [hcall, Call.Pushes])
        exact ⟨hupdate.consumers, hupdate.producers.notifyAll⟩
      · exact absurd h (by simp)
  | notifyConsumers t =>
      simp only [step] at h
      split at h
      · rename_i hcall
        obtain rfl := Option.some.inj h
        have hupdate := hs.update (t := t) (x := .idle) (by simp [hcall, Call.Pops])
          (by simp [hcall, Call.Pushes])
        exact ⟨hupdate.consumers.notifyAll, hupdate.producers⟩
      · exact absurd h (by simp)
  | flush woken =>
      obtain ⟨c, hc, rfl⟩ := Option.map_eq_some_iff.1 h
      exact ⟨hs.consumers.notifyOne hc, hs.producers⟩

/-- In every state of every run, whoever waits is inside the call that waits there. -/
theorem run_lodged {as : List (Action T V)}
    (h : Transition.run (step capacity) init as = some s) : Lodged s :=
  Transition.run_invariant (fun _ _ _ hs h => step_lodged hs h)
    ⟨CondVar.Lodges.empty _ _, CondVar.Lodges.empty _ _⟩ h

/-! ### Enough of them are notified -/

/-- A timed `Pop` that was notified reports a time-out all the same. -/
def Swallows (s : BlockQueue T V) : Action T V → Prop
  | .resume t expired _ => expired = true ∧ s.call t = .popFor ∧ t ∈ s.condConsumer.notified
  | _ => False

/-- An item for each notified consumer, or no consumer asleep; and the same of free places and
producers. -/
structure Covered (capacity : ℕ) (s : BlockQueue T V) : Prop where
  consumers : s.condConsumer.Covers s.items.queue.length
  producers : s.condProducer.Covers (capacity - s.items.queue.length)

/-- `Push` fills one of the free places: one notification of a producer may be gone before it. -/
theorem pushLocked_covered (hconsumers : s.condConsumer.Covers s.items.queue.length)
    (hproducers : s.condProducer.Covers (capacity - s.items.queue.length - 1))
    (h : pushLocked capacity s t item woken = some s') : Covered capacity s' := by
  unfold pushLocked at h
  split_ifs at h with hfull
  · obtain rfl := Option.some.inj h
    refine ⟨hconsumers, ?_⟩
    show (s.condProducer.wait t).Covers (capacity - s.items.queue.length)
    rw [Nat.sub_eq_zero_of_le hfull]
    exact CondVar.Covers.zero _
  · obtain ⟨c, hc, rfl⟩ := Option.map_eq_some_iff.1 h
    have hlength : (s.items.push item).queue.length = s.items.queue.length + 1 :=
      Fifo.length_push ..
    refine ⟨?_, ?_⟩
    · show c.Covers (s.items.push item).queue.length
      rw [hlength]
      exact hconsumers.notifyOne hc
    · show s.condProducer.Covers (capacity - (s.items.push item).queue.length)
      refine hproducers.mono ?_
      omega

/-- `Pop` takes one of the items: one notification of a consumer may be gone before it. -/
theorem popLocked_covered {waiting : Call V}
    (hconsumers : s.condConsumer.Covers (s.items.queue.length - 1))
    (hproducers : s.condProducer.Covers (capacity - s.items.queue.length))
    (h : popLocked s t waiting woken = some s') : Covered capacity s' := by
  rcases popLocked_cases h with ⟨hempty, rfl⟩ | ⟨items, c, hpop, hc, rfl⟩
  · refine ⟨?_, hproducers⟩
    show (s.condConsumer.wait t).Covers s.items.queue.length
    rw [hempty]
    exact CondVar.Covers.zero _
  · obtain ⟨i, rest, hqueue, rfl⟩ := Fifo.pop_eq_some hpop
    rw [hqueue, List.length_cons] at hconsumers hproducers
    refine ⟨hconsumers, ?_⟩
    show c.Covers (capacity - rest.length)
    refine (hproducers.notifyOne hc).mono ?_
    omega

theorem resumeLocked_covered {expired : Bool} (hs : Covered capacity s)
    (hopen : s.isClose = false) (hswallow : ¬ Swallows s (.resume t expired woken))
    (h : resumeLocked capacity s t expired woken = some s') : Covered capacity s' := by
  unfold resumeLocked at h
  split at h
  · obtain ⟨c, hc, hpush⟩ := Option.bind_eq_some_iff.1 h
    refine pushLocked_covered ?_ ?_ hpush
    · exact hs.consumers
    · exact hs.producers.resume hc
  · obtain ⟨c, hc, h⟩ := Option.bind_eq_some_iff.1 h
    rw [if_neg (by simp [hopen])] at h
    refine popLocked_covered ?_ ?_ h
    · exact hs.consumers.resume hc
    · exact hs.producers
  · rename_i hcall
    obtain ⟨c, hc, h⟩ := Option.bind_eq_some_iff.1 h
    split_ifs at h with hexpired hclose
    · -- a time-out takes no notification away: the thread woke by itself
      obtain rfl := Option.some.inj h
      exact ⟨hs.consumers.resume_of_notMem hc fun ht => hswallow ⟨hexpired, hcall, ht⟩,
        hs.producers⟩
    · exact absurd hclose (by simp [hopen])
    · refine popLocked_covered ?_ ?_ h
      · exact hs.consumers.resume hc
      · exact hs.producers
  · exact absurd h (by simp)

theorem step_isClose {a : Action T V} (h : step capacity s a = some s')
    (hopen : s'.isClose = false) : s.isClose = false := by
  rcases step_items h with ⟨hclose, -⟩ | ⟨hclose, -⟩
  · rw [← hclose, hopen]
  · rw [hopen] at hclose
    exact absurd hclose (by simp)

/-- **Each step signals often enough**, unless it swallows a notification. -/
theorem step_covered {a : Action T V} (hs : s.isClose = false → Covered capacity s)
    (hswallow : ¬ Swallows s a) (h : step capacity s a = some s') (hopen' : s'.isClose = false) :
    Covered capacity s' := by
  have hopen := step_isClose h hopen'
  specialize hs hopen
  cases a with
  | push t item woken =>
      exact pushLocked_covered hs.consumers (hs.producers.mono (Nat.sub_le _ 1))
        (start_eq_some h).2
  | pop t woken =>
      exact popLocked_covered (hs.consumers.mono (Nat.sub_le _ 1)) hs.producers
        (start_eq_some h).2
  | popFor t woken =>
      exact popLocked_covered (hs.consumers.mono (Nat.sub_le _ 1)) hs.producers
        (start_eq_some h).2
  | resume t expired woken => exact resumeLocked_covered hs hopen hswallow h
  | rouse t =>
      rcases rouse_cases h with ⟨c, hc, rfl⟩ | ⟨c, hc, rfl⟩
      · exact ⟨hs.consumers, hs.producers.rouse hc⟩
      · exact ⟨hs.consumers.rouse hc, hs.producers⟩
  | close t =>
      obtain rfl := Option.some.inj (start_eq_some h).2
      exact absurd hopen' (by simp)
  | notifyProducers t =>
      obtain rfl := notifyProducers_eq_some h
      exact ⟨hs.consumers, CondVar.Covers.notifyAll _ _⟩
  | notifyConsumers t =>
      obtain rfl := notifyConsumers_eq_some h
      exact ⟨CondVar.Covers.notifyAll _ _, hs.producers⟩
  | flush woken =>
      obtain ⟨c, hc, rfl⟩ := Option.map_eq_some_iff.1 h
      exact ⟨(hs.consumers.notifyOne hc).mono (Nat.le_succ _), hs.producers⟩

theorem run_covered {as : List (Action T V)}
    (h : Transition.run (step capacity) init as = some s) (hopen : s.isClose = false)
    (hswallow : Transition.Meets (step capacity) (fun s a => ¬ Swallows s a) init as) :
    Covered capacity s :=
  Transition.run_invariant_of_meets (I := fun s => s.isClose = false → Covered capacity s)
    (fun _ _ _ hs ha h => step_covered hs ha h)
    (fun _ => ⟨CondVar.Covers.zero _, Or.inl rfl⟩) hswallow h hopen

/-- **Nobody is overlooked.**  In every run of an open queue in which no timed `Pop` swallows a
notification: if a consumer sleeps, the items in the queue are no more than the notified consumers
on their way to them; if a producer sleeps, the free places are no more than the notified
producers. -/
theorem sleepers_covered {as : List (Action T V)}
    (h : Transition.run (step capacity) init as = some s) (hopen : s.isClose = false)
    (hswallow : Transition.Meets (step capacity) (fun s a => ¬ Swallows s a) init as) :
    (s.condConsumer.blocked.Nonempty → s.items.queue.length ≤ s.condConsumer.notified.card) ∧
      (s.condProducer.blocked.Nonempty →
        capacity ≤ s.items.queue.length + s.condProducer.notified.card) := by
  obtain ⟨hconsumers, hproducers⟩ := run_covered h hopen hswallow
  constructor
  · exact fun hblocked => hconsumers.resolve_left hblocked.ne_empty
  · intro hblocked
    have hle := hproducers.resolve_left hblocked.ne_empty
    omega

/-- Two consumers that sleep, and an item for the one of them that is notified. -/
theorem sleepers_covered_sample :
    ∃ s : BlockQueue ℕ ℕ, Transition.run (step 2) init
        [.pop 1 none, .popFor 2 none, .push 0 7 (some 2)] = some s ∧
      s.condConsumer.blocked = {1} ∧ s.condConsumer.notified = {2} ∧
      s.items.queue.length ≤ s.condConsumer.notified.card := by
  obtain ⟨s, h, hopen, hblocked, hnotified⟩ : ∃ s : BlockQueue ℕ ℕ, Transition.run (step 2) init
      [.pop 1 none, .popFor 2 none, .push 0 7 (some 2)] = some s ∧ s.isClose = false ∧
      s.condConsumer.blocked = {1} ∧ s.condConsumer.notified = {2} := ⟨_, rfl, rfl, rfl, rfl⟩
  refine ⟨s, h, hblocked, hnotified, (sleepers_covered h hopen ?_).1 ?_⟩
  · exact .cons id rfl (.cons id rfl (.cons id rfl trivial))
  · exact hblocked ▸ Finset.singleton_nonempty 1

/-! ### The notified ones do what the sleepers wait for -/

/-- A notified consumer that gets the mutex takes the front of the queue. -/
theorem resume_takes (hs : Lodged s) (hopen : s.isClose = false) (hqueue : s.items.queue ≠ [])
    (ht : t ∈ s.condConsumer.notified) :
    ∃ woken s', step capacity s (.resume t false woken) = some s' ∧
      s.items.pop = some s'.items := by
  obtain ⟨c, hc⟩ := CondVar.resume_of_mem_notified ht
  obtain ⟨woken, d, hd⟩ := s.condProducer.exists_notifyOne
  have hcall := hs.consumers.call_of_mem t
    (Finset.mem_union_left _ (Finset.mem_union_right _ ht))
  have hpop : s.items.pop ≠ none := fun hnone => hqueue (Fifo.pop_eq_none.1 hnone)
  obtain ⟨items, hitems⟩ := Option.ne_none_iff_exists'.1 hpop
  refine ⟨woken, { s with
    items, condConsumer := c, condProducer := d, call := Function.update s.call t .idle }, ?_,
    hitems⟩
  show resumeLocked capacity s t false woken = _
  unfold resumeLocked
  cases hx : s.call t with
  | pop => simp [hc, hopen, popLocked, hitems, hd]
  | popFor => simp [hc, hopen, popLocked, hitems, hd]
  | idle | push | closeProducers | closeConsumers => exact absurd hcall (by simp [hx, Call.Pops])

/-- A notified producer that gets the mutex enqueues its item if there is room. -/
theorem resume_enqueues (hs : Lodged s) (hroom : s.items.queue.length < capacity)
    (ht : t ∈ s.condProducer.notified) :
    ∃ item woken s', s.call t = .push item ∧
      step capacity s (.resume t false woken) = some s' ∧ s'.items = s.items.push item := by
  obtain ⟨c, hc⟩ := CondVar.resume_of_mem_notified ht
  obtain ⟨woken, d, hd⟩ := s.condConsumer.exists_notifyOne
  have hcall := hs.producers.call_of_mem t
    (Finset.mem_union_left _ (Finset.mem_union_right _ ht))
  cases hx : s.call t with
  | push item =>
      refine ⟨item, woken, { s with
        items := s.items.push item, condConsumer := d, condProducer := c
        call := Function.update s.call t .idle }, rfl, ?_, rfl⟩
      show resumeLocked capacity s t false woken = _
      simp [resumeLocked, hx, hc, pushLocked, hd, Nat.not_le.2 hroom]
  | idle | pop | popFor | closeProducers | closeConsumers =>
      exact absurd hcall (by simp [hx, Call.Pushes])

/-- The front of the queue is for a notified consumer, while another one sleeps. -/
theorem consumer_served (hlodged : Lodged s) (hopen : s.isClose = false)
    (hs : Covered capacity s) (hblocked : s.condConsumer.blocked.Nonempty)
    (hqueue : s.items.queue ≠ []) :
    ∃ t ∈ s.condConsumer.notified, ∃ woken s',
      step capacity s (.resume t false woken) = some s' ∧ s.items.pop = some s'.items := by
  have hle := hs.consumers.resolve_left hblocked.ne_empty
  have hpos := List.length_pos_iff.2 hqueue
  obtain ⟨t, ht⟩ := Finset.card_pos.1 (hpos.trans_le hle)
  exact ⟨t, ht, resume_takes hlodged hopen hqueue ht⟩

/-- A free place is for a notified producer, while another one sleeps. -/
theorem producer_served (hlodged : Lodged s) (hs : Covered capacity s)
    (hblocked : s.condProducer.blocked.Nonempty) (hroom : s.items.queue.length < capacity) :
    ∃ t ∈ s.condProducer.notified, ∃ item woken s', s.call t = .push item ∧
      step capacity s (.resume t false woken) = some s' ∧ s'.items = s.items.push item := by
  have hle := hs.producers.resolve_left hblocked.ne_empty
  obtain ⟨t, ht⟩ := Finset.card_pos.1 ((Nat.sub_pos_of_lt hroom).trans_le hle)
  exact ⟨t, ht, resume_enqueues hlodged hroom ht⟩

/-- **What a sleeper waits for is under way.**  In the same runs: while a consumer sleeps and the
queue is not empty, some notified consumer can move, and its move takes the front; while a producer
sleeps and there is room, some notified producer can move, and its move enqueues its item. -/
theorem sleepers_served {as : List (Action T V)}
    (h : Transition.run (step capacity) init as = some s) (hopen : s.isClose = false)
    (hswallow : Transition.Meets (step capacity) (fun s a => ¬ Swallows s a) init as) :
    (s.condConsumer.blocked.Nonempty → s.items.queue ≠ [] →
        ∃ t ∈ s.condConsumer.notified, ∃ woken s',
          step capacity s (.resume t false woken) = some s' ∧ s.items.pop = some s'.items) ∧
      (s.condProducer.blocked.Nonempty → s.items.queue.length < capacity →
        ∃ t ∈ s.condProducer.notified, ∃ item woken s', s.call t = .push item ∧
          step capacity s (.resume t false woken) = some s' ∧
          s'.items = s.items.push item) := by
  have hlodged := run_lodged h
  have hs := run_covered h hopen hswallow
  exact ⟨consumer_served hlodged hopen hs, producer_served hlodged hs⟩

/-- A queue of two places.  Three consumers sleep, two items come and two more producers wait, and
the first consumer takes an item. -/
def bothAsleep : List (Action ℕ ℕ) :=
  [.pop 4 none, .pop 5 none, .pop 6 none, .push 0 7 (some 4), .push 1 8 (some 5), .push 2 9 none,
    .push 3 10 none, .resume 4 false (some 2)]

theorem sleepers_served_sample :
    ∃ s : BlockQueue ℕ ℕ, Transition.run (step 2) init bothAsleep = some s ∧
      (∃ t ∈ s.condConsumer.notified, ∃ woken s',
        step 2 s (.resume t false woken) = some s' ∧ s.items.pop = some s'.items) ∧
      ∃ t ∈ s.condProducer.notified, ∃ item woken s', s.call t = .push item ∧
        step 2 s (.resume t false woken) = some s' ∧ s'.items = s.items.push item := by
  obtain ⟨s, h, hopen, hconsumer, hqueue, hproducer, hroom⟩ : ∃ s : BlockQueue ℕ ℕ,
      Transition.run (step 2) init bothAsleep = some s ∧ s.isClose = false ∧
      6 ∈ s.condConsumer.blocked ∧ s.items.queue ≠ [] ∧ 3 ∈ s.condProducer.blocked ∧
      s.items.queue.length < 2 := ⟨_, rfl, rfl, by decide, by decide, by decide, by decide⟩
  obtain ⟨hserved, hserved'⟩ := sleepers_served h hopen (.cons id rfl (.cons id rfl
    (.cons id rfl (.cons id rfl (.cons id rfl (.cons id rfl (.cons id rfl (.cons
      (fun hswallow => absurd hswallow (by simp [Swallows])) rfl trivial))))))))
  exact ⟨s, h, hserved ⟨6, hconsumer⟩ hqueue, hserved' ⟨3, hproducer⟩ hroom⟩

/-- **A consumer and a producer do not sleep with nobody to wake them**: some thread can move, and
its move puts an item in or takes one out. -/
theorem no_standstill {as : List (Action T V)} (hcapacity : 0 < capacity)
    (h : Transition.run (step capacity) init as = some s) (hopen : s.isClose = false)
    (hswallow : Transition.Meets (step capacity) (fun s a => ¬ Swallows s a) init as)
    (hconsumer : s.condConsumer.blocked.Nonempty) (hproducer : s.condProducer.blocked.Nonempty) :
    ∃ t woken s', step capacity s (.resume t false woken) = some s' ∧
      (s.items.pop = some s'.items ∨ ∃ item, s'.items = s.items.push item) := by
  have hlodged := run_lodged h
  have hs := run_covered h hopen hswallow
  by_cases hqueue : s.items.queue = []
  · have hroom : s.items.queue.length < capacity := by rwa [hqueue, List.length_nil]
    obtain ⟨t, -, item, woken, s', -, hstep, hitems⟩ := producer_served hlodged hs hproducer hroom
    exact ⟨t, woken, s', hstep, Or.inr ⟨item, hitems⟩⟩
  · obtain ⟨t, -, woken, s', hstep, hitems⟩ :=
      consumer_served hlodged hopen hs hconsumer hqueue
    exact ⟨t, woken, s', hstep, Or.inl hitems⟩

/-- **A time-out can swallow a notification.**  Thread 1 sleeps in the timed `Pop`, thread 2 in the
untimed one; an item comes, thread 1 is notified and reports a time-out: the item stays, thread 2
sleeps, and nobody is on the way. -/
theorem swallowed :
    ∃ s : BlockQueue ℕ ℕ, Transition.run (step 1024) init
        [.popFor 1 none, .pop 2 none, .push 0 7 (some 1), .resume 1 true none] = some s ∧
      s.isClose = false ∧ s.items.queue = [⟨0, 7⟩] ∧ s.condConsumer.blocked = {2} ∧
      s.condConsumer.notified = ∅ ∧ s.condConsumer.roused = ∅ :=
  ⟨_, rfl, rfl, rfl, rfl, rfl, rfl⟩

end BlockQueue
end Sync
end BreUtils
