/-
# What `Close` leaves behind

`BlockQueue::Close` empties the queue, sets `isClose`, and wakes every thread that
waits.  Two things are expected of it: that no consumer is left asleep, and that the
queue stays empty.  Both hold of a thread that waits when `Close` runs, and both fail
of one that comes later.

A `Pop` looks at `isClose` only when it is back from `wait`.  One that comes to an
empty, closed queue waits, and nobody wakes it (`stranded_after_close`).  That is the
only way: as long as no `Pop` goes to sleep on a queue whose `Close` has already
notified the consumers, no consumer is ever stranded (`not_stranded`).

A `Push` never looks at `isClose`.  One that finds room enqueues, and a later `Pop`
hands the item out (`push_after_close`).  That too is the only way: as long as no
`Push` enqueues on a closed queue, the queue stays empty and no `Pop` succeeds
(`close_final`).
-/

import BreUtils.Sync.BlockQueue

namespace BreUtils
namespace Sync
namespace BlockQueue

open Lib

variable {T V : Type*} [DecidableEq T] {capacity : ℕ} {s s' : BlockQueue T V} {t u : T}
  {item : V} {woken : Option T}

/-! ### Consumers that sleep -/

/-- A `Close` is between its section and `condConsumer.notify_all()`. -/
def Closing (s : BlockQueue T V) : Prop :=
  ∃ t, s.call t = .closeProducers ∨ s.call t = .closeConsumers

/-- A thread sleeps in the untimed `Pop`. -/
def Sleeps (s : BlockQueue T V) (t : T) : Prop :=
  s.call t = .pop ∧ t ∈ s.condConsumer.blocked

/-- It sleeps though the queue is closed, and no wake-up is on its way. -/
def Stranded (s : BlockQueue T V) (t : T) : Prop :=
  Sleeps s t ∧ s.isClose = true ∧ ¬ Closing s

/-- An untimed `Pop` starts to wait: it finds the queue empty. -/
def StartsToWait (s : BlockQueue T V) : Action T V → Prop
  | .pop _ _ => s.items.queue = []
  | _ => False

/-- A thread whose call is changed to something else had the call before. -/
theorem call_of_update {f : T → Call V} {x y : Call V} (h : Function.update f t x u = y)
    (hx : x ≠ y) : f u = y := by
  by_cases hu : u = t
  · subst hu
    rw [Function.update_self] at h
    exact absurd h hx
  · rwa [Function.update_of_ne hu] at h

theorem pushLocked_sleeps (h : pushLocked capacity s t item woken = some s')
    (hu : Sleeps s' u) : Sleeps s u := by
  rcases pushLocked_cases h with rfl | ⟨-, c, hc, rfl⟩
  · exact ⟨call_of_update hu.1 (by simp), hu.2⟩
  · exact ⟨call_of_update hu.1 (by simp), CondVar.notifyOne_blocked hc hu.2⟩

/-- Only an untimed `Pop` on an empty queue puts a thread to sleep. -/
theorem popLocked_sleeps {waiting : Call V} (h : popLocked s t waiting woken = some s')
    (hu : Sleeps s' u) : Sleeps s u ∨ (waiting = .pop ∧ s.items.queue = []) := by
  rcases popLocked_cases h with ⟨hempty, rfl⟩ | ⟨items, c, -, -, rfl⟩
  · by_cases hut : u = t
    · subst hut
      have hcall : Function.update s.call u waiting u = .pop := hu.1
      rw [Function.update_self] at hcall
      exact Or.inr ⟨hcall, hempty⟩
    · have hcall : Function.update s.call t waiting u = .pop := hu.1
      rw [Function.update_of_ne hut] at hcall
      exact Or.inl ⟨hcall, Finset.mem_of_mem_insert_of_ne hu.2 hut⟩
  · exact Or.inl ⟨call_of_update hu.1 (by simp), hu.2⟩

/-- Taking the mutex back from `condConsumer` puts nobody to sleep. -/
theorem sleeps_of_resume {c : CondVar T} (hc : s.condConsumer.resume t = some c)
    (hu : Sleeps { s with condConsumer := c } u) : Sleeps s u :=
  ⟨hu.1, (CondVar.resume_eq_some hc).1 ▸ hu.2⟩

theorem leave_sleeps (hu : Sleeps (leave s t) u) : Sleeps s u :=
  ⟨call_of_update hu.1 (by simp), hu.2⟩

/-- A `Pop` that is back from `wait` goes to sleep again only if the queue is open. -/
theorem resumeLocked_sleeps {expired : Bool}
    (h : resumeLocked capacity s t expired woken = some s') (hu : Sleeps s' u) :
    Sleeps s u ∨ s.isClose = false := by
  rcases resumeLocked_cases h with ⟨item, c, -, -, hpush⟩ | ⟨-, c, hc, rfl | ⟨hopen, -⟩⟩
  · have hsleeps := pushLocked_sleeps hpush hu
    exact Or.inl hsleeps
  · exact Or.inl (sleeps_of_resume hc (leave_sleeps hu))
  · exact Or.inr hopen

/-- **Who sleeps after a step slept before it, or has just gone to sleep**: at the start of a `Pop`,
or back from `wait` on a queue that is open. -/
theorem step_sleeps {a : Action T V} (h : step capacity s a = some s') (hu : Sleeps s' u) :
    Sleeps s u ∨ StartsToWait s a ∨ s.isClose = false := by
  cases a with
  | push t item woken => exact Or.inl (pushLocked_sleeps (start_eq_some h).2 hu)
  | pop t woken =>
      exact (popLocked_sleeps (start_eq_some h).2 hu).imp_right fun hempty => Or.inl hempty.2
  | popFor t woken =>
      refine (popLocked_sleeps (start_eq_some h).2 hu).imp_right fun hempty => ?_
      exact absurd hempty.1 (by simp)
  | resume t expired woken => exact (resumeLocked_sleeps h hu).imp_right Or.inr
  | rouse t =>
      rcases rouse_cases h with ⟨c, -, rfl⟩ | ⟨c, hc, rfl⟩
      · exact Or.inl hu
      · exact Or.inl ⟨hu.1, Finset.mem_of_mem_erase ((CondVar.rouse_eq_some hc).1 ▸ hu.2)⟩
  | close t =>
      obtain rfl := Option.some.inj (start_eq_some h).2
      exact Or.inl ⟨call_of_update hu.1 (by simp), hu.2⟩
  | notifyProducers t =>
      obtain rfl := notifyProducers_eq_some h
      exact Or.inl ⟨call_of_update hu.1 (by simp), hu.2⟩
  | notifyConsumers t =>
      obtain rfl := notifyConsumers_eq_some h
      exact absurd hu.2 (Finset.notMem_empty u)
  | flush woken =>
      obtain ⟨c, hc, rfl⟩ := Option.map_eq_some_iff.1 h
      exact Or.inl ⟨hu.1, CondVar.notifyOne_blocked hc hu.2⟩

/-! ### A `Close` under way -/

theorem pushLocked_call (h : pushLocked capacity s t item woken = some s') :
    ∃ x, s'.call = Function.update s.call t x := by
  rcases pushLocked_cases h with rfl | ⟨-, c, -, rfl⟩
  · exact ⟨_, rfl⟩
  · exact ⟨_, rfl⟩

theorem popLocked_call {waiting : Call V} (h : popLocked s t waiting woken = some s') :
    ∃ x, s'.call = Function.update s.call t x := by
  rcases popLocked_cases h with ⟨-, rfl⟩ | ⟨items, c, -, -, rfl⟩
  · exact ⟨_, rfl⟩
  · exact ⟨_, rfl⟩

theorem resumeLocked_call {expired : Bool}
    (h : resumeLocked capacity s t expired woken = some s') :
    s.call t ≠ .closeProducers ∧ s.call t ≠ .closeConsumers ∧
      ∃ x, s'.call = Function.update s.call t x := by
  rcases resumeLocked_cases h with ⟨item, c, hcall, -, hpush⟩ | ⟨hcall, c, -, hpop⟩
  · have hupdate := pushLocked_call hpush
    exact ⟨by simp [hcall], by simp [hcall], hupdate⟩
  · refine ⟨by rcases hcall with hcall | hcall <;> simp [hcall],
      by rcases hcall with hcall | hcall <;> simp [hcall], ?_⟩
    rcases hpop with rfl | ⟨-, hpop⟩
    · exact ⟨_, rfl⟩
    · have hupdate := popLocked_call hpop
      exact hupdate

/-- A step of a thread that is not inside `Close` leaves the `Close` of another thread alone. -/
theorem closing_of_update {x : Call V} (hcall : s'.call = Function.update s.call t x)
    (hproducers : s.call t ≠ .closeProducers) (hconsumers : s.call t ≠ .closeConsumers)
    (h : Closing s) : Closing s' := by
  obtain ⟨u, hu⟩ := h
  have hut : u ≠ t := by
    rintro rfl
    exact hu.elim hproducers hconsumers
  refine ⟨u, ?_⟩
  rw [hcall, Function.update_of_ne hut]
  exact hu

theorem closing_of_idle {x : Call V} (hcall : s'.call = Function.update s.call t x)
    (hidle : s.call t = .idle) (h : Closing s) : Closing s' :=
  closing_of_update hcall (by simp [hidle]) (by simp [hidle]) h

/-- **A `Close` that is under way stays so until it has woken every consumer.** -/
theorem step_closing {a : Action T V} (h : step capacity s a = some s') (hs : Closing s) :
    Closing s' ∨ s'.condConsumer.blocked = ∅ := by
  cases a with
  | push t item woken =>
      obtain ⟨hidle, h⟩ := start_eq_some h
      obtain ⟨x, hcall⟩ := pushLocked_call h
      exact Or.inl (closing_of_idle hcall hidle hs)
  | pop t woken =>
      obtain ⟨hidle, h⟩ := start_eq_some h
      obtain ⟨x, hcall⟩ := popLocked_call h
      exact Or.inl (closing_of_idle hcall hidle hs)
  | popFor t woken =>
      obtain ⟨hidle, h⟩ := start_eq_some h
      obtain ⟨x, hcall⟩ := popLocked_call h
      exact Or.inl (closing_of_idle hcall hidle hs)
  | resume t expired woken =>
      obtain ⟨hproducers, hconsumers, x, hcall⟩ := resumeLocked_call h
      exact Or.inl (closing_of_update hcall hproducers hconsumers hs)
  | rouse t =>
      rcases rouse_cases h with ⟨c, -, rfl⟩ | ⟨c, -, rfl⟩
      · exact Or.inl hs
      · exact Or.inl hs
  | close t =>
      obtain rfl := Option.some.inj (start_eq_some h).2
      exact Or.inl ⟨_, Or.inl (Function.update_self ..)⟩
  | notifyProducers t =>
      obtain rfl := notifyProducers_eq_some h
      exact Or.inl ⟨_, Or.inr (Function.update_self ..)⟩
  | notifyConsumers t =>
      obtain rfl := notifyConsumers_eq_some h
      exact Or.inr rfl
  | flush woken =>
      obtain ⟨c, -, rfl⟩ := Option.map_eq_some_iff.1 h
      exact Or.inl hs

/-! ### Nobody is stranded, unless a `Pop` comes too late -/

/-- A `Pop` goes to sleep on a closed queue whose `Close` has already notified the consumers. -/
def PopsTooLate (s : BlockQueue T V) (a : Action T V) : Prop :=
  StartsToWait s a ∧ s.isClose = true ∧ ¬ Closing s

/-- In a closed queue nobody sleeps, or the wake-up of a `Close` is on its way. -/
def Served (s : BlockQueue T V) : Prop :=
  s.isClose = true → Closing s ∨ ∀ u, ¬ Sleeps s u

theorem step_served {a : Action T V} (hs : Served s) (ha : ¬ PopsTooLate s a)
    (h : step capacity s a = some s') : Served s' := by
  intro hclose'
  by_cases hclosing : Closing s
  · refine (step_closing h hclosing).imp_right fun hempty u hu => ?_
    rw [Sleeps, hempty] at hu
    exact Finset.notMem_empty u hu.2
  · rcases step_items h with ⟨hclose, -⟩ | ⟨-, -, t, ht⟩
    · rw [hclose'] at hclose
      have hnone := (hs hclose.symm).resolve_left hclosing
      refine Or.inr fun u hu => ?_
      rcases step_sleeps h hu with hsleeps | hwait | hopen
      · exact hnone u hsleeps
      · exact ha ⟨hwait, hclose.symm, hclosing⟩
      · rw [hopen] at hclose
        exact absurd hclose (by simp)
    · exact Or.inl ⟨t, Or.inl ht⟩

/-- **`Close` strands no consumer that is there.**  In every run in which no untimed `Pop` goes to
sleep on a queue that is closed and whose consumers have been notified, no thread sleeps in the
untimed `Pop` of a closed queue without a wake-up on its way. -/
theorem not_stranded {as : List (Action T V)} (h : Transition.run (step capacity) init as = some s)
    (hlate : Transition.Meets (step capacity) (fun s a => ¬ PopsTooLate s a) init as) (t : T) :
    ¬ Stranded s t := by
  rintro ⟨hsleeps, hclose, hclosing⟩
  have hinit : Served (init : BlockQueue T V) := by
    intro hopen
    exact absurd hopen (by simp [init])
  have hserved := Transition.run_invariant_of_meets (I := Served)
    (fun _ _ _ hs ha h => step_served hs ha h) hinit hlate h
  exact ((hserved hclose).resolve_left hclosing) t hsleeps

/-- Two consumers sleep when `Close` runs, and both are woken. -/
theorem not_stranded_sample :
    ∃ s : BlockQueue ℕ ℕ, Transition.run (step 1024) init
        [.pop 1 none, .pop 2 none, .close 0, .notifyProducers 0, .notifyConsumers 0] = some s ∧
      s.call 1 = .pop ∧ s.call 2 = .pop ∧ s.isClose = true ∧ ∀ t, ¬ Stranded s t := by
  obtain ⟨s, h, hfirst, hsecond, hclose⟩ : ∃ s : BlockQueue ℕ ℕ, Transition.run (step 1024) init
      [.pop 1 none, .pop 2 none, .close 0, .notifyProducers 0, .notifyConsumers 0] = some s ∧
      s.call 1 = .pop ∧ s.call 2 = .pop ∧ s.isClose = true := ⟨_, rfl, rfl, rfl, rfl⟩
  refine ⟨s, h, hfirst, hsecond, hclose, not_stranded h ?_⟩
  refine .cons (fun hlate => absurd hlate.2.1 (by simp [init])) rfl (.cons ?_ rfl ?_)
  · exact fun hlate => absurd hlate.2.1 (by simp [init])
  · exact .cons And.left rfl (.cons And.left rfl (.cons And.left rfl trivial))

/-- **A `Pop` that comes after `Close` sleeps for good.** -/
theorem stranded_after_close :
    ∃ s : BlockQueue ℕ ℕ, Transition.run (step 1024) init
      [.close 0, .notifyProducers 0, .notifyConsumers 0, .pop 1 none] = some s ∧
      Stranded s 1 := by
  refine ⟨_, rfl, ⟨rfl, by decide⟩, rfl, ?_⟩
  rintro ⟨t, ht⟩
  simp only [Function.update_apply, init] at ht
  split_ifs at ht <;> simp at ht

/-! ### The queue stays empty, unless a `Push` comes too late -/

/-- What a step keeps on a closed queue, if no push enqueues. -/
theorem step_closed {a : Action T V} (hclose : s.isClose = true) (hqueue : s.items.queue = [])
    (hpush : ¬ Enqueues capacity s a) (h : step capacity s a = some s') :
    s'.isClose = true ∧ s'.items.queue = [] ∧ s'.items.delivered = s.items.delivered := by
  rcases step_items h with ⟨hclose', hitems | ⟨henqueues, -⟩ | hpop⟩ | ⟨hclose', hitems, -⟩
  · rw [hclose', hitems]
    exact ⟨hclose, hqueue, rfl⟩
  · exact absurd henqueues hpush
  · rw [Fifo.pop_eq_none.2 hqueue] at hpop
    exact absurd hpop (by simp)
  · rw [hclose', hitems]
    exact ⟨rfl, rfl, rfl⟩

/-- `Close` empties the queue. -/
theorem step_close_queue {a : Action T V} (hs : s.isClose = true → s.items.queue = [])
    (hpush : s.isClose = true → ¬ Enqueues capacity s a) (h : step capacity s a = some s') :
    s'.isClose = true → s'.items.queue = [] := by
  intro hclose'
  cases hclose : s.isClose with
  | true => exact (step_closed hclose (hs hclose) (hpush hclose) h).2.1
  | false =>
      rcases step_items h with ⟨hsame, -⟩ | ⟨-, hitems, -⟩
      · rw [hclose', hclose] at hsame
        exact absurd hsame (by simp)
      · rw [hitems]
        rfl

/-- **`Close` is final as long as no `Push` enqueues on a closed queue.**  From any state of a run
with `isClose` set, in every continuation the queue is empty and no `Pop` returns an item. -/
theorem close_final {as bs : List (Action T V)}
    (has : Transition.run (step capacity) init as = some s) (hclose : s.isClose = true)
    (hbs : Transition.run (step capacity) s bs = some s')
    (hpush : Transition.Meets (step capacity)
      (fun s a => s.isClose = true → ¬ Enqueues capacity s a) init (as ++ bs)) :
    s'.items.queue = [] ∧ s'.items.delivered = s.items.delivered := by
  rw [Transition.meets_append] at hpush
  have hqueue : s.isClose = true → s.items.queue = [] :=
    Transition.run_invariant_of_meets (I := fun s => s.isClose = true → s.items.queue = [])
      (fun _ _ _ hs hpush h => step_close_queue hs hpush h) (fun _ => rfl) hpush.1 has
  have hafter := Transition.run_invariant_of_meets
    (I := fun t => t.isClose = true ∧ t.items.queue = [] ∧
      t.items.delivered = s.items.delivered)
    (fun t a u ht hpush h => by
      obtain ⟨hclose', hqueue', hdelivered⟩ := step_closed ht.1 ht.2.1 (hpush ht.1) h
      exact ⟨hclose', hqueue', hdelivered.trans ht.2.2⟩)
    ⟨hclose, hqueue hclose, rfl⟩ (hpush.2 s has) hbs
  exact hafter.2

/-- An item that was in the queue when `Close` ran is not handed out after it. -/
theorem close_final_sample :
    ∃ s s' : BlockQueue ℕ ℕ,
      Transition.run (step 1024) init [.push 1 7 none, .close 0] = some s ∧
      Transition.run (step 1024) s [.notifyProducers 0, .notifyConsumers 0, .pop 2 none] =
        some s' ∧
      s'.items.queue = [] ∧ s'.items.delivered = s.items.delivered := by
  obtain ⟨s, has, hclose, s', hbs⟩ : ∃ s : BlockQueue ℕ ℕ,
      Transition.run (step 1024) init [.push 1 7 none, .close 0] = some s ∧ s.isClose = true ∧
      ∃ s', Transition.run (step 1024) s [.notifyProducers 0, .notifyConsumers 0, .pop 2 none] =
        some s' := ⟨_, rfl, rfl, _, rfl⟩
  refine ⟨s, s', has, hbs, close_final has hclose hbs ?_⟩
  exact .cons (fun hopen => absurd hopen (by simp [init])) rfl (.cons (fun _ => id) rfl
    (.cons (fun _ => id) rfl (.cons (fun _ => id) rfl (.cons (fun _ => id) rfl trivial))))

/-- **A `Push` that comes after `Close` enqueues, and a later `Pop` returns its item.** -/
theorem push_after_close :
    ∃ s t u : BlockQueue ℕ ℕ,
      Transition.run (step 1024) init [.close 0, .notifyProducers 0, .notifyConsumers 0] =
        some s ∧ s.isClose = true ∧ s.call 0 = .idle ∧
      step 1024 s (.push 1 7 none) = some t ∧ t.items.queue = [⟨0, 7⟩] ∧
      step 1024 t (.pop 2 none) = some u ∧ u.items.delivered = [⟨0, 7⟩] :=
  ⟨_, _, _, rfl, rfl, rfl, rfl, rfl, rfl, rfl⟩

end BlockQueue
end Sync
end BreUtils
