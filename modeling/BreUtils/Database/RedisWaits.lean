/-
# Who waits for a connection of `RedisPool`

A caller of `getConnection` that finds the queue empty sleeps on `_cond` until `returnConnection`
notifies it.  Here are the pool and those who wait for it: a step is one of the pool, or a caller
goes to sleep or wakes up, for a reason or for none.

`checkThread` puts contexts back without a notification, and so does the constructor.  In
`MySqlPool` that leaves callers asleep in front of a connection (`MySqlPool.lost_wakeup`).  Not
here: `checkThread` keeps the mutex from its first look at the queue to its end, so that nobody goes
to sleep while it has a context in hand, and what it puts back was there before.  While a caller
sleeps, the queue and `checkThread` together have no more contexts than there are notified callers
(`Served`), whatever the keep-alive pass runs into; and whenever the mutex is free, somebody can
take the context that others wait for (`nobody_overlooked`).
-/

import BreUtils.Database.RedisPool
import BreUtils.Lib.CondVar

namespace BreUtils
namespace Database

open Lib

/-! ### The stock of the pool -/

/-- The contexts that `checkThread` may still put back for the one that it has taken. -/
def Phase.inHand : Phase → ℕ
  | pinging _ _ | reconnecting _ | reauthenticating _ _ => 1
  | constructing _ | authenticating _ _ | unlocked | checking _ => 0

/-- The constructor is not over. -/
def Phase.constructs : Phase → Bool
  | constructing _ | authenticating _ _ => true
  | unlocked | checking _ | pinging _ _ | reconnecting _ | reauthenticating _ _ => false

namespace RedisPool

/-- The contexts in the queue and in hand inside `checkThread`. -/
def stock (s : RedisPool) : ℕ := s.connections.length + s.phase.inHand

/-- The two calls that use `_cond`. -/
def Action.usesCond : Action → Bool
  | getConnection | returnConnection _ => true
  | connect _ | auth _ | constructed | setStop | clearConnections | checkThread | take | ping _
  | checked => false

variable {s t : RedisPool} {a : Action}

/-- A pool that is stopped stays so. -/
theorem step_stopped (h : step s a = some t) (hstop : s.bStop = true) : t.bStop = true := by
  cases step_cases h with
  | @connect result | @reconnect result => cases result <;> exact hstop
  | @auth reply | @reauth reply => cases reply <;> exact hstop
  | setStop => rfl
  | _ => exact hstop

/-- **Nothing but `returnConnection` makes the stock larger**, once the pool is constructed. -/
theorem step_stock (h : step s a = some t) (ha : a.usesCond = false)
    (hs : s.phase.constructs = false) : t.phase.constructs = false ∧ t.stock ≤ s.stock := by
  unfold stock
  cases step_cases h with
  | connect hphase | auth hphase | constructed hphase => simp [hphase, Phase.constructs] at hs
  | @reconnect result _ hphase =>
      rw [hphase]
      cases result with
      | null | failed => exact ⟨rfl, Nat.le_succ _⟩
      | established => exact ⟨rfl, Nat.le_refl _⟩
  | @reauth reply _ _ hphase =>
      rw [hphase]
      cases reply with
      | error => exact ⟨rfl, Nat.le_succ _⟩
      | ok => exact ⟨rfl, by simp [authenticate, Phase.inHand]⟩
  | getNull | getConnection | returnStopped | returnConnection => cases ha
  | setStop | checkStopped => exact ⟨hs, Nat.le_refl _⟩
  | clearConnections hphase =>
      rw [hphase]
      exact ⟨rfl, Nat.zero_le _⟩
  | checkThread hphase =>
      rw [hphase]
      exact ⟨rfl, Nat.le_refl _⟩
  | take hphase _ hconnections =>
      rw [hphase, hconnections]
      exact ⟨rfl, by simp [Phase.inHand]⟩
  | pinged hphase =>
      rw [hphase]
      exact ⟨rfl, by simp [Phase.inHand]⟩
  | pingThrew hphase | checked hphase =>
      rw [hphase]
      exact ⟨rfl, Nat.le_refl _⟩

end RedisPool

/-! ### The pool and those who wait -/

/-- `RedisPool`, and the callers that wait in `getConnection`. -/
structure WaitingPool (T : Type*) where
  pool : RedisPool
  cond : CondVar T

namespace WaitingPool

variable {T : Type*} [DecidableEq T]

def init (poolSize : ℕ) : WaitingPool T := ⟨.init poolSize, .empty⟩

/-- A step: what the pool does without `_cond`, or a thread in one of the two calls that use it. -/
inductive Action (T : Type*) where
  | own (a : RedisPool.Action)
  | getConnection (t : T)
  /-- A caller that is awake takes the mutex back. -/
  | resume (t : T)
  /-- A blocked caller wakes by itself. -/
  | rouse (t : T)
  | returnConnection (context : ℕ) (woken : Option T)

/-- `getConnection` from its `wait` on, when the mutex is free. -/
def getLocked (s : WaitingPool T) (t : T) : Option (WaitingPool T) :=
  if s.pool.phase = .unlocked ∧ s.pool.bStop = false ∧ s.pool.connections = [] then
    some { s with cond := s.cond.wait t }
  else (s.pool.step .getConnection).map fun pool => { s with pool }

/-- **One step.** -/
def step (s : WaitingPool T) : Action T → Option (WaitingPool T)
  | .own a =>
      if a.usesCond then none else (s.pool.step a).map fun pool => { s with pool }
  | .getConnection t => if t ∈ s.cond.waiting then none else getLocked s t
  | .resume t => (s.cond.resume t).bind fun cond => getLocked { s with cond } t
  | .rouse t => (s.cond.rouse t).map fun cond => { s with cond }
  | .returnConnection context woken =>
      (s.pool.step (.returnConnection context)).bind fun pool =>
        if s.pool.bStop then some { s with pool }
        else (s.cond.notifyOne woken).map fun cond => ⟨pool, cond⟩

variable {s s' : WaitingPool T} {t : T} {a : Action T} {as : List (Action T)}

/-- What a caller does with the mutex, case by case. -/
theorem getLocked_cases (h : getLocked s t = some s') :
    (s.pool.phase = .unlocked ∧ s.pool.connections = [] ∧
        s' = { s with cond := s.cond.wait t }) ∨
      ∃ pool, s.pool.step .getConnection = some pool ∧ s' = { s with pool } := by
  unfold getLocked at h
  split_ifs at h with hwaits
  · exact Or.inl ⟨hwaits.1, hwaits.2.2, (Option.some.inj h).symm⟩
  · obtain ⟨pool, hpool, rfl⟩ := Option.map_eq_some_iff.1 h
    exact Or.inr ⟨pool, hpool, rfl⟩

/-- The pool may have made a step. -/
def Follows (p q : RedisPool) : Prop := q = p ∨ ∃ b, p.step b = some q

theorem getLocked_follows (h : getLocked s t = some s') : Follows s.pool s'.pool := by
  rcases getLocked_cases h with ⟨-, -, rfl⟩ | ⟨pool, hpool, rfl⟩
  · exact Or.inl rfl
  · exact Or.inr ⟨_, hpool⟩

/-- **Seen from inside, a step is one of the pool, or none.** -/
theorem step_follows (h : step s a = some s') : Follows s.pool s'.pool := by
  cases a with
  | own b =>
      simp only [step] at h
      split_ifs at h
      obtain ⟨pool, hpool, rfl⟩ := Option.map_eq_some_iff.1 h
      exact Or.inr ⟨b, hpool⟩
  | getConnection t =>
      simp only [step] at h
      split_ifs at h
      exact getLocked_follows h
  | resume t =>
      obtain ⟨cond, -, h⟩ := Option.bind_eq_some_iff.1 h
      exact getLocked_follows (s := { s with cond }) h
  | rouse t =>
      obtain ⟨cond, -, rfl⟩ := Option.map_eq_some_iff.1 h
      exact Or.inl rfl
  | returnConnection context woken =>
      obtain ⟨pool, hpool, h⟩ := Option.bind_eq_some_iff.1 h
      split_ifs at h
      · obtain rfl := Option.some.inj h
        exact Or.inr ⟨_, hpool⟩
      · obtain ⟨cond, -, rfl⟩ := Option.map_eq_some_iff.1 h
        exact Or.inr ⟨_, hpool⟩

theorem step_open (h : step s a = some s') (hopen : s'.pool.bStop = false) :
    s.pool.bStop = false := by
  rcases step_follows h with hsame | ⟨b, hb⟩
  · rwa [← hsame]
  · by_contra hstop
    have hstop' := RedisPool.step_stopped hb (by simpa using hstop)
    rw [hopen] at hstop'
    cases hstop'

/-- So what holds of each state of each run of the pool holds here too. -/
theorem run_pool {poolSize : ℕ} (h : Transition.run step (init poolSize) as = some s) :
    ∃ bs, Transition.run RedisPool.step (.init poolSize) bs = some s.pool := by
  induction as using List.reverseRecOn generalizing s with
  | nil =>
      obtain rfl := Option.some.inj h
      exact ⟨[], rfl⟩
  | append_singleton as a ih =>
      obtain ⟨u, hu, hstep⟩ := Transition.run_concat_eq_some.1 h
      obtain ⟨bs, hbs⟩ := ih hu
      rcases step_follows hstep with hsame | ⟨b, hb⟩
      · exact ⟨bs, hsame ▸ hbs⟩
      · exact ⟨bs ++ [b], Transition.run_concat_eq_some.2 ⟨_, hbs, hb⟩⟩

/-! ### Enough of them are notified -/

/-- Nobody waits for the constructor, and while a caller sleeps, the stock is for notified ones. -/
structure Served (s : WaitingPool T) : Prop where
  constructing : s.pool.phase.constructs = true → s.cond.blocked = ∅
  covers : s.cond.Covers s.pool.stock

/-- A caller with the mutex takes the front, or waits before an empty queue: one notification may be
gone before it. -/
theorem getLocked_served (hcovers : s.cond.Covers (s.pool.stock - 1))
    (hopen : s.pool.bStop = false) (h : getLocked s t = some s') : Served s' := by
  rcases getLocked_cases h with ⟨hphase, hempty, rfl⟩ | ⟨pool, hpool, rfl⟩
  · refine ⟨fun hconstructs => ?_, ?_⟩
    · simp [hphase, Phase.constructs] at hconstructs
    · simp only [RedisPool.stock, hphase, hempty]
      exact CondVar.Covers.zero _
  · cases RedisPool.step_cases hpool with
    | getNull _ hstop => simp [hopen] at hstop
    | getConnection hphase _ hconnections =>
        refine ⟨fun hconstructs => ?_, hcovers.mono ?_⟩
        · simp [hphase, Phase.constructs] at hconstructs
        · simp [RedisPool.stock, hphase, hconnections, Phase.inHand]

theorem step_served (hs : Served s) (hopen : s.pool.bStop = false) (h : step s a = some s') :
    Served s' := by
  cases a with
  | own b =>
      simp only [step] at h
      split_ifs at h with hb
      obtain ⟨pool, hpool, rfl⟩ := Option.map_eq_some_iff.1 h
      cases hconstructs : s.pool.phase.constructs with
      | true => exact ⟨fun _ => hs.constructing hconstructs, Or.inl (hs.constructing hconstructs)⟩
      | false =>
          obtain ⟨hphase, hstock⟩ := RedisPool.step_stock hpool (by simpa using hb) hconstructs
          exact ⟨fun h => absurd (hphase.symm.trans h) (by simp), hs.covers.mono hstock⟩
  | getConnection t =>
      simp only [step] at h
      split_ifs at h
      exact getLocked_served (hs.covers.mono (Nat.sub_le _ 1)) hopen h
  | resume t =>
      obtain ⟨cond, hcond, h⟩ := Option.bind_eq_some_iff.1 h
      exact getLocked_served (s := { s with cond }) (hs.covers.resume hcond) hopen h
  | rouse t =>
      obtain ⟨cond, hcond, rfl⟩ := Option.map_eq_some_iff.1 h
      refine ⟨fun hconstructs => ?_, hs.covers.rouse hcond⟩
      obtain ⟨hblocked, -⟩ := CondVar.rouse_eq_some hcond
      show cond.blocked = ∅
      rw [hblocked, hs.constructing hconstructs]
      rfl
  | returnConnection context woken =>
      obtain ⟨pool, hpool, h⟩ := Option.bind_eq_some_iff.1 h
      rw [if_neg (by simp [hopen])] at h
      obtain ⟨cond, hcond, rfl⟩ := Option.map_eq_some_iff.1 h
      cases RedisPool.step_cases hpool with
      | returnStopped _ _ hstop => simp [hopen] at hstop
      | returnConnection hphase =>
          refine ⟨fun hconstructs => ?_, (hs.covers.notifyOne hcond).mono ?_⟩
          · simp [hphase, Phase.constructs] at hconstructs
          · simp [RedisPool.stock, hphase, Phase.inHand]

theorem served_of_run {poolSize : ℕ} (h : Transition.run step (init poolSize) as = some s)
    (hopen : s.pool.bStop = false) : Served s :=
  Transition.run_invariant (I := fun s => s.pool.bStop = false → Served s)
    (fun _ _ _ hs h hopen => step_served (hs (step_open h hopen)) (step_open h hopen) h)
    (fun _ => ⟨fun _ => rfl, Or.inl rfl⟩) h hopen

/-- A caller that is awake takes the front. -/
theorem resume_takes {context : ℕ} {rest : List ℕ} (hphase : s.pool.phase = .unlocked)
    (hopen : s.pool.bStop = false) (hconnections : s.pool.connections = context :: rest)
    (ht : t ∈ s.cond.notified ∪ s.cond.roused) :
    ∃ s', step s (.resume t) = some s' ∧ s'.pool.connections = rest ∧
      s'.pool.held = s.pool.held ++ [context] := by
  obtain ⟨cond, hcond⟩ : ∃ cond, s.cond.resume t = some cond := ⟨_, if_pos ht⟩
  refine ⟨⟨{ s.pool with connections := rest, held := s.pool.held ++ [context] }, cond⟩, ?_,
    rfl, rfl⟩
  show (s.cond.resume t).bind _ = _
  rw [hcond]
  simp [getLocked, hphase, hopen, hconnections, RedisPool.step]

/-- **Nobody is overlooked.**  In every state of every run of a pool that is not stopped, with any
number of callers, whatever `checkThread` runs into: while a caller sleeps, the contexts in the
queue and in hand inside `checkThread` are no more than the notified callers; and whenever somebody
waits, the mutex is free and the queue is not empty, one of those who wait is awake and can take
the front. -/
theorem nobody_overlooked {poolSize : ℕ} (h : Transition.run step (init poolSize) as = some s)
    (hopen : s.pool.bStop = false) :
    (s.cond.blocked.Nonempty → s.pool.stock ≤ s.cond.notified.card) ∧
      (s.pool.phase = .unlocked → s.cond.waiting.Nonempty →
        ∀ context rest, s.pool.connections = context :: rest →
          ∃ t ∈ s.cond.waiting, ∃ s', step s (.resume t) = some s' ∧
            s'.pool.connections = rest ∧ s'.pool.held = s.pool.held ++ [context]) := by
  have hs := served_of_run h hopen
  have hcovers (hblocked : s.cond.blocked.Nonempty) : s.pool.stock ≤ s.cond.notified.card :=
    hs.covers.resolve_left hblocked.ne_empty
  refine ⟨hcovers, fun hphase hwaiting context rest hconnections => ?_⟩
  obtain ⟨t, ht⟩ : (s.cond.notified ∪ s.cond.roused).Nonempty := by
    rw [CondVar.waiting, Finset.union_assoc, Finset.union_nonempty] at hwaiting
    refine hwaiting.elim (fun hblocked => ?_) id
    have hle := hcovers hblocked
    rw [RedisPool.stock, hconnections, List.length_cons] at hle
    exact (Finset.card_pos.1 (by omega)).inl
  refine ⟨t, ?_, resume_takes hphase hopen hconnections ht⟩
  rw [CondVar.waiting, Finset.union_assoc]
  exact Finset.mem_union_right _ ht

/-- Two callers and one context: the second caller sleeps, `checkThread` finds nothing to do, and it
is notified when the first one is done. -/
theorem nobody_overlooked_sample :
    ∃ s : WaitingPool ℕ, Transition.run step (init 1)
        [.own (.connect .established), .own (.auth .ok), .own .constructed, .getConnection 1,
          .getConnection 2, .own .checkThread, .own .checked, .returnConnection 0 (some 2)] =
          some s ∧
      s.cond.notified = {2} ∧
      ∃ t ∈ s.cond.waiting, ∃ s', step s (.resume t) = some s' ∧
        s'.pool.connections = [] ∧ s'.pool.held = s.pool.held ++ [0] := by
  obtain ⟨s, h, hopen, hphase, hnotified, hconnections⟩ : ∃ s : WaitingPool ℕ,
      Transition.run step (init 1)
        [.own (.connect .established), .own (.auth .ok), .own .constructed, .getConnection 1,
          .getConnection 2, .own .checkThread, .own .checked, .returnConnection 0 (some 2)] =
          some s ∧ s.pool.bStop = false ∧ s.pool.phase = .unlocked ∧ s.cond.notified = {2} ∧
      s.pool.connections = [0] := ⟨_, rfl, rfl, rfl, rfl, rfl⟩
  refine ⟨s, h, hnotified, (nobody_overlooked h hopen).2 hphase ⟨2, ?_⟩ 0 [] hconnections⟩
  simp [CondVar.waiting, hnotified]

end WaitingPool

end Database
end BreUtils
