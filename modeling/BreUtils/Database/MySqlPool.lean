/-
# The connection pool of `database/MysqlPool.hpp`

One mutex, one condition variable, and a queue of connections.  Callers take a
connection with `getConnection` and bring it back with `returnConnection`;
`checkConnection`, which a timer runs, takes the connections out one by one, queries
the ones that were idle for 30 seconds, and puts them back.

As in `BreUtils.Sync.BlockQueue`, a critical section is one step, threads come from
any type, and what is left to chance is part of the action: which thread moves, whom
`notify_one` wakes, what the clock says, and how the database answers.

Every connection that the constructor established is in the queue, with a caller, or
in hand inside a `checkConnection`, unless an exception left a `checkConnection` and
took it along (`step_total`).
-/

import BreUtils.Lib.CondVar
import BreUtils.Lib.Transition
import Mathlib.Logic.Function.Basic

namespace BreUtils
namespace Database

open Lib

/-- `SqlConnection`: the session with the server, by its handle, and when it was last used. -/
structure SqlConnection where
  con : ℕ
  lastOperTime : ℤ
  deriving DecidableEq

/-- The call that a thread is inside of, where it does not hold the mutex. -/
inductive Call where
  | idle
  /-- `getConnection()`, in `_cond.wait`. -/
  | getConnection
  /-- `checkConnection()`, at its `while` with this `poolSize`. -/
  | check (poolSize : ℕ)
  /-- `checkConnection()`, before the keep-alive query. -/
  | keepAlive (poolSize : ℕ)
  /-- `checkConnection()`, before it puts the connection back. -/
  | putBack (poolSize : ℕ)
  deriving DecidableEq

/-- `MySqlPool`, and where its threads are. -/
structure MySqlPool (T : Type*) where
  pool : List SqlConnection
  cond : CondVar T
  bStop : Bool
  call : T → Call
  /-- The connections that callers hold. -/
  held : List SqlConnection
  /-- The local variable `con` of every running `checkConnection`. -/
  inHand : List (T × SqlConnection)
  /-- How many exceptions have left a `checkConnection`. -/
  escaped : ℕ

namespace MySqlPool

variable {T : Type*} [DecidableEq T]

/-- The loop of the constructor: the connections it established until one threw. -/
def establish (poolSize : ℤ) (connect : ℕ → Option SqlConnection) : List SqlConnection :=
  ((List.range poolSize.toNat).map connect).takeWhile Option.isSome |>.filterMap id

/-- The constructor. -/
def init (poolSize : ℤ) (connect : ℕ → Option SqlConnection) : MySqlPool T :=
  ⟨establish poolSize connect, .empty, false, fun _ => .idle, [], [], 0⟩

/-- A step: the thread that moves, and what is left to chance. -/
inductive Action (T : Type*) where
  | getConnection (t : T)
  /-- A caller that is awake takes the mutex back. -/
  | resume (t : T)
  /-- A blocked caller wakes by itself. -/
  | rouse (t : T)
  | returnConnection (con : SqlConnection) (woken : Option T)
  | checkConnection (t : T)
  /-- The head of the `while` of `checkConnection`, and taking a connection. -/
  | take (t : T)
  /-- The keep-alive query at the time `timestamp`: whether it succeeds, and the session that a
  reconnect yields, if it does not throw. -/
  | keepAlive (t : T) (timestamp : ℤ) (query : Bool) (reconnect : Option ℕ)
  | putBack (t : T)
  /-- `Close()`: first the flag, then `_cond.notify_all()`. -/
  | stop
  | notifyAll

/-- `getConnection` from its `wait` on, with the mutex. -/
def getLocked (s : MySqlPool T) (t : T) : MySqlPool T :=
  if s.bStop then { s with call := Function.update s.call t .idle }
  else
    match s.pool with
    | [] =>
        { s with cond := s.cond.wait t, call := Function.update s.call t .getConnection }
    | con :: rest =>
        { s with pool := rest, held := con :: s.held, call := Function.update s.call t .idle }

/-- The connection in hand inside the `checkConnection` of a thread. -/
def con (s : MySqlPool T) (t : T) : Option SqlConnection :=
  (s.inHand.find? fun h => h.1 = t).map Prod.snd

/-- What the other threads have in hand. -/
def others (s : MySqlPool T) (t : T) : List (T × SqlConnection) :=
  s.inHand.eraseP fun h => h.1 = t

/-- The keep-alive query, and the reconnect in its `catch` block.  `none` stands for an exception
that leaves `checkConnection`. -/
def query (con : SqlConnection) (timestamp : ℤ) (ok : Bool) (reconnect : Option ℕ) :
    Option SqlConnection :=
  if timestamp - con.lastOperTime ≥ 30 then
    if ok then some { con with lastOperTime := timestamp }
    else reconnect.map fun newcon => ⟨newcon, timestamp⟩
  else some con

/-- **One step.** -/
def step (s : MySqlPool T) : Action T → Option (MySqlPool T)
  | .getConnection t =>
      if s.call t = .idle then some (getLocked s t) else none
  | .resume t =>
      if s.call t = .getConnection then
        (s.cond.resume t).map fun c => getLocked { s with cond := c } t
      else none
  | .rouse t => (s.cond.rouse t).map fun c => { s with cond := c }
  | .returnConnection con woken =>
      if con ∈ s.held then
        if s.bStop then some { s with held := s.held.erase con }
        else
          (s.cond.notifyOne woken).map fun c =>
            { s with pool := s.pool ++ [con], held := s.held.erase con, cond := c }
      else none
  | .checkConnection t =>
      if s.call t = .idle then
        some { s with call := Function.update s.call t (.check s.pool.length) }
      else none
  | .take t =>
      match s.call t with
      | .check 0 => some { s with call := Function.update s.call t .idle }
      | .check (n + 1) =>
          if s.bStop then some { s with call := Function.update s.call t .idle }
          else
            match s.pool with
            | [] => some { s with call := Function.update s.call t .idle }
            | con :: rest =>
                some { s with
                  pool := rest
                  inHand := (t, con) :: s.inHand
                  call := Function.update s.call t (.keepAlive n) }
      | _ => none
  | .keepAlive t timestamp ok reconnect =>
      match s.call t, s.con t with
      | .keepAlive n, some con =>
          match query con timestamp ok reconnect with
          | some con' =>
              some { s with
                inHand := (t, con') :: s.others t
                call := Function.update s.call t (.putBack n) }
          | none =>
              some { s with
                inHand := s.others t
                call := Function.update s.call t .idle
                escaped := s.escaped + 1 }
      | _, _ => none
  | .putBack t =>
      match s.call t, s.con t with
      | .putBack n, some con =>
          some { s with
            pool := s.pool ++ [con]
            inHand := s.others t
            call := Function.update s.call t (.check n) }
      | _, _ => none
  | .stop => some { s with bStop := true }
  | .notifyAll => if s.bStop then some { s with cond := s.cond.notifyAll } else none

variable {s s' : MySqlPool T} {t : T}

/-! ### What each section does -/

/-- `getConnection` on a pool that is not stopped waits, or takes the front. -/
theorem getLocked_cases (hopen : s.bStop = false) :
    (s.pool = [] ∧
        getLocked s t = { s with
          cond := s.cond.wait t, call := Function.update s.call t .getConnection }) ∨
      ∃ con rest, s.pool = con :: rest ∧
        getLocked s t = { s with
          pool := rest, held := con :: s.held, call := Function.update s.call t .idle } := by
  unfold getLocked
  rw [if_neg (by simp [hopen])]
  split
  · exact Or.inl ⟨‹_›, rfl⟩
  · exact Or.inr ⟨_, _, ‹_›, rfl⟩

@[simp] theorem getLocked_bStop : (getLocked s t).bStop = s.bStop := by
  unfold getLocked
  split_ifs
  · rfl
  · split <;> rfl

theorem others_length {con : SqlConnection} (h : s.con t = some con) :
    (s.others t).length + 1 = s.inHand.length := by
  unfold MySqlPool.con at h
  obtain ⟨entry, hentry, -⟩ := Option.map_eq_some_iff.1 h
  have hmem := List.mem_of_find?_eq_some hentry
  have hlength := List.length_eraseP_of_mem hmem (List.find?_some hentry)
  have hpos := List.length_pos_of_mem hmem
  unfold others
  omega

theorem getConnection_cases (h : step s (.getConnection t) = some s') : s' = getLocked s t := by
  simp only [step, Option.ite_none_right_eq_some, Option.some.injEq] at h
  exact h.2.symm

theorem resume_cases (h : step s (.resume t) = some s') :
    ∃ c, s.cond.resume t = some c ∧ s' = getLocked { s with cond := c } t := by
  simp only [step, Option.ite_none_right_eq_some] at h
  obtain ⟨c, hc, rfl⟩ := Option.map_eq_some_iff.1 h.2
  exact ⟨c, hc, rfl⟩

theorem checkConnection_cases (h : step s (.checkConnection t) = some s') :
    ∃ call, s' = { s with call } := by
  simp only [step, Option.ite_none_right_eq_some, Option.some.injEq] at h
  exact ⟨_, h.2.symm⟩

theorem notifyAll_cases (h : step s .notifyAll = some s') :
    s.bStop = true ∧ s' = { s with cond := s.cond.notifyAll } := by
  simp only [step, Option.ite_none_right_eq_some, Option.some.injEq] at h
  exact ⟨h.1, h.2.symm⟩

/-- A connection comes back to the queue, or is dropped when the pool is stopped. -/
theorem returnConnection_cases {con : SqlConnection} {woken : Option T}
    (h : step s (.returnConnection con woken) = some s') :
    con ∈ s.held ∧
      (s.bStop = true ∧ s' = { s with held := s.held.erase con } ∨
        ∃ c, s.cond.notifyOne woken = some c ∧
          s' = { s with pool := s.pool ++ [con], held := s.held.erase con, cond := c }) := by
  simp only [step] at h
  split_ifs at h with hheld hstop
  · exact ⟨hheld, Or.inl ⟨hstop, (Option.some.inj h).symm⟩⟩
  · obtain ⟨c, hc, rfl⟩ := Option.map_eq_some_iff.1 h
    exact ⟨hheld, Or.inr ⟨c, hc, rfl⟩⟩

/-- A `checkConnection` takes the front, or it is over. -/
theorem take_cases (h : step s (.take t) = some s') :
    (∃ call, s' = { s with call }) ∨
      ∃ con rest call, s.pool = con :: rest ∧
        s' = { s with pool := rest, inHand := (t, con) :: s.inHand, call } := by
  simp only [step] at h
  split at h
  · exact Or.inl ⟨_, (Option.some.inj h).symm⟩
  · split_ifs at h
    · exact Or.inl ⟨_, (Option.some.inj h).symm⟩
    · split at h
      · exact Or.inl ⟨_, (Option.some.inj h).symm⟩
      · rename_i con rest hpool
        exact Or.inr ⟨con, rest, _, hpool, (Option.some.inj h).symm⟩
  · exact absurd h (by simp)

/-- The connection in hand stays there, be it the old one or a new one, or goes with the
exception. -/
theorem keepAlive_cases {timestamp : ℤ} {ok : Bool} {reconnect : Option ℕ}
    (h : step s (.keepAlive t timestamp ok reconnect) = some s') :
    ∃ con call, s.con t = some con ∧
      ((∃ con', query con timestamp ok reconnect = some con' ∧
          s' = { s with inHand := (t, con') :: s.others t, call }) ∨
        query con timestamp ok reconnect = none ∧
          s' = { s with inHand := s.others t, call, escaped := s.escaped + 1 }) := by
  simp only [step] at h
  split at h
  · rename_i n con hcall hcon
    split at h
    · rename_i con' hquery
      exact ⟨con, _, hcon, Or.inl ⟨con', hquery, (Option.some.inj h).symm⟩⟩
    · rename_i hquery
      exact ⟨con, _, hcon, Or.inr ⟨hquery, (Option.some.inj h).symm⟩⟩
  · exact absurd h (by simp)

/-- The connection in hand comes back to the queue. -/
theorem putBack_cases (h : step s (.putBack t) = some s') :
    ∃ con call, s.con t = some con ∧
      s' = { s with pool := s.pool ++ [con], inHand := s.others t, call } := by
  simp only [step] at h
  split at h
  · rename_i n con hcall hcon
    exact ⟨con, _, hcon, (Option.some.inj h).symm⟩
  · exact absurd h (by simp)

/-- Only `Close` touches the flag. -/
theorem step_bStop {a : Action T} (h : step s a = some s') (ha : a ≠ .stop) :
    s'.bStop = s.bStop := by
  cases a with
  | getConnection t =>
      rw [getConnection_cases h, getLocked_bStop]
  | resume t =>
      obtain ⟨c, -, rfl⟩ := resume_cases h
      exact getLocked_bStop
  | rouse t =>
      obtain ⟨c, -, rfl⟩ := Option.map_eq_some_iff.1 h
      rfl
  | returnConnection con woken =>
      rcases returnConnection_cases h with ⟨-, ⟨-, rfl⟩ | ⟨c, -, rfl⟩⟩
      · rfl
      · rfl
  | checkConnection t =>
      obtain ⟨call, rfl⟩ := checkConnection_cases h
      rfl
  | take t =>
      rcases take_cases h with ⟨call, rfl⟩ | ⟨con, rest, call, -, rfl⟩
      · rfl
      · rfl
  | keepAlive t timestamp ok reconnect =>
      rcases keepAlive_cases h with ⟨con, call, -, ⟨con', -, rfl⟩ | ⟨-, rfl⟩⟩
      · rfl
      · rfl
  | putBack t =>
      obtain ⟨con, call, -, rfl⟩ := putBack_cases h
      rfl
  | stop => exact absurd rfl ha
  | notifyAll =>
      obtain ⟨-, rfl⟩ := notifyAll_cases h
      rfl

theorem step_open {a : Action T} (h : step s a = some s') (hopen : s'.bStop = false) :
    s.bStop = false := by
  by_cases ha : a = .stop
  · subst ha
    obtain rfl := Option.some.inj h
    exact absurd hopen (by simp)
  · rw [← step_bStop h ha]
    exact hopen

/-! ### Where the connections are -/

/-- The connections in the queue, with callers, and in hand inside a `checkConnection`. -/
def total (s : MySqlPool T) : ℕ := s.pool.length + s.held.length + s.inHand.length

theorem getLocked_total (hopen : s.bStop = false) :
    total (getLocked s t) = total s ∧ (getLocked s t).escaped = s.escaped := by
  rcases getLocked_cases (t := t) hopen with ⟨-, hget⟩ | ⟨con, rest, hpool, hget⟩
  · rw [hget]
    exact ⟨rfl, rfl⟩
  · rw [hget]
    refine ⟨?_, rfl⟩
    show rest.length + (con :: s.held).length + s.inHand.length = total s
    unfold total
    rw [hpool, List.length_cons, List.length_cons]
    omega

/-- The reconnect of a keep-alive query throws. -/
def ReconnectThrows (s : MySqlPool T) : Action T → Prop
  | .keepAlive t timestamp ok reconnect =>
      ∃ con, s.con t = some con ∧ timestamp - con.lastOperTime ≥ 30 ∧ ok = false ∧
        reconnect = none
  | _ => False

theorem query_eq_none {con : SqlConnection} {timestamp : ℤ} {ok : Bool} {reconnect : Option ℕ} :
    query con timestamp ok reconnect = none ↔
      timestamp - con.lastOperTime ≥ 30 ∧ ok = false ∧ reconnect = none := by
  unfold query
  split_ifs with hidle hok
  · simp [hok]
  · simp [hidle, hok]
  · simp [hidle]

/-- **A step loses a connection exactly when it throws.**  While the pool is not stopped, every
other step moves a connection from one place to another, or none. -/
theorem step_total {a : Action T} (h : step s a = some s') (hopen' : s'.bStop = false) :
    (ReconnectThrows s a ∧ total s' + 1 = total s ∧ s'.escaped = s.escaped + 1) ∨
      (¬ ReconnectThrows s a ∧ total s' = total s ∧ s'.escaped = s.escaped) := by
  have hopen := step_open h hopen'
  cases a with
  | getConnection t =>
      rw [getConnection_cases h]
      exact Or.inr ⟨id, getLocked_total hopen⟩
  | resume t =>
      obtain ⟨c, -, rfl⟩ := resume_cases h
      exact Or.inr ⟨id, @getLocked_total _ _ { s with cond := c } _ hopen⟩
  | rouse t =>
      obtain ⟨c, -, rfl⟩ := Option.map_eq_some_iff.1 h
      exact Or.inr ⟨id, rfl, rfl⟩
  | returnConnection con woken =>
      rcases returnConnection_cases h with ⟨hheld, ⟨hstop, -⟩ | ⟨c, -, rfl⟩⟩
      · exact absurd hstop (by simp [hopen])
      · refine Or.inr ⟨id, ?_, rfl⟩
        have hpos := List.length_pos_of_mem hheld
        show (s.pool ++ [con]).length + (s.held.erase con).length + s.inHand.length = total s
        unfold total
        rw [List.length_append, List.length_singleton, List.length_erase_of_mem hheld]
        omega
  | checkConnection t =>
      obtain ⟨call, rfl⟩ := checkConnection_cases h
      exact Or.inr ⟨id, rfl, rfl⟩
  | take t =>
      rcases take_cases h with ⟨call, rfl⟩ | ⟨con, rest, call, hpool, rfl⟩
      · exact Or.inr ⟨id, rfl, rfl⟩
      · refine Or.inr ⟨id, ?_, rfl⟩
        show rest.length + s.held.length + ((t, con) :: s.inHand).length = total s
        unfold total
        rw [hpool, List.length_cons, List.length_cons]
        omega
  | keepAlive t timestamp ok reconnect =>
      rcases keepAlive_cases h with ⟨con, call, hcon, ⟨con', hquery, rfl⟩ | ⟨hquery, rfl⟩⟩
      · have hothers := others_length hcon
        refine Or.inr ⟨?_, ?_, rfl⟩
        · rintro ⟨con₁, hcon₁, hthrows⟩
          obtain rfl := Option.some.inj (hcon.symm.trans hcon₁)
          rw [query_eq_none.2 hthrows] at hquery
          exact absurd hquery (by simp)
        · show s.pool.length + s.held.length + ((t, con') :: s.others t).length = total s
          unfold total
          rw [List.length_cons]
          omega
      · have hothers := others_length hcon
        refine Or.inl ⟨⟨con, hcon, query_eq_none.1 hquery⟩, ?_, rfl⟩
        show s.pool.length + s.held.length + (s.others t).length + 1 = total s
        unfold total
        omega
  | putBack t =>
      obtain ⟨con, call, hcon, rfl⟩ := putBack_cases h
      have hothers := others_length hcon
      refine Or.inr ⟨id, ?_, rfl⟩
      show (s.pool ++ [con]).length + s.held.length + (s.others t).length = total s
      unfold total
      rw [List.length_append, List.length_singleton]
      omega
  | stop =>
      obtain rfl := Option.some.inj h
      exact absurd hopen' (by simp)
  | notifyAll =>
      obtain ⟨-, rfl⟩ := notifyAll_cases h
      exact Or.inr ⟨id, rfl, rfl⟩

/-- What has escaped in a run is what is missing, and nothing has exactly if no reconnect threw. -/
theorem run_total {poolSize : ℤ} {connect : ℕ → Option SqlConnection} {as : List (Action T)}
    (h : Transition.run step (init poolSize connect) as = some s) (hopen : s.bStop = false) :
    total s + s.escaped = (establish poolSize connect).length ∧
      (s.escaped = 0 ↔
        Transition.Meets step (fun s a => ¬ ReconnectThrows s a) (init poolSize connect) as) := by
  induction as using List.reverseRecOn generalizing s with
  | nil =>
      obtain rfl := Option.some.inj h
      exact ⟨rfl, iff_of_true rfl trivial⟩
  | append_singleton as a ih =>
      obtain ⟨u, hu, hstep⟩ := Transition.run_concat_eq_some.1 h
      obtain ⟨htotal, hescaped⟩ := ih hu (step_open hstep hopen)
      rw [Transition.meets_concat, ← hescaped]
      rcases step_total hstep hopen with
        ⟨hthrows, htotal', hescaped'⟩ | ⟨hthrows, htotal', hescaped'⟩
      · refine ⟨by omega, iff_of_false (by omega) fun hmeets => ?_⟩
        exact hmeets.2 u hu hthrows
      · refine ⟨by omega, ?_⟩
        rw [hescaped']
        refine ⟨fun hzero => ⟨hzero, fun v hv => ?_⟩, fun hmeets => hmeets.1⟩
        obtain rfl := Option.some.inj (hu.symm.trans hv)
        exact hthrows

/-- **The pool keeps its connections exactly as long as no reconnect throws.**  In every run that
has not stopped the pool: the connections in the queue, with callers and in hand inside a
`checkConnection` are as many as the constructor established, and no exception has left a
`checkConnection`, if and only if no reconnect attempt of the run threw. -/
theorem conserves_iff {poolSize : ℤ} {connect : ℕ → Option SqlConnection} {as : List (Action T)}
    (h : Transition.run step (init poolSize connect) as = some s) (hopen : s.bStop = false) :
    (total s = (establish poolSize connect).length ∧ s.escaped = 0) ↔
      Transition.Meets step (fun s a => ¬ ReconnectThrows s a) (init poolSize connect) as := by
  obtain ⟨htotal, hescaped⟩ := run_total h hopen
  rw [← hescaped]
  refine ⟨fun hs => hs.2, fun hzero => ⟨?_, hzero⟩⟩
  omega

/-- A session of its own for every connection. -/
def sessions (i : ℕ) : Option SqlConnection := some ⟨i, 0⟩

/-- A keep-alive pass over two connections: one answers, the other one is replaced; then a caller
takes the first. -/
def keepAlivePass : List (Action ℕ) :=
  [.checkConnection 0, .take 0, .keepAlive 0 60 true none, .putBack 0, .take 0,
    .keepAlive 0 60 false (some 7), .putBack 0, .take 0, .getConnection 1]

theorem conserves_iff_sample :
    ∃ s : MySqlPool ℕ, Transition.run step (init 2 sessions) keepAlivePass = some s ∧
      s.bStop = false ∧ s.pool = [⟨7, 60⟩] ∧ s.held = [⟨0, 60⟩] ∧
      ((total s = (establish 2 sessions).length ∧ s.escaped = 0) ↔
        Transition.Meets step (fun s a => ¬ ReconnectThrows s a) (init 2 sessions)
          keepAlivePass) := by
  obtain ⟨s, h, hopen, hpool, hheld⟩ : ∃ s : MySqlPool ℕ,
      Transition.run step (init 2 sessions) keepAlivePass = some s ∧ s.bStop = false ∧
      s.pool = [⟨7, 60⟩] ∧ s.held = [⟨0, 60⟩] := ⟨_, rfl, rfl, rfl, rfl⟩
  exact ⟨s, h, hopen, hpool, hheld, conserves_iff h hopen⟩

/-- **A reconnect that throws takes its connection along.** -/
theorem reconnect_throws :
    ∃ s : MySqlPool ℕ, Transition.run step (init 1 sessions)
        [.checkConnection 0, .take 0, .keepAlive 0 60 false none] = some s ∧
      s.bStop = false ∧ (establish 1 sessions).length = 1 ∧ total s = 0 ∧ s.escaped = 1 :=
  ⟨_, rfl, rfl, rfl, rfl, rfl⟩

/-! ### Who is woken -/

/-- A caller waits that nobody has notified, and the queue holds a connection that no notified
caller is about to take. -/
def LostWakeup (s : MySqlPool T) : Prop :=
  s.cond.blocked.Nonempty ∧ s.cond.notified.card < s.pool.length

/-- The pool takes a connection back from `checkConnection`, and all notified callers are served
already. -/
def SilentPutBack (s : MySqlPool T) : Action T → Prop
  | .putBack _ => s.cond.blocked.Nonempty ∧ s.cond.notified.card ≤ s.pool.length
  | _ => False

/-- While the pool is not stopped, nobody sleeps or every connection in the queue is for a notified
caller. -/
def Served (s : MySqlPool T) : Prop :=
  s.bStop = false → s.cond.blocked = ∅ ∨ s.pool.length ≤ s.cond.notified.card

/-- A caller that takes the front is one connection fewer to wait for. -/
theorem getLocked_served (hopen : s.bStop = false)
    (hs : s.cond.blocked = ∅ ∨ s.pool.length ≤ s.cond.notified.card + 1) :
    (getLocked s t).cond.blocked = ∅ ∨
      (getLocked s t).pool.length ≤ (getLocked s t).cond.notified.card := by
  rcases getLocked_cases (t := t) hopen with ⟨hpool, hget⟩ | ⟨con, rest, hpool, hget⟩
  · rw [hget]
    refine Or.inr ?_
    show s.pool.length ≤ _
    rw [hpool]
    exact Nat.zero_le _
  · rw [hget]
    refine hs.imp_right fun hle => ?_
    show rest.length ≤ s.cond.notified.card
    rw [hpool, List.length_cons] at hle
    omega

theorem step_served {a : Action T} (hs : Served s) (ha : ¬ SilentPutBack s a)
    (h : step s a = some s') : Served s' := by
  intro hopen'
  have hopen := step_open h hopen'
  have hs := hs hopen
  cases a with
  | getConnection t =>
      rw [getConnection_cases h]
      exact getLocked_served hopen (hs.imp_right fun hle => by omega)
  | resume t =>
      obtain ⟨c, hc, rfl⟩ := resume_cases h
      obtain ⟨hblocked, hnotified⟩ := CondVar.resume_eq_some hc
      have hcard := Finset.pred_card_le_card_erase (s := s.cond.notified) (a := t)
      rw [← hnotified] at hcard
      refine @getLocked_served _ _ { s with cond := c } _ hopen ?_
      show c.blocked = ∅ ∨ s.pool.length ≤ c.notified.card + 1
      rw [hblocked]
      exact hs.imp_right fun hle => by omega
  | rouse t =>
      obtain ⟨c, hc, rfl⟩ := Option.map_eq_some_iff.1 h
      obtain ⟨hblocked, hnotified⟩ := CondVar.rouse_eq_some hc
      show c.blocked = ∅ ∨ s.pool.length ≤ c.notified.card
      rw [hblocked, hnotified]
      refine hs.imp_left fun hempty => ?_
      rw [hempty]
      rfl
  | returnConnection con woken =>
      rcases returnConnection_cases h with ⟨-, ⟨hstop, -⟩ | ⟨c, hc, rfl⟩⟩
      · exact absurd hstop (by simp [hopen])
      · show c.blocked = ∅ ∨ (s.pool ++ [con]).length ≤ c.notified.card
        rw [List.length_append, List.length_singleton]
        rcases hs with hempty | hle
        · exact Or.inl (Finset.subset_empty.1 (hempty ▸ CondVar.notifyOne_blocked hc))
        · exact (CondVar.notifyOne_card hc).imp_right fun hcard => by omega
  | checkConnection t =>
      obtain ⟨call, rfl⟩ := checkConnection_cases h
      exact hs
  | take t =>
      rcases take_cases h with ⟨call, rfl⟩ | ⟨con, rest, call, hpool, rfl⟩
      · exact hs
      · refine hs.imp_right fun hle => ?_
        rw [hpool, List.length_cons] at hle
        show rest.length ≤ s.cond.notified.card
        omega
  | keepAlive t timestamp ok reconnect =>
      rcases keepAlive_cases h with ⟨con, call, -, ⟨con', -, rfl⟩ | ⟨-, rfl⟩⟩
      · exact hs
      · exact hs
  | putBack t =>
      obtain ⟨con, call, -, rfl⟩ := putBack_cases h
      show s.cond.blocked = ∅ ∨ (s.pool ++ [con]).length ≤ s.cond.notified.card
      rw [List.length_append, List.length_singleton]
      rcases Finset.eq_empty_or_nonempty s.cond.blocked with hempty | hblocked
      · exact Or.inl hempty
      · exact Or.inr (Nat.lt_of_not_le fun hle => ha ⟨hblocked, hle⟩)
  | stop =>
      obtain rfl := Option.some.inj h
      exact absurd hopen' (by simp)
  | notifyAll => exact absurd (notifyAll_cases h).1 (by simp [hopen])

/-- **No wake-up is lost, unless `checkConnection` puts a connection back silently.**  In every run
in which a connection comes back from `checkConnection` only when nobody sleeps or a notified caller
is still without one, and that has not stopped the pool: no caller waits without a notification
while the queue holds a connection that no notified caller is about to take. -/
theorem no_lost_wakeup {poolSize : ℤ} {connect : ℕ → Option SqlConnection}
    {as : List (Action T)} (h : Transition.run step (init poolSize connect) as = some s)
    (hopen : s.bStop = false)
    (hput : Transition.Meets step (fun s a => ¬ SilentPutBack s a) (init poolSize connect) as) :
    ¬ LostWakeup s := by
  have hserved := Transition.run_invariant_of_meets (I := Served)
    (fun _ _ _ hs ha h => step_served hs ha h) (fun _ => Or.inl rfl) hput h
  rintro ⟨hblocked, hlt⟩
  rcases hserved hopen with hempty | hle
  · rw [hempty] at hblocked
    exact Finset.not_nonempty_empty hblocked
  · omega

/-- Two connections, one of them in hand inside a `checkConnection`.  Of two callers that wait one
is notified, a third one takes the connection that it was notified for, and `checkConnection` puts
the other one back. -/
def putBackInTime : List (Action ℕ) :=
  [.checkConnection 0, .take 0, .getConnection 1, .getConnection 2, .getConnection 3,
    .returnConnection ⟨1, 0⟩ (some 2), .getConnection 4, .keepAlive 0 60 true none, .putBack 0]

theorem no_lost_wakeup_sample :
    ∃ s : MySqlPool ℕ, Transition.run step (init 2 sessions) putBackInTime = some s ∧
      s.bStop = false ∧ s.pool = [⟨0, 60⟩] ∧ s.cond.blocked = {3} ∧ s.cond.notified = {2} ∧
      ¬ LostWakeup s := by
  obtain ⟨s, h, hopen, hpool, hblocked, hnotified⟩ : ∃ s : MySqlPool ℕ,
      Transition.run step (init 2 sessions) putBackInTime = some s ∧ s.bStop = false ∧
      s.pool = [⟨0, 60⟩] ∧ s.cond.blocked = {3} ∧ s.cond.notified = {2} :=
    ⟨_, rfl, rfl, rfl, by decide, by decide⟩
  refine ⟨s, h, hopen, hpool, hblocked, hnotified, no_lost_wakeup h hopen ?_⟩
  refine .cons id rfl (.cons id rfl (.cons id rfl (.cons id rfl (.cons id rfl ?_))))
  refine .cons id rfl (.cons id rfl (.cons id rfl (.cons ?_ rfl trivial)))
  exact fun hsilent => absurd hsilent.2 (by decide)

/-- **A caller that comes while `checkConnection` has the only connection in hand sleeps on when the
connection is back.** -/
theorem lost_wakeup :
    ∃ s : MySqlPool ℕ, Transition.run step (init 1 sessions)
        [.checkConnection 0, .take 0, .getConnection 1, .keepAlive 0 60 true none, .putBack 0] =
          some s ∧
      s.bStop = false ∧ LostWakeup s :=
  ⟨_, rfl, rfl, ⟨1, by decide⟩, by decide⟩

end MySqlPool

end Database
end BreUtils
