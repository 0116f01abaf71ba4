/-
# The connection pool of `database/RedisPool.hpp`

Connections are raw pointers here, `redisContext*`: each that `redisConnect` returns is to be
given to `redisFree` once, and until then the queue has it, or a caller of `getConnection`,
or the constructor or a `checkThread` that is working on it (`Partition`).

A context that is connected and does not pass `AUTH` is let go of, and so is one that comes
back after `_b_stop`; nothing frees them.  So the pool knows of every context exactly as
long as neither happens (`partition_iff`).  The queue itself holds what it should: the loop
of `checkThread` finds a context in it in each round (`take_possible`).

`checkThread` holds the mutex for all of its steps.  What is left to chance is part of the
action: what `redisConnect` returns, and what the server replies.  A run ends where the code
reads the `type` of a null reply to `AUTH`, which is undefined.
-/

import BreUtils.Lib.Transition

namespace BreUtils
namespace Database

open Lib

/-- What `redisConnect` returns. -/
inductive Connect where
  | null
  /-- A context whose `err` is set. -/
  | failed
  | established
  deriving DecidableEq

/-- The reply to `AUTH`. -/
inductive Auth where
  /-- `REDIS_REPLY_ERROR`. -/
  | error
  | ok
  deriving DecidableEq

/-- What comes of `PING`. -/
inductive Ping where
  /-- There is a reply, or a null pointer. -/
  | returned
  | threw
  deriving DecidableEq

/-- The thread that works on contexts, in the constructor or in `checkThread`, with the rounds of
its loop that are left. -/
inductive Phase where
  | constructing (left : ℕ)
  /-- The constructor, before `AUTH`. -/
  | authenticating (left context : ℕ)
  /-- No `checkThread` is running: the mutex is free. -/
  | unlocked
  | checking (left : ℕ)
  /-- `checkThread`, before `PING`. -/
  | pinging (left context : ℕ)
  /-- `checkThread`, before `redisConnect`. -/
  | reconnecting (left : ℕ)
  /-- `checkThread`, before `AUTH`. -/
  | reauthenticating (left context : ℕ)
  deriving DecidableEq

/-- The context that is being worked on. -/
def Phase.inUse : Phase → List ℕ
  | authenticating _ context | pinging _ context | reauthenticating _ context => [context]
  | constructing _ | unlocked | checking _ | reconnecting _ => []

/-- The rounds that `checkThread` has left. -/
def Phase.left : Phase → ℕ
  | checking left | pinging left _ | reconnecting left | reauthenticating left _ => left
  | constructing _ | authenticating _ _ | unlocked => 0

/-- `RedisPool`.  A context is known by its number among those that `redisConnect` has returned. -/
structure RedisPool where
  connections : List ℕ
  bStop : Bool
  /-- How many contexts `redisConnect` has returned. -/
  connected : ℕ
  /-- The contexts that callers of `getConnection` hold. -/
  held : List ℕ
  /-- The calls of `redisFree`. -/
  freed : List ℕ
  phase : Phase
  deriving DecidableEq

namespace RedisPool

/-- At the beginning of the constructor. -/
def init (poolSize : ℕ) : RedisPool where
  connections := []
  bStop := false
  connected := 0
  held := []
  freed := []
  phase := .constructing poolSize

/-- `redisConnect`, and what is done with the result. -/
def connect (s : RedisPool) (result : Connect) (next : Phase) (authenticate : ℕ → Phase) :
    RedisPool :=
  match result with
  | .null => { s with phase := next }
  | .failed =>
      { s with connected := s.connected + 1, freed := s.freed ++ [s.connected], phase := next }
  | .established => { s with connected := s.connected + 1, phase := authenticate s.connected }

/-- `AUTH`, and what is done with the reply. -/
def authenticate (s : RedisPool) (reply : Auth) (context : ℕ) (next : Phase) : RedisPool :=
  match reply with
  | .error => { s with phase := next }
  | .ok => { s with connections := s.connections ++ [context], phase := next }

inductive Action where
  /-- The constructor and `checkThread`. -/
  | connect (result : Connect)
  | auth (reply : Auth)
  /-- The end of the constructor. -/
  | constructed
  | getConnection
  | returnConnection (context : ℕ)
  /-- `_b_stop = true`. -/
  | setStop
  | clearConnections
  /-- `checkThread`: its beginning, the beginning of a round, `PING`, and its end. -/
  | checkThread
  | take
  | ping (reply : Ping)
  | checked

/-- **One step.** -/
def step (s : RedisPool) : Action → Option RedisPool
  | .connect result =>
      match s.phase with
      | .constructing (left + 1) =>
          some (s.connect result (.constructing left) (.authenticating left))
      | .reconnecting left => some (s.connect result (.checking left) (.reauthenticating left))
      | _ => none
  | .auth reply =>
      match s.phase with
      | .authenticating left context => some (s.authenticate reply context (.constructing left))
      | .reauthenticating left context => some (s.authenticate reply context (.checking left))
      | _ => none
  | .constructed =>
      match s.phase with
      | .constructing 0 => some { s with phase := .unlocked }
      | _ => none
  | .getConnection =>
      match s.phase, s.bStop, s.connections with
      | .unlocked, true, _ => some s
      | .unlocked, false, context :: connections =>
          some { s with connections, held := s.held ++ [context] }
      | _, _, _ => none
  | .returnConnection context =>
      if s.phase = .unlocked ∧ context ∈ s.held then
        let s := { s with held := s.held.erase context }
        some (if s.bStop then s else { s with connections := s.connections ++ [context] })
      else none
  | .setStop => some { s with bStop := true }
  | .clearConnections =>
      if s.phase = .unlocked then
        some { s with connections := [], freed := s.freed ++ s.connections }
      else none
  | .checkThread =>
      if s.phase = .unlocked then
        some (if s.bStop then s else { s with phase := .checking s.connections.length })
      else none
  | .take =>
      match s.phase, s.bStop, s.connections with
      | .checking (left + 1), false, context :: connections =>
          some { s with connections, phase := .pinging left context }
      | _, _, _ => none
  | .ping reply =>
      match s.phase, reply with
      | .pinging left context, .returned =>
          some { s with connections := s.connections ++ [context], phase := .checking left }
      | .pinging left context, .threw =>
          some { s with freed := s.freed ++ [context], phase := .reconnecting left }
      | _, _ => none
  | .checked =>
      match s.phase with
      | .checking left => if left = 0 ∨ s.bStop then some { s with phase := .unlocked } else none
      | _ => none

/-- What the steps do, case by case. -/
inductive Steps (s : RedisPool) : Action → RedisPool → Prop
  | connect {result : Connect} {left : ℕ} : s.phase = .constructing (left + 1) →
      Steps s (.connect result) (s.connect result (.constructing left) (.authenticating left))
  | reconnect {result : Connect} {left : ℕ} : s.phase = .reconnecting left →
      Steps s (.connect result) (s.connect result (.checking left) (.reauthenticating left))
  | auth {reply : Auth} {left context : ℕ} : s.phase = .authenticating left context →
      Steps s (.auth reply) (s.authenticate reply context (.constructing left))
  | reauth {reply : Auth} {left context : ℕ} : s.phase = .reauthenticating left context →
      Steps s (.auth reply) (s.authenticate reply context (.checking left))
  | constructed : s.phase = .constructing 0 → Steps s .constructed { s with phase := .unlocked }
  | getNull : s.phase = .unlocked → s.bStop = true → Steps s .getConnection s
  | getConnection {context : ℕ} {connections : List ℕ} : s.phase = .unlocked →
      s.bStop = false → s.connections = context :: connections →
      Steps s .getConnection { s with connections, held := s.held ++ [context] }
  | returnStopped {context : ℕ} : s.phase = .unlocked → context ∈ s.held → s.bStop = true →
      Steps s (.returnConnection context) { s with held := s.held.erase context }
  | returnConnection {context : ℕ} : s.phase = .unlocked → context ∈ s.held → s.bStop ≠ true →
      Steps s (.returnConnection context)
        { s with connections := s.connections ++ [context], held := s.held.erase context }
  | setStop : Steps s .setStop { s with bStop := true }
  | clearConnections : s.phase = .unlocked →
      Steps s .clearConnections { s with connections := [], freed := s.freed ++ s.connections }
  | checkStopped : s.phase = .unlocked → s.bStop = true → Steps s .checkThread s
  | checkThread : s.phase = .unlocked → s.bStop ≠ true →
      Steps s .checkThread { s with phase := .checking s.connections.length }
  | take {left context : ℕ} {connections : List ℕ} : s.phase = .checking (left + 1) →
      s.bStop = false → s.connections = context :: connections →
      Steps s .take { s with connections, phase := .pinging left context }
  | pinged {left context : ℕ} : s.phase = .pinging left context →
      Steps s (.ping .returned)
        { s with connections := s.connections ++ [context], phase := .checking left }
  | pingThrew {left context : ℕ} : s.phase = .pinging left context →
      Steps s (.ping .threw)
        { s with freed := s.freed ++ [context], phase := .reconnecting left }
  | checked {left : ℕ} : s.phase = .checking left → left = 0 ∨ s.bStop →
      Steps s .checked { s with phase := .unlocked }

/-- **What a step does.** -/
theorem step_cases {s t : RedisPool} {a : Action} (h : step s a = some t) : Steps s a t := by
  cases a with
  | connect result =>
      simp only [step] at h
      split at h
      · rename_i left hphase
        exact Option.some.inj h ▸ .connect hphase
      · rename_i left hphase
        exact Option.some.inj h ▸ .reconnect hphase
      · cases h
  | auth reply =>
      simp only [step] at h
      split at h
      · rename_i left context hphase
        exact Option.some.inj h ▸ .auth hphase
      · rename_i left context hphase
        exact Option.some.inj h ▸ .reauth hphase
      · cases h
  | constructed =>
      simp only [step] at h
      split at h
      · rename_i hphase
        exact Option.some.inj h ▸ .constructed hphase
      · cases h
  | getConnection =>
      simp only [step] at h
      split at h
      · rename_i hphase hstop
        exact Option.some.inj h ▸ .getNull hphase hstop
      · rename_i context connections hphase hstop hconnections
        exact Option.some.inj h ▸ .getConnection hphase hstop hconnections
      · cases h
  | returnConnection context =>
      simp only [step] at h
      split_ifs at h with hheld hstop
      · exact Option.some.inj h ▸ .returnStopped hheld.1 hheld.2 hstop
      · exact Option.some.inj h ▸ .returnConnection hheld.1 hheld.2 hstop
  | setStop => exact Option.some.inj h ▸ .setStop
  | clearConnections =>
      simp only [step] at h
      split_ifs at h with hphase
      exact Option.some.inj h ▸ .clearConnections hphase
  | checkThread =>
      simp only [step] at h
      split_ifs at h with hphase hstop
      · exact Option.some.inj h ▸ .checkStopped hphase hstop
      · exact Option.some.inj h ▸ .checkThread hphase hstop
  | take =>
      simp only [step] at h
      split at h
      · rename_i left context connections hphase hstop hconnections
        exact Option.some.inj h ▸ .take hphase hstop hconnections
      · cases h
  | ping reply =>
      simp only [step] at h
      split at h
      · rename_i left context hphase
        exact Option.some.inj h ▸ .pinged hphase
      · rename_i left context hphase
        exact Option.some.inj h ▸ .pingThrew hphase
      · cases h
  | checked =>
      simp only [step] at h
      split at h
      · rename_i left hphase
        split_ifs at h with hdone
        exact Option.some.inj h ▸ .checked hphase hdone
      · cases h

/-! ### Where the contexts are -/

/-- The contexts that the pool knows of. -/
def contexts (s : RedisPool) : List ℕ := s.connections ++ s.held ++ s.phase.inUse ++ s.freed

/-- **Each context is in one place**: in the queue, with one caller, in use, or freed once. -/
def Partition (s : RedisPool) : Prop := s.contexts.Perm (List.range s.connected)

/-- A context is let go of: it does not pass `AUTH`, or it comes back to a stopped pool. -/
def LetsGo (s : RedisPool) : Action → Prop
  | .auth .error => ∃ left context,
      s.phase = .authenticating left context ∨ s.phase = .reauthenticating left context
  | .returnConnection context => s.phase = .unlocked ∧ context ∈ s.held ∧ s.bStop = true
  | _ => False

variable {s t : RedisPool} {a : Action}

/-- A context comes to the front, from behind two places. -/
theorem perm_front (context : ℕ) (a b c : List ℕ) :
    (a ++ (b ++ context :: c)).Perm (context :: (a ++ (b ++ c))) := by
  rw [← List.append_assoc, ← List.append_assoc]
  exact List.perm_middle

theorem connect_contexts (s : RedisPool) (result : Connect) (next : Phase)
    (authenticate : ℕ → Phase) (hs : s.phase.inUse = []) (hnext : next.inUse = [])
    (hauthenticate : ∀ context, (authenticate context).inUse = [context]) :
    ((s.connect result next authenticate).connected = s.connected ∧
        (s.connect result next authenticate).contexts.Perm s.contexts) ∨
      ((s.connect result next authenticate).connected = s.connected + 1 ∧
        (s.connect result next authenticate).contexts.Perm (s.connected :: s.contexts)) := by
  cases result with
  | null => exact .inl ⟨rfl, by simp [connect, contexts, hs, hnext]⟩
  | failed =>
      refine .inr ⟨rfl, ?_⟩
      simp only [connect, contexts, hs, hnext, List.append_nil]
      rw [← List.append_assoc]
      exact List.perm_append_singleton _ _
  | established =>
      refine .inr ⟨rfl, ?_⟩
      simp only [connect, contexts, hs, hauthenticate, List.append_nil, List.append_assoc,
        List.singleton_append]
      exact perm_front _ _ _ _

theorem authenticate_contexts (s : RedisPool) (context : ℕ) (next : Phase)
    (hs : s.phase.inUse = [context]) (hnext : next.inUse = []) :
    (s.authenticate .ok context next).contexts.Perm s.contexts ∧
      (context :: (s.authenticate .error context next).contexts).Perm s.contexts := by
  have hmiddle : (context :: (s.connections ++ s.held ++ s.freed)).Perm s.contexts := by
    rw [contexts, hs, List.append_assoc _ [context], List.singleton_append]
    exact List.perm_middle.symm
  constructor
  · refine List.Perm.trans ?_ hmiddle
    simp only [authenticate, contexts, hnext, List.append_nil, List.append_assoc,
      List.singleton_append]
    exact List.perm_middle
  · simpa only [authenticate, contexts, hnext, List.append_nil] using hmiddle

/-- **A step moves contexts, or adds a new one, or lets one go.** -/
theorem step_contexts (h : step s a = some t) :
    (¬ s.LetsGo a ∧ t.connected = s.connected ∧ t.contexts.Perm s.contexts) ∨
      (¬ s.LetsGo a ∧ t.connected = s.connected + 1 ∧
        t.contexts.Perm (s.connected :: s.contexts)) ∨
      (s.LetsGo a ∧ t.connected = s.connected ∧
        ∃ context, (context :: t.contexts).Perm s.contexts) := by
  cases step_cases h with
  | @connect result left hphase =>
      obtain ⟨hconnected, hperm⟩ | ⟨hconnected, hperm⟩ := s.connect_contexts result
        (.constructing left) (.authenticating left) (by rw [hphase]; rfl) rfl fun _ => rfl
      · exact .inl ⟨id, hconnected, hperm⟩
      · exact .inr (.inl ⟨id, hconnected, hperm⟩)
  | @reconnect result left hphase =>
      obtain ⟨hconnected, hperm⟩ | ⟨hconnected, hperm⟩ := s.connect_contexts result
        (.checking left) (.reauthenticating left) (by rw [hphase]; rfl) rfl fun _ => rfl
      · exact .inl ⟨id, hconnected, hperm⟩
      · exact .inr (.inl ⟨id, hconnected, hperm⟩)
  | @auth reply left context hphase =>
      have hcontexts := s.authenticate_contexts context (.constructing left)
        (by rw [hphase]; rfl) rfl
      cases reply with
      | error => exact .inr (.inr ⟨⟨left, context, .inl hphase⟩, rfl, context, hcontexts.2⟩)
      | ok => exact .inl ⟨id, rfl, hcontexts.1⟩
  | @reauth reply left context hphase =>
      have hcontexts := s.authenticate_contexts context (.checking left)
        (by rw [hphase]; rfl) rfl
      cases reply with
      | error => exact .inr (.inr ⟨⟨left, context, .inr hphase⟩, rfl, context, hcontexts.2⟩)
      | ok => exact .inl ⟨id, rfl, hcontexts.1⟩
  | constructed hphase => exact .inl ⟨id, rfl, by simp [contexts, hphase, Phase.inUse]⟩
  | getNull => exact .inl ⟨id, rfl, .refl _⟩
  | getConnection hphase hstop hconnections =>
      refine .inl ⟨id, rfl, ?_⟩
      simp only [contexts, hphase, hconnections, Phase.inUse, List.append_nil,
        List.append_assoc, List.cons_append]
      exact perm_front _ _ _ _
  | @returnStopped context hphase hheld hstop =>
      refine .inr (.inr ⟨⟨hphase, hheld, hstop⟩, rfl, context, ?_⟩)
      simp only [contexts, hphase, Phase.inUse, List.append_nil, List.append_assoc]
      refine List.perm_middle.symm.trans (.append_left _ ?_)
      exact (List.perm_cons_erase hheld).symm.append_right _
  | returnConnection hphase hheld hstop =>
      refine .inl ⟨fun hletsGo => hstop hletsGo.2.2, rfl, ?_⟩
      simp only [contexts, hphase, Phase.inUse, List.append_nil, List.append_assoc,
        List.singleton_append]
      exact .append_left _ ((List.perm_cons_erase hheld).symm.append_right _)
  | setStop => exact .inl ⟨id, rfl, .refl _⟩
  | clearConnections hphase =>
      refine .inl ⟨id, rfl, ?_⟩
      simp only [contexts, hphase, Phase.inUse, List.append_nil, List.nil_append]
      rw [← List.append_assoc]
      refine List.perm_append_comm.trans ?_
      rw [List.append_assoc]
  | checkStopped => exact .inl ⟨id, rfl, .refl _⟩
  | checkThread hphase => exact .inl ⟨id, rfl, by simp [contexts, hphase, Phase.inUse]⟩
  | take hphase hstop hconnections =>
      refine .inl ⟨id, rfl, ?_⟩
      simp only [contexts, hphase, hconnections, Phase.inUse, List.append_nil,
        List.append_assoc, List.cons_append]
      exact perm_front _ _ _ _
  | pinged hphase =>
      refine .inl ⟨id, rfl, ?_⟩
      simp only [contexts, hphase, Phase.inUse, List.append_nil, List.append_assoc,
        List.singleton_append]
      refine .append_left _ ?_
      exact List.perm_middle.symm
  | pingThrew hphase =>
      refine .inl ⟨id, rfl, ?_⟩
      simp only [contexts, hphase, Phase.inUse, List.append_nil, List.append_assoc]
      refine .append_left _ (.append_left _ ?_)
      exact List.perm_append_comm
  | checked hphase => exact .inl ⟨id, rfl, by simp [contexts, hphase, Phase.inUse]⟩

/-- A step that lets a context go can be made. -/
theorem step_of_letsGo (h : s.LetsGo a) : ∃ t, step s a = some t := by
  unfold LetsGo at h
  split at h
  · rcases h with ⟨left, context, hphase | hphase⟩
    · exact ⟨s.authenticate .error context (.constructing left), by simp only [step, hphase]⟩
    · exact ⟨s.authenticate .error context (.checking left), by simp only [step, hphase]⟩
  · exact ⟨_, if_pos ⟨h.1, h.2.1⟩⟩
  · exact h.elim

/-- **A step keeps the partition exactly if it lets no context go.** -/
theorem step_partition_iff (hs : s.Partition) (a : Action) :
    (∀ t, step s a = some t → t.Partition) ↔ ¬ s.LetsGo a := by
  constructor
  · intro h hletsGo
    obtain ⟨t, ht⟩ := step_of_letsGo hletsGo
    rcases step_contexts ht with ⟨hno, -⟩ | ⟨hno, -⟩ | ⟨-, hconnected, context, hperm⟩
    · exact hno hletsGo
    · exact hno hletsGo
    · have hlength := hperm.length_eq
      rw [hs.length_eq, ← hconnected, List.length_cons, (h t ht).length_eq] at hlength
      omega
  · intro hno t ht
    rcases step_contexts ht with ⟨-, hconnected, hperm⟩ | ⟨-, hconnected, hperm⟩ | ⟨hletsGo, -⟩
    · rw [Partition, hconnected]
      exact hperm.trans hs
    · rw [Partition, hconnected, List.range_succ]
      exact hperm.trans ((hs.cons _).trans (List.perm_append_singleton _ _).symm)
    · exact absurd hletsGo hno

theorem partition_init (poolSize : ℕ) : (init poolSize).Partition := List.Perm.refl []

/-- **No context is leaked or freed twice** in a run, if and only if in no step of it a context
fails to pass `AUTH`, or is returned to the pool after `_b_stop`. -/
theorem partition_iff (poolSize : ℕ) (as : List Action) :
    (∀ done, done <+: as → ∀ s, Transition.run step (init poolSize) done = some s →
        s.Partition) ↔
      Transition.Meets step (fun s a => ¬ s.LetsGo a) (init poolSize) as :=
  Transition.forall_states_iff (J := fun _ => True) (fun _ _ _ _ _ => trivial)
    (fun _ a _ hs => step_partition_iff hs a) trivial (partition_init poolSize) as

/-- A wrong password, and a connection that comes back late. -/
theorem leaks :
    (∃ s, Transition.run step (init 1) [.connect .established, .auth .error] = some s ∧
      s.connected = 1 ∧ s.contexts = []) ∧
    (∃ s, Transition.run step (init 1) [.connect .established, .auth .ok, .constructed,
        .getConnection, .setStop, .returnConnection 0] = some s ∧
      s.connected = 1 ∧ s.contexts = []) ∧
    ¬ ∀ poolSize as s, Transition.run step (init poolSize) as = some s → s.Partition := by
  refine ⟨⟨_, rfl, rfl, rfl⟩, ⟨_, rfl, rfl, rfl⟩, fun h => ?_⟩
  exact absurd (h 1 [.connect .established, .auth .error] _ rfl).length_eq (by decide)

/-! ### The rounds of `checkThread` -/

/-- **Each round takes one context out of the queue.** -/
theorem step_left (hs : s.phase.left ≤ s.connections.length) (h : step s a = some t) :
    t.phase.left ≤ t.connections.length := by
  cases step_cases h with
  | @connect result => cases result <;> exact Nat.zero_le _
  | @reconnect result left hphase =>
      rw [hphase] at hs
      cases result <;> exact hs
  | @auth reply => cases reply <;> exact Nat.zero_le _
  | @reauth reply left context hphase =>
      rw [hphase] at hs
      cases reply with
      | error => exact hs
      | ok => exact Nat.le_trans hs (by simp [authenticate])
  | constructed => exact Nat.zero_le _
  | getNull => exact hs
  | getConnection hphase =>
      rw [hphase]
      exact Nat.zero_le _
  | returnStopped => exact hs
  | returnConnection => exact Nat.le_trans hs (by simp)
  | setStop => exact hs
  | clearConnections hphase =>
      rw [hphase]
      exact Nat.zero_le _
  | checkStopped => exact hs
  | checkThread => exact Nat.le_refl _
  | take hphase hstop hconnections =>
      rw [hphase, hconnections, List.length_cons] at hs
      exact Nat.le_of_succ_le_succ hs
  | pinged hphase =>
      rw [hphase] at hs
      exact Nat.le_trans hs (by simp)
  | pingThrew hphase =>
      rw [hphase] at hs
      exact hs
  | checked => exact Nat.zero_le _

/-- **`checkThread` never takes a context out of an empty queue.** -/
theorem take_possible {poolSize left : ℕ} {as : List Action}
    (h : Transition.run step (init poolSize) as = some s) (hphase : s.phase = .checking (left + 1))
    (hstop : s.bStop = false) : ∃ t, step s .take = some t := by
  have hleft := Transition.run_invariant (I := fun s : RedisPool =>
    s.phase.left ≤ s.connections.length) (fun _ _ _ hs h => step_left hs h) (Nat.zero_le _) h
  rw [hphase] at hleft
  obtain ⟨context, connections, hconnections⟩ :=
    List.exists_cons_of_length_pos (Nat.zero_lt_of_lt hleft)
  exact ⟨{ s with connections, phase := .pinging left context }, by
    simp only [step, hphase, hstop, hconnections]⟩

end RedisPool

end Database
end BreUtils
