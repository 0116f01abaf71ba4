/-
# What the server keeps of its sessions

The server means to tell `NetLogic` of each client when it comes and when it goes, to find
the session of each message, and to let go of sessions.  Three orders of things stand in
the way.

`startAccept` calls `OnClientConnected` for the session that it waits with.  So each client
is reported before it is there, and the runs in which sessions live as they should are those
in which none comes (`lifeCycle_iff`); nor does any go, for only the destructor of a session
calls `ClearSession`, and `_sessions` holds on to the session until the server is destroyed
(`not_disconnected`).

`handleAccept` starts the session before it files it, and files it without the lock.  A client
that is fast enough gets no reply to a message that is handled in between, nor can any client
count on one while a session is being filed; all other messages get theirs (`replies_iff`).

What removes a session from `_sessions` does so under the lock, and if the map was its last
owner, its destructor comes back to `ClearSession` there.  So no thread gets stuck exactly if
only sessions with another owner are removed (`reentered_iff`).
-/

import BreUtils.Net.TcpServer

namespace BreUtils
namespace Net

open Lib

namespace TCPServer

variable {s t : TCPServer} {a : Action} {as : List Action}

/-- What the actions do, case by case. -/
inductive Acts (s : TCPServer) : Action → TCPServer → Prop
  | accept {id : ℕ} : s.acceptor = .waiting id →
      Acts s .accept { s with acceptor := .accepted id, events := s.events ++ [.accepted id] }
  | acceptError {id : ℕ} : s.acceptor = .waiting id →
      Acts s .acceptError { s with acceptor := .failed id }
  | start {id : ℕ} : s.acceptor = .accepted id →
      Acts s .start
        { s.update id fun o => { o with reading := .pending } with acceptor := .started id }
  | insert {id : ℕ} : s.acceptor = .started id →
      Acts s .insert { s with acceptor := .inserting id }
  | inserted {id : ℕ} : s.acceptor = .inserting id →
      Acts s .inserted
        { s with
          acceptor := .inserted id
          sessions := if id ∈ s.sessions then s.sessions else s.sessions ++ [id] }
  | startAccept {id : ℕ} : s.acceptor = .inserted id ∨ s.acceptor = .failed id →
      Acts s .startAccept (s.startAccept.release id)
  | message {id : ℕ} : s.Reads id → Acts s (.message id) { s with queue := s.queue ++ [id] }
  | readError {id : ℕ} : s.Reads id →
      Acts s (.readError id) (s.update id fun o => { o with reading := .ended, isClosed := true })
  | badHeader {id : ℕ} : s.Reads id →
      Acts s (.badHeader id) (s.update id fun o => { o with reading := .ended })
  | pop {id : ℕ} {queue : List ℕ} : s.queue = id :: queue →
      Acts s .pop { s with handling := some id, queue }
  | reply : Acts s .reply { s with handling := none }
  | getSession {id : ℕ} :
      Acts s (.getSession id) (s.update id fun o => { o with owners := o.owners + 1 })
  | release {id : ℕ} :
      Acts s (.release id) ((s.update id fun o => { o with owners := o.owners - 1 }).release id)
  | stop : Acts s .stop s.stop
  | destruct {found : List ℕ} : Acts s (.destruct found) (s.destruct found)

theorem acts_of_act (h : s.act a = some t) : Acts s a t := by
  cases a with
  | accept =>
      simp only [act] at h
      split at h
      · rename_i id hacceptor
        split_ifs at h
        exact Option.some.inj h ▸ .accept hacceptor
      · cases h
  | acceptError =>
      simp only [act] at h
      split at h
      · rename_i id hacceptor
        split_ifs at h
        exact Option.some.inj h ▸ .acceptError hacceptor
      · cases h
  | start =>
      simp only [act] at h
      split at h
      · rename_i id hacceptor
        exact Option.some.inj h ▸ .start hacceptor
      · cases h
  | insert =>
      simp only [act] at h
      split at h
      · rename_i id hacceptor
        exact Option.some.inj h ▸ .insert hacceptor
      · cases h
  | inserted =>
      simp only [act] at h
      split at h
      · rename_i id hacceptor
        exact Option.some.inj h ▸ .inserted hacceptor
      · cases h
  | startAccept =>
      simp only [act] at h
      split at h
      · rename_i id hacceptor
        exact Option.some.inj h ▸ .startAccept (.inl hacceptor)
      · rename_i id hacceptor
        exact Option.some.inj h ▸ .startAccept (.inr hacceptor)
      · cases h
  | message id =>
      simp only [act] at h
      split_ifs at h with hreads
      exact Option.some.inj h ▸ .message hreads
  | readError id =>
      simp only [act] at h
      split_ifs at h with hreads
      exact Option.some.inj h ▸ .readError hreads
  | badHeader id =>
      simp only [act] at h
      split_ifs at h with hreads
      exact Option.some.inj h ▸ .badHeader hreads
  | pop =>
      simp only [act] at h
      split at h
      · rename_i id queue hhandling hqueue
        exact Option.some.inj h ▸ .pop hqueue
      · cases h
  | reply =>
      simp only [act] at h
      split at h
      · exact Option.some.inj h ▸ .reply
      · cases h
  | getSession id =>
      simp only [act] at h
      split_ifs at h
      exact Option.some.inj h ▸ .getSession
  | release id =>
      simp only [act] at h
      split_ifs at h
      exact Option.some.inj h ▸ .release
  | stop => exact Option.some.inj h ▸ .stop
  | destruct found => exact Option.some.inj h ▸ .destruct

/-- **What a step does.** -/
theorem step_cases (h : step s a = some t) : s.Running ∧ Acts s a t := by
  unfold step at h
  split_ifs at h with hrunning
  exact ⟨hrunning, acts_of_act h⟩

/-! ### Clients that come and go -/

/-- Each client is reported when it is there, once, and when it is gone. -/
structure LifeCycle (s : TCPServer) : Prop where
  /-- At the latest when the accept handler has returned. -/
  connected : ∀ id, .accepted id ∈ s.events → s.acceptor.newSession ≠ id →
    s.events.count (.connected id) = 1
  notBefore : ∀ before after id, s.events = before ++ .accepted id :: after →
    .connected id ∉ before
  disconnectedOnce : ∀ id, s.events.count (.disconnected id) ≤ 1
  disconnectedAfter : ∀ before after id, s.events = before ++ .disconnected id :: after →
    .connected id ∈ before
  ended : ∀ id, (s.object id).reading = .ended → .disconnected id ∈ s.events ∧ id ∉ s.sessions

/-- **What is reported when**: a client as connected where the server begins to wait for it, and as
disconnected, at most, what the server still has when it is destroyed. -/
theorem step_events (h : step s a = some t) :
    (t.events = s.events ∧ t.acceptor.newSession = s.acceptor.newSession) ∨
      (a = .accept ∧ t.events = s.events ++ [.accepted s.acceptor.newSession] ∧
        t.acceptor.newSession = s.acceptor.newSession) ∨
      (a = .startAccept ∧ t.events = s.events ++ [.connected t.acceptor.newSession]) ∨
      (t.isDestructed = true ∧ t.acceptor.newSession = s.acceptor.newSession ∧
        ∃ gone ⊆ s.sessions, t.events = s.events ++ gone.map .disconnected) := by
  obtain ⟨-, hact⟩ := step_cases h
  cases hact with
  | accept hacceptor =>
      rw [hacceptor]
      exact .inr (.inl ⟨rfl, rfl, rfl⟩)
  | acceptError hacceptor =>
      rw [hacceptor]
      exact .inl ⟨rfl, rfl⟩
  | start hacceptor =>
      rw [hacceptor]
      exact .inl ⟨rfl, rfl⟩
  | insert hacceptor =>
      rw [hacceptor]
      exact .inl ⟨rfl, rfl⟩
  | inserted hacceptor =>
      rw [hacceptor]
      exact .inl ⟨rfl, rfl⟩
  | startAccept =>
      rw [release_events, release_acceptor]
      exact .inr (.inr (.inl ⟨rfl, rfl⟩))
  | @destruct found =>
      refine .inr (.inr (.inr ⟨rfl, rfl, _, fun id hid => ?_, rfl⟩))
      have hgone := List.find?_some (Option.mem_toList.1 hid)
      exact (List.mem_filter.1 (of_decide_eq_true hgone)).1
  | release => exact .inl ⟨by simp, by simp⟩
  | _ => exact .inl ⟨rfl, rfl⟩

/-- What is reported stays reported. -/
theorem run_events (h : Transition.run step s as = some t) :
    ∃ later, t.events = s.events ++ later := by
  refine Transition.run_invariant (I := fun t => ∃ later, t.events = s.events ++ later)
    (fun u b v hu hstep => ?_) ⟨[], (List.append_nil _).symm⟩ h
  obtain ⟨later, hu⟩ := hu
  rcases step_events hstep with ⟨hv, -⟩ | ⟨-, hv, -⟩ | ⟨-, hv⟩ | ⟨-, -, gone, -, hv⟩
  · exact ⟨later, hv.trans hu⟩
  · exact ⟨later ++ [_], by rw [hv, hu, List.append_assoc]⟩
  · exact ⟨later ++ [_], by rw [hv, hu, List.append_assoc]⟩
  · exact ⟨later ++ gone.map .disconnected, by rw [hv, hu, List.append_assoc]⟩

/-- **The client that the server waits for is reported already.** -/
theorem run_connected (h : Transition.run step init as = some s) :
    .connected s.acceptor.newSession ∈ s.events := by
  refine Transition.run_invariant
    (I := fun s : TCPServer => Event.connected s.acceptor.newSession ∈ s.events)
    (fun u b v hu hstep => ?_) (by decide) h
  rcases step_events hstep with ⟨hv, hnew⟩ | ⟨-, hv, hnew⟩ | ⟨-, hv⟩ | ⟨-, hnew, gone, -, hv⟩
  · rwa [hv, hnew]
  · rw [hv, hnew]
    exact List.mem_append_left _ hu
  · rw [hv]
    exact List.mem_append_right _ List.mem_cons_self
  · rw [hv, hnew]
    exact List.mem_append_left _ hu

/-- **No client is reported as gone** as long as the server is not destroyed. -/
theorem not_disconnected (h : Transition.run step init as = some s)
    (hserver : s.isDestructed = false) (id : ℕ) : .disconnected id ∉ s.events := by
  refine Transition.run_invariant
    (I := fun s : TCPServer => s.isDestructed = false → Event.disconnected id ∉ s.events)
    (fun u b v hu hstep hserver => ?_) (fun _ => by simp [init, startAccept]) h hserver
  have hu := hu (step_cases hstep).1.1
  rcases step_events hstep with ⟨hv, -⟩ | ⟨-, hv, -⟩ | ⟨-, hv⟩ | ⟨hv, -⟩
  · rwa [hv]
  · rw [hv]
    simpa using hu
  · rw [hv]
    simpa using hu
  · rw [hserver] at hv
    cases hv

/-- No client has come yet. -/
structure Alone (s : TCPServer) : Prop where
  acceptor : ∃ id, s.acceptor = .waiting id ∨ s.acceptor = .failed id
  idle : ∀ id, (s.object id).reading = .idle
  sessions : s.sessions = []
  events : ∀ id, .accepted id ∉ s.events ∧ .disconnected id ∉ s.events

theorem alone_init : Alone init where
  acceptor := ⟨0, .inl rfl⟩
  idle id := by
    rw [init, startAccept_reading]
    split_ifs
    · rfl
    · rfl
  sessions := rfl
  events id := by simp [init, startAccept]

theorem step_alone (hs : Alone s) (ha : a ≠ .accept) (h : step s a = some t) : Alone t := by
  obtain ⟨id, hacceptor⟩ := hs.acceptor
  have hnoread (id : ℕ) : ¬ s.Reads id := by
    intro hreads
    rw [Reads, hs.idle] at hreads
    exact absurd hreads.1 (by decide)
  obtain ⟨-, hact⟩ := step_cases h
  cases hact with
  | accept => exact absurd rfl ha
  | acceptError => exact ⟨⟨_, .inr rfl⟩, hs.idle, hs.sessions, hs.events⟩
  | start hstart => rcases hacceptor with h | h <;> rw [h] at hstart <;> cases hstart
  | insert hinsert => rcases hacceptor with h | h <;> rw [h] at hinsert <;> cases hinsert
  | inserted hinsert => rcases hacceptor with h | h <;> rw [h] at hinsert <;> cases hinsert
  | startAccept =>
      refine ⟨⟨_, .inl (by rw [release_acceptor]; rfl)⟩, fun id => ?_, ?_, fun id => ?_⟩
      · rw [release_reading, startAccept_reading]
        split_ifs
        · rfl
        · exact hs.idle id
      · rw [release_sessions]
        exact hs.sessions
      · rw [release_events, startAccept]
        simpa using hs.events id
  | message hreads => exact absurd hreads (hnoread _)
  | readError hreads => exact absurd hreads (hnoread _)
  | badHeader hreads => exact absurd hreads (hnoread _)
  | pop => exact ⟨hs.acceptor, hs.idle, hs.sessions, hs.events⟩
  | reply => exact ⟨hs.acceptor, hs.idle, hs.sessions, hs.events⟩
  | getSession =>
      exact ⟨hs.acceptor, fun id => (update_reading _ _ _ rfl id).trans (hs.idle id), hs.sessions,
        hs.events⟩
  | release =>
      refine ⟨by simpa using hs.acceptor, fun id => ?_, ?_, by simpa using hs.events⟩
      · rw [release_reading, update_reading _ _ _ rfl]
        exact hs.idle id
      · rw [release_sessions]
        exact hs.sessions
  | stop =>
      exact ⟨hs.acceptor, fun id => (stop_reading _ id).trans (hs.idle id), hs.sessions, hs.events⟩
  | @destruct found =>
      -- there is nothing for `clear` to destroy
      have hevents : (s.destruct found).events = s.events := by
        simp [destruct, hs.sessions]
      exact ⟨hs.acceptor, fun id => (stop_reading _ id).trans (hs.idle id), rfl,
        fun id => hevents ▸ hs.events id⟩

/-- **The sessions of a server live as they should as long as there are none.**  A run keeps the
life cycle of its sessions if and only if no accept of it succeeds. -/
theorem lifeCycle_iff (h : Transition.run step init as = some s) :
    s.LifeCycle ↔ .accept ∉ as := by
  constructor
  · intro hlife hmem
    obtain ⟨before, after, rfl⟩ := List.append_of_mem hmem
    rw [Transition.run_append, Option.bind_eq_some_iff] at h
    obtain ⟨u, hu, h⟩ := h
    rw [Transition.run_cons, Option.bind_eq_some_iff] at h
    obtain ⟨v, hv, h⟩ := h
    obtain ⟨-, hact⟩ := step_cases hv
    cases hact with
    | accept hacceptor =>
        obtain ⟨later, hevents⟩ := run_events h
        have hconnected := run_connected hu
        rw [hacceptor] at hconnected
        refine hlife.notBefore u.events later _ ?_ hconnected
        rw [hevents, List.append_assoc]
        rfl
  · intro hmem
    have halone : Alone s := by
      refine Transition.run_invariant_of_meets (P := fun _ a => a ≠ Action.accept)
        (fun _ _ _ hs ha h => step_alone hs ha h) alone_init
        (Transition.meets_of_forall_mem (P := fun a => a ≠ Action.accept) ?_ _) h
      rintro b hb rfl
      exact hmem hb
    refine ⟨fun id hid => absurd hid (halone.events id).1, fun before after id hevents => ?_,
      fun id => ?_, fun before after id hevents => ?_, fun id hended => ?_⟩
    · exact absurd (by rw [hevents]; simp) (halone.events id).1
    · rw [List.count_eq_zero.2 (halone.events id).2]
      exact Nat.zero_le 1
    · exact absurd (by rw [hevents]; simp) (halone.events id).2
    · rw [halone.idle] at hended
      cases hended

theorem lifeCycle_iff_sample :
    ∃ s, Transition.run step init [.acceptError, .startAccept, .destruct [1]] = some s ∧
      s.LifeCycle := by
  obtain ⟨s, hs⟩ : ∃ s,
      Transition.run step init [.acceptError, .startAccept, .destruct [1]] = some s := ⟨_, rfl⟩
  exact ⟨s, hs, (lifeCycle_iff hs).2 (by simp)⟩

/-- A client comes and goes. -/
theorem never_gone :
    (∃ s, Transition.run step init
        [.accept, .start, .insert, .inserted, .startAccept, .readError 0] = some s ∧
      s.events = [.connected 0, .accepted 0, .connected 1] ∧ s.sessions = [0]) ∧
    ¬ ∀ as s, Transition.run step init as = some s → s.LifeCycle := by
  refine ⟨⟨_, rfl, rfl, rfl⟩, fun h => ?_⟩
  have hlife := h [.accept] _ rfl
  exact hlife.notBefore [.connected 0] [] 0 rfl (by decide)

/-! ### Replies -/

/-- Neither stopped nor destroyed. -/
def Live (s : TCPServer) (id : ℕ) : Prop :=
  (s.object id).isClosed = false ∧ (s.object id).isDestroyed = false

/-- `NetLogic` is sure to find the session whose message it handles, if it is live. -/
def Replies (s : TCPServer) : Action → Prop
  | .reply => s.Running → ∀ id, s.handling = some id → s.Live id →
      ∀ lost, s.getSession lost id = some id
  | _ => True

/-- A message of a live session is not handled while its accept handler is between `Start` and the
insertion, nor while any insertion is going on. -/
def NotBetween (s : TCPServer) : Action → Prop
  | .reply => s.Running → ∀ id, s.handling = some id → s.Live id →
      s.acceptor ≠ .started id ∧ ∀ other, s.acceptor ≠ .inserting other
  | _ => True

/-- Whether `new_session` is on its way into `_sessions`. -/
def Acceptor.New : Acceptor → Prop
  | .waiting _ | .accepted _ | .started _ | .inserting _ => True
  | .inserted _ | .failed _ => False

/-- Ids are given out in order; what reads is filed, or about to be; and messages come from what
reads. -/
structure Registered (s : TCPServer) : Prop where
  newest : s.acceptor.newSession + 1 = s.sessionIdCounter
  known : ∀ id ∈ s.sessions, id < s.sessionIdCounter
  new : Acceptor.New s.acceptor → s.acceptor.newSession ∉ s.sessions
  filed : s.isDestructed = false → ∀ id, (s.object id).reading ≠ .idle →
    id ∈ s.sessions ∨ s.acceptor = .started id ∨ s.acceptor = .inserting id
  started : ∀ id, (s.object id).reading ≠ .idle → id < s.sessionIdCounter
  queued : ∀ id, id ∈ s.queue ∨ s.handling = some id → (s.object id).reading ≠ .idle

theorem registered_init : Registered init where
  newest := rfl
  known := by simp [init, startAccept]
  new := by simp [init, startAccept]
  filed _ id h := absurd (alone_init.idle id) h
  started id h := absurd (alone_init.idle id) h
  queued id h := by simp [init, startAccept] at h

/-- What does not start reads, nor moves a session, keeps all of this. -/
theorem Registered.of_same (hs : Registered s) (hsessions : t.sessions = s.sessions)
    (hacceptor : t.acceptor = s.acceptor) (hcounter : t.sessionIdCounter = s.sessionIdCounter)
    (hdestructed : t.isDestructed = s.isDestructed)
    (hreading : ∀ id, (t.object id).reading = .idle ↔ (s.object id).reading = .idle)
    (hqueue : ∀ id, id ∈ t.queue ∨ t.handling = some id →
      (s.object id).reading ≠ .idle) : Registered t where
  newest := by rw [hacceptor, hcounter, hs.newest]
  known := by rw [hsessions, hcounter]; exact hs.known
  new := by rw [hsessions, hacceptor]; exact hs.new
  filed h id hid := by
    rw [hsessions, hacceptor]
    exact hs.filed (hdestructed ▸ h) id fun hidle => hid ((hreading id).2 hidle)
  started id hid := by
    rw [hcounter]
    exact hs.started id fun hidle => hid ((hreading id).2 hidle)
  queued id hid hidle := hqueue id hid ((hreading id).1 hidle)

/-- The reads of a session change, but are not started. -/
theorem Registered.update (hs : Registered s) (id : ℕ) {f : SessionObject → SessionObject}
    (hf : (f (s.object id)).reading = .idle ↔ (s.object id).reading = .idle) :
    Registered (s.update id f) := by
  refine hs.of_same rfl rfl rfl rfl (fun other => ?_) hs.queued
  rw [update_object]
  split_ifs with hid
  · rw [hf, hid]
  · exact Iff.rfl

theorem Registered.release (hs : Registered s) (id : ℕ) : Registered (s.release id) := by
  refine hs.of_same (by simp) (by simp) (by simp) ?_ (fun other => ?_) (by simpa using hs.queued)
  · rw [release_eq]
    split_ifs <;> rfl
  · rw [release_reading]

theorem Registered.stop (hs : Registered s) : Registered s.stop := by
  refine hs.of_same rfl rfl rfl rfl (fun other => ?_) hs.queued
  rw [stop_reading]

/-- A new session, which nobody knows yet. -/
theorem Registered.startAccept (hs : Registered s)
    (hacceptor : ∀ id, ¬ (s.acceptor = .started id ∨ s.acceptor = .inserting id)) :
    Registered s.startAccept where
  newest := rfl
  known id hid := (hs.known id hid).trans (Nat.lt_succ_self _)
  new _ hid := Nat.lt_irrefl _ (hs.known _ hid)
  filed hdestructed id hid := by
    rw [startAccept_reading] at hid
    split_ifs at hid
    · exact absurd rfl hid
    · exact .inl ((hs.filed hdestructed id hid).resolve_right (hacceptor id))
  started id hid := by
    rw [startAccept_reading] at hid
    split_ifs at hid
    · exact absurd rfl hid
    · exact (hs.started id hid).trans (Nat.lt_succ_self _)
  queued id hid := by
    have hreading := hs.queued id hid
    rw [startAccept_reading, if_neg (hs.started id hreading).ne]
    exact hreading

/-- The accept handler starts its session, and files it. -/
theorem Registered.start (hs : Registered s) {id : ℕ} (hacceptor : s.acceptor = .accepted id) :
    Registered
      { s.update id fun o => { o with reading := .pending } with acceptor := .started id } := by
  have hnew := hs.new (by rw [hacceptor]; trivial)
  have hnewest := hs.newest
  rw [hacceptor] at hnew hnewest
  refine ⟨hnewest, hs.known, fun _ => hnew, fun hdestructed other hother => ?_,
    fun other hother => ?_, fun other hother => ?_⟩
  · rw [update_object] at hother
    split_ifs at hother with hid
    · exact .inr (.inl (by rw [hid]))
    · exact .inl ((hs.filed hdestructed other hother).resolve_right (by simp [hacceptor]))
  · rw [update_object] at hother
    split_ifs at hother with hid
    · rw [hid]
      exact Nat.lt_of_succ_le hnewest.le
    · exact hs.started other hother
  · rw [update_object]
    split_ifs
    · exact nofun
    · exact hs.queued other hother

theorem Registered.insert (hs : Registered s) {id : ℕ} (hacceptor : s.acceptor = .started id) :
    Registered { s with acceptor := .inserting id } := by
  have hnew := hs.new (by rw [hacceptor]; trivial)
  have hnewest := hs.newest
  rw [hacceptor] at hnew hnewest
  refine ⟨hnewest, hs.known, fun _ => hnew, fun hdestructed other hother => ?_, hs.started,
    hs.queued⟩
  have hfiled := hs.filed hdestructed other hother
  rw [hacceptor] at hfiled
  simpa using hfiled

theorem Registered.inserted (hs : Registered s) {id : ℕ} (hacceptor : s.acceptor = .inserting id) :
    Registered
      { s with
        acceptor := .inserted id
        sessions := if id ∈ s.sessions then s.sessions else s.sessions ++ [id] } := by
  have hnew := hs.new (by rw [hacceptor]; trivial)
  have hnewest := hs.newest
  rw [hacceptor] at hnew hnewest
  have hmem (other : ℕ) :
      other ∈ (if id ∈ s.sessions then s.sessions else s.sessions ++ [id]) ↔
        other ∈ s.sessions ∨ other = id := by
    rw [if_neg (show id ∉ s.sessions from hnew)]
    simp
  refine ⟨hnewest, fun other hother => ?_, nofun, fun hdestructed other hother => ?_, hs.started,
    hs.queued⟩
  · rcases (hmem other).1 hother with hother | rfl
    · exact hs.known other hother
    · exact Nat.lt_of_succ_le hnewest.le
  · refine .inl ((hmem other).2 ((hs.filed hdestructed other hother).imp_right fun h => ?_))
    rw [hacceptor] at h
    simpa [eq_comm] using h

theorem step_registered (hs : Registered s) (h : step s a = some t) : Registered t := by
  obtain ⟨-, hact⟩ := step_cases h
  cases hact with
  | accept hacceptor =>
      have hnew := hs.new (by rw [hacceptor]; trivial)
      have hnewest := hs.newest
      rw [hacceptor] at hnew hnewest
      refine ⟨hnewest, hs.known, fun _ => hnew, fun hdestructed id hid => ?_, hs.started, hs.queued⟩
      exact .inl ((hs.filed hdestructed id hid).resolve_right (by simp [hacceptor]))
  | acceptError hacceptor =>
      have hnewest := hs.newest
      rw [hacceptor] at hnewest
      refine ⟨hnewest, hs.known, nofun, fun hdestructed id hid => ?_, hs.started, hs.queued⟩
      exact .inl ((hs.filed hdestructed id hid).resolve_right (by simp [hacceptor]))
  | start hacceptor => exact hs.start hacceptor
  | insert hacceptor => exact hs.insert hacceptor
  | inserted hacceptor => exact hs.inserted hacceptor
  | startAccept hacceptor =>
      refine (hs.startAccept fun id => ?_).release _
      rcases hacceptor with hacceptor | hacceptor
      · simp [hacceptor]
      · simp [hacceptor]
  | @message id hreads =>
      refine hs.of_same rfl rfl rfl rfl (fun _ => Iff.rfl) fun other hother => ?_
      rcases hother with hother | hother
      · rcases List.mem_append.1 hother with hother | hother
        · exact hs.queued other (.inl hother)
        · rw [List.mem_singleton.1 hother, hreads.1]
          decide
      · exact hs.queued other (.inr hother)
  | readError hreads => exact hs.update _ (by simp [hreads.1])
  | badHeader hreads => exact hs.update _ (by simp [hreads.1])
  | @pop id queue hqueue =>
      refine hs.of_same rfl rfl rfl rfl (fun _ => Iff.rfl) fun other hother => ?_
      refine hs.queued other (.inl ?_)
      rw [hqueue]
      rcases hother with hother | hother
      · exact List.mem_cons_of_mem _ hother
      · rw [Option.some.inj hother]
        exact List.mem_cons_self
  | reply =>
      refine hs.of_same rfl rfl rfl rfl (fun _ => Iff.rfl) fun other hother => ?_
      exact hs.queued other (hother.imp_right fun h => by cases h)
  | getSession => exact hs.update _ Iff.rfl
  | release => exact (hs.update _ Iff.rfl).release _
  | stop => exact hs.stop
  | destruct =>
      have hstop := hs.stop
      exact ⟨hstop.newest, nofun, fun _ => nofun, nofun, hstop.started, hstop.queued⟩

/-- A live session is sure to be found unless its accept handler has not filed it yet, or a session
is being filed. -/
theorem replies_iff_notBetween (hs : Registered s) (a : Action) :
    s.Replies a ↔ s.NotBetween a := by
  cases a with
  | reply =>
      refine forall_congr' fun hrunning => forall_congr' fun id => forall_congr' fun hhandling =>
        forall_congr' fun hlive => ?_
      constructor
      · intro hfound
        constructor
        · intro hstarted
          have hnew := hs.new (by rw [hstarted]; trivial)
          rw [hstarted] at hnew
          have hfound := hfound false
          rw [getSession, if_neg (by simp), if_neg (show id ∉ s.sessions from hnew)] at hfound
          cases hfound
        · intro other hinserting
          -- the search may lose its way
          have hfound := hfound true
          rw [getSession, if_pos ⟨by rw [Inserting, hinserting]; rfl, rfl⟩] at hfound
          cases hfound
      · rintro ⟨hstarted, hinserting⟩ lost
        have hfiled := hs.filed hrunning.1 id (hs.queued id (.inr hhandling))
        have hmem := hfiled.resolve_right fun h => h.elim hstarted (hinserting id)
        rw [getSession, if_neg fun h => hinserting _ h.1, if_pos hmem]
  | _ => exact Iff.rfl

/-- **Replies get through to sessions that are filed.**  In a run, `GetSession` is sure to find the
session of every message of a live session that is handled, if and only if none is handled between
the `Start` of its session and the insertion, nor while any insertion is going on. -/
theorem replies_iff (as : List Action) :
    Transition.Meets step Replies init as ↔ Transition.Meets step NotBetween init as :=
  Transition.meets_congr (I := Registered) (fun _ _ _ hs h => step_registered hs h)
    (fun _ a hs => replies_iff_notBetween hs a) registered_init as

/-- The first message of a client comes in, and is handled, before the insertion. -/
theorem reply_dropped :
    (∃ s, Transition.run step init [.accept, .start, .message 0, .pop] = some s ∧
      s.handling = some 0 ∧ s.Live 0 ∧ ∀ lost, s.getSession lost 0 = none) ∧
    ¬ ∀ as, Transition.Meets step Replies init as := by
  have hrun : ∃ s, Transition.run step init [.accept, .start, .message 0, .pop] = some s ∧
      s.handling = some 0 ∧ s.Live 0 ∧ (∀ lost, s.getSession lost 0 = none) ∧ s.Running :=
    ⟨_, rfl, rfl, ⟨rfl, rfl⟩, by decide, ⟨rfl, rfl⟩⟩
  obtain ⟨s, hs, hhandling, hlive, hnone, hrunning⟩ := hrun
  refine ⟨⟨s, hs, hhandling, hlive, hnone⟩, fun h => ?_⟩
  have hreplies := (Transition.meets_concat.1
    (h ([.accept, .start, .message 0, .pop] ++ [.reply]))).2 s hs
  have hfound := hreplies hrunning 0 hhandling hlive false
  rw [hnone] at hfound
  cases hfound

/-! ### The lock -/

/-- What can be done with a server: what its threads and its users do, and a `ClearSession`. -/
inductive Operation where
  | action (a : Action)
  | clearSession (id : ℕ)

def operate (s : TCPServer) : Operation → Option TCPServer
  | .action a => s.step a
  | .clearSession id => if s.Running then some (s.clearSession id) else none

/-- A session that is removed from `_sessions` has another owner. -/
def RemovesShared (s : TCPServer) : Operation → Prop
  | .action (.destruct _) => s.isDestructed = false → ∀ id ∈ s.sessions, s.Shared id
  | .clearSession id => s.isDestructed = false → id ∈ s.sessions → s.Shared id
  | _ => True

/-- No action but the destructor removes anything from `_sessions`. -/
theorem acts_reentered (ha : ∀ found, a ≠ .destruct found) (h : Acts s a t) :
    t.reentered = s.reentered := by
  cases h with
  | startAccept => simp [startAccept]
  | release => simp
  | destruct => exact absurd rfl (ha _)
  | _ => rfl

theorem destruct_reentered (hs : s.reentered = false) (found : List ℕ) :
    (s.destruct found).reentered = false ↔ ∀ id ∈ s.sessions, s.Shared id := by
  simp [destruct, hs, List.filter_eq_nil_iff]

theorem clearSession_reentered (hs : s.reentered = false) (id : ℕ) :
    (s.clearSession id).reentered = false ↔ (id ∈ s.sessions → s.Shared id) := by
  by_cases hmem : id ∈ s.sessions
  · have hshared : s.Shared id ↔ ¬ Unowned { s with
        events := s.events ++ [Event.disconnected id]
        sessions := s.sessions.filter (· ≠ id) } id := by
      simp only [Shared, Unowned, List.mem_filter, ne_eq, decide_not]
      simp [Nat.pos_iff_ne_zero]
      tauto
    unfold clearSession
    rw [if_neg (not_not.2 hmem)]
    dsimp only
    split_ifs with hunowned
    · exact iff_of_false (by simp) fun h => hshared.1 (h hmem) hunowned
    · exact iff_of_true hs fun _ => hshared.2 hunowned
  · rw [clearSession, if_pos hmem]
    exact iff_of_true hs fun h => absurd h hmem

theorem operate_reentered (hs : s.reentered = false) (op : Operation) :
    (∀ t, s.operate op = some t → t.reentered = false) ↔ s.RemovesShared op := by
  by_cases hdestructed : s.isDestructed = false
  · have hrunning : s.Running := ⟨hdestructed, hs⟩
    cases op with
    | action a =>
        by_cases ha : ∃ found, a = .destruct found
        · obtain ⟨found, rfl⟩ := ha
          have hstep : s.operate (.action (.destruct found)) = some (s.destruct found) :=
            if_pos hrunning
          simp only [hstep, Option.some.injEq, forall_eq', RemovesShared, hdestructed, true_imp_iff]
          exact destruct_reentered hs found
        · rw [not_exists] at ha
          refine iff_of_true (fun t ht => ?_) ?_
          · exact (acts_reentered ha (step_cases ht).2).trans hs
          · cases a with
            | destruct found => exact absurd rfl (ha found)
            | _ => trivial
    | clearSession id =>
        have hstep : s.operate (.clearSession id) = some (s.clearSession id) := if_pos hrunning
        simp only [hstep, Option.some.injEq, forall_eq', RemovesShared, hdestructed, true_imp_iff]
        exact clearSession_reentered hs id
  · have hnone : s.operate op = none := by
      cases op with
      | action a => exact if_neg fun h => hdestructed h.1
      | clearSession id => exact if_neg fun h => hdestructed h.1
    refine iff_of_true (fun t ht => ?_) ?_
    · rw [hnone] at ht
      cases ht
    · cases op with
      | action a =>
          cases a with
          | destruct found => exact fun h => absurd h hdestructed
          | _ => trivial
      | clearSession id => exact fun h => absurd h hdestructed

/-- **When no thread comes back to the lock that it holds.**  In a run of operations `ClearSession`
is never entered by a thread that holds `_mutex` or is changing `_sessions`, if and only if every
`ClearSession` and the destructor remove only sessions that have another owner than the map. -/
theorem reentered_iff (ops : List Operation) :
    (∀ done, done <+: ops → ∀ s, Transition.run operate init done = some s →
        s.reentered = false) ↔
      Transition.Meets operate RemovesShared init ops :=
  Transition.forall_states_iff (J := fun _ => True) (fun _ _ _ _ _ => trivial)
    (fun _ op _ hs => operate_reentered hs op) trivial rfl ops

/-- The server is destroyed while a client is connected. -/
theorem deadlock :
    (∃ s, Transition.run operate init
        ([.accept, .start, .insert, .inserted, .startAccept, .destruct [0]].map .action) = some s ∧
      s.reentered = true) ∧
    ¬ ∀ ops s, Transition.run operate init ops = some s → s.reentered = false := by
  refine ⟨⟨_, rfl, by decide⟩, fun h => ?_⟩
  have hfree := h
    ([.accept, .start, .insert, .inserted, .startAccept, .destruct [0]].map .action) _ rfl
  exact absurd hfree (by decide)

end TCPServer

end Net
end BreUtils
