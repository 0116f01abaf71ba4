/-
# The server of `net/TCPServer.hpp` and `net/TCP.hpp`

A server takes one connection after the other.  `startAccept` makes a session and waits for
a client with it; `handleAccept` starts the session, files it in `_sessions`, and calls
`startAccept` again.  Meanwhile the read handlers of the sessions, on other threads, push
messages to the queue of `NetLogic`, whose thread looks up the session of each message and
replies.  Each step here is one that another thread can come before or after; the accept
handler has one between `Start` and the insertion, and one in the middle of the insertion,
which it does without `_mutex`: a search of `_sessions` that falls there, under the lock or
not, can miss any session.

A session is known by its id, which a counter gives out; of the session itself there is
what the server can tell (`session_step`): whether a read is pending, whether it is closed,
and how many `shared_ptr`s there are besides the one in `_sessions` and the one of the
accept handler.  With the last of them the destructor runs, on the thread that gave it up,
and calls `ClearSession`.  A thread that holds `_mutex`, or is in the middle of changing
`_sessions`, does not get anywhere from there, but it calls `OnClientDisconnected` before
it comes to the lock; it is recorded, and the run ends.
-/

import BreUtils.Net.TcpReadChain

namespace BreUtils
namespace Net

open Lib

/-- Where the reads of a session are. -/
inductive Reading where
  /-- The session is not started. -/
  | idle
  | pending
  /-- No read is pending any more. -/
  | ended
  deriving DecidableEq

/-- A `TCPSession`, as the server sees it. -/
structure SessionObject where
  reading : Reading := .idle
  isClosed : Bool := false
  /-- The `shared_ptr`s that `GetSession` returned and that are still held. -/
  owners : ℕ := 0
  isDestroyed : Bool := false
  deriving DecidableEq

/-- Where the accept loop is, with its `new_session`. -/
inductive Acceptor where
  /-- `async_accept` is waiting. -/
  | waiting (id : ℕ)
  /-- `handleAccept`, without an error; `Start` is next. -/
  | accepted (id : ℕ)
  /-- `_sessions.insert` is next. -/
  | started (id : ℕ)
  /-- `_sessions.insert` is going on. -/
  | inserting (id : ℕ)
  /-- `startAccept` is next. -/
  | inserted (id : ℕ)
  /-- `handleAccept`, with an error; `startAccept` is next. -/
  | failed (id : ℕ)
  deriving DecidableEq

/-- `new_session`, which the handler holds a `shared_ptr` to. -/
def Acceptor.newSession : Acceptor → ℕ
  | waiting id | accepted id | started id | inserting id | inserted id | failed id => id

/-- What happens to a client. -/
inductive Event where
  /-- `OnClientConnected`. -/
  | connected (id : ℕ)
  /-- The accept succeeded. -/
  | accepted (id : ℕ)
  /-- `OnClientDisconnected`. -/
  | disconnected (id : ℕ)
  deriving DecidableEq

/-- `TCPServer`, with its sessions and its `NetLogic`. -/
structure TCPServer where
  /-- The keys of `_sessions`. -/
  sessions : List ℕ
  object : ℕ → SessionObject
  /-- `TCPSession::_session_id_counter`. -/
  sessionIdCounter : ℕ
  acceptor : Acceptor
  /-- `NetLogic::_queue`, by `SessionId`. -/
  queue : List ℕ
  /-- The message that `NetLogic` is handling, by `SessionId`. -/
  handling : Option ℕ
  /-- `_io_context` is stopped. -/
  isStopped : Bool
  isDestructed : Bool
  /-- `ClearSession` was entered by a thread that holds `_mutex` or is changing `_sessions`. -/
  reentered : Bool
  events : List Event

namespace TCPServer

def update (s : TCPServer) (id : ℕ) (f : SessionObject → SessionObject) : TCPServer :=
  { s with object := Function.update s.object id (f (s.object id)) }

/-- `startAccept`. -/
def startAccept (s : TCPServer) : TCPServer :=
  { s with
    object := Function.update s.object s.sessionIdCounter {}
    sessionIdCounter := s.sessionIdCounter + 1
    acceptor := .waiting s.sessionIdCounter
    events := s.events ++ [.connected s.sessionIdCounter] }

/-- The constructor. -/
def init : TCPServer :=
  startAccept
    { sessions := []
      object := fun _ => {}
      sessionIdCounter := 0
      acceptor := .waiting 0
      queue := []
      handling := none
      isStopped := false
      isDestructed := false
      reentered := false
      events := [] }

/-- No `shared_ptr` to the session is left. -/
def Unowned (s : TCPServer) (id : ℕ) : Prop :=
  id ∉ s.sessions ∧ (s.object id).owners = 0 ∧ s.acceptor.newSession ≠ id

instance (s : TCPServer) (id : ℕ) : Decidable (s.Unowned id) :=
  inferInstanceAs (Decidable (_ ∧ _ ∧ _))

/-- `~TCPSession`, behind its callback. -/
def destroy (s : TCPServer) (id : ℕ) : TCPServer :=
  s.update id fun o => { o with isClosed := true, isDestroyed := true }

/-- `ClearSession`. -/
def clearSession (s : TCPServer) (id : ℕ) : TCPServer :=
  if id ∉ s.sessions then s
  else
    let s := { s with events := s.events ++ [Event.disconnected id] }
    -- under the lock: `~TCPSession` calls `ClearSession` from inside `erase`
    let s := { s with sessions := s.sessions.filter (· ≠ id) }
    if s.Unowned id then { s.destroy id with reentered := true } else s

/-- A `shared_ptr` outside `_sessions` is gone, on a thread that does not hold the lock. -/
def release (s : TCPServer) (id : ℕ) : TCPServer :=
  if s.Unowned id then (s.clearSession id).destroy id else s

/-- `_sessions.insert` is going on, which does not hold `_mutex`. -/
def Inserting (s : TCPServer) : Prop := s.acceptor = .inserting s.acceptor.newSession

instance (s : TCPServer) : Decidable s.Inserting := inferInstanceAs (Decidable (_ = _))

/-- `GetSession`.  Whether its search loses its way in an insertion that is going on is up to the
threads. -/
def getSession (s : TCPServer) (lost : Bool) (id : ℕ) : Option ℕ :=
  if s.Inserting ∧ lost = true then none else if id ∈ s.sessions then some id else none

/-- `Stop`. -/
def stop (s : TCPServer) : TCPServer :=
  { s with
    object := fun id =>
      if id ∈ s.sessions then { s.object id with isClosed := true } else s.object id
    isStopped := true }

/-- A session in `_sessions` has another owner. -/
def Shared (s : TCPServer) (id : ℕ) : Prop :=
  0 < (s.object id).owners ∨ s.acceptor.newSession = id

instance (s : TCPServer) (id : ℕ) : Decidable (s.Shared id) :=
  inferInstanceAs (Decidable (_ ∨ _))

/-- `~TCPServer`.  `_sessions.clear()` destroys what nobody else owns, under the lock:
`ClearSession` reports the first session of these that it still finds in the map, and then comes to
the lock.  Which ones it would find, and in which order they come, is up to the map. -/
def destruct (s : TCPServer) (found : List ℕ) : TCPServer :=
  let gone := s.sessions.filter fun id => ¬ s.Shared id
  { s.stop with
    isDestructed := true
    reentered := s.reentered || !gone.isEmpty
    sessions := []
    events := s.events ++ (found.find? (· ∈ gone)).toList.map .disconnected }

inductive Action where
  /-- A client is there. -/
  | accept
  | acceptError
  /-- The parts of `handleAccept`; the insertion has a beginning and an end. -/
  | start
  | insert
  | inserted
  | startAccept
  /-- The read handlers of a session: a message comes in, a read fails, `Parse` rejects a header. -/
  | message (id : ℕ)
  | readError (id : ℕ)
  | badHeader (id : ℕ)
  /-- The thread of `NetLogic`: it takes a message, and replies to it. -/
  | pop
  | reply
  /-- A call of `GetSession` whose result is kept, and the end of such a result. -/
  | getSession (id : ℕ)
  | release (id : ℕ)
  | stop
  | destruct (found : List ℕ)

/-- A read of the session is pending. -/
def Reads (s : TCPServer) (id : ℕ) : Prop :=
  (s.object id).reading = .pending ∧ (s.object id).isDestroyed = false

instance (s : TCPServer) (id : ℕ) : Decidable (s.Reads id) := inferInstanceAs (Decidable (_ ∧ _))

/-- What the actions do, while there is a server. -/
def act (s : TCPServer) : Action → Option TCPServer
  | .accept =>
      match s.acceptor with
      | .waiting id =>
          if s.isStopped then none
          else some { s with acceptor := .accepted id, events := s.events ++ [.accepted id] }
      | _ => none
  | .acceptError =>
      match s.acceptor with
      | .waiting id => if s.isStopped then none else some { s with acceptor := .failed id }
      | _ => none
  | .start =>
      match s.acceptor with
      | .accepted id =>
          some { s.update id fun o => { o with reading := .pending } with acceptor := .started id }
      | _ => none
  | .insert =>
      match s.acceptor with
      | .started id => some { s with acceptor := .inserting id }
      | _ => none
  | .inserted =>
      match s.acceptor with
      | .inserting id =>
          some { s with
            acceptor := .inserted id
            sessions := if id ∈ s.sessions then s.sessions else s.sessions ++ [id] }
      | _ => none
  | .startAccept =>
      match s.acceptor with
      | .inserted id | .failed id => some (s.startAccept.release id)
      | _ => none
  | .message id => if s.Reads id then some { s with queue := s.queue ++ [id] } else none
  | .readError id =>
      if s.Reads id then
        some (s.update id fun o => { o with reading := .ended, isClosed := true })
      else none
  | .badHeader id =>
      if s.Reads id then some (s.update id fun o => { o with reading := .ended }) else none
  | .pop =>
      match s.handling, s.queue with
      | none, id :: queue => some { s with handling := some id, queue }
      | _, _ => none
  | .reply =>
      match s.handling with
      | some _ => some { s with handling := none }
      | none => none
  | .getSession id =>
      if id ∈ s.sessions then some (s.update id fun o => { o with owners := o.owners + 1 })
      else none
  | .release id =>
      if 0 < (s.object id).owners then
        some ((s.update id fun o => { o with owners := o.owners - 1 }).release id)
      else none
  | .stop => some s.stop
  | .destruct found => some (s.destruct found)

/-- There is a server, and no thread of it is stuck. -/
def Running (s : TCPServer) : Prop := s.isDestructed = false ∧ s.reentered = false

instance (s : TCPServer) : Decidable s.Running := inferInstanceAs (Decidable (_ ∧ _))

/-- **One step.** -/
def step (s : TCPServer) (a : Action) : Option TCPServer := if s.Running then s.act a else none

/-! ### What the operations leave alone -/

section Frame

variable (s : TCPServer) (id : ℕ) (f : SessionObject → SessionObject)

@[simp] theorem update_acceptor : (s.update id f).acceptor = s.acceptor := rfl

@[simp] theorem update_events : (s.update id f).events = s.events := rfl

@[simp] theorem update_reentered : (s.update id f).reentered = s.reentered := rfl

theorem update_object (other : ℕ) :
    (s.update id f).object other = if other = id then f (s.object id) else s.object other := by
  exact Function.update_apply _ _ _ _

theorem update_reading (hf : (f (s.object id)).reading = (s.object id).reading) (other : ℕ) :
    ((s.update id f).object other).reading = (s.object other).reading := by
  rw [update_object]
  split_ifs with hid
  · rw [hf, hid]
  · rfl

/-- Closing sessions does not end their reads. -/
theorem stop_reading (other : ℕ) :
    (s.stop.object other).reading = (s.object other).reading := by
  unfold stop
  dsimp only
  split_ifs
  · rfl
  · rfl

theorem startAccept_reading (other : ℕ) :
    (s.startAccept.object other).reading =
      if other = s.sessionIdCounter then .idle else (s.object other).reading := by
  simp only [startAccept, Function.update_apply]
  split_ifs
  · rfl
  · rfl

/-- **Outside the lock, the destructor of a session finds nothing to clear.** -/
theorem release_eq : s.release id = if s.Unowned id then s.destroy id else s := by
  unfold release
  split_ifs with h
  · rw [clearSession, if_pos h.1]
  · rfl

@[simp] theorem release_sessions : (s.release id).sessions = s.sessions := by
  rw [release_eq]
  split_ifs <;> rfl

@[simp] theorem release_acceptor : (s.release id).acceptor = s.acceptor := by
  rw [release_eq]
  split_ifs <;> rfl

@[simp] theorem release_events : (s.release id).events = s.events := by
  rw [release_eq]
  split_ifs <;> rfl

@[simp] theorem release_reentered : (s.release id).reentered = s.reentered := by
  rw [release_eq]
  split_ifs <;> rfl

@[simp] theorem release_queue : (s.release id).queue = s.queue := by
  rw [release_eq]
  split_ifs <;> rfl

@[simp] theorem release_handling : (s.release id).handling = s.handling := by
  rw [release_eq]
  split_ifs <;> rfl

@[simp] theorem release_counter : (s.release id).sessionIdCounter = s.sessionIdCounter := by
  rw [release_eq]
  split_ifs <;> rfl

/-- The destructor of a session does not end its reads. -/
theorem release_reading (other : ℕ) :
    ((s.release id).object other).reading = (s.object other).reading := by
  rw [release_eq]
  split_ifs
  · exact update_reading s id _ rfl other
  · rfl

end Frame

/-! ### Sessions -/

/-- The reads of a session, as the server sees them. -/
def readingOf : Reader → Reading
  | .header | .parse _ | .callReadData _ | .data _ => .pending
  | .ended => .ended

/-- **What the server can tell of a session.**  Each step of a session is, to the server, nothing,
a `Stop`, a message while a read is pending, a read that fails, or the end of the reads without a
failure. -/
theorem session_step {s t : TCPSession} {a : TCPSession.Action}
    (h : TCPSession.step s a = some t) :
    (readingOf t.reader = readingOf s.reader ∧ t.received = s.received ∧
        (t.isClosed = s.isClosed ∨ (a = .stop ∧ t.isClosed = true))) ∨
      (a = .readData ∧ readingOf s.reader = .pending ∧ readingOf t.reader = .pending ∧
        t.isClosed = s.isClosed) ∨
      (readingOf s.reader = .pending ∧ readingOf t.reader = .ended ∧ t.received = s.received ∧
        (t.isClosed = s.isClosed ∨ (a = .readError ∧ t.isClosed = true))) := by
  obtain ⟨hsame, hclosed, hreceived⟩ | ⟨-, hheader, hclosed, hreceived, bytes, -, hparse⟩ |
    ⟨-, hclosed, hreceived, bytes, hreader, hnext⟩ |
    ⟨-, hclosed, hreceived, bytes, hreader, hnext⟩ | ⟨ha, hclosed, hheader, n, hdata⟩ |
    ⟨ha, hpending, hended, hclosed, hreceived⟩ := TCPSession.step_reader h
  · exact .inl ⟨by rw [hsame], hreceived, hclosed⟩
  · exact .inl ⟨by rw [hheader, hparse]; rfl, hreceived, .inl hclosed⟩
  · split_ifs at hnext
    · exact .inl ⟨by rw [hreader, hnext]; rfl, hreceived, .inl hclosed⟩
    · exact .inr (.inr ⟨by rw [hreader]; rfl, by rw [hnext]; rfl, hreceived, .inl hclosed⟩)
  · split_ifs at hnext
    · exact .inl ⟨by rw [hreader, hnext]; rfl, hreceived, .inl hclosed⟩
    · exact .inr (.inr ⟨by rw [hreader]; rfl, by rw [hnext]; rfl, hreceived, .inl hclosed⟩)
  · exact .inr (.inl ⟨ha, by rw [hdata]; rfl, by rw [hheader]; rfl, hclosed⟩)
  · refine .inr (.inr ⟨?_, by rw [hended]; rfl, hreceived, .inr ⟨ha, hclosed⟩⟩)
    rcases hpending with hheader | ⟨n, hdata⟩
    · rw [hheader]
      rfl
    · rw [hdata]
      rfl

end TCPServer

end Net
end BreUtils
