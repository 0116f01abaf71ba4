/-
# Clients, a server, and `TestNetLogic`

Each client holds a session, and the server holds one for each client; the bytes that one of the two
writes come in at the other one, in order and in whatever pieces.  The read handlers of all sessions
of the server push their messages to the one queue of `NetLogic`, whose thread takes them one by one
and replies to each with itself, through the session that `GetSession` finds.  A queue has room for
1024 items, and who pushes to a full one waits.

Two things are shared without a lock.  The read handlers of a session and its write thread use one
header object, and `handleAccept` inserts into `_sessions` without the mutex that `GetSession`
takes.  Where one of them comes upon the other there, it is a data race, and nothing is said of what
comes after (`clashed`): an insertion has a beginning and an end, and a search between them is lost.

Short of that, a client gets its own messages back, in the order in which it sent them, and each at
most once, however many clients there are and whatever comes in between (`echoes_in_order`).  A
message is dropped only where its session is not in `_sessions` when `GetSession` looks for it;
where none is, a client gets the first ones of its messages (`echoes_prefix`), and all of them once
nothing is under way (`echoes_all`).

The books `asked`, `handled` and `replied` say of each client what it passed to `Send`, what
`handleMessage` is done with, and what was passed to `Send` of its session.
-/

import BreUtils.Net.TcpDuplex
import Mathlib.Logic.Function.Basic

namespace BreUtils
namespace Net

open Lib

/-- The capacity of a `BlockQueue`, where no other one is given. -/
def maxCapacity : ℕ := 1024

/-- A server with `TestNetLogic`, and its clients. -/
structure EchoServer (I : Type*) where
  client : I → TCPSession
  session : I → TCPSession
  /-- The bytes that have come in at the session. -/
  upstream : I → List UInt8
  /-- The bytes that have come in at the client. -/
  downstream : I → List UInt8
  /-- The session is in `_sessions`. -/
  inSessions : I → Bool
  /-- The session that `_sessions.insert` is about to file. -/
  inserting : Option I
  /-- `NetLogic::_queue`. -/
  queue : List (I × List UInt8)
  /-- The message that `handleMessage` is called with. -/
  handling : Option (I × List UInt8)
  /-- `GetSession` has returned its session, which `handleMessage` holds a `shared_ptr` to. -/
  found : Bool
  /-- There was a data race. -/
  clashed : Bool
  asked : I → List (List UInt8)
  handled : I → List (List UInt8)
  replied : I → List (List UInt8)

namespace EchoServer

open TCPSession (Duplex Undisturbed sent arrived Waiting)

variable {I : Type*} [DecidableEq I]

/-- All clients are connected, and no session is filed yet. -/
def init : EchoServer I where
  client _ := TCPSession.init
  session _ := TCPSession.init
  upstream _ := []
  downstream _ := []
  inSessions _ := false
  inserting := none
  queue := []
  handling := none
  found := false
  clashed := false
  asked _ := []
  handled _ := []
  replied _ := []

inductive Action (I : Type*) where
  /-- The client calls `Send`. -/
  | send (i : I) (message : List UInt8)
  /-- A thread of the client's session moves. -/
  | client (i : I) (a : TCPSession.Action)
  /-- A thread of the server's session moves. -/
  | session (i : I) (a : TCPSession.Action)
  /-- Bytes come in at the session, or at the client. -/
  | up (i : I) (bytes : List UInt8)
  | down (i : I) (bytes : List UInt8)
  /-- `_sessions.insert` begins, and ends.  Only `~TCPServer` takes a session out again. -/
  | insert (i : I)
  | inserted
  /-- The thread of `NetLogic`: `_queue.Pop(msg, 10)` returns a message; `handleMessage` calls
  `GetSession`, and `Send` of the session that it gets. -/
  | pop
  | getSession
  | reply
  /-- In a client's session or one of the server, `GetHeaderData` overlaps with `Parse`, or with the
  read of the length behind it. -/
  | clashClient (i : I)
  | clashSession (i : I)

/-- The steps of a session's own threads: no call of `Send`, and no bytes that come in. -/
def IsOwn : TCPSession.Action → Bool
  | .send _ | .arrive _ => false
  | _ => true

/-- What the callback is called with in a step from `s` to `t`. -/
def fresh (s t : TCPSession) : List (List UInt8) := t.received.drop s.received.length

/-- Both the read handlers and the write thread are about to use the header object. -/
def SharesHeader (u : TCPSession) : Bool :=
  match u.reader, u.writer with
  | .parse _, .popped _ | .callReadData _, .popped _ => true
  | _, _ => false

/-- What an action does. -/
def act (s : EchoServer I) : Action I → Option (EchoServer I)
  | .send i message =>
      if (s.client i).queueSend.length < maxCapacity then
        ((s.client i).step (.send message)).map fun t =>
          { s with
            client := Function.update s.client i t
            asked := Function.update s.asked i (s.asked i ++ [message]) }
      else none
  | .client i a =>
      if IsOwn a then
        ((s.client i).step a).map fun t => { s with client := Function.update s.client i t }
      else none
  | .session i a =>
      if IsOwn a then
        ((s.session i).step a).bind fun t =>
          -- the callback pushes to the queue, and waits if it is full
          if fresh (s.session i) t ≠ [] ∧ maxCapacity ≤ s.queue.length then none
          else
            some { s with
              session := Function.update s.session i t
              queue := s.queue ++ (fresh (s.session i) t).map (Prod.mk i) }
      else none
  | .up i bytes =>
      if s.upstream i ++ bytes <+: (s.client i).output then
        ((s.session i).step (.arrive bytes)).map fun t =>
          { s with
            session := Function.update s.session i t
            upstream := Function.update s.upstream i (s.upstream i ++ bytes) }
      else none
  | .down i bytes =>
      if s.downstream i ++ bytes <+: (s.session i).output then
        ((s.client i).step (.arrive bytes)).map fun t =>
          { s with
            client := Function.update s.client i t
            downstream := Function.update s.downstream i (s.downstream i ++ bytes) }
      else none
  | .insert i =>
      match s.inserting with
      | none => some { s with inserting := some i }
      | some _ => none
  | .inserted =>
      match s.inserting with
      | none => none
      | some i =>
          some { s with inSessions := Function.update s.inSessions i true, inserting := none }
  | .pop =>
      match s.handling, s.queue with
      | none, msg :: queue => some { s with handling := some msg, found := false, queue }
      | _, _ => none
  | .getSession =>
      match s.handling, s.found with
      | some (i, data), false =>
          if s.inserting.isSome then some { s with clashed := true }
          else if s.inSessions i then some { s with found := true }
          else
            some { s with
              handling := none
              handled := Function.update s.handled i (s.handled i ++ [data]) }
      | _, _ => none
  | .reply =>
      match s.handling, s.found with
      | some (i, data), true =>
          if (s.session i).queueSend.length < maxCapacity then
            ((s.session i).step (.send data)).map fun t =>
              { s with
                session := Function.update s.session i t
                handling := none
                handled := Function.update s.handled i (s.handled i ++ [data])
                replied := Function.update s.replied i (s.replied i ++ [data]) }
          else none
      | _, _ => none
  | .clashClient i => if SharesHeader (s.client i) then some { s with clashed := true } else none
  | .clashSession i => if SharesHeader (s.session i) then some { s with clashed := true } else none

/-- **One step.**  A data race is undefined, and nothing is said of what comes after it. -/
def step (s : EchoServer I) (a : Action I) : Option (EchoServer I) :=
  if s.clashed then none else act s a

variable {s s' : EchoServer I} {a : Action I} {as : List (Action I)} {i : I}

/-- No session is disturbed, and no message is longer than an `int` can say. -/
def Calm (s : EchoServer I) : Action I → Prop
  | .send _ message => message.length < 2 ^ 31
  | .client i a => Undisturbed (s.client i) a
  | .session i a => Undisturbed (s.session i) a
  | _ => True

/-- No message is dropped: its session is there when `GetSession` looks for it. -/
def Finds (s : EchoServer I) : Action I → Prop
  | .getSession => ∀ i data, s.handling = some (i, data) → s.inSessions i = true
  | _ => True

/-- The messages of a client that are still to be handled. -/
def pending (s : EchoServer I) (i : I) : List (List UInt8) :=
  ((s.handling.toList ++ s.queue).filter fun msg => msg.1 = i).map Prod.snd

/-! ### The invariant -/

/-- What holds of one client and its session. -/
structure Line (s : EchoServer I) (i : I) : Prop where
  client : Duplex (s.asked i) (s.replied i) (s.downstream i) (s.client i)
  session : Duplex (s.replied i) (s.asked i) (s.upstream i) (s.session i)
  upstream : s.upstream i <+: (s.client i).output
  downstream : s.downstream i <+: (s.session i).output
  short : ∀ message ∈ s.asked i, message.length < 2 ^ 31
  received : (s.session i).received = s.handled i ++ s.pending i
  replied : (s.replied i).Sublist (s.handled i)

theorem line_init (i : I) : Line init i where
  client := TCPSession.duplex_init
  session := TCPSession.duplex_init
  upstream := List.prefix_rfl
  downstream := List.prefix_rfl
  short := by simp [init]
  received := rfl
  replied := List.Sublist.refl _

/-- What is replied to a client was sent by it. -/
theorem Line.replied_sublist (h : Line s i) : (s.replied i).Sublist (s.asked i) :=
  h.replied.trans ((List.prefix_append _ _).sublist.trans
    (h.received ▸ h.session.received.sublist))

theorem Line.replied_short (h : Line s i) : ∀ message ∈ s.replied i, message.length < 2 ^ 31 :=
  fun message hmessage => h.short message (h.replied_sublist.subset hmessage)

theorem Line.upstream_wire (h : Line s i) : s.upstream i <+: wire (s.asked i) :=
  h.upstream.trans h.client.sends.output_prefix

theorem Line.downstream_wire (h : Line s i) : s.downstream i <+: wire (s.replied i) :=
  h.downstream.trans h.session.sends.output_prefix

/-- A step of another client changes nothing about this one. -/
theorem Line.of_same (h : Line s i) (hclient : s'.client i = s.client i)
    (hsession : s'.session i = s.session i) (hupstream : s'.upstream i = s.upstream i)
    (hdownstream : s'.downstream i = s.downstream i) (hasked : s'.asked i = s.asked i)
    (hhandled : s'.handled i = s.handled i) (hreplied : s'.replied i = s.replied i)
    (hpending : s'.pending i = s.pending i) : Line s' i := by
  constructor
  · rw [hasked, hreplied, hdownstream, hclient]
    exact h.client
  · rw [hasked, hreplied, hupstream, hsession]
    exact h.session
  · rw [hupstream, hclient]
    exact h.upstream
  · rw [hdownstream, hsession]
    exact h.downstream
  · rw [hasked]
    exact h.short
  · rw [hsession, hhandled, hpending]
    exact h.received
  · rw [hreplied, hhandled]
    exact h.replied

/-! ### What a step of a session does, seen from outside -/

section Session

variable {u t : TCPSession} {b : TCPSession.Action}

/-- What is written stays written. -/
theorem output_grows (h : u.step b = some t) : u.output <+: t.output := by
  cases TCPSession.step_cases h with
  | writeHeader | writePayload | writeError => exact List.prefix_append _ _
  | _ => exact List.prefix_rfl

/-- The callback is called with the messages that are new. -/
theorem received_fresh (h : u.step b = some t) : t.received = u.received ++ fresh u t := by
  unfold fresh
  cases TCPSession.step_cases h with
  | readData => simp
  | _ => simp

theorem received_of_step_send {message : List UInt8} (h : u.step (.send message) = some t) :
    t.received = u.received ∧ t.output = u.output := by
  cases TCPSession.step_cases h
  exact ⟨rfl, rfl⟩

theorem received_of_arrive {bytes : List UInt8} (h : u.step (.arrive bytes) = some t) :
    t.received = u.received ∧ t.output = u.output := by
  cases TCPSession.step_cases h
  exact ⟨rfl, rfl⟩

/-- A session's own threads neither ask to send nor make bytes come in. -/
theorem sent_of_isOwn (h : IsOwn b = true) : sent [b] = [] ∧ arrived [b] = [] := by
  cases b <;> first | exact ⟨rfl, rfl⟩ | exact absurd h (by simp [IsOwn])

end Session

/-! ### One step -/

theorem act_of_step (h : step s a = some s') : act s a = some s' := by
  unfold step at h
  split_ifs at h
  exact h

theorem step_of_unclashed (h : s.clashed = false) (a : Action I) : step s a = act s a := by
  unfold step
  rw [h]
  rfl

theorem step_send {message : List UInt8} (h : step s (.send i message) = some s') :
    ∃ t, (s.client i).step (.send message) = some t ∧
      s' = { s with
        client := Function.update s.client i t
        asked := Function.update s.asked i (s.asked i ++ [message]) } := by
  have h := act_of_step h
  simp only [act] at h
  split_ifs at h
  obtain ⟨t, ht, rfl⟩ := Option.map_eq_some_iff.1 h
  exact ⟨t, ht, rfl⟩

theorem step_client {b : TCPSession.Action} (h : step s (.client i b) = some s') :
    IsOwn b = true ∧ ∃ t, (s.client i).step b = some t ∧
      s' = { s with client := Function.update s.client i t } := by
  have h := act_of_step h
  simp only [act] at h
  split_ifs at h with hown
  obtain ⟨t, ht, rfl⟩ := Option.map_eq_some_iff.1 h
  exact ⟨hown, t, ht, rfl⟩

theorem step_session {b : TCPSession.Action} (h : step s (.session i b) = some s') :
    IsOwn b = true ∧ ∃ t, (s.session i).step b = some t ∧
      s' = { s with
        session := Function.update s.session i t
        queue := s.queue ++ (fresh (s.session i) t).map (Prod.mk i) } := by
  have h := act_of_step h
  simp only [act] at h
  split_ifs at h with hown
  obtain ⟨t, ht, h⟩ := Option.bind_eq_some_iff.1 h
  split_ifs at h
  exact ⟨hown, t, ht, (Option.some.inj h).symm⟩

theorem step_up {bytes : List UInt8} (h : step s (.up i bytes) = some s') :
    s.upstream i ++ bytes <+: (s.client i).output ∧
      ∃ t, (s.session i).step (.arrive bytes) = some t ∧
        s' = { s with
          session := Function.update s.session i t
          upstream := Function.update s.upstream i (s.upstream i ++ bytes) } := by
  have h := act_of_step h
  simp only [act] at h
  split_ifs at h with hbeginning
  obtain ⟨t, ht, rfl⟩ := Option.map_eq_some_iff.1 h
  exact ⟨hbeginning, t, ht, rfl⟩

theorem step_down {bytes : List UInt8} (h : step s (.down i bytes) = some s') :
    s.downstream i ++ bytes <+: (s.session i).output ∧
      ∃ t, (s.client i).step (.arrive bytes) = some t ∧
        s' = { s with
          client := Function.update s.client i t
          downstream := Function.update s.downstream i (s.downstream i ++ bytes) } := by
  have h := act_of_step h
  simp only [act] at h
  split_ifs at h with hbeginning
  obtain ⟨t, ht, rfl⟩ := Option.map_eq_some_iff.1 h
  exact ⟨hbeginning, t, ht, rfl⟩

theorem step_pop (h : step s .pop = some s') :
    ∃ msg queue, s.handling = none ∧ s.queue = msg :: queue ∧
      s' = { s with handling := some msg, found := false, queue } := by
  have h := act_of_step h
  simp only [act] at h
  split at h
  · rename_i msg queue hhandling hqueue
    exact ⟨msg, queue, hhandling, hqueue, (Option.some.inj h).symm⟩
  · exact absurd h (by simp)

/-- `GetSession` comes upon an insertion, or it finds the session, or `handleMessage` drops the
message. -/
theorem step_getSession (h : step s .getSession = some s') :
    ∃ i data, s.handling = some (i, data) ∧
      (s.inserting.isSome = true ∧ s' = { s with clashed := true } ∨
        s.inserting = none ∧ s.inSessions i = true ∧ s.found = false ∧
          s' = { s with found := true } ∨
        s.inserting = none ∧ s.inSessions i = false ∧
          s' = { s with
            handling := none
            handled := Function.update s.handled i (s.handled i ++ [data]) }) := by
  have h := act_of_step h
  simp only [act] at h
  split at h
  · rename_i i data hhandling hfound
    refine ⟨i, data, hhandling, ?_⟩
    split_ifs at h with hinserting hin
    · exact Or.inl ⟨hinserting, (Option.some.inj h).symm⟩
    · exact Or.inr (Or.inl ⟨by simpa using hinserting, hin, hfound, (Option.some.inj h).symm⟩)
    · exact Or.inr (Or.inr ⟨by simpa using hinserting, by simpa using hin,
        (Option.some.inj h).symm⟩)
  · exact absurd h (by simp)

/-- `handleMessage` sends the message back. -/
theorem step_reply (h : step s .reply = some s') :
    ∃ i data t, s.handling = some (i, data) ∧ s.found = true ∧
      (s.session i).step (.send data) = some t ∧
      s' = { s with
        session := Function.update s.session i t
        handling := none
        handled := Function.update s.handled i (s.handled i ++ [data])
        replied := Function.update s.replied i (s.replied i ++ [data]) } := by
  have h := act_of_step h
  simp only [act] at h
  split at h
  · rename_i i data hhandling hfound
    split_ifs at h
    obtain ⟨t, ht, rfl⟩ := Option.map_eq_some_iff.1 h
    exact ⟨i, data, t, hhandling, hfound, ht, rfl⟩
  · exact absurd h (by simp)

/-- What the steps do that neither use a session nor the queue. -/
theorem step_other (h : step s a = some s')
    (ha : (∃ i, a = .insert i ∨ a = .clashClient i ∨ a = .clashSession i) ∨ a = .inserted) :
    ∃ inSessions inserting clashed, s' = { s with inSessions, inserting, clashed } := by
  have h := act_of_step h
  rcases ha with ⟨i, rfl | rfl | rfl⟩ | rfl
  · simp only [act] at h
    split at h
    · exact ⟨_, _, _, (Option.some.inj h).symm⟩
    · exact absurd h (by simp)
  · simp only [act] at h
    split_ifs at h
    exact ⟨_, _, _, (Option.some.inj h).symm⟩
  · simp only [act] at h
    split_ifs at h
    exact ⟨_, _, _, (Option.some.inj h).symm⟩
  · simp only [act] at h
    split at h
    · exact absurd h (by simp)
    · exact ⟨_, _, _, (Option.some.inj h).symm⟩

/-! ### The invariant is kept -/

theorem line_send {j : I} {message : List UInt8} (hs : Line s i)
    (hshort : message.length < 2 ^ 31) (h : step s (.send j message) = some s') : Line s' i := by
  obtain ⟨t, ht, rfl⟩ := step_send h
  by_cases hij : i = j
  · subst hij
    have hclient :=
      TCPSession.step_duplex hs.client hs.replied_short hs.downstream_wire (by trivial) ht
    obtain ⟨-, houtput⟩ := received_of_step_send ht
    constructor
    · simp only [Function.update_self]
      exact (List.append_nil (s.downstream i)) ▸ hclient
    · simp only [Function.update_self]
      exact hs.session.extend [message]
    · simp only [Function.update_self]
      rw [houtput]
      exact hs.upstream
    · exact hs.downstream
    · simp only [Function.update_self]
      intro m hm
      rcases List.mem_append.1 hm with hm | hm
      · exact hs.short m hm
      · exact List.mem_singleton.1 hm ▸ hshort
    · exact hs.received
    · exact hs.replied
  · exact hs.of_same (Function.update_of_ne hij _ _) rfl rfl rfl (Function.update_of_ne hij _ _)
      rfl rfl rfl

theorem line_client {j : I} {b : TCPSession.Action} (hs : Line s i)
    (hcalm : Undisturbed (s.client j) b) (h : step s (.client j b) = some s') : Line s' i := by
  obtain ⟨hown, t, ht, rfl⟩ := step_client h
  by_cases hij : i = j
  · subst hij
    have hclient := TCPSession.step_duplex hs.client hs.replied_short hs.downstream_wire hcalm ht
    rw [(sent_of_isOwn hown).1, (sent_of_isOwn hown).2, List.append_nil, List.append_nil] at hclient
    constructor
    · simp only [Function.update_self]
      exact hclient
    · exact hs.session
    · simp only [Function.update_self]
      exact hs.upstream.trans (output_grows ht)
    · exact hs.downstream
    · exact hs.short
    · exact hs.received
    · exact hs.replied
  · exact hs.of_same (Function.update_of_ne hij _ _) rfl rfl rfl rfl rfl rfl rfl

/-- New messages in the queue. -/
theorem pending_push (s : EchoServer I) (i j : I) (messages : List (List UInt8)) :
    (((s.handling.toList ++ (s.queue ++ messages.map (Prod.mk j))).filter
      fun msg => msg.1 = i).map Prod.snd) =
        s.pending i ++ if j = i then messages else [] := by
  rw [pending, ← List.append_assoc, List.filter_append, List.map_append]
  congr 1
  split_ifs with hji
  · rw [List.filter_eq_self.2 (by simp [hji]), List.map_map]
    simp
  · rw [List.filter_eq_nil_iff.2 (by simp [hji])]
    rfl

theorem line_session {j : I} {b : TCPSession.Action} (hs : Line s i)
    (hcalm : Undisturbed (s.session j) b) (h : step s (.session j b) = some s') : Line s' i := by
  obtain ⟨hown, t, ht, rfl⟩ := step_session h
  by_cases hij : i = j
  · subst hij
    have hsession := TCPSession.step_duplex hs.session hs.short hs.upstream_wire hcalm ht
    rw [(sent_of_isOwn hown).1, (sent_of_isOwn hown).2, List.append_nil, List.append_nil]
      at hsession
    constructor
    · exact hs.client
    · simp only [Function.update_self]
      exact hsession
    · exact hs.upstream
    · simp only [Function.update_self]
      exact hs.downstream.trans (output_grows ht)
    · exact hs.short
    · have hpush := pending_push s i i (fresh (s.session i) t)
      rw [if_pos rfl] at hpush
      simp only [Function.update_self]
      rw [received_fresh ht, hs.received, List.append_assoc, ← hpush]
      rfl
    · exact hs.replied
  · have hpush := pending_push s i j (fresh (s.session j) t)
    rw [if_neg (Ne.symm hij), List.append_nil] at hpush
    exact hs.of_same rfl (Function.update_of_ne hij _ _) rfl rfl rfl rfl rfl hpush

theorem line_up {j : I} {bytes : List UInt8} (hs : Line s i)
    (h : step s (.up j bytes) = some s') : Line s' i := by
  obtain ⟨hbeginning, t, ht, rfl⟩ := step_up h
  by_cases hij : i = j
  · subst hij
    have hsession := TCPSession.step_duplex hs.session hs.short hs.upstream_wire (by trivial) ht
    have harrived : arrived [.arrive bytes] = bytes := List.append_nil bytes
    have hsent : sent [.arrive bytes] = [] := rfl
    rw [harrived, hsent, List.append_nil] at hsession
    obtain ⟨hreceived, houtput⟩ := received_of_arrive ht
    constructor
    · exact hs.client
    · simp only [Function.update_self]
      exact hsession
    · simp only [Function.update_self]
      exact hbeginning
    · simp only [Function.update_self]
      rw [houtput]
      exact hs.downstream
    · exact hs.short
    · simp only [Function.update_self]
      rw [hreceived]
      exact hs.received
    · exact hs.replied
  · exact hs.of_same rfl (Function.update_of_ne hij _ _) (Function.update_of_ne hij _ _) rfl rfl rfl
      rfl rfl

theorem line_down {j : I} {bytes : List UInt8} (hs : Line s i)
    (h : step s (.down j bytes) = some s') : Line s' i := by
  obtain ⟨hbeginning, t, ht, rfl⟩ := step_down h
  by_cases hij : i = j
  · subst hij
    have hclient :=
      TCPSession.step_duplex hs.client hs.replied_short hs.downstream_wire (by trivial) ht
    have harrived : arrived [.arrive bytes] = bytes := List.append_nil bytes
    have hsent : sent [.arrive bytes] = [] := rfl
    rw [harrived, hsent, List.append_nil] at hclient
    obtain ⟨-, houtput⟩ := received_of_arrive ht
    constructor
    · simp only [Function.update_self]
      exact hclient
    · exact hs.session
    · simp only [Function.update_self]
      rw [houtput]
      exact hs.upstream
    · simp only [Function.update_self]
      exact hbeginning
    · exact hs.short
    · exact hs.received
    · exact hs.replied
  · exact hs.of_same (Function.update_of_ne hij _ _) rfl rfl (Function.update_of_ne hij _ _) rfl rfl
      rfl rfl

/-- A message that is taken from the queue is still to be handled. -/
theorem line_pop (hs : Line s i) (h : step s .pop = some s') : Line s' i := by
  obtain ⟨msg, queue, hhandling, hqueue, rfl⟩ := step_pop h
  refine hs.of_same rfl rfl rfl rfl rfl rfl rfl ?_
  simp only [pending, hhandling, hqueue]
  rfl

/-- A message that is dropped is done with. -/
theorem line_getSession (hs : Line s i) (h : step s .getSession = some s') : Line s' i := by
  obtain ⟨j, data, hhandling, ⟨-, rfl⟩ | ⟨-, -, -, rfl⟩ | ⟨-, -, rfl⟩⟩ := step_getSession h
  · exact hs.of_same rfl rfl rfl rfl rfl rfl rfl rfl
  · exact hs.of_same rfl rfl rfl rfl rfl rfl rfl rfl
  · by_cases hij : i = j
    · subst hij
      have hrest := hs.received
      rw [pending, hhandling] at hrest
      refine ⟨hs.client, hs.session, hs.upstream, hs.downstream, hs.short, ?_, ?_⟩
      · simp only [Function.update_self]
        rw [hrest]
        simp [pending]
      · simp only [Function.update_self]
        exact hs.replied.trans (List.sublist_append_left _ _)
    · refine hs.of_same rfl rfl rfl rfl rfl (Function.update_of_ne hij _ _) rfl ?_
      simp [pending, hhandling, Ne.symm hij]

theorem line_reply (hs : Line s i) (h : step s .reply = some s') : Line s' i := by
  obtain ⟨j, data, t, hhandling, -, ht, rfl⟩ := step_reply h
  by_cases hij : i = j
  · subst hij
    have hsession := TCPSession.step_duplex hs.session hs.short hs.upstream_wire (by trivial) ht
    obtain ⟨hreceived, houtput⟩ := received_of_step_send ht
    have hrest := hs.received
    rw [pending, hhandling] at hrest
    constructor
    · simp only [Function.update_self]
      exact hs.client.extend [data]
    · simp only [Function.update_self]
      exact (List.append_nil (s.upstream i)) ▸ hsession
    · exact hs.upstream
    · simp only [Function.update_self]
      rw [houtput]
      exact hs.downstream
    · exact hs.short
    · simp only [Function.update_self]
      rw [hreceived, hrest]
      simp [pending]
    · simp only [Function.update_self]
      exact hs.replied.append (List.Sublist.refl _)
  · refine hs.of_same rfl (Function.update_of_ne hij _ _) rfl rfl rfl
      (Function.update_of_ne hij _ _) (Function.update_of_ne hij _ _) ?_
    simp [pending, hhandling, Ne.symm hij]

/-- **Each step keeps what holds of each client.** -/
theorem step_line (hs : Line s i) (hcalm : Calm s a) (h : step s a = some s') : Line s' i := by
  cases a with
  | send j message => exact line_send hs hcalm h
  | client j b => exact line_client hs hcalm h
  | session j b => exact line_session hs hcalm h
  | up j bytes => exact line_up hs h
  | down j bytes => exact line_down hs h
  | pop => exact line_pop hs h
  | getSession => exact line_getSession hs h
  | reply => exact line_reply hs h
  | insert | inserted | clashClient | clashSession =>
      obtain ⟨inSessions, inserting, clashed, rfl⟩ := step_other h (by simp)
      exact hs.of_same rfl rfl rfl rfl rfl rfl rfl rfl

theorem run_line (h : Transition.run step init as = some s)
    (hcalm : Transition.Meets step (fun s a => Calm s a) init as) (i : I) : Line s i :=
  Transition.run_invariant_of_meets (I := fun s => Line s i)
    (fun _ _ _ hs hcalm h => step_line hs hcalm h) (line_init i) hcalm h

/-! ### What a client gets back -/

theorem Line.received_sublist (h : Line s i) :
    (s.client i).received.Sublist (s.asked i) :=
  h.client.received.sublist.trans h.replied_sublist

/-- **A client gets its own messages back, in order, and each at most once.**  In every run in which
there is no data race, no write fails, no `GetHeaderData` changes a length that is about to be read,
and no message has `2 ^ 31` bytes or more: what a client has received is what is left of the
messages that it has sent when some of them are struck out. -/
theorem echoes_in_order (h : Transition.run step init as = some s)
    (hcalm : Transition.Meets step (fun s a => Calm s a) init as) (i : I) :
    (s.client i).received.Sublist (s.asked i) :=
  (run_line h hcalm i).received_sublist

/-- Where every session is found, every message that is handled is replied to. -/
theorem step_replied (hs : s.replied = s.handled) (hfinds : Finds s a)
    (h : step s a = some s') : s'.replied = s'.handled := by
  cases a with
  | send j message =>
      obtain ⟨t, -, rfl⟩ := step_send h
      exact hs
  | client j b =>
      obtain ⟨-, t, -, rfl⟩ := step_client h
      exact hs
  | session j b =>
      obtain ⟨-, t, -, rfl⟩ := step_session h
      exact hs
  | up j bytes =>
      obtain ⟨-, t, -, rfl⟩ := step_up h
      exact hs
  | down j bytes =>
      obtain ⟨-, t, -, rfl⟩ := step_down h
      exact hs
  | insert | inserted | clashClient | clashSession =>
      obtain ⟨inSessions, inserting, clashed, rfl⟩ := step_other h (by simp)
      exact hs
  | pop =>
      obtain ⟨msg, queue, -, -, rfl⟩ := step_pop h
      exact hs
  | getSession =>
      obtain ⟨j, data, hhandling, ⟨-, rfl⟩ | ⟨-, -, -, rfl⟩ | ⟨-, hout, -⟩⟩ := step_getSession h
      · exact hs
      · exact hs
      · rw [hfinds j data hhandling] at hout
        exact absurd hout (by simp)
  | reply =>
      obtain ⟨j, data, t, -, -, -, rfl⟩ := step_reply h
      show Function.update s.replied j _ = Function.update s.handled j _
      rw [hs]

theorem run_replied (h : Transition.run step init as = some s)
    (hfinds : Transition.Meets step (fun s a => Finds s a) init as) : s.replied = s.handled :=
  Transition.run_invariant_of_meets (I := fun s : EchoServer I => s.replied = s.handled)
    (fun _ _ _ hs hfinds h => step_replied hs hfinds h) rfl hfinds h

/-- **Nothing is left out where every session is found.**  If moreover the session of each message
is in `_sessions` when `GetSession` looks for it, what a client has received is the beginning of
what it has sent. -/
theorem echoes_prefix (h : Transition.run step init as = some s)
    (hcalm : Transition.Meets step (fun s a => Calm s a) init as)
    (hfinds : Transition.Meets step (fun s a => Finds s a) init as) (i : I) :
    (s.client i).received <+: s.asked i := by
  have hline := run_line h hcalm i
  have hreplied := congrFun (run_replied h hfinds) i
  have hhandled : s.replied i <+: (s.session i).received := by
    rw [hreplied, hline.received]
    exact List.prefix_append _ _
  exact hline.client.received.trans (hhandled.trans hline.session.received)

/-- A session has written all that it was asked to, and reads on. -/
structure Idle (u : TCPSession) : Prop where
  queueSend : u.queueSend = []
  writer : TCPSession.Writer.Rests u.writer
  waiting : Waiting u
  reading : u.reader ≠ .ended

/-- Nothing of a client's messages is under way. -/
structure Quiet (s : EchoServer I) (i : I) : Prop where
  client : Idle (s.client i)
  session : Idle (s.session i)
  upstream : s.upstream i = (s.client i).output
  downstream : s.downstream i = (s.session i).output
  pending : s.pending i = []

theorem Line.received_of_quiet (hline : Line s i) (hreplied : s.replied = s.handled)
    (hquiet : Quiet s i) : (s.client i).received = s.asked i := by
  have hup : s.upstream i = wire (s.asked i) := hquiet.upstream.trans
    (hline.client.sends.output_eq hquiet.client.queueSend hquiet.client.writer)
  have hdown : s.downstream i = wire (s.replied i) := hquiet.downstream.trans
    (hline.session.sends.output_eq hquiet.session.queueSend hquiet.session.writer)
  have hsession := hline.session.reads hquiet.session.reading
  have hclient := hline.client.reads hquiet.client.reading
  rw [hup] at hsession
  rw [hdown] at hclient
  have hreceived := hline.received
  rw [hquiet.pending, List.append_nil, hsession.received_eq hquiet.session.waiting] at hreceived
  rw [hclient.received_eq hquiet.client.waiting, congrFun hreplied i, hreceived]

/-- **Everything comes back.**  In the same runs, a client for which nothing is under way has
received all that it has sent. -/
theorem echoes_all (h : Transition.run step init as = some s)
    (hcalm : Transition.Meets step (fun s a => Calm s a) init as)
    (hfinds : Transition.Meets step (fun s a => Finds s a) init as) {i : I} (hquiet : Quiet s i) :
    (s.client i).received = s.asked i :=
  (run_line h hcalm i).received_of_quiet (run_replied h hfinds) hquiet

/-- One message there and back. -/
def sampleRun : List (Action ℕ) :=
  [.insert 0, .inserted, .send 0 [7], .client 0 .look, .client 0 .pop, .client 0 .getHeaderData,
    .client 0 .writeHeader, .client 0 .writePayload, .up 0 (frame [7]), .session 0 .readHeader,
    .session 0 .parse, .session 0 .asyncReadData, .session 0 .readData, .pop, .getSession, .reply,
    .session 0 .look, .session 0 .pop, .session 0 .getHeaderData, .session 0 .writeHeader,
    .session 0 .writePayload, .down 0 (frame [7]), .client 0 .readHeader, .client 0 .parse,
    .client 0 .asyncReadData, .client 0 .readData]

theorem undisturbed_of_header {u : TCPSession} (h : u.reader = .header) :
    Undisturbed u .getHeaderData := by
  intro bytes _ hcall
  rw [h] at hcall
  exact absurd hcall (by simp)

set_option maxRecDepth 8000 in
theorem sampleRun_calm : Transition.Meets step (fun s a => Calm s a) init sampleRun :=
  .cons trivial rfl (.cons trivial rfl (.cons (by decide : [(7 : UInt8)].length < 2 ^ 31) rfl
    (.cons trivial rfl (.cons trivial rfl (.cons (undisturbed_of_header rfl) rfl
      (.cons trivial rfl (.cons trivial rfl (.cons trivial rfl (.cons trivial rfl
        (.cons trivial rfl (.cons trivial rfl (.cons trivial rfl (.cons trivial rfl
          (.cons trivial rfl (.cons trivial rfl (.cons trivial rfl (.cons trivial rfl
            (.cons (undisturbed_of_header rfl) rfl (.cons trivial rfl (.cons trivial rfl
              (.cons trivial rfl (.cons trivial rfl (.cons trivial rfl (.cons trivial rfl
                (.cons trivial rfl trivial)))))))))))))))))))))))))

set_option maxRecDepth 8000 in
theorem sampleRun_finds : Transition.Meets step (fun s a => Finds s a) init sampleRun :=
  .cons trivial rfl (.cons trivial rfl (.cons trivial rfl (.cons trivial rfl (.cons trivial rfl
    (.cons trivial rfl (.cons trivial rfl (.cons trivial rfl (.cons trivial rfl
      (.cons trivial rfl (.cons trivial rfl (.cons trivial rfl (.cons trivial rfl
        (.cons trivial rfl (.cons (by rintro i data ⟨⟩; rfl) rfl (.cons trivial rfl
          (.cons trivial rfl (.cons trivial rfl (.cons trivial rfl (.cons trivial rfl
            (.cons trivial rfl (.cons trivial rfl (.cons trivial rfl (.cons trivial rfl
              (.cons trivial rfl (.cons trivial rfl trivial)))))))))))))))))))))))))

set_option maxRecDepth 8000 in
theorem echoes_in_order_sample :
    ∃ s : EchoServer ℕ, Transition.run step init sampleRun = some s ∧
      (s.client 0).received = [[7]] ∧ (s.client 0).received.Sublist (s.asked 0) := by
  obtain ⟨s, h, hreceived⟩ : ∃ s : EchoServer ℕ, Transition.run step init sampleRun = some s ∧
      (s.client 0).received = [[7]] := ⟨_, rfl, rfl⟩
  exact ⟨s, h, hreceived, echoes_in_order h sampleRun_calm 0⟩

set_option maxRecDepth 8000 in
theorem echoes_prefix_sample :
    ∃ s : EchoServer ℕ, Transition.run step init sampleRun = some s ∧
      (s.client 0).received = [[7]] ∧ (s.client 0).received <+: s.asked 0 := by
  obtain ⟨s, h, hreceived⟩ : ∃ s : EchoServer ℕ, Transition.run step init sampleRun = some s ∧
      (s.client 0).received = [[7]] := ⟨_, rfl, rfl⟩
  exact ⟨s, h, hreceived, echoes_prefix h sampleRun_calm sampleRun_finds 0⟩

set_option maxRecDepth 8000 in
theorem echoes_all_sample :
    ∃ s : EchoServer ℕ, Transition.run step init sampleRun = some s ∧
      (s.client 0).received = s.asked 0 := by
  obtain ⟨s, h, hquiet⟩ : ∃ s : EchoServer ℕ, Transition.run step init sampleRun = some s ∧
      Quiet s 0 := by
    refine ⟨_, rfl, ⟨rfl, trivial, ⟨rfl, rfl, rfl, rfl⟩, by decide⟩,
      ⟨rfl, trivial, ⟨rfl, rfl, rfl, rfl⟩, by decide⟩, rfl, rfl, rfl⟩
  exact ⟨s, h, echoes_all h sampleRun_calm sampleRun_finds hquiet⟩

/-- `GetSession` looks for the session of one client while that of another one is inserted. -/
example : (Transition.run step (init : EchoServer ℕ)
    (sampleRun.take 14 ++ [.insert 1, .getSession])).map clashed = some true := rfl

/-- **A client that is too fast gets no reply.**  Its message is handled before its session is in
`_sessions`. -/
theorem echo_dropped :
    ∃ s : EchoServer ℕ, Transition.run step init
        [.send 0 [7], .client 0 .look, .client 0 .pop, .client 0 .getHeaderData,
          .client 0 .writeHeader, .client 0 .writePayload, .up 0 (frame [7]),
          .session 0 .readHeader, .session 0 .parse, .session 0 .asyncReadData,
          .session 0 .readData, .pop, .getSession, .insert 0, .inserted] =
        some s ∧
      s.handled 0 = [[7]] ∧ s.replied 0 = [] ∧ s.queue = [] ∧ s.handling = none :=
  ⟨_, rfl, rfl, rfl, rfl, rfl⟩

end EchoServer

end Net
end BreUtils
