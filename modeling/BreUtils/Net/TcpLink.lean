/-
# From `TCPSender::Send` to the queue of the receiver

`net/TCPManager.hpp` is for one sender and one receiver.  Between them lies a stream
of bytes: what the sender writes comes in at the receiver in the same order, in
whatever pieces and however late, until the connection ends, and then the bytes on
their way are lost.

The two ends go their own ways.  The sender has the thread that calls `Send` and
`Close`, and its send thread; the receiver has its receive thread, which reads frames
and pushes their payloads to the queue.  Whatever the interleaving, whenever and
however the connection ends: what has been pushed are the messages that were passed to
`Send`, in their order, up to some point, without the empty ones, which the receive
thread passes over (`enqueued_in_order`).  And an orderly end loses nothing
(`all_enqueued`).

What `Get` makes of the queue is another matter, since the receive thread pushes
without the mutex that `Get` takes.  No call of `Get` is part of a link.
-/

import BreUtils.Net.TcpFrames
import BreUtils.Net.TcpReceiver
import BreUtils.Net.TcpSender

namespace BreUtils
namespace Net

open Lib

/-- A sender, a receiver, and the connection from the one to the other. -/
structure TcpLink where
  sender : TCPSender
  /-- Its `socket` holds what has come in and is not read yet. -/
  receiver : TCPReceiver
  /-- How many of the bytes that the sender wrote have come in. -/
  arrived : ℕ
  /-- The connection has not ended. -/
  up : Bool
  deriving DecidableEq

namespace TcpLink

/-- The sender has connected and started its thread, and the receiver has accepted. -/
def init : TcpLink := ⟨TCPSender.init, TCPReceiver.init ⟨[], false⟩ [], 0, true⟩

inductive Action where
  | sender (a : TCPSender.Action)
  /-- `asio::write` throws, and `sendThread` ends. -/
  | writeFails
  /-- The next `n` bytes come in. -/
  | arrive (n : ℕ)
  /-- The connection ends, by a peer closing it or by another error. -/
  | hangUp (failed : Bool)
  /-- One turn of `recvThread`. -/
  | turn
  /-- `TCPReceiver::Close`. -/
  | closeReceiver

/-- How many bytes the next turn reads behind the header. -/
def announced (r : TCPReceiver) : ℕ :=
  let header := (r.header.parse r.nextHeader).2
  if header.data.take 4 = TCPHeader.magic then header.fileSize.toNat else 0

/-- What the next turn reads has come in. -/
def Complete (r : TCPReceiver) : Prop := TCPHeader.headerSize + announced r ≤ r.socket.bytes.length

instance (r : TCPReceiver) : Decidable (Complete r) := inferInstanceAs (Decidable (_ ≤ _))

/-- The next `n` bytes come in. -/
def arrive (l : TcpLink) (n : ℕ) : TcpLink :=
  { l with
    receiver := { l.receiver with
      socket := { l.receiver.socket with
        bytes := l.receiver.socket.bytes ++ (l.sender.socket.drop l.arrived).take n } }
    arrived := l.arrived + n }

/-- **One step.**  A read waits for the bytes that it asks for as long as the connection is up. -/
def step (l : TcpLink) : Action → Option TcpLink
  | .sender a => (l.sender.step a).map fun sender => { l with sender }
  | .writeFails =>
      if l.up then none
      else
        match l.sender.thread with
        | .header _ | .payload _ => some { l with sender := { l.sender with thread := .done } }
        | _ => none
  | .arrive n =>
      if l.up ∧ l.arrived + n ≤ l.sender.socket.length then some (arrive l n) else none
  | .hangUp failed =>
      if l.up then
        some { l with
          receiver := { l.receiver with socket := { l.receiver.socket with failed } }
          up := false }
      else none
  | .turn =>
      if l.up ∧ ¬ Complete l.receiver then none
      else (l.receiver.step .turn).map fun receiver => { l with receiver }
  | .closeReceiver => (l.receiver.step .close).map fun receiver => { l with receiver }

/-- The messages that the receive thread does not pass over. -/
def nonempty (messages : List (List UInt8)) : List (List UInt8) := messages.filter (· ≠ [])

variable {l l' : TcpLink} {as : List Action}

/-! ### What the sender has written -/

/-- What holds of the sender whatever happens: the frames of some of its messages are written, in
order, and its thread may have given up in the middle of one. -/
structure Sends (s : TCPSender) : Prop where
  magic : s.header.data.take 4 = TCPHeader.magic
  zeros : s.header.data.drop 8 = TCPHeader.zeros
  written :
    Sending s.sent s.socket (TCPSender.SendThread.written s.thread)
        (TCPSender.SendThread.inFlight s.thread ++ s.queue) ∨
      s.thread = .done ∧ s.socket <+: wire s.sent

theorem sends_init : Sends TCPSender.init := ⟨rfl, rfl, Or.inl Sending.start⟩

/-- **Nothing but the frames of the messages is written.** -/
theorem Sends.socket_begins {s : TCPSender} (h : Sends s) : s.socket <+: wire s.sent := by
  rcases h.written with ⟨done, hsent, hsocket⟩ | ⟨-, hbeginning⟩
  · rw [hsent, hsocket, wire_append, List.prefix_append_right_inj]
    cases hthread : s.thread with
    | payload message =>
        show TCPHeader.header message.length TCPHeader.zeros <+: wire (message :: s.queue)
        rw [wire_cons]
        exact List.prefix_append _ _
    | _ => exact List.nil_prefix
  · exact hbeginning

/-- A thread that is not done is on its way through the messages. -/
theorem Sends.sending {s : TCPSender} (h : Sends s) (hthread : s.thread ≠ .done) :
    Sending s.sent s.socket (TCPSender.SendThread.written s.thread)
      (TCPSender.SendThread.inFlight s.thread ++ s.queue) :=
  h.written.resolve_right fun hdone => hthread hdone.1

theorem step_sends {s s' : TCPSender} {a : TCPSender.Action} (hs : Sends s)
    (h : TCPSender.step s a = some s') : Sends s' := by
  cases TCPSender.step_cases h with
  | constructed | join => exact ⟨hs.magic, hs.zeros, hs.written⟩
  | @send message =>
      refine ⟨hs.magic, hs.zeros, hs.written.imp (fun hsending => ?_) fun hdone => ?_⟩
      · show Sending (s.sent ++ [message]) s.socket
          (TCPSender.SendThread.written (TCPSender.notify s.thread))
          (TCPSender.SendThread.inFlight (TCPSender.notify s.thread) ++ (s.queue ++ [message]))
        rw [TCPSender.notify_inFlight, TCPSender.notify_written, ← List.append_assoc]
        exact hsending.push message
      · exact ⟨TCPSender.notify_eq_done.2 hdone.1,
          hdone.2.trans (wire_mono (List.prefix_append _ _))⟩
  | close =>
      refine ⟨hs.magic, hs.zeros, hs.written.imp (fun hsending => ?_) fun hdone => ?_⟩
      · show Sending s.sent s.socket (TCPSender.SendThread.written (TCPSender.notify s.thread))
          (TCPSender.SendThread.inFlight (TCPSender.notify s.thread) ++ s.queue)
        rw [TCPSender.notify_inFlight, TCPSender.notify_written]
        exact hsending
      · exact ⟨TCPSender.notify_eq_done.2 hdone.1, hdone.2⟩
  | take hthread hqueue =>
      have hsending := hs.sending (by simp [hthread])
      rw [hthread, hqueue] at hsending
      exact ⟨hs.magic, hs.zeros, Or.inl hsending⟩
  | wait hthread | pass hthread | leave hthread | crash hthread | rouse hthread =>
      have hsending := hs.sending (by simp [hthread])
      rw [hthread] at hsending
      exact ⟨hs.magic, hs.zeros, Or.inl hsending⟩
  | @writeHeader message hthread =>
      have hsending := hs.sending (by simp [hthread])
      have hget := TCPHeader.getHeaderData_eq hs.magic message.length
      rw [hs.zeros] at hget
      rw [hget]
      rw [hthread] at hsending
      exact ⟨TCPHeader.take_header _ _, TCPHeader.drop_header _ _, Or.inl hsending.writeHeader⟩
  | writePayload hthread =>
      have hsending := hs.sending (by simp [hthread])
      rw [hthread] at hsending
      exact ⟨hs.magic, hs.zeros, Or.inl hsending.writePayload⟩

/-- What was sent and what was written stays. -/
theorem sender_mono {s s' : TCPSender} {a : TCPSender.Action} (h : TCPSender.step s a = some s') :
    s.sent <+: s'.sent ∧ s.socket <+: s'.socket := by
  cases TCPSender.step_cases h with
  | send => exact ⟨List.prefix_append _ _, List.prefix_rfl⟩
  | writeHeader | writePayload => exact ⟨List.prefix_rfl, List.prefix_append _ _⟩
  | _ => exact ⟨List.prefix_rfl, List.prefix_rfl⟩

/-! ### What the receiver reads -/

/-- What a header of the stream says. -/
theorem announced_of_header {r : TCPReceiver} {message : List UInt8}
    (hshort : message.length < 2 ^ 31)
    (hnext : r.nextHeader = TCPHeader.header message.length TCPHeader.zeros) :
    r.nextHeader.take 4 = TCPHeader.magic ∧ TCPHeader.lengthField r.nextHeader = message.length ∧
      announced r = message.length := by
  have hmagic : r.nextHeader.take 4 = TCPHeader.magic := by
    rw [hnext]
    exact TCPHeader.take_header _ _
  have hfield : TCPHeader.lengthField r.nextHeader = message.length := by
    rw [hnext, TCPHeader.lengthField_header, Nat.mod_eq_of_lt (by omega)]
  have hlength : r.nextHeader.length = TCPHeader.headerSize := by
    rw [hnext]
    exact TCPHeader.length_header _ _
  refine ⟨hmagic, hfield, ?_⟩
  unfold announced
  rw [TCPHeader.parse_accepts hlength hmagic]
  dsimp only
  rw [if_pos hmagic, TCPHeader.toNat_fileSize, hfield]

/-- 32 bytes of the frames to come are the header of the next message. -/
theorem next_of_prefix {r : TCPReceiver} {rest : List (List UInt8)}
    (hbytes : r.socket.bytes <+: wire rest)
    (hmany : TCPHeader.headerSize ≤ r.socket.bytes.length) :
    ∃ message rest', rest = message :: rest' ∧
      r.nextHeader = TCPHeader.header message.length TCPHeader.zeros ∧
      r.socket.bytes.drop TCPHeader.headerSize <+: message ++ wire rest' := by
  obtain ⟨after, hafter⟩ := hbytes
  rw [← List.take_append_drop TCPHeader.headerSize r.socket.bytes, List.append_assoc] at hafter
  obtain ⟨message, rest', rfl, hheader⟩ :=
    TCPSession.header_of_rest (TCPReceiver.length_nextHeader hmany) hafter.symm
  refine ⟨message, rest', rfl, hheader, after, ?_⟩
  rw [wire_cons, ← hheader] at hafter
  exact List.append_cancel_left hafter

/-- **A frame that has come in is read**, whatever the header object holds. -/
theorem read_frame {r : TCPReceiver} {message later : List UInt8} (hshort : message.length < 2 ^ 31)
    (hbytes : r.socket.bytes = frame message ++ later) :
    Complete r ∧ ∃ header, r.readDataFromSocket =
      (.returned message, { r with header, socket := { r.socket with bytes := later } }) := by
  have hheader : (TCPHeader.header message.length TCPHeader.zeros).length = TCPHeader.headerSize :=
    TCPHeader.length_header _ _
  rw [frame, List.append_assoc] at hbytes
  have hnext : r.nextHeader = TCPHeader.header message.length TCPHeader.zeros := by
    unfold TCPReceiver.nextHeader
    rw [hbytes]
    exact List.take_left' hheader
  have hrest : r.socket.bytes.drop TCPHeader.headerSize = message ++ later := by
    rw [hbytes]
    exact List.drop_left' hheader
  have hlength :
      r.socket.bytes.length = TCPHeader.headerSize + (message.length + later.length) := by
    rw [hbytes, List.length_append, hheader, List.length_append]
  obtain ⟨hmagic, hfield, hannounced⟩ := announced_of_header hshort hnext
  refine ⟨?_, ⟨r.nextHeader, UInt32.ofNat (TCPHeader.lengthField r.nextHeader)⟩, ?_⟩
  · unfold Complete
    omega
  · rw [TCPReceiver.read_magic (by omega) hmagic, hfield]
    unfold TCPReceiver.readPayload TCPReceiver.afterHeader
    dsimp only
    rw [hrest]
    split_ifs with hzero hthere
    · rw [List.eq_nil_of_length_eq_zero hzero, List.nil_append]
    · rw [List.take_left, List.drop_left]
    · exact absurd (by rw [List.length_append]; exact Nat.le_add_right _ _) hthere

/-- A read that fails, when there is nobody else to accept. -/
theorem readError_cases {r : TCPReceiver} (hbacklog : r.backlog = []) :
    r.readError.1 = .waits ∨
      r.readError = (.threw, { r with socket := ⟨[], true⟩ }) := by
  unfold TCPReceiver.readError TCPReceiver.startConnect
  rw [hbacklog]
  split_ifs
  · exact Or.inr rfl
  · exact Or.inl rfl

/-- **What the next turn finds**: a whole frame, or a part of one, of which it queues nothing. -/
theorem read_cases {r : TCPReceiver} {rest : List (List UInt8)}
    (hshort : ∀ message ∈ rest, message.length < 2 ^ 31) (hbacklog : r.backlog = [])
    (hbytes : r.socket.bytes <+: wire rest) :
    (∃ message rest' later, rest = message :: rest' ∧ r.socket.bytes = frame message ++ later) ∨
      ¬ Complete r ∧
        (r.readDataFromSocket.1 = .waits ∨
          ∃ header, r.readDataFromSocket =
            (.threw, { r with header, socket := ⟨[], true⟩ })) := by
  by_cases hmany : TCPHeader.headerSize ≤ r.socket.bytes.length
  · obtain ⟨message, rest', rfl, hnext, hpayload⟩ := next_of_prefix hbytes hmany
    obtain ⟨hmagic, hfield, hannounced⟩ :=
      announced_of_header (hshort message List.mem_cons_self) hnext
    have hdrop : (r.socket.bytes.drop TCPHeader.headerSize).length =
        r.socket.bytes.length - TCPHeader.headerSize := List.length_drop
    by_cases hwhole : message.length ≤ (r.socket.bytes.drop TCPHeader.headerSize).length
    · obtain ⟨later, hlater⟩ :=
        List.prefix_of_prefix_length_le (List.prefix_append message _) hpayload hwhole
      refine Or.inl ⟨message, rest', later, rfl, ?_⟩
      rw [frame, ← hnext, List.append_assoc, hlater]
      exact (List.take_append_drop _ _).symm
    · refine Or.inr ⟨by unfold Complete; omega, ?_⟩
      rw [TCPReceiver.read_magic hmany hmagic, hfield]
      unfold TCPReceiver.readPayload
      rw [if_neg (by omega), if_neg (by exact hwhole)]
      exact (readError_cases (r := TCPReceiver.afterHeader r _) hbacklog).imp_right
        fun hthrew => ⟨_, hthrew⟩
  · refine Or.inr ⟨by unfold Complete; omega, ?_⟩
    rw [TCPReceiver.read_short hmany]
    exact (readError_cases hbacklog).imp_right fun hthrew => ⟨_, hthrew⟩

theorem nonempty_concat (messages : List (List UInt8)) (message : List UInt8) :
    nonempty (messages ++ [message]) =
      if message = [] then nonempty messages else nonempty messages ++ [message] := by
  unfold nonempty
  rw [List.filter_append]
  split_ifs with hempty
  · simp [hempty]
  · simp [hempty]

/-- A turn takes the next frame off the front and queues its message, or it fails and the rest of
the connection is gone. -/
theorem turn_cases {r r' : TCPReceiver} {rest : List (List UInt8)}
    (hshort : ∀ message ∈ rest, message.length < 2 ^ 31) (hbacklog : r.backlog = [])
    (hbytes : r.socket.bytes <+: wire rest) (h : r.step .turn = some r') :
    r'.backlog = [] ∧
      ((∃ message rest', rest = message :: rest' ∧
          r.socket.bytes = frame message ++ r'.socket.bytes ∧
          r'.enqueued = r.enqueued ++ nonempty [message]) ∨
        ¬ Complete r ∧ r'.socket.bytes = [] ∧ r'.enqueued = r.enqueued) := by
  unfold TCPReceiver.step at h
  dsimp only at h
  split_ifs at h
  rcases read_cases hshort hbacklog hbytes with
    ⟨message, rest', later, rfl, hframe⟩ | ⟨hincomplete, hwaits | ⟨header, hread⟩⟩
  · obtain ⟨-, header, hread⟩ := read_frame (hshort message List.mem_cons_self) hframe
    rw [hread] at h
    obtain rfl := Option.some.inj h
    refine ⟨hbacklog, Or.inl ⟨message, rest', rfl, hframe, ?_⟩⟩
    have hconcat := nonempty_concat [] message
    rw [List.nil_append] at hconcat
    rw [hconcat]
    dsimp only
    split_ifs
    · exact (List.append_nil _).symm
    · rfl
  · split at h
    · rename_i hresult
      rw [hresult] at hwaits
      cases hwaits
    · rename_i hresult
      rw [hresult] at hwaits
      cases hwaits
    · cases h
    · cases h
  · rw [hread] at h
    obtain rfl := Option.some.inj h
    exact ⟨hbacklog, Or.inr ⟨hincomplete, rfl, rfl⟩⟩

/-! ### The link over whole runs -/

/-- Of the frames that the sender wrote, some have been read, and what is there of the others comes
next. -/
structure Inv (l : TcpLink) : Prop where
  sends : Sends l.sender
  backlog : l.receiver.backlog = []
  arrived : l.arrived ≤ l.sender.socket.length
  read : ∃ done rest, l.sender.sent = done ++ rest ∧ l.receiver.enqueued = nonempty done ∧
    wire done ++ l.receiver.socket.bytes <+: l.sender.socket.take l.arrived ∧
    (l.up = true → wire done ++ l.receiver.socket.bytes = l.sender.socket.take l.arrived)

theorem inv_init : Inv init where
  sends := sends_init
  backlog := rfl
  arrived := Nat.le_refl 0
  read := ⟨[], [], rfl, rfl, List.prefix_rfl, fun _ => rfl⟩

/-- What the sender was given stays. -/
theorem step_sent {a : Action} (h : step l a = some l') : l.sender.sent <+: l'.sender.sent := by
  cases a with
  | sender a =>
      obtain ⟨sender, hsender, rfl⟩ := Option.map_eq_some_iff.1 h
      exact (sender_mono hsender).1
  | writeFails =>
      simp only [step] at h
      split_ifs at h
      split at h
      · exact Option.some.inj h ▸ List.prefix_rfl
      · exact Option.some.inj h ▸ List.prefix_rfl
      · cases h
  | arrive n =>
      simp only [step] at h
      split_ifs at h
      exact Option.some.inj h ▸ List.prefix_rfl
  | hangUp failed =>
      simp only [step] at h
      split_ifs at h
      exact Option.some.inj h ▸ List.prefix_rfl
  | turn =>
      simp only [step] at h
      split_ifs at h
      obtain ⟨receiver, -, rfl⟩ := Option.map_eq_some_iff.1 h
      exact List.prefix_rfl
  | closeReceiver => exact Option.some.inj h ▸ List.prefix_rfl

/-- What the sending side does keeps what was read. -/
theorem Inv.of_sender {sender : TCPSender} {a : TCPSender.Action} (hl : Inv l)
    (hsender : TCPSender.step l.sender a = some sender) : Inv { l with sender } := by
  obtain ⟨done, rest, hsent, henqueued, hbeginning, hup⟩ := hl.read
  obtain ⟨⟨more, hmore⟩, ⟨tail, htail⟩⟩ := sender_mono hsender
  have htake : sender.socket.take l.arrived = l.sender.socket.take l.arrived := by
    rw [← htail, List.take_append_of_le_length hl.arrived]
  refine ⟨step_sends hl.sends hsender, hl.backlog, ?_, done, rest ++ more, ?_,
    henqueued, ?_, fun h => ?_⟩
  · show l.arrived ≤ sender.socket.length
    rw [← htail, List.length_append]
    exact Nat.le_add_right_of_le hl.arrived
  · rw [← hmore, hsent, List.append_assoc]
  · exact htake ▸ hbeginning
  · exact (hup h).trans htake.symm

/-- A turn of the loop reads the next message, or ends it on a frame that is not all there. -/
theorem Inv.of_turn {receiver : TCPReceiver}
    (hshort : ∀ message ∈ l.sender.sent, message.length < 2 ^ 31) (hl : Inv l)
    (hwaits : ¬(l.up = true ∧ ¬Complete l.receiver))
    (hturn : l.receiver.step .turn = some receiver) : Inv { l with receiver } := by
  obtain ⟨done, rest, hsent, henqueued, hbeginning, hup⟩ := hl.read
  -- what is there comes next on the wire
  have hbytes : l.receiver.socket.bytes <+: wire rest := by
    have hall := (hbeginning.trans (List.take_prefix _ _)).trans hl.sends.socket_begins
    rw [hsent, wire_append, List.prefix_append_right_inj] at hall
    exact hall
  obtain ⟨hbacklog, ⟨message, rest', rfl, hframe, hqueued⟩ | ⟨hincomplete, hempty, hsame⟩⟩ :=
    turn_cases (fun message hm => hshort message (hsent ▸ List.mem_append_right _ hm))
      hl.backlog hbytes hturn
  · have hwire : wire (done ++ [message]) ++ receiver.socket.bytes =
        wire done ++ l.receiver.socket.bytes := by
      rw [hframe, wire_append, List.append_assoc, wire, wire, List.flatMap_singleton]
    refine ⟨hl.sends, hbacklog, hl.arrived, done ++ [message], rest', ?_, ?_, ?_, fun h => ?_⟩
    · rw [hsent, List.append_assoc]
      rfl
    · show receiver.enqueued = _
      rw [hqueued, henqueued]
      exact (List.filter_append _ _).symm
    · exact hwire ▸ hbeginning
    · exact hwire.trans (hup h)
  · refine ⟨hl.sends, hbacklog, hl.arrived, done, rest, hsent, ?_, ?_, fun hstill => ?_⟩
    · exact hsame.trans henqueued
    · show wire done ++ receiver.socket.bytes <+: _
      rw [hempty, List.append_nil]
      exact (List.prefix_append _ _).trans hbeginning
    · exact absurd ⟨hstill, hincomplete⟩ hwaits

theorem step_inv {a : Action} (hshort : ∀ message ∈ l.sender.sent, message.length < 2 ^ 31)
    (hl : Inv l) (h : step l a = some l') : Inv l' := by
  obtain ⟨done, rest, hsent, henqueued, hbeginning, hup⟩ := hl.read
  cases a with
  | sender a =>
      obtain ⟨sender, hsender, rfl⟩ := Option.map_eq_some_iff.1 h
      exact hl.of_sender hsender
  | writeFails =>
      simp only [step] at h
      split_ifs at h
      split at h
      · obtain rfl := Option.some.inj h
        exact ⟨⟨hl.sends.magic, hl.sends.zeros, Or.inr ⟨rfl, hl.sends.socket_begins⟩⟩, hl.backlog,
          hl.arrived, done, rest, hsent, henqueued, hbeginning, hup⟩
      · obtain rfl := Option.some.inj h
        exact ⟨⟨hl.sends.magic, hl.sends.zeros, Or.inr ⟨rfl, hl.sends.socket_begins⟩⟩, hl.backlog,
          hl.arrived, done, rest, hsent, henqueued, hbeginning, hup⟩
      · cases h
  | arrive n =>
      simp only [step] at h
      split_ifs at h with harrive
      obtain rfl := Option.some.inj h
      have hbytes : wire done ++ (l.receiver.socket.bytes ++
          (l.sender.socket.drop l.arrived).take n) = l.sender.socket.take (l.arrived + n) := by
        rw [List.take_add, ← hup harrive.1, List.append_assoc]
      exact ⟨hl.sends, hl.backlog, harrive.2, done, rest, hsent, henqueued,
        hbytes ▸ List.prefix_rfl, fun _ => hbytes⟩
  | hangUp failed =>
      simp only [step] at h
      split_ifs at h
      obtain rfl := Option.some.inj h
      exact ⟨hl.sends, hl.backlog, hl.arrived, done, rest, hsent, henqueued, hbeginning,
        by rintro ⟨⟩⟩
  | turn =>
      simp only [step] at h
      split_ifs at h with hwaits
      obtain ⟨receiver, hturn, rfl⟩ := Option.map_eq_some_iff.1 h
      exact hl.of_turn hshort hwaits hturn
  | closeReceiver =>
      obtain rfl := Option.some.inj h
      exact ⟨hl.sends, hl.backlog, hl.arrived, done, rest, hsent, henqueued, hbeginning,
        hup⟩

theorem run_inv (hshort : ∀ message ∈ l.sender.sent, message.length < 2 ^ 31)
    (h : Transition.run step init as = some l) : Inv l := by
  induction as using List.reverseRecOn generalizing l with
  | nil =>
      obtain rfl := Option.some.inj h
      exact inv_init
  | append_singleton as a ih =>
      obtain ⟨u, hu, hstep⟩ := Transition.run_concat_eq_some.1 h
      have hbefore : ∀ message ∈ u.sender.sent, message.length < 2 ^ 31 :=
        fun message hm => hshort message ((step_sent hstep).subset hm)
      exact step_inv hbefore (ih hbefore hu) hstep

/-! ### What the callers see -/

/-- `Send` adds a message, and nothing is pushed by it. -/
theorem step_send {message : List UInt8} (h : step l (.sender (.send message)) = some l') :
    l'.sender.sent = l.sender.sent ++ [message] ∧ l'.receiver = l.receiver := by
  obtain ⟨sender, hsender, rfl⟩ := Option.map_eq_some_iff.1 h
  refine ⟨?_, rfl⟩
  cases TCPSender.step_cases hsender
  rfl

/-- What is no `Send` adds no message. -/
theorem step_unsent {a : Action} (hsend : ∀ message, a ≠ .sender (.send message))
    (h : step l a = some l') : l'.sender.sent = l.sender.sent := by
  cases a with
  | sender a =>
      obtain ⟨sender, hsender, rfl⟩ := Option.map_eq_some_iff.1 h
      cases TCPSender.step_cases hsender with
      | send => exact absurd rfl (hsend _)
      | _ => rfl
  | writeFails =>
      simp only [step] at h
      split_ifs at h
      split at h
      · exact Option.some.inj h ▸ rfl
      · exact Option.some.inj h ▸ rfl
      · cases h
  | turn =>
      simp only [step] at h
      split_ifs at h
      obtain ⟨receiver, -, rfl⟩ := Option.map_eq_some_iff.1 h
      rfl
  | closeReceiver => exact Option.some.inj h ▸ rfl
  | arrive | hangUp =>
      simp only [step] at h
      split_ifs at h
      exact Option.some.inj h ▸ rfl

/-- What was pushed stays where it is. -/
theorem step_enqueued {a : Action} (h : step l a = some l') :
    l.receiver.enqueued <+: l'.receiver.enqueued := by
  cases a with
  | sender a =>
      obtain ⟨sender, -, rfl⟩ := Option.map_eq_some_iff.1 h
      exact List.prefix_rfl
  | writeFails =>
      simp only [step] at h
      split_ifs at h
      split at h
      · exact Option.some.inj h ▸ List.prefix_rfl
      · exact Option.some.inj h ▸ List.prefix_rfl
      · cases h
  | turn =>
      simp only [step] at h
      split_ifs at h
      obtain ⟨receiver, hturn, rfl⟩ := Option.map_eq_some_iff.1 h
      rcases TCPReceiver.turn_enqueued hturn with hsame | ⟨data, -, -, hqueued⟩
      · exact hsame ▸ List.prefix_rfl
      · exact hqueued ▸ List.prefix_append _ _
  | closeReceiver => exact Option.some.inj h ▸ List.prefix_rfl
  | arrive | hangUp =>
      simp only [step] at h
      split_ifs at h
      exact Option.some.inj h ▸ List.prefix_rfl

theorem Inv.enqueued (hl : Inv l) : l.receiver.enqueued <+: nonempty l.sender.sent := by
  obtain ⟨done, rest, hsent, henqueued, -⟩ := hl.read
  rw [henqueued, hsent, nonempty, nonempty, List.filter_append]
  exact List.prefix_append _ _

/-- The send thread looks at the flag before the constructor has written it. -/
def LooksTooEarly (l : TcpLink) : Action → Prop
  | .sender a => TCPSender.LooksTooEarly l.sender a
  | _ => False

/-- As long as the connection is up, the sender is one of `TCPSender`'s own runs. -/
theorem step_senderInv {a : Action} (hl : l.up = true → TCPSender.Inv l.sender)
    (ha : ¬ LooksTooEarly l a) (h : step l a = some l') :
    l'.up = true → TCPSender.Inv l'.sender := by
  intro hup
  cases a with
  | sender a =>
      obtain ⟨sender, hsender, rfl⟩ := Option.map_eq_some_iff.1 h
      exact TCPSender.step_inv (hl hup) ha hsender
  | writeFails =>
      simp only [step] at h
      split_ifs at h with hstill
      split at h
      · obtain rfl := Option.some.inj h
        exact absurd hup hstill
      · obtain rfl := Option.some.inj h
        exact absurd hup hstill
      · cases h
  | arrive n =>
      simp only [step] at h
      split_ifs at h with harrive
      obtain rfl := Option.some.inj h
      exact hl harrive.1
  | hangUp failed =>
      simp only [step] at h
      split_ifs at h
      obtain rfl := Option.some.inj h
      cases hup
  | turn =>
      simp only [step] at h
      split_ifs at h
      obtain ⟨receiver, -, rfl⟩ := Option.map_eq_some_iff.1 h
      exact hl hup
  | closeReceiver => exact Option.some.inj h ▸ hl (by obtain rfl := Option.some.inj h; exact hup)

/-- **An orderly end loses nothing.**  If the send thread did not look too early, `Close` has
returned on the sender's side, the connection has not ended before that, all bytes have come in, and
the receive thread has nothing more to read, then every message that was passed to `Send` has been
queued for `Get`, apart from the empty ones. -/
theorem all_enqueued (h : Transition.run step init as = some l)
    (hshort : ∀ message ∈ l.sender.sent, message.length < 2 ^ 31)
    (hearly : Transition.Meets step (fun l a => ¬ LooksTooEarly l a) init as)
    (hclosed : l.sender.owner = .closed) (hup : l.up = true)
    (harrived : l.arrived = l.sender.socket.length) (hidle : ¬ Complete l.receiver) :
    l.receiver.enqueued = nonempty l.sender.sent := by
  have hsender := Transition.run_invariant_of_meets
    (I := fun l : TcpLink => l.up = true → TCPSender.Inv l.sender)
    (fun _ _ _ hl ha h => step_senderInv hl ha h) (fun _ => TCPSender.inv_init) hearly h hup
  obtain ⟨done, rest, hsent, henqueued, -, hread⟩ := (run_inv hshort h).read
  have hsocket : l.sender.socket = wire l.sender.sent := by
    have hdone := hsender.closed hclosed
    have hsending := hsender.sending
    rw [hdone, (hsender.done hdone).1] at hsending
    exact hsending.finish
  -- what has come in is the frames of the messages that have not been read
  have hbytes : l.receiver.socket.bytes = wire rest := by
    have hall := hread hup
    rw [harrived, List.take_length, hsocket, hsent, wire_append] at hall
    exact List.append_cancel_left hall
  cases rest with
  | nil => rw [henqueued, hsent, List.append_nil]
  | cons message rest =>
      have hmessage := hshort message (by simp [hsent])
      exact absurd (read_frame hmessage hbytes).1 hidle

/-- An empty message and another one; a part of the second frame comes in with the first. -/
def sampleRun : List Action :=
  [.sender .constructed, .sender (.send []), .sender (.send [7]), .sender .look,
    .sender .writeHeader, .sender .writePayload, .sender .look, .sender .writeHeader,
    .sender .writePayload, .sender .close, .sender .look, .sender .leave, .sender .join,
    .arrive 40, .turn, .arrive 25, .turn]

set_option maxRecDepth 4000 in
theorem all_enqueued_sample :
    ∃ l, Transition.run step init sampleRun = some l ∧
      l.receiver.enqueued = nonempty l.sender.sent := by
  obtain ⟨l, h, hsent, hclosed, hup, harrived, hidle⟩ : ∃ l,
      Transition.run step init sampleRun = some l ∧ l.sender.sent = [[], [7]] ∧
      l.sender.owner = .closed ∧ l.up = true ∧ l.arrived = l.sender.socket.length ∧
      ¬ Complete l.receiver := ⟨_, rfl, rfl, rfl, rfl, rfl, by decide⟩
  refine ⟨l, h, all_enqueued h (by rw [hsent]; decide) ?_ hclosed hup harrived hidle⟩
  have hlook {l : TcpLink} (hl : l.sender.owner = .running) :
      ¬ LooksTooEarly l (.sender .look) := by
    intro hearly
    exact absurd (hl.symm.trans hearly) (by simp)
  exact .cons id rfl (.cons id rfl (.cons id rfl (.cons (hlook rfl) rfl (.cons id rfl
    (.cons id rfl (.cons (hlook rfl) rfl (.cons id rfl (.cons id rfl (.cons id rfl
      (.cons (by rintro ⟨⟩) rfl (.cons id rfl (.cons id rfl (.cons id rfl (.cons id rfl
        (.cons id rfl (.cons id rfl trivial))))))))))))))))

end TcpLink
end Net
end BreUtils
