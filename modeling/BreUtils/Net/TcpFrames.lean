/-
# Frames from session to session

One session only sends and the other one only reads.  What the sender writes is the
frames of its messages, one behind the other (`output_eq_wire`): its header object
never parses anything, so the reserved bytes stay zero.  The reader cuts a stream of
frames where the frames end, in whatever pieces the bytes come in: what it has
consumed is always the frames of the messages that it has received, and a part of the
next one (`ReadInv`).  So when it can read no further, it has received the messages
that were sent, and no byte is left (`frames_round_trip`).
-/

import BreUtils.Net.TcpSession

namespace BreUtils
namespace Net
namespace TCPSession

open Lib

variable {s s' : TCPSession} {as : List Action}

/-! ### The sending side -/

/-- A step of a session that only sends, without a failing write. -/
def Sends : Action → Prop
  | .send _ | .look | .pop | .popFails | .getHeaderData | .writeHeader | .writePayload => True
  | _ => False

/-- The messages that are passed to `Send`. -/
def sent (as : List Action) : List (List UInt8) :=
  as.filterMap fun a =>
    match a with
    | .send message => some message
    | _ => none

/-- The message that the write thread is busy with. -/
def Writer.inFlight : Writer → List (List UInt8)
  | .idle | .popping => []
  | .popped message | .header _ message | .payload message => [message]

/-- It has no message in hand. -/
def Writer.Rests : Writer → Prop
  | .idle | .popping => True
  | _ => False

/-- What of its frame is written. -/
def Writer.written : Writer → List UInt8
  | .payload message => TCPHeader.header message.length TCPHeader.zeros
  | _ => []

/-- What holds of a session that has only sent: its messages are written, in flight, or in the
queue, in this order. -/
structure SendInv (messages : List (List UInt8)) (s : TCPSession) : Prop where
  magic : s.header.data.take 4 = TCPHeader.magic
  zeros : s.header.data.drop 8 = TCPHeader.zeros
  header : ∀ bytes message, s.writer = .header bytes message →
    bytes = TCPHeader.header message.length TCPHeader.zeros
  sending : Sending messages s.output (Writer.written s.writer)
    (Writer.inFlight s.writer ++ s.queueSend)

/-- A write thread that rests, with nothing in the queue, has written the frames. -/
theorem SendInv.output_eq {messages : List (List UInt8)} (h : SendInv messages s)
    (hqueue : s.queueSend = []) (hrests : Writer.Rests s.writer) : s.output = wire messages := by
  have hsending := h.sending
  rw [hqueue] at hsending
  cases hwriter : s.writer with
  | idle | popping =>
      rw [hwriter] at hsending
      exact hsending.finish
  | popped | header | payload =>
      rw [hwriter] at hrests
      exact hrests.elim

theorem sendInv_init : SendInv [] init where
  magic := rfl
  zeros := rfl
  header := by rintro _ _ ⟨⟩
  sending := Sending.start

theorem sent_concat (as : List Action) (a : Action) : sent (as ++ [a]) = sent as ++ sent [a] :=
  List.filterMap_append

theorem step_sendInv {messages : List (List UInt8)} {a : Action} (hs : SendInv messages s)
    (ha : Sends a) (h : step s a = some s') : SendInv (messages ++ sent [a]) s' := by
  have hsending := hs.sending
  cases step_cases h with
  | @send message =>
      refine ⟨hs.magic, hs.zeros, hs.header, ?_⟩
      show Sending (messages ++ [message]) s.output (Writer.written s.writer)
        (Writer.inFlight s.writer ++ (s.queueSend ++ [message]))
      rw [← List.append_assoc]
      exact hsending.push message
  | look hwriter | popFails hwriter =>
      rw [hwriter] at hsending
      refine ⟨hs.magic, hs.zeros, by rintro _ _ ⟨⟩, ?_⟩
      exact (List.append_nil messages).symm ▸ hsending
  | pop hwriter hqueue =>
      rw [hwriter, hqueue] at hsending
      refine ⟨hs.magic, hs.zeros, by rintro _ _ ⟨⟩, ?_⟩
      exact (List.append_nil messages).symm ▸ hsending
  | @getHeaderData message hwriter =>
      have hget := TCPHeader.getHeaderData_eq hs.magic message.length
      rw [hs.zeros] at hget
      rw [hget]
      rw [hwriter] at hsending
      refine ⟨TCPHeader.take_header _ _, TCPHeader.drop_header _ _, ?_, ?_⟩
      · rintro bytes message' hheader
        obtain ⟨rfl, rfl⟩ := Writer.header.inj hheader
        rfl
      · exact (List.append_nil messages).symm ▸ hsending
  | @writeHeader bytes message hwriter =>
      obtain rfl := hs.header bytes message hwriter
      rw [hwriter] at hsending
      refine ⟨hs.magic, hs.zeros, by rintro _ _ ⟨⟩, ?_⟩
      exact (List.append_nil messages).symm ▸ hsending.writeHeader
  | writePayload hwriter =>
      rw [hwriter] at hsending
      refine ⟨hs.magic, hs.zeros, by rintro _ _ ⟨⟩, ?_⟩
      exact (List.append_nil messages).symm ▸ hsending.writePayload
  | _ => exact ha.elim

theorem run_sendInv (h : Transition.run step init as = some s) (has : ∀ a ∈ as, Sends a) :
    SendInv (sent as) s := by
  induction as using List.reverseRecOn generalizing s with
  | nil =>
      obtain rfl := Option.some.inj h
      exact sendInv_init
  | append_singleton as a ih =>
      obtain ⟨u, hu, hstep⟩ := Transition.run_concat_eq_some.1 h
      rw [sent_concat]
      refine step_sendInv (ih hu fun b hb => has b (List.mem_append_left _ hb)) ?_ hstep
      exact has a (List.mem_append_right _ (List.mem_singleton_self a))

/-- **A sender that is done has written the frames of its messages.** -/
theorem output_eq_wire (h : Transition.run step init as = some s) (has : ∀ a ∈ as, Sends a)
    (hqueue : s.queueSend = []) (hrests : Writer.Rests s.writer) : s.output = wire (sent as) :=
  (run_sendInv h has).output_eq hqueue hrests

/-! ### The reading side -/

/-- A step of a session that only reads, without a failing read. -/
def Reads : Action → Prop
  | .arrive _ | .readHeader | .parse | .asyncReadData | .readData => True
  | _ => False

/-- The bytes that come in. -/
def arrived (as : List Action) : List UInt8 :=
  as.flatMap fun a =>
    match a with
    | .arrive bytes => bytes
    | _ => []

/-- What of the current frame is consumed. -/
def Reader.consumed : Reader → List UInt8
  | .parse bytes | .callReadData bytes => bytes
  | .data length => TCPHeader.header length TCPHeader.zeros
  | .header | .ended => []

/-- What the read handlers know of the messages that are still to come. -/
def Expects (s : TCPSession) (rest : List (List UInt8)) : Reader → Prop
  | .header => True
  | .parse bytes => bytes.length = TCPHeader.headerSize
  | .callReadData bytes => ∃ message rest', rest = message :: rest' ∧
      bytes = TCPHeader.header message.length TCPHeader.zeros ∧
      s.header.fileSize.toNat = message.length
  | .data length => ∃ message rest', rest = message :: rest' ∧ length = message.length
  | .ended => False

/-- What holds of a session that has read the frames of `messages` so far as they came in: it has
received some of the messages and consumed their frames and a part of the next one. -/
def ReadInv (messages : List (List UInt8)) (stream : List UInt8) (s : TCPSession) : Prop :=
  ∃ rest, messages = s.received ++ rest ∧
    wire s.received ++ (Reader.consumed s.reader ++ s.input) = stream ∧
    Expects s rest s.reader

theorem arrived_concat (as : List Action) (a : Action) :
    arrived (as ++ [a]) = arrived as ++ arrived [a] := List.flatMap_append

/-- The frames of the messages to come start with what is consumed of the next one and with what is
there already. -/
theorem rest_of_prefix {received rest : List (List UInt8)} {part stream : List UInt8}
    (hstream : wire received ++ part = stream) (hbegins : stream <+: wire (received ++ rest)) :
    ∃ later, wire rest = part ++ later := by
  obtain ⟨later, hlater⟩ := hbegins
  rw [← hstream, wire_append, List.append_assoc] at hlater
  exact ⟨later, (List.append_cancel_left hlater).symm⟩

/-- 32 bytes of the frames to come are the header of the next message. -/
theorem header_of_rest {rest : List (List UInt8)} {bytes later : List UInt8}
    (hbytes : bytes.length = TCPHeader.headerSize) (h : wire rest = bytes ++ later) :
    ∃ message rest', rest = message :: rest' ∧
      bytes = TCPHeader.header message.length TCPHeader.zeros := by
  cases rest with
  | nil =>
      rw [wire_nil] at h
      have hlength := congrArg List.length h
      rw [List.length_append, hbytes] at hlength
      simp [TCPHeader.headerSize] at hlength
      omega
  | cons message rest' =>
      rw [wire_cons] at h
      refine ⟨message, rest', rfl, (List.append_inj_left h ?_).symm⟩
      rw [TCPHeader.length_header, hbytes]
      rfl

/-- As many bytes behind the header as the next message has are the message. -/
theorem payload_of_rest {message input later : List UInt8} {rest' : List (List UInt8)}
    (hlong : ¬ input.length < message.length)
    (h : wire (message :: rest') =
      TCPHeader.header message.length TCPHeader.zeros ++ input ++ later) :
    input.take message.length = message := by
  rw [wire_cons, List.append_assoc] at h
  have htake := congrArg (List.take message.length) (List.append_cancel_left h)
  rw [List.take_left, List.take_append_of_le_length (by omega)] at htake
  exact htake.symm

theorem step_readInv {messages : List (List UInt8)} {stream : List UInt8} {a : Action}
    (hshort : ∀ message ∈ messages, message.length < 2 ^ 31) (hs : ReadInv messages stream s)
    (hbegins : stream <+: wire messages) (ha : Reads a) (h : step s a = some s') :
    ReadInv messages (stream ++ arrived [a]) s' := by
  obtain ⟨rest, hmessages, hstream, hexpects⟩ := hs
  rw [hmessages] at hbegins
  obtain ⟨later, hlater⟩ := rest_of_prefix hstream hbegins
  cases step_cases h with
  | @arrive bytes =>
      have harrived : arrived [.arrive bytes] = bytes := List.append_nil bytes
      refine ⟨rest, hmessages, ?_, hexpects⟩
      rw [harrived, ← hstream]
      simp
  | readHeader hreader hmany =>
      rw [hreader] at hstream
      refine ⟨rest, hmessages, ?_, ?_⟩
      · show _ ++ (s.input.take TCPHeader.headerSize ++ s.input.drop TCPHeader.headerSize) = _
        rw [List.take_append_drop]
        exact hstream.trans (List.append_nil _).symm
      · show (s.input.take TCPHeader.headerSize).length = TCPHeader.headerSize
        rw [List.length_take]
        omega
  | @parseAccepts bytes header hreader hparse =>
      rw [hreader] at hstream hexpects hlater
      rw [List.append_assoc] at hlater
      obtain ⟨message, rest', rfl, rfl⟩ := header_of_rest hexpects hlater
      obtain ⟨-, rfl⟩ := parse_eq_true hexpects hparse
      refine ⟨message :: rest', hmessages, hstream.trans (List.append_nil _).symm, message, rest',
        rfl, rfl, ?_⟩
      have hlength := hshort message (by rw [hmessages]; simp)
      show (UInt32.ofNat (TCPHeader.lengthField _)).toNat = _
      rw [TCPHeader.toNat_fileSize, TCPHeader.lengthField_header, Nat.mod_eq_of_lt (by omega)]
  | @parseRejects bytes header hreader hparse =>
      rw [hreader] at hexpects hlater
      rw [List.append_assoc] at hlater
      -- a header of the stream starts with `BREZ`
      obtain ⟨message, rest', rfl, rfl⟩ := header_of_rest hexpects hlater
      rw [TCPHeader.parse_accepts hexpects (TCPHeader.take_header _ _)] at hparse
      exact absurd (Prod.mk.inj hparse).1 (by simp)
  | @asyncReadData bytes hreader =>
      rw [hreader] at hstream hexpects
      obtain ⟨message, rest', rfl, rfl, hsize⟩ := hexpects
      have hlength := hshort message (by rw [hmessages]; simp)
      rw [hsize, if_pos hlength]
      exact ⟨message :: rest', hmessages, hstream.trans (List.append_nil _).symm, message, rest',
        rfl, rfl⟩
  | @readData length hreader hmany =>
      rw [hreader] at hstream hexpects hlater
      obtain ⟨message, rest', rfl, rfl⟩ := hexpects
      have htake := payload_of_rest (not_lt.2 hmany) hlater
      refine ⟨rest', ?_, ?_, trivial⟩
      · show messages = s.received ++ [s.input.take message.length] ++ rest'
        rw [htake, hmessages, List.append_assoc]
        rfl
      · show wire (s.received ++ [s.input.take message.length]) ++
          ([] ++ s.input.drop message.length) = stream ++ []
        rw [htake, wire_append, wire_cons, wire_nil, List.append_nil, List.append_nil, ← hstream,
          List.nil_append, List.append_assoc, List.append_assoc]
        show _ = wire s.received ++ (TCPHeader.header message.length TCPHeader.zeros ++ s.input)
        conv_rhs => rw [← List.take_append_drop message.length s.input, htake]
  | _ => exact ha.elim

theorem run_readInv {messages : List (List UInt8)}
    (hshort : ∀ message ∈ messages, message.length < 2 ^ 31)
    (h : Transition.run step init as = some s) (has : ∀ a ∈ as, Reads a)
    (hbegins : arrived as <+: wire messages) : ReadInv messages (arrived as) s := by
  induction as using List.reverseRecOn generalizing s with
  | nil =>
      obtain rfl := Option.some.inj h
      exact ⟨messages, rfl, rfl, trivial⟩
  | append_singleton as a ih =>
      obtain ⟨u, hu, hstep⟩ := Transition.run_concat_eq_some.1 h
      rw [arrived_concat] at hbegins ⊢
      have hbefore := (List.prefix_append _ _).trans hbegins
      have hu := ih hu (fun b hb => has b (List.mem_append_left _ hb)) hbefore
      exact step_readInv hshort hu hbefore
        (has a (List.mem_append_right _ (List.mem_singleton_self a))) hstep

/-- The read handlers can do nothing more before bytes come in. -/
def Waiting (s : TCPSession) : Prop :=
  step s .readHeader = none ∧ step s .parse = none ∧ step s .asyncReadData = none ∧
    step s .readData = none

/-- **A reader that waits when all frames are there has received their messages.** -/
theorem received_of_waiting {messages : List (List UInt8)}
    (hshort : ∀ message ∈ messages, message.length < 2 ^ 31)
    (h : Transition.run step init as = some s) (has : ∀ a ∈ as, Reads a)
    (harrived : arrived as = wire messages) (hwaiting : Waiting s) :
    s.received = messages ∧ s.input = [] := by
  have hinv := run_readInv hshort h has (harrived ▸ List.prefix_refl _)
  rw [harrived] at hinv
  obtain ⟨rest, rfl, hstream, hexpects⟩ := hinv
  rw [wire_append] at hstream
  have hrest := List.append_cancel_left hstream
  obtain ⟨hheader, hparse, hcall, hdata⟩ := hwaiting
  cases hreader : s.reader with
  | header =>
      rw [hreader] at hrest
      have hfew : s.input.length < TCPHeader.headerSize := by
        by_contra hmany
        simp only [step, hreader, if_neg hmany] at hheader
        exact absurd hheader (by simp)
      have hinput : s.input = wire rest := hrest
      cases rest with
      | nil => exact ⟨(List.append_nil _).symm, hinput⟩
      | cons message rest' =>
          have hlength : s.input.length = 32 + (message ++ wire rest').length := by
            rw [hinput, wire_cons, List.length_append, TCPHeader.length_header]
            rfl
          have hheaderSize : TCPHeader.headerSize = 32 := rfl
          omega
  | parse bytes =>
      simp only [step, hreader] at hparse
      split at hparse <;> exact absurd hparse (by simp)
  | callReadData bytes =>
      simp only [step, hreader] at hcall
      exact absurd hcall (by simp)
  | data length =>
      rw [hreader] at hrest hexpects
      obtain ⟨message, rest', rfl, rfl⟩ := hexpects
      have hfew : s.input.length < message.length := by
        by_contra hmany
        simp only [step, hreader, if_neg hmany] at hdata
        exact absurd hdata (by simp)
      rw [wire_cons] at hrest
      have hlength := congrArg List.length (List.append_cancel_left hrest)
      rw [List.length_append] at hlength
      omega
  | ended =>
      rw [hreader] at hexpects
      exact hexpects.elim

/-- The read handlers go through one frame. -/
theorem read_frame {message rest : List UInt8} (hshort : message.length < 2 ^ 31)
    (hreader : s.reader = .header) (hinput : s.input = frame message ++ rest) :
    ∃ s', Transition.run step s [.readHeader, .parse, .asyncReadData, .readData] = some s' ∧
      s'.reader = .header ∧ s'.input = rest ∧ s'.received = s.received ++ [message] := by
  have hlength : (TCPHeader.header message.length TCPHeader.zeros).length =
      TCPHeader.headerSize := TCPHeader.length_header _ _
  rw [frame, List.append_assoc] at hinput
  have hmany : ¬ s.input.length < TCPHeader.headerSize := by
    rw [hinput, List.length_append, hlength]
    omega
  have hmod : TCPHeader.lengthField (TCPHeader.header message.length TCPHeader.zeros) =
      message.length := by
    rw [TCPHeader.lengthField_header, Nat.mod_eq_of_lt (by omega)]
  have htake : s.input.take TCPHeader.headerSize =
      TCPHeader.header message.length TCPHeader.zeros := by
    rw [hinput, List.take_left' hlength]
  have hdrop : s.input.drop TCPHeader.headerSize = message ++ rest := by
    rw [hinput, List.drop_left' hlength]
  have hsize := TCPHeader.toNat_fileSize (TCPHeader.header message.length TCPHeader.zeros)
  rw [hmod] at hsize
  simp only [Transition.run_cons, Transition.run_nil, step, hreader, if_neg hmany,
    Option.bind_some, htake, TCPHeader.parse_accepts hlength (TCPHeader.take_header _ _), hdrop,
    hmod, hsize, if_pos hshort]
  rw [if_neg (by rw [List.length_append]; omega)]
  exact ⟨_, rfl, rfl, List.drop_left' rfl, by rw [List.take_left' rfl]⟩

/-- The read handlers go through a stream of frames. -/
theorem read_all {messages : List (List UInt8)}
    (hshort : ∀ message ∈ messages, message.length < 2 ^ 31) (hreader : s.reader = .header)
    (hinput : s.input = wire messages) :
    ∃ as s', Transition.run step s as = some s' ∧ (∀ a ∈ as, Reads a) ∧ arrived as = [] ∧
      s'.received = s.received ++ messages ∧ s'.input = [] := by
  induction messages generalizing s with
  | nil => exact ⟨[], s, rfl, by simp, rfl, (List.append_nil _).symm, hinput⟩
  | cons message messages ih =>
      obtain ⟨u, hu, hreader', hinput', hreceived⟩ :=
        read_frame (hshort message (List.mem_cons_self ..)) hreader hinput
      obtain ⟨as, s', hs', hreads, harrived, hreceived', hinput''⟩ :=
        ih (fun m hm => hshort m (List.mem_cons_of_mem _ hm)) hreader' hinput'
      refine ⟨[.readHeader, .parse, .asyncReadData, .readData] ++ as, s', ?_, ?_, harrived, ?_,
        hinput''⟩
      · rw [Transition.run_append, hu]
        exact hs'
      · intro a ha
        rcases List.mem_append.1 ha with ha | ha
        · simp only [List.mem_cons, List.not_mem_nil, or_false] at ha
          rcases ha with rfl | rfl | rfl | rfl <;> trivial
        · exact hreads a ha
      · rw [hreceived', hreceived, List.append_assoc]
        rfl

/-- **Frames come through.**  A session sends messages, each shorter than `2 ^ 31` bytes, and its
write thread gets them all out, however it interleaves with the calls of `Send`.  Another session
only reads, and the bytes come in in order, in whatever pieces.  Whenever that session has all the
bytes and can read no further, its callback was called with exactly these messages in this order,
and no byte is left; and it does get there. -/
theorem frames_round_trip {messages : List (List UInt8)} {sender : TCPSession}
    (hshort : ∀ message ∈ messages, message.length < 2 ^ 31)
    (hsender : Transition.run step init as = some sender) (hsends : ∀ a ∈ as, Sends a)
    (hmessages : sent as = messages) (hqueue : sender.queueSend = [])
    (hrests : Writer.Rests sender.writer) :
    (∀ bs reader, Transition.run step init bs = some reader → (∀ b ∈ bs, Reads b) →
        arrived bs = sender.output → Waiting reader →
        reader.received = messages ∧ reader.input = []) ∧
      ∃ bs reader, Transition.run step init bs = some reader ∧ (∀ b ∈ bs, Reads b) ∧
        arrived bs = sender.output ∧ reader.received = messages ∧ reader.input = [] := by
  have houtput := output_eq_wire hsender hsends hqueue hrests
  rw [hmessages] at houtput
  rw [houtput]
  refine ⟨fun bs reader hrun hreads harrived hwaiting =>
    received_of_waiting hshort hrun hreads harrived hwaiting, ?_⟩
  obtain ⟨as, reader, hrun, hreads, harrived, hreceived, hinput⟩ :=
    read_all (s := { init with input := wire messages }) hshort rfl rfl
  refine ⟨.arrive (wire messages) :: as, reader, hrun, ?_, ?_, hreceived, hinput⟩
  · intro b hb
    rcases List.mem_cons.1 hb with rfl | hb
    · trivial
    · exact hreads b hb
  · show wire messages ++ arrived as = wire messages
    rw [harrived, List.append_nil]

/-- Two messages, one of them empty; the first frame is out before the second `Send`. -/
theorem frames_round_trip_sample :
    ∃ sender, Transition.run step init [.send [7, 8], .look, .pop, .getHeaderData, .writeHeader,
        .send [], .writePayload, .look, .pop, .getHeaderData, .writeHeader, .writePayload, .look,
        .popFails] = some sender ∧
      (∀ bs reader, Transition.run step init bs = some reader → (∀ b ∈ bs, Reads b) →
        arrived bs = sender.output → Waiting reader →
        reader.received = [[7, 8], []] ∧ reader.input = []) ∧
      ∃ bs reader, Transition.run step init bs = some reader ∧ (∀ b ∈ bs, Reads b) ∧
        arrived bs = sender.output ∧ reader.received = [[7, 8], []] ∧ reader.input = [] := by
  obtain ⟨sender, hsender, hqueue, hrests⟩ : ∃ sender, Transition.run step init
      [.send [7, 8], .look, .pop, .getHeaderData, .writeHeader, .send [], .writePayload, .look,
        .pop, .getHeaderData, .writeHeader, .writePayload, .look, .popFails] = some sender ∧
      sender.queueSend = [] ∧ Writer.Rests sender.writer := ⟨_, rfl, rfl, trivial⟩
  refine ⟨sender, hsender, frames_round_trip ?_ hsender ?_ rfl hqueue hrests⟩
  · decide
  · intro a ha
    simp only [List.mem_cons, List.not_mem_nil, or_false] at ha
    rcases ha with rfl | rfl | rfl | rfl | rfl | rfl | rfl | rfl | rfl | rfl | rfl | rfl | rfl |
      rfl <;> trivial

end TCPSession
end Net
end BreUtils
