/-
# The session of `net/TCPSession.hpp`

A session writes and reads at the same time: a thread takes messages from a queue and
writes a header and the message, while handlers of the event loop read a header, parse
it, and read as many bytes as it says.  Each step here is one that the other side can
come before or after: the test of the `while`, taking a message, `GetHeaderData`, each
write; 32 bytes coming in, `Parse`, the call of `asyncReadData`, the payload coming in.

Both sides use one `TCPHeader`.  `GetHeaderData` between `Parse` and `asyncReadData`
changes the length that is read, and what `Parse` took over from the peer goes out in
the next header.  The two directions do not interfere as long as neither happens
(`directions_independent`).
-/

import BreUtils.Lib.Transition
import BreUtils.Net.TcpHeader

namespace BreUtils
namespace Net

open Lib

/-- Where the read handlers are. -/
inductive Reader where
  /-- `asyncReadHeader` is waiting for 32 bytes. -/
  | header
  /-- 32 bytes are in `_header_data`. -/
  | parse (bytes : List UInt8)
  /-- `Parse` has accepted them; `asyncReadData(_header.FileSize)` is next. -/
  | callReadData (bytes : List UInt8)
  /-- `asyncReadData` is waiting for this many bytes. -/
  | data (length : ℕ)
  /-- No read is pending any more. -/
  | ended
  deriving DecidableEq

/-- Where `writeThread` is. -/
inductive Writer where
  /-- At its `while`. -/
  | idle
  /-- In `Pop(data, 10)`. -/
  | popping
  /-- It has a message from the queue. -/
  | popped (message : List UInt8)
  /-- It has the bytes that `GetHeaderData` returned. -/
  | header (bytes message : List UInt8)
  /-- The header is written. -/
  | payload (message : List UInt8)
  deriving DecidableEq

/-- `TCPSession`, and both ends of its socket. -/
structure TCPSession where
  header : TCPHeader
  isClosed : Bool
  queueSend : List (List UInt8)
  reader : Reader
  writer : Writer
  /-- The bytes that have arrived and are not read yet. -/
  input : List UInt8
  /-- The bytes that are written. -/
  output : List UInt8
  /-- The messages that the receive callback was called with. -/
  received : List (List UInt8)
  /-- The header that `Parse` accepted last. -/
  accepted : Option (List UInt8)
  /-- Each call of `asyncReadData`: the header that was read for it, and `_header.FileSize`. -/
  calls : List (List UInt8 × UInt32)
  /-- Each header written, and the message that it was written for. -/
  headers : List (List UInt8 × List UInt8)
  deriving DecidableEq

namespace TCPSession

/-- A session that has just started. -/
def init : TCPSession where
  header := TCPHeader.init
  isClosed := false
  queueSend := []
  reader := .header
  writer := .idle
  input := []
  output := []
  received := []
  accepted := none
  calls := []
  headers := []

inductive Action where
  | send (message : List UInt8)
  | stop
  /-- `writeThread`: the `while` finds the session open. -/
  | look
  /-- `_queue_send.Pop(data, 10)` returns a message. -/
  | pop
  /-- It returns `false`, after 10 ms. -/
  | popFails
  | getHeaderData
  | writeHeader
  | writePayload
  /-- A write throws, after some bytes. -/
  | writeError (written : ℕ)
  /-- Bytes come in from the peer. -/
  | arrive (bytes : List UInt8)
  /-- The read handlers. -/
  | readHeader
  | parse
  | asyncReadData
  | readData
  /-- A read fails. -/
  | readError

/-- **One step.** -/
def step (s : TCPSession) : Action → Option TCPSession
  | .send message => some { s with queueSend := s.queueSend ++ [message] }
  | .stop => some { s with isClosed := true }
  | .look =>
      match s.writer, s.isClosed with
      | .idle, false => some { s with writer := .popping }
      | _, _ => none
  | .pop =>
      match s.writer, s.queueSend with
      | .popping, message :: rest =>
          some { s with queueSend := rest, writer := .popped message }
      | _, _ => none
  | .popFails =>
      match s.writer with
      | .popping => some { s with writer := .idle }
      | _ => none
  | .getHeaderData =>
      match s.writer with
      | .popped message =>
          some { s with
            writer := .header (s.header.getHeaderData message.length).1 message
            header := (s.header.getHeaderData message.length).2 }
      | _ => none
  | .writeHeader =>
      match s.writer with
      | .header bytes message =>
          some { s with
            output := s.output ++ bytes
            headers := s.headers ++ [(bytes, message)]
            writer := .payload message }
      | _ => none
  | .writePayload =>
      match s.writer with
      | .payload message => some { s with output := s.output ++ message, writer := .idle }
      | _ => none
  | .writeError written =>
      match s.writer with
      | .header bytes _ =>
          some { s with output := s.output ++ bytes.take written, writer := .idle }
      | .payload message =>
          some { s with output := s.output ++ message.take written, writer := .idle }
      | _ => none
  | .arrive bytes => some { s with input := s.input ++ bytes }
  | .readHeader =>
      match s.reader with
      | .header =>
          if s.input.length < TCPHeader.headerSize then none
          else
            some { s with
              input := s.input.drop TCPHeader.headerSize
              reader := .parse (s.input.take TCPHeader.headerSize) }
      | _ => none
  | .parse =>
      match s.reader with
      | .parse bytes =>
          match s.header.parse bytes with
          | (true, header) =>
              some { s with header, reader := .callReadData bytes, accepted := some bytes }
          | (false, header) => some { s with header, reader := .ended }
      | _ => none
  | .asyncReadData =>
      match s.reader with
      | .callReadData bytes =>
          -- the parameter is an `int`: from `2 ^ 31` on it is negative, and the vector throws
          some { s with
            calls := s.calls ++ [(bytes, s.header.fileSize)]
            reader :=
              if s.header.fileSize.toNat < 2 ^ 31 then .data s.header.fileSize.toNat else .ended }
      | _ => none
  | .readData =>
      match s.reader with
      | .data length =>
          if s.input.length < length then none
          else
            some { s with
              input := s.input.drop length
              received := s.received ++ [s.input.take length]
              reader := .header }
      | _ => none
  | .readError =>
      match s.reader with
      | .header | .data _ => some { s with isClosed := true, reader := .ended }
      | _ => none

/-- What the steps do, case by case. -/
inductive Steps (s : TCPSession) : Action → TCPSession → Prop
  | send {message : List UInt8} :
      Steps s (.send message) { s with queueSend := s.queueSend ++ [message] }
  | stop : Steps s .stop { s with isClosed := true }
  | look : s.writer = .idle → s.isClosed = false → Steps s .look { s with writer := .popping }
  | pop {message : List UInt8} {rest : List (List UInt8)} :
      s.writer = .popping → s.queueSend = message :: rest →
      Steps s .pop { s with queueSend := rest, writer := .popped message }
  | popFails : s.writer = .popping → Steps s .popFails { s with writer := .idle }
  | getHeaderData {message : List UInt8} : s.writer = .popped message →
      Steps s .getHeaderData
        { s with
          writer := .header (s.header.getHeaderData message.length).1 message
          header := (s.header.getHeaderData message.length).2 }
  | writeHeader {bytes message : List UInt8} : s.writer = .header bytes message →
      Steps s .writeHeader
        { s with
          output := s.output ++ bytes
          headers := s.headers ++ [(bytes, message)]
          writer := .payload message }
  | writePayload {message : List UInt8} : s.writer = .payload message →
      Steps s .writePayload { s with output := s.output ++ message, writer := .idle }
  | writeError {written : ℕ} {bytes : List UInt8} :
      (∃ message, s.writer = .header bytes message) ∨ s.writer = .payload bytes →
      Steps s (.writeError written)
        { s with output := s.output ++ bytes.take written, writer := .idle }
  | arrive {bytes : List UInt8} : Steps s (.arrive bytes) { s with input := s.input ++ bytes }
  | readHeader : s.reader = .header → TCPHeader.headerSize ≤ s.input.length →
      Steps s .readHeader
        { s with
          input := s.input.drop TCPHeader.headerSize
          reader := .parse (s.input.take TCPHeader.headerSize) }
  | parseAccepts {bytes : List UInt8} {header : TCPHeader} : s.reader = .parse bytes →
      s.header.parse bytes = (true, header) →
      Steps s .parse { s with header, reader := .callReadData bytes, accepted := some bytes }
  | parseRejects {bytes : List UInt8} {header : TCPHeader} : s.reader = .parse bytes →
      s.header.parse bytes = (false, header) → Steps s .parse { s with header, reader := .ended }
  | asyncReadData {bytes : List UInt8} : s.reader = .callReadData bytes →
      Steps s .asyncReadData
        { s with
          calls := s.calls ++ [(bytes, s.header.fileSize)]
          reader :=
            if s.header.fileSize.toNat < 2 ^ 31 then .data s.header.fileSize.toNat else .ended }
  | readData {length : ℕ} : s.reader = .data length → length ≤ s.input.length →
      Steps s .readData
        { s with
          input := s.input.drop length
          received := s.received ++ [s.input.take length]
          reader := .header }
  | readError : (s.reader = .header ∨ ∃ length, s.reader = .data length) →
      Steps s .readError { s with isClosed := true, reader := .ended }

/-- **What a step does.** -/
theorem step_cases {s t : TCPSession} {a : Action} (h : step s a = some t) : Steps s a t := by
  cases a with
  | send message => exact Option.some.inj h ▸ .send
  | stop => exact Option.some.inj h ▸ .stop
  | look =>
      simp only [step] at h
      split at h
      · rename_i hwriter hclosed
        exact Option.some.inj h ▸ .look hwriter hclosed
      · cases h
  | pop =>
      simp only [step] at h
      split at h
      · rename_i message rest hwriter hqueue
        exact Option.some.inj h ▸ .pop hwriter hqueue
      · cases h
  | popFails =>
      simp only [step] at h
      split at h
      · rename_i hwriter
        exact Option.some.inj h ▸ .popFails hwriter
      · cases h
  | getHeaderData =>
      simp only [step] at h
      split at h
      · rename_i message hwriter
        exact Option.some.inj h ▸ .getHeaderData hwriter
      · cases h
  | writeHeader =>
      simp only [step] at h
      split at h
      · rename_i bytes message hwriter
        exact Option.some.inj h ▸ .writeHeader hwriter
      · cases h
  | writePayload =>
      simp only [step] at h
      split at h
      · rename_i message hwriter
        exact Option.some.inj h ▸ .writePayload hwriter
      · cases h
  | writeError written =>
      simp only [step] at h
      split at h
      · rename_i bytes message hwriter
        exact Option.some.inj h ▸ .writeError (.inl ⟨message, hwriter⟩)
      · rename_i message hwriter
        exact Option.some.inj h ▸ .writeError (.inr hwriter)
      · cases h
  | arrive bytes => exact Option.some.inj h ▸ .arrive
  | readHeader =>
      simp only [step] at h
      split at h
      · rename_i hreader
        split_ifs at h with hfew
        exact Option.some.inj h ▸ .readHeader hreader (not_lt.1 hfew)
      · cases h
  | parse =>
      simp only [step] at h
      split at h
      · rename_i bytes hreader
        split at h
        · rename_i header hparse
          exact Option.some.inj h ▸ .parseAccepts hreader hparse
        · rename_i header hparse
          exact Option.some.inj h ▸ .parseRejects hreader hparse
      · cases h
  | asyncReadData =>
      simp only [step] at h
      split at h
      · rename_i bytes hreader
        exact Option.some.inj h ▸ .asyncReadData hreader
      · cases h
  | readData =>
      simp only [step] at h
      split at h
      · rename_i length hreader
        split_ifs at h with hfew
        exact Option.some.inj h ▸ .readData hreader (not_lt.1 hfew)
      · cases h
  | readError =>
      simp only [step] at h
      split at h
      · rename_i hreader
        exact Option.some.inj h ▸ .readError (.inl hreader)
      · rename_i length hreader
        exact Option.some.inj h ▸ .readError (.inr ⟨length, hreader⟩)
      · cases h

/-! ### The two directions -/

/-- `GetHeaderData` gets in the way: of a read, whose length it changes, or of its own header, in
which the reserved bytes of the peer go out. -/
def Interferes (s : TCPSession) : Action → Prop
  | .getHeaderData =>
      (∃ bytes, s.accepted = some bytes ∧ bytes.drop 8 ≠ TCPHeader.zeros) ∨
        ∃ bytes message, s.reader = .callReadData bytes ∧ s.writer = .popped message ∧
          message.length % 2 ^ 32 ≠ TCPHeader.lengthField bytes
  | _ => False

/-- Every `asyncReadData` got the length of the header read for it, and every header written is the
header of its payload. -/
def Independent (s : TCPSession) : Prop :=
  (∀ call ∈ s.calls, call.2.toNat = TCPHeader.lengthField call.1) ∧
    ∀ header ∈ s.headers,
      header.1 = TCPHeader.magic ++
        (LittleEndian.bytes 4 header.2.length ++ List.replicate 24 0)

/-- What holds throughout: the object always starts with `BREZ`, its reserved bytes are those that
were accepted last, and its length is the one that is about to be read. -/
structure Inv (s : TCPSession) : Prop where
  magic : s.header.data.take 4 = TCPHeader.magic
  reserved : s.header.data.drop 8 = ((s.accepted.map (List.drop 8)).getD TCPHeader.zeros)
  bytes : ∀ bytes, s.reader = .parse bytes → bytes.length = TCPHeader.headerSize
  length : ∀ bytes, s.reader = .callReadData bytes →
    s.header.fileSize.toNat = TCPHeader.lengthField bytes
  header : ∀ bytes message, s.writer = .header bytes message →
    bytes = TCPHeader.header message.length TCPHeader.zeros
  independent : Independent s

theorem inv_init : Inv init where
  magic := rfl
  reserved := rfl
  bytes := by rintro _ ⟨⟩
  length := by rintro _ ⟨⟩
  header := by rintro _ _ ⟨⟩
  independent := ⟨by simp [init], by simp [init]⟩

variable {s s' : TCPSession}

/-- `Parse` on 32 bytes, when it accepts them. -/
theorem parse_eq_true {o o' : TCPHeader} {bytes : List UInt8}
    (hbytes : bytes.length = TCPHeader.headerSize) (h : o.parse bytes = (true, o')) :
    bytes.take 4 = TCPHeader.magic ∧
      o' = ⟨bytes, UInt32.ofNat (TCPHeader.lengthField bytes)⟩ := by
  by_cases hmagic : bytes.take 4 = TCPHeader.magic
  · rw [TCPHeader.parse_accepts hbytes hmagic, Prod.mk.injEq] at h
    exact ⟨hmagic, h.2.symm⟩
  · rw [TCPHeader.parse_rejects hmagic, Prod.mk.injEq] at h
    exact absurd h.1 (by simp)

theorem parse_eq_false {o o' : TCPHeader} {bytes : List UInt8}
    (h : o.parse bytes = (false, o')) : o' = o := by
  unfold TCPHeader.parse at h
  split_ifs at h
  · exact (Prod.mk.inj h).2.symm
  · exact (Prod.mk.inj h).2.symm
  · exact absurd (Prod.mk.inj h).1 (by simp)

theorem getHeaderData_inv {message : List UInt8} (hs : Inv s) (ha : ¬ Interferes s .getHeaderData)
    (hwriter : s.writer = .popped message) :
    Inv { s with
      writer := .header (s.header.getHeaderData message.length).1 message
      header := (s.header.getHeaderData message.length).2 } := by
  have hzeros : s.header.data.drop 8 = TCPHeader.zeros := by
    rw [hs.reserved]
    cases haccepted : s.accepted with
    | none => rfl
    | some bytes =>
        by_contra hne
        exact ha (Or.inl ⟨bytes, haccepted, hne⟩)
  have hget := TCPHeader.getHeaderData_eq hs.magic message.length
  rw [hzeros] at hget
  rw [hget]
  refine ⟨TCPHeader.take_header _ _, ?_, hs.bytes, fun bytes hreader => ?_,
    fun bytes message' hheader => ?_, hs.independent⟩
  · rw [← hs.reserved, hzeros]
    exact TCPHeader.drop_header _ _
  · have hlength : message.length % 2 ^ 32 = TCPHeader.lengthField bytes := by
      by_contra hne
      exact ha (Or.inr ⟨bytes, message, hreader, hwriter, hne⟩)
    rw [← hlength]
    exact UInt32.toNat_ofNat'
  · obtain ⟨rfl, rfl⟩ := Writer.header.inj hheader
    rfl

theorem step_inv {a : Action} (hs : Inv s) (ha : ¬ Interferes s a) (h : step s a = some s') :
    Inv s' := by
  cases step_cases h with
  | send => exact ⟨hs.magic, hs.reserved, hs.bytes, hs.length, hs.header, hs.independent⟩
  | stop => exact ⟨hs.magic, hs.reserved, hs.bytes, hs.length, hs.header, hs.independent⟩
  | look | pop | popFails =>
      exact ⟨hs.magic, hs.reserved, hs.bytes, hs.length, by rintro _ _ ⟨⟩, hs.independent⟩
  | getHeaderData hwriter => exact getHeaderData_inv hs ha hwriter
  | @writeHeader bytes message hwriter =>
      refine ⟨hs.magic, hs.reserved, hs.bytes, hs.length, by rintro _ _ ⟨⟩, hs.independent.1, ?_⟩
      -- the header that goes out is the one that `GetHeaderData` returned for this message
      intro header hheader
      rcases List.mem_append.1 hheader with hheader | hheader
      · exact hs.independent.2 header hheader
      · obtain rfl := List.mem_singleton.1 hheader
        exact hs.header bytes message hwriter
  | writePayload =>
      exact ⟨hs.magic, hs.reserved, hs.bytes, hs.length, by rintro _ _ ⟨⟩, hs.independent⟩
  | writeError =>
      exact ⟨hs.magic, hs.reserved, hs.bytes, hs.length, by rintro _ _ ⟨⟩, hs.independent⟩
  | arrive => exact ⟨hs.magic, hs.reserved, hs.bytes, hs.length, hs.header, hs.independent⟩
  | readHeader hreader hmany =>
      refine ⟨hs.magic, hs.reserved, fun bytes hreader => ?_, by rintro _ ⟨⟩, hs.header,
        hs.independent⟩
      obtain rfl := Reader.parse.inj hreader
      rw [List.length_take]
      omega
  | @parseAccepts bytes header hreader hparse =>
      obtain ⟨hmagic, rfl⟩ := parse_eq_true (hs.bytes bytes hreader) hparse
      refine ⟨hmagic, rfl, by rintro _ ⟨⟩, fun bytes' hreader' => ?_, hs.header, hs.independent⟩
      obtain rfl := Reader.callReadData.inj hreader'
      exact TCPHeader.toNat_fileSize bytes
  | parseRejects hreader hparse =>
      obtain rfl := parse_eq_false hparse
      exact ⟨hs.magic, hs.reserved, by rintro _ ⟨⟩, by rintro _ ⟨⟩, hs.header, hs.independent⟩
  | @asyncReadData bytes hreader =>
      refine ⟨hs.magic, hs.reserved, fun bytes' hreader' => ?_, fun bytes' hreader' => ?_,
        hs.header, fun call hcall => ?_, hs.independent.2⟩
      · dsimp only at hreader'
        split_ifs at hreader'
      · dsimp only at hreader'
        split_ifs at hreader'
      · rcases List.mem_append.1 hcall with hcall | hcall
        · exact hs.independent.1 call hcall
        · obtain rfl := List.mem_singleton.1 hcall
          exact hs.length bytes hreader
  | readData =>
      exact ⟨hs.magic, hs.reserved, by rintro _ ⟨⟩, by rintro _ ⟨⟩, hs.header, hs.independent⟩
  | readError =>
      exact ⟨hs.magic, hs.reserved, by rintro _ ⟨⟩, by rintro _ ⟨⟩, hs.header, hs.independent⟩

/-- **The two directions do not interfere, as long as `GetHeaderData` gets in the way of nothing.**
In every run in which it comes only while the last accepted header of the peer has zeros in its
reserved bytes, and not between `Parse` and `asyncReadData` of a header with another length: each
`asyncReadData` gets the length of the header just read, and each header written is `BREZ`, the
length of its own payload, and 24 zeros. -/
theorem directions_independent {as : List Action}
    (h : Transition.run step init as = some s)
    (hfree : Transition.Meets step (fun s a => ¬ Interferes s a) init as) : Independent s :=
  (Transition.run_invariant_of_meets (I := Inv) (fun _ _ _ hs ha h => step_inv hs ha h) inv_init
    hfree h).independent

/-- `GetHeaderData` is in nobody's way while a payload is awaited whose header had zeros. -/
theorem not_interferes {n : ℕ} {a : Action} (hreader : s.reader = .data n)
    (haccepted : s.accepted.map (List.drop 8) = some TCPHeader.zeros) : ¬ Interferes s a := by
  intro h
  unfold Interferes at h
  split at h
  · rcases h with ⟨bytes, hbytes, hne⟩ | ⟨bytes, message, hcall, -⟩
    · rw [hbytes] at haccepted
      exact hne (Option.some.inj haccepted)
    · rw [hreader] at hcall
      exact absurd hcall (by simp)
  · exact h

/-- A message goes out while the payload of another one is awaited. -/
theorem directions_independent_sample :
    ∃ s, Transition.run step init [.send [7], .arrive (TCPHeader.header 2 TCPHeader.zeros),
        .readHeader, .look, .pop, .parse, .asyncReadData, .getHeaderData, .writeHeader] = some s ∧
      s.calls.length = 1 ∧ s.headers.length = 1 ∧ Independent s := by
  obtain ⟨s, h, hcalls, hheaders⟩ : ∃ s, Transition.run step init
      [.send [7], .arrive (TCPHeader.header 2 TCPHeader.zeros), .readHeader, .look, .pop, .parse,
        .asyncReadData, .getHeaderData, .writeHeader] = some s ∧
      s.calls.length = 1 ∧ s.headers.length = 1 := ⟨_, rfl, rfl, rfl⟩
  refine ⟨s, h, hcalls, hheaders, directions_independent h ?_⟩
  exact .cons id rfl (.cons id rfl (.cons id rfl (.cons id rfl (.cons id rfl (.cons id rfl
    (.cons id rfl (.cons (@not_interferes _ 2 _ rfl rfl) rfl (.cons id rfl trivial))))))))

/-- **The two directions interfere.**  The header of a message of one byte, made between `Parse` and
`asyncReadData`, makes the session read one byte where the peer announced two; and the header of a
message carries the reserved bytes that the peer sent. -/
theorem directions_interfere :
    (∃ s, Transition.run step init [.send [7], .look, .pop,
        .arrive (TCPHeader.header 2 TCPHeader.zeros), .readHeader, .parse, .getHeaderData,
        .asyncReadData] = some s ∧
      s.calls = [(TCPHeader.header 2 TCPHeader.zeros, 1)] ∧ ¬ Independent s) ∧
    ∃ s, Transition.run step init [.arrive (TCPHeader.header 0 (List.replicate 24 9)),
        .readHeader, .parse, .asyncReadData, .send [7], .look, .pop, .getHeaderData, .writeHeader] =
          some s ∧
      s.headers = [(TCPHeader.header 1 (List.replicate 24 9), [7])] ∧ ¬ Independent s := by
  refine ⟨⟨_, rfl, rfl, fun h => ?_⟩, ⟨_, rfl, rfl, fun h => ?_⟩⟩
  · exact absurd (h.1 _ (List.mem_singleton_self _)) (by decide)
  · exact absurd (h.2 _ (List.mem_singleton_self _)) (by decide)

end TCPSession

end Net
end BreUtils
