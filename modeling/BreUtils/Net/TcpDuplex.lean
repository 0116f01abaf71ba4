/-
# A session that sends and reads

Both directions of a session at once.  The one thing that the write thread can spoil is the length
between `Parse` and `asyncReadData`; and the peer, which writes zeros in its reserved bytes, spoils
nothing.  So as long as no `GetHeaderData` for another length gets in between, and no write fails,
the session writes the frames of what it was asked to send, and has received the first messages of
the peer (`step_duplex`).
-/

import BreUtils.Net.TcpFrames

namespace BreUtils
namespace Net
namespace TCPSession

open Lib

variable {s s' : TCPSession} {asked messages : List (List UInt8)} {stream : List UInt8}
  {a : Action}

/-- No write fails, and no `GetHeaderData` changes a length that is about to be read. -/
def Undisturbed (s : TCPSession) : Action → Prop
  | .getHeaderData => ∀ bytes message, s.reader = .callReadData bytes →
      s.writer = .popped message → message.length % 2 ^ 32 = TCPHeader.lengthField bytes
  | .writeError _ => False
  | _ => True

/-- The session was asked to send `asked`; `stream` has come in of the frames of `messages`. -/
structure Duplex (asked messages : List (List UInt8)) (stream : List UInt8) (s : TCPSession) :
    Prop where
  sends : SendInv asked s
  received : s.received <+: messages
  reads : s.reader ≠ .ended → ReadInv messages stream s

theorem duplex_init : Duplex [] [] [] init where
  sends := sendInv_init
  received := List.prefix_rfl
  reads _ := ⟨[], rfl, rfl, trivial⟩

/-! ### Reading, seen from the steps that write -/

theorem ReadInv.received (h : ReadInv messages stream s) : s.received <+: messages := by
  obtain ⟨rest, hmessages, -, -⟩ := h
  exact ⟨rest, hmessages.symm⟩

/-- What the read handlers know does not depend on the rest of the session. -/
theorem ReadInv.of_same (h : ReadInv messages stream s) (hreceived : s'.received = s.received)
    (hreader : s'.reader = s.reader) (hinput : s'.input = s.input)
    (hsize : ∀ bytes, s.reader = .callReadData bytes →
      s'.header.fileSize.toNat = s.header.fileSize.toNat) : ReadInv messages stream s' := by
  obtain ⟨rest, hmessages, hstream, hexpects⟩ := h
  refine ⟨rest, hreceived ▸ hmessages, by rw [hreceived, hreader, hinput, hstream], ?_⟩
  rw [hreader]
  cases hr : s.reader with
  | header => trivial
  | ended => rwa [hr] at hexpects
  | parse bytes => rwa [hr] at hexpects
  | data length => rwa [hr] at hexpects
  | callReadData bytes =>
      rw [hr] at hexpects
      obtain ⟨message, rest', hrest, hbytes, hlength⟩ := hexpects
      exact ⟨message, rest', hrest, hbytes, (hsize bytes hr).trans hlength⟩

/-- The peer goes on sending. -/
theorem ReadInv.extend (h : ReadInv messages stream s) (later : List (List UInt8)) :
    ReadInv (messages ++ later) stream s := by
  obtain ⟨rest, hmessages, hstream, hexpects⟩ := h
  refine ⟨rest ++ later, by rw [hmessages, List.append_assoc], hstream, ?_⟩
  cases hr : s.reader with
  | header => trivial
  | ended => rwa [hr] at hexpects
  | parse bytes => rwa [hr] at hexpects
  | data length =>
      rw [hr] at hexpects
      obtain ⟨message, rest', rfl, hlength⟩ := hexpects
      exact ⟨message, rest' ++ later, rfl, hlength⟩
  | callReadData bytes =>
      rw [hr] at hexpects
      obtain ⟨message, rest', rfl, hbytes, hlength⟩ := hexpects
      exact ⟨message, rest' ++ later, rfl, hbytes, hlength⟩

theorem Duplex.extend (h : Duplex asked messages stream s) (later : List (List UInt8)) :
    Duplex asked (messages ++ later) stream s :=
  ⟨h.sends, h.received.trans (List.prefix_append _ _), fun hreader => (h.reads hreader).extend _⟩

/-- What is written is the beginning of the frames. -/
theorem SendInv.output_prefix (h : SendInv asked s) : s.output <+: wire asked := by
  obtain ⟨done, hasked, houtput⟩ := h.sending
  rw [houtput, hasked, wire_append, List.prefix_append_right_inj]
  cases s.writer with
  | idle => exact List.nil_prefix
  | popping => exact List.nil_prefix
  | popped message => exact List.nil_prefix
  | header bytes message => exact List.nil_prefix
  | payload message =>
      show TCPHeader.header message.length TCPHeader.zeros <+: wire (message :: s.queueSend)
      rw [wire_cons]
      exact List.prefix_append _ _

/-- The two invariants do not use each other's part of the session, but for the header. -/
theorem SendInv.of_same (h : SendInv asked s) (hmagic : s'.header.data.take 4 = TCPHeader.magic)
    (hzeros : s'.header.data.drop 8 = TCPHeader.zeros) (hwriter : s'.writer = s.writer)
    (houtput : s'.output = s.output) (hqueue : s'.queueSend = s.queueSend) : SendInv asked s' := by
  refine ⟨hmagic, hzeros, ?_, ?_⟩
  · rw [hwriter]
    exact h.header
  · rw [hwriter, houtput, hqueue]
    exact h.sending

/-! ### One step -/

/-- A step of the write thread, or a call of `Send`. -/
theorem step_duplex_of_sends (hs : Duplex asked messages stream s)
    (hshort : ∀ message ∈ messages, message.length < 2 ^ 31) (ha : Undisturbed s a)
    (hsends : Sends a) (h : step s a = some s') :
    Duplex (asked ++ sent [a]) messages stream s' := by
  have hsent := step_sendInv hs.sends hsends h
  cases step_cases h with
  | send | look | pop | popFails | writeHeader | writePayload =>
      exact ⟨hsent, hs.received, fun hreader =>
        (hs.reads hreader).of_same rfl rfl rfl fun _ _ => rfl⟩
  | @getHeaderData message hwriter =>
      refine ⟨hsent, hs.received, fun hreader => ?_⟩
      have hreads := hs.reads hreader
      refine hreads.of_same rfl rfl rfl fun bytes hcall => ?_
      obtain ⟨rest, hmessages, -, hexpects⟩ := hreads
      rw [hcall] at hexpects
      obtain ⟨next, rest', rfl, rfl, hsize⟩ := hexpects
      -- the new length is the one that was there
      have hlength := hshort next (by rw [hmessages]; simp)
      have hsame := ha _ _ hcall hwriter
      have hmod : next.length % 2 ^ 32 = next.length := Nat.mod_eq_of_lt (by omega)
      rw [TCPHeader.lengthField_header, hmod] at hsame
      rw [hsize, ← hsame]
      exact UInt32.toNat_ofNat'
  | _ => exact hsends.elim

/-- A step of the read handlers, or bytes that come in. -/
theorem step_duplex_of_reads (hs : Duplex asked messages stream s)
    (hshort : ∀ message ∈ messages, message.length < 2 ^ 31) (hbegins : stream <+: wire messages)
    (hreads : Reads a) (h : step s a = some s') :
    Duplex asked messages (stream ++ arrived [a]) s' := by
  by_cases hended : s.reader = .ended
  · -- only bytes can come in
    cases step_cases h with
    | arrive => exact ⟨hs.sends.of_same hs.sends.magic hs.sends.zeros rfl rfl rfl, hs.received,
        fun hreader => absurd hended hreader⟩
    | readHeader hreader => exact absurd (hended.symm.trans hreader) (by simp)
    | parseAccepts hreader => exact absurd (hended.symm.trans hreader) (by simp)
    | parseRejects hreader => exact absurd (hended.symm.trans hreader) (by simp)
    | asyncReadData hreader => exact absurd (hended.symm.trans hreader) (by simp)
    | readData hreader => exact absurd (hended.symm.trans hreader) (by simp)
    | _ => exact hreads.elim
  · have hread := hs.reads hended
    have hread' := step_readInv hshort hread hbegins hreads h
    refine ⟨?_, hread'.received, fun _ => hread'⟩
    cases step_cases h with
    | @parseAccepts bytes header hreader hparse =>
        -- the header of the peer is one of its frames, with zeros in its reserved bytes
        obtain ⟨rest, hmessages, hstream, hexpects⟩ := hread
        rw [hmessages] at hbegins
        obtain ⟨later, hlater⟩ := rest_of_prefix hstream hbegins
        rw [hreader] at hexpects hlater
        rw [List.append_assoc] at hlater
        obtain ⟨message, rest', rfl, rfl⟩ := header_of_rest hexpects hlater
        obtain ⟨hmagic, rfl⟩ := parse_eq_true hexpects hparse
        exact hs.sends.of_same hmagic (TCPHeader.drop_header _ _) rfl rfl rfl
    | @parseRejects bytes header hreader hparse =>
        obtain rfl := parse_eq_false hparse
        exact hs.sends.of_same hs.sends.magic hs.sends.zeros rfl rfl rfl
    | arrive | readHeader | asyncReadData | readData =>
        exact hs.sends.of_same hs.sends.magic hs.sends.zeros rfl rfl rfl
    | _ => exact hreads.elim

/-- **Both directions, step by step.**  In a session that is not disturbed, whose peer writes
frames, a step of either direction, a `Stop` and a failing read keep what is sent and what is
received. -/
theorem step_duplex (hs : Duplex asked messages stream s)
    (hshort : ∀ message ∈ messages, message.length < 2 ^ 31) (hbegins : stream <+: wire messages)
    (ha : Undisturbed s a) (h : step s a = some s') :
    Duplex (asked ++ sent [a]) messages (stream ++ arrived [a]) s' := by
  have hnil {α : Type} (l : List α) : l ++ [] = l := List.append_nil l
  cases a with
  | send message => exact (hnil stream).symm ▸ step_duplex_of_sends hs hshort ha trivial h
  | look => exact (hnil stream).symm ▸ step_duplex_of_sends hs hshort ha trivial h
  | pop => exact (hnil stream).symm ▸ step_duplex_of_sends hs hshort ha trivial h
  | popFails => exact (hnil stream).symm ▸ step_duplex_of_sends hs hshort ha trivial h
  | getHeaderData => exact (hnil stream).symm ▸ step_duplex_of_sends hs hshort ha trivial h
  | writeHeader => exact (hnil stream).symm ▸ step_duplex_of_sends hs hshort ha trivial h
  | writePayload => exact (hnil stream).symm ▸ step_duplex_of_sends hs hshort ha trivial h
  | arrive bytes => exact (hnil asked).symm ▸ step_duplex_of_reads hs hshort hbegins trivial h
  | readHeader => exact (hnil asked).symm ▸ step_duplex_of_reads hs hshort hbegins trivial h
  | parse => exact (hnil asked).symm ▸ step_duplex_of_reads hs hshort hbegins trivial h
  | asyncReadData => exact (hnil asked).symm ▸ step_duplex_of_reads hs hshort hbegins trivial h
  | readData => exact (hnil asked).symm ▸ step_duplex_of_reads hs hshort hbegins trivial h
  | writeError written => exact ha.elim
  | stop =>
      obtain rfl := Option.some.inj h
      rw [show sent [.stop] = [] from rfl, show arrived [.stop] = [] from rfl, hnil, hnil]
      exact ⟨hs.sends.of_same hs.sends.magic hs.sends.zeros rfl rfl rfl, hs.received,
        fun hreader => (hs.reads hreader).of_same rfl rfl rfl fun _ _ => rfl⟩
  | readError =>
      rw [show sent [.readError] = [] from rfl, show arrived [.readError] = [] from rfl, hnil, hnil]
      cases step_cases h with
      | readError =>
          exact ⟨hs.sends.of_same hs.sends.magic hs.sends.zeros rfl rfl rfl, hs.received,
            fun hreader => absurd rfl hreader⟩

/-! ### When nothing is under way -/

/-- **Read handlers that wait when all frames are there have received all messages.** -/
theorem ReadInv.received_eq (h : ReadInv messages (wire messages) s) (hwaiting : Waiting s) :
    s.received = messages := by
  obtain ⟨rest, rfl, hstream, hexpects⟩ := h
  rw [wire_append] at hstream
  have hrest := List.append_cancel_left hstream
  cases rest with
  | nil => exact (List.append_nil _).symm
  | cons message rest =>
      -- there is a frame to read: the handlers could go on
      exfalso
      rw [wire_cons] at hrest
      have hlength := congrArg List.length hrest
      simp only [List.length_append, TCPHeader.length_header] at hlength
      obtain ⟨hheader, hparse, hcall, hdata⟩ := hwaiting
      have hzeros : TCPHeader.zeros.length = 24 := rfl
      have hsize : TCPHeader.headerSize = 32 := rfl
      cases hreader : s.reader with
      | header =>
          rw [hreader] at hlength
          have hmany : ¬ s.input.length < TCPHeader.headerSize := by
            simp only [Reader.consumed, List.length_nil] at hlength
            omega
          simp [step, hreader, if_neg hmany] at hheader
      | parse bytes =>
          simp only [step, hreader] at hparse
          split at hparse <;> exact absurd hparse (by simp)
      | callReadData bytes => simp [step, hreader] at hcall
      | data length =>
          rw [hreader] at hlength hexpects
          obtain ⟨message', rest', heq, rfl⟩ := hexpects
          obtain ⟨rfl, rfl⟩ := List.cons.inj heq
          have hmany : ¬ s.input.length < message.length := by
            simp only [Reader.consumed, TCPHeader.length_header] at hlength
            omega
          simp [step, hreader, if_neg hmany] at hdata
      | ended =>
          rw [hreader] at hexpects
          exact hexpects

end TCPSession
end Net
end BreUtils
