/-
# The length of a payload, from session to session

`data.size()` is a `uint64_t` for `GetHeaderData`, a `uint32_t` in the object and in the four
bytes, and an `int` for `asyncReadData`.  No step of these looks whether the length fits.
Whatever else the two sessions do, the header of a payload of `n` bytes says `n` modulo
`2 ^ 32` (`headerInv_run`), and `asyncReadData` is called with that number as a signed one,
unless a `GetHeaderData` of the reading session gets in between.  So the length comes
through exactly if it is less than `2 ^ 31` (`payload_length_iff`).
-/

import BreUtils.Net.TcpSession

namespace BreUtils
namespace Net
namespace TCPSession

open Lib

/-- **The length comes through:** the `int` that `asyncReadData` is called with is `n`, and so is
the size of the buffer. -/
def PassesLength (n : ℕ) (s : TCPSession) : Prop :=
  ∃ (t : TCPSession) (bytes : List UInt8) (size : UInt32), step s .asyncReadData = some t ∧
    t.calls = s.calls ++ [(bytes, size)] ∧ size.toInt32.toInt = (n : ℤ) ∧ t.reader = .data n

/-- Of the steps from `s` on, the last `GetHeaderData` is for a message with another length than
`n`, modulo `2 ^ 32`. -/
def Overwritten (n : ℕ) (s : TCPSession) (as : List Action) : Prop :=
  ∃ before after t message, as = before ++ .getHeaderData :: after ∧
    (∀ a ∈ after, a ≠ .getHeaderData) ∧ Transition.run step s before = some t ∧
    t.writer = .popped message ∧ message.length % 2 ^ 32 ≠ n % 2 ^ 32

/-! ### The sending session -/

/-- 32 bytes that start with `BREZ`, with the length of the message. -/
def IsHeader (bytes message : List UInt8) : Prop :=
  bytes.length = TCPHeader.headerSize ∧ bytes.take 4 = TCPHeader.magic ∧
    TCPHeader.lengthField bytes = message.length % 2 ^ 32

/-- What holds of every session: the object has 32 bytes that start with `BREZ`, and what is written
in front of a message is a header for it. -/
structure HeaderInv (s : TCPSession) : Prop where
  magic : s.header.data.take 4 = TCPHeader.magic
  length : s.header.data.length = TCPHeader.headerSize
  bytes : ∀ bytes, s.reader = .parse bytes → bytes.length = TCPHeader.headerSize
  header : ∀ bytes message, s.writer = .header bytes message → IsHeader bytes message
  headers : ∀ header ∈ s.headers, IsHeader header.1 header.2

variable {s s' t u v : TCPSession} {a : Action} {as bs between : List Action}
  {bytes message : List UInt8}
  {n : ℕ}

theorem headerInv_init : HeaderInv init where
  magic := rfl
  length := rfl
  bytes := by rintro _ ⟨⟩
  header := by rintro _ _ ⟨⟩
  headers := by simp [init]

theorem headerInv_step (hs : HeaderInv s) (h : step s a = some s') : HeaderInv s' := by
  cases step_cases h with
  | send => exact ⟨hs.magic, hs.length, hs.bytes, hs.header, hs.headers⟩
  | stop => exact ⟨hs.magic, hs.length, hs.bytes, hs.header, hs.headers⟩
  | look | pop | popFails => exact ⟨hs.magic, hs.length, hs.bytes, by rintro _ _ ⟨⟩, hs.headers⟩
  | @getHeaderData message hwriter =>
      have hrest : (s.header.data.drop 8).length + 8 = TCPHeader.headerSize := by
        rw [List.length_drop, hs.length]
        rfl
      have hget := TCPHeader.getHeaderData_eq hs.magic message.length
      rw [hget]
      refine ⟨TCPHeader.take_header _ _, (TCPHeader.length_header _ _).trans hrest, hs.bytes,
        fun bytes message' hheader => ?_, hs.headers⟩
      obtain ⟨rfl, rfl⟩ := Writer.header.inj hheader
      exact ⟨(TCPHeader.length_header _ _).trans hrest, TCPHeader.take_header _ _,
        TCPHeader.lengthField_header _ _⟩
  | @writeHeader bytes message hwriter =>
      refine ⟨hs.magic, hs.length, hs.bytes, by rintro _ _ ⟨⟩, fun header hheader => ?_⟩
      rcases List.mem_append.1 hheader with hheader | hheader
      · exact hs.headers header hheader
      · obtain rfl := List.mem_singleton.1 hheader
        exact hs.header bytes message hwriter
  | writePayload => exact ⟨hs.magic, hs.length, hs.bytes, by rintro _ _ ⟨⟩, hs.headers⟩
  | writeError => exact ⟨hs.magic, hs.length, hs.bytes, by rintro _ _ ⟨⟩, hs.headers⟩
  | arrive => exact ⟨hs.magic, hs.length, hs.bytes, hs.header, hs.headers⟩
  | readHeader hreader hmany =>
      refine ⟨hs.magic, hs.length, fun bytes hreader => ?_, hs.header, hs.headers⟩
      obtain rfl := Reader.parse.inj hreader
      rw [List.length_take]
      omega
  | @parseAccepts bytes header hreader hparse =>
      obtain ⟨hmagic, rfl⟩ := parse_eq_true (hs.bytes bytes hreader) hparse
      exact ⟨hmagic, hs.bytes bytes hreader, by rintro _ ⟨⟩, hs.header, hs.headers⟩
  | parseRejects hreader hparse =>
      obtain rfl := parse_eq_false hparse
      exact ⟨hs.magic, hs.length, by rintro _ ⟨⟩, hs.header, hs.headers⟩
  | asyncReadData =>
      refine ⟨hs.magic, hs.length, fun bytes hreader => ?_, hs.header, hs.headers⟩
      dsimp only at hreader
      split_ifs at hreader
  | readData => exact ⟨hs.magic, hs.length, by rintro _ ⟨⟩, hs.header, hs.headers⟩
  | readError => exact ⟨hs.magic, hs.length, by rintro _ ⟨⟩, hs.header, hs.headers⟩

/-- **Whatever a session does, a header that it writes says the length of its message modulo
`2 ^ 32`.** -/
theorem headerInv_run (h : Transition.run step init as = some s) : HeaderInv s :=
  Transition.run_invariant (fun _ _ _ hs h => headerInv_step hs h) headerInv_init h

/-! ### The reading session -/

/-- Between `Parse` and `asyncReadData` the readers wait, and only `GetHeaderData` touches the
object. -/
theorem step_callReadData (hreader : s.reader = .callReadData bytes) (ha : a ≠ .asyncReadData)
    (h : step s a = some s') : s'.reader = .callReadData bytes ∧
      (a ≠ .getHeaderData → s'.header = s.header) := by
  have hclash {p : Prop} {r : Reader} (hr : s.reader = r) (hne : r ≠ .callReadData bytes) : p :=
    absurd (hr.symm.trans hreader) hne
  cases step_cases h with
  | send | stop | look | pop | popFails | writeHeader | writePayload | writeError | arrive =>
      exact ⟨hreader, fun _ => rfl⟩
  | getHeaderData => exact ⟨hreader, fun hne => absurd rfl hne⟩
  | readHeader hr => exact hclash hr (by simp)
  | parseAccepts hr => exact hclash hr (by simp)
  | parseRejects hr => exact hclash hr (by simp)
  | asyncReadData => exact absurd rfl ha
  | readData hr => exact hclash hr (by simp)
  | readError hr =>
      rcases hr with hr | ⟨length, hr⟩
      · exact hclash hr (by simp)
      · exact hclash hr (by simp)

theorem fileSize_getHeaderData (h : step s .getHeaderData = some s') : ∃ message,
    s.writer = .popped message ∧ s'.header.fileSize.toNat = message.length % 2 ^ 32 := by
  cases step_cases h with
  | @getHeaderData message hwriter => exact ⟨message, hwriter, UInt32.toNat_ofNat'⟩

/-- The step that comes last. -/
theorem overwritten_concat (h : Transition.run step s as = some u) :
    Overwritten n s (as ++ [a]) ↔
      (a = .getHeaderData ∧
        ∃ message, u.writer = .popped message ∧ message.length % 2 ^ 32 ≠ n % 2 ^ 32) ∨
      (a ≠ .getHeaderData ∧ Overwritten n s as) := by
  constructor
  · rintro ⟨before, after, t, message, heq, hafter, ht, hwriter, hne⟩
    rcases List.eq_nil_or_concat' after with rfl | ⟨after, b, rfl⟩
    · obtain ⟨rfl, hlast⟩ := List.append_inj' heq rfl
      obtain rfl := Option.some.inj (h.symm.trans ht)
      exact Or.inl ⟨List.singleton_inj.1 hlast, message, hwriter, hne⟩
    · rw [← List.cons_append, ← List.append_assoc] at heq
      obtain ⟨rfl, hlast⟩ := List.append_inj' heq rfl
      obtain rfl := List.singleton_inj.1 hlast
      exact Or.inr ⟨hafter a List.mem_concat_self, before, after, t, message, rfl,
        fun c hc => hafter c (List.mem_append_left _ hc), ht, hwriter, hne⟩
  · rintro (⟨rfl, message, hwriter, hne⟩ | ⟨ha, before, after, t, message, rfl, hafter, hover⟩)
    · exact ⟨as, [], u, message, rfl, fun b hb => absurd hb List.not_mem_nil, h, hwriter, hne⟩
    · refine ⟨before, after ++ [a], t, message, by simp, fun b hb => ?_, hover⟩
      rcases List.mem_append.1 hb with hb | hb
      · exact hafter b hb
      · exact List.mem_singleton.1 hb ▸ ha

/-- **What stands in `FileSize` when `asyncReadData` is called:** what `Parse` left, unless it was
overwritten. -/
theorem fileSize_iff (hreader : s.reader = .callReadData bytes)
    (hsize : s.header.fileSize.toNat = n % 2 ^ 32) (h : Transition.run step s as = some v)
    (has : ∀ a ∈ as, a ≠ .asyncReadData) :
    v.reader = .callReadData bytes ∧
      (v.header.fileSize.toNat = n % 2 ^ 32 ↔ ¬ Overwritten n s as) := by
  induction as using List.reverseRecOn generalizing v with
  | nil =>
      obtain rfl := Option.some.inj h
      refine ⟨hreader, iff_of_true hsize ?_⟩
      rintro ⟨before, after, -, -, hnil, -⟩
      simp at hnil
  | append_singleton as a ih =>
      obtain ⟨u, hu, hstep⟩ := Transition.run_concat_eq_some.1 h
      obtain ⟨hreader', hsize'⟩ := ih hu fun b hb => has b (List.mem_append_left _ hb)
      obtain ⟨hreader'', hkept⟩ := step_callReadData hreader' (has a List.mem_concat_self) hstep
      refine ⟨hreader'', ?_⟩
      rw [overwritten_concat hu]
      by_cases ha : a = .getHeaderData
      · subst ha
        obtain ⟨message, hwriter, hmessage⟩ := fileSize_getHeaderData hstep
        rw [hmessage]
        constructor
        · rintro heq (⟨-, message', hwriter', hne⟩ | ⟨hne, -⟩)
          · obtain rfl := Writer.popped.inj (hwriter.symm.trans hwriter')
            exact hne heq
          · exact hne rfl
        · intro hover
          by_contra hne
          exact hover (Or.inl ⟨rfl, message, hwriter, hne⟩)
      · rw [hkept ha, hsize', or_iff_right (fun h => ha h.1), and_iff_right ha]

/-- The call, with what stands in `FileSize`. -/
theorem passesLength_iff (hreader : s.reader = .callReadData bytes) : PassesLength n s ↔
    n < 2 ^ 31 ∧ s.header.fileSize.toNat = n % 2 ^ 32 := by
  have hint := TCPHeader.toInt_toInt32 s.header.fileSize
  have hrange := s.header.fileSize.toNat_lt
  have hstep : step s .asyncReadData = some { s with
      calls := s.calls ++ [(bytes, s.header.fileSize)]
      reader :=
        if s.header.fileSize.toNat < 2 ^ 31 then .data s.header.fileSize.toNat else .ended } := by
    simp only [step, hreader]
  constructor
  · rintro ⟨t, bytes', size, ht, hcalls, hsize, hdata⟩
    obtain rfl := Option.some.inj (hstep.symm.trans ht)
    obtain ⟨-, rfl⟩ := Prod.mk.inj (List.singleton_inj.1 (List.append_cancel_left hcalls))
    rw [hint] at hsize
    split_ifs at hsize with hlt <;> omega
  · rintro ⟨hn, hsize⟩
    have hlt : s.header.fileSize.toNat < 2 ^ 31 := by omega
    refine ⟨_, bytes, s.header.fileSize, hstep, rfl, ?_, ?_⟩
    · rw [hint, if_pos hlt]
      omega
    · dsimp only
      rw [if_pos hlt, hsize, Nat.mod_eq_of_lt (by omega)]

/-- What `Parse` leaves, of a header that a session wrote. -/
theorem parse_isHeader (hheader : IsHeader bytes message) (hreader : s.reader = .parse bytes)
    (h : step s .parse = some t) : t.reader = .callReadData bytes ∧
      t.header.fileSize.toNat = message.length % 2 ^ 32 := by
  obtain ⟨hlength, hmagic, hfield⟩ := hheader
  simp only [step, hreader, TCPHeader.parse_accepts hlength hmagic] at h
  obtain rfl := Option.some.inj h
  exact ⟨rfl, (TCPHeader.toNat_fileSize bytes).trans hfield⟩

/-- **When the length of a payload comes through.**  A session has written a header for a message,
in any run; another session, in any state, has read these 32 bytes, parses them, and goes on up to
`asyncReadData`.  The length that is passed then is the length of the message exactly if that is
less than `2 ^ 31`, and the reading session has not made a header for a message of another length in
between. -/
theorem payload_length_iff {sender reader : TCPSession}
    (hsender : Transition.run step init as = some sender)
    (hframe : (bytes, message) ∈ sender.headers) (hread : reader.reader = .parse bytes)
    (hparse : step reader .parse = some t) (hrun : Transition.run step t between = some v)
    (hbetween : ∀ a ∈ between, a ≠ .asyncReadData) :
    PassesLength message.length v ↔
      message.length < 2 ^ 31 ∧ ¬ Overwritten message.length t between := by
  have hheader := (headerInv_run hsender).headers _ hframe
  obtain ⟨hcall, hsize⟩ := parse_isHeader hheader hread hparse
  obtain ⟨hcall', hkept⟩ := fileSize_iff hcall hsize hrun hbetween
  rw [passesLength_iff hcall', hkept]

/-- The header of a message goes out, comes in at another session, and is parsed. -/
theorem exists_exchange (message : List UInt8) : ∃ sender bytes reader t,
    Transition.run step init [.send message, .look, .pop, .getHeaderData, .writeHeader] =
        some sender ∧
      (bytes, message) ∈ sender.headers ∧
      Transition.run step init [.arrive bytes, .readHeader] = some reader ∧
      reader.reader = .parse bytes ∧ step reader .parse = some t := by
  obtain ⟨sender, hsender, hframe⟩ : ∃ sender,
      Transition.run step init [.send message, .look, .pop, .getHeaderData, .writeHeader] =
          some sender ∧
      ((TCPHeader.init.getHeaderData message.length).1, message) ∈ sender.headers :=
    ⟨_, rfl, List.mem_singleton_self _⟩
  obtain ⟨hlength, hmagic, -⟩ := (headerInv_run hsender).headers _ hframe
  dsimp only at hlength hmagic
  generalize (TCPHeader.init.getHeaderData message.length).1 = bytes at hframe hlength hmagic
  obtain ⟨reader, hreader, hread⟩ : ∃ reader,
      Transition.run step init [.arrive bytes, .readHeader] = some reader ∧
      reader.reader = .parse bytes := by
    have hmany : ¬ bytes.length < TCPHeader.headerSize := by omega
    have hread : step { init with input := bytes } .readHeader = some { init with
        input := bytes.drop TCPHeader.headerSize
        reader := .parse (bytes.take TCPHeader.headerSize) } := if_neg hmany
    refine ⟨_, (congrArg (Option.bind · some) hread).trans rfl, ?_⟩
    exact congrArg Reader.parse (List.take_of_length_le hlength.le)
  have hparse : step reader .parse = some { reader with
      header := ⟨bytes, UInt32.ofNat (TCPHeader.lengthField bytes)⟩
      reader := .callReadData bytes
      accepted := some bytes } := by
    simp only [step, hread, TCPHeader.parse_accepts hlength hmagic]
  exact ⟨sender, bytes, reader, _, hsender, hframe, hreader, hread, hparse⟩

/-- A message of one byte. -/
theorem payload_length_one : ∃ sender bytes reader t,
    Transition.run step init [.send [7], .look, .pop, .getHeaderData, .writeHeader] = some sender ∧
      (bytes, [7]) ∈ sender.headers ∧ reader.reader = .parse bytes ∧
      step reader .parse = some t ∧ PassesLength 1 t := by
  obtain ⟨sender, bytes, reader, t, hsender, hframe, -, hread, hparse⟩ := exists_exchange [7]
  refine ⟨sender, bytes, reader, t, hsender, hframe, hread, hparse, ?_⟩
  have hrun : Transition.run step t [] = some t := rfl
  refine (payload_length_iff hsender hframe hread hparse hrun (by simp)).2 ⟨?_, ?_⟩
  · decide
  · rintro ⟨before, after, -, -, hnil, -⟩
    simp at hnil

/-- Two gibibytes are announced as a negative length. -/
theorem payload_length_negative : ∃ sender bytes reader t,
    Transition.run step init [.send (List.replicate (2 ^ 31) 0), .look, .pop, .getHeaderData,
      .writeHeader] = some sender ∧
      (bytes, List.replicate (2 ^ 31) 0) ∈ sender.headers ∧
      Transition.run step init [.arrive bytes, .readHeader] = some reader ∧
      step reader .parse = some t ∧ t.header.fileSize.toInt32.toInt = -2 ^ 31 ∧
      ¬ PassesLength (2 ^ 31) t := by
  obtain ⟨sender, bytes, reader, t, hsender, hframe, hreader, hread, hparse⟩ :=
    exists_exchange (List.replicate (2 ^ 31) 0)
  have hheader := (headerInv_run hsender).headers _ hframe
  obtain ⟨hcall, hsize⟩ := parse_isHeader hheader hread hparse
  rw [List.length_replicate] at hsize
  refine ⟨sender, bytes, reader, t, hsender, hframe, hreader, hparse, ?_, ?_⟩
  · rw [TCPHeader.toInt_toInt32, hsize]
    decide
  · rw [passesLength_iff hcall]
    exact fun h => absurd h.1 (by decide)

end TCPSession
end Net
end BreUtils
