/-
# The read handlers of a session

Each read handler of `TCPSession` starts the next read, or ends the chain of reads.  Where a
read fails it calls `Stop()` as well, so that the write thread ends too.  It does not where
`Parse` rejects a header, and it gets to neither where `asyncReadData` throws: `FileSize`
becomes an `int`, and a vector of a negative size cannot be made.  Then no read is pending,
and the session stays open.

So between handlers a read is pending or the session is closed exactly as long as these two
things happen to closed sessions only (`awake_iff`).
-/

import BreUtils.Net.TcpSession

namespace BreUtils
namespace Net

open Lib

namespace TCPSession

variable {s t : TCPSession} {a : Action}

/-- `asyncReadHeader` or `asyncReadData` is waiting. -/
def Pending (s : TCPSession) : Prop := s.reader = .header ∨ ∃ n, s.reader = .data n

/-- A read handler is running. -/
def InHandler (s : TCPSession) : Prop :=
  (∃ bytes, s.reader = .parse bytes) ∨ ∃ bytes, s.reader = .callReadData bytes

/-- Between handlers a read is pending, or the session is closed. -/
def Awake (s : TCPSession) : Prop := s.InHandler ∨ s.Pending ∨ s.isClosed = true

/-- A handler that does not end the chain of reads of an open session: the header is a `BREZ`
header, and the length that it gives is one of an `int`. -/
def KeepsReading (s : TCPSession) : Action → Prop
  | .parse => ∀ bytes, s.reader = .parse bytes → bytes.take 4 = TCPHeader.magic ∨ s.isClosed = true
  | .asyncReadData => ∀ bytes, s.reader = .callReadData bytes →
      s.header.fileSize.toNat < 2 ^ 31 ∨ s.isClosed = true
  | _ => True

/-- A header that is being parsed is a whole one. -/
def WholeHeader (s : TCPSession) : Prop :=
  ∀ bytes, s.reader = .parse bytes → bytes.length = TCPHeader.headerSize

/-- **What a step does to the chain of reads.** -/
theorem step_reader (h : step s a = some t) :
    (t.reader = s.reader ∧ (t.isClosed = s.isClosed ∨ (a = .stop ∧ t.isClosed = true)) ∧
        t.received = s.received) ∨
      (a = .readHeader ∧ s.reader = .header ∧ t.isClosed = s.isClosed ∧
        t.received = s.received ∧
        ∃ bytes, bytes.length = TCPHeader.headerSize ∧ t.reader = .parse bytes) ∨
      (a = .parse ∧ t.isClosed = s.isClosed ∧ t.received = s.received ∧
        ∃ bytes, s.reader = .parse bytes ∧
          t.reader = if (s.header.parse bytes).1 then .callReadData bytes else .ended) ∨
      (a = .asyncReadData ∧ t.isClosed = s.isClosed ∧ t.received = s.received ∧
        ∃ bytes, s.reader = .callReadData bytes ∧ t.reader =
          if s.header.fileSize.toNat < 2 ^ 31 then .data s.header.fileSize.toNat else .ended) ∨
      (a = .readData ∧ t.isClosed = s.isClosed ∧ t.reader = .header ∧
        ∃ n, s.reader = .data n) ∨
      (a = .readError ∧ s.Pending ∧ t.reader = .ended ∧ t.isClosed = true ∧
        t.received = s.received) := by
  cases step_cases h with
  | stop => exact .inl ⟨rfl, .inr ⟨rfl, rfl⟩, rfl⟩
  | readHeader hreader hmany =>
      exact .inr (.inl ⟨rfl, hreader, rfl, rfl, _, List.length_take_of_le hmany, rfl⟩)
  | @parseAccepts bytes header hreader hparse =>
      exact .inr (.inr (.inl ⟨rfl, rfl, rfl, bytes, hreader, by rw [hparse]; rfl⟩))
  | @parseRejects bytes header hreader hparse =>
      exact .inr (.inr (.inl ⟨rfl, rfl, rfl, bytes, hreader, by rw [hparse]; rfl⟩))
  | @asyncReadData bytes hreader =>
      exact .inr (.inr (.inr (.inl ⟨rfl, rfl, rfl, bytes, hreader, rfl⟩)))
  | @readData length hreader =>
      exact .inr (.inr (.inr (.inr (.inl ⟨rfl, rfl, rfl, length, hreader⟩))))
  | readError hpending =>
      exact .inr (.inr (.inr (.inr (.inr ⟨rfl, hpending, rfl, rfl, rfl⟩))))
  -- the writing side, and what comes in
  | _ => exact .inl ⟨rfl, .inl rfl, rfl⟩

theorem step_wholeHeader (hs : s.WholeHeader) (h : step s a = some t) : t.WholeHeader := by
  intro bytes hreader
  obtain ⟨hsame, -, -⟩ | ⟨-, -, -, -, bytes', hlength, hparse⟩ |
    ⟨-, -, -, bytes', -, hnext⟩ | ⟨-, -, -, bytes', -, hnext⟩ | ⟨-, -, hheader, -⟩ |
    ⟨-, -, hended, -, -⟩ := step_reader h
  · exact hs bytes (hsame ▸ hreader)
  · rw [hparse] at hreader
    exact Reader.parse.inj hreader ▸ hlength
  · rw [hnext] at hreader
    split_ifs at hreader
  · rw [hnext] at hreader
    split_ifs at hreader
  · rw [hheader] at hreader
    cases hreader
  · rw [hended] at hreader
    cases hreader

/-- Whether `Parse` accepts a whole header depends on its first four bytes. -/
theorem parse_accepted_iff (o : TCPHeader) {bytes : List UInt8}
    (hbytes : bytes.length = TCPHeader.headerSize) :
    (o.parse bytes).1 = true ↔ bytes.take 4 = TCPHeader.magic := by
  by_cases hmagic : bytes.take 4 = TCPHeader.magic
  · simp [TCPHeader.parse_accepts hbytes hmagic, hmagic]
  · simp [TCPHeader.parse_rejects hmagic, hmagic]

/-- Behind the end of the chain, only `_is_closed` keeps the session from being a zombie. -/
theorem awake_of_ended (h : s.reader = .ended) : s.Awake ↔ s.isClosed = true := by
  simp [Awake, InHandler, Pending, h]

/-- **A step leaves the session awake exactly if it keeps reading.** -/
theorem step_awake_iff (hwhole : s.WholeHeader) (hs : s.Awake) (a : Action) :
    (∀ t, step s a = some t → t.Awake) ↔ s.KeepsReading a := by
  constructor
  · intro h
    cases a with
    | parse =>
        intro bytes hreader
        by_cases hmagic : bytes.take 4 = TCPHeader.magic
        · exact .inl hmagic
        · have hstep : step s .parse = some { s with reader := .ended } := by
            simp only [step, hreader, TCPHeader.parse_rejects hmagic]
          have hawake := h _ hstep
          rw [awake_of_ended rfl] at hawake
          exact .inr hawake
    | asyncReadData =>
        intro bytes hreader
        by_cases hsize : s.header.fileSize.toNat < 2 ^ 31
        · exact .inl hsize
        · have hstep : step s .asyncReadData = some { s with
              calls := s.calls ++ [(bytes, s.header.fileSize)]
              reader := .ended } := by
            simp only [step, hreader, if_neg hsize]
          have hawake := h _ hstep
          rw [awake_of_ended rfl] at hawake
          exact .inr hawake
    | _ => trivial
  · intro h t ht
    obtain ⟨hsame, hclosed, -⟩ | ⟨-, -, -, -, bytes, -, hparse⟩ |
      ⟨rfl, hclosed, -, bytes, hreader, hnext⟩ | ⟨rfl, hclosed, -, bytes, hreader, hnext⟩ |
      ⟨-, -, hheader, -⟩ | ⟨-, -, -, hclosed, -⟩ := step_reader ht
    · rw [Awake, InHandler, Pending, hsame]
      refine hs.imp_right (Or.imp_right fun hopen => ?_)
      exact hclosed.elim (fun h => h.trans hopen) And.right
    · exact .inl (.inl ⟨bytes, hparse⟩)
    · rcases h bytes hreader with hmagic | hopen
      · rw [if_pos ((parse_accepted_iff _ (hwhole bytes hreader)).2 hmagic)] at hnext
        exact .inl (.inr ⟨bytes, hnext⟩)
      · exact .inr (.inr (hclosed.trans hopen))
    · rcases h bytes hreader with hsize | hopen
      · rw [if_pos hsize] at hnext
        exact .inr (.inl (.inr ⟨_, hnext⟩))
      · exact .inr (.inr (hclosed.trans hopen))
    · exact .inr (.inl (.inl hheader))
    · exact .inr (.inr hclosed)

/-- **No zombies.**  In every state of a run that is not inside a read handler a read is pending or
the session is closed, if and only if, in every step of the run, an open session parses no header
but those that start with `BREZ`, and starts to read no payload of `2 ^ 31` bytes or more. -/
theorem awake_iff (as : List Action) :
    (∀ done, done <+: as → ∀ s, Transition.run step init done = some s → s.Awake) ↔
      Transition.Meets step KeepsReading init as :=
  Transition.forall_states_iff (fun _ _ _ hs h => step_wholeHeader hs h)
    (fun _ a hwhole hs => step_awake_iff hwhole hs a) (by rintro _ ⟨⟩) (.inr (.inl (.inl rfl))) as

/-- A peer that sends 32 zeros. -/
theorem zombie :
    (∃ s, Transition.run step init [.arrive (List.replicate 32 0), .readHeader, .parse] = some s ∧
      s.reader = .ended ∧ s.isClosed = false) ∧
    ¬ ∀ as s, Transition.run step init as = some s → s.Awake := by
  refine ⟨⟨_, rfl, rfl, rfl⟩, fun h => ?_⟩
  have hawake := h [.arrive (List.replicate 32 0), .readHeader, .parse] _ rfl
  rw [awake_of_ended rfl] at hawake
  cases hawake

end TCPSession

end Net
end BreUtils
