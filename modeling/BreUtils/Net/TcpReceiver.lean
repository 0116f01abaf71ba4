/-
# The receiver of `net/TCPManager.hpp`

`TCPReceiver` reads a header of 32 bytes, hands it to `Parse`, and reads as many bytes
as the header object says.  It does not look at what `Parse` returned.  It looks at the
object instead, whether it starts with `BREZ`; and it always does, because `Parse`
leaves it alone when it rejects the bytes.  So after a frame with a payload, 32 bytes
that are no header make the receiver read and enqueue as many bytes as that frame had.

That is the one way to get a message that is no payload, apart from a payload of
`2 ^ 31` bytes or more, whose length does not fit in the `int` that counts it
(`sound_iff`).
-/

import BreUtils.Lib.Transition
import BreUtils.Net.TcpHeader

namespace BreUtils
namespace Net

open Lib

/-- A connection: what is still to be read from it, and how it ends, by the peer closing it or by
another error. -/
structure Connection where
  bytes : List UInt8
  failed : Bool
  deriving DecidableEq

/-- `TCPReceiver`, with the connections that it will accept. -/
structure TCPReceiver where
  isClosed : Bool
  header : TCPHeader
  socket : Connection
  backlog : List Connection
  /-- The messages that were pushed to `_queue`. -/
  enqueued : List (List UInt8)
  deriving DecidableEq

/-- How `read_data_from_socket` ends. -/
inductive ReadResult where
  | returned (data : List UInt8)
  | threw
  /-- It waits in `accept`. -/
  | waits
  /-- Undefined behaviour. -/
  | undefined
  deriving DecidableEq

namespace TCPReceiver

/-- The constructor accepts the first connection. -/
def init (socket : Connection) (backlog : List Connection) : TCPReceiver where
  isClosed := false
  header := TCPHeader.init
  socket := socket
  backlog := backlog
  enqueued := []

/-- `startConnect()`, and `return {}`. -/
def startConnect (r : TCPReceiver) : ReadResult × TCPReceiver :=
  match r.backlog with
  | [] => (.waits, r)
  | socket :: backlog => (.returned [], { r with socket, backlog })

/-- A read that gets fewer bytes than it asked for.  (Where the header is read, the source calls
`connect()`, which is not a member of the class; the call in the other place is the one meant.) -/
def readError (r : TCPReceiver) : ReadResult × TCPReceiver :=
  if r.socket.failed then (.threw, { r with socket := ⟨[], true⟩ }) else startConnect r

/-- The loop that reads the payload.  `transfer_exactly` reads all of it or fails, so its body runs
once at most; `readsize` and `offset` are of type `int`, and a length that does not fit in one makes
the range of `std::copy` end before it begins. -/
def readPayload (r : TCPReceiver) (length : ℕ) : ReadResult × TCPReceiver :=
  if length = 0 then (.returned [], r)
  else if length ≤ r.socket.bytes.length then
    if length < 2 ^ 31 then
      (.returned (r.socket.bytes.take length),
        { r with socket := { r.socket with bytes := r.socket.bytes.drop length } })
    else (.undefined, r)
  else readError r

/-- `read_data_from_socket`. -/
def readDataFromSocket (r : TCPReceiver) : ReadResult × TCPReceiver :=
  if TCPHeader.headerSize ≤ r.socket.bytes.length then
    -- the result of `Parse` is dropped
    let header := (r.header.parse (r.socket.bytes.take TCPHeader.headerSize)).2
    let r := { r with
      header
      socket := { r.socket with bytes := r.socket.bytes.drop TCPHeader.headerSize } }
    if header.data.take 4 ≠ TCPHeader.magic then (.returned [], r)
    else readPayload r header.fileSize.toNat
  else readError r

inductive Action where
  /-- One turn of `recvThread`. -/
  | turn
  | close

/-- **One step.**  Empty data and exceptions are passed over. -/
def step (r : TCPReceiver) : Action → Option TCPReceiver
  | .turn =>
      if r.isClosed then none
      else
        match readDataFromSocket r with
        | (.returned data, r') =>
            some { r' with
              enqueued := if data = [] then r'.enqueued else r'.enqueued ++ [data] }
        | (.threw, r') => some r'
        | (.waits, _) | (.undefined, _) => none
  | .close => some { r with isClosed := true }

/-! ### What the next turn does -/

/-- The 32 bytes that are read next. -/
def nextHeader (r : TCPReceiver) : List UInt8 := r.socket.bytes.take TCPHeader.headerSize

/-- The next turn is sound: data is enqueued only if it directly follows a header with `BREZ` and
has the length that the header states; and 32 bytes without `BREZ` are passed over, with nothing
else read. -/
def Sound (r : TCPReceiver) : Prop :=
  (readDataFromSocket r).1 ≠ .undefined ∧
    (∀ data, (readDataFromSocket r).1 = .returned data → data ≠ [] →
      ∃ rest, r.socket.bytes = nextHeader r ++ (data ++ rest) ∧
        (nextHeader r).length = TCPHeader.headerSize ∧
        (nextHeader r).take 4 = TCPHeader.magic ∧
        data.length = TCPHeader.lengthField (nextHeader r)) ∧
    (TCPHeader.headerSize ≤ r.socket.bytes.length → (nextHeader r).take 4 ≠ TCPHeader.magic →
      readDataFromSocket r =
        (.returned [], { r with
          socket := { r.socket with bytes := r.socket.bytes.drop TCPHeader.headerSize } }))

/-- If the next 32 bytes are a header, its payload is shorter than `2 ^ 31` bytes or does not come
whole; if they are not, the header that was accepted last, if any, announced no payload. -/
def Plain (r : TCPReceiver) : Prop :=
  TCPHeader.headerSize ≤ r.socket.bytes.length →
    if (nextHeader r).take 4 = TCPHeader.magic then
      TCPHeader.lengthField (nextHeader r) < 2 ^ 31 ∨
        r.socket.bytes.length < TCPHeader.headerSize + TCPHeader.lengthField (nextHeader r)
    else r.header.fileSize = 0

variable {r r' : TCPReceiver}

theorem startConnect_header : (startConnect r).2.header = r.header := by
  unfold startConnect
  split <;> rfl

theorem readError_header : (readError r).2.header = r.header := by
  unfold readError
  split_ifs
  · rfl
  · exact startConnect_header

theorem readPayload_header {length : ℕ} : (readPayload r length).2.header = r.header := by
  unfold readPayload
  split_ifs
  · rfl
  · rfl
  · rfl
  · exact readError_header

/-- Accepting another connection does not look like staying on this one. -/
theorem readError_ne : readError r ≠ (.returned [], r) := by
  unfold readError startConnect
  split_ifs
  · simp
  · split
    · simp
    · rename_i socket backlog hbacklog
      intro h
      have hlength := congrArg (fun result => result.2.backlog.length) h
      simp [hbacklog] at hlength

theorem readError_undefined : (readError r).1 ≠ .undefined := by
  unfold readError startConnect
  split_ifs
  · rintro ⟨⟩
  · split
    · rintro ⟨⟩
    · rintro ⟨⟩

theorem readError_returned {data : List UInt8} (h : (readError r).1 = .returned data) :
    data = [] := by
  unfold readError startConnect at h
  split_ifs at h
  split at h
  · exact absurd h (by simp)
  · exact (ReadResult.returned.inj h).symm

theorem readPayload_undefined {length : ℕ} :
    (readPayload r length).1 = .undefined ↔
      length ≤ r.socket.bytes.length ∧ 2 ^ 31 ≤ length := by
  unfold readPayload
  split_ifs with hzero hthere hfits
  · simp [hzero]
  · exact iff_of_false (by rintro ⟨⟩) fun h => by omega
  · exact iff_of_true rfl ⟨hthere, Nat.not_lt.1 hfits⟩
  · exact iff_of_false readError_undefined fun h => hthere h.1

theorem readPayload_returned {length : ℕ} {data : List UInt8}
    (h : (readPayload r length).1 = .returned data) (hdata : data ≠ []) :
    data = r.socket.bytes.take length ∧ length ≤ r.socket.bytes.length := by
  unfold readPayload at h
  split_ifs at h with hzero hthere hfits
  · exact absurd (ReadResult.returned.inj h).symm hdata
  · exact ⟨(ReadResult.returned.inj h).symm, hthere⟩
  · exact absurd (readError_returned h) hdata

/-- Nothing is read exactly if nothing is announced. -/
theorem readPayload_nothing {length : ℕ} :
    readPayload r length = (.returned [], r) ↔ length = 0 := by
  unfold readPayload
  split_ifs with hzero hthere hfits
  · simp [hzero]
  · refine iff_of_false (fun h => ?_) hzero
    have htake := congrArg List.length (ReadResult.returned.inj (congrArg Prod.fst h))
    rw [List.length_take, List.length_nil] at htake
    omega
  · exact iff_of_false (by simp) hzero
  · exact iff_of_false readError_ne hzero

/-- The receiver with the next header consumed, and the object as `Parse` leaves it. -/
def afterHeader (r : TCPReceiver) (header : TCPHeader) : TCPReceiver :=
  { r with
    header
    socket := { r.socket with bytes := r.socket.bytes.drop TCPHeader.headerSize } }

theorem length_nextHeader (h : TCPHeader.headerSize ≤ r.socket.bytes.length) :
    (nextHeader r).length = TCPHeader.headerSize := by
  unfold nextHeader
  rw [List.length_take]
  omega

theorem read_short (h : ¬ TCPHeader.headerSize ≤ r.socket.bytes.length) :
    readDataFromSocket r = readError r := by
  unfold readDataFromSocket
  rw [if_neg h]

/-- A header is followed by the payload that it announces. -/
theorem read_magic (h : TCPHeader.headerSize ≤ r.socket.bytes.length)
    (hmagic : (nextHeader r).take 4 = TCPHeader.magic) :
    readDataFromSocket r =
      readPayload (afterHeader r
        ⟨nextHeader r, UInt32.ofNat (TCPHeader.lengthField (nextHeader r))⟩)
        (TCPHeader.lengthField (nextHeader r)) := by
  have hparse := TCPHeader.parse_accepts (o := r.header) (length_nextHeader h) hmagic
  have hsize := TCPHeader.toNat_fileSize (nextHeader r)
  unfold nextHeader at hparse hmagic hsize
  unfold readDataFromSocket
  rw [if_pos h]
  simp only [hparse, hmagic, ne_eq, not_true_eq_false, if_false, hsize]
  rfl

/-- **What is no header is followed by as many bytes as the last header announced.** -/
theorem read_noMagic (hr : r.header.data.take 4 = TCPHeader.magic)
    (h : TCPHeader.headerSize ≤ r.socket.bytes.length)
    (hmagic : (nextHeader r).take 4 ≠ TCPHeader.magic) :
    readDataFromSocket r = readPayload (afterHeader r r.header) r.header.fileSize.toNat := by
  have hparse := TCPHeader.parse_rejects (o := r.header) hmagic
  unfold nextHeader at hparse
  unfold readDataFromSocket
  rw [if_pos h]
  simp only [hparse, hr, ne_eq, not_true_eq_false, if_false]
  rfl

/-- **Exactly the plain turns are sound**, when the object starts with `BREZ`. -/
theorem sound_iff_plain (hr : r.header.data.take 4 = TCPHeader.magic) :
    Sound r ↔ Plain r := by
  unfold Sound Plain
  by_cases hlong : TCPHeader.headerSize ≤ r.socket.bytes.length
  · by_cases hmagic : (nextHeader r).take 4 = TCPHeader.magic
    · rw [read_magic hlong hmagic]
      simp only [hlong, hmagic, if_true, true_imp_iff, ne_eq, not_true_eq_false, false_imp_iff,
        implies_true, and_true, true_and, readPayload_undefined]
      have hdrop : (afterHeader r
          ⟨nextHeader r, UInt32.ofNat (TCPHeader.lengthField (nextHeader r))⟩).socket.bytes =
          r.socket.bytes.drop TCPHeader.headerSize := rfl
      have hlength := List.length_drop (i := TCPHeader.headerSize) (l := r.socket.bytes)
      rw [hdrop]
      constructor
      · rintro ⟨hdefined, -⟩
        omega
      · intro hplain
        refine ⟨by omega, fun data hreturned hdata => ?_⟩
        obtain ⟨rfl, hthere⟩ := readPayload_returned hreturned hdata
        refine ⟨(r.socket.bytes.drop TCPHeader.headerSize).drop
          (TCPHeader.lengthField (nextHeader r)), ?_, length_nextHeader hlong, ?_⟩
        · rw [hdrop, List.take_append_drop]
          exact (List.take_append_drop _ _).symm
        · rw [hdrop] at hthere ⊢
          exact List.length_take_of_le hthere
    · rw [read_noMagic hr hlong hmagic]
      simp only [hlong, hmagic, if_false, true_imp_iff, ne_eq, not_false_eq_true, false_and,
        and_false, exists_false]
      have hnothing := @readPayload_nothing (afterHeader r r.header) r.header.fileSize.toNat
      have hzero : r.header.fileSize.toNat = 0 ↔ r.header.fileSize = 0 :=
        ⟨fun h => UInt32.toNat_inj.1 h, fun h => by rw [h]; rfl⟩
      rw [← hzero, ← hnothing]
      constructor
      · exact fun h => h.2.2
      · intro h
        rw [h]
        refine ⟨by simp, fun data hdata hne => ?_, rfl⟩
        exact hne (ReadResult.returned.inj hdata).symm
  · rw [read_short hlong]
    refine iff_of_true ⟨readError_undefined, fun data hdata hne => ?_, fun h => absurd h hlong⟩
      fun h => absurd h hlong
    exact absurd (readError_returned hdata) hne

/-! ### The receiver over whole runs -/

/-- The object starts with `BREZ`, whatever the receiver has read. -/
theorem parse_magic {o : TCPHeader} (ho : o.data.take 4 = TCPHeader.magic) (data : List UInt8) :
    (o.parse data).2.data.take 4 = TCPHeader.magic := by
  unfold TCPHeader.parse
  split_ifs with hshort hmagic
  · exact ho
  · exact ho
  · simpa using hmagic

theorem readDataFromSocket_magic (hr : r.header.data.take 4 = TCPHeader.magic) :
    (readDataFromSocket r).2.header.data.take 4 = TCPHeader.magic := by
  unfold readDataFromSocket
  split_ifs with hlong
  · dsimp only
    split_ifs with hmagic
    · exact parse_magic hr _
    · rw [readPayload_header]
      exact parse_magic hr _
  · rw [readError_header]
    exact hr

theorem step_magic {a : Action} (hr : r.header.data.take 4 = TCPHeader.magic)
    (h : step r a = some r') : r'.header.data.take 4 = TCPHeader.magic := by
  have hread := readDataFromSocket_magic hr
  unfold step at h
  split at h
  · split_ifs at h
    split at h
    · rename_i data r'' hresult
      obtain rfl := Option.some.inj h
      rw [hresult] at hread
      exact hread
    · rename_i r'' hresult
      obtain rfl := Option.some.inj h
      rw [hresult] at hread
      exact hread
    · exact absurd h (by simp)
    · exact absurd h (by simp)
  · obtain rfl := Option.some.inj h
    exact hr

theorem startConnect_enqueued : (startConnect r).2.enqueued = r.enqueued := by
  unfold startConnect
  split <;> rfl

theorem readError_enqueued : (readError r).2.enqueued = r.enqueued := by
  unfold readError
  split_ifs
  · rfl
  · exact startConnect_enqueued

theorem readPayload_enqueued {length : ℕ} : (readPayload r length).2.enqueued = r.enqueued := by
  unfold readPayload
  split_ifs
  · rfl
  · rfl
  · rfl
  · exact readError_enqueued

theorem readDataFromSocket_enqueued : (readDataFromSocket r).2.enqueued = r.enqueued := by
  unfold readDataFromSocket
  split_ifs
  · dsimp only
    split_ifs
    · rfl
    · exact readPayload_enqueued
  · exact readError_enqueued

/-- A turn enqueues the data that was read, unless it is empty, and nothing else. -/
theorem turn_enqueued (h : step r .turn = some r') :
    r'.enqueued = r.enqueued ∨
      ∃ data, (readDataFromSocket r).1 = .returned data ∧ data ≠ [] ∧
        r'.enqueued = r.enqueued ++ [data] := by
  have hread := @readDataFromSocket_enqueued r
  unfold step at h
  dsimp only at h
  split_ifs at h
  split at h
  · rename_i data r'' hresult
    obtain rfl := Option.some.inj h
    rw [hresult] at hread ⊢
    by_cases hdata : data = []
    · refine Or.inl ?_
      show (if data = [] then r''.enqueued else _) = _
      rw [if_pos hdata]
      exact hread
    · refine Or.inr ⟨data, rfl, hdata, ?_⟩
      show (if data = [] then _ else r''.enqueued ++ [data]) = _
      rw [if_neg hdata]
      exact congrArg (· ++ [data]) hread
  · rename_i r'' hresult
    obtain rfl := Option.some.inj h
    rw [hresult] at hread
    exact Or.inl hread
  · exact absurd h (by simp)
  · exact absurd h (by simp)

/-- **When what is enqueued is what was sent.**  Whatever comes in on whatever connections, all
turns of a run are sound if and only if all of them are plain: no payload of `2 ^ 31` bytes or more
comes whole, and 32 bytes without `BREZ` come only while the header that was accepted last, if any,
announced no payload. -/
theorem sound_iff (socket : Connection) (backlog : List Connection) (as : List Action) :
    Transition.Meets step (fun r a => a = .turn → Sound r) (init socket backlog) as ↔
      Transition.Meets step (fun r a => a = .turn → Plain r) (init socket backlog) as :=
  @Transition.meets_congr _ _ _ (fun r => r.header.data.take 4 = TCPHeader.magic) _ _
    (fun _ _ _ hr h => step_magic hr h)
    (fun _ _ hr => imp_congr_right fun _ => sound_iff_plain hr) _ rfl as

/-- **Bytes that are no header are read as one.**  After a frame with the payload `07`, 32 zeros and
an `08` are taken for a frame with the payload `08`. -/
theorem enqueues_without_magic :
    ∃ r, Transition.run step (init ⟨frame [7] ++ (List.replicate 32 0 ++ [8]), false⟩ [])
        [.turn, .turn] = some r ∧ r.enqueued = [[7], [8]] ∧
      ∃ r₁, Transition.run step (init ⟨frame [7] ++ (List.replicate 32 0 ++ [8]), false⟩ [])
        [.turn] = some r₁ ∧ r₁.socket.bytes = List.replicate 32 0 ++ [8] ∧ ¬ Sound r₁ := by
  refine ⟨_, rfl, rfl, _, rfl, rfl, fun h => ?_⟩
  obtain ⟨rest, -, -, hmagic, -⟩ := h.2.1 [8] rfl (by simp)
  exact absurd hmagic (by decide)

end TCPReceiver

end Net
end BreUtils
