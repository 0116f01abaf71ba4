/-
# The byte buffer of `Buffer.hpp`

A vector with two positions: what is between them can be read.  `Append` puts its bytes
behind the second one.  If they do not fit there, `expandBuffer` moves the readable
bytes to the front of the vector, or, if even that does not make room, lets the vector
grow.

Each operation keeps the positions in order and inside the vector, never leaves the
vector, and does to the readable bytes what its name says (`append_spec`,
`retrieve_spec`, `retrieveUntil_spec`, `retrieveAll_spec`).
-/

import BreUtils.Cpp.Memory
import BreUtils.Lib.Cutting

namespace BreUtils
namespace Buffers

open Lib Cpp

/-- `Buffer`. -/
structure Buffer where
  buffer : Bytes
  readPos : ℕ
  writePos : ℕ
  deriving DecidableEq, Repr

/-- The exceptions of the class and of the vector in it. -/
inductive Failure where
  /-- `std::out_of_range`, with its message. -/
  | outOfRange (what : Bytes)
  /-- `std::length_error`. -/
  | lengthError
  deriving DecidableEq, Repr

/-- How a call ends, and the object behind it. -/
inductive Outcome (α : Type) where
  | returned (a : α) (b : Buffer)
  | threw (e : Failure) (b : Buffer)
  /-- Undefined behaviour: the call left the vector. -/
  | undefined

namespace Buffer

/-- `Buffer(int initBuffSize)`. -/
def new (initBuffSize : ℕ) : Buffer := ⟨List.replicate initBuffSize 0, 0, 0⟩

/-- `WritableBytes`. -/
def writableBytes (b : Buffer) : ℕ := subSize b.buffer.length b.writePos

/-- `ReadableBytes`. -/
def readableBytes (b : Buffer) : ℕ := subSize b.writePos b.readPos

/-- `std::string(Peek(), len)`. -/
def peek (b : Buffer) (len : ℕ) : Option Bytes := readAt b.buffer b.readPos len

/-- The message of `Retrieve`. -/
def tooLarge : Bytes := ascii "Buffer::Retrieve: len is too large"

/-- `Retrieve`. -/
def retrieve (b : Buffer) (len : ℕ) : Outcome Bytes :=
  if len > readableBytes b then .threw (.outOfRange tooLarge) b
  else
    match peek b len with
    | some ret => .returned ret { b with readPos := addSize b.readPos len }
    | none => .undefined

/-- `RetrieveUntil`. -/
def retrieveUntil (b : Buffer) (delimiter : Bytes) : Outcome Bytes :=
  match peek b (readableBytes b) with
  | some s =>
      match position delimiter s with
      | some pos => retrieve b (addSize pos delimiter.length)
      | none => .returned [] b
  | none => .undefined

/-- `Clear`. -/
def clear (b : Buffer) : Buffer := { b with readPos := 0, writePos := 0 }

/-- `RetrieveAll`. -/
def retrieveAll (b : Buffer) : Outcome Bytes :=
  match peek b (readableBytes b) with
  | some ret => .returned ret (clear b)
  | none => .undefined

/-- `expandBuffer`. -/
def expandBuffer (b : Buffer) (len : ℕ) : Outcome Unit :=
  if addSize (writableBytes b) b.readPos < len then
    match resize b.buffer (addSize b.writePos len) with
    | some buffer => .returned () { b with buffer }
    | none => .threw .lengthError b
  else
    let readable := readableBytes b
    match (readAt b.buffer b.readPos (b.writePos - b.readPos)).bind (writeAt b.buffer 0) with
    | some buffer => .returned () { buffer, readPos := 0, writePos := addSize 0 readable }
    | none => .undefined

/-- `Append`, all overloads for bytes. -/
def append (b : Buffer) (str : Bytes) : Outcome Unit :=
  match if writableBytes b < str.length then expandBuffer b str.length else .returned () b with
  | .returned _ b =>
      match writeAt b.buffer b.writePos str with
      | some buffer =>
          .returned () { b with buffer, writePos := addSize b.writePos str.length }
      | none => .undefined
  | .threw e b => .threw e b
  | .undefined => .undefined

/-- `Append(const Buffer&)`. -/
def appendBuffer (b other : Buffer) : Outcome Unit :=
  match peek other (readableBytes other) with
  | some str => append b str
  | none => .undefined

/-- What a move leaves of the object it moves from, with `left` in its vector. -/
def moved (left : Bytes) : Buffer := ⟨left, 0, 0⟩

/-! ### The readable bytes -/

/-- The bytes that have been appended and not been retrieved. -/
def readable (b : Buffer) : Bytes := (b.buffer.drop b.readPos).take (b.writePos - b.readPos)

/-- The positions are in order and inside the vector. -/
structure Inv (b : Buffer) : Prop where
  ordered : b.readPos ≤ b.writePos
  inside : b.writePos ≤ b.buffer.length
  size : b.buffer.length ≤ maxSize

variable {b : Buffer} {s d : Bytes} {len : ℕ}

theorem Inv.new {n : ℕ} (hn : n < 2 ^ 31) : Inv (new n) where
  ordered := le_rfl
  inside := Nat.zero_le _
  size := by
    simp only [Buffer.new, List.length_replicate, maxSize]
    omega

theorem Inv.moved {left : Bytes} (hleft : left.length ≤ maxSize) : Inv (moved left) where
  ordered := le_rfl
  inside := Nat.zero_le _
  size := hleft

theorem Inv.clear (hb : Inv b) : Inv (clear b) where
  ordered := le_rfl
  inside := Nat.zero_le _
  size := hb.size

@[simp] theorem readable_clear : readable (clear b) = [] := List.take_zero

@[simp] theorem readable_new {n : ℕ} : readable (new n) = [] := List.take_zero

@[simp] theorem readable_moved {left : Bytes} : readable (moved left) = [] := List.take_zero

theorem length_readable (hb : Inv b) : (readable b).length = b.writePos - b.readPos := by
  have hinside := hb.inside
  unfold readable
  rw [List.length_take, List.length_drop]
  omega

/-- The readable bytes are the end of what is in front of `writePos`. -/
theorem readable_eq : readable b = (b.buffer.take b.writePos).drop b.readPos := by
  unfold readable
  rw [List.drop_take]

theorem readableBytes_eq (hb : Inv b) : readableBytes b = (readable b).length := by
  have hordered := hb.ordered
  have hinside := hb.inside
  have hsize := hb.size
  rw [length_readable hb, readableBytes, subSize_eq hordered]
  unfold maxSize at hsize
  omega

theorem writableBytes_eq (hb : Inv b) : writableBytes b = b.buffer.length - b.writePos := by
  have hsize := hb.size
  rw [writableBytes, subSize_eq hb.inside]
  unfold maxSize at hsize
  omega

theorem peek_eq (hb : Inv b) (hlen : len ≤ (readable b).length) :
    peek b len = some ((readable b).take len) := by
  have hordered := hb.ordered
  have hinside := hb.inside
  rw [length_readable hb] at hlen
  unfold readable
  rw [peek, readAt_eq (by omega), List.take_take, min_eq_left hlen]

theorem peek_all (hb : Inv b) : peek b (readableBytes b) = some (readable b) := by
  rw [readableBytes_eq hb, peek_eq hb le_rfl, List.take_length]

/-! ### What each operation does -/

/-- `Retrieve` takes bytes off the front, or throws and leaves the object alone. -/
theorem retrieve_spec (hb : Inv b) (len : ℕ) :
    (len ≤ (readable b).length ∧ ∃ b', retrieve b len = .returned ((readable b).take len) b' ∧
        Inv b' ∧ readable b' = (readable b).drop len) ∨
      (readable b).length < len ∧ retrieve b len = .threw (.outOfRange tooLarge) b := by
  unfold retrieve
  rw [readableBytes_eq hb]
  by_cases hlen : len ≤ (readable b).length
  · refine Or.inl ⟨hlen, ?_⟩
    rw [if_neg (by omega), peek_eq hb hlen]
    rw [length_readable hb] at hlen
    have hordered := hb.ordered
    have hinside := hb.inside
    have hsize := hb.size
    unfold maxSize at hsize
    refine ⟨_, rfl, ⟨?_, hb.inside, hb.size⟩, ?_⟩
    · rw [addSize_eq (by omega)]
      show b.readPos + len ≤ b.writePos
      omega
    · rw [addSize_eq (by omega), readable_eq, readable_eq, List.drop_drop]
  · exact Or.inr ⟨by omega, if_pos (by omega)⟩

/-- `RetrieveUntil` takes the bytes up to the delimiter and the delimiter off the front, or finds
none and leaves the object alone. -/
theorem retrieveUntil_spec (hb : Inv b) (d : Bytes) :
    (∃ p b', position d (readable b) = some p ∧
        retrieveUntil b d = .returned ((readable b).take (p + d.length)) b' ∧ Inv b' ∧
        readable b' = (readable b).drop (p + d.length)) ∨
      position d (readable b) = none ∧ retrieveUntil b d = .returned [] b := by
  simp only [retrieveUntil, peek_all hb]
  cases hp : position d (readable b) with
  | none => exact Or.inr ⟨rfl, rfl⟩
  | some p =>
      have hle := add_le_of_position hp
      have hlength := length_readable hb
      have hinside := hb.inside
      have hsize := hb.size
      unfold maxSize at hsize
      rcases retrieve_spec hb (p + d.length) with ⟨-, b', hretrieve, hb', hreadable⟩ | ⟨hlt, -⟩
      · refine Or.inl ⟨p, b', rfl, ?_, hb', hreadable⟩
        show retrieve b (addSize p d.length) = _
        rw [addSize_eq (by omega)]
        exact hretrieve
      · omega

theorem retrieveAll_spec (hb : Inv b) : retrieveAll b = .returned (readable b) (clear b) := by
  unfold retrieveAll
  rw [peek_all hb]

/-- `expandBuffer` makes room and keeps the readable bytes, or throws and leaves the object
alone. -/
theorem expandBuffer_spec (hb : Inv b) (hlen : len ≤ maxSize) :
    (∃ b', expandBuffer b len = .returned () b' ∧ Inv b' ∧ readable b' = readable b ∧
        b'.writePos + len ≤ b'.buffer.length) ∨
      maxSize < b.writePos + len ∧ expandBuffer b len = .threw .lengthError b := by
  have hordered := hb.ordered
  have hinside := hb.inside
  have hsize := hb.size
  have hmax : maxSize = 2 ^ 63 - 1 := rfl
  unfold expandBuffer
  rw [writableBytes_eq hb, addSize_eq (by omega)]
  by_cases hroom : b.buffer.length - b.writePos + b.readPos < len
  · rw [if_pos hroom, addSize_eq (by omega)]
    cases hbuffer : resize b.buffer (b.writePos + len) with
    | none =>
        refine Or.inr ⟨?_, rfl⟩
        unfold resize at hbuffer
        split_ifs at hbuffer
        omega
    | some buffer =>
        have hlength := length_resize hbuffer
        have hle := resize_le hbuffer
        refine Or.inl ⟨_, rfl, ⟨hordered, ?_, ?_⟩, ?_, ?_⟩
        · show b.writePos ≤ buffer.length
          omega
        · show buffer.length ≤ maxSize
          omega
        · rw [readable_eq, readable_eq]
          show (buffer.take b.writePos).drop b.readPos = _
          rw [take_resize hbuffer hinside (by omega)]
        · show b.writePos + len ≤ buffer.length
          omega
  · rw [if_neg hroom, readAt_eq (by omega), Option.bind_some]
    have hreadable := length_readable hb
    have hfits : 0 + (readable b).length ≤ b.buffer.length := by omega
    cases hbuffer : writeAt b.buffer 0 (readable b) with
    | none => rw [writeAt_eq hfits] at hbuffer; cases hbuffer
    | some buffer =>
        have hlength := length_writeAt hbuffer
        have htake := take_writeAt hbuffer
        have hwrite : writeAt b.buffer 0 ((b.buffer.drop b.readPos).take (b.writePos - b.readPos))
            = some buffer := hbuffer
        simp only [hwrite]
        rw [readableBytes_eq hb, addSize_eq (by omega)]
        refine Or.inl ⟨_, rfl, ⟨?_, ?_, ?_⟩, ?_, ?_⟩
        · exact Nat.zero_le _
        · show 0 + (readable b).length ≤ buffer.length
          omega
        · show buffer.length ≤ maxSize
          omega
        · rw [readable_eq]
          exact htake
        · show 0 + (readable b).length + len ≤ buffer.length
          omega

/-- Writing behind the readable bytes, where there is room. -/
theorem write_spec (hb : Inv b) (hroom : b.writePos + s.length ≤ b.buffer.length) :
    ∃ buffer, writeAt b.buffer b.writePos s = some buffer ∧
      Inv { b with buffer, writePos := addSize b.writePos s.length } ∧
      readable { b with buffer, writePos := addSize b.writePos s.length } = readable b ++ s := by
  have hordered := hb.ordered
  have hinside := hb.inside
  have hsize := hb.size
  have hmax : maxSize = 2 ^ 63 - 1 := rfl
  obtain ⟨buffer, hbuffer⟩ : ∃ buffer, writeAt b.buffer b.writePos s = some buffer :=
    ⟨_, writeAt_eq hroom⟩
  have hlength := length_writeAt hbuffer
  have htake := take_writeAt hbuffer
  rw [addSize_eq (by omega)]
  refine ⟨buffer, hbuffer, ⟨?_, ?_, ?_⟩, ?_⟩
  · show b.readPos ≤ b.writePos + s.length
    omega
  · exact hroom.trans_eq hlength.symm
  · exact hlength.trans_le hsize
  · have hle : b.readPos ≤ (b.buffer.take b.writePos).length := by
      rw [List.length_take]
      omega
    rw [readable_eq, readable_eq, ← List.drop_append_of_le_length hle]
    exact congrArg (List.drop b.readPos) htake

/-- `Append` puts bytes behind the readable ones, or throws and leaves the object alone. -/
theorem append_spec (hb : Inv b) (hs : s.length ≤ maxSize) :
    (∃ b', append b s = .returned () b' ∧ Inv b' ∧ readable b' = readable b ++ s) ∨
      maxSize < b.writePos + s.length ∧ append b s = .threw .lengthError b := by
  unfold append
  rw [writableBytes_eq hb]
  by_cases hroom : b.buffer.length - b.writePos < s.length
  · rw [if_pos hroom]
    rcases expandBuffer_spec hb hs with ⟨b', hexpand, hb', hreadable, hroom'⟩ | ⟨hmax, hexpand⟩
    · obtain ⟨buffer, hwrite, hinv, happend⟩ := write_spec hb' hroom'
      simp only [hexpand, hwrite]
      exact Or.inl ⟨_, rfl, hinv, happend.trans (congrArg (· ++ s) hreadable)⟩
    · rw [hexpand]
      exact Or.inr ⟨hmax, rfl⟩
  · rw [if_neg hroom]
    have hinside := hb.inside
    obtain ⟨buffer, hwrite, hinv, happend⟩ := write_spec (s := s) hb (by omega)
    simp only [hwrite]
    exact Or.inl ⟨_, rfl, hinv, happend⟩

/-- `Append(const Buffer&)` puts the readable bytes of the other object there. -/
theorem appendBuffer_spec {other : Buffer} (hother : Inv other) :
    appendBuffer b other = append b (readable other) := by
  unfold appendBuffer
  rw [peek_all hother]

end Buffer

end Buffers
end BreUtils
