/-
# The header of `net/TCPHeader.hpp`

A frame is a header of 32 bytes and a payload: the letters `BREZ`, the length of the
payload in four bytes, lowest first, 24 reserved bytes, and then the payload.

`TCPHeader` is an object that is used again for every frame, and both ways of using it
leave something behind: `Parse` takes over all bytes of a header that it accepts, the
reserved ones too, and leaves the object alone when it rejects one; `GetHeaderData`
overwrites the length and nothing else, so the header it returns has the reserved
bytes of whatever was parsed last.
-/

import BreUtils.Lib.LittleEndian
import Mathlib.Data.List.TakeDrop

namespace BreUtils
namespace Net

open Lib

/-- `TCPHeader`. -/
structure TCPHeader where
  data : List UInt8
  fileSize : UInt32
  deriving DecidableEq, Repr

namespace TCPHeader

/-- `TCPHeader::HeaderSize`. -/
def headerSize : ℕ := 32

/-- `BREZ`. -/
def magic : List UInt8 := [0x42, 0x52, 0x45, 0x5A]

/-- The reserved bytes of a header that nobody has written to. -/
def zeros : List UInt8 := List.replicate 24 0

/-- The constructor. -/
def init : TCPHeader := ⟨magic ++ List.replicate 28 0, 0⟩

/-- The four bytes at `data() + 4`, as a number. -/
def lengthField (data : List UInt8) : ℕ := LittleEndian.value ((data.drop 4).take 4)

/-- `Parse`: its result, and what it makes of the object. -/
def parse (header : TCPHeader) (data : List UInt8) : Bool × TCPHeader :=
  if data.length < headerSize then (false, header)
  else if data.take 4 ≠ magic then (false, header)
  else (true, ⟨data, UInt32.ofNat (lengthField data)⟩)

/-- `GetHeaderData`: the bytes it returns, and what it makes of the object. -/
def getHeaderData (header : TCPHeader) (size : ℕ) : List UInt8 × TCPHeader :=
  let data :=
    header.data.take 4 ++ LittleEndian.bytes 4 (UInt32.ofNat size).toNat ++ header.data.drop 8
  (data, ⟨data, UInt32.ofNat size⟩)

/-! ### What a header says -/

/-- The header of a payload of `n` bytes, with these reserved bytes. -/
def header (n : ℕ) (reserved : List UInt8) : List UInt8 :=
  magic ++ (LittleEndian.bytes 4 n ++ reserved)

@[simp] theorem length_header (n : ℕ) (reserved : List UInt8) :
    (header n reserved).length = reserved.length + 8 := by
  rw [header, List.length_append, List.length_append, LittleEndian.length_bytes]
  show 4 + (4 + reserved.length) = _
  omega

theorem take_header (n : ℕ) (reserved : List UInt8) : (header n reserved).take 4 = magic := rfl

theorem drop_header (n : ℕ) (reserved : List UInt8) : (header n reserved).drop 8 = reserved := by
  rw [header, ← List.append_assoc]
  refine List.drop_left' ?_
  rw [List.length_append, LittleEndian.length_bytes]
  rfl

/-- The length comes back modulo `2 ^ 32`, whatever follows it. -/
theorem lengthField_header (n : ℕ) (rest : List UInt8) :
    lengthField (header n rest) = n % 2 ^ 32 := by
  have hmagic : magic.length = 4 := rfl
  have hfield : ((magic ++ (LittleEndian.bytes 4 n ++ rest)).drop 4).take 4 =
      LittleEndian.bytes 4 n := LittleEndian.take_drop_bytes hmagic 4 n rest
  rw [lengthField, header, hfield]
  exact LittleEndian.value_bytes 4 n

theorem lengthField_lt (data : List UInt8) : lengthField data < 2 ^ 32 :=
  calc lengthField data < 256 ^ ((data.drop 4).take 4).length := LittleEndian.value_lt _
    _ ≤ 256 ^ 4 := Nat.pow_le_pow_right (by decide) (List.length_take_le _ _)

/-- `FileSize` as `Parse` leaves it. -/
theorem toNat_fileSize (data : List UInt8) :
    (UInt32.ofNat (lengthField data)).toNat = lengthField data :=
  (UInt32.toNat_ofNat').trans (Nat.mod_eq_of_lt (lengthField_lt data))

/-- `FileSize`, converted to `int`. -/
theorem toInt_toInt32 (size : UInt32) :
    size.toInt32.toInt = if size.toNat < 2 ^ 31 then (size.toNat : ℤ) else size.toNat - 2 ^ 32 := by
  have hcond := BitVec.toInt_eq_toNat_cond size.toBitVec
  have hbits : size.toBitVec.toNat = size.toNat := rfl
  rw [hbits] at hcond
  have hint : size.toInt32.toInt = size.toBitVec.toInt := rfl
  rw [hint, hcond]
  split_ifs <;> omega

theorem bytes_fileSize (n : ℕ) :
    LittleEndian.bytes 4 (UInt32.ofNat n).toNat = LittleEndian.bytes 4 n := by
  rw [UInt32.toNat_ofNat']
  exact LittleEndian.bytes_mod 4 n

/-! ### What the two operations do -/

/-- `Parse` accepts 32 bytes that start with `BREZ`, and takes them over. -/
theorem parse_accepts {o : TCPHeader} {data : List UInt8} (hlength : data.length = headerSize)
    (hmagic : data.take 4 = magic) :
    o.parse data = (true, ⟨data, UInt32.ofNat (lengthField data)⟩) := by
  unfold parse
  rw [if_neg (by omega), if_neg (by simpa using hmagic)]

/-- `Parse` rejects 32 bytes that do not, and leaves the object as it was. -/
theorem parse_rejects {o : TCPHeader} {data : List UInt8} (hmagic : data.take 4 ≠ magic) :
    o.parse data = (false, o) := by
  unfold parse
  split_ifs
  · rfl
  · rfl

/-- **`GetHeaderData` writes the length between what is there already.** -/
theorem getHeaderData_eq {o : TCPHeader} (hmagic : o.data.take 4 = magic) (n : ℕ) :
    o.getHeaderData n =
      (header n (o.data.drop 8), ⟨header n (o.data.drop 8), UInt32.ofNat n⟩) := by
  have hdata : o.data.take 4 ++ LittleEndian.bytes 4 (UInt32.ofNat n).toNat ++ o.data.drop 8 =
      header n (o.data.drop 8) := by
    rw [bytes_fileSize, hmagic, List.append_assoc]
    rfl
  unfold getHeaderData
  rw [hdata]

end TCPHeader

/-! ### Streams of frames -/

/-- A payload and the header in front of it, as a side that never parsed anything writes it. -/
def frame (payload : List UInt8) : List UInt8 :=
  TCPHeader.header payload.length TCPHeader.zeros ++ payload

/-- The frames of some payloads, one behind the other. -/
def wire (payloads : List (List UInt8)) : List UInt8 := payloads.flatMap frame

@[simp] theorem wire_nil : wire [] = [] := rfl

theorem wire_append (xs ys : List (List UInt8)) : wire (xs ++ ys) = wire xs ++ wire ys :=
  List.flatMap_append

theorem wire_mono {xs ys : List (List UInt8)} (h : xs <+: ys) : wire xs <+: wire ys := by
  obtain ⟨zs, rfl⟩ := h
  exact ⟨wire zs, (wire_append xs zs).symm⟩

theorem wire_cons (x : List UInt8) (xs : List (List UInt8)) :
    wire (x :: xs) = TCPHeader.header x.length TCPHeader.zeros ++ (x ++ wire xs) := by
  show frame x ++ wire xs = _
  rw [frame, List.append_assoc]

theorem wire_ne_nil {xs : List (List UInt8)} (h : xs ≠ []) : wire xs ≠ [] := by
  cases xs with
  | nil => exact absurd rfl h
  | cons x xs =>
      intro hnil
      have hlength := congrArg List.length hnil
      rw [wire_cons, List.length_append, TCPHeader.length_header, List.length_nil] at hlength
      omega

/-- Of some messages, all are written but those that are left; of the first one of these, this part
is written too. -/
def Sending (messages : List (List UInt8)) (output part : List UInt8)
    (left : List (List UInt8)) : Prop :=
  ∃ done, messages = done ++ left ∧ output = wire done ++ part

namespace Sending

variable {messages left : List (List UInt8)} {output part message : List UInt8}

theorem start : Sending [] [] [] [] := ⟨[], rfl, rfl⟩

theorem push (h : Sending messages output part left) (message : List UInt8) :
    Sending (messages ++ [message]) output part (left ++ [message]) := by
  obtain ⟨done, rfl, houtput⟩ := h
  exact ⟨done, List.append_assoc _ _ _, houtput⟩

/-- The header of the next message is written. -/
theorem writeHeader (h : Sending messages output [] (message :: left)) :
    Sending messages (output ++ TCPHeader.header message.length TCPHeader.zeros)
      (TCPHeader.header message.length TCPHeader.zeros) (message :: left) := by
  obtain ⟨done, hmessages, rfl⟩ := h
  exact ⟨done, hmessages, by rw [List.append_nil]⟩

/-- The message itself is written, behind its header. -/
theorem writePayload (h : Sending messages output
    (TCPHeader.header message.length TCPHeader.zeros) (message :: left)) :
    Sending messages (output ++ message) [] left := by
  obtain ⟨done, rfl, rfl⟩ := h
  refine ⟨done ++ [message], by simp, ?_⟩
  rw [wire_append, wire_cons, wire_nil, List.append_nil, List.append_nil, List.append_assoc]

/-- Nothing is left. -/
theorem finish (h : Sending messages output [] []) : output = wire messages := by
  obtain ⟨done, rfl, rfl⟩ := h
  rw [List.append_nil, List.append_nil]

end Sending

end Net
end BreUtils
