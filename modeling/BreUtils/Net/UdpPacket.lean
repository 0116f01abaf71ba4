/-
# The packets of `net/UDPManager.hpp`

A datagram is a `PacketHeader` and a piece of the payload.  The header is packed:
its fields lie one behind the other in 24 bytes, in the byte order of the machine,
which is little-endian here.  The sender copies the bytes of the struct and the
receiver reads them as one, so a header comes back as it was (`decode_encode`); and any
24 bytes are taken for one (`encode_decode`).
-/

import BreUtils.Lib.LittleEndian

namespace BreUtils
namespace Net

open Lib

abbrev Bytes := List UInt8

/-- `PacketHeader`. -/
structure PacketHeader where
  headerSignature : UInt32 := 0x12345678
  groupId : UInt32
  packetId : UInt32 := 0
  totalPackets : UInt32 := 0
  totalSize : UInt64 := 0
  deriving DecidableEq

/-- `sizeof(PacketHeader)`. -/
def sizeofPacketHeader : ℕ := 24

namespace PacketHeader

/-- The bytes of the struct. -/
def encode (h : PacketHeader) : Bytes :=
  LittleEndian.bytes 4 h.headerSignature.toNat ++ LittleEndian.bytes 4 h.groupId.toNat ++
    LittleEndian.bytes 4 h.packetId.toNat ++ LittleEndian.bytes 4 h.totalPackets.toNat ++
    LittleEndian.bytes 8 h.totalSize.toNat

/-- The `w` bytes at `offset`, as a number. -/
def field (data : Bytes) (offset w : ℕ) : ℕ := LittleEndian.value ((data.drop offset).take w)

/-- `reinterpret_cast<const PacketHeader*>(data)`. -/
def decode (data : Bytes) : PacketHeader where
  headerSignature := UInt32.ofNat (field data 0 4)
  groupId := UInt32.ofNat (field data 4 4)
  packetId := UInt32.ofNat (field data 8 4)
  totalPackets := UInt32.ofNat (field data 12 4)
  totalSize := UInt64.ofNat (field data 16 8)

@[simp] theorem length_encode (h : PacketHeader) : h.encode.length = sizeofPacketHeader := by
  simp [encode, sizeofPacketHeader]

/-- A field behind `offset` bytes is read as it was written. -/
theorem field_append (front : Bytes) {offset : ℕ} (hfront : front.length = offset) {w x : ℕ}
    (hx : x < 256 ^ w) (rest : Bytes) :
    field (front ++ (LittleEndian.bytes w x ++ rest)) offset w = x := by
  rw [field, LittleEndian.take_drop_bytes hfront, LittleEndian.value_bytes_of_lt hx]

/-- **A header comes back as it was**, whatever follows it. -/
theorem decode_encode (h : PacketHeader) (rest : Bytes) : decode (h.encode ++ rest) = h := by
  have h₁ : field (h.encode ++ rest) 0 4 = h.headerSignature.toNat := by
    simp only [encode, List.append_assoc]
    exact field_append [] rfl (h.headerSignature.toNat_lt.trans_eq (by decide)) _
  have h₂ : field (h.encode ++ rest) 4 4 = h.groupId.toNat := by
    rw [encode, List.append_assoc, List.append_assoc, List.append_assoc, List.append_assoc]
    exact field_append _ (by simp) (h.groupId.toNat_lt.trans_eq (by decide)) _
  have h₃ : field (h.encode ++ rest) 8 4 = h.packetId.toNat := by
    rw [encode, List.append_assoc, List.append_assoc, List.append_assoc]
    exact field_append _ (by simp) (h.packetId.toNat_lt.trans_eq (by decide)) _
  have h₄ : field (h.encode ++ rest) 12 4 = h.totalPackets.toNat := by
    rw [encode, List.append_assoc, List.append_assoc]
    exact field_append _ (by simp) (h.totalPackets.toNat_lt.trans_eq (by decide)) _
  have h₅ : field (h.encode ++ rest) 16 8 = h.totalSize.toNat := by
    rw [encode, List.append_assoc]
    exact field_append _ (by simp) (h.totalSize.toNat_lt.trans_eq (by decide)) _
  rw [decode, h₁, h₂, h₃, h₄, h₅, UInt32.ofNat_toNat, UInt32.ofNat_toNat, UInt32.ofNat_toNat,
    UInt32.ofNat_toNat, UInt64.ofNat_toNat]

/-- The bytes of a field. -/
theorem bytes_field {data : Bytes} {offset w : ℕ} (h : offset + w ≤ data.length) :
    LittleEndian.bytes w (field data offset w) = (data.drop offset).take w := by
  have hlength : ((data.drop offset).take w).length = w := by
    rw [List.length_take, List.length_drop]
    omega
  have hbytes := LittleEndian.bytes_value ((data.drop offset).take w)
  rwa [hlength] at hbytes

theorem field_lt (data : Bytes) (offset w : ℕ) : field data offset w < 256 ^ w := by
  refine (LittleEndian.value_lt _).trans_le (Nat.pow_le_pow_right (by decide) ?_)
  rw [List.length_take]
  exact Nat.min_le_left _ _

/-- **Any 24 bytes are those of a header.** -/
theorem encode_decode {data : Bytes} (h : sizeofPacketHeader ≤ data.length) :
    (decode data).encode ++ data.drop sizeofPacketHeader = data := by
  unfold sizeofPacketHeader at h ⊢
  have h32 (offset : ℕ) : (UInt32.ofNat (field data offset 4)).toNat = field data offset 4 :=
    UInt32.toNat_ofNat_of_lt ((field_lt data offset 4).trans_eq (by decide))
  have h64 : (UInt64.ofNat (field data 16 8)).toNat = field data 16 8 :=
    UInt64.toNat_ofNat_of_lt ((field_lt data 16 8).trans_eq (by decide))
  simp only [encode, decode, h32, h64]
  rw [bytes_field (by omega), bytes_field (by omega), bytes_field (by omega),
    bytes_field (by omega), bytes_field (by omega)]
  have hsplit (offset w : ℕ) : (data.drop offset).take w ++ data.drop (offset + w) =
      data.drop offset := by
    rw [← List.drop_drop, List.take_append_drop]
  rw [List.append_assoc, hsplit 16 8, List.append_assoc, hsplit 12 4, List.append_assoc,
    hsplit 8 4, List.append_assoc, hsplit 4 4, hsplit 0 4, List.drop_zero]

/-- What follows a header is behind its 24 bytes. -/
theorem drop_encode (h : PacketHeader) (rest : Bytes) :
    (h.encode ++ rest).drop sizeofPacketHeader = rest :=
  List.drop_left' h.length_encode

end PacketHeader

end Net
end BreUtils
