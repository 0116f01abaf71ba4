/-
# `UdpSender`

`Send` cuts a payload into pieces of 9192 bytes, the last one shorter, and sends each behind a
header with the number of the call, the number of the piece, and how many pieces and bytes there
are.  The loop over `offset` and `packet_id` is a list of packets numbered from zero
(`send_packets`), and the pieces make up the payload again (`flatten_pieces`).

Sending to the socket is what `Send` returns: the datagrams in order.
-/

import BreUtils.Net.UdpPacket
import Mathlib.Data.List.Basic
import Mathlib.Data.List.Range

namespace BreUtils
namespace Net

/-- `max_payload_size`: the largest datagram without its header. -/
def maxPayloadSize : ℕ := 9216 - sizeofPacketHeader

/-- `total_packets`. -/
def totalPackets (size : ℕ) : ℕ := (size + maxPayloadSize - 1) / maxPayloadSize

/-- The piece of the payload that packet `i` carries. -/
def piece (data : Bytes) (i : ℕ) : Bytes := (data.drop (i * maxPayloadSize)).take maxPayloadSize

/-- The header of packet `i`. -/
def headerOf (groupId : UInt32) (data : Bytes) (i : ℕ) : PacketHeader where
  groupId := groupId
  packetId := UInt32.ofNat i
  totalPackets := UInt32.ofNat (totalPackets data.length)
  totalSize := UInt64.ofNat data.length

/-- Packet `i` of a payload. -/
def packet (groupId : UInt32) (data : Bytes) (i : ℕ) : Bytes :=
  (headerOf groupId data i).encode ++ piece data i

/-- `UdpSender`, without its socket. -/
structure UdpSender where
  groupId : UInt32 := 0

namespace UdpSender

/-- The loop of `Send`, from `offset` and `packet_id` on. -/
def sendFrom (groupId : UInt32) (data : Bytes) (offset packetId : ℕ) : List Bytes :=
  if offset < data.length then
    let currentSize := min (data.length - offset) maxPayloadSize
    let header : PacketHeader := {
      headerSignature := 0x12345678
      groupId := groupId
      packetId := UInt32.ofNat packetId
      totalPackets := UInt32.ofNat (totalPackets data.length)
      totalSize := UInt64.ofNat data.length }
    (header.encode ++ (data.drop offset).take currentSize) ::
      sendFrom groupId data (offset + maxPayloadSize) (packetId + 1)
  else []
termination_by data.length - offset
decreasing_by simp only [maxPayloadSize, sizeofPacketHeader]; omega

/-- `Send`: the datagrams, and the sender after the call. -/
def send (s : UdpSender) (data : Bytes) : List Bytes × UdpSender :=
  let currentGroupId := s.groupId + 1
  (sendFrom currentGroupId data 0 0, { s with groupId := currentGroupId })

/-- One call of `Send` for each payload: the datagrams of each call. -/
def sendAll (s : UdpSender) : List Bytes → List (List Bytes)
  | [] => []
  | data :: payloads => (s.send data).1 :: sendAll (s.send data).2 payloads

end UdpSender

/-! ### The pieces -/

theorem lt_totalPackets_iff {i size : ℕ} :
    i < totalPackets size ↔ i * maxPayloadSize < size := by
  rw [totalPackets, Nat.lt_div_iff_mul_lt (by decide)]
  simp only [maxPayloadSize, sizeofPacketHeader]
  omega

theorem totalPackets_pos_iff {data : Bytes} : 0 < totalPackets data.length ↔ data ≠ [] := by
  rw [lt_totalPackets_iff, Nat.zero_mul, List.length_pos_iff]

theorem length_le_of_totalPackets_lt {data : Bytes} {n : ℕ} (h : totalPackets data.length < n) :
    data.length ≤ n * maxPayloadSize := by
  by_contra hlt
  exact absurd (lt_totalPackets_iff.2 (not_le.1 hlt)) (by omega)

theorem piece_ne_nil {data : Bytes} {i : ℕ} (h : i < totalPackets data.length) :
    piece data i ≠ [] := by
  have hlt := lt_totalPackets_iff.1 h
  rw [piece, ← List.length_pos_iff, List.length_take, List.length_drop]
  simp only [maxPayloadSize, sizeofPacketHeader] at hlt ⊢
  omega

theorem length_piece_le (data : Bytes) (i : ℕ) : (piece data i).length ≤ maxPayloadSize :=
  List.length_take_le _ _

/-- The first pieces are the first part of the payload. -/
theorem flatten_take_pieces (data : Bytes) (n : ℕ) :
    ((List.range n).map (piece data)).flatten = data.take (n * maxPayloadSize) := by
  induction n with
  | zero => rw [Nat.zero_mul, List.take_zero]; rfl
  | succ n ih =>
      rw [List.range_succ, List.map_append, List.flatten_append, ih, Nat.succ_mul, List.take_add]
      simp [piece]

/-- **The pieces make up the payload.** -/
theorem flatten_pieces (data : Bytes) :
    ((List.range (totalPackets data.length)).map (piece data)).flatten = data := by
  rw [flatten_take_pieces, List.take_of_length_le]
  by_contra hlt
  exact absurd (lt_totalPackets_iff.2 (not_le.1 hlt)) (lt_irrefl _)

/-! ### The packets -/

namespace UdpSender

/-- The loop at the beginning of a piece. -/
theorem sendFrom_eq (groupId : UInt32) (data : Bytes) (i : ℕ) :
    sendFrom groupId data (i * maxPayloadSize) i =
      (List.range' i (totalPackets data.length - i)).map (packet groupId data) := by
  induction h : totalPackets data.length - i generalizing i with
  | zero =>
      have hdone : ¬ i * maxPayloadSize < data.length := fun hlt => by
        have := lt_totalPackets_iff.2 hlt
        omega
      rw [sendFrom, if_neg hdone]
      rfl
  | succ n ih =>
      have hmore : i * maxPayloadSize < data.length := lt_totalPackets_iff.1 (by omega)
      have htake : (data.drop (i * maxPayloadSize)).take
          (min (data.length - i * maxPayloadSize) maxPayloadSize) = piece data i := by
        rw [piece, ← List.length_drop, Nat.min_comm, ← List.take_take, List.take_length]
      rw [sendFrom, if_pos hmore]
      dsimp only
      rw [htake, ← Nat.succ_mul, ih (i + 1) (by omega), List.range'_succ, List.map_cons]
      rfl

/-- **`Send` sends packets `0` to `total_packets - 1`**, of the next group. -/
theorem send_packets (s : UdpSender) (data : Bytes) :
    (s.send data).1 =
      (List.range (totalPackets data.length)).map (packet (s.groupId + 1) data) := by
  have h := sendFrom_eq (s.groupId + 1) data 0
  rw [Nat.zero_mul, Nat.sub_zero, ← List.range_eq_range'] at h
  exact h

/-- The group of the `k`th call. -/
def groupOf (s : UdpSender) (k : ℕ) : UInt32 := s.groupId + UInt32.ofNat (k + 1)

theorem sendAll_eq (s : UdpSender) (payloads : List Bytes) :
    s.sendAll payloads = (List.range payloads.length).map fun k =>
      (List.range (totalPackets (payloads.getD k []).length)).map
        (packet (s.groupOf k) (payloads.getD k [])) := by
  induction payloads generalizing s with
  | nil => rfl
  | cons data payloads ih =>
      have hgroup (k : ℕ) : (s.send data).2.groupOf k = s.groupOf (k + 1) := by
        rw [groupOf, groupOf, send, UInt32.add_assoc, ← UInt32.ofNat_one, ← UInt32.ofNat_add,
          Nat.add_comm 1]
      rw [sendAll, ih, send_packets, List.length_cons, List.range_succ_eq_map, List.map_cons,
        List.map_map]
      simp only [hgroup]
      rfl

/-- **`2 ^ 32` calls have a group each.** -/
theorem groupOf_injOn (s : UdpSender) {j k : ℕ} (hj : j < 2 ^ 32) (hk : k < 2 ^ 32)
    (h : s.groupOf j = s.groupOf k) : j = k := by
  have h := congrArg UInt32.toNat h
  rw [groupOf, groupOf, UInt32.toNat_add, UInt32.toNat_add, UInt32.toNat_ofNat',
    UInt32.toNat_ofNat'] at h
  omega

end UdpSender

end Net
end BreUtils
