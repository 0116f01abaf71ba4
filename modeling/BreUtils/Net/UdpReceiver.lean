/-
# `UdpReceiver`

The receiver files the packets of a group under their numbers until there are as many as the header
of the first one said, and hands them to the callback in one buffer.  Then it forgets the group.
Whatever a header says is believed: the group is found by `group_id` alone, and the counts are
those of the packet that opened the group.

`HandlePacket` is one step.  What it does with a packet of the right signature depends on the
group's entry after the packet is stored (`GroupInfo.store`): the entry stays, or it is complete and
goes to the callback (`handlePacket_of_incomplete`, `handlePacket_of_complete`).  An exception of
`HandlePacket` leaves the handler of `DoReceive` before the next receive is started: nothing arrives
after it (`Run.step`).

An `std::unordered_map` is an `AList`: nothing here depends on the order of its entries.  How many
bytes `reserve` can provide is up to the machine and may change from call to call, so it is an
argument of `HandlePacket`.  A `Run` has the memory for whatever a vector can hold.
-/

import BreUtils.Net.UdpPacket
import Mathlib.Data.List.AList
import Mathlib.Data.List.Induction

namespace BreUtils
namespace Net

/-- What `HandlePacket` throws. -/
inductive Failure where
  /-- `std::length_error`, of `reserve`: more than a vector can have. -/
  | lengthError
  /-- `std::bad_alloc`, of `reserve`: more than there is memory for. -/
  | badAlloc
  deriving DecidableEq

/-- `std::vector<uint8_t>::max_size()`. -/
def vectorMaxSize : ℕ := 2 ^ 63 - 1

/-- `UdpReceiver::GroupInfo`. -/
structure GroupInfo where
  totalPackets : UInt32 := 0
  totalSize : UInt64 := 0
  packets : AList (fun _ : UInt32 => Bytes) := ∅

/-- `UdpReceiver`, without its socket and buffer: `m_groups`, and whether `callback_` is set. -/
structure UdpReceiver where
  groups : AList (fun _ : UInt32 => GroupInfo) := ∅
  callback : Bool := false

/-- What `HandlePacket` does to the entry of the group. -/
def GroupInfo.store (info : GroupInfo) (header : PacketHeader) (payload : Bytes) : GroupInfo :=
  let info := if info.totalPackets = 0 then
      { info with totalPackets := header.totalPackets, totalSize := header.totalSize }
    else info
  if payload.length > 0 then { info with packets := info.packets.insert header.packetId payload }
  else info

namespace UdpReceiver

/-- `IsGroupComplete`. -/
def isGroupComplete (r : UdpReceiver) (groupId : UInt32) : ℤ :=
  match r.groups.lookup groupId with
  | none => -1
  | some info =>
      if info.packets.entries.length ≠ info.totalPackets.toNat then 0
      else if (List.range info.totalPackets.toNat).any fun i =>
          (info.packets.lookup (UInt32.ofNat i)).isNone then -2
      else 1

/-- `MergeGroup`, called for complete groups only: there `packets[i]` is a look-up.  There is memory
for a buffer of `available` bytes. -/
def mergeGroup (r : UdpReceiver) (available : ℕ) (groupId : UInt32) : Except Failure Bytes :=
  match r.groups.lookup groupId with
  | none => .ok []
  | some info =>
      if info.totalSize.toNat > vectorMaxSize then .error .lengthError
      else if info.totalSize.toNat > available then .error .badAlloc
      else .ok ((List.range info.totalPackets.toNat).map fun i =>
        (info.packets.lookup (UInt32.ofNat i)).getD []).flatten

/-- `HandlePacket`: the receiver afterwards, and the buffer that is handed to the callback, if it is
called. -/
def handlePacket (r : UdpReceiver) (available : ℕ) (data : Bytes) :
    UdpReceiver × Except Failure (Option Bytes) :=
  let header := PacketHeader.decode data
  if header.headerSignature ≠ 0x12345678 then (r, .ok none)
  else
    let groupInfo := (r.groups.lookup header.groupId).getD {}
    let groupInfo := groupInfo.store header (data.drop sizeofPacketHeader)
    let r := { r with groups := r.groups.insert header.groupId groupInfo }
    if r.isGroupComplete header.groupId > 0 then
      match r.mergeGroup available header.groupId with
      | .error e => (r, .error e)
      | .ok merged =>
          ({ r with groups := r.groups.erase header.groupId },
            .ok (if merged ≠ [] ∧ r.callback then some merged else none))
    else (r, .ok none)

/-- The size of `buffer_`. -/
def bufferSize : ℕ := 9250

/-- The handler of `DoReceive`: what does not fit `buffer_` is cut off, and what is too short for a
header is an error that is only printed.  There is memory for every buffer that a vector can be. -/
def doReceive (r : UdpReceiver) (datagram : Bytes) : UdpReceiver × Except Failure (Option Bytes) :=
  let data := datagram.take bufferSize
  if data.length ≥ sizeofPacketHeader then r.handlePacket vectorMaxSize data else (r, .ok none)

end UdpReceiver

/-- A receiver at work: what the callback got so far, and the exception that ended it. -/
structure Run where
  receiver : UdpReceiver := { callback := true }
  delivered : List Bytes := []
  failure : Option Failure := none

namespace Run

/-- One datagram arrives. -/
def step (run : Run) (datagram : Bytes) : Run :=
  match run.failure with
  | some _ => run
  | none =>
      match run.receiver.doReceive datagram with
      | (r, .ok none) => { run with receiver := r }
      | (r, .ok (some merged)) => { run with receiver := r, delivered := run.delivered ++ [merged] }
      | (r, .error e) => { run with receiver := r, failure := some e }

/-- The arrivals after `Receive` was given a callback. -/
def after (arrivals : List Bytes) : Run := arrivals.foldl step {}

@[simp] theorem after_nil : after [] = {} := rfl

@[simp] theorem after_concat (arrivals : List Bytes) (datagram : Bytes) :
    after (arrivals ++ [datagram]) = (after arrivals).step datagram := by
  rw [after, List.foldl_append]
  rfl

/-- What was handed over stays handed over. -/
theorem delivered_prefix (arrivals later : List Bytes) :
    (after arrivals).delivered <+: (after (arrivals ++ later)).delivered := by
  induction later using List.reverseRecOn with
  | nil => simp only [List.append_nil, List.prefix_rfl]
  | append_singleton later datagram ih =>
      rw [← List.append_assoc, after_concat]
      refine ih.trans ?_
      unfold step
      split
      · exact List.prefix_rfl
      · split
        · exact List.prefix_rfl
        · exact List.prefix_append _ _
        · exact List.prefix_rfl

end Run

/-! ### One packet -/

/-- As many packets as the header said, and each number below. -/
def GroupInfo.Complete (info : GroupInfo) : Prop :=
  info.packets.entries.length = info.totalPackets.toNat ∧
    ∀ i < info.totalPackets.toNat, UInt32.ofNat i ∈ info.packets

/-- The packets of a group, in the order of their numbers. -/
def GroupInfo.merged (info : GroupInfo) : Bytes :=
  ((List.range info.totalPackets.toNat).map fun i =>
    (info.packets.lookup (UInt32.ofNat i)).getD []).flatten

namespace UdpReceiver

variable (r : UdpReceiver) (groupId : UInt32) (info : GroupInfo)

theorem isGroupComplete_insert :
    { r with groups := r.groups.insert groupId info }.isGroupComplete groupId > 0 ↔
      info.Complete := by
  have hany : (List.range info.totalPackets.toNat).any (fun i =>
      (info.packets.lookup (UInt32.ofNat i)).isNone) = true ↔
      ¬ ∀ i < info.totalPackets.toNat, UInt32.ofNat i ∈ info.packets := by
    simp only [List.any_eq_true, List.mem_range, Option.isNone_iff_eq_none, AList.lookup_eq_none]
    push Not
    rfl
  simp only [isGroupComplete, AList.lookup_insert, GroupInfo.Complete]
  split_ifs with hlength hmissing
  · exact ⟨fun h => absurd h (by decide), fun h => absurd h.1 hlength⟩
  · exact ⟨fun h => absurd h (by decide), fun h => absurd h.2 (hany.1 hmissing)⟩
  · exact ⟨fun _ => ⟨not_not.1 hlength, not_not.1 fun h => hmissing (hany.2 h)⟩, fun _ => by decide⟩

/-- `reserve` provides a buffer of so many bytes. -/
def Reserves (available size : ℕ) : Prop := size ≤ vectorMaxSize ∧ size ≤ available

theorem mergeGroup_insert {available : ℕ} (h : Reserves available info.totalSize.toNat) :
    { r with groups := r.groups.insert groupId info }.mergeGroup available groupId =
      .ok info.merged := by
  simp only [mergeGroup, AList.lookup_insert, if_neg (not_lt.2 h.1), if_neg (not_lt.2 h.2)]
  rfl

theorem mergeGroup_insert_error {available : ℕ} (h : ¬ Reserves available info.totalSize.toNat) :
    ∃ e, { r with groups := r.groups.insert groupId info }.mergeGroup available groupId =
      .error e := by
  simp only [mergeGroup, AList.lookup_insert]
  split_ifs with hmax havailable
  · exact ⟨_, rfl⟩
  · exact ⟨_, rfl⟩
  · exact absurd ⟨not_lt.1 hmax, not_lt.1 havailable⟩ h

variable {r}

/-- The entry of the packet's group, with the packet in it. -/
def stored (r : UdpReceiver) (header : PacketHeader) (payload : Bytes) : GroupInfo :=
  ((r.groups.lookup header.groupId).getD {}).store header payload

variable {header : PacketHeader} (hsignature : header.headerSignature = 0x12345678)
  {payload : Bytes} {available : ℕ}
include hsignature

/-- **A packet that leaves its group incomplete is filed**, and the callback is not called. -/
theorem handlePacket_of_incomplete (h : ¬ (r.stored header payload).Complete) :
    r.handlePacket available (header.encode ++ payload) =
      ({ r with groups := r.groups.insert header.groupId (r.stored header payload) },
        .ok none) := by
  rw [handlePacket, PacketHeader.decode_encode, PacketHeader.drop_encode]
  dsimp only
  rw [if_neg (not_not.2 hsignature), if_neg]
  · rfl
  · exact fun hpos => h ((isGroupComplete_insert r header.groupId _).1 hpos)

/-- **A packet that completes its group goes to the callback with the others**, and the group is
forgotten. -/
theorem handlePacket_of_complete (h : (r.stored header payload).Complete)
    (hsize : Reserves available (r.stored header payload).totalSize.toNat) :
    r.handlePacket available (header.encode ++ payload) =
      ({ r with
          groups := (r.groups.insert header.groupId (r.stored header payload)).erase
            header.groupId },
        .ok (if (r.stored header payload).merged ≠ [] ∧ r.callback then
          some (r.stored header payload).merged else none)) := by
  rw [handlePacket, PacketHeader.decode_encode, PacketHeader.drop_encode]
  dsimp only
  rw [if_neg (not_not.2 hsignature), if_pos]
  · rw [show ((r.groups.lookup header.groupId).getD {}).store header payload =
      r.stored header payload from rfl, mergeGroup_insert r header.groupId _ hsize]
  · exact (isGroupComplete_insert r header.groupId _).2 h

/-- **A packet that completes a group of a size that cannot be reserved** is thrown at. -/
theorem handlePacket_of_overlong (h : (r.stored header payload).Complete)
    (hsize : ¬ Reserves available (r.stored header payload).totalSize.toNat) :
    ∃ e, r.handlePacket available (header.encode ++ payload) =
      ({ r with groups := r.groups.insert header.groupId (r.stored header payload) },
        .error e) := by
  obtain ⟨e, he⟩ := mergeGroup_insert_error r header.groupId _ hsize
  refine ⟨e, ?_⟩
  rw [handlePacket, PacketHeader.decode_encode, PacketHeader.drop_encode]
  dsimp only
  rw [if_neg (not_not.2 hsignature), if_pos]
  · rw [show ((r.groups.lookup header.groupId).getD {}).store header payload =
      r.stored header payload from rfl, he]
  · exact (isGroupComplete_insert r header.groupId _).2 h

end UdpReceiver

end Net
end BreUtils
