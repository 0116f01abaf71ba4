/-
# Datagrams from anyone

Nothing in the header of a datagram can be relied on, and `HandlePacket` relies on it: it
reserves as many bytes as `total_size` says, and hands over what the packets of the group
add up to, whatever `total_size` says.  Only the packets that complete a group do either.

So `HandlePacket` comes through a run of datagrams, and hands over nothing of another size than
announced, exactly if every group that a datagram completes has announced a size that `reserve` can
provide at that moment, and has been sent that many bytes (`survives_iff`).  What it hands over is
every packet of the group once (`length_merged`).
-/

import BreUtils.Lib.Transition
import BreUtils.Net.UdpReceiver

namespace BreUtils
namespace Net

open Lib

/-- A datagram that `DoReceive` passes on, and how long a buffer there is memory for when it is
handled. -/
structure Datagram where
  data : Bytes
  sizeof_le : sizeofPacketHeader ≤ data.length
  available : ℕ

/-- The bytes of the packets that a group has. -/
def GroupInfo.storedSize (info : GroupInfo) : ℕ :=
  (info.packets.entries.map fun e => e.2.length).sum

namespace UdpReceiver

/-- The entry of the datagram's group, with the packet in it. -/
def entry (r : UdpReceiver) (d : Datagram) : GroupInfo :=
  r.stored (PacketHeader.decode d.data) (d.data.drop sizeofPacketHeader)

/-- The receiver behind a datagram, unless `HandlePacket` throws. -/
def next (r : UdpReceiver) (d : Datagram) : Option UdpReceiver :=
  match r.handlePacket d.available d.data with
  | (r, .ok _) => some r
  | (_, .error _) => none

/-- `HandlePacket` does not throw, and what it hands over is as long as the group has announced. -/
def Sound (r : UdpReceiver) (d : Datagram) : Prop :=
  ∃ out, (r.handlePacket d.available d.data).2 = .ok out ∧
    ∀ merged ∈ out, merged.length = (r.entry d).totalSize.toNat

/-- If the datagram completes its group, the announced size can be reserved, and is that of the
packets if there are any. -/
def Admissible (r : UdpReceiver) (d : Datagram) : Prop :=
  (PacketHeader.decode d.data).headerSignature = 0x12345678 → (r.entry d).Complete →
    Reserves d.available (r.entry d).totalSize.toNat ∧
      ((r.entry d).packets.entries ≠ [] →
        (r.entry d).storedSize = (r.entry d).totalSize.toNat)

/-! ### Groups -/

/-- The numbers of the packets of a complete group. -/
theorem keys_perm {info : GroupInfo} (h : info.Complete) :
    ((List.range info.totalPackets.toNat).map UInt32.ofNat).Perm info.packets.keys := by
  obtain ⟨hlength, hmem⟩ := h
  have hnodup : ((List.range info.totalPackets.toNat).map UInt32.ofNat).Nodup := by
    refine List.Nodup.map_on (fun i hi j hj hij => ?_) List.nodup_range
    have hlt := info.totalPackets.toNat_lt
    rw [List.mem_range] at hi hj
    have htoNat := congrArg UInt32.toNat hij
    rwa [UInt32.toNat_ofNat', UInt32.toNat_ofNat', Nat.mod_eq_of_lt (by omega),
      Nat.mod_eq_of_lt (by omega)] at htoNat
  have hsub : (List.range info.totalPackets.toNat).map UInt32.ofNat ⊆ info.packets.keys := by
    intro k hk
    obtain ⟨i, hi, rfl⟩ := List.mem_map.1 hk
    exact hmem i (List.mem_range.1 hi)
  refine (List.subperm_of_subset hnodup hsub).perm_of_length_le ?_
  rw [List.length_map, List.length_range, AList.keys, List.keys, List.length_map, hlength]

/-- **Merging takes every packet once.** -/
theorem length_merged {info : GroupInfo} (h : info.Complete) :
    info.merged.length = info.storedSize := by
  have hkeys := ((keys_perm h).map fun k => ((info.packets.lookup k).getD []).length).sum_nat
  rw [List.map_map] at hkeys
  rw [GroupInfo.merged, List.length_flatten, List.map_map, GroupInfo.storedSize]
  refine hkeys.trans ?_
  rw [AList.keys, List.keys, List.map_map]
  refine congrArg List.sum (List.map_congr_left fun e he => ?_)
  have hlookup : info.packets.lookup e.1 = some e.2 := AList.mem_lookup_iff.2 he
  simp [hlookup]

/-- No group has an empty packet. -/
def NoEmpty (r : UdpReceiver) : Prop :=
  ∀ groupId info, r.groups.lookup groupId = some info →
    ∀ packetId payload, info.packets.lookup packetId = some payload → payload ≠ []

theorem packets_store (info : GroupInfo) (header : PacketHeader) (payload : Bytes) :
    (info.store header payload).packets =
      if payload.length > 0 then info.packets.insert header.packetId payload
      else info.packets := by
  unfold GroupInfo.store
  dsimp only
  split_ifs <;> rfl

/-- The packet that is filed is not empty either. -/
theorem NoEmpty.entry {r : UdpReceiver} (h : r.NoEmpty) (d : Datagram) {packetId : UInt32}
    {payload : Bytes} (hpayload : (r.entry d).packets.lookup packetId = some payload) :
    payload ≠ [] := by
  have hold (hlookup :
      ((r.groups.lookup (PacketHeader.decode d.data).groupId).getD {}).packets.lookup packetId =
        some payload) : payload ≠ [] := by
    cases hgroup : r.groups.lookup (PacketHeader.decode d.data).groupId with
    | none => simp [hgroup] at hlookup
    | some old => exact h _ old hgroup packetId payload (by simpa [hgroup] using hlookup)
  rw [UdpReceiver.entry, stored, packets_store] at hpayload
  split_ifs at hpayload with hlength
  · by_cases hid : packetId = (PacketHeader.decode d.data).packetId
    · rw [hid, AList.lookup_insert] at hpayload
      exact Option.some.inj hpayload ▸ List.length_pos_iff.1 hlength
    · rw [AList.lookup_insert_ne hid] at hpayload
      exact hold hpayload
  · exact hold hpayload

/-- A complete group with a packet is not merged into nothing. -/
theorem NoEmpty.merged_ne_nil {r : UdpReceiver} (h : r.NoEmpty) (d : Datagram)
    (hcomplete : (r.entry d).Complete) :
    (r.entry d).merged ≠ [] ↔ (r.entry d).packets.entries ≠ [] := by
  have hlength := length_merged hcomplete
  constructor
  · rintro hne hnil
    rw [GroupInfo.storedSize, hnil] at hlength
    exact hne (List.length_eq_zero_iff.1 hlength)
  · rintro hne hnil
    obtain ⟨⟨packetId, payload⟩, rest, hentries⟩ := List.exists_cons_of_ne_nil hne
    have hlookup : (r.entry d).packets.lookup packetId = some payload := by
      refine AList.mem_lookup_iff.2 ?_
      rw [hentries]
      exact List.mem_cons_self
    have hpayload := List.length_pos_iff.2 (h.entry d hlookup)
    rw [hnil, GroupInfo.storedSize, hentries, List.map_cons, List.sum_cons,
      List.length_nil] at hlength
    dsimp only at hlength
    omega

/-! ### Datagrams -/

/-- **What a datagram does.** -/
theorem handlePacket_cases (r : UdpReceiver) (d : Datagram) :
    ((PacketHeader.decode d.data).headerSignature ≠ 0x12345678 ∧
        r.handlePacket d.available d.data = (r, .ok none)) ∨
      ((PacketHeader.decode d.data).headerSignature = 0x12345678 ∧ ¬ (r.entry d).Complete ∧
        r.handlePacket d.available d.data =
          ({ r with groups := r.groups.insert (PacketHeader.decode d.data).groupId (r.entry d) },
            .ok none)) ∨
      ((PacketHeader.decode d.data).headerSignature = 0x12345678 ∧ (r.entry d).Complete ∧
        ¬ Reserves d.available (r.entry d).totalSize.toNat ∧
        ∃ r' e, r.handlePacket d.available d.data = (r', .error e)) ∨
      ((PacketHeader.decode d.data).headerSignature = 0x12345678 ∧ (r.entry d).Complete ∧
        Reserves d.available (r.entry d).totalSize.toNat ∧
        r.handlePacket d.available d.data =
          ({ r with
              groups := (r.groups.insert (PacketHeader.decode d.data).groupId (r.entry d)).erase
                (PacketHeader.decode d.data).groupId },
            .ok (if (r.entry d).merged ≠ [] ∧ r.callback then some (r.entry d).merged
              else none))) := by
  have hd := PacketHeader.encode_decode d.sizeof_le
  by_cases hsignature : (PacketHeader.decode d.data).headerSignature = 0x12345678
  · by_cases hcomplete : (r.entry d).Complete
    · by_cases hsize : Reserves d.available (r.entry d).totalSize.toNat
      · have hstep := handlePacket_of_complete hsignature hcomplete hsize
        rw [hd] at hstep
        exact .inr (.inr (.inr ⟨hsignature, hcomplete, hsize, hstep⟩))
      · obtain ⟨e, hstep⟩ := handlePacket_of_overlong hsignature hcomplete hsize
        rw [hd] at hstep
        exact .inr (.inr (.inl ⟨hsignature, hcomplete, hsize, _, e, hstep⟩))
    · have hstep : r.handlePacket d.available _ = _ :=
        handlePacket_of_incomplete hsignature hcomplete
      rw [hd] at hstep
      exact .inr (.inl ⟨hsignature, hcomplete, hstep⟩)
  · refine .inl ⟨hsignature, ?_⟩
    unfold handlePacket
    dsimp only
    rw [if_pos hsignature]

/-- The datagrams on which `HandlePacket` does well. -/
theorem sound_iff_admissible {r : UdpReceiver} (hcallback : r.callback = true) (hempty : r.NoEmpty)
    (d : Datagram) : r.Sound d ↔ r.Admissible d := by
  unfold Sound Admissible
  obtain ⟨hsignature, h⟩ | ⟨hsignature, hcomplete, h⟩ | ⟨hsignature, hcomplete, hsize, r', e, h⟩ |
    ⟨hsignature, hcomplete, hsize, h⟩ := r.handlePacket_cases d
  · simp [h, hsignature]
  · simp [h, hcomplete]
  · simp [h, hsignature, hcomplete, hsize]
  · have hmerged := hempty.merged_ne_nil d hcomplete
    simp only [h, hsignature, hcomplete, hsize, hcallback, and_true, true_and, forall_const,
      Except.ok.injEq, exists_eq_left', hmerged, ← length_merged hcomplete]
    split_ifs with hne
    · simp [hne]
    · simp [hne]

/-- A group whose packets are not empty is filed. -/
theorem NoEmpty.insert {r : UdpReceiver} (h : r.NoEmpty) (groupId : UInt32) {info : GroupInfo}
    (hinfo : ∀ packetId payload, info.packets.lookup packetId = some payload → payload ≠ []) :
    NoEmpty { r with groups := r.groups.insert groupId info } := by
  intro groupId' info' hinfo'
  by_cases hid : groupId' = groupId
  · rw [hid, AList.lookup_insert] at hinfo'
    exact Option.some.inj hinfo' ▸ hinfo
  · rw [AList.lookup_insert_ne hid] at hinfo'
    exact h groupId' info' hinfo'

/-- A group is dropped. -/
theorem NoEmpty.erase {r : UdpReceiver} (h : r.NoEmpty) (groupId : UInt32) :
    NoEmpty { r with groups := r.groups.erase groupId } := by
  intro groupId' info' hinfo'
  by_cases hid : groupId' = groupId
  · rw [hid, AList.lookup_erase] at hinfo'
    cases hinfo'
  · rw [AList.lookup_erase_ne hid] at hinfo'
    exact h groupId' info' hinfo'

/-- What holds between datagrams. -/
theorem next_invariant {r r' : UdpReceiver} (h : r.callback = true ∧ r.NoEmpty) {d : Datagram}
    (hnext : r.next d = some r') : r'.callback = true ∧ r'.NoEmpty := by
  obtain ⟨hcallback, hempty⟩ := h
  unfold next at hnext
  rcases r.handlePacket_cases d with ⟨-, h⟩ | ⟨-, -, h⟩ | ⟨-, -, -, r'', e, h⟩ | ⟨-, -, -, h⟩
  · rw [h] at hnext
    exact Option.some.inj hnext ▸ ⟨hcallback, hempty⟩
  · rw [h] at hnext
    obtain rfl := Option.some.inj hnext
    exact ⟨hcallback, hempty.insert _ fun _ _ => hempty.entry d⟩
  · rw [h] at hnext
    cases hnext
  · rw [h] at hnext
    obtain rfl := Option.some.inj hnext
    exact ⟨hcallback, (hempty.insert _ fun _ _ => hempty.entry d).erase _⟩

/-- **When `HandlePacket` survives.**  In a run of datagrams of at least the size of a header, with
any memory at each of them, every call returns and hands over nothing of another size than its group
has announced, if and only if every datagram that completes a group finds a size announced that
`reserve` provides then, and, if the group has any packet, packets of that size. -/
theorem survives_iff (ds : List Datagram) :
    Transition.Meets next Sound { callback := true } ds ↔
      Transition.Meets next Admissible { callback := true } ds :=
  Transition.meets_congr (I := fun r => r.callback = true ∧ r.NoEmpty)
    (fun _ _ _ hr hnext => next_invariant hr hnext) (fun _ d hr => sound_iff_admissible hr.1 hr.2 d)
    ⟨rfl, by simp [NoEmpty]⟩ ds

/-- A group without packets that announces more than a vector can have. -/
def overlong : PacketHeader := { groupId := 1, totalSize := UInt64.ofNat (2 ^ 64 - 1) }

/-- A group without packets that announces 16 TiB. -/
def unaffordable : PacketHeader := { groupId := 1, totalSize := UInt64.ofNat (2 ^ 44) }

/-- A group of one packet that announces too much for it. -/
def mismatched : PacketHeader := { groupId := 1, totalPackets := 1, totalSize := 5 }

theorem hostile :
    (({ callback := true } : UdpReceiver).handlePacket vectorMaxSize overlong.encode).2 =
        .error .lengthError ∧
      (({ callback := true } : UdpReceiver).handlePacket (2 ^ 43) unaffordable.encode).2 =
        .error .badAlloc ∧
      (({ callback := true } : UdpReceiver).handlePacket vectorMaxSize
        (mismatched.encode ++ [7])).2 = .ok (some [7]) ∧
      ¬ ∀ ds : List Datagram, Transition.Meets next Sound { callback := true } ds := by
  have hthrows : (({ callback := true } : UdpReceiver).handlePacket vectorMaxSize
      overlong.encode).2 = .error .lengthError := by decide +kernel
  have hrefused : (({ callback := true } : UdpReceiver).handlePacket (2 ^ 43)
      unaffordable.encode).2 = .error .badAlloc := by decide +kernel
  have hdelivers : (({ callback := true } : UdpReceiver).handlePacket vectorMaxSize
      (mismatched.encode ++ [7])).2 = .ok (some [7]) := by decide +kernel
  refine ⟨hthrows, hrefused, hdelivers, fun h => ?_⟩
  obtain ⟨out, hout, -⟩ := (h [⟨overlong.encode, by decide +kernel, vectorMaxSize⟩]).1
  rw [hthrows] at hout
  cases hout

end UdpReceiver

end Net
end BreUtils
