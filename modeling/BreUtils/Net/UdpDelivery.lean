/-
# From `Send` to the callback

Some messages, each a payload under a group id, are sent as packets; a history says which packet of
which message arrives, one after the other.  As long as a group id never serves two messages at a
time, the table of the receiver is a collector of packets: the entry of a group holds the packets
that have arrived of the one message under way (`Represents`), and a message is handed over when
the collector hands it over (`run_simulates`).
-/

import BreUtils.Lib.Collector
import BreUtils.Net.UdpReceiver
import BreUtils.Net.UdpSender
import Mathlib.Data.Finset.Card

namespace BreUtils
namespace Net

open Lib

/-! ### One group -/

/-- The entry of a group, of whose message the packets `held` have arrived. -/
structure Holds (info : GroupInfo) (data : Bytes) (held : Finset ℕ) : Prop where
  subset : held ⊆ Finset.range (totalPackets data.length)
  totals : info.totalPackets = 0 ∧ held = ∅ ∨
    info.totalPackets = UInt32.ofNat (totalPackets data.length) ∧
      info.totalSize = UInt64.ofNat data.length
  lookup (k : UInt32) : info.packets.lookup k =
    if k.toNat ∈ held then some (piece data k.toNat) else none

theorem holds_empty (data : Bytes) : Holds {} data ∅ where
  subset := Finset.empty_subset _
  totals := Or.inl ⟨rfl, rfl⟩
  lookup k := by rw [if_neg (Finset.notMem_empty _)]; rfl

section Group

variable {info : GroupInfo} {data : Bytes} {held : Finset ℕ}
  (hsmall : totalPackets data.length < 2 ^ 32)
include hsmall

theorem toNat_packetId {i : ℕ} (hi : i < totalPackets data.length) :
    (UInt32.ofNat i).toNat = i := by
  rw [UInt32.toNat_ofNat', Nat.mod_eq_of_lt (hi.trans hsmall)]

theorem toNat_totalPackets : (UInt32.ofNat (totalPackets data.length)).toNat =
    totalPackets data.length := by
  rw [UInt32.toNat_ofNat', Nat.mod_eq_of_lt hsmall]

/-- A packet is stored. -/
theorem Holds.store (h : Holds info data held) (groupId : UInt32) {i : ℕ}
    (hi : i < totalPackets data.length) :
    Holds (info.store (headerOf groupId data i) (piece data i)) data (insert i held) := by
  have hpiece : (piece data i).length > 0 := List.length_pos_iff.2 (piece_ne_nil hi)
  have hnonzero : UInt32.ofNat (totalPackets data.length) ≠ 0 := fun hzero => by
    have hnat := congrArg UInt32.toNat hzero
    rw [toNat_totalPackets hsmall, UInt32.toNat_zero] at hnat
    omega
  rw [GroupInfo.store, if_pos hpiece]
  refine ⟨Finset.insert_subset (Finset.mem_range.2 hi) h.subset, Or.inr ?_, fun k => ?_⟩
  · rcases h.totals with ⟨hzero, -⟩ | ⟨hpackets, hsize⟩
    · rw [if_pos hzero]
      exact ⟨rfl, rfl⟩
    · rw [if_neg (hpackets ▸ hnonzero)]
      exact ⟨hpackets, hsize⟩
  · have hpackets : (if info.totalPackets = 0 then
        { info with
          totalPackets := (headerOf groupId data i).totalPackets
          totalSize := (headerOf groupId data i).totalSize }
        else info).packets = info.packets := by
      split_ifs <;> rfl
    simp only [hpackets]
    by_cases hk : k = UInt32.ofNat i
    · subst hk
      rw [toNat_packetId hsmall hi, if_pos (Finset.mem_insert_self i held)]
      exact AList.lookup_insert _
    · have hki : k.toNat ≠ i := fun h => hk (by rw [← h, UInt32.ofNat_toNat])
      rw [show (headerOf groupId data i).packetId = UInt32.ofNat i from rfl,
        AList.lookup_insert_ne hk, h.lookup]
      simp only [Finset.mem_insert, hki, false_or]

variable (h : Holds info data held)
include h

theorem Holds.mem_iff {i : ℕ} (hi : i < totalPackets data.length) :
    UInt32.ofNat i ∈ info.packets ↔ i ∈ held := by
  rw [← AList.lookup_isSome, h.lookup, toNat_packetId hsmall hi]
  split_ifs with hheld <;> simp [hheld]

/-- An entry has as many packets as are held. -/
theorem Holds.length_packets : info.packets.entries.length = held.card := by
  have hnodup : (info.packets.keys.map UInt32.toNat).Nodup :=
    info.packets.keys_nodup.map fun a b => UInt32.toNat_inj.1
  have hkeys (k : UInt32) : k ∈ info.packets.keys ↔ k.toNat ∈ held := by
    rw [← AList.mem_keys, ← AList.lookup_isSome, h.lookup]
    split_ifs with hheld <;> simp [hheld]
  have hheld : (info.packets.keys.map UInt32.toNat).toFinset = held := by
    ext i
    rw [List.mem_toFinset, List.mem_map]
    constructor
    · rintro ⟨k, hk, rfl⟩
      exact (hkeys k).1 hk
    · intro hi
      have hlt := Finset.mem_range.1 (h.subset hi)
      exact ⟨UInt32.ofNat i, (hkeys _).2 (by rwa [toNat_packetId hsmall hlt]),
        toNat_packetId hsmall hlt⟩
  rw [← hheld, List.toFinset_card_of_nodup hnodup, List.length_map, AList.keys, List.keys,
    List.length_map]

/-- **A group is complete when all its packets are held.** -/
theorem Holds.complete_iff (hheld : held ≠ ∅) :
    info.Complete ↔ held = Finset.range (totalPackets data.length) := by
  obtain ⟨hpackets, -⟩ := h.totals.resolve_left fun h => hheld h.2
  rw [GroupInfo.Complete, hpackets, toNat_totalPackets hsmall, h.length_packets hsmall]
  constructor
  · rintro ⟨-, hall⟩
    refine h.subset.antisymm fun i hi => ?_
    exact (h.mem_iff hsmall (Finset.mem_range.1 hi)).1 (hall i (Finset.mem_range.1 hi))
  · rintro rfl
    refine ⟨Finset.card_range _, fun i hi => ?_⟩
    exact (h.mem_iff hsmall hi).2 (Finset.mem_range.2 hi)

/-- **A complete group merges to the payload**, and `reserve` does not throw. -/
theorem Holds.merged_eq (hheld : held = Finset.range (totalPackets data.length)) (hne : held ≠ ∅) :
    info.merged = data ∧
      UdpReceiver.Reserves vectorMaxSize info.totalSize.toNat := by
  obtain ⟨hpackets, hsize⟩ := h.totals.resolve_left fun h => hne h.2
  constructor
  · rw [GroupInfo.merged, hpackets, toNat_totalPackets hsmall]
    refine Eq.trans (congrArg List.flatten (List.map_congr_left fun i hi => ?_))
      (flatten_pieces data)
    have hlt := List.mem_range.1 hi
    rw [h.lookup, toNat_packetId hsmall hlt, if_pos (hheld ▸ Finset.mem_range.2 hlt),
      Option.getD_some]
  · have hlength := length_le_of_totalPackets_lt hsmall
    have hmax : info.totalSize.toNat ≤ vectorMaxSize := by
      rw [hsize, UInt64.toNat_ofNat']
      simp only [maxPayloadSize, sizeofPacketHeader, vectorMaxSize] at hlength ⊢
      omega
    exact ⟨hmax, hmax⟩

end Group

/-! ### The table -/

theorem length_packet_le (groupId : UInt32) (data : Bytes) (i : ℕ) :
    (packet groupId data i).length ≤ UdpReceiver.bufferSize := by
  have hpiece := length_piece_le data i
  rw [packet, List.length_append, PacketHeader.length_encode]
  simp only [maxPayloadSize, sizeofPacketHeader, UdpReceiver.bufferSize] at hpiece ⊢
  omega

/-- The buffer of the receiver has room for every packet. -/
theorem doReceive_packet (r : UdpReceiver) (groupId : UInt32) (data : Bytes) (i : ℕ) :
    r.doReceive (packet groupId data i) =
      r.handlePacket vectorMaxSize (packet groupId data i) := by
  have hheader : (packet groupId data i).length ≥ sizeofPacketHeader := by
    rw [packet, List.length_append, PacketHeader.length_encode]
    exact Nat.le_add_right _ _
  simp only [UdpReceiver.doReceive, List.take_of_length_le (length_packet_le groupId data i),
    if_pos hheader]

variable {M : Type*} (payload : M → Bytes) (groupId : M → UInt32)

/-- The numbers of the packets of a message. -/
def need (m : M) : Finset ℕ := Finset.range (totalPackets (payload m).length)

/-- The packet that arrives. -/
def datagram (a : M × ℕ) : Bytes := packet (groupId a.1) (payload a.1) a.2

/-- The receiver has an entry for the groups under way, which holds the packets of the one message
under way. -/
structure Represents (r : UdpReceiver) (held : M → Finset ℕ) : Prop where
  callback : r.callback = true
  holds (m : M) (hfree : ∀ m', m' ≠ m → groupId m' = groupId m → held m' = ∅) :
    Holds ((r.groups.lookup (groupId m)).getD {}) (payload m) (held m)
  idle (g : UInt32) (hidle : ∀ m, groupId m = g → held m = ∅) : r.groups.lookup g = none

variable {payload groupId}

theorem represents_empty : Represents payload groupId { callback := true } fun _ => ∅ where
  callback := rfl
  holds m _ := holds_empty (payload m)
  idle _ _ := rfl

/-- A receiver that holds nothing has no groups. -/
theorem Represents.groups_eq_empty {r : UdpReceiver} {held : M → Finset ℕ}
    (h : Represents payload groupId r held) (hheld : ∀ m, held m = ∅) : r.groups = ∅ := by
  have hlookup (g : UInt32) : g ∉ r.groups :=
    AList.lookup_eq_none.1 (h.idle g fun m _ => hheld m)
  refine AList.ext (List.eq_nil_iff_forall_not_mem.2 fun e he => hlookup e.1 ?_)
  exact List.mem_map_of_mem he

variable [DecidableEq M]

/-- What changes when a packet of `m` arrives: the entry of its group, and what is held of `m`. -/
theorem Represents.update {r r' : UdpReceiver} {held held' : M → Finset ℕ} {m : M}
    (h : Represents payload groupId r held) (hcallback : r'.callback = r.callback)
    (hfree : ∀ m', m' ≠ m → groupId m' = groupId m → held m' = ∅)
    (hgroups : ∀ g, g ≠ groupId m → r'.groups.lookup g = r.groups.lookup g)
    (hheld : ∀ m', m' ≠ m → held' m' = held m')
    (hentry : r'.groups.lookup (groupId m) = none ∧ held' m = ∅ ∨
      ∃ info, r'.groups.lookup (groupId m) = some info ∧ held' m ≠ ∅ ∧
        Holds info (payload m) (held' m)) :
    Represents payload groupId r' held' := by
  have hother {m' : M} (hm' : groupId m' ≠ groupId m) : held' m' = held m' :=
    hheld m' fun heq => hm' (heq ▸ rfl)
  refine ⟨hcallback.trans h.callback, fun m' hfree' => ?_, fun g hidle => ?_⟩
  · by_cases hslot : groupId m' = groupId m
    · by_cases hm' : m' = m
      · subst hm'
        rcases hentry with ⟨hnone, hempty⟩ | ⟨info, hsome, -, hholds⟩
        · rw [hnone, hempty]
          exact holds_empty _
        · rw [hsome]
          exact hholds
      · -- the slot serves no other message than `m`
        have hempty := hfree' m (Ne.symm hm') hslot.symm
        rcases hentry with ⟨hnone, -⟩ | ⟨-, -, hne, -⟩
        · rw [hslot, hnone, hheld m' hm', hfree m' hm' hslot]
          exact holds_empty _
        · exact absurd hempty hne
    · rw [hgroups _ hslot, hother hslot]
      refine h.holds m' fun m'' hm'' hgroup => ?_
      rw [← hother (hgroup ▸ hslot)]
      exact hfree' m'' hm'' hgroup
  · by_cases hg : g = groupId m
    · subst hg
      rcases hentry with ⟨hnone, -⟩ | ⟨-, -, hne, -⟩
      · exact hnone
      · exact absurd (hidle m rfl) hne
    · rw [hgroups g hg]
      refine h.idle g fun m' hm' => ?_
      rw [← hother (hm' ▸ hg)]
      exact hidle m' hm'

/-- **One packet**: the callback is called when the collector hands its message over, with the
payload. -/
theorem Represents.step {r : UdpReceiver} {p : Collector.Progress M ℕ} {m : M} {i : ℕ}
    (h : Represents payload groupId r p.held) (hi : i ∈ need payload m)
    (hsmall : totalPackets (payload m).length < 2 ^ 32)
    (hfree : ∀ m', m' ≠ m → groupId m' = groupId m → p.held m' = ∅) :
    ∃ r', Represents payload groupId r' (Collector.step (need payload) p (m, i)).held ∧
      r.doReceive (datagram payload groupId (m, i)) =
        (r', .ok (if insert i (p.held m) = need payload m then some (payload m) else none)) := by
  have hlt := Finset.mem_range.1 hi
  have hne : insert i (p.held m) ≠ ∅ := Finset.insert_ne_empty i _
  have hnil : payload m ≠ [] := totalPackets_pos_iff.1 (by omega)
  have hstored : Holds (r.stored (headerOf (groupId m) (payload m) i) (piece (payload m) i))
      (payload m) (insert i (p.held m)) :=
    (h.holds m hfree).store hsmall (groupId m) hlt
  have hcomplete := hstored.complete_iff hsmall hne
  have hother : ∀ m', m' ≠ m → (Collector.step (need payload) p (m, i)).held m' = p.held m' :=
    fun m' hm' => (Collector.step_ne _ p i hm').1
  rw [datagram, doReceive_packet, packet]
  by_cases hwhole : insert i (p.held m) = need payload m
  · obtain ⟨hmerged, hsize⟩ := hstored.merged_eq hsmall hwhole hne
    rw [UdpReceiver.handlePacket_of_complete rfl (hcomplete.2 hwhole) hsize, hmerged, if_pos hwhole,
      if_pos ⟨hnil, h.callback⟩]
    refine ⟨_, ?_, rfl⟩
    refine h.update rfl hfree (fun g hg => ?_) hother (Or.inl ⟨AList.lookup_erase _ _, ?_⟩)
    · exact (AList.lookup_erase_ne hg).trans (AList.lookup_insert_ne hg)
    · exact (Collector.step_whole hwhole).1
  · rw [UdpReceiver.handlePacket_of_incomplete rfl fun h => hwhole (hcomplete.1 h), if_neg hwhole]
    refine ⟨_, ?_, rfl⟩
    refine h.update rfl hfree (fun g hg => AList.lookup_insert_ne hg) hother
      (Or.inr ⟨_, AList.lookup_insert _, ?_⟩)
    rw [(Collector.step_part hwhole).1]
    exact ⟨hne, hstored⟩

/-- **The receiver is a collector of packets**, in every history in which a group serves one message
at a time. -/
theorem run_simulates {history : List (M × ℕ)}
    (hsmall : ∀ a ∈ history, totalPackets (payload a.1).length < 2 ^ 32)
    (hneed : ∀ a ∈ history, a.2 ∈ need payload a.1)
    (hexclusive : Collector.Exclusive (need payload) groupId history) :
    (Run.after (history.map (datagram payload groupId))).failure = none ∧
      Represents payload groupId (Run.after (history.map (datagram payload groupId))).receiver
        (Collector.run (need payload) history).held ∧
      (Run.after (history.map (datagram payload groupId))).delivered =
        (Collector.run (need payload) history).complete.map payload := by
  induction history using List.reverseRecOn with
  | nil => exact ⟨rfl, represents_empty, rfl⟩
  | append_singleton history a ih =>
      obtain ⟨m, i⟩ := a
      obtain ⟨hfailure, hrepresents, hdelivered⟩ := ih
        (fun a ha => hsmall a (List.mem_append_left _ ha))
        (fun a ha => hneed a (List.mem_append_left _ ha)) hexclusive.of_concat
      obtain ⟨r', hr', hstep⟩ := hrepresents.step (hneed (m, i) (by simp)) (hsmall (m, i) (by simp))
        (hexclusive history m i [] rfl)
      rw [List.map_append, List.map_singleton, Run.after_concat, Collector.run_concat, Run.step,
        hfailure]
      dsimp only
      rw [hstep]
      by_cases hwhole : insert i ((Collector.run (need payload) history).held m) = need payload m
      · rw [if_pos hwhole, (Collector.step_whole hwhole).2, List.map_append, ← hdelivered]
        exact ⟨rfl, hr', rfl⟩
      · rw [if_neg hwhole, (Collector.step_part hwhole).2, ← hdelivered]
        exact ⟨rfl, hr', rfl⟩

/-- **Every packet once, every payload once**: when the history has each packet of some messages
once, and a group serves one message at a time. -/
theorem run_once {history : List (M × ℕ)} {messages : List M}
    (hsmall : ∀ m ∈ messages, totalPackets (payload m).length < 2 ^ 32)
    (hnonempty : ∀ m ∈ messages, payload m ≠ []) (hmessages : messages.Nodup)
    (hnodup : history.Nodup)
    (hparts : ∀ a, a ∈ history ↔ Collector.parts (need payload) messages a)
    (hexclusive : Collector.Exclusive (need payload) groupId history) :
    (Run.after (history.map (datagram payload groupId))).failure = none ∧
      (Run.after (history.map (datagram payload groupId))).delivered.Perm (messages.map payload) ∧
      (Run.after (history.map (datagram payload groupId))).receiver.groups = ∅ := by
  obtain ⟨hfailure, hrepresents, hdelivered⟩ := run_simulates
    (fun a ha => hsmall a.1 ((hparts a).1 ha).1) (fun a ha => ((hparts a).1 ha).2) hexclusive
  refine ⟨hfailure, ?_, hrepresents.groups_eq_empty (Collector.nothing_held hnodup hparts)⟩
  rw [hdelivered]
  refine (Collector.once hnodup hparts hmessages fun m hm => ?_).map payload
  exact ⟨0, Finset.mem_range.2 (totalPackets_pos_iff.2 (hnonempty m hm))⟩

end Net
end BreUtils
