/-
# Datagrams that do not arrive

The network may lose datagrams and reorder them.  Of a payload of which every datagram arrives the
receiver makes one delivery; of a payload of which one is lost it makes none, and it never gives up
on it: the group stays in `m_groups` with the pieces that came (`delivered_of_loss`).  Nothing in
the receiver forgets a group but its completion, so each payload that loses a datagram, and not all
of them, costs an entry for good.
-/

import BreUtils.Net.UdpContract

namespace BreUtils
namespace Net

open Lib

/-! ### A datagram names its packet -/

/-- The group and the number of a packet are in its datagram. -/
theorem header_of_packet {g g' : UInt32} {data data' : Bytes} {i i' : ℕ}
    (h : packet g data i = packet g' data' i') :
    g = g' ∧ UInt32.ofNat i = UInt32.ofNat i' := by
  have hheader : headerOf g data i = headerOf g' data' i' := by
    have hdecode := congrArg PacketHeader.decode h
    rwa [packet, packet, PacketHeader.decode_encode, PacketHeader.decode_encode] at hdecode
  exact ⟨congrArg PacketHeader.groupId hheader, congrArg PacketHeader.packetId hheader⟩

section Loss

variable (s : UdpSender) {payloads arrivals : List Bytes}

theorem datagram_inj (hsmall : ∀ data ∈ payloads, totalPackets data.length < 2 ^ 32)
    (hcalls : payloads.length < 2 ^ 32) {a b : ℕ × ℕ}
    (ha : a ∈ packetsOf (payloadOf payloads) (List.range payloads.length))
    (hb : b ∈ packetsOf (payloadOf payloads) (List.range payloads.length))
    (h : datagram (payloadOf payloads) s.groupOf a = datagram (payloadOf payloads) s.groupOf b) :
    a = b := by
  obtain ⟨k, i⟩ := a
  obtain ⟨l, j⟩ := b
  obtain ⟨hk, hi⟩ := (mem_packetsOf _).1 ha
  obtain ⟨hl, hj⟩ := (mem_packetsOf _).1 hb
  have hk := List.mem_range.1 hk
  have hl := List.mem_range.1 hl
  obtain ⟨hgroup, hnumber⟩ := header_of_packet h
  obtain rfl : k = l := s.groupOf_injOn (hk.trans hcalls) (hl.trans hcalls) hgroup
  have hnumber := congrArg UInt32.toNat hnumber
  rw [toNat_packetId (hsmall _ (payloadOf_mem hk)) (Finset.mem_range.1 hi),
    toNat_packetId (hsmall _ (payloadOf_mem hk)) (Finset.mem_range.1 hj)] at hnumber
  exact congrArg (Prod.mk k) hnumber

/-! ### What arrived of a call -/

/-- The datagrams of the `k`th call of `Send`. -/
def datagramsOf (payloads : List Bytes) (k : ℕ) : List Bytes := (s.sendAll payloads).getD k []

/-- One of them arrived. -/
def Begun (payloads arrivals : List Bytes) (k : ℕ) : Prop :=
  ∃ d ∈ datagramsOf s payloads k, d ∈ arrivals

/-- All of them arrived. -/
def Received (payloads arrivals : List Bytes) (k : ℕ) : Prop :=
  ∀ d ∈ datagramsOf s payloads k, d ∈ arrivals

instance (payloads arrivals : List Bytes) (k : ℕ) : Decidable (Received s payloads arrivals k) :=
  inferInstanceAs (Decidable (∀ d ∈ datagramsOf s payloads k, d ∈ arrivals))

theorem datagramsOf_eq {k : ℕ} (hk : k < payloads.length) :
    datagramsOf s payloads k = (List.range (totalPackets (payloadOf payloads k).length)).map
      fun i => datagram (payloadOf payloads) s.groupOf (k, i) := by
  rw [datagramsOf, UdpSender.sendAll_eq, List.getD_eq_getElem _ _ (by simpa using hk),
    List.getElem_map, List.getElem_range]
  rfl

section History

variable {history : List (ℕ × ℕ)}
  (hsmall : ∀ data ∈ payloads, totalPackets data.length < 2 ^ 32)
  (hcalls : payloads.length < 2 ^ 32)
  (hhistory : ∀ a ∈ history, a ∈ packetsOf (payloadOf payloads) (List.range payloads.length))
include hsmall hcalls hhistory

/-- A datagram is among the arrivals if its packet is in the history. -/
theorem datagram_mem_iff {k i : ℕ} (hk : k < payloads.length)
    (hi : i ∈ need (payloadOf payloads) k) :
    datagram (payloadOf payloads) s.groupOf (k, i) ∈
        history.map (datagram (payloadOf payloads) s.groupOf) ↔ (k, i) ∈ history := by
  refine ⟨fun h => ?_, List.mem_map_of_mem⟩
  obtain ⟨a, ha, heq⟩ := List.mem_map.1 h
  have hki := (mem_packetsOf (payloadOf payloads)).2
    (show Collector.parts _ (List.range payloads.length) (k, i) from ⟨List.mem_range.2 hk, hi⟩)
  rwa [← datagram_inj s hsmall hcalls (hhistory a ha) hki heq]

theorem received_iff (hnonempty : ∀ data ∈ payloads, data ≠ []) {k : ℕ}
    (hk : k < payloads.length) :
    Received s payloads (history.map (datagram (payloadOf payloads) s.groupOf)) k ↔
      Collector.Arrived (need (payloadOf payloads)) history k := by
  have hpos := totalPackets_pos_iff.2 (hnonempty _ (payloadOf_mem hk))
  rw [Received, datagramsOf_eq s hk]
  constructor
  · refine fun h => ⟨⟨0, Finset.mem_range.2 hpos⟩, fun i hi => ?_⟩
    refine (datagram_mem_iff s hsmall hcalls hhistory hk hi).1 (h _ ?_)
    exact List.mem_map_of_mem (List.mem_range.2 (Finset.mem_range.1 hi))
  · rintro ⟨-, h⟩ d hd
    obtain ⟨i, hi, rfl⟩ := List.mem_map.1 hd
    exact List.mem_map_of_mem (h i (Finset.mem_range.2 (List.mem_range.1 hi)))

theorem begun_iff {k : ℕ} (hk : k < payloads.length) :
    Begun s payloads (history.map (datagram (payloadOf payloads) s.groupOf)) k ↔
      ∃ i, (k, i) ∈ history := by
  rw [Begun, datagramsOf_eq s hk]
  constructor
  · rintro ⟨d, hd, hmem⟩
    obtain ⟨i, hi, rfl⟩ := List.mem_map.1 hd
    have hi := Finset.mem_range.2 (List.mem_range.1 hi)
    exact ⟨i, (datagram_mem_iff s hsmall hcalls hhistory hk hi).1 hmem⟩
  · rintro ⟨i, hmem⟩
    obtain ⟨-, hi⟩ := (mem_packetsOf _).1 (hhistory _ hmem)
    refine ⟨_, List.mem_map_of_mem (List.mem_range.2 (Finset.mem_range.1 hi)), ?_⟩
    exact List.mem_map_of_mem hmem

omit hsmall hcalls in
theorem parts_of_mem {a : ℕ × ℕ} (ha : a ∈ history) :
    a.1 < payloads.length ∧ a.2 ∈ need (payloadOf payloads) a.1 := by
  obtain ⟨hcall, hneed⟩ := (mem_packetsOf _).1 (hhistory a ha)
  exact ⟨List.mem_range.1 hcall, hneed⟩

/-- The calls that are complete are those of which all datagrams arrived. -/
theorem complete_perm (hnonempty : ∀ data ∈ payloads, data ≠ []) (hnodup : history.Nodup) :
    (Collector.run (need (payloadOf payloads)) history).complete.Perm
      ((List.range payloads.length).filter fun k =>
        Received s payloads (history.map (datagram (payloadOf payloads) s.groupOf)) k) := by
  refine List.perm_iff_count.2 fun k => ?_
  rw [(List.nodup_range.filter _).count]
  simp only [List.mem_filter, List.mem_range, decide_eq_true_eq]
  rcases Collector.run_nodup hnodup (fun a ha => (parts_of_mem hhistory ha).2) k with
    ⟨harrived, -, hcount⟩ | ⟨hmissing, -, hcount⟩
  · obtain ⟨i, hi⟩ := harrived.1
    have hk := (parts_of_mem hhistory (harrived.2 i hi)).1
    rw [hcount, if_pos]
    exact ⟨hk, (received_iff s hsmall hcalls hhistory hnonempty hk).2 harrived⟩
  · rw [hcount, if_neg]
    exact fun hk => hmissing ((received_iff s hsmall hcalls hhistory hnonempty hk.1).1 hk.2)

/-- Something is held of those of which some arrived and not all. -/
theorem held_iff (hnonempty : ∀ data ∈ payloads, data ≠ []) (hnodup : history.Nodup) {k : ℕ} :
    (Collector.run (need (payloadOf payloads)) history).held k ≠ ∅ ↔
      k < payloads.length ∧
        Begun s payloads (history.map (datagram (payloadOf payloads) s.groupOf)) k ∧
        ¬ Received s payloads (history.map (datagram (payloadOf payloads) s.groupOf)) k := by
  have hreceived {k : ℕ} (hk : k < payloads.length) :=
    received_iff s hsmall hcalls hhistory hnonempty hk
  rcases Collector.run_nodup hnodup (fun a ha => (parts_of_mem hhistory ha).2) k with
    ⟨harrived, hempty, -⟩ | ⟨hmissing, hsome, -⟩
  · exact iff_of_false (not_not.2 hempty) fun hk => hk.2.2 ((hreceived hk.1).2 harrived)
  · rw [← Finset.nonempty_iff_ne_empty]
    constructor
    · rintro ⟨i, hi⟩
      have hmem := (hsome i).1 hi
      have hk := (parts_of_mem hhistory hmem).1
      exact ⟨hk, (begun_iff s hsmall hcalls hhistory hk).2 ⟨i, hmem⟩,
        fun hall => hmissing ((hreceived hk).1 hall)⟩
    · rintro ⟨hk, hbegun, -⟩
      obtain ⟨i, hi⟩ := (begun_iff s hsmall hcalls hhistory hk).1 hbegun
      exact ⟨i, (hsome i).2 hi⟩

end History

/-! ### The table of the receiver -/

/-- There is an entry for a group exactly as long as something is held of the one message of the
group. -/
theorem Represents.lookup_isSome_iff {M : Type*} {payload : M → Bytes} {groupId : M → UInt32}
    {r : UdpReceiver} {held : M → Finset ℕ} (h : Represents payload groupId r held)
    (hsmall : ∀ m, held m ≠ ∅ → totalPackets (payload m).length < 2 ^ 32)
    (hone : ∀ m m', held m ≠ ∅ → held m' ≠ ∅ → groupId m = groupId m' → m = m') (g : UInt32) :
    (r.groups.lookup g).isSome ↔ ∃ m, groupId m = g ∧ held m ≠ ∅ := by
  constructor
  · intro hsome
    by_contra hnone
    push Not at hnone
    rw [h.idle g hnone] at hsome
    exact absurd hsome (by simp)
  · rintro ⟨m, rfl, hm⟩
    have hholds := h.holds m fun m' hm' hgroup => by
      by_contra hheld
      exact hm' (hone m' m hheld hm hgroup)
    cases hlookup : r.groups.lookup (groupId m) with
    | some info => rfl
    | none =>
        -- no entry, no pieces
        rw [hlookup] at hholds
        exact absurd (Finset.card_eq_zero.1 (hholds.length_packets (hsmall m hm)).symm) hm

/-- **Loss and any order**: when each datagram of a sender arrives at most once, the callback gets
the payloads of which every datagram arrived, once each and unharmed, and no others; and
`m_groups` has an entry for exactly those of which some datagrams arrived and not all. -/
theorem delivered_of_loss (hnonempty : ∀ data ∈ payloads, data ≠ [])
    (hsmall : ∀ data ∈ payloads, totalPackets data.length < 2 ^ 32)
    (hcalls : payloads.length < 2 ^ 32)
    (h : arrivals.Subperm (s.sendAll payloads).flatten) :
    (Run.after arrivals).failure = none ∧
      (Run.after arrivals).delivered.Perm
        (((List.range payloads.length).filter fun k => Received s payloads arrivals k).map
          (payloadOf payloads)) ∧
      ∀ g, ((Run.after arrivals).receiver.groups.lookup g).isSome ↔
        ∃ k < payloads.length, s.groupOf k = g ∧ Begun s payloads arrivals k ∧
          ¬ Received s payloads arrivals k := by
  obtain ⟨sent, hperm, hsublist⟩ := h
  rw [flatten_sendAll] at hsublist
  obtain ⟨packets, hpackets, rfl⟩ := List.sublist_map_iff.1 hsublist
  obtain ⟨history, rfl, hhistory⟩ := exists_history_of_perm hperm.symm
  have hmem (a : ℕ × ℕ) (ha : a ∈ history) :
      a ∈ packetsOf (payloadOf payloads) (List.range payloads.length) :=
    hpackets.subset (hhistory.subset ha)
  have hparts (a : ℕ × ℕ) (ha : a ∈ history) := parts_of_mem hmem ha
  have hnodup : history.Nodup :=
    hhistory.nodup_iff.2 (hpackets.nodup (nodup_packetsOf _ List.nodup_range))
  obtain ⟨hfailure, hrepresents, hdelivered⟩ := run_simulates
    (fun a ha => hsmall _ (payloadOf_mem (hparts a ha).1)) (fun a ha => (hparts a ha).2)
    (exclusive_of_calls s hcalls fun a ha => (hparts a ha).1)
  have hheld {k : ℕ} := held_iff s hsmall hcalls hmem hnonempty hnodup (k := k)
  refine ⟨hfailure, ?_, fun g => ?_⟩
  · rw [hdelivered]
    exact (complete_perm s hsmall hcalls hmem hnonempty hnodup).map _
  · rw [hrepresents.lookup_isSome_iff]
    · refine exists_congr fun k => ?_
      rw [hheld]
      tauto
    · exact fun k hk => hsmall _ (payloadOf_mem (hheld.1 hk).1)
    · intro k l hk hl hgroup
      exact s.groupOf_injOn ((hheld.1 hk).1.trans hcalls) ((hheld.1 hl).1.trans hcalls) hgroup

/-- Three payloads, the second one in two datagrams. -/
def samplePayloads : List Bytes := [[7], twoPackets 9, [4, 5]]

/-- What arrives of them, without the first datagram of the second one. -/
def sampleArrivals : List Bytes := [packet 3 [4, 5] 0, packet 2 (twoPackets 9) 1, packet 1 [7] 0]

theorem flatten_sendAll_sample : (({} : UdpSender).sendAll samplePayloads).flatten =
    [packet 1 [7] 0, packet 2 (twoPackets 9) 0, packet 2 (twoPackets 9) 1, packet 3 [4, 5] 0] := by
  rw [flatten_sendAll]
  simp only [samplePayloads, packetsOf, List.length_cons, List.length_nil, List.range_succ,
    List.range_zero, List.nil_append, List.flatMap_cons, List.flatMap_nil, List.getD_cons_zero,
    List.getD_cons_succ, List.map_cons, List.map_nil, List.append_nil, List.cons_append, payloadOf,
    totalPackets_twoPackets]
  rfl

/-- The first and the third one arrive whole. -/
theorem received_sample : ((List.range samplePayloads.length).filter fun k =>
    Received {} samplePayloads sampleArrivals k) = [0, 2] := by
  have hfirst : Received {} samplePayloads sampleArrivals 0 := by
    have hone : totalPackets (payloadOf samplePayloads 0).length = 1 := by decide
    intro d hd
    rw [datagramsOf_eq {} (by decide), hone] at hd
    obtain rfl : d = packet 1 [7] 0 := List.mem_singleton.1 hd
    simp [sampleArrivals]
  have hsecond : ¬ Received {} samplePayloads sampleArrivals 1 := by
    intro h
    have hmem := h (packet 2 (twoPackets 9) 0) (by
      rw [datagramsOf_eq {} (by decide)]
      refine List.mem_map.2 ⟨0, List.mem_range.2 ?_, rfl⟩
      exact (totalPackets_twoPackets 9).symm ▸ Nat.two_pos)
    simp only [sampleArrivals, List.mem_cons, List.not_mem_nil, or_false] at hmem
    rcases hmem with heq | heq | heq
    · exact absurd (header_of_packet heq).1 (by decide)
    · exact absurd (header_of_packet heq).2 (by decide)
    · exact absurd (header_of_packet heq).1 (by decide)
  have hthird : Received {} samplePayloads sampleArrivals 2 := by
    have hone : totalPackets (payloadOf samplePayloads 2).length = 1 := by decide
    intro d hd
    rw [datagramsOf_eq {} (by decide), hone] at hd
    obtain rfl : d = packet 3 [4, 5] 0 := List.mem_singleton.1 hd
    simp [sampleArrivals]
  have hrange : List.range samplePayloads.length = [0, 1, 2] := rfl
  simp [hrange, hfirst, hsecond, hthird]

/-- The second one is not delivered, and its group keeps the piece that arrived. -/
theorem delivered_of_loss_sample :
    (Run.after sampleArrivals).delivered.Perm [[7], [4, 5]] ∧
      ((Run.after sampleArrivals).receiver.groups.lookup 2).isSome := by
  have hnonempty : ∀ data ∈ samplePayloads, data ≠ [] := by simp [samplePayloads, twoPackets]
  have hsmall : ∀ data ∈ samplePayloads, totalPackets data.length < 2 ^ 32 := by
    have hone : totalPackets 1 < 2 ^ 32 ∧ totalPackets 2 < 2 ^ 32 := by decide
    simpa [samplePayloads, totalPackets_twoPackets] using hone
  have hloss : sampleArrivals.Subperm (({} : UdpSender).sendAll samplePayloads).flatten := by
    rw [flatten_sendAll_sample]
    refine ⟨[packet 1 [7] 0, packet 2 (twoPackets 9) 1, packet 3 [4, 5] 0], ?_, by simp⟩
    exact List.reverse_perm sampleArrivals
  obtain ⟨-, hdelivered, hgroups⟩ :=
    delivered_of_loss {} hnonempty hsmall (by simp [samplePayloads]) hloss
  rw [received_sample] at hdelivered
  refine ⟨hdelivered, (hgroups 2).2 ⟨1, by simp [samplePayloads], rfl, ?_, ?_⟩⟩
  · refine ⟨packet 2 (twoPackets 9) 1, ?_, by simp [sampleArrivals]⟩
    rw [datagramsOf_eq {} (by decide)]
    refine List.mem_map.2 ⟨1, List.mem_range.2 ?_, rfl⟩
    exact (totalPackets_twoPackets 9).symm ▸ Nat.one_lt_two
  · intro hreceived
    have hmem : 1 ∈ (List.range samplePayloads.length).filter fun k =>
        Received {} samplePayloads sampleArrivals k :=
      List.mem_filter.2 ⟨by simp [samplePayloads], decide_eq_true hreceived⟩
    rw [received_sample] at hmem
    simp at hmem

end Loss

end Net
end BreUtils
