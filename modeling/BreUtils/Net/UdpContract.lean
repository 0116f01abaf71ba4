/-
# What the UDP classes promise

One sender numbers its calls of `Send`, so a group id stands for one payload, and every order of
its datagrams, each arriving once, brings every payload to the callback once (`delivered_once`).
The receiver does not remember a group that it has handed over.  A payload of which every datagram
arrives again is handed over again, and no more often than that (`delivered_le_arrivals`).

Two senders number their calls alike, and a group id no longer stands for one payload.  Payloads
come through as long as no datagram of one falls between two datagrams of another with its group id
(`senders_isolated`); where one does, the callback gets a mixture of both (`after_mixed`).
-/

import BreUtils.Net.UdpDelivery
import Mathlib.Data.List.GetD

namespace BreUtils
namespace Net

open Lib

/-! ### Datagrams and the packets they are -/

section Packets

variable {M : Type*} (payload : M → Bytes) (groupId : M → UInt32)

/-- The packets of some messages. -/
def packetsOf (messages : List M) : List (M × ℕ) :=
  messages.flatMap fun m => (List.range (totalPackets (payload m).length)).map fun i => (m, i)

theorem mem_packetsOf {messages : List M} {a : M × ℕ} :
    a ∈ packetsOf payload messages ↔ Collector.parts (need payload) messages a := by
  obtain ⟨m, i⟩ := a
  simp [packetsOf, Collector.parts, need]

/-- The pairs of something and a member of its list. -/
theorem nodup_pairs {α β : Type*} {as : List α} (h : as.Nodup) {f : α → List β}
    (hf : ∀ a, (f a).Nodup) : (as.flatMap fun a => (f a).map fun b => (a, b)).Nodup := by
  refine List.nodup_flatMap.2 ⟨fun a _ => (hf a).map fun b b' h => congrArg Prod.snd h, ?_⟩
  refine h.imp fun {a a'} hne => List.disjoint_left.2 ?_
  rintro e he he'
  obtain ⟨b, -, rfl⟩ := List.mem_map.1 he
  obtain ⟨b', -, h⟩ := List.mem_map.1 he'
  exact hne (congrArg Prod.fst h).symm

theorem nodup_packetsOf {messages : List M} (h : messages.Nodup) :
    (packetsOf payload messages).Nodup :=
  nodup_pairs h fun _ => List.nodup_range

variable {payload groupId}

/-- Arrivals in any order are packets in some order. -/
theorem exists_history_of_perm {α β : Type*} {f : α → β} {arrivals : List β} {packets : List α}
    (h : arrivals.Perm (packets.map f)) :
    ∃ history : List α, arrivals = history.map f ∧ history.Perm packets := by
  obtain ⟨history, heq, hperm⟩ :=
    (congrFun₂ (List.eq_map_comp_perm f) arrivals packets).mpr h
  exact ⟨history, heq, hperm⟩

/-- Arrivals that were sent are packets, with what is lost left out and what is duplicated
repeated. -/
theorem exists_history_of_mem {α β : Type*} {f : α → β} {arrivals : List β} {packets : List α}
    (h : ∀ d ∈ arrivals, d ∈ packets.map f) :
    ∃ history : List α, arrivals = history.map f ∧ ∀ a ∈ history, a ∈ packets := by
  induction arrivals with
  | nil => exact ⟨[], rfl, fun a ha => absurd ha List.not_mem_nil⟩
  | cons d arrivals ih =>
      obtain ⟨a, ha, rfl⟩ := List.mem_map.1 (h d (List.mem_cons_self ..))
      obtain ⟨history, rfl, hhistory⟩ := ih fun d hd => h d (List.mem_cons_of_mem _ hd)
      exact ⟨a :: history, rfl, List.forall_mem_cons.2 ⟨ha, hhistory⟩⟩

end Packets

/-! ### One sender -/

section OneSender

variable (s : UdpSender) {payloads arrivals : List Bytes}

/-- The payload of the `k`th call. -/
def payloadOf (payloads : List Bytes) (k : ℕ) : Bytes := payloads.getD k []

theorem payloadOf_mem {k : ℕ} (h : k < payloads.length) : payloadOf payloads k ∈ payloads := by
  rw [payloadOf, List.getD_eq_getElem _ _ h]
  exact List.getElem_mem h

theorem map_payloadOf (payloads : List Bytes) :
    (List.range payloads.length).map (payloadOf payloads) = payloads := by
  refine List.ext_getElem (by simp) fun k hk hk' => ?_
  rw [List.getElem_map, List.getElem_range, payloadOf, List.getD_eq_getElem _ _ hk']

theorem flatten_sendAll (payloads : List Bytes) :
    (s.sendAll payloads).flatten =
      (packetsOf (payloadOf payloads) (List.range payloads.length)).map
        (datagram (payloadOf payloads) s.groupOf) := by
  rw [UdpSender.sendAll_eq, packetsOf, List.map_flatMap, ← List.flatMap_def]
  simp only [List.map_map]
  rfl

/-- Fewer than `2 ^ 32` calls never share a group. -/
theorem exclusive_of_calls (hcalls : payloads.length < 2 ^ 32) {history : List (ℕ × ℕ)}
    (h : ∀ a ∈ history, a.1 < payloads.length) :
    Collector.Exclusive (need (payloadOf payloads)) s.groupOf history :=
  Collector.exclusive_of_injOn fun a ha b hb hab =>
    s.groupOf_injOn ((h a ha).trans hcalls) ((h b hb).trans hcalls) hab

/-- **Split and merge**: when every datagram of one sender arrives once, in whatever order, every
payload is handed to the callback once, and the receiver is as it was. -/
theorem delivered_once (hnonempty : ∀ data ∈ payloads, data ≠ [])
    (hsmall : ∀ data ∈ payloads, totalPackets data.length < 2 ^ 32)
    (hcalls : payloads.length < 2 ^ 32)
    (h : arrivals.Perm (s.sendAll payloads).flatten) :
    (Run.after arrivals).failure = none ∧
      (Run.after arrivals).delivered.Perm payloads ∧
      (Run.after arrivals).receiver.groups = ∅ := by
  rw [flatten_sendAll] at h
  obtain ⟨history, rfl, hhistory⟩ := exists_history_of_perm h
  have hparts (a : ℕ × ℕ) : a ∈ history ↔
      Collector.parts (need (payloadOf payloads)) (List.range payloads.length) a :=
    hhistory.mem_iff.trans (mem_packetsOf _)
  have hcall {k : ℕ} (hk : k ∈ List.range payloads.length) : payloadOf payloads k ∈ payloads :=
    payloadOf_mem (List.mem_range.1 hk)
  have hrun := run_once (fun k hk => hsmall _ (hcall hk)) (fun k hk => hnonempty _ (hcall hk))
    List.nodup_range (hhistory.nodup_iff.2 (nodup_packetsOf _ List.nodup_range)) hparts
    (exclusive_of_calls s hcalls fun a ha => List.mem_range.1 ((hparts a).1 ha).1)
  rwa [map_payloadOf] at hrun

/-- A payload of one byte more than a packet has room for. -/
def twoPackets (b : UInt8) : Bytes := List.replicate (maxPayloadSize + 1) b

theorem totalPackets_twoPackets (b : UInt8) : totalPackets (twoPackets b).length = 2 := by
  rw [twoPackets, List.length_replicate]
  decide

/-- A payload in two pieces, and one in one piece, whose datagrams arrive the last one first. -/
theorem delivered_once_sample :
    (Run.after (({} : UdpSender).sendAll [twoPackets 7, [8]]).flatten.reverse).delivered.Perm
      [twoPackets 7, [8]] := by
  have hnonempty : ∀ data ∈ [twoPackets 7, [8]], data ≠ [] := by simp [twoPackets]
  have hsmall : ∀ data ∈ [twoPackets 7, [8]], totalPackets data.length < 2 ^ 32 := by
    intro data hdata
    rcases List.mem_pair.1 hdata with rfl | rfl
    · rw [totalPackets_twoPackets]
      decide
    · decide
  exact (delivered_once {} hnonempty hsmall (by simp) (List.reverse_perm _)).2.1

/-- **Loss, duplicates and any order**: what is handed over is the payload of a call, and a call is
handed over at most as often as each of its datagrams arrives. -/
theorem delivered_le_arrivals (hsmall : ∀ data ∈ payloads, totalPackets data.length < 2 ^ 32)
    (hcalls : payloads.length < 2 ^ 32)
    (h : ∀ d ∈ arrivals, d ∈ (s.sendAll payloads).flatten) :
    (Run.after arrivals).failure = none ∧
      ∃ calls : List (Fin payloads.length),
        (Run.after arrivals).delivered = calls.map payloads.get ∧
        ∀ k : Fin payloads.length, ∀ d ∈ (s.sendAll payloads).getD k [],
          calls.count k ≤ arrivals.count d := by
  rw [flatten_sendAll] at h
  obtain ⟨history, rfl, hhistory⟩ := exists_history_of_mem h
  have hparts (a : ℕ × ℕ) (ha : a ∈ history) :
      a.1 < payloads.length ∧ a.2 ∈ need (payloadOf payloads) a.1 := by
    obtain ⟨hcall, hneed⟩ := (mem_packetsOf _).1 (hhistory a ha)
    exact ⟨List.mem_range.1 hcall, hneed⟩
  obtain ⟨hfailure, -, hdelivered⟩ := run_simulates
    (fun a ha => hsmall _ (payloadOf_mem (hparts a ha).1)) (fun a ha => (hparts a ha).2)
    (exclusive_of_calls s hcalls fun a ha => (hparts a ha).1)
  obtain ⟨calls, hcomplete, -⟩ : ∃ calls : List (Fin payloads.length),
      (Collector.run (need (payloadOf payloads)) history).complete = calls.map Fin.val ∧
        ∀ k ∈ calls, k ∈ List.finRange payloads.length := by
    refine exists_history_of_mem fun k hk => ?_
    obtain ⟨i, hi⟩ := Collector.mem_of_complete hk
    exact List.mem_map.2 ⟨⟨k, (hparts _ hi).1⟩, List.mem_finRange _, rfl⟩
  refine ⟨hfailure, calls, ?_, fun k d hd => ?_⟩
  · rw [hdelivered, hcomplete, List.map_map]
    refine List.map_congr_left fun k _ => ?_
    exact List.getD_eq_getElem _ _ k.isLt
  · rw [UdpSender.sendAll_eq, List.getD_eq_getElem _ _ (by simp), List.getElem_map,
      List.getElem_range] at hd
    obtain ⟨i, hi, rfl⟩ := List.mem_map.1 hd
    have hi : i ∈ need (payloadOf payloads) k.val := Finset.mem_range.2 (List.mem_range.1 hi)
    calc calls.count k
        ≤ (calls.map Fin.val).count k.val := List.count_le_count_map
      _ = (Collector.run (need (payloadOf payloads)) history).complete.count k.val := by
          rw [hcomplete]
      _ ≤ history.count (k.val, i) := le_of_add_le_left (Collector.count_le history hi)
      _ ≤ (history.map (datagram (payloadOf payloads) s.groupOf)).count
            (datagram (payloadOf payloads) s.groupOf (k.val, i)) := List.count_le_count_map

/-- Two calls, of which every datagram arrives twice. -/
theorem delivered_le_arrivals_sample : ∃ calls : List (Fin 2),
    (Run.after ((({} : UdpSender).sendAll [[7], [8, 9]]).flatten ++
      (({} : UdpSender).sendAll [[7], [8, 9]]).flatten)).delivered =
        calls.map [[7], [8, 9]].get := by
  obtain ⟨calls, hcalls, -⟩ := (@delivered_le_arrivals {} [[7], [8, 9]] _ (by decide)
    (by decide) fun d hd => (List.mem_append.1 hd).elim (fun h => h) fun h => h).2
  exact ⟨calls, hcalls⟩

end OneSender

/-! ### Groups that are not told apart -/

/-- One packet, its datagram doubled: the payload is handed over twice. -/
theorem delivered_twice : ¬ ∀ payloads arrivals : List Bytes,
    (∀ d ∈ arrivals, d ∈ (({} : UdpSender).sendAll payloads).flatten) →
    (∀ data ∈ (Run.after arrivals).delivered, data ∈ payloads) ∧
      ∀ data, (Run.after arrivals).delivered.count data ≤ payloads.count data := by
  intro h
  have hsent : (({} : UdpSender).sendAll [[7]]).flatten = [packet 1 [7] 0] := by
    rw [flatten_sendAll]
    decide
  have htwice := (h [[7]] [packet 1 [7] 0, packet 1 [7] 0] (by rw [hsent]; decide)).2 [7]
  exact absurd htwice (by decide +kernel)

/-- The beginning of `z` and the rest of `x`. -/
def mixture (z x : Bytes) : Bytes := z.take maxPayloadSize ++ x.drop maxPayloadSize

section Mixture

variable (g : UInt32) {x z : Bytes} (hlength : x.length = z.length)
include hlength

theorem length_mixture : (mixture z x).length = x.length := by
  rw [mixture, List.length_append, List.length_take, List.length_drop]
  omega

/-- Between payloads of one length and one group, the packets of a mixture are packets of them: the
receiver cannot tell. -/
theorem packet_mixture (hlt : maxPayloadSize < x.length) :
    packet g (mixture z x) 0 = packet g z 0 ∧ packet g (mixture z x) 1 = packet g x 1 := by
  have htake : (z.take maxPayloadSize).length = maxPayloadSize := by
    rw [List.length_take]
    omega
  have hzero : piece (mixture z x) 0 = piece z 0 := by
    rw [piece, piece, mixture, Nat.zero_mul, List.drop_zero, List.drop_zero, List.take_left' htake]
  have hone : piece (mixture z x) 1 = piece x 1 := by
    rw [piece, piece, mixture, Nat.one_mul, List.drop_left' htake]
  rw [packet, packet, packet, packet, hzero, hone, headerOf, headerOf, headerOf, headerOf,
    length_mixture hlength, hlength]
  exact ⟨rfl, rfl⟩

/-- **A group that serves two payloads mixes them**: the end of one arrives, and the beginning of
the other makes it whole. -/
theorem after_mixture (hx : totalPackets x.length = 2) :
    (Run.after [packet g x 1, packet g z 0]).delivered = [mixture z x] := by
  have hlt : maxPayloadSize < x.length :=
    (Nat.one_mul _).symm.trans_lt (lt_totalPackets_iff.1 (hx ▸ Nat.one_lt_two))
  obtain ⟨hzero, hone⟩ := packet_mixture g hlength hlt
  have htwo : totalPackets (mixture z x).length = 2 := by rw [length_mixture hlength, hx]
  have hparts (a : Unit × ℕ) : a ∈ [((), 1), ((), 0)] ↔
      Collector.parts (need fun _ : Unit => mixture z x) [()] a := by
    obtain ⟨-, i⟩ := a
    simp only [Collector.parts, need, htwo, Finset.mem_range, List.mem_cons, List.not_mem_nil,
      Prod.mk.injEq]
    simp only [true_and, or_false]
    omega
  have hrun := @run_once Unit (fun _ => mixture z x) (fun _ => g) _ [((), 1), ((), 0)] [()]
    (fun _ _ => htwo.trans_lt (by decide))
    (fun _ _ => totalPackets_pos_iff.1 (htwo ▸ Nat.two_pos)) (List.nodup_singleton ()) (by decide)
    hparts (Collector.exclusive_of_injOn fun _ _ _ _ _ => rfl)
  rw [← hzero, ← hone]
  exact List.perm_singleton.1 hrun.2.1

end Mixture

theorem after_twoPackets :
    (Run.after [packet 1 (twoPackets 0) 1, packet 1 (twoPackets 1) 0]).delivered =
      [mixture (twoPackets 1) (twoPackets 0)] :=
  after_mixture 1 (by rw [twoPackets, twoPackets, List.length_replicate, List.length_replicate])
    (totalPackets_twoPackets 0)

theorem mixture_ne_twoPackets (b : UInt8) :
    mixture (twoPackets 1) (twoPackets 0) ≠ twoPackets b := by
  intro h
  rw [mixture, twoPackets, twoPackets, twoPackets, List.take_replicate, List.drop_replicate,
    Nat.min_eq_left (Nat.le_succ _), Nat.add_sub_cancel_left] at h
  have hmem (a : UInt8) (ha : a ∈ List.replicate maxPayloadSize (1 : UInt8) ++ List.replicate 1 0) :
      a = b := List.eq_of_mem_replicate (h ▸ ha)
  have hone := hmem 1 (List.mem_append_left _ (List.mem_replicate.2 ⟨by decide, rfl⟩))
  have hzero := hmem 0 (List.mem_append_right _ (List.mem_replicate.2 ⟨Nat.one_ne_zero, rfl⟩))
  exact absurd (hzero.trans hone.symm) (by decide)

theorem packet_mem_sendAll (s : UdpSender) {payloads : List Bytes} {k i : ℕ}
    (hk : k < payloads.length) (hi : i < totalPackets (payloadOf payloads k).length) :
    packet (s.groupOf k) (payloadOf payloads k) i ∈ (s.sendAll payloads).flatten := by
  rw [flatten_sendAll]
  refine List.mem_map.2 ⟨(k, i), (mem_packetsOf _).2 ⟨List.mem_range.2 hk, ?_⟩, rfl⟩
  exact Finset.mem_range.2 hi

/-- Calls of which only the first has another payload than the rest. -/
def wrapping (k : ℕ) : Bytes := twoPackets (if k = 0 then 0 else 1)

/-- After `2 ^ 32` calls a sender comes back to its first group, and mixes two payloads of its
own. -/
theorem calls_bounded : ¬ ∀ payloads arrivals : List Bytes,
    (∀ data ∈ payloads, totalPackets data.length < 2 ^ 32) →
    (∀ d ∈ arrivals, d ∈ (({} : UdpSender).sendAll payloads).flatten) →
    ∀ data ∈ (Run.after arrivals).delivered, data ∈ payloads := by
  intro h
  obtain ⟨n, hn⟩ : ∃ n, n = 2 ^ 32 := ⟨_, rfl⟩
  have hcall {k : ℕ} (hk : k < n + 1) :
      payloadOf ((List.range (n + 1)).map wrapping) k = wrapping k := by
    rw [payloadOf, List.getD_eq_getElem _ _ (by simpa using hk), List.getElem_map,
      List.getElem_range]
  have hsent {k i : ℕ} (hk : k < n + 1) (hi : i < 2) :
      packet (({} : UdpSender).groupOf k) (wrapping k) i ∈
        (({} : UdpSender).sendAll ((List.range (n + 1)).map wrapping)).flatten := by
    rw [← hcall hk]
    refine packet_mem_sendAll _ (by simpa using hk) ?_
    rwa [hcall hk, wrapping, totalPackets_twoPackets]
  have hfirst : ({} : UdpSender).groupOf 0 = 1 ∧ wrapping 0 = twoPackets 0 := ⟨by decide, rfl⟩
  have hlast : ({} : UdpSender).groupOf n = 1 ∧ wrapping n = twoPackets 1 :=
    ⟨by rw [hn]; decide, by rw [wrapping, if_neg (by omega)]⟩
  have hmixed := h ((List.range (n + 1)).map wrapping)
    [packet 1 (twoPackets 0) 1, packet 1 (twoPackets 1) 0] (fun data hdata => ?_) (fun d hd => ?_)
    (mixture (twoPackets 1) (twoPackets 0)) (after_twoPackets ▸ List.mem_singleton_self _)
  · obtain ⟨k, -, hk⟩ := List.mem_map.1 hmixed
    exact mixture_ne_twoPackets _ hk.symm
  · obtain ⟨k, -, rfl⟩ := List.mem_map.1 hdata
    rw [wrapping, totalPackets_twoPackets]
    decide
  · rcases List.mem_cons.1 hd with rfl | hd
    · simpa only [hfirst.1, hfirst.2] using hsent (Nat.succ_pos n) Nat.one_lt_two
    · obtain rfl := List.mem_singleton.1 hd
      simpa only [hlast.1, hlast.2] using hsent (Nat.lt_succ_self n) Nat.two_pos

/-- The first packet of a payload whose number of packets is one modulo `2 ^ 32` counts as the only
one. -/
theorem after_first (g : UInt32) {data : Bytes} (hsize : data.length ≤ vectorMaxSize)
    (h : UInt32.ofNat (totalPackets data.length) = 1) :
    (Run.after [packet g data 0]).delivered = [piece data 0] := by
  have hpos : 0 < totalPackets data.length := Nat.pos_of_ne_zero fun hzero => by
    rw [hzero] at h
    exact absurd h (by decide)
  have hstored : ({ callback := true } : UdpReceiver).stored (headerOf g data 0) (piece data 0) =
      ⟨1, UInt64.ofNat data.length, AList.singleton 0 (piece data 0)⟩ := by
    rw [UdpReceiver.stored, GroupInfo.store, if_pos (List.length_pos_iff.2 (piece_ne_nil hpos))]
    simp [headerOf, h]
  have hcomplete : (⟨1, UInt64.ofNat data.length, AList.singleton 0 (piece data 0)⟩ :
      GroupInfo).Complete := by
    refine ⟨rfl, fun i hi => ?_⟩
    obtain rfl : i = 0 := Nat.lt_one_iff.1 hi
    exact List.mem_singleton_self _
  have hmerged : (⟨1, UInt64.ofNat data.length, AList.singleton 0 (piece data 0)⟩ :
      GroupInfo).merged = piece data 0 := List.append_nil _
  have hreserves : UdpReceiver.Reserves vectorMaxSize (UInt64.ofNat data.length).toNat := by
    rw [UInt64.toNat_ofNat']
    exact ⟨(Nat.mod_le _ _).trans hsize, (Nat.mod_le _ _).trans hsize⟩
  have hstep := UdpReceiver.handlePacket_of_complete rfl (hstored ▸ hcomplete)
    (by rwa [hstored])
  rw [hstored, hmerged, if_pos ⟨piece_ne_nil hpos, rfl⟩] at hstep
  rw [Run.after, List.foldl_cons, List.foldl_nil, Run.step]
  dsimp only
  rw [doReceive_packet, packet, hstep]
  rfl

/-- A payload of `2 ^ 32 + 1` packets: its first packet is handed over alone. -/
theorem packets_bounded : ¬ ∀ payloads arrivals : List Bytes, payloads.length < 2 ^ 32 →
    (∀ d ∈ arrivals, d ∈ (({} : UdpSender).sendAll payloads).flatten) →
    ∀ data ∈ (Run.after arrivals).delivered, data ∈ payloads := by
  intro h
  obtain ⟨data, hdata⟩ : ∃ data : Bytes, data.length = 2 ^ 32 * maxPayloadSize + 1 :=
    ⟨List.replicate _ 0, List.length_replicate⟩
  have hpackets : totalPackets data.length = 2 ^ 32 + 1 := by rw [hdata]; decide
  have hfirst := after_first 1 (by rw [hdata]; decide) (by rw [hpackets]; decide)
  have hgroup : ({} : UdpSender).groupOf 0 = 1 := by decide
  have hmem := h [data] [packet 1 data 0] (Nat.one_lt_two_pow (by decide)) (fun d hd => ?_)
    (piece data 0) (hfirst ▸ List.mem_singleton_self _)
  · have hlength := length_piece_le data 0
    rw [List.mem_singleton.1 hmem, hdata] at hlength
    exact absurd hlength (by decide)
  · obtain rfl := List.mem_singleton.1 hd
    rw [← hgroup]
    exact packet_mem_sendAll {} (Nat.succ_pos 0) (show 0 < totalPackets data.length by omega)

/-! ### Many senders -/

/-- The datagrams of several senders, each with the sender and the call it comes from. -/
def transmissions (senders : List (List Bytes)) : List ((ℕ × ℕ) × Bytes) :=
  (List.range senders.length).flatMap fun a =>
    (List.range (senders.getD a []).length).flatMap fun k =>
      ((({} : UdpSender).sendAll (senders.getD a [])).getD k []).map fun d => ((a, k), d)

/-- No datagram of a call arrives between two datagrams of another call with its group id. -/
def Uninterrupted (history : List ((ℕ × ℕ) × Bytes)) : Prop :=
  ∀ m m' d d' d'', [(m, d), (m', d'), (m, d'')].Sublist history → m ≠ m' →
    (PacketHeader.decode d).groupId ≠ (PacketHeader.decode d').groupId

section ManySenders

variable {senders : List (List Bytes)}

/-- The calls of all senders. -/
def callsOf (senders : List (List Bytes)) : List (ℕ × ℕ) :=
  (List.range senders.length).flatMap fun a =>
    (List.range (senders.getD a []).length).map fun k => (a, k)

/-- The payload of a call. -/
def payloadIn (senders : List (List Bytes)) (m : ℕ × ℕ) : Bytes :=
  payloadOf (senders.getD m.1 []) m.2

/-- The group of a call: every sender counts from one. -/
def groupIn (m : ℕ × ℕ) : UInt32 := ({} : UdpSender).groupOf m.2

theorem mem_callsOf {m : ℕ × ℕ} :
    m ∈ callsOf senders ↔ m.1 < senders.length ∧ m.2 < (senders.getD m.1 []).length := by
  obtain ⟨a, k⟩ := m
  simp [callsOf]

theorem nodup_callsOf : (callsOf senders).Nodup :=
  nodup_pairs List.nodup_range fun _ => List.nodup_range

theorem map_payloadIn : (callsOf senders).map (payloadIn senders) = senders.flatten := by
  have hsender (a : ℕ) : ((List.range (senders.getD a []).length).map fun k => (a, k)).map
      (payloadIn senders) = senders.getD a [] := by
    rw [List.map_map]
    exact map_payloadOf (senders.getD a [])
  have hsenders : (List.range senders.length).map (fun a => senders.getD a []) = senders := by
    refine List.ext_getElem (by simp) fun a ha ha' => ?_
    rw [List.getElem_map, List.getElem_range, List.getD_eq_getElem _ _ ha']
  rw [callsOf, List.map_flatMap]
  simp only [hsender]
  rw [List.flatMap_def, hsenders]

theorem transmissions_eq : transmissions senders =
    (packetsOf (payloadIn senders) (callsOf senders)).map fun a =>
      (a.1, datagram (payloadIn senders) groupIn a) := by
  rw [transmissions, packetsOf, callsOf, List.flatMap_assoc, List.map_flatMap]
  refine List.flatMap_congr fun a _ => ?_
  rw [List.map_flatMap, List.flatMap_map]
  refine List.flatMap_congr fun k hk => ?_
  have hk : k < (senders.getD a []).length := List.mem_range.1 hk
  rw [UdpSender.sendAll_eq, List.getD_eq_getElem _ _ (by simpa using hk), List.getElem_map,
    List.getElem_range, List.map_map, List.map_map]
  rfl

/-- **Senders do not disturb each other while no payload is interrupted** by another one of its
group: then every payload is handed over once, and nothing else. -/
theorem senders_isolated {history : List ((ℕ × ℕ) × Bytes)}
    (hnonempty : ∀ payloads ∈ senders, ∀ data ∈ payloads, data ≠ [])
    (hsmall : ∀ payloads ∈ senders, ∀ data ∈ payloads, totalPackets data.length < 2 ^ 32)
    (h : history.Perm (transmissions senders)) (huninterrupted : Uninterrupted history) :
    (Run.after (history.map Prod.snd)).failure = none ∧
      (∀ data ∈ (Run.after (history.map Prod.snd)).delivered,
        ∃ payloads ∈ senders, data ∈ payloads) ∧
      (Run.after (history.map Prod.snd)).delivered.Perm senders.flatten ∧
      (Run.after (history.map Prod.snd)).receiver.groups = ∅ := by
  rw [transmissions_eq] at h
  obtain ⟨packets, rfl, hpackets⟩ := exists_history_of_perm h
  have hparts (a : (ℕ × ℕ) × ℕ) : a ∈ packets ↔
      Collector.parts (need (payloadIn senders)) (callsOf senders) a :=
    hpackets.mem_iff.trans (mem_packetsOf _)
  have hnodup : packets.Nodup := hpackets.nodup_iff.2 (nodup_packetsOf _ nodup_callsOf)
  have hcall {m : ℕ × ℕ} (hm : m ∈ callsOf senders) :
      ∃ payloads ∈ senders, payloadIn senders m ∈ payloads := by
    obtain ⟨hsender, hcall⟩ := mem_callsOf.1 hm
    refine ⟨senders.getD m.1 [], ?_, payloadOf_mem hcall⟩
    rw [List.getD_eq_getElem _ _ hsender]
    exact List.getElem_mem hsender
  have hexclusive : Collector.Exclusive (need (payloadIn senders)) groupIn packets := by
    refine Collector.exclusive_of_uninterrupted hnodup hparts fun m m' i i' j hsub hne => ?_
    have hgroup := huninterrupted m m' _ _ _ (hsub.map fun a : (ℕ × ℕ) × ℕ =>
      (a.1, datagram (payloadIn senders) groupIn a)) hne
    rwa [datagram, datagram, packet, packet, PacketHeader.decode_encode,
      PacketHeader.decode_encode] at hgroup
  have hrun := run_once
    (fun m hm => (hcall hm).elim fun payloads hp => hsmall payloads hp.1 _ hp.2)
    (fun m hm => (hcall hm).elim fun payloads hp => hnonempty payloads hp.1 _ hp.2)
    nodup_callsOf hnodup hparts hexclusive
  rw [map_payloadIn] at hrun
  rw [List.map_map]
  obtain ⟨hfailure, hdelivered, hgroups⟩ := hrun
  refine ⟨hfailure, fun data hdata => ?_, hdelivered, hgroups⟩
  obtain ⟨payloads, hpayloads, hmem⟩ := List.mem_flatten.1 (hdelivered.subset hdata)
  exact ⟨payloads, hpayloads, hmem⟩

/-- What two senders send, of which the first one sends two payloads, the second one of them in two
datagrams. -/
theorem transmissions_sample : transmissions [[[5], twoPackets 7], [[8]]] =
    [((0, 0), packet 1 [5] 0), ((0, 1), packet 2 (twoPackets 7) 0),
      ((0, 1), packet 2 (twoPackets 7) 1), ((1, 0), packet 1 [8] 0)] := by
  rw [transmissions_eq]
  simp only [callsOf, packetsOf, List.length_cons, List.length_nil, List.range_succ,
    List.range_zero, List.nil_append, List.flatMap_cons, List.flatMap_nil, List.getD_cons_zero,
    List.getD_cons_succ, List.map_cons, List.map_nil, List.append_nil, List.cons_append, payloadIn,
    payloadOf, totalPackets_twoPackets]
  rfl

/-- The second sender's datagram comes between those two, and they are of another group. -/
theorem senders_isolated_sample :
    (Run.after [packet 1 [5] 0, packet 2 (twoPackets 7) 0, packet 1 [8] 0,
      packet 2 (twoPackets 7) 1]).delivered.Perm [[5], twoPackets 7, [8]] := by
  have hnonempty : ∀ payloads ∈ [[[5], twoPackets 7], [[8]]], ∀ data ∈ payloads, data ≠ [] := by
    simp [twoPackets]
  have hsmall : ∀ payloads ∈ [[[5], twoPackets 7], [[8]]], ∀ data ∈ payloads,
      totalPackets data.length < 2 ^ 32 := by
    have hone : totalPackets 1 < 2 ^ 32 := by decide
    simpa [totalPackets_twoPackets] using hone
  have hsent : [((0, 0), packet 1 [5] 0), ((0, 1), packet 2 (twoPackets 7) 0),
      ((1, 0), packet 1 [8] 0), ((0, 1), packet 2 (twoPackets 7) 1)].Perm
        (transmissions [[[5], twoPackets 7], [[8]]]) := by
    rw [transmissions_sample]
    exact ((List.Perm.swap _ _ _).cons _).cons _
  refine (senders_isolated hnonempty hsmall hsent ?_).2.2.1
  intro m m' d d' d'' hsub hne
  -- the one call that may be interrupted is the second one of the first sender
  have hcalls : ∀ m ∈ [((0, 0) : ℕ × ℕ), (0, 1), (1, 0), (0, 1)],
      ∀ m' ∈ [((0, 0) : ℕ × ℕ), (0, 1), (1, 0), (0, 1)],
        [m, m', m].Sublist [((0, 0) : ℕ × ℕ), (0, 1), (1, 0), (0, 1)] → m ≠ m' →
          m = (0, 1) ∧ m' = (1, 0) := by decide
  have hfst := hsub.map Prod.fst
  obtain ⟨rfl, rfl⟩ := hcalls m (hfst.subset (by simp)) m' (hfst.subset (by simp)) hfst hne
  have hd : ((0, 1), d) ∈ _ := hsub.subset (by simp)
  have hd' : ((1, 0), d') ∈ _ := hsub.subset (by simp)
  simp only [List.mem_cons, Prod.mk.injEq, List.not_mem_nil, or_false] at hd hd'
  obtain rfl : d' = packet 1 [8] 0 := by simpa using hd'
  rcases (by simpa using hd : d = packet 2 (twoPackets 7) 0 ∨ d = packet 2 (twoPackets 7) 1)
    with rfl | rfl
  · rw [packet, packet, PacketHeader.decode_encode, PacketHeader.decode_encode]
    simp [headerOf]
  · rw [packet, packet, PacketHeader.decode_encode, PacketHeader.decode_encode]
    simp [headerOf]

end ManySenders

/-- Two senders of one call each: both use group 1. -/
theorem senders_mixed : ¬ ∀ (senders : List (List Bytes)) (arrivals : List Bytes),
    (∀ payloads ∈ senders, ∀ data ∈ payloads, data ≠ []) →
    arrivals.Perm (senders.flatMap fun payloads => (({} : UdpSender).sendAll payloads).flatten) →
    (∀ data ∈ (Run.after arrivals).delivered, ∃ payloads ∈ senders, data ∈ payloads) ∧
      (Run.after arrivals).delivered.Perm senders.flatten := by
  intro h
  have hsent (b : UInt8) : (({} : UdpSender).sendAll [twoPackets b]).flatten =
      [packet 1 (twoPackets b) 0, packet 1 (twoPackets b) 1] := by
    rw [UdpSender.sendAll, UdpSender.sendAll, UdpSender.send_packets, totalPackets_twoPackets]
    rfl
  have harrivals := h [[twoPackets 0], [twoPackets 1]]
    ([packet 1 (twoPackets 0) 1, packet 1 (twoPackets 1) 0] ++
      packet 1 (twoPackets 0) 0 :: [packet 1 (twoPackets 1) 1])
    (by simp [twoPackets]) (by
      rw [List.flatMap_cons, List.flatMap_cons, hsent, hsent]
      exact List.perm_middle)
  obtain ⟨payloads, hpayloads, hmem⟩ := harrivals.1 (mixture (twoPackets 1) (twoPackets 0))
    ((Run.delivered_prefix _ _).subset (after_twoPackets ▸ List.mem_singleton_self _))
  have htwo : mixture (twoPackets 1) (twoPackets 0) = twoPackets 0 ∨
      mixture (twoPackets 1) (twoPackets 0) = twoPackets 1 := by
    simp only [List.mem_cons, List.not_mem_nil, or_false] at hpayloads
    rcases hpayloads with rfl | rfl
    · exact Or.inl (List.mem_singleton.1 hmem)
    · exact Or.inr (List.mem_singleton.1 hmem)
  exact htwo.elim (mixture_ne_twoPackets 0) (mixture_ne_twoPackets 1)

end Net
end BreUtils
