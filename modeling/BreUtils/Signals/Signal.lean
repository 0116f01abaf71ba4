/-
# The signals of `Signal.hpp`

Any number of `Signal` objects, made by the constructor or by a move, and the calls that
change their slots.  `World` is what the code has: the groups and the flag of each
signal, and the position that each slot knows.  `Registry` is what the calls are for: the
bag of the slots that each signal holds, with the numbers of those that were connected to
it and removed from it.  A removal takes out of the bag what matches and returns how many
those were; a move hands the bags on.

Every run of the code is a run of the registry, with the same results, and in each state
of it the tables are sound (`run_refines`).  So `Emit` calls each slot that the signal
holds, once and in the order of the groups.
-/

import BreUtils.Lib.Transition
import BreUtils.Signals.SlotTable
import Mathlib.Data.Multiset.Filter
import Mathlib.Logic.Equiv.Basic

namespace BreUtils
namespace Signals

open Lib.Transition (run run_simulation)
open SlotTable (Sound addSlot disconnectIf disconnectGroup clean)

variable {S P Y O : Type*}

/-- A call that changes signals; `S` are the places of the objects. -/
inductive Call (S P Y O : Type*) where
  /-- `Signal()`. -/
  | construct (i : S)
  /-- Both overloads of `Connect`: a slot without an object has a null one. -/
  | connect (i : S) (c : Callable P Y) (object : Option O) (gid : ℤ)
  /-- `Disconnect(c)`. -/
  | disconnect (i : S) (c : Callable P Y)
  /-- `disconnect(obj)`. -/
  | disconnectObject (i : S) (object : Option O)
  /-- `Disconnect(c, obj)`. -/
  | disconnectBoth (i : S) (c : Callable P Y) (object : Option O)
  /-- `Disconnect(gid)`. -/
  | disconnectGroup (i : S) (gid : ℤ)
  | disconnectAll (i : S)
  /-- `clean(state)`, for any slot that was ever made. -/
  | clean (i : S) (id : ℕ)
  /-- `Block()` and `Unblock()`. -/
  | block (i : S) (blocked : Bool)
  /-- `Signal(Signal &&o)`. -/
  | moveConstruct (i o : S)
  /-- `operator=(Signal &&o)`, from another object. -/
  | moveAssign (i o : S)
  /-- `~Signal()`. -/
  | destroy (i : S)

/-- `Signal`. -/
structure Signal (P Y O : Type*) where
  groups : List (Group P Y O)
  block : Bool

namespace Signal

/-- The slots that `Emit` calls, in order. -/
def emit (s : Signal P Y O) : List (Slot P Y O) := if s.block then [] else emitLoop s.groups

/-- `slot_count`. -/
def slotCount (s : Signal P Y O) : ℕ := countLoop s.groups

end Signal

/-- The signals that exist, the `m_index` of each slot, the slots ever made, and what the last call
returned. -/
structure World (S P Y O : Type*) where
  signals : S → Option (Signal P Y O)
  index : ℕ → ℕ
  made : List (Slot P Y O)
  returned : Option ℕ

namespace World

variable [DecidableEq S]

/-- No signal yet. -/
def init : World S P Y O := ⟨fun _ => none, fun _ => 0, [], none⟩

/-- `make_slot`. -/
def makeSlot (w : World S P Y O) (c : Callable P Y) (object : Option O) (gid : ℤ) : Slot P Y O :=
  ⟨w.made.length, gid, c, object, true, false⟩

/-- What the table of one signal becomes, and the result. -/
def onTable (w : World S P Y O) (i : S)
    (f : (ℕ → ℕ) → List (Group P Y O) → Option ℕ × SlotTable P Y O) : Option (World S P Y O) :=
  (w.signals i).map fun s =>
    let r := f w.index s.groups
    { w with
      signals := Function.update w.signals i (some { s with groups := r.2.groups })
      index := r.2.index
      returned := r.1 }

/-- One object is made, changed as a whole, or destroyed. -/
def place (w : World S P Y O) (i : S) (s : Option (Signal P Y O)) : World S P Y O :=
  { w with signals := Function.update w.signals i s, returned := none }

/-- `disconnect_if`, and its count. -/
def removeIf (w : World S P Y O) (i : S) (cond : Slot P Y O → Bool) : Option (World S P Y O) :=
  w.onTable i fun index groups =>
    (some (disconnectIf cond index 0 groups).1, (disconnectIf cond index 0 groups).2)

variable [DecidableEq P] [DecidableEq Y] [DecidableEq O]

/-- **One call.** -/
def step (w : World S P Y O) : Call S P Y O → Option (World S P Y O)
  | .construct i => match w.signals i with
    | none => some (w.place i (some ⟨[], false⟩))
    | some _ => none
  | .connect i c object gid =>
      { w with made := w.made ++ [w.makeSlot c object gid] }.onTable i fun index groups =>
        (none, addSlot (w.makeSlot c object gid) index groups)
  | .disconnect i c => w.removeIf i fun s => s.hasFullCallable c
  | .disconnectObject i object => w.removeIf i fun s => s.hasObject object
  | .disconnectBoth i c object => w.removeIf i fun s => s.hasObject object && s.hasCallable c
  | .disconnectGroup i gid => w.onTable i fun index groups =>
      (some (disconnectGroup gid groups).1, ⟨index, (disconnectGroup gid groups).2⟩)
  | .disconnectAll i => w.onTable i fun index _ => (none, ⟨index, []⟩)
  | .clean i id => w.made[id]?.bind fun state =>
      w.onTable i fun index groups => (none, clean state index groups)
  | .block i blocked => (w.signals i).map fun s => w.place i (some { s with block := blocked })
  | .moveConstruct i o => match w.signals i, w.signals o with
    | none, some s => some ((w.place i (some s)).place o (some ⟨[], s.block⟩))
    | _, _ => none
  | .moveAssign i o => match w.signals i, w.signals o with
    | some s, some t => if i = o then none else some ((w.place i (some t)).place o (some s))
    | _, _ => none
  | .destroy i => (w.signals i).map fun _ => w.place i none

end World

/-! ### The registry -/

/-- What a signal is for: the slots that it holds, how many were connected to it, and how many were
removed. -/
structure Ledger (P Y O : Type*) where
  held : Multiset (Slot P Y O)
  connected : ℕ
  removed : ℕ
  balance : held.card + removed = connected

namespace Ledger

/-- Nothing was connected yet. -/
def empty : Ledger P Y O := ⟨0, 0, 0, rfl⟩

/-- A slot is connected. -/
def add (s : Slot P Y O) (l : Ledger P Y O) : Ledger P Y O where
  held := s ::ₘ l.held
  connected := l.connected + 1
  removed := l.removed
  balance := by
    have hbalance := l.balance
    rw [Multiset.card_cons]
    omega

/-- The slots that match are removed. -/
def remove (cond : Slot P Y O → Bool) (l : Ledger P Y O) : Ledger P Y O where
  held := l.held.filter fun s => ¬ cond s
  connected := l.connected
  removed := l.removed + l.held.countP fun s => cond s
  balance := by
    have hbalance := l.balance
    have hcard := Multiset.card_eq_countP_add_countP (fun s => cond s = true) l.held
    rw [← Multiset.countP_eq_card_filter]
    omega

end Ledger

/-- The ledger of each signal and whether it is blocked, the slots ever made, and what the last
call returned. -/
structure Registry (S P Y O : Type*) where
  ledgers : S → Option (Ledger P Y O × Bool)
  made : List (Slot P Y O)
  returned : Option ℕ

namespace Registry

variable [DecidableEq S]

def init : Registry S P Y O := ⟨fun _ => none, [], none⟩

/-- What the ledger of one signal becomes, and the result. -/
def onLedger (t : Registry S P Y O) (i : S) (f : Ledger P Y O → Option ℕ × Ledger P Y O) :
    Option (Registry S P Y O) :=
  (t.ledgers i).map fun l =>
    { t with
      ledgers := Function.update t.ledgers i (some ((f l.1).2, l.2))
      returned := (f l.1).1 }

/-- **Every slot that matches is removed, and their number is returned.** -/
def removeIf (t : Registry S P Y O) (i : S) (cond : Slot P Y O → Bool) :
    Option (Registry S P Y O) :=
  t.onLedger i fun l => (some (l.held.countP fun s => cond s), l.remove cond)

/-- Slots are removed by a call that returns nothing. -/
def discard (t : Registry S P Y O) (i : S) (cond : Slot P Y O → Bool) :
    Option (Registry S P Y O) :=
  t.onLedger i fun l => (none, l.remove cond)

def place (t : Registry S P Y O) (i : S) (l : Option (Ledger P Y O × Bool)) :
    Registry S P Y O :=
  { t with ledgers := Function.update t.ledgers i l, returned := none }

variable [DecidableEq P] [DecidableEq Y] [DecidableEq O]

/-- **What a call is for.** -/
def step (t : Registry S P Y O) : Call S P Y O → Option (Registry S P Y O)
  | .construct i => match t.ledgers i with
    | none => some (t.place i (some (.empty, false)))
    | some _ => none
  | .connect i c object gid =>
      let s : Slot P Y O := ⟨t.made.length, gid, c, object, true, false⟩
      { t with made := t.made ++ [s] }.onLedger i fun l => (none, l.add s)
  | .disconnect i c => t.removeIf i fun s => s.hasFullCallable c
  | .disconnectObject i object => t.removeIf i fun s => s.hasObject object
  | .disconnectBoth i c object => t.removeIf i fun s => s.hasObject object && s.hasCallable c
  | .disconnectGroup i gid => t.removeIf i fun s => decide (s.group = gid)
  | .disconnectAll i => t.discard i fun _ => true
  | .clean i id => t.made[id]?.bind fun state => t.discard i fun s => decide (s.id = state.id)
  | .block i blocked => (t.ledgers i).map fun l => t.place i (some (l.1, blocked))
  | .moveConstruct i o => match t.ledgers i, t.ledgers o with
    | none, some l => some ((t.place i (some l)).place o (some (.empty, l.2)))
    | _, _ => none
  | .moveAssign i o => match t.ledgers i, t.ledgers o with
    | some l, some m => if i = o then none else some ((t.place i (some m)).place o (some l))
    | _, _ => none
  | .destroy i => (t.ledgers i).map fun _ => t.place i none

end Registry

/-! ### Every call is one of the registry -/

/-- The invariant of the code: the tables are sound, each slot is in one of them at most, and it is
the slot that was made under its address. -/
structure Inv (w : World S P Y O) : Prop where
  sound : ∀ i s, w.signals i = some s → Sound ⟨w.index, s.groups⟩
  booked : ∀ i s, w.signals i = some s → ∀ r ∈ slots s.groups, w.made[r.id]? = some r
  apart : ∀ i j s t, i ≠ j → w.signals i = some s → w.signals j = some t →
    ∀ a ∈ slots s.groups, ∀ b ∈ slots t.groups, a.id ≠ b.id
  numbered : ∀ (id : ℕ) (r : Slot P Y O), w.made[id]? = some r → r.id = id ∧ r.active = true

/-- A signal holds the slots of its ledger. -/
def Holds (s : Signal P Y O) (l : Ledger P Y O × Bool) : Prop :=
  (slots s.groups : Multiset (Slot P Y O)) = l.1.held ∧ s.block = l.2

/-- The code is where the registry is. -/
structure Refines (w : World S P Y O) (t : Registry S P Y O) : Prop where
  holds : ∀ i, Option.Rel Holds (w.signals i) (t.ledgers i)
  made : t.made = w.made
  returned : t.returned = w.returned

variable {w v : World S P Y O} {t : Registry S P Y O} {i o : S} {s : Signal P Y O}

theorem inv_init : Inv (World.init : World S P Y O) := by
  constructor <;> simp [World.init]

theorem refines_init : Refines (World.init : World S P Y O) Registry.init :=
  ⟨fun _ => Option.Rel.none, rfl, rfl⟩

/-- A signal that exists has a ledger. -/
theorem Refines.exists_ledger (h : Refines w t) (hs : w.signals i = some s) :
    ∃ l, t.ledgers i = some l ∧ Holds s l := by
  have hi := h.holds i
  rw [hs] at hi
  cases hl : t.ledgers i with
  | none => rw [hl] at hi; exact absurd hi (by rintro ⟨⟩)
  | some l =>
      rw [hl] at hi
      cases hi with
      | some hholds => exact ⟨l, rfl, hholds⟩

/-- A signal that does not exist has none. -/
theorem Refines.ledger_none (h : Refines w t) (hs : w.signals i = none) :
    t.ledgers i = none := by
  have hi := h.holds i
  rw [hs] at hi
  cases hl : t.ledgers i with
  | none => rfl
  | some l => rw [hl] at hi; exact absurd hi (by rintro ⟨⟩)

/-- Objects are moved about, or come without slots. -/
theorem Inv.rearrange {signals : S → Option (Signal P Y O)} {returned : Option ℕ} (h : Inv w)
    (origin : S → S) (hinj : Function.Injective origin)
    (hfrom : ∀ k s', signals k = some s' → s'.groups = [] ∨
      ∃ s, w.signals (origin k) = some s ∧ s'.groups = s.groups) :
    Inv { w with signals := signals, returned := returned } where
  sound := fun k s' hk => by
    rcases hfrom k s' hk with hnil | ⟨s, hs, hgroups⟩
    · rw [hnil]
      exact SlotTable.sound_nil _
    · rw [hgroups]
      exact h.sound _ s hs
  booked := fun k s' hk r hr => by
    rcases hfrom k s' hk with hnil | ⟨s, hs, hgroups⟩
    · rw [hnil] at hr
      exact absurd hr List.not_mem_nil
    · rw [hgroups] at hr
      exact h.booked _ s hs r hr
  apart := fun j k u u' hjk hu hu' a ha b hb => by
    rcases hfrom j u hu with hnil | ⟨s, hs, hgroups⟩
    · rw [hnil] at ha
      exact absurd ha List.not_mem_nil
    · rcases hfrom k u' hu' with hnil | ⟨s', hs', hgroups'⟩
      · rw [hnil] at hb
        exact absurd hb List.not_mem_nil
      · rw [hgroups] at ha
        rw [hgroups'] at hb
        exact h.apart _ _ s s' (hinj.ne hjk) hs hs' a ha b hb
  numbered := h.numbered

theorem held_remove (cond : Slot P Y O → Bool) {l : Ledger P Y O} {rs : List (Slot P Y O)}
    (h : (rs : Multiset (Slot P Y O)) = l.held) :
    ((rs.filter fun r => !cond r : List (Slot P Y O)) : Multiset (Slot P Y O)) =
      (l.remove cond).held := by
  simp [Ledger.remove, ← h]

variable [DecidableEq S]

theorem Refines.place (h : Refines w t) {x : Option (Signal P Y O)}
    {y : Option (Ledger P Y O × Bool)} (hxy : Option.Rel Holds x y) :
    Refines (w.place i x) (t.place i y) := by
  refine ⟨fun j => ?_, h.made, rfl⟩
  change Option.Rel Holds (Function.update w.signals i x j) (Function.update t.ledgers i y j)
  by_cases hj : j = i
  · subst hj
    rwa [Function.update_self, Function.update_self]
  · rw [Function.update_of_ne hj, Function.update_of_ne hj]
    exact h.holds j

/-- A table changes as its ledger does. -/
theorem Refines.onTable
    {f : (ℕ → ℕ) → List (Group P Y O) → Option ℕ × SlotTable P Y O}
    {g : Ledger P Y O → Option ℕ × Ledger P Y O} (h : Refines w t)
    (hfg : ∀ s l, w.signals i = some s → (slots s.groups : Multiset (Slot P Y O)) = l.held →
      (f w.index s.groups).1 = (g l).1 ∧
        (slots (f w.index s.groups).2.groups : Multiset (Slot P Y O)) = (g l).2.held)
    (hv : w.onTable i f = some v) : ∃ u, t.onLedger i g = some u ∧ Refines v u := by
  obtain ⟨s, hs, rfl⟩ := Option.map_eq_some_iff.1 hv
  obtain ⟨l, hl, hheld, hblock⟩ := h.exists_ledger hs
  obtain ⟨hreturned, hslots⟩ := hfg s l.1 hs hheld
  refine ⟨{ t with
      ledgers := Function.update t.ledgers i (some ((g l.1).2, l.2))
      returned := (g l.1).1 }, by rw [Registry.onLedger, hl]; rfl, fun j => ?_, h.made,
    hreturned.symm⟩
  by_cases hj : j = i
  · subst hj
    simp only [Function.update_self]
    exact Option.Rel.some ⟨hslots, hblock⟩
  · simp only [Function.update_of_ne hj]
    exact h.holds j

/-- The table of one signal changes, and with it the positions of its slots only. -/
theorem Inv.onTable {f : (ℕ → ℕ) → List (Group P Y O) → Option ℕ × SlotTable P Y O}
    (news : List (Slot P Y O)) (h : Inv w)
    (hnews : ∀ (id : ℕ) (r : Slot P Y O), (w.made ++ news)[id]? = some r →
      r.id = id ∧ r.active = true)
    (hsound : ∀ s, w.signals i = some s → Sound (f w.index s.groups).2)
    (hslots : ∀ s, w.signals i = some s → ∀ r ∈ slots (f w.index s.groups).2.groups,
      (w.made ++ news)[r.id]? = some r ∧ (r ∈ slots s.groups ∨ w.made.length ≤ r.id))
    (hindex : ∀ s, w.signals i = some s → ∀ id < w.made.length,
      (∀ r ∈ slots s.groups, r.id ≠ id) → (f w.index s.groups).2.index id = w.index id)
    (hv : { w with made := w.made ++ news }.onTable i f = some v) : Inv v := by
  obtain ⟨s, hs, rfl⟩ := Option.map_eq_some_iff.1 hv
  replace hs : w.signals i = some s := hs
  have hlt (j : S) (u : Signal P Y O) (hu : w.signals j = some u) (r : Slot P Y O)
      (hr : r ∈ slots u.groups) : r.id < w.made.length :=
    (List.getElem?_eq_some_iff.1 (h.booked j u hu r hr)).1
  -- a slot of this signal, before or after, is in no other signal
  have hother (j : S) (u : Signal P Y O) (hj : j ≠ i) (hu : w.signals j = some u)
      (a : Slot P Y O) (ha : a ∈ slots (f w.index s.groups).2.groups) (b : Slot P Y O)
      (hb : b ∈ slots u.groups) : a.id ≠ b.id := by
    rcases (hslots s hs a ha).2 with hold | hnew
    · exact h.apart i j s u hj.symm hs hu a hold b hb
    · have hb := hlt j u hu b hb
      omega
  constructor
  · intro j u hu
    simp only [Function.update_apply] at hu
    split_ifs at hu with hj
    · obtain rfl := Option.some.inj hu
      exact hsound s hs
    · refine (h.sound j u hu).congr fun r hr => ?_
      exact hindex s hs r.id (hlt j u hu r hr) fun a ha =>
        h.apart i j s u (Ne.symm hj) hs hu a ha r hr
  · intro j u hu r hr
    simp only [Function.update_apply] at hu
    split_ifs at hu with hj
    · obtain rfl := Option.some.inj hu
      exact (hslots s hs r hr).1
    · exact (List.getElem?_append_left (hlt j u hu r hr)).trans (h.booked j u hu r hr)
  · intro j k u u' hjk hu hu' a ha b hb
    simp only [Function.update_apply] at hu hu'
    split_ifs at hu hu' with hj hk hk
    · exact absurd (hj.trans hk.symm) hjk
    · obtain rfl := Option.some.inj hu
      exact hother k u' hk hu' a ha b hb
    · obtain rfl := Option.some.inj hu'
      exact (hother j u hj hu b hb a ha).symm
    · exact h.apart j k u u' hjk hu hu' a ha b hb
  · exact hnews

/-- One object is replaced by one with the same slots, or none. -/
theorem Inv.place {x : Option (Signal P Y O)} (h : Inv w)
    (hx : ∀ s', x = some s' → s'.groups = [] ∨ ∃ s, w.signals i = some s ∧ s'.groups = s.groups) :
    Inv (w.place i x) := by
  refine h.rearrange id Function.injective_id fun k s' hk => ?_
  rw [Function.update_apply] at hk
  split_ifs at hk with hki
  · subst hki
    exact hx s' hk
  · exact Or.inr ⟨s', hk, rfl⟩

/-- Two objects get each other's slots. -/
theorem Inv.swap {x y : Signal P Y O} (h : Inv w)
    (hx : ∃ s, w.signals o = some s ∧ x.groups = s.groups)
    (hy : y.groups = [] ∨ ∃ s, w.signals i = some s ∧ y.groups = s.groups) :
    Inv ((w.place i (some x)).place o (some y)) := by
  refine h.rearrange (Equiv.swap i o) (Equiv.swap i o).injective fun k s' hk => ?_
  simp only [World.place, Function.update_apply] at hk
  split_ifs at hk with hko hki
  · obtain rfl := Option.some.inj hk
    rw [hko, Equiv.swap_apply_right]
    exact hy
  · obtain rfl := Option.some.inj hk
    rw [hki, Equiv.swap_apply_left]
    exact Or.inr hx
  · rw [Equiv.swap_apply_of_ne_of_ne hki hko]
    exact Or.inr ⟨s', hk, rfl⟩

/-- **A removal of the code is one of the registry.** -/
theorem remove_refines {f : (ℕ → ℕ) → List (Group P Y O) → Option ℕ × SlotTable P Y O}
    (cond : Slot P Y O → Bool) (result : Ledger P Y O → Option ℕ) (hinv : Inv w)
    (href : Refines w t)
    (hfilter : ∀ s, w.signals i = some s →
      List.Forall₂ (SlotTable.Filtered fun r => !cond r) s.groups (f w.index s.groups).2.groups)
    (hsound : ∀ s, w.signals i = some s → Sound (f w.index s.groups).2)
    (hindex : ∀ s, w.signals i = some s → ∀ id, (∀ r ∈ slots s.groups, r.id ≠ id) →
      (f w.index s.groups).2.index id = w.index id)
    (hresult : ∀ s l, w.signals i = some s → (slots s.groups : Multiset (Slot P Y O)) = l.held →
      (f w.index s.groups).1 = result l)
    (hv : w.onTable i f = some v) :
    ∃ u, t.onLedger i (fun l => (result l, l.remove cond)) = some u ∧ Inv v ∧ Refines v u := by
  obtain ⟨u, hu, hrefines⟩ := href.onTable (g := fun l => (result l, l.remove cond))
    (fun s l hs hheld => ⟨hresult s l hs hheld, by
      rw [Multiset.coe_eq_coe.2 (SlotTable.slots_filtered (hfilter s hs))]
      exact held_remove cond hheld⟩) hv
  refine ⟨u, hu, hinv.onTable []
    (by rw [List.append_nil]; exact hinv.numbered) hsound (fun s hs r hr => ?_)
    (fun s hs id _ => hindex s hs id) (by rwa [List.append_nil]), hrefines⟩
  have hmem : r ∈ slots s.groups :=
    List.mem_of_mem_filter ((SlotTable.slots_filtered (hfilter s hs)).subset hr)
  rw [List.append_nil]
  exact ⟨hinv.booked i s hs r hmem, Or.inl hmem⟩

/-- `disconnect_if` removes every slot that matches and returns their number. -/
theorem removeIf_refines {cond : Slot P Y O → Bool} (hinv : Inv w) (href : Refines w t)
    (hv : w.removeIf i cond = some v) :
    ∃ u, t.removeIf i cond = some u ∧ Inv v ∧ Refines v u := by
  refine remove_refines cond (fun l => some (l.held.countP fun s => cond s)) hinv href
    (fun s _ => SlotTable.disconnectIf_filtered cond _ _ _)
    (fun s hs => (hinv.sound i s hs).disconnectIf cond 0)
    (fun s _ id hid => SlotTable.disconnectIf_index cond _ _ _ _ hid)
    (fun s l _ hheld => ?_) hv
  rw [SlotTable.disconnectIf_count, Nat.zero_add, ← hheld, Multiset.coe_countP]
  simp

variable [DecidableEq P] [DecidableEq Y] [DecidableEq O]

/-- `Connect` adds the slot to what the signal holds. -/
theorem connect_refines {c : Callable P Y} {object : Option O} {gid : ℤ} (hinv : Inv w)
    (href : Refines w t) (hv : w.step (.connect i c object gid) = some v) :
    ∃ u, t.step (.connect i c object gid) = some u ∧ Inv v ∧ Refines v u := by
  simp only [World.step] at hv
  set r := w.makeSlot c object gid with hr
  have hnew (s : Signal P Y O) (hs : w.signals i = some s) (a : Slot P Y O)
      (ha : a ∈ slots s.groups) : a.id ≠ r.id :=
    (List.getElem?_eq_some_iff.1 (hinv.booked i s hs a ha)).1.ne
  have hslots (s : Signal P Y O) : (slots (addSlot r w.index s.groups).groups).Perm
      (r :: slots s.groups) := SlotTable.addSlot_slots r w.index s.groups
  have href' : Refines { w with made := w.made ++ [r] } { t with made := t.made ++ [r] } :=
    ⟨href.holds, by rw [href.made], href.returned⟩
  obtain ⟨u, hu, hrefines⟩ := href'.onTable (g := fun l => (none, l.add r))
    (fun s l _ hheld => ⟨rfl, by
      rw [Multiset.coe_eq_coe.2 (hslots s), ← Multiset.cons_coe, hheld]
      rfl⟩) hv
  have hmade : r = ⟨t.made.length, gid, c, object, true, false⟩ := by
    rw [hr, href.made]
    rfl
  refine ⟨u, by rw [hmade] at hu; exact hu, ?_, hrefines⟩
  refine hinv.onTable [r] (fun id a ha => ?_)
    (fun s hs => (hinv.sound i s hs).addSlot (hnew s hs)) (fun s hs a ha => ?_)
    (fun s hs id hid _ => ?_) hv
  · rw [List.getElem?_append] at ha
    split_ifs at ha with hlt
    · exact hinv.numbered id a ha
    · rw [List.getElem?_singleton] at ha
      split_ifs at ha with hzero
      obtain rfl := Option.some.inj ha
      refine ⟨?_, rfl⟩
      change w.made.length = id
      omega
  · rcases List.mem_cons.1 ((hslots s).subset ha) with rfl | ha
    · exact ⟨List.getElem?_concat_length, Or.inr le_rfl⟩
    · have hbooked := hinv.booked i s hs a ha
      have hlt := (List.getElem?_eq_some_iff.1 hbooked).1
      exact ⟨(List.getElem?_append_left hlt).trans hbooked, Or.inl ha⟩
  · obtain ⟨k, hk⟩ := SlotTable.addSlot_index r w.index s.groups
    change (addSlot r w.index s.groups).index id = w.index id
    have hne : id ≠ r.id := Nat.ne_of_lt hid
    rw [hk, Function.update_of_ne hne]

/-- `Disconnect_all` leaves nothing, not even groups. -/
theorem disconnectAll_refines (hinv : Inv w) (href : Refines w t)
    (hv : w.step (.disconnectAll i) = some v) :
    ∃ u, t.step (.disconnectAll i) = some u ∧ Inv v ∧ Refines v u := by
  simp only [World.step] at hv
  obtain ⟨u, hu, hrefines⟩ := href.onTable (g := fun l => (none, l.remove fun _ => true))
    (fun s l _ _ => ⟨rfl, by simp [Ledger.remove]⟩) hv
  refine ⟨u, hu, hinv.onTable [] (by rw [List.append_nil]; exact hinv.numbered)
    (fun _ _ => SlotTable.sound_nil _) (fun _ _ r hr => absurd hr List.not_mem_nil)
    (fun _ _ _ _ _ => rfl) (by rw [List.append_nil]; exact hv), hrefines⟩

/-- `clean` removes the slot from the signal that holds it. -/
theorem clean_refines {id : ℕ} (hinv : Inv w) (href : Refines w t)
    (hv : w.step (.clean i id) = some v) :
    ∃ u, t.step (.clean i id) = some u ∧ Inv v ∧ Refines v u := by
  obtain ⟨state, hstate, hv⟩ := Option.bind_eq_some_iff.1 hv
  have hsame (s : Signal P Y O) (hs : w.signals i = some s) (r : Slot P Y O)
      (hr : r ∈ slots s.groups) (hid : r.id = state.id) : r = state := by
    have hbooked := hinv.booked i s hs r hr
    rw [hid, (hinv.numbered id state hstate).1, hstate] at hbooked
    exact (Option.some.inj hbooked).symm
  obtain ⟨u, hu, hnext⟩ := remove_refines (fun r => decide (r.id = state.id)) (fun _ => none)
    hinv href
    (fun s hs => SlotTable.clean_filtered (hinv.sound i s hs) (hsame s hs))
    (fun s hs => (hinv.sound i s hs).clean (hsame s hs))
    (fun s hs id hid => SlotTable.clean_index state w.index id s.groups hid)
    (fun _ _ _ _ => rfl) hv
  refine ⟨u, ?_, hnext⟩
  simp only [Registry.step, href.made, hstate, Option.bind_some]
  exact hu

/-- **Every call of the code is the same call of the registry**, with the same result. -/
theorem step_refines {c : Call S P Y O} (hinv : Inv w) (href : Refines w t)
    (hv : w.step c = some v) : ∃ u, t.step c = some u ∧ Inv v ∧ Refines v u := by
  cases c with
  | construct i =>
      simp only [World.step] at hv
      split at hv
      case h_2 => exact absurd hv (by simp)
      case h_1 hi =>
        obtain rfl := Option.some.inj hv
        refine ⟨t.place i (some (.empty, false)), by simp only [Registry.step, href.ledger_none hi],
          hinv.place ?_, href.place (Option.Rel.some ⟨rfl, rfl⟩)⟩
        rintro s' ⟨⟩
        exact Or.inl rfl
  | connect i c object gid => exact connect_refines hinv href hv
  | disconnect i c => exact removeIf_refines hinv href hv
  | disconnectObject i object => exact removeIf_refines hinv href hv
  | disconnectBoth i c object => exact removeIf_refines hinv href hv
  | disconnectGroup i gid =>
      simp only [World.step] at hv
      refine remove_refines _ (fun l => some (l.held.countP fun s => decide (s.group = gid)))
        hinv href
        (fun s hs => SlotTable.disconnectGroup_filtered (hinv.sound i s hs) gid)
        (fun s hs => (hinv.sound i s hs).disconnectGroup gid) (fun _ _ _ _ => rfl)
        (fun s l hs hheld => ?_) hv
      rw [SlotTable.disconnectGroup_count (hinv.sound i s hs), ← hheld, Multiset.coe_countP]
      simp
  | disconnectAll i => exact disconnectAll_refines hinv href hv
  | clean i id => exact clean_refines hinv href hv
  | block i blocked =>
      obtain ⟨s, hs, rfl⟩ := Option.map_eq_some_iff.1 hv
      obtain ⟨l, hl, hheld, -⟩ := href.exists_ledger hs
      refine ⟨t.place i (some (l.1, blocked)), by simp only [Registry.step, hl, Option.map_some],
        hinv.place ?_, href.place (Option.Rel.some ⟨hheld, rfl⟩)⟩
      rintro s' ⟨⟩
      exact Or.inr ⟨s, hs, rfl⟩
  | moveConstruct i o =>
      simp only [World.step] at hv
      split at hv
      case h_2 => exact absurd hv (by simp)
      case h_1 s hi ho =>
        obtain rfl := Option.some.inj hv
        obtain ⟨l, hl, hheld, hblock⟩ := href.exists_ledger ho
        refine ⟨(t.place i (some l)).place o (some (.empty, l.2)),
          by simp only [Registry.step, href.ledger_none hi, hl],
          hinv.swap ⟨s, ho, rfl⟩ (Or.inl rfl), ?_⟩
        exact (href.place (Option.Rel.some ⟨hheld, hblock⟩)).place
          (Option.Rel.some ⟨rfl, hblock⟩)
  | moveAssign i o =>
      simp only [World.step] at hv
      split at hv
      case h_2 => exact absurd hv (by simp)
      case h_1 s s' hi ho =>
        split_ifs at hv with hio
        obtain rfl := Option.some.inj hv
        obtain ⟨l, hl, hholds⟩ := href.exists_ledger hi
        obtain ⟨l', hl', hholds'⟩ := href.exists_ledger ho
        refine ⟨(t.place i (some l')).place o (some l),
          by simp only [Registry.step, hl, hl', if_neg hio],
          hinv.swap ⟨s', ho, rfl⟩ (Or.inr ⟨s, hi, rfl⟩), ?_⟩
        exact (href.place (Option.Rel.some hholds')).place (Option.Rel.some hholds)
  | destroy i =>
      obtain ⟨s, hs, rfl⟩ := Option.map_eq_some_iff.1 hv
      obtain ⟨l, hl, -⟩ := href.exists_ledger hs
      refine ⟨t.place i none, by simp only [Registry.step, hl, Option.map_some],
        hinv.place (by simp), href.place Option.Rel.none⟩

/-! ### Runs -/

/-- The state of a run is sound, and the registry is there with it. -/
theorem run_refines {calls : List (Call S P Y O)} (h : run World.step World.init calls = some w) :
    ∃ t, run Registry.step Registry.init calls = some t ∧ Inv w ∧ Refines w t := by
  refine run_simulation (R := fun w t => Inv w ∧ Refines w t) (fun u t c v hR hv => ?_)
    ⟨inv_init, refines_init⟩ h
  exact step_refines hR.1 hR.2 hv

/-- **The slots of every signal after every run.**  The groups are in order and the slots where
they say; a call returned what the registry says, and the signal holds what the registry says, in
number what was connected less what was removed; and `Emit` calls each slot that the signal holds,
once and in the order of the groups, if the signal is not blocked. -/
theorem signals_sound {calls : List (Call S P Y O)} (h : run World.step World.init calls = some w) :
    ∃ t, run Registry.step Registry.init calls = some t ∧ w.returned = t.returned ∧
      ∀ i s, w.signals i = some s → ∃ l, t.ledgers i = some (l, s.block) ∧
        s.groups.Pairwise (fun g g' => g.gid < g'.gid) ∧
        (∀ g ∈ s.groups, ∀ k r, g.slts[k]? = some r → w.index r.id = k ∧ r.group = g.gid) ∧
        (slots s.groups : Multiset (Slot P Y O)) = l.held ∧
        s.slotCount + l.removed = l.connected ∧
        (s.block = false → (s.emit : Multiset (Slot P Y O)) = l.held ∧
          (s.emit.map Slot.id).Nodup ∧ s.emit.Pairwise fun r r' => r.group ≤ r'.group) := by
  obtain ⟨t, ht, hinv, href⟩ := run_refines h
  refine ⟨t, ht, href.returned.symm, fun i s hs => ?_⟩
  obtain ⟨⟨l, block⟩, hl, hheld, hblock⟩ := href.exists_ledger hs
  replace hheld : (slots s.groups : Multiset (Slot P Y O)) = l.held := hheld
  obtain rfl : s.block = block := hblock
  have hsound := hinv.sound i s hs
  refine ⟨l, hl, hsound.sorted, fun g hg k r hk => ?_, hheld, ?_, fun hopen => ?_⟩
  · exact ⟨hsound.placed g hg k r hk, hsound.grouped g hg r (List.mem_of_getElem? hk)⟩
  · have hbalance := l.balance
    rw [← hheld, Multiset.coe_card] at hbalance
    rw [Signal.slotCount, SlotTable.countLoop_eq]
    exact hbalance
  · have hemit : s.emit = slots s.groups := by
      rw [Signal.emit, hopen, if_neg (by simp), SlotTable.emitLoop_eq, List.filter_eq_self]
      intro r hr
      exact (hinv.numbered r.id r (hinv.booked i s hs r hr)).2
    rw [hemit]
    exact ⟨hheld, hsound.distinct, hsound.slots_ordered⟩

/-- Four slots in three groups; one group is disconnected, a slot is cleaned, and the rest is moved
to another object. -/
theorem signals_sound_moved : ∃ (w : World Bool ℕ ℕ ℕ) (t : Registry Bool ℕ ℕ ℕ),
    w.returned = t.returned ∧ ∀ i s, w.signals i = some s →
      ∃ l, t.ledgers i = some (l, s.block) ∧ s.slotCount + l.removed = l.connected := by
  obtain ⟨w, hw⟩ := Option.isSome_iff_exists.1 (show (run World.step World.init
    [.construct true, .connect true ⟨some 1, 0, false⟩ none 5,
      .connect true ⟨some 2, 0, false⟩ none 0, .connect true ⟨some 3, 0, false⟩ (some 7) 0,
      .connect true ⟨some 1, 0, false⟩ none 2, .disconnectGroup true 5, .clean true 1,
      .moveConstruct false true, .disconnect false ⟨some 3, 0, false⟩] :
    Option (World Bool ℕ ℕ ℕ)).isSome = true from rfl)
  obtain ⟨t, -, hreturned, ht⟩ := signals_sound hw
  refine ⟨w, t, hreturned, fun i s hs => ?_⟩
  obtain ⟨l, hl, -, -, -, hcount, -⟩ := ht i s hs
  exact ⟨l, hl, hcount⟩

end Signals
end BreUtils
