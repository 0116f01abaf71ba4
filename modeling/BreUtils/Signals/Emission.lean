/-
# Emission while the slots change

`Signal::Emit` walks over the groups and over the slots of each group with the iterators
of the vectors themselves, and a slot may call `Connect` or `Disconnect` on the signal
that is calling it.  An iterator does not survive a call that inserts into its vector or
erases from it: not the iterator to the end, which the loop compares with next, and after
a reallocation or a removal not the one it stands at either.  So an emission that goes on
after such a call is `lost`: what it does is undefined.

`Emit` looks at no vector but that of the groups and that of the group it is in.  A slot
may connect to another group that is there, and disconnect slots of other groups, as it
likes.  If every slot keeps to that (`Spares`), the emission calls each slot that was
there at the start and is not disconnected, none twice, and none that is not there.  If
one does not, the emission is lost (`emit_correct_iff`), as when a slot connects another
one to its own group (`emit_lost_by_connect`).
-/

import BreUtils.Signals.Signal

namespace BreUtils
namespace Signals

open Lib.Transition (run Meets)
open SlotTable (Sound addSlot disconnectIf disconnectGroup)

variable {S P Y O : Type*}

/-- What a slot calls on the signal that calls it. -/
inductive BodyCall (P Y O : Type*) where
  | connect (c : Callable P Y) (object : Option O) (gid : ℤ)
  | disconnect (c : Callable P Y)
  | disconnectObject (object : Option O)
  | disconnectBoth (c : Callable P Y) (object : Option O)
  | disconnectGroup (gid : ℤ)
  | disconnectAll

/-- The call, on a signal. -/
def BodyCall.on (i : S) : BodyCall P Y O → Call S P Y O
  | .connect c object gid => .connect i c object gid
  | .disconnect c => .disconnect i c
  | .disconnectObject object => .disconnectObject i object
  | .disconnectBoth c object => .disconnectBoth i c object
  | .disconnectGroup gid => .disconnectGroup i gid
  | .disconnectAll => .disconnectAll i

/-- Where the loops of `Emit` are. -/
inductive Place where
  /-- Before it compares the iterator over the groups with their end. -/
  | outer (g : ℕ)
  /-- Before it compares the iterator over the slots of a group with their end. -/
  | inner (g k : ℕ)
  /-- In the body of a slot; `valid`: no iterator in use has been invalidated. -/
  | body (g k : ℕ) (valid : Bool)
  | returned
  /-- It has used an iterator that is not valid. -/
  | lost
  deriving DecidableEq

/-- A slot that was called, and the slots that were there. -/
structure Visit (P Y O : Type*) where
  slot : Slot P Y O
  present : List (Slot P Y O)

/-- A running `Emit`. -/
structure Emission (S P Y O : Type*) where
  world : World S P Y O
  place : Place
  visits : List (Visit P Y O)

/-- A step of the loops, or a call out of the body of a slot. -/
inductive EmitAction (P Y O : Type*) where
  | next
  | call (c : BodyCall P Y O)

/-- `m_slots` of a signal. -/
def World.groups (w : World S P Y O) (i : S) : List (Group P Y O) :=
  (w.signals i).elim [] Signal.groups

/-- The vectors that `Emit` is iterating over have neither gained nor lost an element. -/
def sameSizes (before after : List (Group P Y O)) (g : ℕ) : Bool :=
  decide (after.length = before.length) &&
    decide (after[g]?.map (fun h => h.slts.length) = before[g]?.map fun h => h.slts.length)

namespace Emission

/-- `Emit` on a signal that is not blocked; on a blocked one it returns at once. -/
def start (w : World S P Y O) (i : S) : Option (Emission S P Y O) :=
  (w.signals i).bind fun s => if s.block then none else some ⟨w, .outer 0, []⟩

variable [DecidableEq S] [DecidableEq P] [DecidableEq Y] [DecidableEq O] (i : S)

/-- One step of the loops. -/
def next (e : Emission S P Y O) : Option (Emission S P Y O) :=
  match e.place with
  | .outer g =>
      some { e with place := if g < (e.world.groups i).length then .inner g 0 else .returned }
  | .inner g k => (e.world.groups i)[g]?.map fun group => match group.slts[k]? with
    | none => { e with place := .outer (g + 1) }
    | some s =>
        if s.active then
          { e with
            place := .body g k true
            visits := e.visits ++ [⟨s, slots (e.world.groups i)⟩] }
        else { e with place := .inner g (k + 1) }
  | .body g k valid => some { e with place := if valid then .inner g (k + 1) else .lost }
  | .returned | .lost => none

/-- **One step.** -/
def step (e : Emission S P Y O) : EmitAction P Y O → Option (Emission S P Y O)
  | .next => next i e
  | .call c => match e.place with
    | .body g k valid => (e.world.step (c.on i)).map fun w =>
        { e with
          world := w
          place := .body g k (valid && sameSizes (e.world.groups i) (w.groups i) g) }
    | _ => none

end Emission

/-- The call leaves alone the group that is being visited, and the vector of the groups. -/
def Spares [DecidableEq P] [DecidableEq Y] [DecidableEq O] (groups : List (Group P Y O))
    (group : Group P Y O) : BodyCall P Y O → Prop
  | .connect _ _ gid => gid ≠ group.gid ∧ ∃ h ∈ groups, h.gid = gid
  | .disconnect c => ∀ s ∈ group.slts, s.hasFullCallable c = false
  | .disconnectObject object => ∀ s ∈ group.slts, s.hasObject object = false
  | .disconnectBoth c object => ∀ s ∈ group.slts, (s.hasObject object && s.hasCallable c) = false
  | .disconnectGroup gid => gid ≠ group.gid
  | .disconnectAll => False

/-! ### What a call does to the vectors in use -/

/-- What stands at one place of two lists that are related element by element. -/
theorem getElem?_of_forall₂ {α β : Type*} {R : α → β → Prop} {l : List α} {l' : List β}
    (h : List.Forall₂ R l l') {g : ℕ} {a : α} (ha : l[g]? = some a) :
    ∃ b, l'[g]? = some b ∧ R a b := by
  induction h generalizing g with
  | nil => exact absurd ha (by simp)
  | cons hab _ ih =>
      cases g with
      | zero =>
          obtain rfl := Option.some.inj ha
          exact ⟨_, rfl, hab⟩
      | succ g => exact ih ha

/-- The vectors in use are as they were, or one of them is not of its size. -/
def Spared (gs gs' : List (Group P Y O)) (g : ℕ) (spares : Prop) : Prop :=
  (spares ∧ gs'.map Group.gid = gs.map Group.gid ∧ gs'[g]? = gs[g]?) ∨
    ¬ spares ∧ sameSizes gs gs' g = false

section

variable {index : ℕ → ℕ} {gs gs' : List (Group P Y O)} {group : Group P Y O} {g : ℕ}

/-- A removal spares the group if nothing in it matches. -/
theorem spared_of_filtered {cond : Slot P Y O → Bool}
    (hfilter : List.Forall₂ (SlotTable.Filtered fun r => !cond r) gs gs')
    (hkeep : List.Forall₂ (fun h h' => (∀ r ∈ h.slts, cond r = false) → h' = h) gs gs')
    (hg : gs[g]? = some group) : Spared gs gs' g (∀ r ∈ group.slts, cond r = false) := by
  obtain ⟨group', hg', -, hperm⟩ := getElem?_of_forall₂ hfilter hg
  by_cases hnone : ∀ r ∈ group.slts, cond r = false
  · refine Or.inl ⟨hnone, SlotTable.gids_filtered hfilter, ?_⟩
    obtain ⟨h', hh', heq⟩ := getElem?_of_forall₂ hkeep hg
    rw [hh', hg, heq hnone]
  · refine Or.inr ⟨hnone, ?_⟩
    have hlt : group'.slts.length ≠ group.slts.length := by
      rw [hperm.length_eq]
      intro hlength
      refine hnone fun r hr => ?_
      simpa using List.length_filter_eq_length_iff.1 hlength r hr
    simp [sameSizes, hg, hg', hlt]

theorem removeLoop_of_none {cond : Slot P Y O → Bool} (slts : List (Slot P Y O)) (i : ℕ)
    (index : ℕ → ℕ) (count : ℕ) (h : ∀ r ∈ slts, cond r = false) :
    SlotTable.removeLoop cond slts i index count = ⟨slts, index, count⟩ := by
  fun_induction SlotTable.removeLoop cond slts i index count with
  | case1 slts i index count hi hcond ih =>
      rw [h _ (List.getElem_mem hi)] at hcond
      exact absurd hcond (by simp)
  | case2 slts i index count hi hcond ih => exact ih h
  | case3 slts i index count hi => rfl

theorem spared_disconnectIf (cond : Slot P Y O → Bool) (count : ℕ) (hg : gs[g]? = some group) :
    Spared gs (disconnectIf cond index count gs).2.groups g (∀ r ∈ group.slts, cond r = false) := by
  refine spared_of_filtered (SlotTable.disconnectIf_filtered cond index count gs) ?_ hg
  clear hg
  induction gs generalizing index count with
  | nil => exact List.Forall₂.nil
  | cons h gs ih =>
      refine List.Forall₂.cons (fun hnone => ?_) (ih _)
      rw [removeLoop_of_none _ _ _ _ hnone]

/-- `Disconnect(gid)` spares the group if it is another one, or has no slots. -/
theorem spared_disconnectGroup (hsound : Sound ⟨index, gs⟩) (gid : ℤ)
    (hg : gs[g]? = some group) (hne : group.slts ≠ []) :
    Spared gs (disconnectGroup gid gs).2 g (gid ≠ group.gid) := by
  have hkeep : List.Forall₂ (fun h h' => (∀ r ∈ h.slts, decide (r.group = gid) = false) → h' = h)
      gs (disconnectGroup gid gs).2 := by
    clear hg
    induction gs with
    | nil => exact List.Forall₂.nil
    | cons h gs ih =>
        have hgrouped := hsound.grouped h List.mem_cons_self
        unfold SlotTable.disconnectGroup
        split_ifs with hgid
        · refine List.Forall₂.cons (fun hnone => ?_) (List.forall₂_same.2 fun _ _ _ => rfl)
          have hempty : h.slts = [] := List.eq_nil_iff_forall_not_mem.2 fun r hr => by
            have hr' := hnone r hr
            rw [hgrouped r hr, hgid] at hr'
            exact absurd hr' (by simp)
          rw [← hempty]
        · exact List.Forall₂.cons (fun _ => rfl) (ih hsound.tail)
  have hiff : (∀ r ∈ group.slts, decide (r.group = gid) = false) ↔ gid ≠ group.gid := by
    have hgrouped := hsound.grouped group (List.mem_of_getElem? hg)
    constructor
    · obtain ⟨r, hr⟩ := List.exists_mem_of_ne_nil _ hne
      rintro h rfl
      exact absurd (h r hr) (by simp [hgrouped r hr])
    · intro h r hr
      simp [hgrouped r hr, h.symm]
  rw [← hiff]
  exact spared_of_filtered (SlotTable.disconnectGroup_filtered hsound gid) hkeep hg

/-- `add_slot` into a group that is there: the slot is pushed, and the other groups stay. -/
theorem addSlot_of_mem {s : Slot P Y O} (hsound : Sound ⟨index, gs⟩)
    (hmem : ∃ h ∈ gs, h.gid = s.group) :
    List.Forall₂ (fun h h' => h' = if h.gid = s.group then ⟨h.slts ++ [s], h.gid⟩ else h) gs
      (addSlot s index gs).groups := by
  induction gs with
  | nil =>
      obtain ⟨h, hh, -⟩ := hmem
      exact absurd hh List.not_mem_nil
  | cons h gs ih =>
      have hlater := (List.pairwise_cons.1 hsound.sorted).1
      unfold addSlot
      split_ifs with hlt heq
      · refine List.Forall₂.cons (by rw [if_neg hlt.ne]) (ih hsound.tail ?_)
        obtain ⟨h', hh', hgid⟩ := hmem
        rcases List.mem_cons.1 hh' with rfl | hh'
        · exact absurd hgid hlt.ne
        · exact ⟨h', hh', hgid⟩
      · refine List.Forall₂.cons (by rw [if_pos heq]) (List.forall₂_same.2 fun h' hh' => ?_)
        rw [if_neg (heq ▸ (hlater h' hh').ne')]
      · -- the group would have been met before
        obtain ⟨h', hh', hgid⟩ := hmem
        rcases List.mem_cons.1 hh' with rfl | hh'
        · exact absurd hgid heq
        · have hlt' := hlater h' hh'
          omega

/-- `add_slot` makes a group if there is none. -/
theorem length_addSlot {s : Slot P Y O} (hmem : ¬ ∃ h ∈ gs, h.gid = s.group) :
    (addSlot s index gs).groups.length = gs.length + 1 := by
  induction gs with
  | nil => rfl
  | cons h gs ih =>
      unfold addSlot
      split_ifs with hlt heq
      · rw [List.length_cons, List.length_cons, ih]
        rintro ⟨h', hh', hgid⟩
        exact hmem ⟨h', List.mem_cons_of_mem h hh', hgid⟩
      · exact absurd ⟨h, List.mem_cons_self, heq⟩ hmem
      · rfl

theorem spared_addSlot {s : Slot P Y O} (hsound : Sound ⟨index, gs⟩) (hg : gs[g]? = some group) :
    Spared gs (addSlot s index gs).groups g
      (s.group ≠ group.gid ∧ ∃ h ∈ gs, h.gid = s.group) := by
  by_cases hmem : ∃ h ∈ gs, h.gid = s.group
  · have hall := addSlot_of_mem hsound hmem
    obtain ⟨group', hg', hgroup'⟩ := getElem?_of_forall₂ hall hg
    by_cases hgid : group.gid = s.group
    · refine Or.inr ⟨fun hs => hs.1 hgid.symm, ?_⟩
      rw [if_pos hgid] at hgroup'
      simp [sameSizes, hg, hg', hgroup']
    · refine Or.inl ⟨⟨Ne.symm hgid, hmem⟩, SlotTable.gids_of_forall₂ hall fun h h' hh => ?_,
        by rw [hg', hg, hgroup', if_neg hgid]⟩
      rw [hh]
      split_ifs <;> rfl
  · refine Or.inr ⟨fun hs => hmem hs.2, ?_⟩
    simp [sameSizes, length_addSlot hmem]

end

/-! ### What is ahead of the loops -/

/-- The slot stands at or behind a place of the loops. -/
def AheadOf (gs : List (Group P Y O)) (g k : ℕ) (r : Slot P Y O) : Prop :=
  ∃ (j m : ℕ) (h : Group P Y O), gs[j]? = some h ∧ h.slts[m]? = some r ∧ (g < j ∨ g = j ∧ k ≤ m)

/-- The loops come to the slot, if it stays where it is. -/
def Place.Ahead (gs : List (Group P Y O)) (r : Slot P Y O) : Place → Prop
  | .outer g => AheadOf gs g 0 r
  | .inner g k => AheadOf gs g k r
  | .body g k _ => AheadOf gs g (k + 1) r
  | .returned | .lost => False

section

variable {index : ℕ → ℕ} {gs gs' : List (Group P Y O)} {r r' : Slot P Y O} {g k j m j' m' : ℕ}
  {h h' : Group P Y O}

/-- A slot stands at one place only. -/
theorem SlotTable.Sound.place_unique (hsound : Sound ⟨index, gs⟩) (hj : gs[j]? = some h)
    (hm : h.slts[m]? = some r) (hj' : gs[j']? = some h') (hm' : h'.slts[m']? = some r) :
    j = j' ∧ m = m' := by
  have hh := List.mem_of_getElem? hj
  have hh' := List.mem_of_getElem? hj'
  have hgid : h.gid = h'.gid :=
    (hsound.grouped h hh r (List.mem_of_getElem? hm)).symm.trans
      (hsound.grouped h' hh' r (List.mem_of_getElem? hm'))
  have hindex : m = m' := (hsound.placed h hh m r hm).symm.trans (hsound.placed h' hh' m' r hm')
  refine ⟨?_, hindex⟩
  obtain ⟨hlt, rfl⟩ := List.getElem?_eq_some_iff.1 hj
  obtain ⟨hlt', rfl⟩ := List.getElem?_eq_some_iff.1 hj'
  have hsorted := List.pairwise_iff_getElem.1 hsound.sorted
  rcases Nat.lt_trichotomy j j' with hjj | hjj | hjj
  · exact absurd hgid (hsorted j j' hlt hlt' hjj).ne
  · exact hjj
  · exact absurd hgid (hsorted j' j hlt' hlt hjj).ne'

theorem exists_place (hr : r ∈ slots gs) :
    ∃ (j m : ℕ) (h : Group P Y O), gs[j]? = some h ∧ h.slts[m]? = some r := by
  obtain ⟨h, hh, hr⟩ := SlotTable.mem_slots.1 hr
  obtain ⟨j, hj⟩ := List.mem_iff_getElem?.1 hh
  obtain ⟨m, hm⟩ := List.mem_iff_getElem?.1 hr
  exact ⟨j, m, h, hj, hm⟩

/-- Behind the last group there is nothing. -/
theorem not_aheadOf_length (hg : gs.length ≤ g) : ¬ AheadOf gs g 0 r := by
  rintro ⟨j, m, h, hj, -, hplace⟩
  have hlt := (List.getElem?_eq_some_iff.1 hj).1
  omega

/-- Behind the last slot of a group comes the next group. -/
theorem aheadOf_succ_group (hg : gs[g]? = some h) (hk : h.slts[k]? = none) :
    AheadOf gs g k r ↔ AheadOf gs (g + 1) 0 r := by
  refine exists_congr fun j => exists_congr fun m => exists_congr fun h' =>
    and_congr_right fun hj => and_congr_right fun hm => ?_
  have hlength := List.getElem?_eq_none_iff.1 hk
  have hlt := (List.getElem?_eq_some_iff.1 hm).1
  constructor
  · rintro (hgj | ⟨rfl, hkm⟩)
    · omega
    · obtain rfl := Option.some.inj (hg.symm.trans hj)
      omega
  · omega

/-- At a slot there is the slot, and what is behind it. -/
theorem aheadOf_succ (r' : Slot P Y O) (hsound : Sound ⟨index, gs⟩) (hg : gs[g]? = some h)
    (hk : h.slts[k]? = some r) :
    (AheadOf gs g k r' ↔ r' = r ∨ AheadOf gs g (k + 1) r') ∧ ¬ AheadOf gs g (k + 1) r := by
  refine ⟨⟨?_, ?_⟩, ?_⟩
  · rintro ⟨j, m, h', hj, hm, hplace⟩
    by_cases hat : g = j ∧ k = m
    · obtain ⟨rfl, rfl⟩ := hat
      obtain rfl := Option.some.inj (hg.symm.trans hj)
      exact Or.inl (Option.some.inj (hm.symm.trans hk))
    · exact Or.inr ⟨j, m, h', hj, hm, by omega⟩
  · rintro (rfl | ⟨j, m, h', hj, hm, hplace⟩)
    · exact ⟨g, k, h, hg, hk, Or.inr ⟨rfl, le_rfl⟩⟩
    · exact ⟨j, m, h', hj, hm, by omega⟩
  · rintro ⟨j, m, h', hj, hm, hplace⟩
    obtain ⟨rfl, rfl⟩ := hsound.place_unique hg hk hj hm
    omega

/-- **A call that spares the vectors in use moves no slot across the place of the loops.** -/
theorem aheadOf_spared (hsound : Sound ⟨index, gs⟩) {index' : ℕ → ℕ}
    (hsound' : Sound ⟨index', gs'⟩) (hgids : gs'.map Group.gid = gs.map Group.gid)
    (hget : gs'[g]? = gs[g]?) (hr : r ∈ slots gs) (hr' : r ∈ slots gs') :
    AheadOf gs' g k r ↔ AheadOf gs g k r := by
  obtain ⟨j, m, h, hj, hm⟩ := exists_place hr
  obtain ⟨j', m', h', hj', hm'⟩ := exists_place hr'
  -- the group of a slot has the same place before and after
  have hgid : h'.gid = h.gid :=
    (hsound'.grouped h' (List.mem_of_getElem? hj') r (List.mem_of_getElem? hm')).symm.trans
      (hsound.grouped h (List.mem_of_getElem? hj) r (List.mem_of_getElem? hm))
  have hjj : j' = j := by
    have hgids' : (gs.map Group.gid)[j']? = (gs.map Group.gid)[j]? := by
      rw [← hgids, List.getElem?_map, hj', hgids, List.getElem?_map, hj, Option.map_some,
        Option.map_some, hgid]
    have hlt : j' < (gs.map Group.gid).length := by
      rw [← hgids, List.length_map]
      exact (List.getElem?_eq_some_iff.1 hj').1
    have hnodup : (gs.map Group.gid).Nodup :=
      (List.pairwise_map.2 hsound.sorted).imp fun hlt => ne_of_lt hlt
    exact (List.getElem?_inj hlt hnodup).1 hgids'
  subst hjj
  have hmm (heq : g = j') : m' = m := by
    subst heq
    rw [hj, hj'] at hget
    obtain rfl := Option.some.inj hget
    exact (hsound.place_unique hj hm' hj hm).2
  constructor
  · rintro ⟨a, b, x, ha, hb, hplace⟩
    obtain ⟨rfl, rfl⟩ := hsound'.place_unique hj' hm' ha hb
    refine ⟨_, m, h, hj, hm, hplace.imp_right fun hat => ⟨hat.1, ?_⟩⟩
    exact hmm hat.1 ▸ hat.2
  · rintro ⟨a, b, x, ha, hb, hplace⟩
    obtain ⟨rfl, rfl⟩ := hsound.place_unique hj hm ha hb
    refine ⟨_, m', h', hj', hm', hplace.imp_right fun hat => ⟨hat.1, ?_⟩⟩
    exact (hmm hat.1).symm ▸ hat.2

end

/-- A signal that is there has its groups. -/
theorem World.groups_eq {w : World S P Y O} {i : S} {s : Signal P Y O} (h : w.signals i = some s) :
    w.groups i = s.groups := by
  rw [World.groups, h]
  rfl

variable {w v : World S P Y O} {i : S} {g : ℕ} {group : Group P Y O}

/-- The slots of any signal make a sound table. -/
theorem Inv.sound_groups (hinv : Inv w) (i : S) : Sound ⟨w.index, w.groups i⟩ := by
  cases hs : w.signals i with
  | none => rw [World.groups, hs]; exact SlotTable.sound_nil _
  | some s => rw [World.groups_eq hs]; exact hinv.sound i s hs

/-- The slots of any signal were made. -/
theorem Inv.booked_groups (hinv : Inv w) {r : Slot P Y O} (hr : r ∈ slots (w.groups i)) :
    w.made[r.id]? = some r := by
  cases hs : w.signals i with
  | none =>
      rw [World.groups, hs] at hr
      exact absurd hr List.not_mem_nil
  | some s =>
      rw [World.groups_eq hs] at hr
      exact hinv.booked i s hs r hr

/-! ### An emission that is not lost -/

/-- The world was reached by calls. -/
def Reached (w : World S P Y O) : Prop := Inv w ∧ ∃ t, Refines w t

/-- The invariant of an emission, with the slots that were there at its start. -/
structure Steady (i : S) (started : List (Slot P Y O)) (e : Emission S P Y O) : Prop where
  reached : Reached e.world
  made : ∀ r ∈ started, e.world.made[r.id]? = some r
  known : ∀ x ∈ e.visits, e.world.made[x.slot.id]? = some x.slot
  present : ∀ x ∈ e.visits, x.slot ∈ x.present
  once : (e.visits.map fun x => x.slot.id).Nodup
  past : ∀ x ∈ e.visits, ¬ e.place.Ahead (e.world.groups i) x.slot
  complete : ∀ r ∈ started, r ∈ slots (e.world.groups i) →
    r ∈ e.visits.map Visit.slot ∨ e.place.Ahead (e.world.groups i) r
  valid : ∀ g k valid, e.place = .body g k valid → valid = true ∧
    ∃ group, (e.world.groups i)[g]? = some group ∧ group.slts ≠ []
  kept : e.place ≠ .lost

variable {e e' : Emission S P Y O} {started : List (Slot P Y O)}

/-- The loops go on, and what is ahead stays the same. -/
theorem Steady.move {place : Place} (h : Steady i started e)
    (hahead : ∀ r, place.Ahead (e.world.groups i) r ↔ e.place.Ahead (e.world.groups i) r)
    (hbody : ∀ g k valid, place ≠ .body g k valid) (hkept : place ≠ .lost) :
    Steady i started { e with place := place } :=
  { h with
    past := fun x hx hat => h.past x hx ((hahead _).1 hat)
    complete := fun r hr hmem => (h.complete r hr hmem).imp_right (hahead r).2
    valid := fun g k valid heq => absurd heq (hbody g k valid)
    kept := hkept }

/-- **The next slot is called**: it was not called before, and what is behind it is still ahead. -/
theorem Steady.visit {g k : ℕ} {s : Slot P Y O} (h : Steady i started e)
    (hplace : e.place = .inner g k) (hg : (e.world.groups i)[g]? = some group)
    (hk : group.slts[k]? = some s) :
    Steady i started { e with
      place := .body g k true
      visits := e.visits ++ [⟨s, slots (e.world.groups i)⟩] } := by
  have hsound := h.reached.1.sound_groups i
  have hmem : s ∈ slots (e.world.groups i) :=
    SlotTable.mem_slots.2 ⟨group, List.mem_of_getElem? hg, List.mem_of_getElem? hk⟩
  have hmade : e.world.made[s.id]? = some s := h.reached.1.booked_groups hmem
  have hahead (r : Slot P Y O) := aheadOf_succ r hsound hg hk
  have hpast (x : Visit P Y O) (hx : x ∈ e.visits) : ¬ AheadOf (e.world.groups i) g k x.slot := by
    have hpast := h.past x hx
    rwa [hplace] at hpast
  have hnew (x : Visit P Y O) (hx : x ∈ e.visits) : x.slot.id ≠ s.id := by
    intro hid
    have hknown := h.known x hx
    rw [hid, hmade] at hknown
    exact hpast x hx (Option.some.inj hknown ▸ (hahead s).1.2 (Or.inl rfl))
  have hall {p : Visit P Y O → Prop} (hold : ∀ x ∈ e.visits, p x)
      (hlast : p ⟨s, slots (e.world.groups i)⟩) :
      ∀ x ∈ e.visits ++ [⟨s, slots (e.world.groups i)⟩], p x := by
    intro x hx
    rcases List.mem_append.1 hx with hx | hx
    · exact hold x hx
    · exact List.mem_singleton.1 hx ▸ hlast
  exact {
    reached := h.reached
    made := h.made
    known := hall h.known hmade
    present := hall h.present hmem
    once := by
      rw [List.map_append, List.map_singleton]
      refine h.once.append (List.nodup_singleton _) (List.disjoint_singleton.2 fun hid => ?_)
      obtain ⟨x, hx, hid⟩ := List.mem_map.1 hid
      exact hnew x hx hid
    past := hall (fun x hx hat => hpast x hx ((hahead x.slot).1.2 (Or.inr hat))) (hahead s).2
    complete := fun r hr hslot => by
      rw [List.map_append, List.mem_append]
      have hcomplete := h.complete r hr hslot
      rw [hplace] at hcomplete
      rcases hcomplete with hseen | hat
      · exact Or.inl (Or.inl hseen)
      · rcases (hahead r).1.1 hat with rfl | hat
        · exact Or.inl (Or.inr List.mem_cons_self)
        · exact Or.inr hat
    valid := fun g' k' valid heq => by
      obtain ⟨rfl, rfl, rfl⟩ := Place.body.inj heq
      exact ⟨rfl, group, hg, List.ne_nil_of_mem (List.mem_of_getElem? hk)⟩
    kept := by simp }

/-! ### Calls -/

variable [DecidableEq S]

theorem onTable_groups {f : (ℕ → ℕ) → List (Group P Y O) → Option ℕ × SlotTable P Y O}
    (h : w.onTable i f = some v) : v.groups i = (f w.index (w.groups i)).2.groups := by
  obtain ⟨s, hs, rfl⟩ := Option.map_eq_some_iff.1 h
  rw [World.groups_eq hs, World.groups]
  simp only [Function.update_self]
  rfl

variable [DecidableEq P] [DecidableEq Y] [DecidableEq O]

/-- What a call does to the table of its signal. -/
theorem call_cases {c : BodyCall P Y O} (h : w.step (c.on i) = some v) :
    (∃ callable object gid, c = .connect callable object gid ∧
      v.groups i = (addSlot (w.makeSlot callable object gid) w.index (w.groups i)).groups) ∨
    (∃ cond, (∀ group, Spares (w.groups i) group c ↔ ∀ r ∈ group.slts, cond r = false) ∧
      v.groups i = (disconnectIf cond w.index 0 (w.groups i)).2.groups) ∨
    (∃ gid, c = .disconnectGroup gid ∧ v.groups i = (disconnectGroup gid (w.groups i)).2) ∨
    c = .disconnectAll ∧ v.groups i = [] := by
  cases c <;> simp only [BodyCall.on, World.step, World.removeIf] at h
  case connect callable object gid =>
    exact Or.inl ⟨callable, object, gid, rfl, onTable_groups h⟩
  case disconnectGroup gid =>
    exact Or.inr (Or.inr (Or.inl ⟨gid, rfl, onTable_groups h⟩))
  case disconnectAll => exact Or.inr (Or.inr (Or.inr ⟨rfl, onTable_groups h⟩))
  all_goals exact Or.inr (Or.inl ⟨_, fun _ => Iff.rfl, onTable_groups h⟩)

/-- **A call spares the vectors in use as its condition says.** -/
theorem spared_of_call {c : BodyCall P Y O} (hinv : Inv w) (hg : (w.groups i)[g]? = some group)
    (hne : group.slts ≠ []) (h : w.step (c.on i) = some v) :
    Spared (w.groups i) (v.groups i) g (Spares (w.groups i) group c) := by
  rcases call_cases h with
    ⟨callable, object, gid, rfl, hv⟩ | ⟨cond, hspares, hv⟩ | ⟨gid, rfl, hv⟩ | ⟨rfl, hv⟩
  · rw [hv]
    exact spared_addSlot (hinv.sound_groups i) hg
  · rw [hv, hspares]
    exact spared_disconnectIf cond 0 hg
  · rw [hv]
    exact spared_disconnectGroup (hinv.sound_groups i) gid hg hne
  · refine Or.inr ⟨id, ?_⟩
    have hlt := (List.getElem?_eq_some_iff.1 hg).1
    have hlength : ¬ 0 = (w.groups i).length := by omega
    simp [hv, sameSizes, hlength]

/-- A call adds no slot but a new one. -/
theorem mem_slots_of_call {c : BodyCall P Y O} (hinv : Inv w) (h : w.step (c.on i) = some v)
    {r : Slot P Y O} (hr : r ∈ slots (v.groups i)) :
    r ∈ slots (w.groups i) ∨ w.made.length ≤ r.id := by
  rcases call_cases h with ⟨callable, object, gid, -, hv⟩ | ⟨cond, -, hv⟩ | ⟨gid, -, hv⟩ | ⟨-, hv⟩
  · rw [hv] at hr
    rcases List.mem_cons.1 ((SlotTable.addSlot_slots _ _ _).subset hr) with rfl | hr
    · exact Or.inr le_rfl
    · exact Or.inl hr
  · have hperm := SlotTable.slots_filtered
      (SlotTable.disconnectIf_filtered cond w.index 0 (w.groups i))
    rw [hv] at hr
    exact Or.inl (List.mem_of_mem_filter (hperm.subset hr))
  · have hperm := SlotTable.slots_filtered
      (SlotTable.disconnectGroup_filtered (hinv.sound_groups i) gid)
    rw [hv] at hr
    exact Or.inl (List.mem_of_mem_filter (hperm.subset hr))
  · rw [hv] at hr
    exact absurd hr List.not_mem_nil

/-- A slot that was made stays so. -/
theorem made_of_call {c : BodyCall P Y O} (h : w.step (c.on i) = some v) : w.made <+: v.made := by
  cases c with
  | connect callable object gid =>
      obtain ⟨s, -, rfl⟩ := Option.map_eq_some_iff.1 h
      exact List.prefix_append _ _
  | disconnect | disconnectObject | disconnectBoth | disconnectGroup | disconnectAll =>
      obtain ⟨s, -, rfl⟩ := Option.map_eq_some_iff.1 h
      exact List.prefix_rfl

theorem reached_of_call {c : BodyCall P Y O} (hw : Reached w) (h : w.step (c.on i) = some v) :
    Reached v := by
  obtain ⟨hinv, t, href⟩ := hw
  obtain ⟨u, -, hinv', href'⟩ := step_refines hinv href h
  exact ⟨hinv', u, href'⟩

/-- **A call that spares the vectors in use keeps the emission steady.** -/
theorem Steady.call {c : BodyCall P Y O} {g k : ℕ} (h : Steady i started e)
    (hplace : e.place = .body g k true) (hv : e.world.step (c.on i) = some v)
    (hgids : (v.groups i).map Group.gid = (e.world.groups i).map Group.gid)
    (hget : (v.groups i)[g]? = (e.world.groups i)[g]?) :
    Steady i started { e with world := v, place := .body g k true } := by
  have hreached := reached_of_call h.reached hv
  have hmade {r : Slot P Y O} (hr : e.world.made[r.id]? = some r) : v.made[r.id]? = some r := by
    obtain ⟨news, hnews⟩ := made_of_call hv
    rw [← hnews]
    exact (List.getElem?_append_left (List.getElem?_eq_some_iff.1 hr).1).trans hr
  have hold {r : Slot P Y O} (hr : e.world.made[r.id]? = some r) (hmem : r ∈ slots (v.groups i)) :
      r ∈ slots (e.world.groups i) := by
    rcases mem_slots_of_call h.reached.1 hv hmem with hmem | hnew
    · exact hmem
    · have hlt := (List.getElem?_eq_some_iff.1 hr).1
      omega
  have hahead {r : Slot P Y O} (hr : e.world.made[r.id]? = some r)
      (hmem : r ∈ slots (v.groups i)) :
      AheadOf (v.groups i) g (k + 1) r ↔ AheadOf (e.world.groups i) g (k + 1) r :=
    aheadOf_spared (h.reached.1.sound_groups i) (hreached.1.sound_groups i) hgids hget
      (hold hr hmem) hmem
  exact {
    reached := hreached
    made := fun r hr => hmade (h.made r hr)
    known := fun x hx => hmade (h.known x hx)
    present := h.present
    once := h.once
    past := fun x hx hat => by
      obtain ⟨j, m, y, hj, hm, hat'⟩ := hat
      have hmem : x.slot ∈ slots (v.groups i) :=
        SlotTable.mem_slots.2 ⟨y, List.mem_of_getElem? hj, List.mem_of_getElem? hm⟩
      have hpast := h.past x hx
      rw [hplace] at hpast
      exact hpast ((hahead (h.known x hx) hmem).1 ⟨j, m, y, hj, hm, hat'⟩)
    complete := fun r hr hmem => by
      have hcomplete := h.complete r hr (hold (h.made r hr) hmem)
      rw [hplace] at hcomplete
      exact hcomplete.imp_right (hahead (h.made r hr) hmem).2
    valid := fun g' k' valid heq => by
      obtain ⟨rfl, rfl, rfl⟩ := Place.body.inj heq
      obtain ⟨-, group, hgroup, hne⟩ := h.valid g k true hplace
      exact ⟨rfl, group, hget.trans hgroup, hne⟩
    kept := by simp }

/-- The call of a slot leaves alone the vectors that `Emit` is iterating over. -/
def SparesVectors (i : S) (e : Emission S P Y O) : EmitAction P Y O → Prop
  | .next => True
  | .call c => match e.place with
    | .body g _ _ => ∀ group, (e.world.groups i)[g]? = some group →
        Spares (e.world.groups i) group c
    | _ => True

/-- An iterator in use is not valid. -/
def Astray (e : Emission S P Y O) : Prop := (∃ g k, e.place = .body g k false) ∨ e.place = .lost

theorem astray_of_step {a : EmitAction P Y O} (h : e.step i a = some e') (he : Astray e) :
    Astray e' := by
  rcases he with ⟨g, k, hplace⟩ | hplace
  · cases a with
    | next =>
        simp only [Emission.step, Emission.next, hplace] at h
        obtain rfl := Option.some.inj h
        exact Or.inr rfl
    | call c =>
        simp only [Emission.step, hplace] at h
        obtain ⟨w, -, rfl⟩ := Option.map_eq_some_iff.1 h
        exact Or.inl ⟨g, k, rfl⟩
  · cases a <;> simp [Emission.step, Emission.next, hplace] at h

/-- The steps of the loops keep an emission steady. -/
theorem steady_next (he : Steady i started e) (h : e.step i .next = some e') :
    Steady i started e' := by
  simp only [Emission.step, Emission.next] at h
  split at h
  case h_1 g hplace =>
    obtain rfl := Option.some.inj h
    split_ifs with hg
    · exact he.move (fun r => by rw [hplace]; rfl) (by simp) (by simp)
    · refine he.move (fun r => ?_) (by simp) (by simp)
      rw [hplace]
      exact ⟨False.elim, not_aheadOf_length (Nat.le_of_not_lt hg)⟩
  case h_2 g k hplace =>
    obtain ⟨group, hg, rfl⟩ := Option.map_eq_some_iff.1 h
    split
    case h_1 hk =>
      refine he.move (fun r => ?_) (by simp) (by simp)
      rw [hplace]
      exact (aheadOf_succ_group hg hk).symm
    case h_2 s hk =>
      have hvisit := he.visit hplace hg hk
      have hactive : s.active = true := by
        have hmade := hvisit.known ⟨s, slots (e.world.groups i)⟩ (by simp)
        exact (he.reached.1.numbered s.id s hmade).2
      rw [if_pos hactive]
      exact hvisit
  case h_3 g k valid hplace =>
    obtain rfl := Option.some.inj h
    obtain ⟨rfl, -⟩ := he.valid g k valid hplace
    exact he.move (fun r => by rw [hplace]; rfl) (by simp) (by simp)
  all_goals exact absurd h (by simp)

/-- **A step keeps an emission steady, or it is a call that does not spare the vectors and leads
astray.** -/
theorem steady_or_astray {a : EmitAction P Y O} (he : Steady i started e)
    (h : e.step i a = some e') :
    (SparesVectors i e a ∧ Steady i started e') ∨ (¬ SparesVectors i e a ∧ Astray e') := by
  cases a with
  | next => exact Or.inl ⟨trivial, steady_next he h⟩
  | call c =>
      simp only [Emission.step] at h
      split at h
      case h_2 => exact absurd h (by simp)
      case h_1 g k valid hplace =>
        obtain ⟨w, hw, rfl⟩ := Option.map_eq_some_iff.1 h
        obtain ⟨rfl, group, hg, hne⟩ := he.valid g k valid hplace
        have hspares : SparesVectors i e (.call c) ↔ Spares (e.world.groups i) group c := by
          simp [SparesVectors, hplace, hg]
        rw [hspares]
        rcases spared_of_call he.reached.1 hg hne hw with ⟨hspare, hgids, hget⟩ | ⟨hspare, hsizes⟩
        · have hsame : sameSizes (e.world.groups i) (w.groups i) g = true := by
            have hlength := congrArg List.length hgids
            rw [List.length_map, List.length_map] at hlength
            simp [sameSizes, hget, hlength]
          rw [hsame]
          exact Or.inl ⟨hspare, he.call hplace hw hgids hget⟩
        · exact Or.inr ⟨hspare, Or.inl ⟨g, k, by rw [hsizes]; rfl⟩⟩

/-! ### Whole emissions -/

/-- The emission has returned; it has called slots that were there, none twice, and all that were
there at its start and are still there. -/
def Correct (i : S) (started : List (Slot P Y O)) (e : Emission S P Y O) : Prop :=
  e.place = .returned ∧ (∀ x ∈ e.visits, x.slot ∈ x.present) ∧
    (e.visits.map fun x => x.slot.id).Nodup ∧
    ∀ r ∈ started, r ∈ slots (e.world.groups i) → r ∈ e.visits.map Visit.slot

theorem steady_start {calls : List (Call S P Y O)} (hw : run World.step World.init calls = some w)
    (h : Emission.start w i = some e) : Steady i (slots (w.groups i)) e := by
  obtain ⟨t, -, hinv, href⟩ := run_refines hw
  obtain ⟨s, -, h⟩ := Option.bind_eq_some_iff.1 h
  split_ifs at h
  obtain rfl := Option.some.inj h
  exact {
    reached := ⟨hinv, t, href⟩
    made := fun r hr => hinv.booked_groups hr
    known := by simp
    present := by simp
    once := List.nodup_nil
    past := by simp
    complete := fun r hr _ => by
      obtain ⟨j, m, h, hj, hm⟩ := exists_place hr
      exact Or.inr ⟨j, m, h, hj, hm, by omega⟩
    valid := by simp
    kept := by simp }

/-- A steady emission that ends without going astray has met the condition all the way. -/
theorem meets_of_run {as : List (EmitAction P Y O)} (he : Steady i started e)
    (h : run (Emission.step i) e as = some e') (hend : ¬ Astray e') :
    Meets (Emission.step i) (SparesVectors i) e as := by
  induction as generalizing e with
  | nil => trivial
  | cons a as ih =>
      rw [Lib.Transition.run_cons, Option.bind_eq_some_iff] at h
      obtain ⟨u, hu, h⟩ := h
      rcases steady_or_astray he hu with ⟨hspares, hsteady⟩ | ⟨-, hastray⟩
      · exact Lib.Transition.Meets.cons hspares hu (ih hsteady h)
      · refine absurd ?_ hend
        exact Lib.Transition.run_invariant (fun _ _ _ hs ht => astray_of_step ht hs) hastray h

/-- **An emission that is over was correct exactly if every call of a slot spared the vectors that
`Emit` iterates over.** -/
theorem emit_correct_iff {calls : List (Call S P Y O)} {as : List (EmitAction P Y O)}
    (hw : run World.step World.init calls = some w) (hstart : Emission.start w i = some e)
    (h : run (Emission.step i) e as = some e') (hover : e'.place = .returned ∨ e'.place = .lost) :
    Correct i (slots (w.groups i)) e' ↔ Meets (Emission.step i) (SparesVectors i) e as := by
  have hsteady := steady_start hw hstart
  constructor
  · intro hcorrect
    refine meets_of_run hsteady h ?_
    rintro (⟨g, k, hplace⟩ | hplace)
    · exact absurd (hcorrect.1.symm.trans hplace) (by simp)
    · exact absurd (hcorrect.1.symm.trans hplace) (by simp)
  · intro hmeets
    have hend : Steady i (slots (w.groups i)) e' :=
      Lib.Transition.run_invariant_of_meets (fun u a u' hu ha hstep => by
        rcases steady_or_astray hu hstep with ⟨-, hu'⟩ | ⟨hnot, -⟩
        · exact hu'
        · exact absurd ha hnot) hsteady hmeets h
    have hreturned : e'.place = .returned := hover.resolve_right hend.kept
    refine ⟨hreturned, hend.present, hend.once, fun r hr hmem => ?_⟩
    have hcomplete := hend.complete r hr hmem
    rw [hreturned] at hcomplete
    exact hcomplete.resolve_right id

/-- The first of two slots connects another one to the second's group. -/
theorem emit_correct_iff_other_group : ∃ (w : World Unit ℕ ℕ ℕ) (e : Emission Unit ℕ ℕ ℕ),
    Correct () (slots (w.groups ())) e ∧ e.visits.map (fun x => x.slot.id) = [0, 1, 2] := by
  have hcalls : run World.step (World.init : World Unit ℕ ℕ ℕ) [.construct (),
      .connect () ⟨some 1, 0, false⟩ none 0, .connect () ⟨some 2, 0, false⟩ none 5] = some _ := rfl
  refine ⟨_, _, (emit_correct_iff (i := ()) hcalls rfl (show run (Emission.step ()) _
    [.next, .next, .call (.connect ⟨some 3, 0, false⟩ none 5), .next, .next, .next, .next, .next,
      .next, .next, .next, .next] = some _ from rfl) (Or.inl rfl)).2 ?_, rfl⟩
  refine .cons trivial rfl (.cons trivial rfl (.cons ?_ rfl ?_))
  · intro group hgroup
    obtain rfl := Option.some.inj hgroup
    exact ⟨by decide, _, List.mem_cons_of_mem _ List.mem_cons_self, rfl⟩
  · refine .cons trivial rfl (.cons trivial rfl (.cons trivial rfl (.cons trivial rfl ?_)))
    refine .cons trivial rfl (.cons trivial rfl (.cons trivial rfl (.cons trivial rfl ?_)))
    exact .cons trivial rfl trivial

/-- The first of two slots connects another one to its own group. -/
theorem emit_lost_by_connect : ¬ ∀ (calls : List (Call Unit ℕ ℕ ℕ)) (w : World Unit ℕ ℕ ℕ)
    (e e' : Emission Unit ℕ ℕ ℕ) (as : List (EmitAction ℕ ℕ ℕ)),
    run World.step World.init calls = some w → Emission.start w () = some e →
    run (Emission.step ()) e as = some e' → e'.place = .returned ∨ e'.place = .lost →
    Correct () (slots (w.groups ())) e' := by
  intro h
  have hcorrect := h [.construct (), .connect () ⟨some 1, 0, false⟩ none 0,
    .connect () ⟨some 2, 0, false⟩ none 0] _ _ _
    [.next, .next, .call (.connect ⟨some 3, 0, false⟩ none 0), .next] rfl rfl rfl (Or.inr rfl)
  exact absurd hcorrect.1 (by decide)

end Signals
end BreUtils
