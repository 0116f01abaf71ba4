/-
# The slots of a `Signal`

`Signal.hpp` keeps the slots of a signal in groups, in the order of their ids, and each
group in a vector.  A slot knows its group for good, and its position in the vector as
it was entered last: `add_slot`, `disconnect_if` and `clean` each write it.  The positions
stand in a table of their own here, under the address of the slot, for a slot stays what
it is when it is removed or when its group moves to another signal.

`Sound` is what the three rely on.  A removal keeps of each group the slots that do not
match, in any order (`Filtered`), and that is enough to keep the table sound, given that
the positions are entered (`Sound.filtered`).
-/

import BreUtils.Lib.SwapRemove
import Mathlib.Data.Int.Notation
import Mathlib.Data.List.Forall2

namespace BreUtils
namespace Signals

open Lib

/-- What `Signal` can tell a callable by: the bytes of its `func_ptr`, if there are any, and its
type, which counts where `must_check_object` holds. -/
structure Callable (P Y : Type*) where
  pointer : Option P
  type : Y
  mustCheckObject : Bool

/-- A slot: its address, and what stays the same in it.  A null object is `none`. -/
structure Slot (P Y O : Type*) where
  id : ℕ
  group : ℤ
  callable : Callable P Y
  object : Option O
  connected : Bool
  blocked : Bool

/-- `group_type`. -/
structure Group (P Y O : Type*) where
  slts : List (Slot P Y O)
  gid : ℤ

/-- `m_slots`, and the `m_index` of each slot. -/
structure SlotTable (P Y O : Type*) where
  index : ℕ → ℕ
  groups : List (Group P Y O)

variable {P Y O : Type*}

namespace Slot

variable [DecidableEq P] [DecidableEq Y] [DecidableEq O]

/-- `has_callable(c)`: a `func_ptr` without bytes is equal to none. -/
def hasCallable (s : Slot P Y O) (c : Callable P Y) : Bool :=
  c.pointer.isSome && decide (s.callable.pointer = c.pointer)

/-- `has_full_callable(c)`. -/
def hasFullCallable (s : Slot P Y O) (c : Callable P Y) : Bool :=
  s.hasCallable c && (!c.mustCheckObject || decide (s.callable.type = c.type))

/-- `has_object(o)`. -/
def hasObject (s : Slot P Y O) (object : Option O) : Bool := decide (s.object = object)

end Slot

/-- The slot is called when it is reached: `slot_base::Emit`. -/
def Slot.active (s : Slot P Y O) : Bool := s.connected && !s.blocked

/-- All slots, in the order in which they are reached. -/
def slots (groups : List (Group P Y O)) : List (Slot P Y O) := groups.flatMap Group.slts

/-- The slots that the two loops of `Emit` call, in order. -/
def emitLoop (groups : List (Group P Y O)) : List (Slot P Y O) :=
  groups.flatMap fun g => g.slts.filter Slot.active

/-- The loop of `slot_count`. -/
def countLoop (groups : List (Group P Y O)) : ℕ :=
  groups.foldl (fun count g => count + g.slts.length) 0

namespace SlotTable

/-- `add_slot`, from the first group that is not before the slot's. -/
def addSlot (s : Slot P Y O) (index : ℕ → ℕ) : List (Group P Y O) → SlotTable P Y O
  | [] => ⟨Function.update index s.id 0, [⟨[s], s.group⟩]⟩
  | g :: gs =>
      if g.gid < s.group then
        ⟨(addSlot s index gs).index, g :: (addSlot s index gs).groups⟩
      else if g.gid = s.group then
        ⟨Function.update index s.id g.slts.length, ⟨g.slts ++ [s], g.gid⟩ :: gs⟩
      else ⟨Function.update index s.id 0, ⟨[s], s.group⟩ :: g :: gs⟩

/-- What `disconnect_if` has of a vector: what is left of it, the positions, and the count. -/
structure Removal (P Y O : Type*) where
  slts : List (Slot P Y O)
  index : ℕ → ℕ
  count : ℕ

/-- The inner loop of `disconnect_if`.  After the swap the former last slot is at `i`, also where
it was there before. -/
def removeLoop (cond : Slot P Y O → Bool) (slts : List (Slot P Y O)) (i : ℕ) (index : ℕ → ℕ)
    (count : ℕ) : Removal P Y O :=
  if h : i < slts.length then
    if cond slts[i] then
      removeLoop cond (swapRemove slts i h) i
        (Function.update index
          (slts.getLast (List.ne_nil_of_length_pos (Nat.zero_lt_of_lt h))).id i) (count + 1)
    else removeLoop cond slts (i + 1) index count
  else ⟨slts, index, count⟩
termination_by slts.length - i
decreasing_by
  · rw [length_swapRemove]
    omega
  · omega

/-- `disconnect_if`. -/
def disconnectIf (cond : Slot P Y O → Bool) (index : ℕ → ℕ) (count : ℕ) :
    List (Group P Y O) → ℕ × SlotTable P Y O
  | [] => (count, ⟨index, []⟩)
  | g :: gs =>
      let r := removeLoop cond g.slts 0 index count
      let rest := disconnectIf cond r.index r.count gs
      (rest.1, ⟨rest.2.index, ⟨r.slts, g.gid⟩ :: rest.2.groups⟩)

/-- `Disconnect(gid)`.  The group stays, without slots. -/
def disconnectGroup (gid : ℤ) : List (Group P Y O) → ℕ × List (Group P Y O)
  | [] => (0, [])
  | g :: gs =>
      if g.gid = gid then (g.slts.length, ⟨[], g.gid⟩ :: gs)
      else ((disconnectGroup gid gs).1, g :: (disconnectGroup gid gs).2)

/-- `clean(state)`.  The slot is removed if it stands where it says. -/
def clean (state : Slot P Y O) (index : ℕ → ℕ) : List (Group P Y O) → SlotTable P Y O
  | [] => ⟨index, []⟩
  | g :: gs =>
      if g.gid = state.group then
        if h : index state.id < g.slts.length then
          if g.slts[index state.id].id = state.id then
            ⟨Function.update index
                (g.slts.getLast (List.ne_nil_of_length_pos (Nat.zero_lt_of_lt h))).id
                (index state.id),
              ⟨swapRemove g.slts (index state.id) h, g.gid⟩ :: gs⟩
          else ⟨index, g :: gs⟩
        else ⟨index, g :: gs⟩
      else ⟨(clean state index gs).index, g :: (clean state index gs).groups⟩

/-! ### A sound table -/

/-- The groups are in order, each slot is in its group and at its position, and no slot is there
twice. -/
structure Sound (t : SlotTable P Y O) : Prop where
  sorted : t.groups.Pairwise fun g h => g.gid < h.gid
  placed : ∀ g ∈ t.groups, Placed t.index Slot.id g.slts
  grouped : ∀ g ∈ t.groups, ∀ s ∈ g.slts, s.group = g.gid
  distinct : ((slots t.groups).map Slot.id).Nodup

theorem sound_nil (index : ℕ → ℕ) : Sound (⟨index, []⟩ : SlotTable P Y O) := by
  constructor <;> simp [slots]

@[simp] theorem slots_nil : slots ([] : List (Group P Y O)) = [] := rfl

@[simp] theorem slots_cons (g : Group P Y O) (gs : List (Group P Y O)) :
    slots (g :: gs) = g.slts ++ slots gs := rfl

theorem mem_slots {gs : List (Group P Y O)} {s : Slot P Y O} :
    s ∈ slots gs ↔ ∃ g ∈ gs, s ∈ g.slts := List.mem_flatMap

variable {index index' : ℕ → ℕ} {g g' : Group P Y O} {gs gs' : List (Group P Y O)}
  {s : Slot P Y O}

/-- A table without its first group. -/
theorem Sound.tail (h : Sound ⟨index, g :: gs⟩) : Sound ⟨index, gs⟩ where
  sorted := (List.pairwise_cons.1 h.sorted).2
  placed := fun g' hg' => h.placed g' (List.mem_cons_of_mem g hg')
  grouped := fun g' hg' => h.grouped g' (List.mem_cons_of_mem g hg')
  distinct := by
    have hdistinct := h.distinct
    rw [slots_cons, List.map_append] at hdistinct
    exact hdistinct.of_append_right

/-- A table with one more group in front. -/
theorem Sound.cons (h : Sound ⟨index, gs⟩) (hsorted : ∀ g' ∈ gs, g.gid < g'.gid)
    (hplaced : Placed index Slot.id g.slts) (hgrouped : ∀ s ∈ g.slts, s.group = g.gid)
    (hdistinct : ((slots (g :: gs)).map Slot.id).Nodup) : Sound ⟨index, g :: gs⟩ where
  sorted := List.pairwise_cons.2 ⟨hsorted, h.sorted⟩
  placed := List.forall_mem_cons.2 ⟨hplaced, h.placed⟩
  grouped := List.forall_mem_cons.2 ⟨hgrouped, h.grouped⟩
  distinct := hdistinct

/-- A slot of the first group is in no later one. -/
theorem Sound.head_ne (h : Sound ⟨index, g :: gs⟩) (hs : s ∈ g.slts) {r : Slot P Y O}
    (hr : r ∈ slots gs) : s.id ≠ r.id := by
  have hdistinct := h.distinct
  rw [slots_cons, List.map_append] at hdistinct
  intro heq
  exact List.disjoint_of_nodup_append hdistinct (List.mem_map_of_mem hs)
    (heq ▸ List.mem_map_of_mem hr)

/-- Positions of slots that are not in the table may change. -/
theorem Sound.congr (h : Sound ⟨index, gs⟩)
    (heq : ∀ s ∈ slots gs, index' s.id = index s.id) : Sound ⟨index', gs⟩ where
  sorted := h.sorted
  placed := fun g hg => (h.placed g hg).congr fun s hs => heq s (mem_slots.2 ⟨g, hg, hs⟩)
  grouped := h.grouped
  distinct := h.distinct

/-- The group keeps the slots with `p`, in any order. -/
def Filtered (p : Slot P Y O → Bool) (g g' : Group P Y O) : Prop :=
  g'.gid = g.gid ∧ g'.slts.Perm (g.slts.filter p)

theorem filtered_self {p : Slot P Y O → Bool} (h : ∀ s ∈ g.slts, p s = true) :
    Filtered p g g :=
  ⟨rfl, by rw [List.filter_eq_self.2 h]⟩

/-- Groups that keep all their slots. -/
theorem filtered_all {p : Slot P Y O → Bool} (h : ∀ s ∈ slots gs, p s = true) :
    List.Forall₂ (Filtered p) gs gs :=
  List.forall₂_same.2 fun g hg => filtered_self fun s hs => h s (mem_slots.2 ⟨g, hg, hs⟩)

theorem slots_filtered {p : Slot P Y O → Bool} (h : List.Forall₂ (Filtered p) gs gs') :
    (slots gs').Perm ((slots gs).filter p) := by
  induction h with
  | nil => exact List.Perm.refl _
  | cons hg _ ih =>
      rw [slots_cons, slots_cons, List.filter_append]
      exact hg.2.append ih

theorem exists_of_filtered {p : Slot P Y O → Bool} (h : List.Forall₂ (Filtered p) gs gs')
    (hg' : g' ∈ gs') : ∃ g ∈ gs, Filtered p g g' := by
  induction h with
  | nil => exact absurd hg' List.not_mem_nil
  | cons hg _ ih =>
      rcases List.mem_cons.1 hg' with rfl | hg'
      · exact ⟨_, List.mem_cons_self, hg⟩
      · obtain ⟨x, hx, hfilter⟩ := ih hg'
        exact ⟨x, List.mem_cons_of_mem _ hx, hfilter⟩

theorem gids_of_forall₂ {R : Group P Y O → Group P Y O → Prop} (h : List.Forall₂ R gs gs')
    (hR : ∀ g g', R g g' → g'.gid = g.gid) : gs'.map Group.gid = gs.map Group.gid := by
  induction h with
  | nil => rfl
  | cons hg _ ih => rw [List.map_cons, List.map_cons, hR _ _ hg, ih]

/-- A removal leaves the groups as they are. -/
theorem gids_filtered {p : Slot P Y O → Bool} (h : List.Forall₂ (Filtered p) gs gs') :
    gs'.map Group.gid = gs.map Group.gid :=
  gids_of_forall₂ h fun _ _ hg => hg.1

/-- **A removal from a sound table keeps it sound, if it enters the positions.** -/
theorem Sound.filtered {p : Slot P Y O → Bool} (h : Sound ⟨index, gs⟩)
    (hfilter : List.Forall₂ (Filtered p) gs gs')
    (hplaced : ∀ g ∈ gs', Placed index' Slot.id g.slts) : Sound ⟨index', gs'⟩ where
  sorted := by
    have hsorted : (gs.map Group.gid).Pairwise (· < ·) := List.pairwise_map.2 h.sorted
    rw [← gids_filtered hfilter] at hsorted
    exact List.pairwise_map.1 hsorted
  placed := hplaced
  grouped := by
    intro g' hg' s hs
    obtain ⟨g, hg, hgid, hperm⟩ := exists_of_filtered hfilter hg'
    rw [hgid]
    exact h.grouped g hg s (List.mem_of_mem_filter (hperm.subset hs))
  distinct := by
    have hperm := (slots_filtered hfilter).map Slot.id
    exact hperm.nodup_iff.2 (h.distinct.sublist (List.filter_sublist.map _))

/-! ### Insertion -/

/-- `add_slot` enters one position, the new slot's. -/
theorem addSlot_index (s : Slot P Y O) (index : ℕ → ℕ) (gs : List (Group P Y O)) :
    ∃ k, (addSlot s index gs).index = Function.update index s.id k := by
  induction gs with
  | nil => exact ⟨0, rfl⟩
  | cons g gs ih =>
      unfold addSlot
      split_ifs
      · exact ih
      · exact ⟨_, rfl⟩
      · exact ⟨_, rfl⟩

theorem addSlot_slots (s : Slot P Y O) (index : ℕ → ℕ) (gs : List (Group P Y O)) :
    (slots (addSlot s index gs).groups).Perm (s :: slots gs) := by
  induction gs with
  | nil => exact List.Perm.refl _
  | cons g gs ih =>
      unfold addSlot
      split_ifs
      · exact (ih.append_left g.slts).trans List.perm_middle
      · rw [slots_cons, slots_cons, List.append_assoc]
        exact List.perm_middle
      · exact List.Perm.refl _

/-- The new group has the id of the slot, and the others are as before. -/
theorem gid_addSlot {s : Slot P Y O} {index : ℕ → ℕ} {gs : List (Group P Y O)} {g : Group P Y O}
    (h : g ∈ (addSlot s index gs).groups) : g.gid = s.group ∨ ∃ g' ∈ gs, g'.gid = g.gid := by
  induction gs with
  | nil =>
      obtain rfl := List.mem_singleton.1 h
      exact Or.inl rfl
  | cons g' gs ih =>
      unfold addSlot at h
      split_ifs at h
      · rcases List.mem_cons.1 h with rfl | h
        · exact Or.inr ⟨g, List.mem_cons_self, rfl⟩
        · exact (ih h).imp_right fun ⟨x, hx, hgid⟩ => ⟨x, List.mem_cons_of_mem _ hx, hgid⟩
      · rcases List.mem_cons.1 h with rfl | h
        · exact Or.inr ⟨g', List.mem_cons_self, rfl⟩
        · exact Or.inr ⟨g, List.mem_cons_of_mem _ h, rfl⟩
      · rcases List.mem_cons.1 h with rfl | h
        · exact Or.inl rfl
        · exact Or.inr ⟨g, h, rfl⟩

/-- **`add_slot` keeps the table sound**, for a slot that is not in it. -/
theorem Sound.addSlot (h : Sound ⟨index, gs⟩) (hs : ∀ r ∈ slots gs, r.id ≠ s.id) :
    Sound (addSlot s index gs) := by
  have hdistinct : ((slots (SlotTable.addSlot s index gs).groups).map Slot.id).Nodup := by
    rw [((addSlot_slots s index gs).map Slot.id).nodup_iff, List.map_cons, List.nodup_cons]
    refine ⟨fun hmem => ?_, h.distinct⟩
    obtain ⟨r, hr, hid⟩ := List.mem_map.1 hmem
    exact hs r hr hid
  have hnew : Placed (Function.update index s.id 0) Slot.id [s] :=
    placed_nil.push (by simp)
  have hgroup : ∀ r ∈ [s], r.group = s.group := by simp
  induction gs with
  | nil => exact (sound_nil _).cons (by simp) hnew hgroup hdistinct
  | cons g gs ih =>
      have hlater := (List.pairwise_cons.1 h.sorted).1
      have hsg : ∀ r ∈ g.slts, r.id ≠ s.id := fun r hr => hs r (List.mem_append_left _ hr)
      have hsgs : ∀ r ∈ slots gs, r.id ≠ s.id := fun r hr => hs r (List.mem_append_right _ hr)
      have hplaced := h.placed g List.mem_cons_self
      have hgrouped := h.grouped g List.mem_cons_self
      unfold SlotTable.addSlot at hdistinct ⊢
      split_ifs at hdistinct ⊢ with hlt heq
      · obtain ⟨k, hk⟩ := addSlot_index s index gs
        have hrest := ih h.tail hsgs (by
          rw [slots_cons, List.map_append] at hdistinct
          exact hdistinct.of_append_right)
        refine hrest.cons (fun g' hg' => ?_) ?_ hgrouped hdistinct
        · rcases gid_addSlot hg' with hgid | ⟨x, hx, hgid⟩
          · exact hgid ▸ hlt
          · exact hgid ▸ hlater x hx
        · rw [hk]
          exact hplaced.congr fun r hr => Function.update_of_ne (hsg r hr) _ _
      · have hrest : Sound ⟨Function.update index s.id g.slts.length, gs⟩ :=
          h.tail.congr fun r hr => Function.update_of_ne (hsgs r hr) _ _
        refine hrest.cons hlater (hplaced.push hsg) (fun r hr => ?_) hdistinct
        rcases List.mem_append.1 hr with hr | hr
        · exact hgrouped r hr
        · obtain rfl := List.mem_singleton.1 hr
          exact heq.symm
      · have hrest : Sound ⟨Function.update index s.id 0, g :: gs⟩ :=
          h.congr fun r hr => Function.update_of_ne (hs r hr) _ _
        have hsg' : s.group < g.gid := by omega
        refine hrest.cons (fun g' hg' => ?_) hnew hgroup hdistinct
        rcases List.mem_cons.1 hg' with rfl | hg'
        · exact hsg'
        · exact Int.lt_trans hsg' (hlater g' hg')

/-! ### Removal of the slots that match -/

section

variable (cond : Slot P Y O → Bool)

/-- The slots before `i` do not match. -/
theorem take_succ_of_not {cond : Slot P Y O → Bool} {slts : List (Slot P Y O)} {i : ℕ}
    (h : i < slts.length) (hi : cond slts[i] = false)
    (hbefore : ∀ s ∈ slts.take i, cond s = false) :
    ∀ s ∈ slts.take (i + 1), cond s = false := by
  intro s hs
  rw [List.take_succ_eq_append_getElem h] at hs
  rcases List.mem_append.1 hs with hs | hs
  · exact hbefore s hs
  · exact List.mem_singleton.1 hs ▸ hi

/-- **The inner loop leaves the slots that do not match, and counts those that do.** -/
theorem removeLoop_slts (slts : List (Slot P Y O)) (i : ℕ) (index : ℕ → ℕ) (count : ℕ)
    (hbefore : ∀ s ∈ slts.take i, cond s = false) :
    (removeLoop cond slts i index count).slts.Perm (slts.filter fun s => !cond s) ∧
      (removeLoop cond slts i index count).count = count + slts.countP cond := by
  fun_induction removeLoop cond slts i index count with
  | case1 slts i index count h hcond ih =>
      have hperm := swapRemove_perm h
      obtain ⟨hslts, hcount⟩ := ih (by rwa [take_swapRemove])
      refine ⟨hslts.trans ?_, ?_⟩
      · have hfilter := hperm.filter fun s => !cond s
        rwa [List.filter_cons_of_neg (by simp [hcond])] at hfilter
      · rw [hcount, ← hperm.countP_eq, List.countP_cons_of_pos hcond]
        omega
  | case2 slts i index count h hcond ih =>
      exact ih (take_succ_of_not h (by simpa using hcond) hbefore)
  | case3 slts i index count h =>
      rw [List.take_of_length_le (by omega)] at hbefore
      have hkeep : slts.filter (fun s => !cond s) = slts :=
        List.filter_eq_self.2 fun s hs => by simp [hbefore s hs]
      have hnone : slts.countP cond = 0 :=
        List.countP_eq_zero.2 fun s hs => by simp [hbefore s hs]
      exact ⟨by rw [hkeep], by rw [hnone]; rfl⟩

/-- **The inner loop enters the positions that change.** -/
theorem removeLoop_placed (slts : List (Slot P Y O)) (i : ℕ) (index : ℕ → ℕ) (count : ℕ)
    (h : Placed index Slot.id slts) :
    Placed (removeLoop cond slts i index count).index Slot.id
      (removeLoop cond slts i index count).slts := by
  fun_induction removeLoop cond slts i index count with
  | case1 slts i index count hi hcond ih => exact ih (h.swapRemove hi)
  | case2 slts i index count hi hcond ih => exact ih h
  | case3 slts i index count hi => exact h

/-- The inner loop enters positions of slots of its vector only. -/
theorem removeLoop_index (slts : List (Slot P Y O)) (i : ℕ) (index : ℕ → ℕ) (count id : ℕ)
    (hid : ∀ s ∈ slts, s.id ≠ id) :
    (removeLoop cond slts i index count).index id = index id := by
  fun_induction removeLoop cond slts i index count with
  | case1 slts i index count h hcond ih =>
      have hback := hid _ (List.getLast_mem (List.ne_nil_of_length_pos (Nat.zero_lt_of_lt h)))
      rw [ih fun s hs => hid s ((swapRemove_perm h).subset (List.mem_cons_of_mem _ hs)),
        Function.update_of_ne hback.symm]
  | case2 slts i index count h hcond ih => exact ih hid
  | case3 slts i index count h => rfl

theorem removeLoop_filtered (g : Group P Y O) (index : ℕ → ℕ) (count : ℕ) :
    Filtered (fun s => !cond s) g ⟨(removeLoop cond g.slts 0 index count).slts, g.gid⟩ :=
  ⟨rfl, (removeLoop_slts cond g.slts 0 index count (by simp)).1⟩

theorem disconnectIf_filtered (index : ℕ → ℕ) (count : ℕ) (gs : List (Group P Y O)) :
    List.Forall₂ (Filtered fun s => !cond s) gs (disconnectIf cond index count gs).2.groups := by
  induction gs generalizing index count with
  | nil => exact List.Forall₂.nil
  | cons g gs ih => exact List.Forall₂.cons (removeLoop_filtered cond g index count) (ih _ _)

/-- **`disconnect_if` returns the number of slots that match.** -/
theorem disconnectIf_count (index : ℕ → ℕ) (count : ℕ) (gs : List (Group P Y O)) :
    (disconnectIf cond index count gs).1 = count + (slots gs).countP cond := by
  induction gs generalizing index count with
  | nil => rfl
  | cons g gs ih =>
      have hcount := (removeLoop_slts cond g.slts 0 index count (by simp)).2
      simp only [disconnectIf]
      rw [ih, hcount, slots_cons, List.countP_append]
      omega

theorem disconnectIf_index (index : ℕ → ℕ) (count id : ℕ) (gs : List (Group P Y O))
    (hid : ∀ s ∈ slots gs, s.id ≠ id) :
    (disconnectIf cond index count gs).2.index id = index id := by
  induction gs generalizing index count with
  | nil => rfl
  | cons g gs ih =>
      simp only [disconnectIf]
      rw [ih _ _ fun s hs => hid s (List.mem_append_right _ hs),
        removeLoop_index cond _ _ _ _ _ fun s hs => hid s (List.mem_append_left _ hs)]

/-- **`disconnect_if` keeps the table sound.** -/
theorem Sound.disconnectIf (h : Sound ⟨index, gs⟩) (count : ℕ) :
    Sound (disconnectIf cond index count gs).2 := by
  refine h.filtered (disconnectIf_filtered cond index count gs) ?_
  induction gs generalizing index count with
  | nil => exact fun g hg => absurd hg List.not_mem_nil
  | cons g gs ih =>
      have hnext : Sound ⟨(removeLoop cond g.slts 0 index count).index, gs⟩ :=
        h.tail.congr fun r hr =>
          removeLoop_index cond _ _ _ _ _ fun s hs => h.head_ne hs hr
      refine List.forall_mem_cons.2 ⟨?_, ih hnext _⟩
      refine (removeLoop_placed cond g.slts 0 index count
        (h.placed g List.mem_cons_self)).congr fun s hs => ?_
      have hmem : s ∈ g.slts :=
        List.mem_of_mem_filter ((removeLoop_filtered cond g index count).2.subset hs)
      exact disconnectIf_index cond _ _ _ _ fun r hr => (h.head_ne hmem hr).symm

end

/-- `Disconnect(gid)` leaves the slots of the other groups. -/
theorem disconnectGroup_filtered (h : Sound ⟨index, gs⟩) (gid : ℤ) :
    List.Forall₂ (Filtered fun s => !decide (s.group = gid)) gs (disconnectGroup gid gs).2 := by
  induction gs with
  | nil => exact List.Forall₂.nil
  | cons g gs ih =>
      have hgrouped := h.grouped g List.mem_cons_self
      unfold disconnectGroup
      split_ifs with hgid
      · refine List.Forall₂.cons ⟨rfl, ?_⟩ (filtered_all fun s hs => ?_)
        · rw [List.filter_eq_nil_iff.2 fun s hs => by simp [hgrouped s hs, hgid]]
        · obtain ⟨g', hg', hs⟩ := mem_slots.1 hs
          have hlater := (List.pairwise_cons.1 h.sorted).1 g' hg'
          have hgroup := h.grouped g' (List.mem_cons_of_mem g hg') s hs
          simp only [Bool.not_eq_eq_eq_not, Bool.not_true, decide_eq_false_iff_not]
          omega
      · refine List.Forall₂.cons (filtered_self fun s hs => ?_) (ih h.tail)
        simp [hgrouped s hs, hgid]

/-- **`Disconnect(gid)` returns the number of slots of the group.** -/
theorem disconnectGroup_count (h : Sound ⟨index, gs⟩) (gid : ℤ) :
    (disconnectGroup gid gs).1 = (slots gs).countP fun s => decide (s.group = gid) := by
  induction gs with
  | nil => rfl
  | cons g gs ih =>
      have hgrouped := h.grouped g List.mem_cons_self
      unfold disconnectGroup
      rw [slots_cons, List.countP_append]
      split_ifs with hgid
      · have hall : g.slts.countP (fun s => decide (s.group = gid)) = g.slts.length :=
          List.countP_eq_length.2 fun s hs => by simp [hgrouped s hs, hgid]
        have hnone : (slots gs).countP (fun s => decide (s.group = gid)) = 0 := by
          refine List.countP_eq_zero.2 fun s hs => ?_
          obtain ⟨g', hg', hs⟩ := mem_slots.1 hs
          have hlater := (List.pairwise_cons.1 h.sorted).1 g' hg'
          have hgroup := h.grouped g' (List.mem_cons_of_mem g hg') s hs
          simp only [decide_eq_true_eq]
          omega
        rw [hall, hnone]
        rfl
      · have hnone : g.slts.countP (fun s => decide (s.group = gid)) = 0 :=
          List.countP_eq_zero.2 fun s hs => by simp [hgrouped s hs, hgid]
        rw [hnone, ih h.tail]
        omega

theorem Sound.disconnectGroup (h : Sound ⟨index, gs⟩) (gid : ℤ) :
    Sound ⟨index, (disconnectGroup gid gs).2⟩ := by
  refine h.filtered (disconnectGroup_filtered h gid) ?_
  induction gs with
  | nil => exact fun g hg => absurd hg List.not_mem_nil
  | cons g gs ih =>
      unfold SlotTable.disconnectGroup
      split_ifs
      · exact List.forall_mem_cons.2 ⟨placed_nil, h.tail.placed⟩
      · exact List.forall_mem_cons.2 ⟨h.placed g List.mem_cons_self, ih h.tail⟩

/-! ### `clean` -/

/-- The slot stands in the group where it says, if it is in it at all. -/
theorem getElem?_of_mem (h : Placed index Slot.id g.slts) {r : Slot P Y O} (hr : r ∈ g.slts) :
    g.slts[index r.id]? = some r := by
  obtain ⟨k, hk⟩ := List.mem_iff_getElem?.1 hr
  rw [h k r hk, hk]

/-- A removed slot is not among those that stay. -/
theorem filtered_swapRemove (hdistinct : (g.slts.map Slot.id).Nodup) {i : ℕ}
    (hi : i < g.slts.length) (hid : g.slts[i].id = s.id) :
    Filtered (fun r => !decide (r.id = s.id)) g ⟨swapRemove g.slts i hi, g.gid⟩ := by
  have hperm := swapRemove_perm hi
  refine ⟨rfl, ?_⟩
  have hfilter := hperm.filter fun r => !decide (r.id = s.id)
  rw [List.filter_cons_of_neg (by simp [hid])] at hfilter
  have hnodup := (hperm.map Slot.id).nodup_iff.2 hdistinct
  rw [List.map_cons, List.nodup_cons] at hnodup
  have hkeep : (swapRemove g.slts i hi).filter (fun r => !decide (r.id = s.id)) =
      swapRemove g.slts i hi := by
    refine List.filter_eq_self.2 fun r hr => ?_
    have hne : r.id ≠ s.id := fun heq => hnodup.1 (by
      rw [hid, ← heq]
      exact List.mem_map_of_mem hr)
    simp [hne]
  rwa [hkeep] at hfilter

/-- **`clean` removes the slot if it is in the table, and nothing else.** -/
theorem clean_filtered (h : Sound ⟨index, gs⟩) (hsame : ∀ r ∈ slots gs, r.id = s.id → r = s) :
    List.Forall₂ (Filtered fun r => !decide (r.id = s.id)) gs (clean s index gs).groups := by
  induction gs with
  | nil => exact List.Forall₂.nil
  | cons g gs ih =>
      have hgrouped := h.grouped g List.mem_cons_self
      have hplaced := h.placed g List.mem_cons_self
      have hdistinct := h.distinct
      rw [slots_cons, List.map_append] at hdistinct
      have hhead (r : Slot P Y O) (hr : r ∈ g.slts) : r.id = s.id → r = s :=
        hsame r (List.mem_append_left _ hr)
      have hrest (r : Slot P Y O) (hr : r ∈ slots gs) : r.id = s.id → r = s :=
        hsame r (List.mem_append_right _ hr)
      unfold clean
      by_cases hgid : g.gid = s.group
      · -- a slot of a later group has another group
        have hlater (r : Slot P Y O) (hr : r ∈ slots gs) : r.id ≠ s.id := by
          intro hid
          obtain rfl := hrest r hr hid
          obtain ⟨g', hg', hr⟩ := mem_slots.1 hr
          have hlt := (List.pairwise_cons.1 h.sorted).1 g' hg'
          have hgroup := h.grouped g' (List.mem_cons_of_mem g hg') _ hr
          omega
        have hall : List.Forall₂ (Filtered fun r => !decide (r.id = s.id)) gs gs :=
          filtered_all fun r hr => by simp [hlater r hr]
        have hstay (hnot : g.slts[index s.id]? ≠ some s) :
            Filtered (fun r => !decide (r.id = s.id)) g g :=
          filtered_self fun r hr => by
            have hne : r.id ≠ s.id := fun hid => hnot (hhead r hr hid ▸ getElem?_of_mem hplaced hr)
            simp [hne]
        rw [if_pos hgid]
        split_ifs with hi hid
        · exact List.Forall₂.cons (filtered_swapRemove hdistinct.of_append_left hi hid) hall
        · refine List.Forall₂.cons (hstay fun hget => ?_) hall
          rw [List.getElem?_eq_getElem hi] at hget
          exact hid (congrArg Slot.id (Option.some.inj hget))
        · refine List.Forall₂.cons (hstay fun hget => ?_) hall
          rw [List.getElem?_eq_none (by omega)] at hget
          exact absurd hget (by simp)
      · rw [if_neg hgid]
        refine List.Forall₂.cons (filtered_self fun r hr => ?_) (ih h.tail hrest)
        have hne : r.id ≠ s.id := fun hid => hgid (hhead r hr hid ▸ (hgrouped r hr).symm)
        simp [hne]

theorem clean_index (s : Slot P Y O) (index : ℕ → ℕ) (id : ℕ) (gs : List (Group P Y O))
    (hid : ∀ r ∈ slots gs, r.id ≠ id) : (clean s index gs).index id = index id := by
  induction gs with
  | nil => rfl
  | cons g gs ih =>
      unfold clean
      split_ifs with hgid hi
      · have hback := hid _ (List.mem_append_left _
          (List.getLast_mem (List.ne_nil_of_length_pos (Nat.zero_lt_of_lt hi))))
        exact Function.update_of_ne hback.symm _ _
      · rfl
      · rfl
      · exact ih fun r hr => hid r (List.mem_append_right _ hr)

/-- **`clean` keeps the table sound.** -/
theorem Sound.clean (h : Sound ⟨index, gs⟩) (hsame : ∀ r ∈ slots gs, r.id = s.id → r = s) :
    Sound (clean s index gs) := by
  refine h.filtered (clean_filtered h hsame) ?_
  induction gs with
  | nil => exact fun g hg => absurd hg List.not_mem_nil
  | cons g gs ih =>
      have hplaced := h.placed g List.mem_cons_self
      unfold SlotTable.clean
      split_ifs with hgid hi
      · have hback := List.getLast_mem (List.ne_nil_of_length_pos (Nat.zero_lt_of_lt hi))
        refine List.forall_mem_cons.2 ⟨hplaced.swapRemove hi, ?_⟩
        refine (h.tail.congr fun r hr => ?_).placed
        exact Function.update_of_ne (h.head_ne hback hr).symm _ _
      · exact h.placed
      · exact h.placed
      · refine List.forall_mem_cons.2 ⟨hplaced.congr fun r hr => ?_,
          ih h.tail fun r hr => hsame r (List.mem_append_right _ hr)⟩
        exact clean_index s index _ gs fun r' hr' => (h.head_ne hr hr').symm

/-! ### Emission -/

/-- The loop of `slot_count` counts the slots. -/
theorem countLoop_eq (gs : List (Group P Y O)) : countLoop gs = (slots gs).length := by
  have hfold (n : ℕ) : gs.foldl (fun count g => count + g.slts.length) n =
      n + (slots gs).length := by
    induction gs generalizing n with
    | nil => rfl
    | cons g gs ih =>
        rw [List.foldl_cons, ih, slots_cons, List.length_append]
        omega
  rw [countLoop, hfold, Nat.zero_add]

/-- The loops of `Emit` call every slot that is active. -/
theorem emitLoop_eq (gs : List (Group P Y O)) : emitLoop gs = (slots gs).filter Slot.active := by
  induction gs with
  | nil => rfl
  | cons g gs ih =>
      rw [slots_cons, List.filter_append, ← ih]
      rfl

/-- **The slots of a sound table are in the order of their groups.** -/
theorem Sound.slots_ordered (h : Sound ⟨index, gs⟩) :
    (slots gs).Pairwise fun r s => r.group ≤ s.group := by
  induction gs with
  | nil => exact List.Pairwise.nil
  | cons g gs ih =>
      have hgrouped := h.grouped g List.mem_cons_self
      refine List.pairwise_append.2 ⟨?_, ih h.tail, fun r hr s hs => ?_⟩
      · refine List.pairwise_of_forall_mem_list fun r hr s hs => ?_
        exact Int.le_of_eq ((hgrouped r hr).trans (hgrouped s hs).symm)
      · obtain ⟨g', hg', hs⟩ := mem_slots.1 hs
        have hlt := (List.pairwise_cons.1 h.sorted).1 g' hg'
        have hgroup := h.grouped g' (List.mem_cons_of_mem g hg') s hs
        have hr := hgrouped r hr
        omega

end SlotTable
end Signals
end BreUtils
