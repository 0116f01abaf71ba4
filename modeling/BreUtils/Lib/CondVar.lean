/-
# Condition variables

The threads that are in `wait` on a condition variable.  A thread goes in with the
mutex in its hand and gives it back in the same step.  `notify_one` picks one of the
blocked threads, whichever; `notify_all` takes all of them; and a thread may wake by
itself, because of a spurious wake-up or because its time is up.  A thread that is
awake still has to take the mutex back before it leaves `wait`.

The three kinds are kept apart: `blocked` has no wake-up on its way, `notified` was
picked, `roused` woke by itself.  No thread is of two kinds, by construction.
-/

import Mathlib.Data.Finset.Card

namespace BreUtils
namespace Lib

variable {T : Type*} [DecidableEq T]

/-- The threads that are in `wait`. -/
structure CondVar (T : Type*) where
  blocked : Finset T
  notified : Finset T
  roused : Finset T
  blocked_notified : Disjoint blocked notified

namespace CondVar

/-- Nobody waits. -/
def empty : CondVar T := ⟨∅, ∅, ∅, Finset.disjoint_empty_left _⟩

/-- A thread goes to sleep. -/
def wait (c : CondVar T) (t : T) : CondVar T where
  blocked := insert t c.blocked
  notified := c.notified.erase t
  roused := c.roused.erase t
  blocked_notified := Finset.disjoint_insert_left.2
    ⟨Finset.notMem_erase t _, c.blocked_notified.mono_right (Finset.erase_subset t _)⟩

/-- One blocked thread is notified. -/
def notify (c : CondVar T) (t : T) : CondVar T where
  blocked := c.blocked.erase t
  notified := insert t c.notified
  roused := c.roused
  blocked_notified := Finset.disjoint_insert_right.2
    ⟨Finset.notMem_erase t _, c.blocked_notified.mono_left (Finset.erase_subset t _)⟩

/-- `notify_one`, and the thread it picks: none only if none is blocked. -/
def notifyOne (c : CondVar T) : Option T → Option (CondVar T)
  | none => if c.blocked = ∅ then some c else none
  | some t => if t ∈ c.blocked then some (c.notify t) else none

/-- `notify_all`. -/
def notifyAll (c : CondVar T) : CondVar T where
  blocked := ∅
  notified := c.notified ∪ c.blocked
  roused := c.roused
  blocked_notified := Finset.disjoint_empty_left _

/-- A blocked thread wakes by itself. -/
def rouse (c : CondVar T) (t : T) : Option (CondVar T) :=
  if t ∈ c.blocked then
    some ⟨c.blocked.erase t, c.notified, insert t c.roused,
      c.blocked_notified.mono_left (Finset.erase_subset t _)⟩
  else none

/-- A thread that is awake takes the mutex and leaves `wait`. -/
def resume (c : CondVar T) (t : T) : Option (CondVar T) :=
  if t ∈ c.notified ∪ c.roused then
    some ⟨c.blocked, c.notified.erase t, c.roused.erase t,
      c.blocked_notified.mono_right (Finset.erase_subset t _)⟩
  else none

variable {c d : CondVar T} {t : T}

/-! ### What each operation does -/

/-- Whoever waits is blocked. -/
@[simp] theorem blocked_wait : (c.wait t).blocked = insert t c.blocked := rfl

/-- `notify_all` leaves nobody blocked. -/
@[simp] theorem blocked_notifyAll : c.notifyAll.blocked = ∅ := rfl

/-- `notify_one` wakes one thread, or there is none to wake. -/
theorem notifyOne_eq_some {w : Option T} (h : c.notifyOne w = some d) :
    (c.blocked = ∅ ∧ d = c) ∨ ∃ t ∈ c.blocked, d = c.notify t := by
  unfold notifyOne at h
  split at h <;> split_ifs at h with hw
  · exact Or.inl ⟨hw, (Option.some.inj h).symm⟩
  · exact Or.inr ⟨_, hw, (Option.some.inj h).symm⟩

/-- `notify_one` blocks nobody. -/
theorem notifyOne_blocked {w : Option T} (h : c.notifyOne w = some d) :
    d.blocked ⊆ c.blocked := by
  rcases notifyOne_eq_some h with ⟨-, rfl⟩ | ⟨t, -, rfl⟩
  · exact Finset.Subset.rfl
  · exact Finset.erase_subset t _

/-- **As long as a thread stays blocked, `notify_one` has notified one more.** -/
theorem notifyOne_card {w : Option T} (h : c.notifyOne w = some d) :
    d.blocked = ∅ ∨ d.notified.card = c.notified.card + 1 := by
  rcases notifyOne_eq_some h with ⟨hnone, rfl⟩ | ⟨t, ht, rfl⟩
  · exact Or.inl hnone
  · exact Or.inr (Finset.card_insert_of_notMem (Finset.disjoint_left.1 c.blocked_notified ht))

/-- Who wakes by itself was blocked, and no notification is spent on it. -/
theorem rouse_eq_some (h : c.rouse t = some d) :
    d.blocked = c.blocked.erase t ∧ d.notified = c.notified := by
  unfold rouse at h
  split_ifs at h
  obtain rfl := Option.some.inj h
  exact ⟨rfl, rfl⟩

/-- Who leaves the wait takes its notification along. -/
theorem resume_eq_some (h : c.resume t = some d) :
    d.blocked = c.blocked ∧ d.notified = c.notified.erase t := by
  unfold resume at h
  split_ifs at h
  obtain rfl := Option.some.inj h
  exact ⟨rfl, rfl⟩

/-! ### Enough notifications -/

/-- At least `n` of the threads that wait have been notified, or nobody is asleep. -/
def Covers (c : CondVar T) (n : ℕ) : Prop := c.blocked = ∅ ∨ n ≤ c.notified.card

omit [DecidableEq T] in
/-- No item needs no thread. -/
theorem Covers.zero (c : CondVar T) : c.Covers 0 := Or.inr (Nat.zero_le _)

omit [DecidableEq T] in
/-- Who covers many items covers fewer. -/
theorem Covers.mono {m n : ℕ} (h : c.Covers n) (hmn : m ≤ n) : c.Covers m :=
  h.imp_right fun hn => hmn.trans hn

omit [DecidableEq T] in
/-- Fewer sleepers and no fewer notified ones cover as many items. -/
theorem Covers.of_blocked_subset {n : ℕ} (h : c.Covers n) (hblocked : d.blocked ⊆ c.blocked)
    (hnotified : n ≤ c.notified.card → n ≤ d.notified.card) : d.Covers n := by
  rcases h with hempty | hn
  · exact Or.inl (Finset.subset_empty.1 (hempty ▸ hblocked))
  · exact Or.inr (hnotified hn)

/-- A notification makes up for one more. -/
theorem Covers.notifyOne {n : ℕ} {w : Option T} (h : c.Covers n) (hd : c.notifyOne w = some d) :
    d.Covers (n + 1) := by
  rcases notifyOne_card hd with hempty | hcard
  · exact Or.inl hempty
  · rcases h with hempty | hn
    · exact Or.inl (Finset.subset_empty.1 (hempty ▸ notifyOne_blocked hd))
    · exact Or.inr (by omega)

/-- After `notify_all` nobody sleeps. -/
theorem Covers.notifyAll (c : CondVar T) (n : ℕ) : c.notifyAll.Covers n := Or.inl rfl

/-- A thread that wakes by itself takes no notification away. -/
theorem Covers.rouse {n : ℕ} (h : c.Covers n) (hd : c.rouse t = some d) : d.Covers n := by
  obtain ⟨hblocked, hnotified⟩ := rouse_eq_some hd
  refine h.of_blocked_subset ?_ fun hn => ?_
  · rw [hblocked]
    exact Finset.erase_subset t _
  · rwa [hnotified]

/-- A thread that takes the mutex back takes one notification with it. -/
theorem Covers.resume {n : ℕ} (h : c.Covers n) (hd : c.resume t = some d) : d.Covers (n - 1) := by
  obtain ⟨hblocked, hnotified⟩ := resume_eq_some hd
  rcases h with hempty | hn
  · exact Or.inl (hblocked.trans hempty)
  · have hpred := Finset.pred_card_le_card_erase (s := c.notified) (a := t)
    refine Or.inr ?_
    rw [hnotified]
    omega

/-- It takes none with it if it woke by itself. -/
theorem Covers.resume_of_notMem {n : ℕ} (h : c.Covers n) (hd : c.resume t = some d)
    (ht : t ∉ c.notified) : d.Covers n := by
  obtain ⟨hblocked, hnotified⟩ := resume_eq_some hd
  rw [Finset.erase_eq_of_notMem ht] at hnotified
  refine h.of_blocked_subset hblocked.le fun hn => ?_
  rwa [hnotified]

/-! ### Who waits -/

/-- The threads that are in `wait`. -/
def waiting (c : CondVar T) : Finset T := c.blocked ∪ c.notified ∪ c.roused

/-- Whoever waits does so inside a call of kind `P`, and nobody is both asleep and awake. -/
structure Lodges {K : Type*} (c : CondVar T) (call : T → K) (P : K → Prop) : Prop where
  blocked_roused : Disjoint c.blocked c.roused
  call_of_mem : ∀ u ∈ c.waiting, P (call u)

variable {K : Type*} {call : T → K} {P : K → Prop} {x : K}

/-- At first nobody is there. -/
theorem Lodges.empty (call : T → K) (P : K → Prop) : (empty : CondVar T).Lodges call P :=
  ⟨Finset.disjoint_empty_left _, fun u hu => absurd hu (by simp [waiting, CondVar.empty])⟩

/-- A thread that does not wait may change its call. -/
theorem Lodges.update (h : c.Lodges call P) (ht : ¬ P (call t)) :
    c.Lodges (Function.update call t x) P := by
  refine ⟨h.blocked_roused, fun u hu => ?_⟩
  have hP := h.call_of_mem u hu
  rwa [Function.update_of_ne]
  rintro rfl
  exact ht hP

/-- A thread that begins to wait lodges there with its call. -/
theorem Lodges.wait (h : c.Lodges call P) (hx : P x) :
    (c.wait t).Lodges (Function.update call t x) P := by
  refine ⟨?_, fun u hu => ?_⟩
  · exact Finset.disjoint_insert_left.2
      ⟨Finset.notMem_erase t _, h.blocked_roused.mono_right (Finset.erase_subset t _)⟩
  · by_cases hut : u = t
    · rwa [hut, Function.update_self]
    · rw [Function.update_of_ne hut]
      refine h.call_of_mem u ?_
      simp only [waiting, CondVar.wait, Finset.mem_union, Finset.mem_insert,
        Finset.mem_erase] at hu ⊢
      tauto

/-- A notification moves nobody out. -/
theorem Lodges.notifyOne {w : Option T} (h : c.Lodges call P) (hd : c.notifyOne w = some d) :
    d.Lodges call P := by
  rcases notifyOne_eq_some hd with ⟨-, rfl⟩ | ⟨t, ht, rfl⟩
  · exact h
  · refine ⟨h.blocked_roused.mono_left (Finset.erase_subset t _), fun u hu => ?_⟩
    refine h.call_of_mem u ?_
    simp only [waiting, notify, Finset.mem_union, Finset.mem_insert, Finset.mem_erase] at hu ⊢
    rcases hu with (hu | rfl | hu) | hu
    · exact Or.inl (Or.inl hu.2)
    · exact Or.inl (Or.inl ht)
    · exact Or.inl (Or.inr hu)
    · exact Or.inr hu

/-- Nor do notifications for all. -/
theorem Lodges.notifyAll (h : c.Lodges call P) : c.notifyAll.Lodges call P := by
  refine ⟨Finset.disjoint_empty_left _, fun u hu => h.call_of_mem u ?_⟩
  simp only [waiting, CondVar.notifyAll, Finset.mem_union, Finset.notMem_empty] at hu ⊢
  tauto

/-- Nor does a thread that wakes by itself. -/
theorem Lodges.rouse (h : c.Lodges call P) (hd : c.rouse t = some d) : d.Lodges call P := by
  unfold CondVar.rouse at hd
  split_ifs at hd with ht
  obtain rfl := Option.some.inj hd
  refine ⟨?_, fun u hu => h.call_of_mem u ?_⟩
  · exact Finset.disjoint_insert_right.2
      ⟨Finset.notMem_erase t _, h.blocked_roused.mono_left (Finset.erase_subset t _)⟩
  · simp only [waiting, Finset.mem_union, Finset.mem_insert, Finset.mem_erase] at hu ⊢
    rcases hu with (hu | hu) | rfl | hu
    · exact Or.inl (Or.inl hu.2)
    · exact Or.inl (Or.inr hu)
    · exact Or.inl (Or.inl ht)
    · exact Or.inr hu

/-- A thread that has left `wait` may change its call. -/
theorem Lodges.resume (h : c.Lodges call P) (hd : c.resume t = some d) :
    d.Lodges (Function.update call t x) P := by
  unfold CondVar.resume at hd
  split_ifs at hd with ht
  obtain rfl := Option.some.inj hd
  refine ⟨h.blocked_roused.mono_right (Finset.erase_subset t _), fun u hu => ?_⟩
  have hasleep : t ∉ c.blocked := by
    intro hblocked
    rcases Finset.mem_union.1 ht with hnotified | hroused
    · exact Finset.disjoint_left.1 c.blocked_notified hblocked hnotified
    · exact Finset.disjoint_left.1 h.blocked_roused hblocked hroused
  simp only [waiting, Finset.mem_union, Finset.mem_erase] at hu
  have hut : u ≠ t := by
    rintro rfl
    tauto
  rw [Function.update_of_ne hut]
  refine h.call_of_mem u ?_
  simp only [waiting, Finset.mem_union]
  tauto

/-- Whoever waits is inside of `wait`. -/
theorem mem_waiting_wait (c : CondVar T) (t : T) : t ∈ (c.wait t).waiting :=
  Finset.mem_union_left _ (Finset.mem_union_left _ (Finset.mem_insert_self t _))

/-- A notification lets nobody in or out. -/
theorem waiting_notifyOne {w : Option T} (h : c.notifyOne w = some d) : d.waiting = c.waiting := by
  rcases notifyOne_eq_some h with ⟨-, rfl⟩ | ⟨t, ht, rfl⟩
  · rfl
  · ext u
    simp only [waiting, notify, Finset.mem_union, Finset.mem_insert, Finset.mem_erase]
    by_cases hut : u = t
    · simp [hut, ht]
    · simp [hut]

/-- After `notify_all` the same threads are inside of `wait`. -/
theorem waiting_notifyAll (c : CondVar T) : c.notifyAll.waiting = c.waiting := by
  ext u
  simp only [waiting, notifyAll, Finset.mem_union, Finset.notMem_empty]
  tauto

/-- So they are after one has woken by itself. -/
theorem waiting_rouse (h : c.rouse t = some d) : d.waiting = c.waiting := by
  unfold CondVar.rouse at h
  split_ifs at h with ht
  obtain rfl := Option.some.inj h
  ext u
  simp only [waiting, Finset.mem_union, Finset.mem_insert, Finset.mem_erase]
  by_cases hut : u = t
  · simp [hut, ht]
  · simp [hut]

/-- A notified thread can take the mutex back. -/
theorem resume_of_mem_notified (ht : t ∈ c.notified) : ∃ d, c.resume t = some d :=
  ⟨_, if_pos (Finset.mem_union_left _ ht)⟩

/-- `notify_one` has a thread to pick, or needs none. -/
theorem exists_notifyOne (c : CondVar T) : ∃ w d, c.notifyOne w = some d := by
  rcases Finset.eq_empty_or_nonempty c.blocked with hempty | ⟨t, ht⟩
  · exact ⟨none, c, if_pos hempty⟩
  · exact ⟨some t, c.notify t, if_pos ht⟩

end CondVar
end Lib
end BreUtils
