/-
# Removal from a vector by a swap with its last element

A vector that need not keep its order loses an element in constant time: the last
element is swapped into its place and the end is popped.  The others are the same
elements as before (`swapRemove_perm`), and one of them has moved at most.

Where each element knows its position, by a table of positions under its key, the one
that moved is entered anew.  `Placed` says that the table is right, and one entry makes it
right again after a removal (`Placed.swapRemove`).
-/

import Mathlib.Data.List.Nodup
import Mathlib.Data.List.Perm.Basic
import Mathlib.Logic.Function.Basic

namespace BreUtils
namespace Lib

variable {α κ : Type*}

/-- Swap the element at `i` with the last one, and pop the end. -/
def swapRemove (l : List α) (i : ℕ) (h : i < l.length) : List α :=
  ((l.set i (l.getLast (List.ne_nil_of_length_pos (Nat.zero_lt_of_lt h)))).set (l.length - 1)
    l[i]).dropLast

variable {l : List α} {i : ℕ}

/-- One element is gone. -/
theorem length_swapRemove (h : i < l.length) : (swapRemove l i h).length = l.length - 1 := by
  simp [swapRemove]

/-- The last element is at `i`, the end is gone, and the rest is where it was. -/
theorem getElem?_swapRemove (h : i < l.length) (k : ℕ) :
    (swapRemove l i h)[k]? =
      if k < l.length - 1 then if k = i then l.getLast? else l[k]? else none := by
  unfold swapRemove
  rw [List.getElem?_dropLast, List.length_set, List.length_set]
  split_ifs with hk hki
  · subst hki
    rw [List.getElem?_set_ne (by omega), List.getElem?_set_self (by omega),
      List.getLast?_eq_some_getLast]
  · rw [List.getElem?_set_ne (by omega), List.getElem?_set_ne (by omega)]
  · rfl

/-- Only the places from `i` on change. -/
theorem take_swapRemove (h : i < l.length) : (swapRemove l i h).take i = l.take i := by
  refine List.ext_getElem? fun k => ?_
  rw [List.getElem?_take, List.getElem?_take, getElem?_swapRemove]
  split_ifs with hk h1 h2
  · omega
  · rfl
  · omega
  · rfl

/-- **The vector is the element that goes and those that stay.** -/
theorem swapRemove_perm (h : i < l.length) : (l[i] :: swapRemove l i h).Perm l := by
  have hne : l ≠ [] := List.ne_nil_of_length_pos (Nat.zero_lt_of_lt h)
  have hlast : (l.getLast hne :: l.dropLast).Perm l := by
    refine (List.perm_append_singleton _ _).symm.trans ?_
    rw [List.dropLast_append_getLast]
  have hremoved : swapRemove l i h = l.dropLast.set i (l.getLast hne) := by
    refine List.ext_getElem? fun k => ?_
    rw [getElem?_swapRemove, List.getElem?_set, List.length_dropLast, List.getElem?_dropLast,
      List.getLast?_eq_some_getLast hne]
    split_ifs <;> first | rfl | omega
  rw [hremoved]
  by_cases hi : i < l.dropLast.length
  · have hget : l[i] = l.dropLast[i] := by simp
    refine List.Perm.trans ?_ hlast
    calc (l[i] :: l.dropLast.set i (l.getLast hne)).Perm
          (l[i] :: l.getLast hne :: l.dropLast.eraseIdx i) :=
            (List.set_perm_cons_eraseIdx hi _).cons _
      List.Perm _ (l.getLast hne :: l[i] :: l.dropLast.eraseIdx i) := List.Perm.swap _ _ _
      List.Perm _ (l.getLast hne :: l.dropLast) := by
          rw [hget]
          exact (List.getElem_cons_eraseIdx_perm hi).cons _
  · rw [List.set_eq_of_length_le (by omega)]
    have hget : l[i] = l.getLast hne := by
      rw [List.getLast_eq_getElem]
      congr 1
      rw [List.length_dropLast] at hi
      omega
    rw [hget]
    exact hlast

/-- The table of positions is right for the vector. -/
def Placed (index : κ → ℕ) (key : α → κ) (l : List α) : Prop :=
  ∀ k a, l[k]? = some a → index (key a) = k

section Placed

variable {index : κ → ℕ} {key : α → κ}

/-- In the empty vector every key is where the index says. -/
theorem placed_nil : Placed index key [] := by
  intro k a h
  exact absurd h (by simp)

/-- Positions of other elements may change. -/
theorem Placed.congr {index' : κ → ℕ} (h : Placed index key l)
    (heq : ∀ a ∈ l, index' (key a) = index (key a)) : Placed index' key l := by
  intro k a hk
  rw [heq a (List.mem_of_getElem? hk), h k a hk]

variable [DecidableEq κ]

/-- An element is pushed, and its position is entered. -/
theorem Placed.push {a : α} (h : Placed index key l) (ha : ∀ b ∈ l, key b ≠ key a) :
    Placed (Function.update index (key a) l.length) key (l ++ [a]) := by
  intro k b hk
  rw [List.getElem?_append] at hk
  split_ifs at hk with hlt
  · rw [Function.update_of_ne (ha b (List.mem_of_getElem? hk))]
    exact h k b hk
  · rw [List.getElem?_singleton] at hk
    split_ifs at hk with hzero
    obtain rfl := Option.some.inj hk
    rw [Function.update_self]
    omega

/-- **The position of the element that moved is entered, and the table is right again.** -/
theorem Placed.swapRemove (h : Placed index key l) (hi : i < l.length) :
    Placed (Function.update index
      (key (l.getLast (List.ne_nil_of_length_pos (Nat.zero_lt_of_lt hi)))) i) key
      (swapRemove l i hi) := by
  have hne : l ≠ [] := List.ne_nil_of_length_pos (Nat.zero_lt_of_lt hi)
  have hback : index (key (l.getLast hne)) = l.length - 1 :=
    h _ _ (by rw [← List.getLast?_eq_some_getLast, List.getLast?_eq_getElem?])
  intro k a hk
  rw [getElem?_swapRemove] at hk
  split_ifs at hk with hlt hki
  · rw [List.getLast?_eq_some_getLast hne] at hk
    obtain rfl := Option.some.inj hk
    rw [Function.update_self, hki]
  · have ha : index (key a) = k := h k a hk
    have hkey : key a ≠ key (l.getLast hne) := by
      intro heq
      rw [heq, hback] at ha
      omega
    rw [Function.update_of_ne hkey, ha]

end Placed

end Lib
end BreUtils
