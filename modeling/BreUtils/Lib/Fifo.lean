/-
# A queue and its books

A first-in, first-out queue, with the books of what went through it: what was pushed,
what was handed out at the front, and what was thrown away when the queue was
cleared.  An item carries the number of its push, so two pushes of one value are
told apart.

The books balance (`Balanced`): what was handed out, followed by what is still in
line, is what was pushed without what was thrown away, in the order of the pushes;
and every push is accounted for once.
-/

import Mathlib.Data.List.Perm.Basic
import Mathlib.Data.List.Range

namespace BreUtils
namespace Lib

variable {V : Type*}

/-- A value, and the number of the push that brought it. -/
structure Fifo.Item (V : Type*) where
  number : ℕ
  value : V
  deriving DecidableEq, Repr

/-- A queue with its books. -/
structure Fifo (V : Type*) where
  queue : List (Fifo.Item V) := []
  pushed : List (Fifo.Item V) := []
  delivered : List (Fifo.Item V) := []
  discarded : List (Fifo.Item V) := []
  deriving DecidableEq, Repr

namespace Fifo

/-- A value joins the end of the line. -/
def push (f : Fifo V) (v : V) : Fifo V :=
  { f with
    queue := f.queue ++ [⟨f.pushed.length, v⟩]
    pushed := f.pushed ++ [⟨f.pushed.length, v⟩] }

/-- The item at the front is handed out. -/
def pop (f : Fifo V) : Option (Fifo V) :=
  match f.queue with
  | [] => none
  | i :: rest => some { f with queue := rest, delivered := f.delivered ++ [i] }

/-- Everything in line is thrown away. -/
def clear (f : Fifo V) : Fifo V :=
  { f with queue := [], discarded := f.discarded ++ f.queue }

/-- A push makes the queue one longer. -/
@[simp] theorem length_push (f : Fifo V) (v : V) :
    (f.push v).queue.length = f.queue.length + 1 := List.length_append

/-- After `clear` the queue is empty. -/
@[simp] theorem queue_clear (f : Fifo V) : f.clear.queue = [] := rfl

/-- `clear` delivers nothing. -/
@[simp] theorem delivered_clear (f : Fifo V) : f.clear.delivered = f.delivered := rfl

/-- Nothing is popped from the empty queue only. -/
@[simp] theorem pop_eq_none {f : Fifo V} : f.pop = none ↔ f.queue = [] := by
  unfold pop
  split <;> simp_all

/-- Nothing is thrown away from an empty queue. -/
theorem clear_of_queue_eq_nil {f : Fifo V} (h : f.queue = []) : f.clear = f := by
  obtain ⟨queue, pushed, delivered, discarded⟩ := f
  obtain rfl : queue = [] := h
  simp [clear]

/-- A pop delivers the front. -/
theorem pop_eq_some {f g : Fifo V} (h : f.pop = some g) :
    ∃ i rest, f.queue = i :: rest ∧
      g = { f with queue := rest, delivered := f.delivered ++ [i] } := by
  unfold pop at h
  split at h
  · exact absurd h (by simp)
  · rename_i i rest hqueue
    exact ⟨i, rest, hqueue, (Option.some.inj h).symm⟩

/-- **The books balance.** -/
structure Balanced (f : Fifo V) : Prop where
  /-- Pushes are numbered in their order. -/
  numbered : f.pushed.map Item.number = List.range f.pushed.length
  /-- What came out and what is in line is what went in without what was thrown away, in order. -/
  ordered : f.delivered ++ f.queue =
    f.pushed.filter fun i => i.number ∉ f.discarded.map Item.number
  /-- Every push is accounted for once. -/
  accounted : f.pushed.Perm (f.delivered ++ f.queue ++ f.discarded)

/-- The books of an empty queue balance. -/
theorem Balanced.empty : ({} : Fifo V).Balanced := ⟨rfl, rfl, List.Perm.refl _⟩

/-- Nothing that was thrown away has the number of the next push. -/
theorem Balanced.number_lt {f : Fifo V} (h : f.Balanced) {i : Item V} (hi : i ∈ f.discarded) :
    i.number < f.pushed.length := by
  have hmem : i ∈ f.pushed := h.accounted.mem_iff.2 (List.mem_append_right _ hi)
  have hnumber : i.number ∈ f.pushed.map Item.number := List.mem_map_of_mem hmem
  rw [h.numbered] at hnumber
  exact List.mem_range.1 hnumber

/-- A push keeps the books balanced. -/
theorem Balanced.push {f : Fifo V} (h : f.Balanced) (v : V) : (f.push v).Balanced where
  numbered := by
    show (f.pushed ++ [(⟨f.pushed.length, v⟩ : Item V)]).map Item.number =
      List.range (f.pushed ++ [(⟨f.pushed.length, v⟩ : Item V)]).length
    rw [List.map_append, h.numbered, List.length_append, List.length_singleton, List.range_succ]
    rfl
  ordered := by
    have hnew : f.pushed.length ∉ f.discarded.map Item.number := by
      intro hmem
      obtain ⟨i, hi, hnumber⟩ := List.mem_map.1 hmem
      have hlt := h.number_lt hi
      omega
    show f.delivered ++ (f.queue ++ [(⟨f.pushed.length, v⟩ : Item V)]) =
      (f.pushed ++ [(⟨f.pushed.length, v⟩ : Item V)]).filter
        fun i => i.number ∉ f.discarded.map Item.number
    rw [List.filter_append, ← h.ordered, List.append_assoc]
    congr 2
    exact (List.filter_eq_self.2 (by simpa using hnew)).symm
  accounted := by
    show (f.pushed ++ [(⟨f.pushed.length, v⟩ : Item V)]).Perm
      (f.delivered ++ (f.queue ++ [(⟨f.pushed.length, v⟩ : Item V)]) ++ f.discarded)
    rw [← List.append_assoc f.delivered, List.append_assoc (f.delivered ++ f.queue)]
    refine (h.accounted.append_right _).trans ?_
    rw [List.append_assoc]
    exact List.perm_append_comm.append_left _

/-- A pop keeps the books balanced. -/
theorem Balanced.pop {f g : Fifo V} (h : f.Balanced) (hpop : f.pop = some g) : g.Balanced := by
  obtain ⟨i, rest, hqueue, rfl⟩ := pop_eq_some hpop
  have hline : f.delivered ++ [i] ++ rest = f.delivered ++ f.queue := by
    rw [hqueue, List.append_assoc]
    rfl
  refine ⟨h.numbered, ?_, ?_⟩
  · show f.delivered ++ [i] ++ rest = _
    rw [hline]
    exact h.ordered
  · show f.pushed.Perm (f.delivered ++ [i] ++ rest ++ f.discarded)
    rw [hline]
    exact h.accounted

/-- What is in line was thrown away: it is missing from the order now. -/
theorem Balanced.clear {f : Fifo V} (h : f.Balanced) : f.clear.Balanced where
  numbered := h.numbered
  ordered := by
    have hnodup : (f.pushed.map Item.number).Nodup := h.numbered ▸ List.nodup_range
    have hline : ((f.delivered ++ f.queue).map Item.number).Nodup := by
      have hall := (h.accounted.map Item.number).nodup_iff.1 hnodup
      rw [List.map_append] at hall
      exact (List.nodup_append.1 hall).1
    have hdelivered : ∀ i ∈ f.delivered, i.number ∉ f.queue.map Item.number := by
      intro i hi hmem
      rw [List.map_append] at hline
      exact (List.nodup_append.1 hline).2.2 _ (List.mem_map_of_mem hi) _ hmem rfl
    show f.delivered ++ [] = f.pushed.filter
      fun i => i.number ∉ (f.discarded ++ f.queue).map Item.number
    calc f.delivered ++ []
        = (f.delivered ++ f.queue).filter fun i => i.number ∉ f.queue.map Item.number := by
          rw [List.filter_append, List.filter_eq_self.2 (by simpa using hdelivered),
            List.filter_eq_nil_iff.2 (by
              intro i hi
              simpa using ⟨i, hi, rfl⟩)]
      _ = f.pushed.filter fun i => i.number ∉ (f.discarded ++ f.queue).map Item.number := by
          rw [h.ordered, List.filter_filter]
          refine List.filter_congr fun i _ => ?_
          rw [List.map_append, ← Bool.decide_and]
          exact decide_eq_decide.2 (by rw [List.mem_append]; tauto)
  accounted := by
    show f.pushed.Perm (f.delivered ++ [] ++ (f.discarded ++ f.queue))
    rw [List.append_nil]
    refine h.accounted.trans ?_
    rw [List.append_assoc]
    exact List.perm_append_comm.append_left _

end Fifo
end Lib
end BreUtils
