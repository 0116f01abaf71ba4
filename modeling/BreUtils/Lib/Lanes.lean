/-
# A line with an express lane

Items are admitted one at a time and numbered in that order.  An admitted item joins
the end of the line (`join`), or passes the line and is served at once (`pass`); the
front of the line is served when its turn comes (`serve`).

The order in which the items are served, now or later, is `order`.  Each admitted item
stands in it once, and an item stands before one that was admitted earlier only if it
passed a line that the other stood in (`Before`).  Where nobody passes anybody, the
items are served in the order in which they were admitted (`Kept.order_eq`).
-/

import Mathlib.Data.List.Perm.Basic
import Mathlib.Data.List.Range
import Mathlib.Data.List.Pairwise

namespace BreUtils
namespace Lib

variable {V : Type*}

/-- Who was served, who is in line, and who was admitted, each in order. -/
structure Lanes (V : Type*) where
  served : List V := []
  waiting : List V := []
  admitted : List V := []
  deriving DecidableEq, Repr

namespace Lanes

/-- An item is admitted and joins the end of the line. -/
def join (s : Lanes V) (v : V) : Lanes V :=
  { s with waiting := s.waiting ++ [v], admitted := s.admitted ++ [v] }

/-- An item is admitted and served at once. -/
def pass (s : Lanes V) (v : V) : Lanes V :=
  { s with served := s.served ++ [v], admitted := s.admitted ++ [v] }

/-- The front of the line is served. -/
def serve (s : Lanes V) : Option (Lanes V) :=
  match s.waiting with
  | [] => none
  | v :: rest => some { s with served := s.served ++ [v], waiting := rest }

/-- The order in which the items are served, now or later. -/
def order (s : Lanes V) : List V := s.served ++ s.waiting

/-- Who joins the line comes last. -/
theorem order_join (s : Lanes V) (v : V) : (s.join v).order = s.order ++ [v] :=
  (List.append_assoc _ _ _).symm

/-- Who passes comes before all that wait. -/
theorem order_pass (s : Lanes V) (v : V) :
    (s.pass v).order = s.served ++ v :: s.waiting := by
  show s.served ++ [v] ++ s.waiting = _
  rw [List.append_assoc, List.singleton_append]

/-- To be served is to be at the front. -/
theorem serve_eq_some {s t : Lanes V} (h : s.serve = some t) :
    ∃ v rest, s.waiting = v :: rest ∧
      t = { s with served := s.served ++ [v], waiting := rest } := by
  unfold serve at h
  split at h
  · exact absurd h (by simp)
  · rename_i v rest hwaiting
    exact ⟨v, rest, hwaiting, (Option.some.inj h).symm⟩

/-- To serve the front changes nobody's place. -/
theorem order_serve {s t : Lanes V} (h : s.serve = some t) : t.order = s.order := by
  obtain ⟨v, rest, hwaiting, rfl⟩ := serve_eq_some h
  show s.served ++ [v] ++ rest = s.served ++ s.waiting
  rw [hwaiting, List.append_assoc, List.singleton_append]

variable (number : V → ℕ) (express : V → Prop)

/-- When one item may stand before another: it was admitted earlier, or it passed the line that the
other stood in. -/
def Before (x y : V) : Prop := number x < number y ∨ express x ∧ ¬ express y

/-- **What the two lanes keep.** -/
structure Kept (s : Lanes V) : Prop where
  /-- The items are numbered in the order of their admission. -/
  numbered : s.admitted.map number = List.range s.admitted.length
  /-- Each of them has one place. -/
  accounted : s.order.Perm s.admitted
  /-- Only who passes the line comes before one who was admitted earlier. -/
  ordered : s.order.Pairwise (Before number express)
  /-- Who waits did not pass. -/
  plain : ∀ v ∈ s.waiting, ¬ express v

variable {number express}

/-- With nobody there the order is kept. -/
theorem Kept.empty : Kept number express ({} : Lanes V) :=
  ⟨rfl, List.Perm.refl _, List.Pairwise.nil, by simp⟩

/-- Who is in the order has a smaller number than the next to be admitted. -/
theorem Kept.number_lt {s : Lanes V} (h : Kept number express s) {x : V} (hx : x ∈ s.order) :
    number x < s.admitted.length := by
  have hmem : number x ∈ s.admitted.map number :=
    List.mem_map_of_mem (h.accounted.mem_iff.1 hx)
  rw [h.numbered] at hmem
  exact List.mem_range.1 hmem

/-- The next item is numbered by those before it. -/
theorem numbered_concat {l : List V} {v : V} (h : l.map number = List.range l.length)
    (hv : number v = l.length) :
    (l ++ [v]).map number = List.range (l ++ [v]).length := by
  rw [List.map_append, h, List.length_append, List.length_singleton, List.range_succ,
    List.map_singleton, hv]

/-- Who joins the line comes after everybody. -/
theorem Kept.join {s : Lanes V} {v : V} (h : Kept number express s)
    (hnumber : number v = s.admitted.length) (hv : ¬ express v) :
    Kept number express (s.join v) where
  numbered := numbered_concat h.numbered hnumber
  accounted := by
    rw [order_join]
    exact h.accounted.append_right [v]
  ordered := by
    rw [order_join, List.pairwise_append]
    refine ⟨h.ordered, List.pairwise_singleton _ _, fun x hx y hy => Or.inl ?_⟩
    rw [List.mem_singleton.1 hy, hnumber]
    exact h.number_lt hx
  plain x hx := by
    rcases List.mem_append.1 hx with hx | hx
    · exact h.plain x hx
    · exact List.mem_singleton.1 hx ▸ hv

/-- Who passes the line comes after all who were served; nobody passes an empty line. -/
theorem Kept.pass {s : Lanes V} {v : V} (h : Kept number express s)
    (hnumber : number v = s.admitted.length) (hv : s.waiting ≠ [] → express v) :
    Kept number express (s.pass v) where
  numbered := numbered_concat h.numbered hnumber
  accounted := by
    rw [order_pass]
    refine List.perm_middle.trans ?_
    refine List.Perm.trans ?_ (List.perm_append_singleton v s.admitted).symm
    exact h.accounted.cons v
  ordered := by
    obtain ⟨hserved, hwaiting, hacross⟩ := List.pairwise_append.1 h.ordered
    rw [order_pass, List.pairwise_append, List.pairwise_cons]
    refine ⟨hserved, ⟨fun y hy => Or.inr ⟨hv (List.ne_nil_of_mem hy), h.plain y hy⟩, hwaiting⟩,
      fun x hx y hy => ?_⟩
    rcases List.mem_cons.1 hy with rfl | hy
    · left
      rw [hnumber]
      exact h.number_lt (List.mem_append_left _ hx)
    · exact hacross x hx y hy
  plain := h.plain

/-- **Serving the front keeps the order.** -/
theorem Kept.serve {s t : Lanes V} (h : Kept number express s) (ht : s.serve = some t) :
    Kept number express t := by
  have horder := order_serve ht
  obtain ⟨v, rest, hwaiting, rfl⟩ := serve_eq_some ht
  refine ⟨h.numbered, horder ▸ h.accounted, horder ▸ h.ordered, fun x hx => ?_⟩
  exact h.plain x (hwaiting ▸ List.mem_cons_of_mem _ hx)

/-- **Where nobody passes anybody, all are served in the order of their admission.** -/
theorem Kept.order_eq {s : Lanes V} (h : Kept number express s)
    (hplain : ∀ v ∈ s.admitted, ¬ express v) : s.order = s.admitted := by
  have horder : s.order.Pairwise fun x y => number x < number y := by
    refine h.ordered.imp_of_mem fun {x y} hx _ hxy => ?_
    rcases hxy with hlt | ⟨hexpress, -⟩
    · exact hlt
    · exact absurd hexpress (hplain x (h.accounted.mem_iff.1 hx))
  have hadmitted : s.admitted.Pairwise fun x y => number x < number y := by
    rw [← List.pairwise_map, h.numbered]
    exact List.pairwise_lt_range
  exact h.accounted.eq_of_pairwise
    (fun x y _ _ hxy hyx => absurd hxy (Nat.lt_asymm hyx)) horder hadmitted

end Lanes
end Lib
end BreUtils
