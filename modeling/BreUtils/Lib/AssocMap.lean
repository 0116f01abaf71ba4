/-
# Finite maps as key-sorted association lists

A hash map has no order of its own: two maps are the same when they hold the
same value under every key.  The canonical form used here is the association
list with strictly increasing keys.  `assign` is the write `m[k] = v`, and
`Sorted.ext` says that a canonical form is determined by its lookups, so that
equality of maps is equality of lists.  `LastWins` is the map that a list of
writes leaves behind, stated by its lookups alone: under every key the value of
the last write to it.
-/

import Mathlib.Data.List.Induction
import Mathlib.Data.List.Perm.Subperm

namespace BreUtils
namespace Lib
namespace AssocMap

variable {K V : Type*}

/-- The keys strictly increase. -/
def Sorted [LT K] (m : List (K × V)) : Prop := m.Pairwise fun a b => a.1 < b.1

/-- The first key of a sorted list does not come again. -/
theorem Sorted.ne_of_mem_tail [LT K] [Std.Irrefl (α := K) (· < ·)] {k : K} {v : V}
    {m : List (K × V)} (h : Sorted ((k, v) :: m)) {e : K × V} (he : e ∈ m) : e.1 ≠ k := fun hek =>
  Std.lt_irrefl (hek ▸ (List.pairwise_cons.1 h).1 e he)

variable [DecidableEq K]

/-- `m[k] = v`. -/
def assign [LT K] [DecidableLT K] (m : List (K × V)) (k : K) (v : V) : List (K × V) :=
  match m with
  | [] => [(k, v)]
  | (l, w) :: m =>
      if k = l then (k, v) :: m
      else if k < l then (k, v) :: (l, w) :: m
      else (l, w) :: assign m k v

/-- An assignment brings in no entry but its own. -/
theorem mem_assign [LT K] [DecidableLT K] {m : List (K × V)} {k : K} {v : V} {e : K × V}
    (h : e ∈ assign m k v) : e = (k, v) ∨ e ∈ m := by
  induction m with
  | nil => exact Or.inl (List.mem_singleton.1 h)
  | cons f m ih =>
      rw [assign] at h
      split_ifs at h with hkl hlt
      · rcases List.mem_cons.1 h with h | h
        · exact Or.inl h
        · exact Or.inr (List.mem_cons_of_mem _ h)
      · rcases List.mem_cons.1 h with h | h
        · exact Or.inl h
        · exact Or.inr h
      · rcases List.mem_cons.1 h with h | h
        · exact Or.inr (h ▸ List.mem_cons_self ..)
        · exact (ih h).imp_right (List.mem_cons_of_mem _)

/-- **An assignment keeps the list sorted.** -/
theorem Sorted.assign [LT K] [DecidableLT K] [LE K] [Std.IsLinearOrder K] [Std.LawfulOrderLT K]
    {m : List (K × V)} (h : Sorted m) (k : K) (v : V) : Sorted (assign m k v) := by
  induction m with
  | nil => exact List.pairwise_singleton _ _
  | cons e m ih =>
      obtain ⟨l, w⟩ := e
      obtain ⟨hl, hm⟩ := List.pairwise_cons.1 h
      rw [AssocMap.assign]
      split_ifs with hkl hlt
      · exact List.pairwise_cons.2 ⟨fun e he => hkl ▸ hl e he, hm⟩
      · refine List.pairwise_cons.2 ⟨fun e he => ?_, h⟩
        rcases List.mem_cons.1 he with rfl | he
        · exact hlt
        · exact Std.lt_trans hlt (hl e he)
      · refine List.pairwise_cons.2 ⟨fun e he => ?_, ih hm⟩
        rcases mem_assign he with rfl | he
        · exact Std.lt_of_le_of_ne (Std.not_lt.1 hlt) (Ne.symm hkl)
        · exact hl e he

/-- A write to a new key adds one pair. -/
theorem assign_perm [LT K] [DecidableLT K] {m : List (K × V)} {k : K}
    (h : k ∉ m.map Prod.fst) (v : V) :
    (assign m k v).Perm ((k, v) :: m) := by
  induction m with
  | nil => exact .refl _
  | cons e m ih =>
      obtain ⟨l, w⟩ := e
      rw [List.map_cons, List.mem_cons, not_or] at h
      rw [assign, if_neg h.1]
      split_ifs
      · exact .refl _
      · exact ((ih h.2).cons _).trans (.swap _ _ _)

/-- Writes to distinct keys leave exactly their pairs. -/
theorem foldl_assign_perm [LT K] [DecidableLT K] {ws : List (K × V)} (h : (ws.map Prod.fst).Nodup) :
    (ws.foldl (fun m e => assign m e.1 e.2) []).Perm ws := by
  induction ws using List.reverseRecOn with
  | nil => exact .refl _
  | append_singleton ws e ih =>
      rw [List.map_append, List.nodup_append] at h
      obtain ⟨hws, -, hdisj⟩ := h
      have hp := ih hws
      rw [List.foldl_append, List.foldl_cons, List.foldl_nil]
      have hnew : e.1 ∉ (ws.foldl (fun m e => assign m e.1 e.2) []).map Prod.fst := fun hmem =>
        hdisj _ ((hp.map Prod.fst).mem_iff.1 hmem) e.1 (by simp) rfl
      exact (assign_perm hnew e.2).trans ((hp.cons e).trans (List.perm_append_singleton e ws).symm)

variable [BEq K] [LawfulBEq K]

/-! ### Lookups -/

/-- The first entry decides, if it has the key. -/
theorem lookup_cons (l : K) (w : V) (m : List (K × V)) (k : K) :
    ((l, w) :: m).lookup k = if k = l then some w else m.lookup k := by
  rw [List.lookup_cons]
  by_cases h : k = l
  · rw [if_pos h, beq_iff_eq.2 h]
  · rw [if_neg h, beq_eq_false_iff_ne.2 h]

/-- A key that no entry has is not found. -/
theorem lookup_eq_none {m : List (K × V)} {k : K} (h : ∀ e ∈ m, e.1 ≠ k) : m.lookup k = none := by
  induction m with
  | nil => rfl
  | cons e m ih =>
      obtain ⟨l, w⟩ := e
      rw [lookup_cons, if_neg fun hk => h (l, w) (List.mem_cons_self ..) hk.symm]
      exact ih fun e he => h e (List.mem_cons_of_mem _ he)

/-- With distinct keys a lookup finds every pair. -/
theorem lookup_of_nodup {m : List (K × V)} (h : (m.map Prod.fst).Nodup) {e : K × V} (he : e ∈ m) :
    m.lookup e.1 = some e.2 := by
  induction m with
  | nil => cases he
  | cons f m ih =>
      obtain ⟨l, w⟩ := f
      obtain ⟨hl, hm⟩ := List.nodup_cons.1 h
      rcases List.mem_cons.1 he with rfl | he
      · rw [lookup_cons, if_pos rfl]
      · have hne : e.1 ≠ l := fun h => hl (List.mem_map.2 ⟨e, he, h⟩)
        rw [lookup_cons, if_neg hne]
        exact ih hm he

/-- **Two maps of one size have the same keys if one has those of the other**: partners under every
key of the one are partners under every key of the other. -/
theorem exists_lookup_symm {W : Type*} {R : V → W → Prop} {m : List (K × V)} {n : List (K × W)}
    (hm : (m.map Prod.fst).Nodup) (hn : (n.map Prod.fst).Nodup) (hlength : m.length = n.length)
    (h : ∀ e ∈ m, ∃ w, n.lookup e.1 = some w ∧ R e.2 w) :
    ∀ e ∈ n, ∃ v, m.lookup e.1 = some v ∧ R v e.2 := by
  have hkeys : m.map Prod.fst ⊆ n.map Prod.fst := by
    intro k hk
    obtain ⟨e, he, rfl⟩ := List.mem_map.1 hk
    obtain ⟨w, hw, -⟩ := h e he
    by_contra hnone
    rw [lookup_eq_none fun f hf hfe => hnone (List.mem_map.2 ⟨f, hf, hfe⟩)] at hw
    cases hw
  have hperm : (m.map Prod.fst).Perm (n.map Prod.fst) :=
    (List.subperm_of_subset hm hkeys).perm_of_length_le (by simp [hlength])
  intro e he
  obtain ⟨f, hf, hfe⟩ := List.mem_map.1 (hperm.mem_iff.2 (List.mem_map_of_mem he))
  obtain ⟨w, hw, hR⟩ := h f hf
  rw [hfe, lookup_of_nodup hn he] at hw
  obtain rfl := Option.some.inj hw
  exact ⟨f.2, hfe ▸ lookup_of_nodup hm hf, hR⟩

omit [DecidableEq K] in
/-- What is found is an entry. -/
theorem mem_of_lookup {m : List (K × V)} {k : K} {v : V} (h : m.lookup k = some v) :
    (k, v) ∈ m := by
  obtain ⟨before, after, rfl, -⟩ := List.lookup_eq_some_iff.1 h
  exact List.mem_append_right _ List.mem_cons_self

/-- The order of the pairs does not matter to a lookup. -/
theorem lookup_of_perm {m n : List (K × V)} (hm : (m.map Prod.fst).Nodup) (h : m.Perm n) (k : K) :
    m.lookup k = n.lookup k := by
  have hn : (n.map Prod.fst).Nodup := (h.map Prod.fst).nodup_iff.1 hm
  ext v
  constructor
  · exact fun hv => lookup_of_nodup hn (h.mem_iff.1 (mem_of_lookup hv))
  · exact fun hv => lookup_of_nodup hm (h.mem_iff.2 (mem_of_lookup hv))

/-! ### Writes -/

variable [LT K]

/-- **The last write to a key wins.**  `m` is the canonical map that holds,
under every key, the value of the last pair of `ws` with that key. -/
def LastWins (ws m : List (K × V)) : Prop :=
  Sorted m ∧ ∀ k, m.lookup k = ws.reverse.lookup k

/-- **What is found after an assignment.** -/
theorem lookup_assign [DecidableLT K] (m : List (K × V)) (k : K) (v : V) (j : K) :
    (assign m k v).lookup j = if j = k then some v else m.lookup j := by
  induction m with
  | nil => exact lookup_cons k v [] j
  | cons e m ih =>
      obtain ⟨l, w⟩ := e
      unfold assign
      split_ifs with hkl hlt hjk hjk hjk
      all_goals simp only [lookup_cons, ih]
      all_goals grind

/-! ### Canonical maps -/

variable [LE K] [Std.IsLinearOrder K] [Std.LawfulOrderLT K]

/-- The least key of a canonical map is not found in one whose keys are all greater. -/
theorem Sorted.lookup_eq_none_of_lt {k l : K} {w : V} {m : List (K × V)}
    (h : Sorted ((l, w) :: m)) (hkl : k < l) : ((l, w) :: m).lookup k = none := by
  refine lookup_eq_none fun e he => ?_
  rcases List.mem_cons.1 he with rfl | he
  · exact fun hek => Std.lt_irrefl (hek ▸ hkl)
  · exact fun hek => Std.lt_irrefl (hek ▸ Std.lt_trans hkl ((List.pairwise_cons.1 h).1 e he))

/-- **A canonical map is determined by its lookups.** -/
theorem Sorted.ext {m n : List (K × V)} (hm : Sorted m) (hn : Sorted n)
    (h : ∀ k, m.lookup k = n.lookup k) : m = n := by
  induction m generalizing n with
  | nil =>
      cases n with
      | nil => rfl
      | cons e n =>
          have := h e.1
          rw [lookup_cons, if_pos rfl] at this
          cases this
  | cons e m ih =>
      obtain ⟨k, v⟩ := e
      cases n with
      | nil =>
          have := h k
          rw [lookup_cons, if_pos rfl] at this
          cases this
      | cons f n =>
          obtain ⟨l, w⟩ := f
          -- each side finds the other's least key, so the least keys agree
          have hkl : k = l := by
            rcases Std.lt_trichotomy k l with hlt | heq | hlt
            · have := (h k).trans (hn.lookup_eq_none_of_lt hlt)
              rw [lookup_cons, if_pos rfl] at this
              cases this
            · exact heq
            · have := (h l).symm.trans (hm.lookup_eq_none_of_lt hlt)
              rw [lookup_cons, if_pos rfl] at this
              cases this
          subst hkl
          have hvw := h k
          rw [lookup_cons, lookup_cons, if_pos rfl, if_pos rfl] at hvw
          have htail : m = n := by
            refine ih (List.pairwise_cons.1 hm).2 (List.pairwise_cons.1 hn).2 fun j => ?_
            by_cases hj : j = k
            · rw [hj, lookup_eq_none fun e he => hm.ne_of_mem_tail he,
                lookup_eq_none fun e he => hn.ne_of_mem_tail he]
            · have := h j
              rwa [lookup_cons, lookup_cons, if_neg hj, if_neg hj] at this
          rw [Option.some.inj hvw, htail]

/-- Writing the pairs one after the other leaves the map in which the last write wins. -/
theorem lastWins_foldl [DecidableLT K] (ws : List (K × V)) :
    LastWins ws (ws.foldl (fun m e => assign m e.1 e.2) []) := by
  induction ws using List.reverseRecOn with
  | nil => exact ⟨List.Pairwise.nil, fun _ => rfl⟩
  | append_singleton ws e ih =>
      obtain ⟨k, v⟩ := e
      rw [List.foldl_append]
      refine ⟨ih.1.assign k v, fun j => ?_⟩
      rw [List.foldl_cons, List.foldl_nil, lookup_assign, ih.2 j, List.reverse_append,
        List.reverse_singleton, List.singleton_append, lookup_cons]

/-- The last writes determine the map. -/
theorem LastWins.unique {ws m n : List (K × V)} (hm : LastWins ws m) (hn : LastWins ws n) :
    m = n :=
  hm.1.ext hn.1 fun k => (hm.2 k).trans (hn.2 k).symm

end AssocMap
end Lib
end BreUtils
