/-
# Trees, as transition systems

From the root of a tree a word leads along the edges with its letters, as far as there
are such edges.  So a tree is a transition system, the words are its runs, and that it is
a tree means that no two words lead to the same node.  A tree grows by an edge to a new
node.  Then one more word leads somewhere, and all the others lead where they led before
(`run_grow`).

Where the nodes are trees themselves, and hold their children, a subtree is changed by
building the nodes above it anew (`replace`).
-/

import BreUtils.Lib.Transition

namespace BreUtils
namespace Lib
namespace Tree

open Transition

variable {Q A : Type*} {child child' : Q → A → Option Q} {root p q new : Q} {u s t : List A} {a : A}

/-- No two words lead to the same node. -/
def IsTree (child : Q → A → Option Q) (root : Q) : Prop :=
  ∀ s t q, run child root s = some q → run child root t = some q → s = t

/-- A word that leads somewhere led somewhere all the way. -/
theorem run_of_prefix (hs : s <+: t) (h : run child root t = some q) :
    ∃ p, run child root s = some p := by
  obtain ⟨r, rfl⟩ := hs
  rw [run_append, Option.bind_eq_some_iff] at h
  obtain ⟨p, hp, -⟩ := h
  exact ⟨p, hp⟩

/-- A node that is not the root is the end of an edge. -/
theorem run_ne_of_fresh (hroot : new ≠ root) (hfresh : ∀ q d, child q d ≠ some new)
    (s : List A) : run child root s ≠ some new := by
  induction s using List.reverseRecOn with
  | nil => exact fun h => hroot (Option.some.inj h).symm
  | append_singleton s d _ =>
      intro h
      obtain ⟨q, -, hq⟩ := run_concat_eq_some.1 h
      exact hfresh q d hq

section Grow

variable (htree : IsTree child root) (hu : run child root u = some p) (hfree : child p a = none)
  (hroot : new ≠ root) (hfresh : ∀ q d, child q d ≠ some new) (hleaf : ∀ d, child new d = none)
  (hself : child' p a = some new)
  (hother : ∀ q d, (q ≠ p ∨ d ≠ a) → child' q d = child q d)

include htree hu hfree hroot hfresh hleaf hself hother

/-- **What an edge to a new node does:** one more word leads somewhere. -/
theorem run_grow [DecidableEq A] (s : List A) :
    run child' root s = if s = u ++ [a] then some new else run child root s := by
  have hnew := run_ne_of_fresh hroot hfresh
  induction s using List.reverseRecOn with
  | nil => rw [if_neg (by simp)]; rfl
  | append_singleton s d ih =>
      have hconcat (c : Q → A → Option Q) :
          run c root (s ++ [d]) = (run c root s).bind fun q => c q d := by
        rw [run_append]
        simp
      rw [hconcat, hconcat, ih]
      by_cases hs : s = u ++ [a]
      · -- behind the new node, where nothing leads on
        have hne : s ++ [d] ≠ u ++ [a] := by
          intro h
          have hlength := congrArg List.length h
          rw [hs] at hlength
          simp at hlength
        have hnp : new ≠ p := fun h => hnew u (h ▸ hu)
        have hold : run child root s = none := by
          rw [hs, run_append, hu]
          simp [hfree]
        rw [if_pos hs, if_neg hne, hold, Option.bind_some, hother _ _ (Or.inl hnp), hleaf]
        rfl
      · rw [if_neg hs]
        cases hq : run child root s with
        | none =>
            have hne : s ++ [d] ≠ u ++ [a] := by
              intro h
              obtain ⟨rfl, -⟩ := List.append_inj' h rfl
              rw [hu] at hq
              cases hq
            rw [if_neg hne]
            rfl
        | some q =>
            rw [Option.bind_some, Option.bind_some]
            by_cases hedge : q = p ∧ d = a
            · obtain ⟨rfl, rfl⟩ := hedge
              obtain rfl := htree _ _ _ hq hu
              rw [if_pos rfl, hself]
            · have hne : s ++ [d] ≠ u ++ [a] := by
                intro h
                obtain ⟨rfl, hd⟩ := List.append_inj' h rfl
                exact hedge ⟨Option.some.inj (hq.symm.trans hu), (List.cons.inj hd).1⟩
              rw [if_neg hne, hother q d (by rwa [← not_and_or])]

/-- A tree that grows is a tree. -/
theorem isTree_grow [DecidableEq A] : IsTree child' root := by
  have hrun := run_grow htree hu hfree hroot hfresh hleaf hself hother
  have hnew := run_ne_of_fresh hroot hfresh
  intro s t q hs ht
  rw [hrun] at hs ht
  split_ifs at hs ht with hsu htu htu
  · rw [hsu, htu]
  · exact absurd (ht.trans hs.symm) (hnew t)
  · exact absurd (hs.trans ht.symm) (hnew s)
  · exact htree s t q hs ht

end Grow

section Replace

variable (child) (put : Q → A → Q → Q)

/-- The tree `q` with `p` in place of its subtree at the word: a node whose child is another now is
another node. -/
def replace (q : Q) (s : List A) (p : Q) : Q :=
  match s with
  | [] => p
  | a :: s =>
      match child q a with
      | none => q
      | some r => put q a (replace r s p)

variable {child put} {I : Q → Prop}

/-- **What a tree keeps when a subtree changes.** -/
theorem replace_invariant (hchild : ∀ q a r, I q → child q a = some r → I r)
    (hput : ∀ q a r r', I q → child q a = some r → I r' → I (put q a r')) (hq : I q) (hp : I p) :
    I (replace child put q s p) := by
  induction s generalizing q with
  | nil => exact hp
  | cons a s ih =>
      unfold replace
      split
      · exact hq
      · rename_i r hr
        exact hput q a r _ hq hr (ih (hchild q a r hq hr))

/-- A subtree in place of itself changes nothing. -/
theorem replace_self (hchild : ∀ q a r, I q → child q a = some r → I r)
    (hput : ∀ q a r, I q → child q a = some r → put q a r = q) (hq : I q)
    (h : run child q s = some p) : replace child put q s p = q := by
  induction s generalizing q with
  | nil => exact (Option.some.inj h).symm
  | cons a s ih =>
      rw [run_cons, Option.bind_eq_some_iff] at h
      obtain ⟨r, hr, h⟩ := h
      rw [replace, hr]
      show put q a (replace child put r s p) = q
      rw [ih (hchild q a r hq hr) h]
      exact hput q a r hq hr

end Replace

end Tree
end Lib
end BreUtils
