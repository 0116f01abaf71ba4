/-
# Cutting a text at a delimiter

A text is cut behind every occurrence of a delimiter that does not reach into the one
before it: behind the first one, then behind the first one in what is left, and so on.
What comes behind the last one is the rest.  There is one way to do that (`Cuts.unique`),
and for a delimiter with at least one letter there always is one (`exists_cuts`).

An occurrence that is found in the beginning of a text is the first one of the whole text
(`position_append`).  So there is none before the first one, also where the delimiter
overlaps itself (`not_infix_take_of_position`).  And whoever gets the text in pieces, and
cuts what is there already whenever he likes, cuts as he would with the whole text in
front of him (`Ahead.take`, `Ahead.append`, `Ahead.finish`).
-/

import Mathlib.Data.List.Infix

namespace BreUtils
namespace Lib

variable {α : Type*} [DecidableEq α] {d s t r : List α} {p : ℕ} {ms : List (List α)}

/-- Where `d` first occurs in a text. -/
def position (d : List α) : List α → Option ℕ
  | [] => if d = [] then some 0 else none
  | c :: s => if d <+: c :: s then some 0 else (position d s).map (· + 1)

/-- A text without an occurrence. -/
theorem position_eq_none_iff : position d s = none ↔ ¬ d <:+: s := by
  induction s with
  | nil => simp [position]
  | cons c s ih =>
      unfold position
      rw [List.infix_cons_iff]
      split_ifs with hd
      · simp [hd]
      · rw [Option.map_eq_none_iff, ih]
        simp [hd]

/-- A delimiter that is found lies inside. -/
theorem add_le_of_position (h : position d s = some p) : p + d.length ≤ s.length := by
  induction s generalizing p with
  | nil =>
      unfold position at h
      split_ifs at h with hd
      obtain rfl := Option.some.inj h
      simp [hd]
  | cons c s ih =>
      unfold position at h
      split_ifs at h with hd
      · obtain rfl := Option.some.inj h
        have hle := hd.length_le
        omega
      · obtain ⟨q, hq, rfl⟩ := Option.map_eq_some_iff.1 h
        have hle := ih hq
        rw [List.length_cons]
        omega

/-- **What comes later does not move the first occurrence.** -/
theorem position_append (t : List α) (h : position d s = some p) :
    position d (s ++ t) = some p := by
  induction s generalizing p with
  | nil =>
      unfold position at h
      split_ifs at h with hd
      subst hd
      cases t with
      | nil => exact h
      | cons c t => simpa [position] using h
  | cons c s ih =>
      rw [List.cons_append]
      unfold position at h ⊢
      split_ifs at h with hd
      · have hd' : d <+: c :: (s ++ t) := hd.trans (List.prefix_append (c :: s) t)
        rw [if_pos hd']
        exact h
      · obtain ⟨q, hq, rfl⟩ := Option.map_eq_some_iff.1 h
        have hd' : ¬ d <+: c :: (s ++ t) := by
          intro hpre
          refine hd (List.prefix_of_prefix_length_le hpre (List.prefix_append (c :: s) t) ?_)
          have hle := add_le_of_position hq
          rw [List.length_cons]
          omega
        rw [if_neg hd', ih hq]
        rfl

/-- What lies before an occurrence, the occurrence, and what lies behind it. -/
theorem take_append_drop_of_position (h : position d s = some p) :
    s.take p ++ d ++ s.drop (p + d.length) = s := by
  induction s generalizing p with
  | nil =>
      unfold position at h
      split_ifs at h with hd
      obtain rfl := Option.some.inj h
      simp [hd]
  | cons c s ih =>
      unfold position at h
      split_ifs at h with hd
      · obtain rfl := Option.some.inj h
        obtain ⟨t, ht⟩ := hd
        rw [← ht]
        simp
      · obtain ⟨q, hq, rfl⟩ := Option.map_eq_some_iff.1 h
        have hs := ih hq
        rw [show q + 1 + d.length = q + d.length + 1 by omega]
        simpa using hs

/-- **There is no occurrence before the first one**: it would be the first one itself, and end
behind its start. -/
theorem not_infix_take_of_position (hd : d ≠ []) (h : position d s = some p) :
    ¬ d <:+: s.take p := by
  rw [← position_eq_none_iff, Option.eq_none_iff_forall_ne_some]
  intro q hq
  have happend := position_append (s.drop p) hq
  rw [List.take_append_drop, h] at happend
  obtain rfl := Option.some.inj happend
  have hle := add_le_of_position hq
  have htake := List.length_take_le p s
  have hpos := List.length_pos_iff.2 hd
  omega

/-- Of pieces without `c`, one more than there are `c` in the text that they are joined to. -/
theorem count_intercalate {c : α} {pieces : List (List α)} (hne : pieces ≠ [])
    (hfree : ∀ piece ∈ pieces, c ∉ piece) :
    ([c].intercalate pieces).count c + 1 = pieces.length := by
  induction pieces with
  | nil => exact absurd rfl hne
  | cons piece pieces ih =>
      have hpiece : piece.count c = 0 := List.count_eq_zero.2 (hfree piece List.mem_cons_self)
      cases pieces with
      | nil => simpa using hpiece
      | cons next pieces =>
          have hrest := ih (by simp) fun p hp => hfree p (List.mem_cons_of_mem piece hp)
          rw [List.intercalate_cons_cons, List.count_append, List.count_append, hpiece,
            List.count_singleton_self, List.length_cons, ← hrest]
          omega

/-- **`s` is cut into `ms`, and `r` is left.** -/
inductive Cuts (d : List α) : List α → List (List α) → List α → Prop
  | rest {s : List α} : position d s = none → Cuts d s [] s
  | cut {s r : List α} {p : ℕ} {ms : List (List α)} : position d s = some p →
      Cuts d (s.drop (p + d.length)) ms r → Cuts d s (s.take (p + d.length) :: ms) r

/-- **A text is cut in one way.** -/
theorem Cuts.unique {ms' : List (List α)} {r' : List α} (h : Cuts d s ms r)
    (h' : Cuts d s ms' r') : ms = ms' ∧ r = r' := by
  induction h generalizing ms' with
  | rest hp =>
      cases h' with
      | rest => exact ⟨rfl, rfl⟩
      | cut hp' => exact absurd (hp.symm.trans hp') (by simp)
  | cut hp _ ih =>
      cases h' with
      | rest hp' => exact absurd (hp'.symm.trans hp) (by simp)
      | cut hp' h' =>
          obtain rfl := Option.some.inj (hp.symm.trans hp')
          obtain ⟨rfl, rfl⟩ := ih h'
          exact ⟨rfl, rfl⟩

/-- **Every text can be cut** at a delimiter that is not empty. -/
theorem exists_cuts (hd : d ≠ []) (s : List α) : ∃ ms r, Cuts d s ms r := by
  induction hn : s.length using Nat.strong_induction_on generalizing s with
  | _ n ih =>
      cases hp : position d s with
      | none => exact ⟨[], s, .rest hp⟩
      | some p =>
          have hle := add_le_of_position hp
          have hpos := List.length_pos_iff.2 hd
          obtain ⟨ms, r, h⟩ := ih (s.drop (p + d.length)).length
            (by rw [List.length_drop]; omega) _ rfl
          exact ⟨_, r, .cut hp h⟩

/-! ### Pieces -/

/-- Of a text that has come in as far as `seen`, the parts `ms` are cut off and `s` is left to be
looked at: cutting `s` and what is to come goes on where cutting from the start would be. -/
def Ahead (d seen : List α) (ms : List (List α)) (s : List α) : Prop :=
  ∀ t ms' r, Cuts d (s ++ t) ms' r → Cuts d (seen ++ t) (ms ++ ms') r

variable {seen : List α}

/-- With nothing received, everything is ahead. -/
theorem Ahead.start : Ahead d ([] : List α) [] [] := fun _ _ _ h => h

/-- More of the text comes in. -/
theorem Ahead.append (h : Ahead d seen ms s) (u : List α) : Ahead d (seen ++ u) ms (s ++ u) := by
  intro t ms' r hcuts
  rw [List.append_assoc] at hcuts ⊢
  exact h (u ++ t) ms' r hcuts

/-- A part is cut off. -/
theorem Ahead.take (h : Ahead d seen ms s) (hp : position d s = some p) :
    Ahead d seen (ms ++ [s.take (p + d.length)]) (s.drop (p + d.length)) := by
  intro t ms' r hcuts
  have hle := add_le_of_position hp
  rw [← List.drop_append_of_le_length hle] at hcuts
  have hcut := Cuts.cut (position_append t hp) hcuts
  rw [List.take_append_of_le_length hle] at hcut
  rw [List.append_assoc]
  exact h t _ r hcut

/-- Nothing more comes in, and there is nothing more to cut off. -/
theorem Ahead.finish (h : Ahead d seen ms s) (hp : position d s = none) : Cuts d seen ms s := by
  have hcuts := h [] [] s (by rw [List.append_nil]; exact .rest hp)
  rwa [List.append_nil, List.append_nil] at hcuts

end Lib
end BreUtils
