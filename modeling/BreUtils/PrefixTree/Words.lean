/-
# A prefix tree as a set of words

After any insertions of texts without `\0` the words that lead somewhere are the
beginnings of the inserted texts, and the marked nodes are at the ends of the texts
(`holds_of_run`).  So `search` looks a word up in a set and `startWith` looks up the
beginnings (`set_of_words_iff`), whatever the order and however often a text was inserted.
The walk stops where the longest beginning of the text that is in the tree ends
(`walk_spec`).

All this is as long as the place in the text fits into an `int`.
-/

import BreUtils.PrefixTree.PrefixTree

namespace BreUtils
namespace PrefixTree

open Lib Cpp

variable {h : Heap} {S E : Set Bytes} {p q i : ℕ} {c : UInt8} {s t w str : Bytes}
  {words : List Bytes}

theorem take_add_one (hi : i < str.length) : str.take (i + 1) = str.take i ++ [str.getD i 0] := by
  rw [List.take_add_one, List.getElem?_eq_getElem hi, List.getD_eq_getElem?_getD,
    List.getElem?_eq_getElem hi]
  rfl

/-- **The walk stops where the longest beginning of the text that is in the tree ends**, unless
the place passes the range of an `int` before. -/
theorem walk_spec (hh : Holds h S E) (hnul : str ++ [0] ∉ S)
    (hp : Transition.run (child h) 0 (str.take i) = some p) (hi : i ≤ str.length) :
    ∃ k q, i ≤ k ∧ k ≤ str.length ∧ Transition.run (child h) 0 (str.take k) = some q ∧
      (k < str.length → str.take (k + 1) ∉ S) ∧
      (i < 2 ^ 31 → walk h str p i = if k < 2 ^ 31 then some (q, k) else none) := by
  induction hn : str.length - i using Nat.strong_induction_on generalizing i p with
  | _ n ih =>
      have hstep (d : UInt8) : str.take i ++ [d] ∈ S ↔ ∃ q, child h p d = some q := by
        rw [hh.mem_iff, Transition.run_append, hp]
        simp
      rcases hi.lt_or_eq with hlt | rfl
      · have htake := take_add_one hlt
        cases hq : child h p (str.getD i 0) with
        | none =>
            refine ⟨i, p, le_rfl, hi, hp, fun _ => ?_, fun hrange => ?_⟩
            · rw [htake, hstep, hq]
              simp
            · have hcontain : h.contain p (charAt str i) = false := by
                rw [charAt, contain_letter, hq]
                rfl
              rw [walk, if_pos hi, hcontain, if_neg (by simp), if_pos hrange]
        | some q =>
            have hnext : Transition.run (child h) 0 (str.take (i + 1)) = some q := by
              rw [htake]
              exact Transition.run_concat_eq_some.2 ⟨p, hp, hq⟩
            obtain ⟨k, r, hk, hkle, hr, hstop, hwalk⟩ := ih _ (by omega) hnext hlt rfl
            refine ⟨k, r, by omega, hkle, hr, hstop, fun _ => ?_⟩
            have hcontain : h.contain p (charAt str i) = true := by
              rw [charAt, contain_letter, hq]
              rfl
            have hchild : h.getIndexAtChar p (charAt str i) = some q := hq
            rw [walk, if_pos hi, hcontain, if_pos rfl, hchild, Option.bind_some]
            by_cases hrange : i + 1 < 2 ^ 31
            · rw [if_pos hrange, hwalk hrange]
            · rw [if_neg hrange, if_neg (by omega)]
      · -- the `\0` behind the text
        refine ⟨str.length, p, le_rfl, le_rfl, hp, fun hlt => absurd hlt (lt_irrefl _),
          fun hrange => ?_⟩
        have hnochild : child h p 0 = none := by
          rw [Option.eq_none_iff_forall_ne_some]
          intro q hq
          rw [List.take_length] at hstep
          exact hnul ((hstep 0).2 ⟨q, hq⟩)
        have hcontain : h.contain p (charAt str str.length) = false := by
          have hzero : charAt str str.length = letter 0 := by simp [charAt]
          rw [hzero, contain_letter, hnochild]
          rfl
        rw [walk, if_pos le_rfl, hcontain, if_neg (by simp), if_pos hrange]

/-- **The rest of the text is put into the tree**, if the place does not pass the range of an
`int`. -/
theorem extend_spec (hh : Holds h S E) (hES : E ⊆ S)
    (hp : Transition.run (child h) 0 (str.take i) = some p) (hi : i ≤ str.length)
    (hrange : i < 2 ^ 31) (hnew : i < str.length → str.take (i + 1) ∉ S) :
    (str.length < 2 ^ 31 ∧ ∃ h' q, extend h str p i = some (h', q) ∧
        Holds h' (S ∪ {s | s <+: str}) E ∧ Transition.run (child h') 0 str = some q) ∨
      2 ^ 31 ≤ str.length ∧ extend h str p i = none := by
  induction hn : str.length - i using Nat.strong_induction_on generalizing i p h S with
  | _ n ih =>
      rcases hi.lt_or_eq with hlt | rfl
      · have htake := take_add_one hlt
        have hout := hnew hlt
        have hfree : child h p (str.getD i 0) = none := by
          rw [Option.eq_none_iff_forall_ne_some]
          intro q hq
          refine hout ((hh.mem_iff _).2 ⟨q, ?_⟩)
          rw [htake]
          exact Transition.run_concat_eq_some.2 ⟨p, hp, hq⟩
        have hE : str.take i ++ [str.getD i 0] ∉ E := fun hmem => hout (htake ▸ hES hmem)
        obtain ⟨hh', hrun⟩ := hh.insertNode hp hfree hE
        rw [← htake] at hh' hrun
        have hback : (((h.insertNode p (charAt str i)).node p).nodes).getLast? = some h.size := by
          rw [charAt, nodes_insertNode (hh.run_lt hp), List.getLast?_concat]
        rw [extend, if_pos hlt]
        simp only [hback, Option.bind_some]
        by_cases hfits : i + 1 < 2 ^ 31
        · rw [if_pos hfits]
          have hnext : i + 1 < str.length →
              str.take (i + 2) ∉ Insert.insert (str.take (i + 1)) S := by
            intro hlt' hmem
            rw [Set.mem_insert_iff] at hmem
            rcases hmem with heq | hmem
            · have hlength := congrArg List.length heq
              rw [List.length_take, List.length_take] at hlength
              omega
            · refine hout (hh.mem_of_prefix hmem ?_)
              exact List.take_prefix_take_left (by omega)
          have hunion : Insert.insert (str.take (i + 1)) S ∪ {s | s <+: str} =
              S ∪ {s | s <+: str} := by
            rw [Set.insert_union, Set.insert_eq_of_mem]
            exact Or.inr (List.take_prefix _ _)
          have hrest := ih _ (by omega) hh' (hES.trans (Set.subset_insert _ _)) hrun hlt hfits hnext
            rfl
          rw [hunion] at hrest
          exact hrest
        · rw [if_neg hfits]
          exact Or.inr ⟨by omega, rfl⟩
      · rw [List.take_length] at hp
        refine Or.inl ⟨hrange, h, p, ?_, ?_, hp⟩
        · rw [extend, if_neg (lt_irrefl _)]
        · have hunion : S ∪ {s | s <+: str} = S :=
            Set.union_eq_left.2 fun s hs => hh.mem_of_prefix ((hh.mem_iff str).2 ⟨p, hp⟩) hs
          rw [hunion]
          exact hh

/-! ### Words -/

/-- The beginnings of some words. -/
def beginnings (words : List Bytes) : Set Bytes := {s | s = [] ∨ ∃ w ∈ words, s <+: w}

/-- The words that a tree keeps: `insert` does nothing for the empty one. -/
def kept (words : List Bytes) : Set Bytes := {s | s ≠ [] ∧ s ∈ words}

theorem kept_subset (words : List Bytes) : kept words ⊆ beginnings words :=
  fun s hs => Or.inr ⟨s, hs.2, List.prefix_rfl⟩

theorem beginnings_concat (words : List Bytes) (w : Bytes) :
    beginnings (words ++ [w]) = beginnings words ∪ {s | s <+: w} := by
  ext s
  simp only [beginnings, Set.mem_ofPred_eq, Set.mem_union, List.mem_append, List.mem_singleton]
  constructor
  · rintro (hs | ⟨v, hv | rfl, hs⟩)
    · exact Or.inl (Or.inl hs)
    · exact Or.inl (Or.inr ⟨v, hv, hs⟩)
    · exact Or.inr hs
  · rintro ((hs | ⟨v, hv, hs⟩) | hs)
    · exact Or.inl hs
    · exact Or.inr ⟨v, Or.inl hv, hs⟩
    · exact Or.inr ⟨w, Or.inr rfl, hs⟩

theorem kept_concat (hw : w ≠ []) : kept (words ++ [w]) = Insert.insert w (kept words) := by
  ext s
  simp only [kept, Set.mem_ofPred_eq, Set.mem_insert_iff, List.mem_append, List.mem_singleton]
  constructor
  · rintro ⟨hs, hmem | rfl⟩
    · exact Or.inr ⟨hs, hmem⟩
    · exact Or.inl rfl
  · rintro (rfl | ⟨hs, hmem⟩)
    · exact ⟨hw, Or.inr rfl⟩
    · exact ⟨hs, Or.inl hmem⟩

theorem nul_not_mem_beginnings (hwords : ∀ w ∈ words, 0 ∉ w) (s : Bytes) :
    s ++ [0] ∉ beginnings words := by
  rintro (hs | ⟨w, hw, hs⟩)
  · exact absurd hs (by simp)
  · exact hwords w hw (hs.subset (by simp))

theorem length_lt_of_mem (hwords : ∀ w ∈ words, w.length < 2 ^ 31) (hs : s ∈ beginnings words) :
    s.length < 2 ^ 31 := by
  rcases hs with rfl | ⟨w, hw, hs⟩
  · decide
  · exact hs.length_le.trans_lt (hwords w hw)

/-- The walk of a call: in a tree of short texts the place never passes the range of an `int`. -/
theorem walk_words (hh : Holds h (beginnings words) E) (hshort : ∀ w ∈ words, w.length < 2 ^ 31)
    (w : Bytes) (hnul : w ++ [0] ∉ beginnings words) :
    ∃ k q, k ≤ w.length ∧ k < 2 ^ 31 ∧ Transition.run (child h) 0 (w.take k) = some q ∧
      (k < w.length → w.take (k + 1) ∉ beginnings words) ∧ walk h w 0 0 = some (q, k) := by
  have hroot : Transition.run (child h) 0 (w.take 0) = some 0 := rfl
  obtain ⟨k, q, -, hk, hq, hstop, hwalk⟩ := walk_spec hh hnul hroot (Nat.zero_le _)
  have hrange : k < 2 ^ 31 := by
    have hlt := length_lt_of_mem hshort ((hh.mem_iff _).2 ⟨q, hq⟩)
    rw [List.length_take] at hlt
    omega
  have hstart := hwalk (by decide)
  rw [if_pos hrange] at hstart
  exact ⟨k, q, hk, hrange, hq, hstop, hstart⟩

/-- One insertion. -/
theorem insert_spec (hh : Holds h (beginnings words) (kept words))
    (hshort : ∀ w ∈ words, w.length < 2 ^ 31) (hnul : w = [] ∨ w ++ [0] ∉ beginnings words) :
    (w.length < 2 ^ 31 ∧ ∃ h', insert h w = some h' ∧
        Holds h' (beginnings (words ++ [w])) (kept (words ++ [w]))) ∨
      2 ^ 31 ≤ w.length ∧ insert h w = none := by
  by_cases hw : w = []
  · subst hw
    refine Or.inl ⟨by decide, h, if_pos rfl, ?_⟩
    have hbeginnings : beginnings (words ++ [[]]) = beginnings words := by
      rw [beginnings_concat, Set.union_eq_left]
      exact fun s hs => Or.inl (List.prefix_nil.1 hs)
    have hkept : kept (words ++ [[]]) = kept words := by
      ext s
      simp only [kept, Set.mem_ofPred_eq, List.mem_append, List.mem_singleton]
      exact and_congr_right fun hs => or_iff_left hs
    rw [hbeginnings, hkept]
    exact hh
  · obtain ⟨k, q, hk, hrange, hq, hstop, hstart⟩ :=
      walk_words hh hshort w (hnul.resolve_left hw)
    have hinsert : insert h w = (extend h w q k).map fun e => e.1.setEnd e.2 := by
      rw [insert, if_neg hw, hstart]
      rfl
    rw [hinsert]
    rcases extend_spec hh (kept_subset words) hq hk hrange hstop with
      ⟨hlt, h', p, hextend, hh', hp⟩ | ⟨hle, hextend⟩
    · refine Or.inl ⟨hlt, h'.setEnd p, ?_, ?_⟩
      · rw [hextend]
        rfl
      · rw [beginnings_concat, kept_concat hw]
        exact hh'.setEnd hp
    · refine Or.inr ⟨hle, ?_⟩
      rw [hextend]
      rfl

theorem holds_nil : Holds .init (beginnings []) (kept []) := by
  have hbeginnings : beginnings [] = {[]} := by
    ext s
    simp [beginnings]
  have hkept : kept [] = ∅ := by
    ext s
    simp [kept]
  rw [hbeginnings, hkept]
  exact holds_init

/-- **Any insertions:** the beginnings of the texts lead somewhere, and the texts are marked. -/
theorem holds_of_run (hwords : ∀ w ∈ words, 0 ∉ w) :
    ((∀ w ∈ words, w.length < 2 ^ 31) ∧ ∃ h, Transition.run insert .init words = some h ∧
        Holds h (beginnings words) (kept words)) ∨
      ¬ (∀ w ∈ words, w.length < 2 ^ 31) ∧ Transition.run insert .init words = none := by
  induction words using List.reverseRecOn with
  | nil => exact Or.inl ⟨fun w hw => absurd hw List.not_mem_nil, .init, rfl, holds_nil⟩
  | append_singleton words w ih =>
      have hmem (v : Bytes) (hv : v ∈ words) : v ∈ words ++ [w] := List.mem_append_left _ hv
      rcases ih fun v hv => hwords v (hmem v hv) with ⟨hshort, h, hrun, hh⟩ | ⟨hlong, hrun⟩
      · have hconcat : Transition.run insert .init (words ++ [w]) = insert h w := by
          rw [Transition.run_append, hrun]
          simp
        rw [hconcat]
        rcases insert_spec (w := w) hh hshort
            (Or.inr (nul_not_mem_beginnings (fun v hv => hwords v (hmem v hv)) w)) with
          ⟨hlt, h', hinsert, hh'⟩ | ⟨hle, hinsert⟩
        · refine Or.inl ⟨fun v hv => ?_, h', hinsert, hh'⟩
          rcases List.mem_append.1 hv with hv | hv
          · exact hshort v hv
          · exact List.mem_singleton.1 hv ▸ hlt
        · refine Or.inr ⟨fun hall => ?_, hinsert⟩
          exact absurd (hall w List.mem_concat_self) (by omega)
      · refine Or.inr ⟨fun hall => hlong fun v hv => hall v (hmem v hv), ?_⟩
        rw [Transition.run_append, hrun]
        rfl

/-- `search` and `startWith` look up the words and their beginnings. -/
theorem search_startWith (hh : Holds h (beginnings words) (kept words))
    (hwords : ∀ w ∈ words, 0 ∉ w) (hshort : ∀ w ∈ words, w.length < 2 ^ 31) (w : Bytes) :
    search h w = some (decide (w ≠ [] ∧ w ∈ words)) ∧
      startWith h w = some (decide (w ≠ [] ∧ ∃ v ∈ words, w <+: v)) := by
  by_cases hw : w = []
  · subst hw
    exact ⟨by simp [search], by simp [startWith]⟩
  · obtain ⟨k, q, hk, -, hq, hstop, hstart⟩ :=
      walk_words hh hshort w (nul_not_mem_beginnings hwords w)
    have hsearch : search h w = some (decide (k = w.length) && h.isEnd q) := by
      rw [search, if_neg hw, hstart]
      rfl
    have hstartWith : startWith h w = some (decide (k = w.length)) := by
      rw [startWith, if_neg hw, hstart]
      rfl
    rw [hsearch, hstartWith]
    rcases hk.lt_or_eq with hlt | rfl
    · -- the text leaves the tree
      have hout : w ∉ beginnings words := fun hmem =>
        hstop hlt (hh.mem_of_prefix hmem (List.take_prefix _ _))
      have hword : w ∉ words := fun hmem => hout (kept_subset words ⟨hw, hmem⟩)
      have hbegins : ¬ ∃ v ∈ words, w <+: v := fun hmem => hout (Or.inr hmem)
      simp [hlt.ne, hword, hbegins]
    · rw [List.take_length] at hq
      have hend := hh.end_iff w q hq
      have hbegins : ∃ v ∈ words, w <+: v :=
        ((hh.mem_iff w).2 ⟨q, hq⟩).resolve_left hw
      constructor
      · rw [decide_eq_true rfl, Bool.true_and, Option.some.injEq, Bool.eq_iff_iff, hend,
          decide_eq_true_iff]
        rfl
      · rw [decide_eq_true rfl, decide_eq_true ⟨hw, hbegins⟩]

/-- **A prefix tree is a set of words:** after insertions of texts without `\0`, `search` and
`startWith` look up the words and their beginnings for every text without `\0`, exactly if every
text that was inserted is shorter than `2 ^ 31` bytes. -/
theorem set_of_words_iff (words : List Bytes) (hwords : ∀ w ∈ words, 0 ∉ w) :
    (∃ h, Transition.run insert .init words = some h ∧ ∀ w, 0 ∉ w →
        search h w = some (decide (w ≠ [] ∧ w ∈ words)) ∧
          startWith h w = some (decide (w ≠ [] ∧ ∃ v ∈ words, w <+: v))) ↔
      ∀ w ∈ words, w.length < 2 ^ 31 := by
  rcases holds_of_run hwords with ⟨hshort, h, hrun, hh⟩ | ⟨hlong, hrun⟩
  · exact iff_of_true ⟨h, hrun, fun w _ => search_startWith hh hwords hshort w⟩ hshort
  · refine iff_of_false ?_ hlong
    rintro ⟨h, hsome, -⟩
    rw [hrun] at hsome
    cases hsome

theorem set_of_words_tea :
    ∃ h, Transition.run insert .init [ascii "tea", ascii "ten", ascii "tea"] = some h ∧
      search h (ascii "ten") = some true ∧ search h (ascii "te") = some false ∧
      startWith h (ascii "te") = some true := by
  obtain ⟨h, hrun, hanswers⟩ := (set_of_words_iff [ascii "tea", ascii "ten", ascii "tea"]
    (by decide +kernel)).2 (by decide +kernel)
  refine ⟨h, hrun, ?_, ?_, ?_⟩
  · rw [(hanswers (ascii "ten") (by decide +kernel)).1]
    decide +kernel
  · rw [(hanswers (ascii "te") (by decide +kernel)).1]
    decide +kernel
  · rw [(hanswers (ascii "te") (by decide +kernel)).2]
    decide +kernel

/-- A text that is too long for `i`. -/
theorem run_replicate {n : ℕ} (hn : 2 ^ 31 ≤ n) :
    0 ∉ List.replicate n (ch 'a') ∧
      Transition.run insert .init [List.replicate n (ch 'a')] = none := by
  have hnul : 0 ∉ List.replicate n (ch 'a') := by
    rw [List.mem_replicate]
    exact fun h => absurd h.2 (by decide)
  have hall : ∀ w ∈ [List.replicate n (ch 'a')], 0 ∉ w := List.forall_mem_singleton.2 hnul
  refine ⟨hnul, ?_⟩
  rcases holds_of_run hall with ⟨hshort, -⟩ | ⟨-, hrun⟩
  · have hlength := hshort _ (List.mem_singleton_self _)
    rw [List.length_replicate] at hlength
    omega
  · exact hrun

/-- Two gibibytes are too many. -/
theorem insert_overflow :
    0 ∉ List.replicate (2 ^ 31) (ch 'a') ∧
      Transition.run insert .init [List.replicate (2 ^ 31) (ch 'a')] = none :=
  run_replicate le_rfl

/-- Neither the order of the insertions nor their repetition matters. -/
theorem answers_congr {words₁ words₂ : List Bytes} (hsame : ∀ w, w ∈ words₁ ↔ w ∈ words₂)
    (hwords : ∀ w ∈ words₁, 0 ∉ w) (hshort : ∀ w ∈ words₁, w.length < 2 ^ 31) :
    ∃ h₁ h₂, Transition.run insert .init words₁ = some h₁ ∧
      Transition.run insert .init words₂ = some h₂ ∧
      ∀ w, search h₁ w = search h₂ w ∧ startWith h₁ w = startWith h₂ w := by
  have hwords₂ : ∀ w ∈ words₂, 0 ∉ w := fun w hw => hwords w ((hsame w).2 hw)
  have hshort₂ : ∀ w ∈ words₂, w.length < 2 ^ 31 := fun w hw => hshort w ((hsame w).2 hw)
  rcases holds_of_run hwords with ⟨-, h₁, hrun₁, hh₁⟩ | ⟨hlong, -⟩
  · rcases holds_of_run hwords₂ with ⟨-, h₂, hrun₂, hh₂⟩ | ⟨hlong, -⟩
    · refine ⟨h₁, h₂, hrun₁, hrun₂, fun w => ?_⟩
      obtain ⟨hsearch₁, hstart₁⟩ := search_startWith hh₁ hwords hshort w
      obtain ⟨hsearch₂, hstart₂⟩ := search_startWith hh₂ hwords₂ hshort₂ w
      rw [hsearch₁, hsearch₂, hstart₁, hstart₂]
      simp only [hsame]
      trivial
    · exact absurd hshort₂ hlong
  · exact absurd hshort hlong

end PrefixTree
end BreUtils
