/-
# Where `exp_transplant` uses its output

The output of `exp_transplant` is a string of 100 characters, and nothing tests `j`
against its size.  Each write is to `str2[j++]`, and in front of an operator or a
parenthesis, and once more behind the loop, `str2[j - 1]` is read.

For any input these indices are in the string exactly if the output is short enough and
one of the first two characters is a digit: without one, nothing has been written when
the second character, or the end, is reached (`inBuffer_iff`).  A well-formed expression
whose second character is no digit begins with two parentheses, and the length of its
output can be counted in the expression (`inBuffer_text_iff`).
-/

import BreUtils.Nifix.Evaluation

namespace BreUtils
namespace Nifix

open Lib Cpp ShuntingYard Expression

/-! ### The indices -/

/-- `j - 1`, where `str2` is what has been written. -/
def lookBack (str2 : Bytes) : ℤ := str2.length - 1

/-- The places that are written while the text in front of `j` grows: one after the other, from `j`
on. -/
def writes (str2 longer : Bytes) : List ℤ :=
  (List.range' str2.length (longer.length - str2.length)).map fun (j : ℕ) => (j : ℤ)

/-- The indices of `str2` that the body of the loop uses, on the character `c` at `i`. -/
def charIndices (before : UInt8) (i : ℕ) (c : UInt8) (s : Transplant) : List ℤ :=
  (if isdigit c = false ∧ i ≠ 0 then [lookBack s.str2] else []) ++
    writes s.str2 (transplantChar before i c s).str2

/-- The indices that the loop uses, from `i` on. -/
def indicesFrom (before : UInt8) : ℕ → Bytes → Transplant → List ℤ
  | _, [], _ => []
  | i, c :: cs, s =>
      charIndices before i c s ++ indicesFrom before (i + 1) cs (transplantChar before i c s)

/-- The indices of `str2` that `exp_transplant` uses.  `none` stands for an overflow of `i`. -/
def indices (before : UInt8) (str1 : Bytes) : Option (List ℤ) :=
  if str1.length ≤ maxInt then
    let s := transplantFrom before 0 str1 ⟨[], []⟩
    some (indicesFrom before 0 str1 ⟨[], []⟩ ++
      lookBack s.str2 :: writes s.str2 (transplanted before str1))
  else none

/-- **The buffer is kept to:** `exp_transplant` gets to its end, and each index that it uses is one
of the 100 of the string. -/
def InBuffer (before : UInt8) (str1 : Bytes) : Prop :=
  ∃ ks, indices before str1 = some ks ∧ ∀ k ∈ ks, 0 ≤ k ∧ k ≤ 99

/-! ### What is written stays written -/

variable {before c : UInt8} {i : ℕ} {cs str1 str2 longer : Bytes} {s : Transplant} {k : ℤ}

theorem prefix_popWhile (p : UInt8 → Bool) (stack : List UInt8) (str2 : Bytes) :
    str2 <+: (popWhile p stack str2).str2 := by
  induction stack generalizing str2 with
  | nil => exact List.prefix_rfl
  | cons top stack ih =>
      rw [popWhile]
      split_ifs
      · exact (List.prefix_append str2 _).trans (ih _)
      · exact List.prefix_rfl

theorem prefix_blank (before : UInt8) (str2 : Bytes) : str2 <+: blank before str2 := by
  unfold blank
  split_ifs
  · exact List.prefix_append str2 _
  · exact List.prefix_rfl

theorem prefix_transplantChar (before : UInt8) (i : ℕ) (c : UInt8) (s : Transplant) :
    s.str2 <+: (transplantChar before i c s).str2 := by
  have hblank : s.str2 <+: if i ≠ 0 then blank before s.str2 else s.str2 := by
    split_ifs
    · exact prefix_blank before s.str2
    · exact List.prefix_rfl
  unfold transplantChar
  generalize (if i ≠ 0 then blank before s.str2 else s.str2) = str2 at hblank
  dsimp only
  split_ifs
  · exact List.prefix_append s.str2 _
  · exact hblank.trans (prefix_popWhile _ _ _)
  · exact hblank.trans (prefix_popWhile _ _ _)
  · exact hblank.trans (prefix_popWhile _ _ _)

theorem prefix_transplantFrom (before : UInt8) (i : ℕ) (cs : Bytes) (s : Transplant) :
    s.str2 <+: (transplantFrom before i cs s).str2 := by
  induction cs generalizing i s with
  | nil => exact List.prefix_rfl
  | cons c cs ih => exact (prefix_transplantChar before i c s).trans (ih _ _)

theorem prefix_transplanted (before : UInt8) (str1 : Bytes) :
    (transplantFrom before 0 str1 ⟨[], []⟩).str2 <+: transplanted before str1 :=
  (prefix_blank before _).trans (prefix_popWhile _ _ _)

/-! ### The indices of a run -/

theorem mem_writes : k ∈ writes str2 longer ↔ (str2.length : ℤ) ≤ k ∧ k < longer.length := by
  rw [writes, List.mem_map]
  constructor
  · rintro ⟨j, hj, rfl⟩
    rw [List.mem_range'_1] at hj
    omega
  · intro hk
    refine ⟨k.toNat, List.mem_range'_1.2 ?_, ?_⟩
    · omega
    · omega

/-- Where the loop has written. -/
theorem mem_indicesFrom_of_written (hlow : (s.str2.length : ℤ) ≤ k)
    (hhigh : k < (transplantFrom before i cs s).str2.length) : k ∈ indicesFrom before i cs s := by
  induction cs generalizing i s with
  | nil => exact absurd hlow (not_le.2 hhigh)
  | cons c cs ih =>
      rw [indicesFrom, charIndices, List.append_assoc, List.mem_append, List.mem_append]
      by_cases hk : k < (transplantChar before i c s).str2.length
      · exact Or.inr (Or.inl (mem_writes.2 ⟨hlow, hk⟩))
      · exact Or.inr (Or.inr (ih (not_lt.1 hk) hhigh))

/-- Behind the first character that is written, the loop is in the buffer as long as its output
fits. -/
theorem indicesFrom_inBuffer (hne : s.str2 ≠ [])
    (hroom : (transplantFrom before i cs s).str2.length ≤ 100)
    (hk : k ∈ indicesFrom before i cs s) : 0 ≤ k ∧ k ≤ 99 := by
  induction cs generalizing i s with
  | nil => exact absurd hk List.not_mem_nil
  | cons c cs ih =>
      have hgrows := prefix_transplantChar before i c s
      have hlength :=
        (prefix_transplantFrom before (i + 1) cs (transplantChar before i c s)).length_le
      have hpos := List.length_pos_of_ne_nil hne
      rw [transplantFrom] at hroom
      rw [indicesFrom, charIndices, List.append_assoc, List.mem_append, List.mem_append] at hk
      rcases hk with hback | hwrite | hrest
      · split_ifs at hback with hlook
        · rw [List.mem_singleton, lookBack] at hback
          have := hgrows.length_le
          omega
        · exact absurd hback List.not_mem_nil
      · have := mem_writes.1 hwrite
        omega
      · exact ih (fun hnil => hne (List.prefix_nil.1 (hnil ▸ hgrows))) hroom hrest

/-! ### The first two characters -/

/-- In front of the first digit nothing is written at `i = 0`. -/
theorem str2_first (before : UInt8) (hc : isdigit c = false) :
    (transplantChar before 0 c ⟨[], []⟩).str2 = [] := by
  simp only [transplantChar, hc, ne_eq, not_true_eq_false, if_false, Bool.false_eq_true]
  split_ifs <;> rfl

/-- A digit among the first two characters is the first that is written, without a look back. -/
theorem start_of_digit (before : UInt8) (hdigit : ∃ c ∈ str1.take 2, isdigit c = true) :
    ∃ d i cs s, isdigit d = true ∧ s.str2 = [d] ∧
      transplantFrom before 0 str1 ⟨[], []⟩ = transplantFrom before i cs s ∧
      indicesFrom before 0 str1 ⟨[], []⟩ = 0 :: indicesFrom before i cs s := by
  cases str1 with
  | nil => simp at hdigit
  | cons c cs =>
      by_cases hc : isdigit c = true
      · have hchar : transplantChar before 0 c ⟨[], []⟩ = ⟨[], [c]⟩ := if_pos hc
        refine ⟨c, 1, cs, ⟨[], [c]⟩, hc, rfl, ?_, ?_⟩
        · rw [transplantFrom, hchar]
        · rw [indicesFrom, charIndices, hchar, if_neg (by simp)]
          rfl
      · rw [Bool.not_eq_true] at hc
        cases cs with
        | nil => simp [hc] at hdigit
        | cons d cs =>
            have hd : isdigit d = true := by simpa [hc] using hdigit
            have hfirst : (transplantChar before 0 c ⟨[], []⟩).str2 = [] := str2_first before hc
            generalize ht : transplantChar before 0 c ⟨[], []⟩ = t at hfirst
            have hchar : transplantChar before 1 d t = { t with str2 := [d] } := by
              rw [transplantChar, if_pos hd, hfirst]
              rfl
            refine ⟨d, 2, cs, { t with str2 := [d] }, hd, rfl, ?_, ?_⟩
            · rw [transplantFrom, transplantFrom, ht, hchar]
            · rw [indicesFrom, indicesFrom, charIndices, charIndices, ht, hchar, hfirst,
                if_neg (by simp), if_neg (by simp [hd])]
              rfl

/-- Without one, `j - 1` is used while `j` is 0. -/
theorem lookBack_of_no_digit (before : UInt8) (hdigit : ∀ c ∈ str1.take 2, isdigit c = false) :
    -1 ∈ indicesFrom before 0 str1 ⟨[], []⟩ ++
      [lookBack (transplantFrom before 0 str1 ⟨[], []⟩).str2] := by
  cases str1 with
  | nil => simp [transplantFrom, lookBack]
  | cons c cs =>
      have hc : isdigit c = false := hdigit c (by simp)
      have hfirst := str2_first before hc
      cases cs with
      | nil => simp [transplantFrom, lookBack, hfirst]
      | cons d cs =>
          have hd : isdigit d = false := hdigit d (by simp)
          have hback : -1 ∈ charIndices before 1 d (transplantChar before 0 c ⟨[], []⟩) := by
            simp [charIndices, lookBack, hd, hfirst]
          refine List.mem_append_left _ ?_
          rw [indicesFrom, indicesFrom]
          exact List.mem_append_right _ (List.mem_append_left _ hback)

/-- **When the buffer is kept to**, on any input. -/
theorem inBuffer_iff (before : UInt8) (str1 : Bytes) : InBuffer before str1 ↔
    str1.length ≤ maxInt ∧ (∃ c ∈ str1.take 2, isdigit c = true) ∧
      (transplanted before str1).length ≤ 100 := by
  have hgrows := (prefix_transplanted before str1).length_le
  constructor
  · rintro ⟨ks, hks, hin⟩
    unfold indices at hks
    split_ifs at hks with hlength
    obtain rfl := Option.some.inj hks
    refine ⟨hlength, ?_, ?_⟩
    · by_contra hdigit
      have hnone : ∀ c ∈ str1.take 2, isdigit c = false := by simpa using hdigit
      have hback := lookBack_of_no_digit before hnone
      have := hin (-1) (by
        rw [List.append_cons]
        exact List.mem_append_left _ hback)
      omega
    · by_contra hroom
      have := hin 100 (by
        rw [List.mem_append, List.mem_cons]
        by_cases hloop : 100 < (transplantFrom before 0 str1 ⟨[], []⟩).str2.length
        · exact Or.inl (mem_indicesFrom_of_written (by simp) (by omega))
        · exact Or.inr (Or.inr (mem_writes.2 ⟨by omega, by omega⟩)))
      omega
  · rintro ⟨hlength, hdigit, hroom⟩
    obtain ⟨d, i, cs, s, -, hs, hfrom, hindices⟩ := start_of_digit before hdigit
    have hne : s.str2 ≠ [] := by simp [hs]
    refine ⟨_, if_pos hlength, fun k hk => ?_⟩
    have hfirst := (prefix_transplantFrom before i cs s).length_le
    have hpos := List.length_pos_of_ne_nil hne
    rw [hfrom] at hgrows
    rw [hindices, hfrom, List.cons_append, List.mem_cons, List.mem_append, List.mem_cons] at hk
    rcases hk with rfl | hloop | rfl | hrest
    · omega
    · exact indicesFrom_inBuffer hne (hgrows.trans hroom) hloop
    · unfold lookBack
      omega
    · have := mem_writes.1 hrest
      omega

/-! ### Well-formed expressions -/

/-- The places that an expression takes: one more than the digits of each number, and two for each
operator. -/
def places : Expression → ℕ
  | .lit ds => ds.length + 1
  | .paren e => places e
  | .bin _ l r => places l + places r + 2

theorem length_render_rpn (e : Expression) : (render e.rpn).length = places e := by
  induction e with
  | lit ds => simp [Expr.rpn, render, item, places]
  | paren e ih => exact ih
  | bin o l r ihl ihr =>
      rw [Expr.rpn, render_append, render_append, List.length_append, List.length_append, ihl, ihr]
      rfl

theorem exists_text_eq_cons {e : Expression} (he : Literals e) :
    ∃ c cs, e.text = c :: cs ∧ (isdigit c = true ∨ c = ch '(') := by
  induction e with
  | lit ds =>
      cases ds with
      | nil => exact absurd rfl he.1
      | cons d ds => exact ⟨d, ds, rfl, Or.inl (he.2 d List.mem_cons_self)⟩
  | paren e ih => exact ⟨ch '(', _, rfl, Or.inr rfl⟩
  | bin o l r ihl ihr =>
      obtain ⟨c, cs, hl, hc⟩ := ihl he.1
      exact ⟨c, _, by rw [text, hl, List.cons_append], hc⟩

/-- A well-formed expression whose first two characters are no digits begins with parentheses. -/
theorem digit_or_parens {e : Expression} (he : Literals e) :
    (∃ c ∈ e.text.take 2, isdigit c = true) ∨ [ch '(', ch '('] <+: e.text := by
  induction e with
  | lit ds =>
      obtain ⟨c, cs, htext, hc⟩ := exists_text_eq_cons he
      refine Or.inl ⟨c, by simp [htext], he.2 c ?_⟩
      rw [text] at htext
      simp [htext]
  | paren e ih =>
      obtain ⟨c, cs, htext, hc⟩ := exists_text_eq_cons (e := e) he
      rw [text, htext]
      rcases hc with hc | rfl
      · exact Or.inl ⟨c, by simp, hc⟩
      · exact Or.inr ⟨cs ++ [ch ')'], rfl⟩
  | bin o l r ihl ihr =>
      rw [text]
      rcases ihl he.1 with ⟨c, hc, hdigit⟩ | hbegins
      · refine Or.inl ⟨c, ?_, hdigit⟩
        rw [List.take_append]
        exact List.mem_append_left _ hc
      · exact Or.inr (hbegins.trans (List.prefix_append _ _))

theorem digit_iff {e : Expression} (he : Literals e) :
    (∃ c ∈ e.text.take 2, isdigit c = true) ↔ ¬ [ch '(', ch '('] <+: e.text := by
  constructor
  · rintro ⟨c, hc, hdigit⟩ ⟨cs, htext⟩
    rw [← htext] at hc
    have hleft : c = ch '(' := by simpa using hc
    rw [hleft] at hdigit
    exact absurd hdigit (by decide)
  · exact (digit_or_parens he).resolve_right

/-- With a digit among the first two characters, no blank comes in front. -/
theorem transplanted_text_of_digit {e : Expression} (hwf : WellFormed e) (before : UInt8)
    (hdigit : ∃ c ∈ e.text.take 2, isdigit c = true) :
    transplanted before e.text = render e.rpn := by
  obtain ⟨lead, hlead, htext⟩ := transplanted_text hwf before
  obtain ⟨d, i, cs, s, hd, hs, hfrom, -⟩ := start_of_digit before hdigit
  have hbegins := prefix_transplanted before e.text
  rw [hfrom] at hbegins
  obtain ⟨rest, hrest⟩ := (prefix_transplantFrom before i cs s).trans hbegins
  rcases hlead with rfl | rfl
  · exact htext
  · rw [htext, hs] at hrest
    obtain ⟨rfl, -⟩ := List.cons.inj hrest
    exact absurd hd (by decide)

/-- **When a well-formed expression keeps to the buffer:** exactly if the loop can count its
characters, it does not begin with two parentheses, and it takes at most 100 places. -/
theorem inBuffer_text_iff (e : Expression) (hwf : WellFormed e) (before : UInt8) :
    InBuffer before e.text ↔
      e.text.length ≤ maxInt ∧ ¬ [ch '(', ch '('] <+: e.text ∧ places e ≤ 100 := by
  rw [inBuffer_iff, ← digit_iff hwf.literals]
  refine and_congr_right fun _ => and_congr_right fun hdigit => ?_
  rw [transplanted_text_of_digit hwf before hdigit, length_render_rpn]

theorem inBuffer_sample : InBuffer 0 sample.text := by
  refine (inBuffer_text_iff sample wellFormed_sample 0).2 ⟨?_, ?_, ?_⟩
  · decide +kernel
  · decide +kernel
  · decide +kernel

/-- In `((1))` the second parenthesis looks back in front of the buffer. -/
theorem inBuffer_nested :
    ¬ ∀ (e : Expression), WellFormed e → ∀ before, InBuffer before e.text := by
  intro hall
  obtain ⟨ks, hks, hin⟩ := hall (nested 2) (wellFormed_nested 2) 0
  have hsome : ∃ ks, indices 0 (nested 2).text = some ks ∧ -1 ∈ ks := ⟨_, rfl, by decide⟩
  obtain ⟨ks', hks', hmem⟩ := hsome
  obtain rfl := Option.some.inj (hks.symm.trans hks')
  exact absurd (hin (-1) hmem).1 (by decide)

end Nifix
end BreUtils
