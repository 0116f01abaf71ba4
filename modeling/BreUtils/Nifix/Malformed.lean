/-
# Malformed input of the calculator

`cal_s` throws when an operator finds fewer than two numbers, at a left parenthesis that
was never closed, and when a divisor is zero.  Nothing else tells it that its input was
malformed, so that `1)` has the value 1, `1(+2)` the value 3 and `12(3)` the value 3.

What is reported can be seen from the order in which the numbers are read and the
operators applied: behind some expressions, all of which are evaluated, comes something
that `cal_s` throws at (`Throws`).  An expression is evaluated if its products and
quotients are `int`s and no divisor is zero (`Defined`); its sums and differences may wrap
around, so that the last operator of `2147483647+1+` is reported.  For this to happen the
output has to fit into its string, too.  Its length can be counted in the tokens
(`breadth`).
-/

import BreUtils.Nifix.Translation
import Mathlib.Algebra.GroupWithZero.Nat

namespace BreUtils
namespace Nifix

open Lib Cpp ShuntingYard Expression

/-! ### What is malformed, and what is reported -/

/-- A text over digits, operators and parentheses, but not that of a well-formed expression. -/
structure Malformed (str : Bytes) : Prop where
  nonempty : str ≠ []
  legible : Legible str
  unreadable : ∀ e : Expression, WellFormed e → e.text ≠ str

/-- **The input is reported:** `exp_transplant` comes to its end, and `cal_s` throws. -/
def Reported (before : UInt8) (str : Bytes) : Prop :=
  (expTransplant 100 before str >>= calS) = .error .runtimeError

/-- What is read and computed for the expressions on a stack, from the top. -/
def stacked : List Expression → List Item
  | [] => []
  | e :: es => stacked es ++ e.rpn.map (Sum.map id some)

/-- What makes `cal_s` throw, behind the expressions `es`: a left parenthesis, an operator that has
fewer than two operands, or a divisor that is zero. -/
def Trips (es : List Expression) : Item → Prop
  | .inl _ => False
  | .inr none => True
  | .inr (some o) => es.length < 2 ∨ (o = .div ∧ ∃ r ∈ es.head?, r.computed = 0)

/-- Behind expressions that are evaluated (`Defined`: their sums and differences may wrap around)
comes something that makes `cal_s` throw. -/
def Throws (items : List Item) : Prop :=
  ∃ es a rest, items = stacked es ++ a :: rest ∧ (∀ e ∈ es, Defined e) ∧ Trips es a

/-- The places of a number, with the blank behind it, and of an operator or a parenthesis. -/
def width : Item → ℕ
  | .inl ds => ds.length + 1
  | .inr _ => 2

/-- The places of the output: of what is read in front, of the numbers and operators, and of the
left parentheses that are never closed. -/
def breadth (before : UInt8) (str : Bytes) : ℕ :=
  ((front before str ++ contents (tokens str)).map width).sum + 2 * unclosed (tokens str)

variable {before : UInt8} {str : Bytes} {e : Expression} {es : List Expression} {a : Item}
  {items : List Item}

/-! ### The length of the output -/

theorem length_entry (a : Item) : (entry a).length = width a := by
  cases a with
  | inl ds => simp [entry, width]
  | inr o => rfl

theorem length_spell (items : List Item) : (spell items).length = (items.map width).sum := by
  rw [spell, List.length_flatMap]
  simp only [length_entry]

theorem length_sequence (before : UInt8) (str : Bytes) :
    (spell (sequence before str)).length = breadth before str := by
  have horder := ((order_perm Op.prec (tokens str)).map width).sum_eq
  rw [length_spell, sequence, List.map_append, List.sum_append, horder, breadth]
  simp [width]
  omega

/-! ### Evaluation of the items -/

theorem spell_rpn (xs : List (Bytes ⊕ Op)) : spell (xs.map (Sum.map id some)) = render xs := by
  rw [spell, List.flatMap_map]
  refine List.flatMap_congr fun x _ => ?_
  cases x <;> rfl

/-- Expressions that are all evaluated. -/
theorem foldlM_stacked (hdigits : ∀ ds, .inl ds ∈ stacked es → ∀ c ∈ ds, isdigit c = true)
    (hdefined : ∀ e ∈ es, Defined e) :
    (spell (stacked es)).foldlM calculateChar ⟨[], 0⟩ = .ok ⟨es.map computed, 0⟩ := by
  induction es with
  | nil => rfl
  | cons e es ih =>
      obtain ⟨he, hes⟩ := List.forall_mem_cons.1 hdefined
      have hbelow := ih (fun ds hds => hdigits ds (List.mem_append_left _ hds)) hes
      have htop : ∀ ds, .inl ds ∈ e.rpn → ∀ c ∈ ds, isdigit c = true := fun ds hds =>
        hdigits ds (List.mem_append_right _ (List.mem_map.2 ⟨.inl ds, hds, rfl⟩))
      rw [stacked, spell_append, spell_rpn, foldlM_append_of_ok hbelow]
      exact foldlM_rpn htop he _

theorem calculateChar_short (x : Option Op) {stack : List ℤ} (h : stack.length < 2) (tmp : ℤ) :
    calculateChar ⟨stack, tmp⟩ (symbol x) = .error .runtimeError := by
  have hdigit : isdigit (symbol x) = false := by
    rcases x with _ | o
    · decide
    · cases o <;> decide
  have hblank : symbol x ≠ ch ' ' := by
    rcases x with _ | o
    · decide
    · cases o <;> decide
  rw [calculateChar, if_neg (by simp [hdigit]), if_neg hblank]
  cases stack with
  | nil => rfl
  | cons b stack =>
      cases stack with
      | nil => rfl
      | cons a stack =>
          rw [List.length_cons, List.length_cons] at h
          omega

/-- A left parenthesis is no operator. -/
theorem calculateChar_left (stack : List ℤ) (tmp : ℤ) :
    calculateChar ⟨stack, tmp⟩ (symbol none) = .error .runtimeError := by
  by_cases hshort : stack.length < 2
  · exact calculateChar_short none hshort tmp
  · cases stack with
    | nil => simp at hshort
    | cons b stack =>
        cases stack with
        | nil => simp at hshort
        | cons a stack => rfl

/-- A product or a quotient that is no `int` is undefined. -/
theorem operate_overflow {o : Op} {a b : ℤ} (hb : o = .div → b ≠ 0) (ho : o = .mul ∨ o = .div)
    (h : ¬ IsInt (o.apply a b)) : operate o.sym a b = .error .undefined := by
  rcases ho with rfl | rfl
  · exact if_neg h
  · exact (if_neg (hb rfl)).trans (if_neg h)

/-- What trips `cal_s` makes it throw. -/
theorem foldlM_trips (h : Trips es a) (rest : Bytes) :
    (entry a ++ rest).foldlM calculateChar ⟨es.map computed, 0⟩ = .error .runtimeError := by
  rcases a with ds | x
  · exact h.elim
  · have hchar : calculateChar ⟨es.map computed, 0⟩ (symbol x) = .error .runtimeError := by
      rcases x with _ | o
      · exact calculateChar_left _ 0
      · rcases h with hshort | ⟨rfl, r, hr, hzero⟩
        · exact calculateChar_short (some o) (by simpa using hshort) 0
        · cases es with
          | nil => exact absurd hr (by simp)
          | cons r' es =>
              obtain rfl := Option.mem_some.1 hr
              cases es with
              | nil => exact calculateChar_short (some .div) (by simp) 0
              | cons l es =>
                  rw [symbol, List.map_cons, List.map_cons, calculateChar_sym, hzero]
                  rfl
    rw [entry, List.cons_append, List.foldlM_cons, hchar]
    rfl

/-- **Where `cal_s` throws, something trips it:** what it has on its stack by then are the values of
expressions, whose numbers and operators have been read. -/
theorem throws_of_error (hdigits : ∀ ds, .inl ds ∈ items → ∀ c ∈ ds, isdigit c = true)
    (hdefined : ∀ e ∈ es, Defined e)
    (h : (spell items).foldlM calculateChar ⟨es.map computed, 0⟩ = .error .runtimeError) :
    Throws (stacked es ++ items) := by
  induction items generalizing es with
  | nil => exact absurd h (by simp [spell, pure, Except.pure])
  | cons a items ih =>
      have hrest : ∀ ds, .inl ds ∈ items → ∀ c ∈ ds, isdigit c = true := fun ds hds =>
        hdigits ds (List.mem_cons_of_mem _ hds)
      -- one more expression on the stack, or one instead of two
      have hnext (fs : List Expression) (hstacked : stacked fs = stacked es ++ [a])
          (hfs : ∀ e ∈ fs, Defined e)
          (hentry : (entry a).foldlM calculateChar ⟨es.map computed, 0⟩ =
            .ok ⟨fs.map computed, 0⟩) : Throws (stacked es ++ a :: items) := by
        rw [spell, List.flatMap_cons, foldlM_append_of_ok hentry] at h
        rw [List.append_cons, ← hstacked]
        exact ih hrest hfs h
      by_cases htrips : Trips es a
      · exact ⟨es, a, items, rfl, hdefined, htrips⟩
      · rcases a with ds | _ | o
        · have hnumber := foldlM_number (hdigits ds List.mem_cons_self) (es.map computed)
          by_cases hfits : 10 * (decimal ds / 10) ≤ maxInt
          · rw [if_pos hfits] at hnumber
            refine hnext (.lit ds :: es) rfl (List.forall_mem_cons.2 ⟨hfits, hdefined⟩) ?_
            rw [entry, foldlM_append_of_ok hnumber, List.foldlM_cons, calculateChar_blank,
              List.map_cons, computed]
            rfl
          · rw [if_neg hfits] at hnumber
            rw [spell, List.flatMap_cons, entry, List.append_assoc, List.foldlM_append,
              hnumber] at h
            exact absurd (Except.error.inj h) (by decide)
        · exact absurd trivial htrips
        · rw [Trips, not_or] at htrips
          obtain ⟨hmany, hzero⟩ := htrips
          rcases es with _ | ⟨r, _ | ⟨l, es⟩⟩
          · simp at hmany
          · simp at hmany
          · obtain ⟨hr, hl, hes⟩ := by simpa only [List.forall_mem_cons] using hdefined
            have hdivisor : o = .div → r.computed ≠ 0 := fun ho h0 => hzero ⟨ho, r, rfl, h0⟩
            by_cases hint : o = .mul ∨ o = .div → IsInt (o.apply l.computed r.computed)
            · refine hnext (.bin o l r :: es) ?_
                (List.forall_mem_cons.2 ⟨⟨hl, hr, hdivisor, hint⟩, hes⟩) ?_
              · simp [stacked, Expr.rpn]
              · rw [entry, symbol, List.foldlM_cons, List.map_cons, List.map_cons,
                  calculateChar_sym, operate_sym o hdivisor hint]
                rfl
            · rw [Classical.not_imp] at hint
              rw [spell, List.flatMap_cons, entry, symbol, List.cons_append, List.foldlM_cons,
                List.map_cons, List.map_cons, calculateChar_sym,
                operate_overflow hdivisor hint.1 hint.2] at h
              exact absurd (Except.error.inj h) (by decide)

/-- **When `cal_s` throws.** -/
theorem error_iff (hdigits : ∀ ds, .inl ds ∈ items → ∀ c ∈ ds, isdigit c = true) :
    (spell items).foldlM calculateChar ⟨[], 0⟩ = .error .runtimeError ↔ Throws items := by
  constructor
  · intro h
    have hnone : ∀ e ∈ ([] : List Expression), Defined e := List.forall_mem_nil _
    exact throws_of_error hdigits hnone h
  · rintro ⟨es, a, rest, rfl, hdefined, htrips⟩
    have hstacked := foldlM_stacked (fun ds hds => hdigits ds (List.mem_append_left _ hds)) hdefined
    rw [spell_append, foldlM_append_of_ok hstacked, spell, List.flatMap_cons]
    exact foldlM_trips htrips _

/-! ### The calculator -/

theorem digits_contents (str : Bytes) : ∀ ds, .inl ds ∈ contents (tokens str) →
    ∀ c ∈ ds, isdigit c = true := by
  induction str with
  | nil => exact fun ds hds => absurd hds List.not_mem_nil
  | cons c cs ih =>
      rw [tokens]
      split_ifs with hc
      · have hone : ∀ d ∈ [c], isdigit d = true := List.forall_mem_singleton.2 hc
        rcases htokens : tokens cs with _ | ⟨ds | o | _ | _, ts⟩
        all_goals rw [htokens] at ih
        · simpa [digit, contents] using hc
        · intro ds' hds'
          rcases List.mem_cons.1 hds' with heq | hmem
          · rw [Sum.inl.inj heq]
            exact List.forall_mem_cons.2 ⟨hc, ih ds List.mem_cons_self⟩
          · exact ih ds' (List.mem_cons_of_mem _ hmem)
        all_goals
          intro ds' hds'
          rcases List.mem_cons.1 hds' with heq | hmem
          · rwa [Sum.inl.inj heq]
          · exact ih ds' hmem
      · unfold token
        split_ifs
        · exact ih
        · exact ih
        · exact fun ds hds => ih ds (by simpa [contents] using hds)

theorem digits_sequence (before : UInt8) (str : Bytes) : ∀ ds, .inl ds ∈ sequence before str →
    ∀ c ∈ ds, isdigit c = true := by
  intro ds hds
  rcases List.mem_append.1 hds with hfront | horder
  · unfold front at hfront
    split_ifs at hfront
    · obtain rfl : ds = [] := by simpa using hfront
      exact List.forall_mem_nil _
    · exact absurd hfront List.not_mem_nil
  · have hmem := (order_perm Op.prec (tokens str)).mem_iff.1 horder
    rcases List.mem_append.1 hmem with hmem | hmem
    · exact digits_contents str ds hmem
    · exact absurd (List.eq_of_mem_replicate hmem) (by simp)

/-- Blanks are no error. -/
theorem exists_foldlM_blanks (n : ℕ) (s : Calculation) :
    ∃ t, (List.replicate n (ch ' ')).foldlM calculateChar s = .ok t := by
  induction n generalizing s with
  | zero => exact ⟨s, rfl⟩
  | succ n ih =>
      rw [List.replicate_succ, List.foldlM_cons, calculateChar_blank]
      exact ih _

theorem calS_eq_error {str : Bytes} (hlength : str.length ≤ maxInt) :
    calS str = .error .runtimeError ↔
      str.foldlM calculateChar ⟨[], 0⟩ = .error .runtimeError := by
  rw [calS, List.take_of_length_le (Nat.le_succ_of_le hlength)]
  rcases str.foldlM calculateChar ⟨[], 0⟩ with e | s
  · simp
  · simp [hlength]

/-- What `cal_s` makes of an output, with blanks behind it. -/
theorem calS_blanks {str : Bytes} {n : ℕ} (hlength : str.length + n ≤ maxInt) :
    calS (str ++ List.replicate n (ch ' ')) = .error .runtimeError ↔
      str.foldlM calculateChar ⟨[], 0⟩ = .error .runtimeError := by
  rw [calS_eq_error (by simpa using hlength), List.foldlM_append]
  rcases str.foldlM calculateChar ⟨[], 0⟩ with e | s
  · exact Iff.rfl
  · obtain ⟨t, ht⟩ := exists_foldlM_blanks n s
    simp [bind, Except.bind, ht]

/-- **When malformed input is reported:** exactly if the loop can count its characters, its output
fits into the string, and behind expressions that are evaluated comes something that makes `cal_s`
throw. -/
theorem reported_iff (h : Malformed str) (before : UInt8) : Reported before str ↔
    str.length ≤ maxInt ∧ breadth before str ≤ 100 ∧ Throws (sequence before str) := by
  rw [Reported, expTransplant, transplanted_eq before h.legible]
  simp only [length_sequence]
  by_cases hfits : str.length ≤ maxInt ∧ breadth before str ≤ maxInt ∧ breadth before str ≤ 100
  · have hlength : (spell (sequence before str)).length + (100 - breadth before str) ≤ maxInt := by
      rw [length_sequence]
      unfold maxInt
      omega
    have herror := (calS_blanks hlength).trans (error_iff (digits_sequence before str))
    rw [if_pos hfits]
    simp only [bind, Except.bind, herror]
    exact ⟨fun hthrows => ⟨hfits.1, hfits.2.2, hthrows⟩, fun hthrows => hthrows.2.2⟩
  · rw [if_neg hfits]
    refine iff_of_false (fun herror => ?_) fun hbounds => hfits ⟨hbounds.1, ?_, hbounds.2.1⟩
    · exact absurd (Except.error.inj herror) (by decide)
    · have := hbounds.2.1
      unfold maxInt
      omega

/-- A text of one or two characters, not all of them digits, is no expression. -/
theorem malformed_of_short (hne : str ≠ []) (hlegible : Legible str) (hshort : str.length ≤ 2)
    (hmark : ∃ c ∈ str, isdigit c = false) : Malformed str := by
  refine ⟨hne, hlegible, ?_⟩
  rintro e hwf rfl
  cases e with
  | lit ds =>
      obtain ⟨c, hc, hdigit⟩ := hmark
      exact absurd (hwf.literals.2 c hc) (by simp [hdigit])
  | paren e =>
      have hpos := List.length_pos_of_ne_nil (text_ne_nil (e := e) hwf.literals)
      rw [text, List.length_cons, List.length_append, List.length_singleton] at hshort
      omega
  | bin o l r =>
      have hl := List.length_pos_of_ne_nil (text_ne_nil hwf.literals.1)
      have hr := List.length_pos_of_ne_nil (text_ne_nil hwf.literals.2)
      rw [text, List.length_append, List.length_cons] at hshort
      omega

/-- `1+` is reported. -/
theorem reported_sample : Reported 0 (ascii "1+") := by
  have hlegible : Legible (ascii "1+") := by
    unfold Legible
    decide +kernel
  have hmalformed := malformed_of_short (by decide) hlegible (by decide) (by decide)
  refine (reported_iff hmalformed 0).2 ⟨by decide, by decide, ?_⟩
  refine ⟨[.lit (ascii "1")], .inr (some .add), [], rfl, ?_, Or.inl (by decide)⟩
  rw [List.forall_mem_singleton, Defined]
  decide

/-- `1)` is not: its value is 1. -/
theorem right_unreported : Malformed (ascii "1)") ∧ ¬ Reported 0 (ascii "1)") ∧
    calculateExpression 0 (ascii "1)") = some 1 := by
  have hlegible : Legible (ascii "1)") := by
    unfold Legible
    decide +kernel
  have hvalue : calculateExpression 0 (ascii "1)") = some 1 := by decide +kernel
  refine ⟨malformed_of_short (by decide) hlegible (by decide) (by decide), fun hreported => ?_,
    hvalue⟩
  rw [Reported] at hreported
  rw [calculateExpression, calculate, hreported] at hvalue
  exact absurd hvalue (by decide)

end Nifix
end BreUtils
