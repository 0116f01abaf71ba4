/-
# What the calculator computes

An expression here is a tree over digits and `+`, `-`, `*`, `/`, as it is written, and
its value is that of usual arithmetic, with division towards zero.  The text of a
well-formed one goes through `exp_transplant` as its tokens go through a shunting yard
(`BreUtils.Lib.ShuntingYard`), a blank behind each number being written when the next
token shows that the number is over (`transplantFrom_text`).  On what comes out, `cal_s`
computes the value (`foldlM_rpn`, `foldlM_render`).

So the calculator returns the value whenever its buffer is long enough and all the counts
are `int`s (`calculate_iff`).  An expression may be too long for that, though
(`calculate_overflow`).
-/

import BreUtils.Lib.ShuntingYard
import BreUtils.Nifix.NifixExpression

namespace BreUtils
namespace Nifix

open Lib Cpp ShuntingYard

/-- The operators. -/
inductive Op where
  | add
  | sub
  | mul
  | div
  deriving DecidableEq, Repr

namespace Op

def sym : Op → UInt8
  | add => ch '+'
  | sub => ch '-'
  | mul => ch '*'
  | div => ch '/'

def prec : Op → ℕ
  | add | sub => 0
  | mul | div => 1

/-- Arithmetic, with division towards zero. -/
def apply : Op → ℤ → ℤ → ℤ
  | add, a, b => a + b
  | sub, a, b => a - b
  | mul, a, b => a * b
  | div, a, b => a.tdiv b

end Op

/-- An expression over the digits of its numbers. -/
abbrev Expression := Expr Bytes Op

namespace Expression

def text : Expression → Bytes
  | .lit ds => ds
  | .paren e => ch '(' :: (text e ++ [ch ')'])
  | .bin o l r => text l ++ o.sym :: text r

def value : Expression → ℤ
  | .lit ds => decimal ds
  | .paren e => value e
  | .bin o l r => o.apply (value l) (value r)

/-- Every number has digits, and nothing else. -/
def Literals : Expression → Prop
  | .lit ds => ds ≠ [] ∧ ∀ c ∈ ds, isdigit c = true
  | .paren e => Literals e
  | .bin _ l r => Literals l ∧ Literals r

/-- A tree that is the usual reading of its text. -/
structure WellFormed (e : Expression) : Prop where
  literals : Literals e
  conventional : e.Conventional Op.prec

/-- Every number and every value on the way is an `int`, and no divisor is zero. -/
def Fits : Expression → Prop
  | .lit ds => decimal ds ≤ maxInt
  | .paren e => Fits e
  | .bin o l r =>
      Fits l ∧ Fits r ∧ (o = .div → value r ≠ 0) ∧ IsInt (o.apply (value l) (value r))

end Expression

open Expression

/-! ### The output of the yard, as a text -/

/-- A number or an operator, and a blank. -/
def item : Bytes ⊕ Op → Bytes
  | .inl ds => ds ++ [ch ' ']
  | .inr o => [o.sym, ch ' ']

def render (out : List (Bytes ⊕ Op)) : Bytes := out.flatMap item

@[simp] theorem render_append (out rest : List (Bytes ⊕ Op)) :
    render (out ++ rest) = render out ++ render rest := List.flatMap_append

/-- How long the text behind its operands is, and one more: in front there may be a blank. -/
def room (e : Expression) : ℕ := (render e.rpn).length + 1

/-- The text in front of `j`, once the number at its end is over. -/
def spaced (str2 : Bytes) : Bytes := if str2 = [] then [] else blank 0 str2

theorem blank_eq_spaced {str2 : Bytes} (h : str2 ≠ []) (before : UInt8) :
    blank before str2 = spaced str2 := by
  simp only [spaced, if_neg h, blank, behind, List.getLast?_eq_some_getLast h, Option.getD_some]

theorem spaced_of_blank {str2 : Bytes} (h : str2.getLast? = some (ch ' ')) :
    spaced str2 = str2 := by
  unfold spaced
  split_ifs with hnil
  · exact hnil.symm
  · simp [blank, behind, h]

theorem spaced_of_ne {str2 : Bytes} {c : UInt8} (h : str2.getLast? = some c)
    (hc : c ≠ ch ' ') : spaced str2 = str2 ++ [ch ' '] := by
  have hne : str2 ≠ [] := fun hnil => by simp [hnil] at h
  rw [spaced, if_neg hne, blank, behind, h, Option.getD_some, if_pos hc]

theorem getLast?_spaced {str2 : Bytes} (h : str2 ≠ []) :
    (spaced str2).getLast? = some (ch ' ') := by
  rw [spaced, if_neg h, blank]
  split_ifs with hlast
  · exact List.getLast?_concat
  · rw [behind, List.getLast?_eq_some_getLast h, Option.getD_some, not_not] at hlast
    rw [List.getLast?_eq_some_getLast h, hlast]

/-- What is put out ends in a blank. -/
theorem spaced_append_render (str2 : Bytes) (out : List (Bytes ⊕ Op)) :
    spaced (spaced str2 ++ render out) = spaced str2 ++ render out := by
  induction out using List.reverseRecOn with
  | nil =>
      rw [render, List.flatMap_nil, List.append_nil]
      by_cases hnil : str2 = []
      · rw [hnil]
        rfl
      · exact spaced_of_blank (getLast?_spaced hnil)
  | append_singleton out a ih =>
      refine spaced_of_blank ?_
      rw [render_append, ← List.append_assoc]
      cases a with
      | inl ds => simp [render, item]
      | inr o => simp [render, item]

/-! ### The loop of `exp_transplant` -/

/-- An entry of the stack. -/
def symbol : Option Op → UInt8
  | none => ch '('
  | some o => o.sym

/-- The loop is where the yard is. -/
structure Mirrors (s : Transplant) (y : Yard Bytes Op) : Prop where
  stack : s.stack = y.stack.map symbol
  str2 : ∃ lead, (lead = [] ∨ lead = [ch ' ']) ∧ spaced s.str2 = lead ++ render y.out

/-- The same, where it is known what is in front. -/
structure Follows (lead : Bytes) (s : Transplant) (y : Yard Bytes Op) : Prop where
  stack : s.stack = y.stack.map symbol
  str2 : spaced s.str2 = lead ++ render y.out

theorem popWhile_symbol {p : UInt8 → Bool} {q : Op → Bool} (hleft : p (ch '(') = false)
    (hop : ∀ o, p (Op.sym o) = q o) (stack : List (Option Op)) (str2 : Bytes) :
    popWhile p (stack.map symbol) str2 =
      ⟨(release q stack).2.map symbol,
        str2 ++ render ((release q stack).1.map .inr)⟩ := by
  induction stack generalizing str2 with
  | nil => simp [popWhile, release, render]
  | cons a stack ih =>
      cases a with
      | none => simp [popWhile, release, render, symbol, hleft]
      | some o =>
          rw [List.map_cons, symbol, popWhile, release, hop]
          split_ifs
          · rw [ih]
            simp [render, item]
          · simp [render, symbol]

/-- Nothing is taken off the stack. -/
theorem popWhile_false {p : UInt8 → Bool} (h : ∀ c, p c = false) (stack : List UInt8)
    (str2 : Bytes) : popWhile p stack str2 = ⟨stack, str2⟩ := by
  cases stack with
  | nil => rfl
  | cons c stack => rw [popWhile, h, if_neg (by simp)]

theorem transplantFrom_append (before : UInt8) (i : ℕ) (a b : Bytes) (s : Transplant) :
    transplantFrom before i (a ++ b) s =
      transplantFrom before (i + a.length) b (transplantFrom before i a s) := by
  induction a generalizing i s with
  | nil => rfl
  | cons c a ih =>
      rw [List.cons_append, transplantFrom, ih, transplantFrom, List.length_cons]
      congr 1
      omega

theorem transplantChar_paren (before : UInt8) (i : ℕ) (s : Transplant) :
    transplantChar before i (ch '(') s =
      ⟨ch '(' :: s.stack, if i ≠ 0 then blank before s.str2 else s.str2⟩ := by
  rw [transplantChar, if_neg (by decide), if_neg (by decide),
    popWhile_false fun c => by simp [symcmp]]

/-- A left parenthesis is held back. -/
theorem Follows.left {lead : Bytes} {s : Transplant} {y : Yard Bytes Op} (h : Follows lead s y)
    {before : UInt8} {i : ℕ}
    (hblank : (if i ≠ 0 then blank before s.str2 else s.str2) = spaced s.str2) :
    Follows lead (transplantChar before i (ch '(') s) (step Op.prec y .left) ∧
      (transplantChar before i (ch '(') s).str2 = spaced s.str2 := by
  have hready := spaced_append_render s.str2 []
  rw [render, List.flatMap_nil, List.append_nil] at hready
  rw [transplantChar_paren, hblank]
  refine ⟨⟨?_, hready.trans h.str2⟩, rfl⟩
  rw [step, List.map_cons, h.stack]
  rfl

/-- In front of the first number, it may bring a blank. -/
theorem transplantChar_left {s : Transplant} {y : Yard Bytes Op} (h : Mirrors s y)
    (hready : spaced s.str2 = s.str2) (before : UInt8) (i : ℕ) :
    Mirrors (transplantChar before i (ch '(') s) (step Op.prec y .left) ∧
      spaced (transplantChar before i (ch '(') s).str2 =
        (transplantChar before i (ch '(') s).str2 := by
  obtain ⟨lead, hlead, hstr2⟩ := h.str2
  by_cases hblank : (if i ≠ 0 then blank before s.str2 else s.str2) = spaced s.str2
  · obtain ⟨hfollows, hsame⟩ := Follows.left ⟨h.stack, hstr2⟩ hblank
    refine ⟨⟨hfollows.stack, lead, hlead, hfollows.str2⟩, ?_⟩
    rw [hsame, hready, hready]
  · have hnil : s.str2 = [] := by
      by_contra hne
      rw [blank_eq_spaced hne, hready, ite_self] at hblank
      exact hblank rfl
    have hnew : (if i ≠ 0 then blank before s.str2 else s.str2) = [ch ' '] := by
      rw [hnil] at hblank ⊢
      unfold blank at hblank ⊢
      split_ifs at hblank ⊢
      · rfl
      · exact absurd rfl hblank
      · exact absurd rfl hblank
    rw [transplantChar_paren, hnew]
    rw [hnil, spaced, if_pos rfl, eq_comm, List.append_eq_nil_iff] at hstr2
    refine ⟨⟨?_, [ch ' '], Or.inr rfl, ?_⟩, rfl⟩
    · rw [step, List.map_cons, h.stack]
      rfl
    · rw [step, hstr2.2]
      rfl

/-- Digits are copied. -/
theorem transplantFrom_digits (before : UInt8) (i : ℕ) {ds : Bytes}
    (hds : ∀ c ∈ ds, isdigit c = true) (s : Transplant) :
    transplantFrom before i ds s = { s with str2 := s.str2 ++ ds } := by
  induction ds generalizing i s with
  | nil => simp [transplantFrom]
  | cons c ds ih =>
      rw [List.forall_mem_cons] at hds
      rw [transplantFrom, transplantChar, if_pos hds.1, ih (i + 1) hds.2]
      simp

/-- A number goes out; the blank behind it is to come. -/
theorem Follows.lit {lead ds : Bytes} {s : Transplant} {y : Yard Bytes Op} (h : Follows lead s y)
    (hready : spaced s.str2 = s.str2) (hne : ds ≠ []) (hds : ∀ c ∈ ds, isdigit c = true) :
    Follows lead { s with str2 := s.str2 ++ ds } (step Op.prec y (.lit ds)) := by
  refine ⟨h.stack, ?_⟩
  have hlast : (s.str2 ++ ds).getLast? = some (ds.getLast hne) := by
    rw [List.getLast?_append_of_ne_nil _ hne, List.getLast?_eq_some_getLast hne]
  have hdigit : ds.getLast hne ≠ ch ' ' := by
    intro hblank
    have hdigit := hds _ (List.getLast_mem hne)
    rw [hblank] at hdigit
    exact absurd hdigit (by decide)
  rw [spaced_of_ne hlast hdigit, ← hready, h.str2]
  simp [step, render, item]

theorem transplantFrom_lit {s : Transplant} {y : Yard Bytes Op} (h : Mirrors s y)
    (hready : spaced s.str2 = s.str2) {ds : Bytes} (hne : ds ≠ [])
    (hds : ∀ c ∈ ds, isdigit c = true) (before : UInt8) (i : ℕ) :
    Mirrors (transplantFrom before i ds s) (step Op.prec y (.lit ds)) ∧
      (transplantFrom before i ds s).str2 ≠ [] := by
  obtain ⟨lead, hlead, hstr2⟩ := h.str2
  have hfollows := Follows.lit ⟨h.stack, hstr2⟩ hready hne hds
  rw [transplantFrom_digits before i hds]
  exact ⟨⟨hfollows.stack, lead, hlead, hfollows.str2⟩, by simp [hne]⟩

/-- What the yard makes of the operators that it lets go. -/
theorem Follows.emit {lead : Bytes} {s : Transplant} {y : Yard Bytes Op} (h : Follows lead s y)
    (ops : List Op) :
    spaced (spaced s.str2 ++ render (ops.map .inr)) = lead ++ render (y.out ++ ops.map .inr) := by
  rw [spaced_append_render, h.str2, render_append, List.append_assoc]

/-- An operator lets those go that bind as tightly, and is held back. -/
theorem Follows.op {lead : Bytes} {s : Transplant} {y : Yard Bytes Op} (h : Follows lead s y)
    (o : Op) {before : UInt8} {i : ℕ}
    (hblank : (if i ≠ 0 then blank before s.str2 else s.str2) = spaced s.str2) :
    Follows lead (transplantChar before i o.sym s) (step Op.prec y (.op o)) ∧
      spaced (transplantChar before i o.sym s).str2 = (transplantChar before i o.sym s).str2 := by
  have hdigit : isdigit o.sym = false := by cases o <;> decide
  have hright : o.sym ≠ ch ')' := by cases o <;> decide
  have hpops : popWhile (fun top => !symcmp top o.sym) s.stack (spaced s.str2) =
      ⟨(release (fun p => decide (o.prec ≤ p.prec)) y.stack).2.map symbol,
        spaced s.str2 ++
          render ((release (fun p => decide (o.prec ≤ p.prec)) y.stack).1.map .inr)⟩ := by
    rw [h.stack]
    refine popWhile_symbol ?_ (fun p => ?_) _ _
    · cases o <;> decide
    · cases o <;> cases p <;> decide
  have hchar : transplantChar before i o.sym s =
      ⟨o.sym :: (release (fun p => decide (o.prec ≤ p.prec)) y.stack).2.map symbol,
        spaced s.str2 ++
          render ((release (fun p => decide (o.prec ≤ p.prec)) y.stack).1.map .inr)⟩ := by
    rw [transplantChar, if_neg (by simp [hdigit]), hblank, if_neg hright, hpops]
  rw [hchar]
  exact ⟨⟨rfl, h.emit _⟩, spaced_append_render _ _⟩

theorem transplantChar_op {s : Transplant} {y : Yard Bytes Op} (h : Mirrors s y)
    (hne : s.str2 ≠ []) (o : Op) (before : UInt8) {i : ℕ} (hi : i ≠ 0) :
    Mirrors (transplantChar before i o.sym s) (step Op.prec y (.op o)) ∧
      spaced (transplantChar before i o.sym s).str2 = (transplantChar before i o.sym s).str2 := by
  obtain ⟨lead, hlead, hstr2⟩ := h.str2
  obtain ⟨hfollows, hready⟩ := Follows.op ⟨h.stack, hstr2⟩ o
    ((if_pos hi).trans (blank_eq_spaced hne before))
  exact ⟨⟨hfollows.stack, lead, hlead, hfollows.str2⟩, hready⟩

/-- A right parenthesis lets go what the left one held back. -/
theorem Follows.right {lead : Bytes} {s : Transplant} {y : Yard Bytes Op} (h : Follows lead s y)
    {before : UInt8} {i : ℕ}
    (hblank : (if i ≠ 0 then blank before s.str2 else s.str2) = spaced s.str2) :
    Follows lead (transplantChar before i (ch ')') s) (step Op.prec y .right) ∧
      (transplantChar before i (ch ')') s).str2 =
        spaced s.str2 ++ render ((release (fun _ => true) y.stack).1.map .inr) := by
  have hpops : popWhile (fun top => top != ch '(') s.stack (spaced s.str2) =
      ⟨(release (fun _ => true) y.stack).2.map symbol,
        spaced s.str2 ++ render ((release (fun _ => true) y.stack).1.map .inr)⟩ := by
    rw [h.stack]
    refine popWhile_symbol (by decide) (fun p => ?_) _ _
    cases p <;> decide
  have hchar : transplantChar before i (ch ')') s =
      ⟨((release (fun _ => true) y.stack).2.map symbol).tail,
        spaced s.str2 ++ render ((release (fun _ => true) y.stack).1.map .inr)⟩ := by
    rw [transplantChar, if_neg (by decide), hblank, if_pos rfl, hpops]
    rcases release_all y.stack with hrest | ⟨rest, hrest⟩
    · rw [hrest]
      rfl
    · rw [hrest]
      exact if_pos rfl
  rw [hchar]
  exact ⟨⟨List.map_tail.symm, h.emit _⟩, rfl⟩

theorem transplantChar_right {s : Transplant} {y : Yard Bytes Op} (h : Mirrors s y)
    (hne : s.str2 ≠ []) (before : UInt8) {i : ℕ} (hi : i ≠ 0) :
    Mirrors (transplantChar before i (ch ')') s) (step Op.prec y .right) ∧
      (transplantChar before i (ch ')') s).str2 ≠ [] := by
  obtain ⟨lead, hlead, hstr2⟩ := h.str2
  obtain ⟨hfollows, hlast⟩ := Follows.right ⟨h.stack, hstr2⟩
    ((if_pos hi).trans (blank_eq_spaced hne before))
  refine ⟨⟨hfollows.stack, lead, hlead, hfollows.str2⟩, fun hnil => ?_⟩
  have hblank := getLast?_spaced hne
  rw [(List.append_eq_nil_iff.1 (hlast.symm.trans hnil)).1] at hblank
  exact absurd hblank (by simp)

theorem text_ne_nil {e : Expression} (he : Literals e) : e.text ≠ [] := by
  cases e with
  | lit ds => exact he.1
  | paren e => simp [text]
  | bin o l r => simp [text]

/-- **The loop does with the text what the yard does with the tokens.** -/
theorem transplantFrom_text {e : Expression} (he : Literals e) {s : Transplant}
    {y : Yard Bytes Op} (h : Mirrors s y) (hready : spaced s.str2 = s.str2) (before : UInt8)
    (i : ℕ) :
    Mirrors (transplantFrom before i e.text s) (run Op.prec y e.tokens) ∧
      (transplantFrom before i e.text s).str2 ≠ [] := by
  induction e generalizing i s y with
  | lit ds => exact transplantFrom_lit h hready he.1 he.2 before i
  | paren e ih =>
      obtain ⟨hleft, hready'⟩ := transplantChar_left h hready before i
      obtain ⟨hinner, hne⟩ := ih he hleft hready' (i + 1)
      have hright := transplantChar_right (i := i + 1 + (text e).length) hinner hne before
        (by omega)
      rw [Expression.text, transplantFrom, transplantFrom_append, Expr.tokens, run_cons, run_append]
      exact hright
  | bin o l r ihl ihr =>
      obtain ⟨hl, hnel⟩ := ihl he.1 h hready i
      have hlength := List.length_pos_of_ne_nil (text_ne_nil he.1)
      obtain ⟨hop, hready'⟩ :=
        transplantChar_op hl hnel o before (i := i + (text l).length) (by omega)
      have hr := ihr he.2 hop hready' (i + (text l).length + 1)
      rw [Expression.text, transplantFrom_append, transplantFrom, Expr.tokens, run_append, run_cons]
      exact hr

/-- What is still held back at the end. -/
theorem popWhile_all (stack : List (Option Op)) (str2 : Bytes) :
    (popWhile (fun _ => true) (stack.map symbol) str2).str2 =
      str2 ++ stack.flatMap fun a => [symbol a, ch ' '] := by
  induction stack generalizing str2 with
  | nil => simp [popWhile]
  | cons a stack ih =>
      rw [List.map_cons, popWhile, if_pos rfl, ih]
      simp

theorem render_operators (ops : List Op) :
    render (ops.map .inr) = (ops.map some).flatMap fun a => [symbol a, ch ' '] := by
  rw [render, List.flatMap_map, List.flatMap_map]
  rfl

/-- **The text behind its operands**, with a blank in front at most. -/
theorem transplanted_text {e : Expression} (he : WellFormed e) (before : UInt8) :
    ∃ lead, (lead = [] ∨ lead = [ch ' ']) ∧
      transplanted before e.text = lead ++ render e.rpn := by
  have hstart : Mirrors ⟨[], []⟩ (⟨[], []⟩ : Yard Bytes Op) := ⟨rfl, [], Or.inl rfl, rfl⟩
  obtain ⟨⟨hstack, lead, hlead, hstr2⟩, hne⟩ :=
    transplantFrom_text he.literals hstart rfl before 0
  obtain ⟨out, ops, hrun, hrpn, -⟩ := run_tokens he.conventional (y := ⟨[], []⟩) (by
    rintro o rest ⟨⟩)
  rw [hrun, List.append_nil] at hstack
  rw [hrun, List.nil_append] at hstr2
  refine ⟨lead, hlead, ?_⟩
  rw [transplanted, blank_eq_spaced hne, hstack, popWhile_all, hstr2, ← hrpn, render_append,
    render_operators, List.append_assoc]

/-! ### `cal_s` -/

theorem checked_eq {v : ℤ} (h : IsInt v) : checked v = .ok v := if_pos h

theorem wrap_eq {v : ℤ} (h : IsInt v) : wrap v = v := by
  obtain ⟨hlo, hhi⟩ := h
  rw [wrap, Int.bmod_def]
  omega

theorem wrap_wrap_sub (v : ℤ) : wrap (wrap v - 48) = wrap (v - 48) := Int.bmod_sub_bmod

theorem toNat_digit {c : UInt8} (h : isdigit c = true) : 48 ≤ c.toNat ∧ c.toNat ≤ 57 := by
  simp only [isdigit, Bool.and_eq_true, decide_eq_true_eq] at h
  exact ⟨UInt8.le_iff_toNat_le.1 h.1, UInt8.le_iff_toNat_le.1 h.2⟩

/-- A digit behind a number: the product with ten has to be an `int`, and the sum is taken modulo
`2 ^ 32`. -/
theorem calculateChar_digit {d : UInt8} (hd : isdigit d = true) {n : ℕ}
    (hn : 10 * (n / 10) ≤ maxInt) (stack : List ℤ) :
    calculateChar ⟨stack, wrap n⟩ d =
      if 10 * n ≤ maxInt then .ok ⟨stack, wrap (10 * n + (d.toNat - 48) : ℕ)⟩
      else .error .undefined := by
  have hdigit := toNat_digit hd
  unfold maxInt at *
  rw [calculateChar, if_pos hd]
  split_ifs with hfits
  · have hwrap : wrap n = n := wrap_eq ⟨by omega, by omega⟩
    have hten : IsInt (wrap n * 10) := by
      rw [hwrap]
      constructor
      · omega
      · omega
    have hsum : (n : ℤ) * 10 + d.toNat - 48 = (10 * n + (d.toNat - 48) : ℕ) := by omega
    rw [checked_eq hten, Except.map, wrap_wrap_sub, hwrap, hsum]
  · have hten : ¬ IsInt (wrap n * 10) := by
      rintro ⟨hlow, hhigh⟩
      rw [wrap, Int.bmod_def] at hlow hhigh
      omega
    rw [checked, if_neg hten]
    rfl

/-- **A number is read** if ten times its value without the last digit is an `int`. -/
theorem foldlM_number {ds : Bytes} (hds : ∀ c ∈ ds, isdigit c = true) (stack : List ℤ) :
    ds.foldlM calculateChar ⟨stack, 0⟩ =
      if 10 * (decimal ds / 10) ≤ maxInt then .ok ⟨stack, wrap (decimal ds)⟩
      else .error .undefined := by
  induction ds using List.reverseRecOn with
  | nil => rfl
  | append_singleton ds d ih =>
      have hd : isdigit d = true := hds d (by simp)
      have hdecimal : decimal (ds ++ [d]) = 10 * decimal ds + (d.toNat - 48) := by
        rw [decimal, List.foldl_append]
        rfl
      have hdigit := toNat_digit hd
      rw [List.foldlM_append, ih fun c hc => hds c (List.mem_append_left _ hc), hdecimal]
      have hdiv : (10 * decimal ds + (d.toNat - 48)) / 10 = decimal ds := by omega
      rw [hdiv]
      by_cases hn : 10 * (decimal ds / 10) ≤ maxInt
      · rw [if_pos hn, ← calculateChar_digit hd hn]
        exact bind_pure (calculateChar ⟨stack, wrap (decimal ds)⟩ d)
      · rw [if_neg hn, if_neg (by omega)]
        rfl

/-- An operator on two values: a product or a quotient has to be an `int`. -/
theorem operate_sym (o : Op) {a b : ℤ} (hb : o = .div → b ≠ 0)
    (h : o = .mul ∨ o = .div → IsInt (o.apply a b)) :
    operate o.sym a b = .ok (wrap (o.apply a b)) := by
  cases o with
  | add => rfl
  | sub => rfl
  | mul =>
      have hmul := h (Or.inl rfl)
      rw [wrap_eq hmul]
      exact checked_eq hmul
  | div =>
      have hdiv := h (Or.inr rfl)
      rw [wrap_eq hdiv]
      exact (if_neg (hb rfl)).trans (checked_eq hdiv)

/-- A blank pushes the number. -/
theorem calculateChar_blank (stack : List ℤ) (tmp : ℤ) :
    calculateChar ⟨stack, tmp⟩ (ch ' ') = .ok ⟨tmp :: stack, 0⟩ := rfl

/-- An operator takes its operands from the stack. -/
theorem calculateChar_sym (o : Op) (stack : List ℤ) (a b tmp : ℤ) :
    calculateChar ⟨b :: a :: stack, tmp⟩ o.sym =
      (operate o.sym a b).map fun v => ⟨stack, v⟩ := by
  have hdigit : isdigit o.sym = false := by cases o <;> decide
  have hblank : o.sym ≠ ch ' ' := by cases o <;> decide
  rw [calculateChar, if_neg (by simp [hdigit]), if_neg hblank]

/-- What is read goes through, and the rest is read behind it. -/
theorem foldlM_append_of_ok {a : Bytes} {s t : Calculation}
    (h : a.foldlM calculateChar s = .ok t) (b : Bytes) :
    (a ++ b).foldlM calculateChar s = b.foldlM calculateChar t := by
  rw [List.foldlM_append, h]
  rfl

namespace Expression

/-- What `cal_s` computes: sums and differences are taken modulo `2 ^ 32`, and so is the last sum
that makes a number. -/
def computed : Expression → ℤ
  | .lit ds => wrap (decimal ds)
  | .paren e => computed e
  | .bin o l r => wrap (o.apply (computed l) (computed r))

/-- Nothing on the way is undefined: the products with ten that make the numbers, the other
products and the quotients are `int`s, and no divisor is zero. -/
def Defined : Expression → Prop
  | .lit ds => 10 * (decimal ds / 10) ≤ maxInt
  | .paren e => Defined e
  | .bin o l r =>
      Defined l ∧ Defined r ∧ (o = .div → computed r ≠ 0) ∧
        (o = .mul ∨ o = .div → IsInt (o.apply (computed l) (computed r)))

/-- In particular, where every value fits. -/
theorem Fits.defined {e : Expression} (h : Fits e) : Defined e ∧ computed e = value e := by
  induction e with
  | lit ds =>
      have hfits : decimal ds ≤ maxInt := h
      have hint : IsInt (decimal ds) := by
        unfold maxInt at hfits
        constructor
        · omega
        · omega
      rw [Defined, computed, value, wrap_eq hint]
      exact ⟨by omega, rfl⟩
  | paren e ih => exact ih h
  | bin o l r ihl ihr =>
      obtain ⟨hl, hr, hzero, hint⟩ := h
      obtain ⟨hdl, hcl⟩ := ihl hl
      obtain ⟨hdr, hcr⟩ := ihr hr
      rw [Defined, computed, hcl, hcr]
      exact ⟨⟨hdl, hdr, hzero, fun _ => hint⟩, wrap_eq hint⟩

end Expression

/-- **What an expression computes is pushed.** -/
theorem foldlM_rpn {e : Expression}
    (hdigits : ∀ ds, .inl ds ∈ e.rpn → ∀ c ∈ ds, isdigit c = true) (h : Defined e)
    (stack : List ℤ) :
    (render e.rpn).foldlM calculateChar ⟨stack, 0⟩ = .ok ⟨e.computed :: stack, 0⟩ := by
  induction e generalizing stack with
  | lit ds =>
      have hds := hdigits ds (List.mem_singleton_self _)
      have hnumber := (foldlM_number hds stack).trans (if_pos h)
      have hrender : render (Expr.rpn (.lit ds : Expression)) = ds ++ [ch ' '] := by
        simp [Expr.rpn, render, item]
      rw [hrender, foldlM_append_of_ok hnumber, List.foldlM_cons, calculateChar_blank, computed]
      rfl
  | paren e ih => exact ih hdigits h stack
  | bin o l r ihl ihr =>
      obtain ⟨hl, hr, hzero, hint⟩ := h
      have hoperator : [o.sym].foldlM calculateChar ⟨computed r :: computed l :: stack, 0⟩ =
          .ok ⟨stack, wrap (o.apply (computed l) (computed r))⟩ := by
        rw [List.foldlM_cons, calculateChar_sym, operate_sym o hzero hint]
        rfl
      have hdl := ihl (fun ds hds => hdigits ds (by simp [Expr.rpn, hds])) hl stack
      have hdr := ihr (fun ds hds => hdigits ds (by simp [Expr.rpn, hds])) hr
        (computed l :: stack)
      rw [Expr.rpn, render_append, render_append, List.append_assoc, foldlM_append_of_ok hdl,
        foldlM_append_of_ok hdr]
      exact foldlM_append_of_ok hoperator [ch ' ']

theorem digits_of_literals {e : Expression} (he : Literals e) {ds : Bytes}
    (hds : .inl ds ∈ e.rpn) : ∀ c ∈ ds, isdigit c = true := by
  induction e with
  | lit ds' =>
      obtain rfl : ds = ds' := by simpa [Expr.rpn] using hds
      exact he.2
  | paren e ih => exact ih he hds
  | bin o l r ihl ihr =>
      rw [Expr.rpn, List.append_assoc, List.mem_append, List.mem_append] at hds
      rcases hds with hds | hds | hds
      · exact ihl he.1 hds
      · exact ihr he.2 hds
      · simp at hds

/-- **The value of an expression is pushed.** -/
theorem foldlM_render {e : Expression} (he : Literals e) (hfits : Fits e) (stack : List ℤ) :
    (render e.rpn).foldlM calculateChar ⟨stack, 0⟩ = .ok ⟨e.value :: stack, 0⟩ := by
  obtain ⟨hdefined, hcomputed⟩ := hfits.defined
  rw [foldlM_rpn (fun ds => digits_of_literals he) hdefined, hcomputed]

/-- Blanks push zeros. -/
theorem foldlM_blanks (n : ℕ) (stack : List ℤ) :
    (List.replicate n (ch ' ')).foldlM calculateChar ⟨stack, 0⟩ =
      .ok ⟨List.replicate n 0 ++ stack, 0⟩ := by
  induction n generalizing stack with
  | zero => rfl
  | succ n ih =>
      rw [List.replicate_succ, List.foldlM_cons, calculateChar_blank]
      refine (ih _).trans ?_
      rw [List.replicate_succ', List.append_assoc]
      rfl

/-- The value stands between zeros. -/
theorem find?_value (m n : ℕ) (v : ℤ) :
    ((List.replicate m 0 ++ v :: List.replicate n 0).find? (· ≠ 0)).getD 0 = v := by
  by_cases hv : v = 0
  · subst hv
    simp [List.find?_append]
  · simp [List.find?_append, hv]

/-- What `cal_s` makes of a text behind its operands, with blanks around it. -/
theorem calS_text {e : Expression} (he : Literals e) (hfits : Fits e) {lead : Bytes}
    (hlead : lead = [] ∨ lead = [ch ' ']) (n : ℕ)
    (hlength : (lead ++ render e.rpn).length ≤ maxInt) :
    calS (lead ++ render e.rpn ++ List.replicate n (ch ' ')) =
      if (lead ++ render e.rpn ++ List.replicate n (ch ' ')).length ≤ maxInt then .ok e.value
      else .error .undefined := by
  obtain ⟨m, htake⟩ : ∃ m, (lead ++ render e.rpn ++ List.replicate n (ch ' ')).take (maxInt + 1) =
      lead ++ (render e.rpn ++ List.replicate m (ch ' ')) := by
    refine ⟨min (maxInt + 1 - (lead ++ render e.rpn).length) n, ?_⟩
    rw [List.take_append, List.take_of_length_le (by omega), List.take_replicate,
      List.append_assoc]
  obtain ⟨k, hk⟩ : ∃ k, lead.foldlM calculateChar ⟨[], 0⟩ =
      (.ok ⟨List.replicate k 0, 0⟩ : Except Stop Calculation) := by
    rcases hlead with rfl | rfl
    · exact ⟨0, rfl⟩
    · exact ⟨1, rfl⟩
  have hfold : (lead ++ (render e.rpn ++ List.replicate m (ch ' '))).foldlM calculateChar
      ⟨[], 0⟩ = .ok ⟨List.replicate m 0 ++ e.value :: List.replicate k 0, 0⟩ := by
    rw [foldlM_append_of_ok hk, foldlM_append_of_ok (foldlM_render he hfits _)]
    exact foldlM_blanks m _
  rw [calS, htake, hfold]
  split_ifs
  · exact congrArg Except.ok (find?_value _ k e.value)
  · rfl

/-- What the calculator makes of an expression that its string has room for. -/
theorem calculate_text {e : Expression} (hwf : WellFormed e) (hfits : Fits e) {size : ℕ}
    (hsize : room e ≤ size) (before : UInt8) :
    calculate size before e.text =
      if e.text.length ≤ maxInt ∧ size ≤ maxInt then some e.value else none := by
  obtain ⟨lead, hlead, htext⟩ := transplanted_text hwf before
  have hroom : (lead ++ render e.rpn).length ≤ size := by
    refine le_trans ?_ hsize
    rcases hlead with rfl | rfl
    · simp [room]
    · simp [room, Nat.add_comm]
  have hlength : (lead ++ render e.rpn ++
      List.replicate (size - (lead ++ render e.rpn).length) (ch ' ')).length = size := by
    rw [List.length_append, List.length_replicate]
    omega
  unfold calculate expTransplant
  simp only [htext]
  by_cases hshort : e.text.length ≤ maxInt ∧ (lead ++ render e.rpn).length ≤ maxInt ∧
      (lead ++ render e.rpn).length ≤ size
  · have hcal := calS_text hwf.literals hfits hlead (size - (lead ++ render e.rpn).length)
      hshort.2.1
    rw [hlength] at hcal
    rw [if_pos hshort]
    simp only [bind, Except.bind, hcal]
    by_cases hsmall : size ≤ maxInt
    · rw [if_pos hsmall, if_pos ⟨hshort.1, hsmall⟩]
    · rw [if_neg hsmall, if_neg fun h => hsmall h.2]
  · rw [if_neg hshort, if_neg fun h => hshort ⟨h.1, hroom.trans h.2, hroom⟩]
    rfl

/-- **When the calculator returns the value.**  A well-formed expression without spaces and signs,
all of whose values are `int`s and no divisor of which is zero, is evaluated under the usual
precedence, from left to right, exactly if it and the string that its translation goes to are no
longer than an `int` can count.  That string has room for the translation, and whatever byte is in
front of it. -/
theorem calculate_iff (e : Expression) (hwf : WellFormed e) (hfits : Fits e) (size : ℕ)
    (hsize : room e ≤ size) (before : UInt8) :
    calculate size before e.text = some e.value ↔ e.text.length ≤ maxInt ∧ size ≤ maxInt := by
  rw [calculate_text hwf hfits hsize]
  split_ifs with hshort
  · exact iff_of_true rfl hshort
  · exact iff_of_false (by simp) hshort

/-- `(1+2)*3-4/2`. -/
def sample : Expression :=
  .bin .sub
    (.bin .mul (.paren (.bin .add (.lit (ascii "1")) (.lit (ascii "2")))) (.lit (ascii "3")))
    (.bin .div (.lit (ascii "4")) (.lit (ascii "2")))

theorem wellFormed_sample : WellFormed sample :=
  ⟨by simp only [sample, Literals]; decide +kernel,
    by simp only [sample, Expr.Conventional]; decide +kernel⟩

theorem calculate_iff_sample :
    sample.text = ascii "(1+2)*3-4/2" ∧ calculate 100 0 sample.text = some 7 := by
  have hfits : Fits sample := by
    simp only [sample, Fits]
    decide +kernel
  refine ⟨by decide +kernel, ?_⟩
  exact (calculate_iff sample wellFormed_sample hfits 100 (by decide +kernel) 0).2
    ⟨by decide +kernel, by decide +kernel⟩

/-- `calculate_expression` itself has room for 100 characters. -/
theorem calculateExpression_text {e : Expression} (hwf : WellFormed e) (hfits : Fits e)
    (hroom : room e ≤ 100) (hshort : e.text.length ≤ maxInt) (before : UInt8) :
    calculateExpression before e.text = some e.value := by
  rw [calculateExpression, calculate_text hwf hfits hroom, if_pos ⟨hshort, by decide⟩]

/-- A number in so many parentheses. -/
def nested : ℕ → Expression
  | 0 => .lit [ch '1']
  | n + 1 => .paren (nested n)

theorem length_nested (n : ℕ) : (nested n).text.length = 2 * n + 1 := by
  induction n with
  | zero => rfl
  | succ n ih =>
      rw [nested, text, List.length_cons, List.length_append, ih, List.length_singleton]
      omega

theorem wellFormed_nested (n : ℕ) : WellFormed (nested n) := by
  induction n with
  | zero => exact ⟨⟨by simp, List.forall_mem_singleton.2 (by decide)⟩, trivial⟩
  | succ n ih => exact ⟨ih.literals, ih.conventional⟩

theorem fits_nested (n : ℕ) : Fits (nested n) := by
  induction n with
  | zero =>
      have hone : decimal [ch '1'] = 1 := by decide
      exact hone.trans_le (Nat.succ_le_succ (Nat.zero_le _))
  | succ n ih => exact ih

theorem room_nested (n : ℕ) : room (nested n) = 3 := by
  induction n with
  | zero => rfl
  | succ n ih => exact ih

/-- **An expression can be too long for the calculator.**  With enough parentheses around a `1`, the
loop counter overflows in front of the last one. -/
theorem calculate_overflow :
    ¬ ∀ (e : Expression), WellFormed e → Fits e → ∀ (size : ℕ) (before : UInt8),
      room e ≤ size → calculate size before e.text = some e.value := by
  intro hall
  obtain ⟨n, hn⟩ : ∃ n, maxInt < 2 * n + 1 := ⟨maxInt, by omega⟩
  have hsize : room (nested n) ≤ 100 := by
    rw [room_nested]
    decide
  have hright := hall _ (wellFormed_nested n) (fits_nested n) 100 0 hsize
  rw [calculate_text (wellFormed_nested n) (fits_nested n) hsize, length_nested,
    if_neg (by omega)] at hright
  exact absurd hright (by simp)

end Nifix
end BreUtils
