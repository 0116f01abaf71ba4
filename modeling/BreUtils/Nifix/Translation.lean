/-
# What `exp_transplant` makes of any text

A text over digits, operators and parentheses is a list of tokens, where a number is as
many digits as follow one another.  Whether it is an expression or not, `exp_transplant`
does with it what the shunting yard does with the tokens (`transplanted_eq`): it writes
the numbers and the operators in the order in which the yard puts them out, and behind
them what the yard still holds back, with the left parentheses that were never closed.

In front there is a blank when `exp_transplant` looks back in front of its output, and
finds no blank there.  `cal_s` pushes a zero for it, as for a number without digits.
-/

import BreUtils.Nifix.Buffer

namespace BreUtils
namespace Nifix

open Lib Cpp ShuntingYard

/-! ### The tokens -/

/-- The operators and parentheses. -/
def marks : Bytes := ascii "+-*/()"

/-- The operator that is written so. -/
def operator (c : UInt8) : Op :=
  if c = ch '+' then .add else if c = ch '-' then .sub else if c = ch '*' then .mul else .div

/-- The token of an operator or a parenthesis. -/
def token (c : UInt8) : Token Bytes Op :=
  if c = ch '(' then .left else if c = ch ')' then .right else .op (operator c)

/-- A digit in front of the tokens. -/
def digit (c : UInt8) : List (Token Bytes Op) → List (Token Bytes Op)
  | .lit ds :: ts => .lit (c :: ds) :: ts
  | ts => .lit [c] :: ts

/-- The tokens of a text. -/
def tokens : Bytes → List (Token Bytes Op)
  | [] => []
  | c :: cs => if isdigit c then digit c (tokens cs) else token c :: tokens cs

/-- What the yard puts out: a number, an operator, or a left parenthesis (`none`). -/
abbrev Item := Bytes ⊕ Option Op

/-- An item, as it is written. -/
def entry : Item → Bytes
  | .inl ds => ds ++ [ch ' ']
  | .inr a => [symbol a, ch ' ']

def spell (items : List Item) : Bytes := items.flatMap entry

/-- The items that are read in front of the text: a number without digits, if neither of the first
two characters is a digit, and the byte in front of the output is no blank. -/
def front (before : UInt8) (str : Bytes) : List Item :=
  if before ≠ ch ' ' ∧ ∀ c ∈ str.take 2, isdigit c = false then [.inl []] else []

/-- The order in which the numbers are read and the operators applied. -/
def sequence (before : UInt8) (str : Bytes) : List Item :=
  front before str ++ order Op.prec (tokens str)

/-- A text over digits, operators and parentheses. -/
def Legible (str : Bytes) : Prop := ∀ c ∈ str, isdigit c = true ∨ c ∈ marks

variable {before c : UInt8} {i : ℕ} {lead cs ds str rest : Bytes} {s : Transplant}
  {y : Yard Bytes Op}

@[simp] theorem token_sym (o : Op) : token o.sym = .op o := by cases o <;> rfl

theorem mark_cases (h : c ∈ marks) : c = ch '(' ∨ c = ch ')' ∨ ∃ o : Op, c = o.sym := by
  have hsix : c = ch '+' ∨ c = ch '-' ∨ c = ch '*' ∨ c = ch '/' ∨ c = ch '(' ∨ c = ch ')' := by
    simpa [marks, ascii] using h
  rcases hsix with rfl | rfl | rfl | rfl | rfl | rfl
  · exact Or.inr (Or.inr ⟨.add, rfl⟩)
  · exact Or.inr (Or.inr ⟨.sub, rfl⟩)
  · exact Or.inr (Or.inr ⟨.mul, rfl⟩)
  · exact Or.inr (Or.inr ⟨.div, rfl⟩)
  · exact Or.inl rfl
  · exact Or.inr (Or.inl rfl)

/-- The number that these digits are, if any. -/
def number (ds : Bytes) : List (Token Bytes Op) := if ds = [] then [] else [.lit ds]

theorem digit_token (d c : UInt8) (ts : List (Token Bytes Op)) :
    digit d (token c :: ts) = .lit [d] :: token c :: ts := by
  unfold token
  split_ifs <;> rfl

theorem tokens_append (hds : ∀ c ∈ ds, isdigit c = true)
    (hrest : ∀ c ∈ rest.head?, isdigit c = false) :
    tokens (ds ++ rest) = number ds ++ tokens rest := by
  induction ds with
  | nil => rfl
  | cons d ds ih =>
      rw [List.forall_mem_cons] at hds
      rw [List.cons_append, tokens, if_pos hds.1, ih hds.2]
      cases ds with
      | nil =>
          cases rest with
          | nil => rfl
          | cons c rest =>
              have hc : tokens (c :: rest) = token c :: tokens rest :=
                if_neg (by simp [hrest c rfl])
              rw [hc]
              exact digit_token d c _
      | cons e ds => rfl

/-! ### The loop, on any text -/

/-- A number goes out, if there is one. -/
theorem Follows.number (h : Follows lead s y) (hready : spaced s.str2 = s.str2)
    (hds : ∀ c ∈ ds, isdigit c = true) :
    Follows lead { s with str2 := s.str2 ++ ds } (run Op.prec y (number ds)) := by
  unfold Nifix.number
  split_ifs with hnil
  · rw [hnil, List.append_nil]
    exact h
  · exact h.lit hready hnil hds

/-- **The loop does with a character what the yard does with its token.** -/
theorem Follows.token (h : Follows lead s y) (hc : c ∈ marks)
    (hblank : (if i ≠ 0 then blank before s.str2 else s.str2) = spaced s.str2) :
    Follows lead (transplantChar before i c s) (step Op.prec y (token c)) ∧
      spaced (transplantChar before i c s).str2 = (transplantChar before i c s).str2 := by
  have hready := spaced_append_render s.str2
  rcases mark_cases hc with rfl | rfl | ⟨o, rfl⟩
  · obtain ⟨hfollows, hstr2⟩ := h.left hblank
    refine ⟨hfollows, ?_⟩
    rw [hstr2]
    simpa [render] using hready []
  · obtain ⟨hfollows, hstr2⟩ := h.right hblank
    refine ⟨hfollows, ?_⟩
    rw [hstr2]
    exact hready _
  · rw [token_sym]
    exact h.op o hblank

/-- Behind what is written, or behind a blank, it makes no difference which byte is in front. -/
theorem blank_of_settled {str2 : Bytes} (h : str2 ≠ [] ∨ before = ch ' ') :
    blank before str2 = spaced str2 := by
  rcases h with hne | rfl
  · exact blank_eq_spaced hne before
  · by_cases hnil : str2 = []
    · rw [hnil]
      rfl
    · exact blank_eq_spaced hnil _

/-- **The loop does with a text what the yard does with its tokens**, where `ds` are the digits that
have been copied since the last token, and nothing looks back in front of the output. -/
theorem Follows.text (h : Follows lead s y) (hready : spaced s.str2 = s.str2)
    (hds : ∀ c ∈ ds, isdigit c = true) (hcs : Legible cs) (hi : i ≠ 0)
    (hsettled : s.str2 ++ ds ≠ [] ∨ before = ch ' ') :
    Follows lead (transplantFrom before i cs { s with str2 := s.str2 ++ ds })
      (run Op.prec y (tokens (ds ++ cs))) := by
  induction cs generalizing i s y ds with
  | nil =>
      rw [tokens_append hds (by simp), tokens, List.append_nil]
      exact h.number hready hds
  | cons c cs ih =>
      obtain ⟨hc, hcs⟩ := List.forall_mem_cons.1 hcs
      by_cases hdigit : isdigit c = true
      · have hall : ∀ d ∈ ds ++ [c], isdigit d = true := by
          intro d hd
          rcases List.mem_append.1 hd with hd | hd
          · exact hds d hd
          · rwa [List.mem_singleton.1 hd]
        rw [transplantFrom, transplantChar, if_pos hdigit, List.append_assoc,
          List.append_cons ds c cs]
        exact ih h hready hall hcs (Nat.succ_ne_zero i) (hsettled.imp_left fun hne => by simp)
      · have hmark := hc.resolve_left hdigit
        have hhead : ∀ d ∈ (c :: cs).head?, isdigit d = false := by
          rintro d ⟨⟩
          simpa using hdigit
        have hblank : (if i ≠ 0 then blank before (s.str2 ++ ds) else s.str2 ++ ds) =
            spaced (s.str2 ++ ds) := (if_pos hi).trans (blank_of_settled hsettled)
        have hnumber := h.number hready hds
        obtain ⟨hchar, hready'⟩ := hnumber.token hmark hblank
        have hgrows := prefix_transplantChar before i c { s with str2 := s.str2 ++ ds }
        have hsettled' :
            (transplantChar before i c { s with str2 := s.str2 ++ ds }).str2 ++ [] ≠ [] ∨
              before = ch ' ' := by
          refine hsettled.imp_left fun hne hnil => hne ?_
          rw [List.append_nil] at hnil
          exact List.prefix_nil.1 (hnil ▸ hgrows)
        have hnone : ∀ d ∈ ([] : Bytes), isdigit d = true := List.forall_mem_nil _
        have hrest := ih hchar hready' hnone hcs (Nat.succ_ne_zero i) hsettled'
        rw [List.append_nil, List.nil_append] at hrest
        have htokens : tokens (c :: cs) = Nifix.token c :: tokens cs := if_neg hdigit
        rw [transplantFrom, tokens_append hds hhead, htokens, run_append, run_cons]
        exact hrest

/-! ### The output -/

theorem spell_append (items more : List Item) : spell (items ++ more) = spell items ++ spell more :=
  List.flatMap_append

theorem spell_finish (y : Yard Bytes Op) :
    spell y.finish = render y.out ++ y.stack.flatMap fun a => [symbol a, ch ' '] := by
  rw [Yard.finish, spell_append, spell, spell, List.flatMap_map, List.flatMap_map]
  refine congrArg (· ++ _) (List.flatMap_congr fun a _ => ?_)
  cases a <;> rfl

/-- The end of `exp_transplant`, behind its loop. -/
def flush (before : UInt8) (s : Transplant) : Bytes :=
  (popWhile (fun _ => true) s.stack (blank before s.str2)).str2

/-- What is held back goes out. -/
theorem Follows.flush (h : Follows lead s y) (hsettled : s.str2 ≠ [] ∨ before = ch ' ') :
    flush before s = lead ++ spell y.finish := by
  rw [Nifix.flush, blank_of_settled hsettled, h.str2, h.stack, popWhile_all, spell_finish,
    List.append_assoc]

/-- The output, from where nothing looks back in front of it. -/
theorem Follows.transplanted (h : Follows lead s y) (hready : spaced s.str2 = s.str2)
    (hds : ∀ c ∈ ds, isdigit c = true) (hcs : Legible cs) (hi : i ≠ 0)
    (hsettled : s.str2 ++ ds ≠ [] ∨ before = ch ' ') :
    Nifix.flush before (transplantFrom before i cs { s with str2 := s.str2 ++ ds }) =
      lead ++ spell (run Op.prec y (tokens (ds ++ cs))).finish := by
  have hgrows := prefix_transplantFrom before i cs { s with str2 := s.str2 ++ ds }
  refine (h.text hready hds hcs hi hsettled).flush (hsettled.imp_left fun hne hnil => hne ?_)
  exact List.prefix_nil.1 (hnil ▸ hgrows)

/-- When a blank is written in front, it could have been there before. -/
theorem flush_of_front (hbefore : before ≠ ch ' ') (hcs : ∀ c ∈ cs.head?, isdigit c = false)
    (hi : i ≠ 0) (stack : List UInt8) :
    flush before (transplantFrom before i cs ⟨stack, []⟩) =
      flush before (transplantFrom before i cs ⟨stack, [ch ' ']⟩) := by
  have hblank : blank before [] = blank before [ch ' '] := by simp [blank, behind, hbefore]
  cases cs with
  | nil => rw [transplantFrom, transplantFrom, flush, flush, hblank]
  | cons c cs =>
      have hc : isdigit c = false := hcs c rfl
      have hchar : transplantChar before i c ⟨stack, []⟩ =
          transplantChar before i c ⟨stack, [ch ' ']⟩ := by
        simp only [transplantChar, hc, hblank, if_pos hi]
        rfl
      rw [transplantFrom, transplantFrom, hchar]

/-- The output, from behind a first character that is no digit. -/
theorem flush_from_one (h : Follows [] s y) (hnil : s.str2 = []) (hc : isdigit c = false)
    (hcs : Legible cs) : flush before (transplantFrom before 1 cs s) =
      spell (front before (c :: cs)) ++ spell (run Op.prec y (tokens cs)).finish := by
  obtain ⟨stack, str2⟩ := s
  obtain rfl : str2 = [] := hnil
  have hnone : ∀ d ∈ ([] : Bytes), isdigit d = true := List.forall_mem_nil _
  by_cases hhead : ∀ d ∈ cs.head?, isdigit d = false
  · by_cases hbefore : before = ch ' '
    · rw [front, if_neg (by simp [hbefore])]
      exact h.transplanted rfl hnone hcs one_ne_zero (Or.inr hbefore)
    · have hfront : front before (c :: cs) = [.inl []] := by
        refine if_pos ⟨hbefore, List.forall_mem_cons.2 ⟨hc, fun d hd => hhead d ?_⟩⟩
        cases cs with
        | nil => exact absurd hd List.not_mem_nil
        | cons d cs => simpa [eq_comm] using hd
      have hout : render y.out = [] := h.str2.symm
      have hlead : Follows [ch ' '] ⟨stack, [ch ' ']⟩ y := by
        refine ⟨h.stack, ?_⟩
        rw [hout]
        rfl
      rw [flush_of_front hbefore hhead one_ne_zero, hfront]
      exact hlead.transplanted rfl hnone hcs one_ne_zero (Or.inl (by simp))
  · cases cs with
    | nil => simp at hhead
    | cons d cs =>
        have hd : isdigit d = true := by simpa using hhead
        have hone : ∀ e ∈ [d], isdigit e = true := List.forall_mem_singleton.2 hd
        have hfront : front before (c :: d :: cs) = [] := if_neg (by simp [hd])
        rw [transplantFrom, transplantChar, if_pos hd, hfront]
        exact h.transplanted rfl hone (List.forall_mem_cons.1 hcs).2 two_ne_zero (Or.inl (by simp))

/-- **What `exp_transplant` writes**, whatever is in the text and in front of the output. -/
theorem transplanted_eq (before : UInt8) (hstr : Legible str) :
    transplanted before str = spell (sequence before str) := by
  have hstart : Follows [] ⟨[], []⟩ ⟨[], []⟩ := ⟨rfl, rfl⟩
  have hflush : transplanted before str = flush before (transplantFrom before 0 str ⟨[], []⟩) := rfl
  rw [hflush, sequence, spell_append, order]
  cases str with
  | nil =>
      by_cases hbefore : before = ch ' '
      · simp [front, transplantFrom, flush, blank, behind, hbefore, spell, tokens, Yard.finish,
          popWhile]
      · simp [front, transplantFrom, flush, blank, behind, hbefore, spell, tokens, Yard.finish,
          popWhile, entry]
  | cons c cs =>
      obtain ⟨hc, hcs⟩ := List.forall_mem_cons.1 hstr
      rw [transplantFrom]
      by_cases hdigit : isdigit c = true
      · have hchar : transplantChar before 0 c ⟨[], []⟩ = ⟨[], [c]⟩ := if_pos hdigit
        have hfront : front before (c :: cs) = [] := if_neg (by simp [hdigit])
        have hone : ∀ d ∈ [c], isdigit d = true := List.forall_mem_singleton.2 hdigit
        rw [hchar, hfront]
        exact hstart.transplanted rfl hone hcs one_ne_zero (Or.inl (by simp))
      · have hfirst : Follows [] (transplantChar before 0 c ⟨[], []⟩)
            (step Op.prec ⟨[], []⟩ (token c)) := (hstart.token (hc.resolve_left hdigit) rfl).1
        have htokens : tokens (c :: cs) = token c :: tokens cs := if_neg hdigit
        rw [Bool.not_eq_true] at hdigit
        rw [htokens, run_cons]
        exact flush_from_one hfirst (str2_first before hdigit) hdigit hcs

end Nifix
end BreUtils
