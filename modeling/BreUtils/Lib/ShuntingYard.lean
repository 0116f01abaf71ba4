/-
# Infix notation, and operators behind their operands

An expression over operands `α` and binary operators `O`, as it is written: parentheses
are part of it.  Its tokens say which tree is meant only together with a convention:
each operator has a precedence, and operators of one precedence associate to the left.
A tree is `Conventional` when it is the one that its tokens stand for under this
convention.

The shunting yard turns the tokens into the list of operands and operators in which each
operator stands behind its operands (`rpn`).  It holds back operators on a stack.  On the
tokens of a conventional expression, whatever is held back already, it puts out the
beginning of `rpn` and holds back the operators that are missing (`run_tokens`).  Tokens
that are no expression bring the yard to an end as well.  Nothing of them is lost: the
order that comes out holds each operand and each operator, and the left parentheses that
were never closed (`order_perm`).
-/

import Mathlib.Order.WithBot

namespace BreUtils
namespace Lib
namespace ShuntingYard

variable {α O : Type*}

/-- An expression as it is written. -/
inductive Expr (α O : Type*) where
  | lit (a : α)
  | paren (e : Expr α O)
  | bin (o : O) (l r : Expr α O)

/-- A token of the infix text. -/
inductive Token (α O : Type*) where
  | lit (a : α)
  | op (o : O)
  | left
  | right

namespace Expr

/-- The infix text of an expression. -/
def tokens : Expr α O → List (Token α O)
  | lit a => [.lit a]
  | paren e => .left :: (e.tokens ++ [.right])
  | bin o l r => l.tokens ++ .op o :: r.tokens

/-- Each operator behind its operands. -/
def rpn : Expr α O → List (α ⊕ O)
  | lit a => [.inl a]
  | paren e => e.rpn
  | bin o l r => l.rpn ++ r.rpn ++ [.inr o]

variable (prec : O → ℕ)

/-- How tightly the parts of an expression hold together. -/
def level : Expr α O → WithTop ℕ
  | bin o _ _ => .some (prec o)
  | _ => ⊤

/-- The tree that its tokens stand for. -/
def Conventional : Expr α O → Prop
  | lit _ => True
  | paren e => e.Conventional
  | bin o l r =>
      l.Conventional ∧ r.Conventional ∧ .some (prec o) ≤ l.level prec ∧
        .some (prec o) < r.level prec

end Expr

/-! ### The yard -/

/-- What is put out, and the operators and left parentheses (`none`) that are held back. -/
structure Yard (α O : Type*) where
  out : List (α ⊕ O)
  stack : List (Option O)

/-- The operators on top that are no longer held back, and the rest. -/
def release (p : O → Bool) : List (Option O) → List O × List (Option O)
  | some o :: stack =>
      if p o then (o :: (release p stack).1, (release p stack).2) else ([], some o :: stack)
  | stack => ([], stack)

/-- Operators are put out. -/
def Yard.emit (y : Yard α O) (p : O → Bool) : Yard α O :=
  ⟨y.out ++ (release p y.stack).1.map .inr, (release p y.stack).2⟩

variable (prec : O → ℕ)

/-- One token. -/
def step (y : Yard α O) : Token α O → Yard α O
  | .lit a => { y with out := y.out ++ [.inl a] }
  | .op o =>
      let y := y.emit fun p => prec o ≤ prec p
      { y with stack := some o :: y.stack }
  | .left => { y with stack := none :: y.stack }
  | .right =>
      let y := y.emit fun _ => true
      { y with stack := y.stack.tail }

/-- The tokens one by one. -/
def run (y : Yard α O) (ts : List (Token α O)) : Yard α O := ts.foldl (step prec) y

/-- No token changes nothing. -/
@[simp] theorem run_nil (y : Yard α O) : run prec y [] = y := rfl

/-- The first token goes first. -/
@[simp] theorem run_cons (y : Yard α O) (t : Token α O) (ts : List (Token α O)) :
    run prec y (t :: ts) = run prec (step prec y t) ts := rfl

/-- One text after another. -/
theorem run_append (y : Yard α O) (ts us : List (Token α O)) :
    run prec y (ts ++ us) = run prec (run prec y ts) us := List.foldl_append

/-- The stack shows no operator that would be released. -/
def Stops (p : O → Bool) (stack : List (Option O)) : Prop :=
  ∀ o rest, stack = some o :: rest → p o = false

/-- Where nothing may leave, nothing leaves. -/
theorem release_stops {p : O → Bool} {stack : List (Option O)} (h : Stops p stack) :
    release p stack = ([], stack) := by
  match stack with
  | [] => rfl
  | none :: _ => rfl
  | some o :: rest =>
      rw [release, h o rest rfl]
      rfl

/-- Operators that are all released, on top of a stack that is not. -/
theorem release_append {p : O → Bool} {ops : List O} {stack : List (Option O)}
    (hops : ∀ o ∈ ops, p o = true) (h : Stops p stack) :
    release p (ops.map some ++ stack) = (ops, stack) := by
  induction ops with
  | nil => exact release_stops h
  | cons o ops ih =>
      rw [List.forall_mem_cons] at hops
      rw [List.map_cons, List.cons_append, release, if_pos hops.1, ih hops.2]

variable {prec}

/-- The stack shows no operator that would take the expression's first operand for its own. -/
def Below (prec : O → ℕ) (level : WithTop ℕ) (stack : List (Option O)) : Prop :=
  ∀ o rest, stack = some o :: rest → .some (prec o) < level

/-- **What the yard makes of an expression**: it puts out the beginning of its `rpn`, and holds back
operators that bind as tightly as the expression does. -/
theorem run_tokens {e : Expr α O} (he : e.Conventional prec) {y : Yard α O}
    (hstack : Below prec (e.level prec) y.stack) :
    ∃ (out : List (α ⊕ O)) (ops : List O),
      run prec y e.tokens = ⟨y.out ++ out, ops.map some ++ y.stack⟩ ∧
        out ++ ops.map .inr = e.rpn ∧ ∀ o ∈ ops, e.level prec ≤ .some (prec o) := by
  induction e generalizing y with
  | lit a => exact ⟨[.inl a], [], rfl, rfl, by simp⟩
  | paren e ih =>
      have hnone : Below prec (e.level prec) (step prec y (.left : Token α O)).stack := by
        rintro o rest ⟨⟩
      obtain ⟨out, ops, hrun, hrpn, -⟩ := ih he hnone
      refine ⟨out ++ ops.map .inr, [], ?_, by rw [List.map_nil, List.append_nil]; exact hrpn,
        by simp⟩
      have hrelease : release (fun _ => true) (ops.map some ++ none :: y.stack) =
          (ops, none :: y.stack) := by
        refine release_append (fun _ _ => rfl) ?_
        rintro o rest ⟨⟩
      rw [Expr.tokens, run_cons, run_append, hrun, run_cons, run_nil]
      simp only [step, Yard.emit, hrelease, List.tail_cons, List.append_assoc, List.map_nil,
        List.nil_append]
  | bin o l r ihl ihr =>
      obtain ⟨hl, hr, hleft, hright⟩ := he
      have hbelow : Below prec (l.level prec) y.stack :=
        fun p rest hp => (hstack p rest hp).trans_le hleft
      obtain ⟨outl, opsl, hrunl, hrpnl, hopsl⟩ := ihl hl hbelow
      -- the operator releases all that `l` held back, and nothing of what was there before
      have hrelease : release (fun p => decide (prec o ≤ prec p)) (opsl.map some ++ y.stack) =
          (opsl, y.stack) := by
        refine release_append (fun p hp => ?_) fun p rest hp => ?_
        · exact decide_eq_true (WithTop.coe_le_coe.1 (hleft.trans (hopsl p hp)))
        · exact decide_eq_false (Nat.not_le.2 (WithTop.coe_lt_coe.1 (hstack p rest hp)))
      have hstep : step prec ⟨y.out ++ outl, opsl.map some ++ y.stack⟩ (.op o) =
          ⟨y.out ++ l.rpn, some o :: y.stack⟩ := by
        simp only [step, Yard.emit, hrelease, List.append_assoc, hrpnl]
      obtain ⟨outr, opsr, hrunr, hrpnr, hopsr⟩ :=
        ihr hr (y := ⟨y.out ++ l.rpn, some o :: y.stack⟩) (by
          rintro p rest ⟨⟩
          exact hright)
      refine ⟨l.rpn ++ outr, opsr ++ [o], ?_, ?_, ?_⟩
      · rw [Expr.tokens, run_append, hrunl, run_cons, hstep, hrunr]
        simp only [List.append_assoc, List.map_append, List.map_cons, List.map_nil,
          List.cons_append, List.nil_append]
      · rw [Expr.rpn, ← hrpnr]
        simp only [List.append_assoc, List.map_append, List.map_cons, List.map_nil]
      · intro p hp
        rcases List.mem_append.1 hp with hp | hp
        · exact hright.le.trans (hopsr p hp)
        · rw [List.mem_singleton.1 hp]
          exact le_refl _

/-! ### Any tokens -/

/-- What has been put out, and behind it what is held back. -/
def Yard.finish (y : Yard α O) : List (α ⊕ Option O) :=
  y.out.map (Sum.map id some) ++ y.stack.map .inr

/-- What the yard makes of any tokens, with the left parentheses that were never closed. -/
def order (prec : O → ℕ) (ts : List (Token α O)) : List (α ⊕ Option O) :=
  (run prec ⟨[], []⟩ ts).finish

/-- The operands and operators. -/
def contents : List (Token α O) → List (α ⊕ Option O)
  | [] => []
  | .lit a :: ts => .inl a :: contents ts
  | .op o :: ts => .inr (some o) :: contents ts
  | .left :: ts | .right :: ts => contents ts

/-- How many left parentheses are open behind the tokens, of `n` in front of them. -/
def unclosedFrom : ℕ → List (Token α O) → ℕ
  | n, [] => n
  | n, .left :: ts => unclosedFrom (n + 1) ts
  | n, .right :: ts => unclosedFrom (n - 1) ts
  | n, .lit _ :: ts | n, .op _ :: ts => unclosedFrom n ts

/-- The parentheses that are opened and not closed. -/
def unclosed (ts : List (Token α O)) : ℕ := unclosedFrom 0 ts

/-- What leaves the stack and what stays is what was on it. -/
theorem release_eq (p : O → Bool) (stack : List (Option O)) :
    (release p stack).1.map some ++ (release p stack).2 = stack := by
  induction stack with
  | nil => rfl
  | cons a stack ih =>
      cases a with
      | none => rfl
      | some o =>
          rw [release]
          split_ifs
          · exact congrArg (some o :: ·) ih
          · rfl

/-- What is put out is no longer held back. -/
theorem finish_emit (y : Yard α O) (p : O → Bool) : (y.emit p).finish = y.finish := by
  have hstack := congrArg (List.map (Sum.inr : Option O → α ⊕ Option O)) (release_eq p y.stack)
  rw [Yard.finish, Yard.finish, ← hstack]
  simp [Yard.emit]

/-- Without its operators on top, the stack shows a left parenthesis, if anything. -/
theorem release_all (stack : List (Option O)) :
    (release (fun _ => true) stack).2 = [] ∨
      ∃ rest, (release (fun _ => true) stack).2 = none :: rest := by
  induction stack with
  | nil => exact Or.inl rfl
  | cons a stack ih =>
      cases a with
      | none => exact Or.inr ⟨stack, rfl⟩
      | some o => exact ih

/-- How many left parentheses are held back. -/
def Yard.opened (y : Yard α O) : ℕ := y.stack.countP Option.isNone

/-- Operators that leave close no parenthesis. -/
theorem opened_emit (y : Yard α O) (p : O → Bool) : (y.emit p).opened = y.opened := by
  have hops : ((release p y.stack).1.map some).countP Option.isNone = 0 := by
    rw [List.countP_eq_zero]
    simp
  have hstack := congrArg (List.countP Option.isNone) (release_eq p y.stack)
  rwa [List.countP_append, hops, Nat.zero_add] at hstack

/-- A right parenthesis takes a left one away, if there is one. -/
theorem step_right (prec : O → ℕ) (y : Yard α O) :
    (y.opened = 0 ∧ (step prec y .right).opened = 0 ∧ (step prec y .right).finish = y.finish) ∨
      (y.opened = (step prec y .right).opened + 1 ∧
        y.finish.Perm (.inr none :: (step prec y .right).finish)) := by
  have hopened := opened_emit y fun _ => true
  have hfinish := finish_emit y fun _ => true
  generalize hemit : y.emit (fun _ => true) = z at hopened hfinish
  have hstep : step prec y .right = { z with stack := z.stack.tail } := by rw [← hemit]; rfl
  have hz : z.stack = (release (fun _ => true) y.stack).2 := by rw [← hemit]; rfl
  rw [hstep, ← hopened, ← hfinish]
  rcases release_all y.stack with hrest | ⟨rest, hrest⟩
  · rw [hrest] at hz
    refine Or.inl ⟨?_, ?_, ?_⟩
    · rw [Yard.opened, hz]
      rfl
    · rw [Yard.opened, hz]
      rfl
    · rw [Yard.finish, Yard.finish, hz]
      rfl
  · rw [hrest] at hz
    refine Or.inr ⟨?_, ?_⟩
    · rw [Yard.opened, Yard.opened, hz, List.countP_cons]
      rfl
    · rw [Yard.finish, Yard.finish, hz]
      exact List.perm_middle

/-- An operand will be in the output. -/
theorem step_lit (prec : O → ℕ) (y : Yard α O) (a : α) :
    (step prec y (.lit a)).opened = y.opened ∧
      (step prec y (.lit a)).finish.Perm (.inl a :: y.finish) := by
  refine ⟨rfl, ?_⟩
  rw [Yard.finish, step, List.map_append, List.append_assoc]
  exact List.perm_middle

/-- So will an operator. -/
theorem step_op (prec : O → ℕ) (y : Yard α O) (o : O) :
    (step prec y (.op o)).opened = y.opened ∧
      (step prec y (.op o)).finish.Perm (.inr (some o) :: y.finish) := by
  constructor
  · rw [← opened_emit y fun p => prec o ≤ prec p]
    rfl
  · rw [← finish_emit y fun p => prec o ≤ prec p]
    exact List.perm_middle

/-- A parenthesis is opened, and will be in the output unless it is closed. -/
theorem step_left (prec : O → ℕ) (y : Yard α O) :
    (step prec y .left).opened = y.opened + 1 ∧
      (step prec y .left).finish.Perm (.inr none :: y.finish) :=
  ⟨List.countP_cons, List.perm_middle⟩

/-- What is in the yard, and what comes in, is there afterwards. -/
theorem run_perm {l : List (α ⊕ Option O)} {ts : List (Token α O)} {y : Yard α O}
    (h : y.finish.Perm (l ++ List.replicate y.opened (.inr none))) :
    (run prec y ts).finish.Perm
      (l ++ contents ts ++ List.replicate (unclosedFrom y.opened ts) (.inr none)) := by
  induction ts generalizing y l with
  | nil => simpa [contents, unclosedFrom] using h
  | cons t ts ih =>
      -- an operand or an operator joins what is there
      have hjoin (x : α ⊕ Option O) (hopened : (step prec y t).opened = y.opened)
          (hfinish : (step prec y t).finish.Perm (x :: y.finish)) :
          (run prec (step prec y t) ts).finish.Perm (l ++ x :: contents ts ++
            List.replicate (unclosedFrom y.opened ts) (.inr none)) := by
        have hrest := ih (l := l ++ [x]) (y := step prec y t) (by
          rw [hopened, List.append_assoc]
          exact (hfinish.trans (h.cons x)).trans List.perm_middle.symm)
        rwa [hopened, List.append_assoc l] at hrest
      rw [run_cons]
      cases t with
      | lit a => exact hjoin (.inl a) (step_lit prec y a).1 (step_lit prec y a).2
      | op o => exact hjoin (.inr (some o)) (step_op prec y o).1 (step_op prec y o).2
      | left =>
          obtain ⟨hopened, hfinish⟩ := step_left prec y
          have hrest := ih (l := l) (y := step prec y .left) (by
            rw [hopened, List.replicate_succ]
            exact (hfinish.trans (h.cons _)).trans List.perm_middle.symm)
          rwa [hopened] at hrest
      | right =>
          rcases step_right prec y with ⟨hnone, hopened, hfinish⟩ | ⟨hopened, hfinish⟩
          · have hrest := ih (l := l) (y := step prec y .right) (by
              rwa [hopened, hfinish, ← hnone])
            rw [hopened] at hrest
            rwa [unclosedFrom, hnone]
          · rw [hopened, List.replicate_succ] at h
            have hrest := ih (l := l) (y := step prec y .right)
              ((hfinish.symm.trans (h.trans List.perm_middle)).cons_inv)
            rwa [unclosedFrom, hopened]

/-- **Nothing is lost.** -/
theorem order_perm (prec : O → ℕ) (ts : List (Token α O)) :
    (order prec ts).Perm (contents ts ++ List.replicate (unclosed ts) (.inr none)) :=
  run_perm (l := []) (y := ⟨[], []⟩) List.Perm.nil

end ShuntingYard
end Lib
end BreUtils
