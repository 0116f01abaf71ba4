/-
# JSON texts with comments and trailing commas

A decorated text is a JSON text of RFC 8259 with comments inserted where white
space is allowed, and a comma before closing brackets of containers that are not
empty.  `decorated` is the grammar of such texts over an alphabet that marks what
was inserted: leaving the insertions out gives back the original
(`JsonText.of_decorates`), and a text without insertions is one of them
(`JsonText.decorates_self`).
-/

import BreUtils.Lib.Rfc8259

namespace BreUtils
namespace Lib

open Rfc8259

/-- A byte of a decorated text: of the original, a comma before a closing bracket, or a byte of an
inserted comment or blank. -/
inductive Mark where
  | text (c : UInt8)
  | comma
  | comment (c : UInt8)

namespace Mark

/-- What is left when the insertions are taken out. -/
def original : List Mark → List UInt8
  | [] => []
  | text c :: s => c :: original s
  | comma :: s => original s
  | comment _ :: s => original s

/-- What is read when they are left in. -/
def written : List Mark → List UInt8
  | [] => []
  | text c :: s => c :: written s
  | comma :: s => ch ',' :: written s
  | comment c :: s => c :: written s

/-- Plain text counts to the original. -/
@[simp] theorem original_text (w : List UInt8) (s : List Mark) :
    original (w.map text ++ s) = w ++ original s := by
  induction w with
  | nil => rfl
  | cons c w ih => simp [original, ih]

/-- A comment does not. -/
@[simp] theorem original_comment (w : List UInt8) (s : List Mark) :
    original (w.map comment ++ s) = original s := by
  induction w with
  | nil => rfl
  | cons c w ih => simp [original, ih]

/-- Plain text is written as it is. -/
theorem written_text (w : List UInt8) : written (w.map text) = w := by
  induction w with
  | nil => rfl
  | cons c w ih => simp [written, ih]

end Mark

/-- A comment: `//` up to the end of the line, or `/*` up to the first `*/`. -/
inductive Comment : List UInt8 → Prop
  | line {body : List UInt8} : ch '\n' ∉ body → Comment (ascii "//" ++ body ++ [ch '\n'])
  | block {body : List UInt8} : ¬ascii "*/" <:+: body →
      Comment (ascii "/*" ++ body ++ ascii "*/")

/-- White space of the original with insertions anywhere in it. -/
inductive DecoratedGap : List Mark → List Mark → Prop
  | nil (s : List Mark) : DecoratedGap s s
  | ws {c : UInt8} {s t : List Mark} : isWs c = true → DecoratedGap s t →
      DecoratedGap (.text c :: s) t
  | blank {c : UInt8} {s t : List Mark} : isWs c = true → DecoratedGap s t →
      DecoratedGap (.comment c :: s) t
  | comment {w : List UInt8} {s t : List Mark} : Comment w → DecoratedGap s t →
      DecoratedGap (w.map .comment ++ s) t

/-- **The grammar of decorated texts.** -/
def decorated : Language Mark Unit Unit where
  byte := .text
  gap := DecoratedGap
  trail s t := s = t ∨ ∃ u, s = .comma :: u ∧ DecoratedGap u t
  number s _ t := ∃ n : Number, n.Valid ∧ s = n.text.map .text ++ t
  string s _ t := ∃ is : List Item, (∀ i ∈ is, i.Valid) ∧ s = (quote is).map .text ++ t
  null := ()
  bool _ := ()
  ofString _ := ()
  array _ := ()
  object _ _ := True

/-- **`s'` is `s` with comments and trailing commas inserted.** -/
def Decorates (s s' : List UInt8) : Prop :=
  ∃ m, IsText decorated m () ∧ Mark.original m = s ∧ Mark.written m = s'

/-- Without its comments a decorated gap is white space. -/
theorem ws_of_decoratedGap {s t : List Mark} (h : DecoratedGap s t) :
    Ws (Mark.original s) (Mark.original t) := by
  induction h with
  | nil s => exact ⟨[], by simp, rfl⟩
  | @ws c s t hc _ ih =>
      obtain ⟨w, hw, heq⟩ := ih
      refine ⟨c :: w, fun d hd => ?_, by rw [Mark.original, heq]; rfl⟩
      exact (List.mem_cons.1 hd).elim (fun h => h ▸ hc) (hw d)
  | blank _ _ ih => exact ih
  | comment _ _ ih =>
      rw [Mark.original_comment]
      exact ih

/-- Taking the insertions out maps decorated texts to texts of RFC 8259. -/
theorem original_morphism : Morphism decorated (rfc8259 bareSyntax) Mark.original where
  byte _ _ := rfl
  gap := ws_of_decoratedGap
  trail {s s₁ t} h h' := by
    refine ⟨Mark.original t, ?_, rfl⟩
    obtain ⟨w, hw, heq⟩ := ws_of_decoratedGap h
    rcases h' with rfl | ⟨u, rfl, h'⟩
    · exact ⟨w, hw, heq⟩
    · obtain ⟨w', hw', heq'⟩ := ws_of_decoratedGap h'
      refine ⟨w ++ w', fun c hc => (List.mem_append.1 hc).elim (hw c) (hw' c), ?_⟩
      rw [heq, Mark.original, heq', List.append_assoc]
  number := by
    rintro s v t ⟨n, hn, rfl⟩ -
    exact ⟨n, hn, trivial, Mark.original_text ..⟩
  string := by
    rintro s k t ⟨is, his, rfl⟩
    exact ⟨is, his, trivial, Mark.original_text ..⟩
  null := rfl
  bool := rfl
  ofString := rfl
  array := rfl
  object h := h

/-- What is decorated is a JSON text. -/
theorem JsonText.of_decorates {s s' : List UInt8} (h : Decorates s s') : JsonText s := by
  obtain ⟨m, hm, rfl, -⟩ := h
  exact hm.map original_morphism rfl

/-- White space is a gap without comments. -/
theorem decoratedGap_of_ws {s t : List UInt8} (h : Ws s t) :
    DecoratedGap (s.map .text) (t.map .text) := by
  obtain ⟨w, hw, rfl⟩ := h
  induction w with
  | nil => exact .nil _
  | cons c w ih =>
      exact .ws (hw c (List.mem_cons_self ..)) (ih fun d hd => hw d (List.mem_cons_of_mem _ hd))

/-- Texts of RFC 8259 are decorated texts without insertions. -/
theorem text_morphism : Morphism (rfc8259 bareSyntax) decorated (List.map Mark.text) where
  byte _ _ := rfl
  gap := decoratedGap_of_ws
  trail {s s₁ t} h h' := ⟨s₁.map .text, decoratedGap_of_ws h, Or.inl (congrArg _ h')⟩
  number := by
    rintro s v t ⟨n, hn, -, rfl⟩ -
    exact ⟨n, hn, List.map_append⟩
  string := by
    rintro s k t ⟨is, his, -, rfl⟩
    exact ⟨is, his, List.map_append⟩
  null := rfl
  bool := rfl
  ofString := rfl
  array := rfl
  object h := h

/-- A JSON text is decorated with nothing. -/
theorem JsonText.decorates_self {s : List UInt8} (h : JsonText s) : Decorates s s := by
  refine ⟨s.map .text, IsText.map text_morphism rfl h, ?_, Mark.written_text s⟩
  simpa [Mark.original] using Mark.original_text s []

end Lib
end BreUtils
