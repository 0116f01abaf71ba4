/-
# The non-strict mode

`Parser::parse` without `is_strict` is meant to read what strict mode reads, with
comments and trailing commas added.  Both overloads clean the text into a variable
that is declared inside the `if` and shadows the one that is parsed, so the parser
always gets the empty text, and throws: there is no text on which the two modes
agree.
-/

import BreUtils.Json.Completeness
import BreUtils.Lib.Decorated

namespace BreUtils
namespace Json

open Lib Cpp
open Rfc8259 (Number)

variable {D : Type} (rt : Runtime D)

/-- The non-strict mode parses the empty text, and throws at its end. -/
theorem parse_nonStrict (s : Bytes) : parse rt s false = .error .outOfRange := rfl

/-- Whatever the text, the parser is given the empty one. -/
theorem parseInto_nonStrict (s : Bytes) (root : Value D) :
    parseInto rt s root false = (root, .error .outOfRange) := rfl

/-- What the non-strict mode returns for `s'` is equal to what strict mode returns for `s`. -/
def Agrees (s s' : Bytes) : Prop :=
  ∃ v w, parse rt s' false = .ok v ∧ parse rt s true = .ok w ∧ v.beq rt w = true

/-- The same for the overload that writes to `root`. -/
def AgreesInto (s s' : Bytes) (root : Value D) : Prop :=
  ∃ v w, parseInto rt s' root false = (v, .ok ()) ∧ parseInto rt s root true = (w, .ok ()) ∧
    v.beq rt w = true

/-- **The two modes agree nowhere**: not on a text and a decoration of it, nor on any other two. -/
theorem nonStrict_never_agrees (s s' : Bytes) (root : Value D) :
    ¬Agrees rt s s' ∧ ¬AgreesInto rt s s' root := by
  constructor
  · rintro ⟨v, w, h, -⟩
    rw [parse_nonStrict] at h
    cases h
  · rintro ⟨v, w, h, -⟩
    rw [parseInto_nonStrict] at h
    cases h

/-- `[1,]` decorates `[1]`; strict mode reads `[1]`, and the non-strict mode throws on `[1,]`. -/
theorem nonStrict_tailComma :
    Decorates (ascii "[1]") (ascii "[1,]") ∧
      parse Runtime.exact (ascii "[1]") true = .ok (.array [.int 1]) ∧
      ¬Agrees Runtime.exact (ascii "[1]") (ascii "[1,]") := by
  have one : Number.Valid ⟨false, ascii "1", none, none⟩ :=
    ⟨Or.inr ⟨_, _, rfl, by decide, by decide, by simp⟩, by simp, by simp⟩
  have h : IsText decorated [.text (ch '['), .text (ch '1'), .comma, .text (ch ']')] () :=
    ⟨_, [], .nil _, .array (.lastElement (.nil _) (.number (v := ()) ⟨_, one, rfl⟩) (.nil _)
      (Or.inr ⟨_, rfl, .nil _⟩)), .nil _⟩
  refine ⟨⟨_, h, rfl, rfl⟩, by rfl, ?_⟩
  rintro ⟨v, w, h, -⟩
  rw [parse_nonStrict] at h
  cases h

end Json
end BreUtils
