/-
# Which exceptions leave `Parser::parse`

Every failing branch of the parser goes through `throwException`, which reads the
text around the cursor to quote it.  It needs a byte under the cursor and one
behind it: at the very end of the text `substr(position_ + 1, ..)` throws
`std::out_of_range` in place of the `JsonParseException`.  The non-strict mode
never gets further than that, as it parses the empty text.
-/

import BreUtils.Json.NonStrict

namespace BreUtils
namespace Json

open Lib Cpp

variable {D : Type} {rt : Runtime D}

/-- `throwException` can quote the text around `position`: there is a byte, and the beginning of
the quote is still a position of the text after its way through an `int`. -/
def Reportable (s : Bytes) (position : ℕ) : Prop :=
  position < s.length ∧ (20 < position → toSize (toInt (position - 20)) ≤ s.length)

/-- The way through an `int` matters for no text of less than 2 GiB. -/
theorem reportable_iff {s : Bytes} (h : s.length < 2 ^ 31) {position : ℕ} :
    Reportable s position ↔ position < s.length := by
  refine ⟨fun h => h.1, fun hp => ⟨hp, fun _ => ?_⟩⟩
  rw [toSize, toInt, Int.bmod_eq_of_le (by omega) (by omega)]
  omega

/-- **What `throwException` throws**: what it means to, or what goes wrong on the way. -/
theorem throwException_eq {s e : Bytes} {p : ℕ} (h : At s p e) (msg : Bytes) :
    (Reportable s p → ∃ what, throwException s p msg = .jsonParseException what) ∧
      (¬Reportable s p → throwException s p msg = .outOfRange) := by
  unfold Reportable throwException
  simp only [charAt_at h, ok_bind, substr]
  by_cases hfar : 20 < p
  · by_cases hstart : toSize (toInt (p - 20)) ≤ s.length
    · by_cases hlt : p < s.length
      · simp [hfar, hstart, hlt, show p + 1 ≤ s.length from hlt]
      · simp [hfar, hstart, hlt, show ¬p + 1 ≤ s.length from hlt]
    · simp [hfar, hstart]
  · by_cases hlt : p < s.length
    · simp [hfar, hlt, show p + 1 ≤ s.length from hlt, toSize]
    · simp [hfar, hlt, show ¬p + 1 ≤ s.length from hlt, toSize]

/-- `parse` keeps to what its callers are told: a value, or a `JsonParseException`. -/
def KeepsContract (r : Except Exn (Value D)) : Prop :=
  (∃ v, r = .ok v) ∨ ∃ what, r = .error (.jsonParseException what)

/-- **When `parse` throws nothing but `JsonParseException`.**  It does in strict mode, on the texts
without an error and on those that have it where `throwException` can quote it: not at the end. -/
theorem parse_keepsContract_iff (rt : Runtime D) (s : Bytes) (is_strict : Bool) :
    KeepsContract (parse rt s is_strict) ↔
      is_strict = true ∧ ∀ e, FirstError rt s e → Reportable s (s.length - e.length) := by
  cases is_strict with
  | false => simp [KeepsContract, parse_nonStrict]
  | true =>
      rcases accepted_or_fails rt s with ⟨s₁, v, t, hs, hv⟩ | ⟨e, he⟩
      · have hok := parse_of_derives hs hv
        refine iff_of_true (Or.inl ⟨v, hok⟩) ⟨rfl, fun e he => ?_⟩
        obtain ⟨q, msg, -, herr⟩ := parse_of_firstError he
        rw [herr] at hok
        cases hok
      · obtain ⟨q, msg, hat, herr⟩ := parse_of_firstError he
        have hthrow := throwException_eq hat msg
        constructor
        · intro h
          refine ⟨rfl, fun e' he' => ?_⟩
          obtain ⟨q', msg', hat', herr'⟩ := parse_of_firstError he'
          rw [← hat'.add_length, Nat.add_sub_cancel]
          by_contra hnot
          rw [herr', (throwException_eq hat' msg').2 hnot] at h
          simp [KeepsContract] at h
        · rintro ⟨-, h⟩
          have hrep := h e he
          rw [← hat.add_length, Nat.add_sub_cancel] at hrep
          obtain ⟨what, hwhat⟩ := hthrow.1 hrep
          exact Or.inr ⟨what, by rw [herr, hwhat]⟩

/-- **A truncated text breaks the contract**: at the end of `[1` the parser looks for a `,` or a
`]`, and what it throws is `std::out_of_range`. -/
theorem parse_truncated_outOfRange :
    parse Runtime.exact (ascii "[1") true = .error .outOfRange ∧
      ¬KeepsContract (parse Runtime.exact (ascii "[1") true) := by
  have h : parse Runtime.exact (ascii "[1") true = .error .outOfRange := by rfl
  refine ⟨h, ?_⟩
  rw [h]
  simp [KeepsContract]

end Json
end BreUtils
