/-
# Which number literals become infinite

`parseNumber` answers the `std::out_of_range` of `std::stod` with an infinity,
wherever it comes from.  libstdc++ throws it at both ends of the range of a
double: the literal writes a number that is too large in magnitude, or one that
is not zero and too small.  `Range` says which magnitudes these are, `ThrowsOutside`
that the platform throws there and nowhere else; the numbers are those that the
literals write exactly, as rational numbers.
-/

import BreUtils.Json.Completeness
import Mathlib.Tactic.NormNum
import Mathlib.Tactic.Ring

namespace BreUtils
namespace Json

open Lib Cpp
open Rfc8259 (Number fracText expText)

variable {D : Type} {rt : Runtime D}

/-- The magnitudes that a double does not hold: those above its largest value, and those that are
lost below its smallest. -/
structure Range where
  tooLarge : ℚ → Prop
  tooSmall : ℚ → Prop
  one_le : ∀ q, tooLarge q → 1 ≤ q
  lt_one : ∀ q, tooSmall q → q < 1

/-- What libstdc++ says of `std::stod`: it throws `std::out_of_range` exactly for the literals
outside the range, and otherwise returns no infinity. -/
structure ThrowsOutside (rt : Runtime D) (R : Range) : Prop where
  out_of_range : ∀ n : Number, n.Valid → (stod rt n.text = .error .outOfRange ↔
    R.tooLarge |n.value| ∨ n.value ≠ 0 ∧ R.tooSmall |n.value|)
  finite : ∀ (n : Number) (d : D), n.Valid → stod rt n.text = .ok d →
    d ≠ rt.infinity ∧ d ≠ rt.neg rt.infinity
  neg_ne : rt.neg rt.infinity ≠ rt.infinity

/-- What strict parsing makes of a literal: in the middle of a text, and where a text starts with
it. -/
def Yields (rt : Runtime D) (n : Number) (v : Value D) : Prop :=
  (∀ input p t, At input p (n.text ++ t) → MayFollow t →
    parseNumber rt input p = .ok (v, p + n.text.length)) ∧
  ∀ s t, Spaces s (n.text ++ t) → MayFollow t → parse rt s true = .ok v

/-- The value of a literal is an infinity only where the literal writes a number that is too large,
and then it has the sign of that number. -/
def OnlyByOverflow (rt : Runtime D) (R : Range) (n : Number) (v : Value D) : Prop :=
  (v = .double rt.infinity → R.tooLarge |n.value| ∧ 0 < n.value) ∧
    (v = .double (rt.neg rt.infinity) → R.tooLarge |n.value| ∧ n.value < 0)

/-- The value that the parser takes is one that the number can yield. -/
theorem yields_numberValue {n : Number} (hn : n.Valid) : Yields rt n (numberValue rt n) := by
  have hs := scanned_of_valid hn
  have hm : HasMantissa n := Or.inl hn.int_ne_nil
  refine ⟨fun input p t hat ht => parseNumber_ok hat hs ht.longest hm, fun s t hsp ht => ?_⟩
  exact parse_of_derives hsp (.number ⟨n, hs, ht.longest, hm, rfl, rfl⟩)

/-- An integer is not infinite. -/
theorem OnlyByOverflow.int {R : Range} {n : Number} (i : Int32) :
    OnlyByOverflow rt R n (.int i) :=
  ⟨(fun h => by cases h), fun h => by cases h⟩

/-- A literal that `std::stod` reads does not become infinite. -/
theorem OnlyByOverflow.finite {R : Range} (hR : ThrowsOutside rt R) {n : Number} (hn : n.Valid)
    {d : D} (hd : stod rt n.text = .ok d) : OnlyByOverflow rt R n (.double d) := by
  obtain ⟨hpos, hneg⟩ := hR.finite n d hn hd
  exact ⟨fun h => absurd (Value.double.inj h) hpos, fun h => absurd (Value.double.inj h) hneg⟩

/-- The number of an `int` literal is an integer, so it is not too small. -/
theorem not_tooSmall_of_isInt {R : Range} {n : Number} (hn : IsInt n) (hne : n.value ≠ 0) :
    ¬R.tooSmall |n.value| := by
  intro hsmall
  have hlt := R.lt_one _ hsmall
  rw [Number.value_eq_intValue hn.1 hn.2.1] at hlt hne
  have hlt : |n.intValue| < 1 := by exact_mod_cast hlt
  exact hne (by exact_mod_cast Int.abs_lt_one_iff.1 hlt)

/-- The infinity that the handler of `std::out_of_range` returns is right exactly if the number is
too large. -/
theorem onlyByOverflow_handler {R : Range} (hR : ThrowsOutside rt R) (n : Number) :
    OnlyByOverflow rt R n
        (.double (if n.negative = true then rt.neg rt.infinity else rt.infinity)) ↔
      R.tooLarge |n.value| := by
  have hne : R.tooLarge |n.value| → n.value ≠ 0 := by
    intro h h0
    have := R.one_le _ h
    rw [h0, abs_zero] at this
    exact absurd this (by norm_num)
  cases hneg : n.negative with
  | true =>
      rw [if_pos rfl]
      refine ⟨fun h => (h.2 rfl).1, fun h => ⟨fun he => ?_, fun _ => ⟨h, ?_⟩⟩⟩
      · exact absurd (Value.double.inj he) hR.neg_ne
      · exact lt_of_le_of_ne (Number.value_nonpos hneg) (hne h)
  | false =>
      rw [if_neg Bool.false_ne_true]
      refine ⟨fun h => (h.1 rfl).1, fun h => ⟨fun _ => ⟨h, ?_⟩, fun he => ?_⟩⟩
      · exact lt_of_le_of_ne (Number.value_nonneg hneg) (hne h).symm
      · exact absurd (Value.double.inj he).symm hR.neg_ne

/-- The value of a literal, an `int` or a double that `std::stod` returns or the handler does. -/
theorem onlyByOverflow_iff {R : Range} (hR : ThrowsOutside rt R) {n : Number} (hn : n.Valid) :
    OnlyByOverflow rt R n (numberValue rt n) ↔ ¬(n.value ≠ 0 ∧ R.tooSmall |n.value|) := by
  by_cases hint : IsInt n
  · rw [numberValue, if_pos hint]
    exact iff_of_true (.int _) fun h => not_tooSmall_of_isInt hint h.1 h.2
  rw [numberValue, if_neg hint]
  have hnum : hasNumber n.text = true :=
    (hasNumber_text (scanned_of_valid hn)).2 (Or.inl hn.int_ne_nil)
  cases hread : rt.strtod n.text with
  | some d =>
      have hstod : stod rt n.text = .ok d := by
        rw [stod, if_pos hnum, hread]
      rw [doubleValue_of_stod hstod]
      refine iff_of_true (.finite hR hn hstod) fun h => ?_
      have herr := (hR.out_of_range n hn).2 (Or.inr h)
      rw [hstod] at herr
      cases herr
  | none =>
      have hstod : stod rt n.text = .error .outOfRange := by
        rw [stod, if_pos hnum, hread]
      rw [doubleValue, hread]
      refine (onlyByOverflow_handler hR n).trans ⟨fun hlarge hsmall => ?_, fun h => ?_⟩
      · exact absurd (R.lt_one _ hsmall.2) (not_lt.2 (R.one_le _ hlarge))
      · exact ((hR.out_of_range n hn).1 hstod).resolve_right h

/-- **The value that strict parsing makes of a number literal** is an infinity only by overflow,
exactly if the number is not lost below the smallest double. -/
theorem infinity_iff (rt : Runtime D) (R : Range) (hR : ThrowsOutside rt R) (n : Number)
    (hn : n.Valid) :
    ∃ v, Yields rt n v ∧
      (OnlyByOverflow rt R n v ↔ ¬(n.value ≠ 0 ∧ R.tooSmall |n.value|)) :=
  ⟨numberValue rt n, yields_numberValue hn, onlyByOverflow_iff hR hn⟩

/-! ### A platform with the range of a double -/

/-- The fraction that `decimalValue` reads, and what it leaves. -/
theorem read_frac {frac : Option Bytes} {u : Bytes}
    (hfrac : ∀ ds, frac = some ds → ∀ c ∈ ds, isdigit c = true) (hu : NoDigit u)
    (hpoint : u.head? ≠ some (ch '.')) :
    (if (fracText frac ++ u).head? == some (ch '.') then
        (fracText frac ++ u).tail.takeWhile isdigit else []) = frac.getD [] ∧
      (if (fracText frac ++ u).head? == some (ch '.') then
        (fracText frac ++ u).tail.dropWhile isdigit else fracText frac ++ u) = u := by
  cases frac with
  | none =>
      have hne : (u.head? == some (ch '.')) = false := by simpa using hpoint
      simp [fracText, hne]
  | some ds =>
      have hds := hfrac ds rfl
      simp [fracText, takeWhile_append_of_all hds hu, dropWhile_append_of_all hds hu]

/-- The exponent that `decimalValue` reads. -/
theorem read_exp {n : Number} (hn : n.Valid) :
    let x := if (expText n.exp).head? == some (ch 'e') || (expText n.exp).head? == some (ch 'E')
      then (expText n.exp).tail else []
    let small := x.head? == some (ch '-')
    let e := decimal ((if small || x.head? == some (ch '+') then x.tail else x).takeWhile isdigit)
    n.exponent = if small then -(e : ℤ) else e := by
  cases hexp : n.exp with
  | none => simp [expText, Number.exponent, hexp, decimal]
  | some x =>
      obtain ⟨e, sign, ds⟩ := x
      obtain ⟨he, hsign, hne, hds⟩ := hn.exp e sign ds hexp
      have hletter : (some e == some (ch 'e') || some e == some (ch 'E')) = true := by
        simpa using he
      have htake : ds.takeWhile isdigit = ds := List.takeWhile_eq_self_iff.2 hds
      simp only [expText, List.head?_cons, hletter, if_pos, List.tail_cons]
      cases sign with
      | some c =>
          simp only [Number.exponent, hexp, Option.toList_some, List.singleton_append,
            List.head?_cons, List.tail_cons]
          rcases hsign c rfl with rfl | rfl <;> simp [htake, decimal, Number.ofDigits]
      | none =>
          obtain ⟨d, ds, rfl⟩ := List.exists_cons_of_ne_nil hne
          have hd := hds d (List.mem_cons_self ..)
          have hminus : (some d == some (ch '-')) = false := by simpa using ne_of_isdigit hd rfl
          have hplus : (some d == some (ch '+')) = false := by simpa using ne_of_isdigit hd rfl
          simp [Number.exponent, hexp, hminus, hplus, htake, decimal, Number.ofDigits]

/-- **`decimalValue` reads off a literal the number that it writes.** -/
theorem decimalValue_text {n : Number} (hn : n.Valid) : decimalValue n.text = n.value := by
  have hs := scanned_of_valid hn
  have hlong : Longest n [] := by simp [Longest]
  have hneg : (n.text.head? == some (ch '-')) = n.negative := by
    rw [Bool.eq_iff_iff, beq_iff_eq, head?_text hs]
  have htail : (if n.negative = true then n.text.tail else n.text) =
      n.int ++ (fracText n.frac ++ expText n.exp) := by
    rw [Number.text]
    cases n.negative <;> rfl
  have hfrac : NoDigit (fracText n.frac ++ expText n.exp) := by
    simpa using noDigit_fracText hs hlong
  have hexp : NoDigit (expText n.exp) := by simpa using noDigit_expText hs hlong
  have hpoint : (expText n.exp).head? ≠ some (ch '.') := fun h => (head?_expText hs _ h).2 rfl
  obtain ⟨hdigits, hrest⟩ := read_frac hs.frac hexp hpoint
  have he := read_exp hn
  simp only at he
  simp only [decimalValue, hneg, htail, takeWhile_append_of_all hs.int hfrac,
    dropWhile_append_of_all hs.int hfrac, hdigits, hrest]
  rw [Number.value, he]
  have hof : ∀ ds, decimal ds = Number.ofDigits ds := fun _ => rfl
  have hten : (10 : ℚ) ≠ 0 := by norm_num
  simp only [hof]
  split_ifs <;> simp [zpow_sub₀ hten] <;> ring

/-- The range of `double`: from halfway above its largest value on a number is too large; below its
smallest normal value it is too small unless it is a multiple of the smallest subnormal one. -/
def binary64 : Range where
  tooLarge q := 2 ^ 1024 - 2 ^ 970 ≤ q
  tooSmall q := q < 1 / 2 ^ 1022 ∧ (q * 2 ^ 1074).den ≠ 1
  one_le q h := le_trans (by decide +kernel) h
  lt_one q h := h.1.trans (by decide +kernel)

/-- The platform of `Runtime.exact`, with the range of `double`. -/
def ranged : Runtime ℚ where
  __ := Runtime.exact
  strtod s :=
    let q := |decimalValue s|
    if 2 ^ 1024 - 2 ^ 970 ≤ q ∨
        decimalValue s ≠ 0 ∧ q < 1 / 2 ^ 1022 ∧ (q * 2 ^ 1074).den ≠ 1 then none
    else some (decimalValue s)

/-- What the sample `stod` does with a number. -/
theorem stod_ranged {n : Number} (hn : n.Valid) :
    stod ranged n.text =
      if 2 ^ 1024 - 2 ^ 970 ≤ |n.value| ∨
          n.value ≠ 0 ∧ |n.value| < 1 / 2 ^ 1022 ∧ (|n.value| * 2 ^ 1074).den ≠ 1 then
        .error .outOfRange
      else .ok n.value := by
  have hnum : hasNumber n.text = true :=
    (hasNumber_text (scanned_of_valid hn)).2 (Or.inl hn.int_ne_nil)
  rw [stod, if_pos hnum]
  simp only [ranged, decimalValue_text hn]
  split_ifs <;> rfl

/-- It throws outside the range of doubles, as it is documented to. -/
theorem throwsOutside_ranged : ThrowsOutside ranged binary64 where
  out_of_range n hn := by
    rw [stod_ranged hn]
    split_ifs with hrange
    · exact iff_of_true rfl hrange
    · exact iff_of_false (fun h => by cases h) hrange
  finite n d hn hd := by
    rw [stod_ranged hn] at hd
    split_ifs at hd with hrange
    obtain rfl := Except.ok.inj hd
    have hlt : |n.value| < 2 ^ 1024 :=
      (not_le.1 fun h => hrange (Or.inl h)).trans (by decide +kernel)
    exact ⟨(abs_lt.1 hlt).2.ne, (abs_lt.1 hlt).1.ne'⟩
  neg_ne := by decide +kernel

/-- The literals `1e400` and `1e-400`. -/
def e400 (sign : Option UInt8) : Number :=
  ⟨false, ascii "1", none, some (ch 'e', sign, ascii "400")⟩

/-- The number is one of the RFC. -/
theorem e400_valid {sign : Option UInt8} (hsign : ∀ c ∈ sign, c = ch '+' ∨ c = ch '-') :
    (e400 sign).Valid where
  int := Or.inr ⟨_, _, rfl, by decide, by decide, by simp⟩
  frac _ h := by cases h
  exp := by
    rintro _ _ _ ⟨⟩
    exact ⟨Or.inl rfl, hsign, by decide, by decide +kernel⟩

/-- `infinity_iff` at `1e400`, which is infinite by overflow. -/
theorem infinity_iff_e400 :
    ∃ v, Yields ranged (e400 none) v ∧ (OnlyByOverflow ranged binary64 (e400 none) v ↔
      ¬((e400 none).value ≠ 0 ∧ binary64.tooSmall |(e400 none).value|)) :=
  infinity_iff ranged binary64 throwsOutside_ranged (e400 none) (e400_valid (by simp))

/-- `1e-400` becomes infinite, and its number is not too large. -/
theorem infinity_tiny :
    ¬∀ (rt : Runtime ℚ) (R : Range), ThrowsOutside rt R → ∀ n : Number, n.Valid →
      ∀ v, Yields rt n v → OnlyByOverflow rt R n v := by
  intro h
  have hn : (e400 (some (ch '-'))).Valid := e400_valid (by simp)
  have hsmall := (onlyByOverflow_iff throwsOutside_ranged hn).1
    (h ranged binary64 throwsOutside_ranged _ hn _ (yields_numberValue hn))
  refine hsmall ⟨?_, ?_, ?_⟩ <;> decide +kernel

end Json
end BreUtils
