/-
# What the scanning functions of the parser do

One lemma per function and outcome: in front of a text that the dialect goes on
with, the function returns what the dialect says and leaves the cursor behind
it; in front of a text that goes wrong, it throws with the cursor in front of the
place where it does (`ErrorAt`).
-/

import BreUtils.Json.Dialect
import Mathlib.Data.List.TakeWhile

namespace BreUtils
namespace Json

open Lib Cpp
open Rfc8259 (Number)

variable {D : Type} {rt : Runtime D} {input : Bytes}

/-- The call threw with the cursor in front of `e`. -/
def ErrorAt {α : Type} (input e : Bytes) (r : Except Exn α) : Prop :=
  ∃ q msg, At input q e ∧ r = .error (throwException input q msg)

namespace ErrorAt

variable {α β : Type} {e : Bytes} {r : Except Exn α}

/-- An error stays where it is, whatever would come next. -/
theorem bind (h : ErrorAt input e r) (f : α → Except Exn β) : ErrorAt input e (r >>= f) := by
  obtain ⟨q, msg, hat, rfl⟩ := h
  exact ⟨q, msg, hat, rfl⟩

/-- An error is not mapped. -/
theorem map (h : ErrorAt input e r) (f : α → β) : ErrorAt input e (r.map f) := by
  obtain ⟨q, msg, hat, rfl⟩ := h
  exact ⟨q, msg, hat, rfl⟩

end ErrorAt

/-! ### Spaces -/

/-- No blanks. -/
theorem Spaces.refl (s : Bytes) : Spaces s s := ⟨[], by simp, rfl⟩

/-- Blanks behind blanks. -/
theorem Spaces.trans {s t u : Bytes} : Spaces s t → Spaces t u → Spaces s u := by
  rintro ⟨v, hv, rfl⟩ ⟨w, hw, rfl⟩
  refine ⟨v ++ w, fun c hc => ?_, (List.append_assoc v w u).symm⟩
  exact (List.mem_append.1 hc).elim (hv c) (hw c)

/-- `skipWhitespace` passes blanks. -/
theorem spaces_dropWhile (s : Bytes) : Spaces s (s.dropWhile isspace) :=
  ⟨s.takeWhile isspace, fun _ hc => List.mem_takeWhile_imp hc,
    (List.takeWhile_append_dropWhile ..).symm⟩

/-- It passes all of them. -/
theorem noSpace_dropWhile (s : Bytes) : NoSpace (s.dropWhile isspace) := head?_dropWhile s

/-- Where the blanks end it stops. -/
theorem Spaces.dropWhile_eq {s t : Bytes} (h : Spaces s t) (ht : NoSpace t) :
    s.dropWhile isspace = t := by
  obtain ⟨w, hw, rfl⟩ := h
  exact dropWhile_append_of_all hw ht

/-- A character that is no blank. -/
theorem noSpace_cons {c : UInt8} {s : Bytes} (h : isspace c = false) : NoSpace (c :: s) := by
  intro d hd
  rw [← Option.some.inj hd]
  exact h

/-- Skipping whitespace stops in front of the first byte that is none. -/
theorem skipWhitespace_at {p : ℕ} {s t : Bytes} (h : At input p s) (hs : Spaces s t)
    (ht : NoSpace t) : At input (skipWhitespace input p) t := by
  have := h.scanWhile (f := isspace)
  rwa [hs.dropWhile_eq ht] at this

/-! ### Expected texts -/

/-- A word that is there is passed. -/
theorem expect_ok {p : ℕ} {w s : Bytes} (h : At input p (w ++ s)) :
    expect input w p = .ok (p + w.length) := by
  simp [expect, substr_at h]

/-- A word that is not there is an error at its place. -/
theorem expect_error {p : ℕ} {w s : Bytes} (h : At input p s) (hw : ¬w <+: s) :
    ErrorAt input s (expect input w p) := by
  have hne : s.take w.length ≠ w := fun he => hw (List.prefix_iff_eq_take.2 he.symm)
  exact ⟨p, ascii "Expected '" ++ w ++ ascii "'", h, by simp [expect, substr_at h, hne]⟩

/-! ### Numbers -/

/-- A text that starts with no digit, if it starts at all. -/
def NoDigit (s : Bytes) : Prop := ∀ c ∈ s.head?, isdigit c = false

/-- A number that is as long as can be is followed by no digit. -/
theorem Longest.noDigit {n : Number} {t : Bytes} (h : Longest n t) : NoDigit t :=
  fun c hc => (h c hc).1

/-- Nor is what stands before its exponent, -/
theorem noDigit_expText {n : Number} {t : Bytes} (hn : Scanned n) (h : Longest n t) :
    NoDigit (Rfc8259.expText n.exp ++ t) := by
  cases he : n.exp with
  | none => exact h.noDigit
  | some x =>
      obtain ⟨e, sign, ds⟩ := x
      intro c hc
      obtain rfl : e = c := Option.some.inj hc
      rcases (hn.exp _ _ _ he).1 with rfl | rfl <;> rfl

/-- or before its fraction. -/
theorem noDigit_fracText {n : Number} {t : Bytes} (hn : Scanned n) (h : Longest n t) :
    NoDigit (Rfc8259.fracText n.frac ++ (Rfc8259.expText n.exp ++ t)) := by
  cases hf : n.frac with
  | none => exact noDigit_expText hn h
  | some ds =>
      intro c hc
      obtain rfl : ch '.' = c := Option.some.inj hc
      rfl

/-- `scanInt` stops behind the integer part. -/
theorem scanInt_at {p : ℕ} {negative : Bool} {int t : Bytes}
    (h : At input p (Rfc8259.signText negative ++ (int ++ t)))
    (hstart : negative = true ∨ int ≠ []) (hint : ∀ c ∈ int, isdigit c = true) (ht : NoDigit t) :
    At input (scanInt input p) t := by
  have hdrop : (int ++ t).dropWhile isdigit = t := dropWhile_append_of_all hint ht
  cases negative with
  | true =>
      have hc : input[p]? = some (ch '-') := h.getElem?_cons
      rw [scanInt, if_pos hc]
      exact hdrop ▸ h.next.scanWhile
  | false =>
      obtain ⟨d, ds, rfl⟩ := List.exists_cons_of_ne_nil (hstart.resolve_left Bool.false_ne_true)
      have hc : input[p]? = some d := h.getElem?_cons
      have hd : isdigit d = true := hint d (List.mem_cons_self ..)
      have hne : d ≠ ch '-' := fun he => absurd (he ▸ hd) (by decide)
      rw [scanInt, hc, if_neg fun he => hne (Option.some.inj he)]
      exact hdrop ▸ h.scanWhile

/-- `scanFrac` stops behind the fraction. -/
theorem scanFrac_at {p : ℕ} {frac : Option Bytes} {t : Bytes}
    (h : At input p (Rfc8259.fracText frac ++ t))
    (hfrac : ∀ ds, frac = some ds → ∀ c ∈ ds, isdigit c = true) (ht : NoDigit t)
    (hpoint : frac = none → t.head? ≠ some (ch '.')) : At input (scanFrac input p) t := by
  cases frac with
  | none =>
      have hc : input[p]? ≠ some (ch '.') := fun hc => by
        obtain ⟨u, rfl⟩ := h.cons_of_getElem? hc
        exact hpoint rfl rfl
      rw [scanFrac, if_neg hc]
      exact h
  | some ds =>
      have hc : input[p]? = some (ch '.') := h.getElem?_cons
      rw [scanFrac, if_pos hc]
      have := h.next.scanWhile (f := isdigit)
      rwa [List.append_eq, dropWhile_append_of_all (hfrac ds rfl) ht] at this

/-- `scanExp` stops behind the exponent. -/
theorem scanExp_at {p : ℕ} {exp : Option (UInt8 × Option UInt8 × Bytes)} {t : Bytes}
    (h : At input p (Rfc8259.expText exp ++ t))
    (hexp : ∀ e sign ds, exp = some (e, sign, ds) → (e = ch 'e' ∨ e = ch 'E') ∧
      (∀ c ∈ sign, c = ch '+' ∨ c = ch '-') ∧ ∀ c ∈ ds, isdigit c = true) (ht : NoDigit t)
    (hletter : exp = none → t.head? ≠ some (ch 'e') ∧ t.head? ≠ some (ch 'E'))
    (hsign : ∀ e, exp = some (e, none, []) →
      t.head? ≠ some (ch '+') ∧ t.head? ≠ some (ch '-')) :
    At input (scanExp input p) t := by
  cases exp with
  | none =>
      have hc : ∀ c, c = ch 'e' ∨ c = ch 'E' → input[p]? ≠ some c := fun c hce hc => by
        obtain ⟨u, rfl⟩ := h.cons_of_getElem? hc
        rcases hce with rfl | rfl
        · exact (hletter rfl).1 rfl
        · exact (hletter rfl).2 rfl
      rw [scanExp, if_neg (not_or.2 ⟨hc _ (Or.inl rfl), hc _ (Or.inr rfl)⟩)]
      exact h
  | some x =>
      obtain ⟨e, sign, ds⟩ := x
      obtain ⟨he, hs, hds⟩ := hexp e sign ds rfl
      have hc : input[p]? = some e := h.getElem?_cons
      rw [scanExp, if_pos (by rw [hc]; exact he.imp (congrArg some) (congrArg some))]
      have hdrop : (ds ++ t).dropWhile isdigit = t := dropWhile_append_of_all hds ht
      have h' : At input (p + 1) (sign.toList ++ (ds ++ t)) := by
        have := h.next
        rwa [List.append_eq, List.append_assoc] at this
      cases sign with
      | some c =>
          have hc : input[p + 1]? = some c := h'.getElem?_cons
          have hcs := hs c rfl
          simp only [hc]
          rw [if_pos (hcs.imp (congrArg some) (congrArg some))]
          exact hdrop ▸ h'.next.scanWhile
      | none =>
          have hne : ∀ c, c = ch '+' ∨ c = ch '-' → input[p + 1]? ≠ some c := fun c hcs hc => by
            obtain ⟨u, hu⟩ := h'.cons_of_getElem? hc
            cases ds with
            | nil =>
                have hu : t = c :: u := hu
                rcases hcs with rfl | rfl
                · exact (hsign e rfl).1 (by rw [hu]; rfl)
                · exact (hsign e rfl).2 (by rw [hu]; rfl)
            | cons d ds =>
                obtain rfl : d = c := (List.cons.inj hu).1
                have := hds d (List.mem_cons_self ..)
                rcases hcs with rfl | rfl <;> exact absurd this (by decide)
          simp only []
          rw [if_neg (not_or.2 ⟨hne _ (Or.inl rfl), hne _ (Or.inr rfl)⟩)]
          exact hdrop ▸ h'.scanWhile

/-- The three parts of a number, scanned one after the other. -/
theorem scanNumber_at {p : ℕ} {n : Number} {t : Bytes} (h : At input p (n.text ++ t))
    (hn : Scanned n) (ht : Longest n t) :
    At input (scanInt input p) (Rfc8259.fracText n.frac ++ (Rfc8259.expText n.exp ++ t)) ∧
      At input (scanFrac input (scanInt input p)) (Rfc8259.expText n.exp ++ t) ∧
      At input (scanExp input (scanFrac input (scanInt input p))) t := by
  have h₁ : At input (scanInt input p)
      (Rfc8259.fracText n.frac ++ (Rfc8259.expText n.exp ++ t)) := by
    refine scanInt_at ?_ hn.start hn.int (noDigit_fracText hn ht)
    simpa only [Number.text, List.append_assoc] using h
  have h₂ : At input (scanFrac input (scanInt input p)) (Rfc8259.expText n.exp ++ t) := by
    refine scanFrac_at h₁ hn.frac (noDigit_expText hn ht) fun hf hc => ?_
    cases he : n.exp with
    | none =>
        rw [he] at hc
        exact (ht _ hc).2.2.1 hf he rfl
    | some x =>
        obtain ⟨e, sign, ds⟩ := x
        rw [he] at hc
        obtain rfl : e = ch '.' := Option.some.inj hc
        rcases (hn.exp _ _ _ he).1 with h | h <;> exact absurd h (by decide)
  refine ⟨h₁, h₂, scanExp_at h₂ hn.exp ht.noDigit (fun he => ⟨fun hc => ?_, fun hc => ?_⟩)
    fun e he => ⟨fun hc => ?_, fun hc => ?_⟩⟩
  · exact ((ht _ hc).2.1 he).1 rfl
  · exact ((ht _ hc).2.1 he).2 rfl
  · exact ((ht _ hc).2.2.2 e he).1 rfl
  · exact ((ht _ hc).2.2.2 e he).2 rfl

/-- No exponent starts with a digit or a point. -/
theorem head?_expText {n : Number} (hn : Scanned n) :
    ∀ c, (Rfc8259.expText n.exp).head? = some c → isdigit c = false ∧ c ≠ ch '.' := by
  intro c hc
  cases he : n.exp with
  | none => rw [he] at hc; cases hc
  | some x =>
      obtain ⟨e, sign, ds⟩ := x
      rw [he] at hc
      obtain rfl : e = c := Option.some.inj hc
      rcases (hn.exp _ _ _ he).1 with rfl | rfl <;> decide

/-- A digit is not a character that is none. -/
theorem ne_of_isdigit {c d : UInt8} (hc : isdigit c = true) (hd : isdigit d = false) : c ≠ d :=
  fun he => by rw [he, hd] at hc; cases hc

/-- `stod` finds a number in what starts with a digit. -/
theorem hasNumber_digit {c : UInt8} (hc : isdigit c = true) (s : Bytes) :
    hasNumber (c :: s) = true := by
  have hs : ¬isspace c = true := by simp [isspace_of_isdigit c hc]
  simp only [hasNumber, List.dropWhile_cons_of_neg hs]
  simp [ne_of_isdigit hc (d := ch '-') rfl, ne_of_isdigit hc (d := ch '+') rfl,
    ne_of_isdigit hc (d := ch '.') rfl, hc]

/-- Behind a minus sign it looks for a digit, or a point and a digit. -/
theorem hasNumber_minus (s : Bytes) :
    hasNumber (ch '-' :: s) =
      (if s.head? == some (ch '.') then s.tail else s).head?.any isdigit := by
  have hs : ¬isspace (ch '-') = true := by decide
  simp only [hasNumber, List.dropWhile_cons_of_neg hs]
  simp

/-- `strtod` finds a number exactly where a digit comes before the exponent. -/
theorem hasNumber_text {n : Number} (hn : Scanned n) : hasNumber n.text = true ↔ HasMantissa n := by
  rw [Number.text, HasMantissa]
  cases hi : n.int with
  | cons d ds =>
      have hd : isdigit d = true := hn.int d (by rw [hi]; exact List.mem_cons_self ..)
      refine iff_of_true ?_ (Or.inl (List.cons_ne_nil _ _))
      cases n.negative with
      | false => exact hasNumber_digit hd _
      | true =>
          rw [Rfc8259.signText, if_pos rfl, List.singleton_append, hasNumber_minus]
          simp [ne_of_isdigit hd (d := ch '.') rfl, hd]
  | nil =>
      have hexp := head?_expText hn
      generalize Rfc8259.expText n.exp = u at hexp
      rw [hn.start.resolve_right fun h => h hi, Rfc8259.signText, if_pos rfl,
        List.singleton_append, List.nil_append, hasNumber_minus]
      cases hf : n.frac with
      | none => cases u <;> simp_all [Rfc8259.fracText]
      | some ds =>
          cases ds with
          | nil => cases u <;> simp_all [Rfc8259.fracText]
          | cons d ds =>
              have hd : isdigit d = true := hn.frac _ hf d (List.mem_cons_self ..)
              simp [Rfc8259.fracText, hd]

/-- A negative number starts with the minus sign. -/
theorem head?_text {n : Number} (hn : Scanned n) :
    n.text.head? = some (ch '-') ↔ n.negative = true := by
  rw [Number.text]
  cases h : n.negative with
  | true => simp [Rfc8259.signText]
  | false =>
      obtain ⟨d, ds, hd⟩ := List.exists_cons_of_ne_nil (hn.start.resolve_left (by simp [h]))
      have : isdigit d = true := hn.int d (by rw [hd]; exact List.mem_cons_self ..)
      simp [hd, Rfc8259.signText, ne_of_isdigit this (d := ch '-') rfl]

/-- `from_chars` reads an integer literal that fits, and no other. -/
theorem fromCharsInt_text {n : Number} (hn : Scanned n) (hf : n.frac = none) (he : n.exp = none) :
    fromCharsInt n.text =
      if n.int ≠ [] ∧ IsInt n then some (Int32.ofInt n.intValue) else none := by
  have htext : n.text = Rfc8259.signText n.negative ++ n.int := by
    simp [Number.text, hf, he, Rfc8259.fracText, Rfc8259.expText]
  have htake : n.int.takeWhile isdigit = n.int := List.takeWhile_eq_self_iff.2 hn.int
  have hv : (if n.negative = true then -(decimal n.int : ℤ) else decimal n.int) = n.intValue := rfl
  have hneg : (n.text.head? == some (ch '-')) = n.negative := by
    rw [Bool.eq_iff_iff, beq_iff_eq, head?_text hn]
  have hds : (if n.negative = true then n.text.tail else n.text) = n.int := by
    rw [htext]
    cases n.negative <;> simp [Rfc8259.signText]
  simp only [fromCharsInt, hneg, hds, htake, hv, IsInt, hf, he]
  by_cases h : n.int = [] <;> simp [h]

/-- A number with a mantissa has a value. -/
theorem catchStod_ok {n : Number} (hn : Scanned n) (hm : HasMantissa n) (p : ℕ) (msg : Bytes) :
    catchStod rt input n.text p msg = .ok (doubleValue rt n) := by
  rw [catchStod, stod, if_pos ((hasNumber_text hn).2 hm), doubleValue]
  cases rt.strtod n.text with
  | some d => rfl
  | none =>
      simp only [head?_text hn]
      split_ifs <;> rfl

/-- A number without one is an error. -/
theorem catchStod_error {n : Number} (hn : Scanned n) (hm : ¬HasMantissa n) (p : ℕ) (msg : Bytes) :
    catchStod rt input n.text p msg = .error (throwException input p msg) := by
  rw [catchStod, stod, if_neg fun h => hm ((hasNumber_text hn).1 h)]

/-- `parseNumber` in front of a number, with the scanning done. -/
theorem parseNumber_eq {p : ℕ} {n : Number} {t : Bytes} (h : At input p (n.text ++ t))
    (hn : Scanned n) (ht : Longest n t) :
    parseNumber rt input p =
      if n.frac = none ∧ n.exp = none then
        if n.int ≠ [] ∧ IsInt n then .ok (.int (Int32.ofInt n.intValue), p + n.text.length)
        else do
          let value ← catchStod rt input n.text (p + n.text.length) (ascii "Invalid number value")
          return (value, p + n.text.length)
      else do
        let value ← catchStod rt input n.text (p + n.text.length) (ascii "Invalid double value")
        return (value, p + n.text.length) := by
  obtain ⟨h₁, h₂, h₃⟩ := scanNumber_at h hn ht
  have hpos := h₃.position_unique h.skip
  have hfrac := (h₁.eq_iff_nil h₂).trans Rfc8259.fracText_eq_nil
  have hexp := (h₂.eq_iff_nil h₃).trans Rfc8259.expText_eq_nil
  have hsub : substr input p (p + n.text.length - p) = .ok n.text := by
    rw [substr_at h, Nat.add_sub_cancel_left, List.take_left]
  rw [hpos] at hexp
  simp only [parseNumber, ne_eq, hpos, hfrac, hexp, hsub, ok_bind, ← not_and_or, ite_not]
  by_cases hint : n.frac = none ∧ n.exp = none
  · rw [if_pos hint, if_pos hint, fromCharsInt_text hn hint.1 hint.2]
    by_cases hfit : n.int ≠ [] ∧ IsInt n
    · rw [if_pos hfit, if_pos hfit]
      rfl
    · rw [if_neg hfit, if_neg hfit]
  · rw [if_neg hint, if_neg hint]

/-- A number with a digit before its exponent is read, whole and with its value. -/
theorem parseNumber_ok {p : ℕ} {n : Number} {t : Bytes} (h : At input p (n.text ++ t))
    (hn : Scanned n) (ht : Longest n t) (hm : HasMantissa n) :
    parseNumber rt input p = .ok (numberValue rt n, p + n.text.length) := by
  rw [parseNumber_eq h hn ht, numberValue]
  by_cases hint : n.frac = none ∧ n.exp = none
  · have hne : n.int ≠ [] := hm.resolve_right fun ⟨d, ds, hf⟩ => by
      rw [hint.1] at hf
      cases hf
    rw [if_pos hint, catchStod_ok hn hm]
    by_cases hfit : IsInt n
    · rw [if_pos ⟨hne, hfit⟩, if_pos hfit]
    · rw [if_neg fun h => hfit h.2, if_neg hfit]
      rfl
  · rw [if_neg hint, catchStod_ok hn hm, if_neg fun h => hint ⟨h.1, h.2.1⟩]
    rfl

/-- A number without one throws behind it. -/
theorem parseNumber_error {p : ℕ} {n : Number} {t : Bytes} (h : At input p (n.text ++ t))
    (hn : Scanned n) (ht : Longest n t) (hm : ¬HasMantissa n) :
    ErrorAt input t (parseNumber rt input p) := by
  rw [parseNumber_eq h hn ht]
  by_cases hint : n.frac = none ∧ n.exp = none
  · rw [if_pos hint, if_neg fun h => hm (Or.inl h.1), catchStod_error hn hm]
    exact ⟨_, _, h.skip, rfl⟩
  · rw [if_neg hint, catchStod_error hn hm]
    exact ⟨_, _, h.skip, rfl⟩

/-! ### Every text that starts like a number -/

/-- A fraction, as far as it goes, is split off. -/
theorem exists_frac (s : Bytes) : ∃ frac t, s = Rfc8259.fracText frac ++ t ∧
    (∀ ds, frac = some ds → (∀ c ∈ ds, isdigit c = true) ∧ NoDigit t) ∧
    (frac = none → t.head? ≠ some (ch '.')) := by
  by_cases hc : s.head? = some (ch '.')
  · obtain ⟨s, rfl⟩ := List.head?_eq_some_iff.1 hc
    refine ⟨some (s.takeWhile isdigit), s.dropWhile isdigit, ?_, ?_, fun h => by cases h⟩
    · rw [Rfc8259.fracText, List.cons_append, List.takeWhile_append_dropWhile]
    · intro ds hds
      rw [← Option.some.inj hds]
      exact ⟨fun c hc => List.mem_takeWhile_imp hc, head?_dropWhile s⟩
  · exact ⟨none, s, rfl, (fun _ h => by cases h), fun _ => hc⟩

/-- An exponent, as far as it goes, is split off. -/
theorem exists_exp (s : Bytes) : ∃ exp t, s = Rfc8259.expText exp ++ t ∧
    (∀ e sign ds, exp = some (e, sign, ds) → (e = ch 'e' ∨ e = ch 'E') ∧
      (∀ c ∈ sign, c = ch '+' ∨ c = ch '-') ∧ (∀ c ∈ ds, isdigit c = true) ∧ NoDigit t) ∧
    (exp = none → t.head? ≠ some (ch 'e') ∧ t.head? ≠ some (ch 'E')) ∧
    ∀ e, exp = some (e, none, []) → t.head? ≠ some (ch '+') ∧ t.head? ≠ some (ch '-') := by
  cases s with
  | nil => exact ⟨none, [], rfl, (fun _ _ _ h => by cases h), by simp, by simp⟩
  | cons e s =>
      by_cases he : e = ch 'e' ∨ e = ch 'E'
      · have hdigits := fun (s : Bytes) (c : UInt8) (hc : c ∈ s.takeWhile isdigit) =>
          List.mem_takeWhile_imp (p := isdigit) hc
        cases s with
        | nil =>
            refine ⟨some (e, none, []), [], rfl, ?_, (fun h => by cases h), by simp⟩
            rintro _ _ _ ⟨⟩
            exact ⟨he, by simp, by simp, by simp [NoDigit]⟩
        | cons c s =>
            by_cases hc : c = ch '+' ∨ c = ch '-'
            · refine ⟨some (e, some c, s.takeWhile isdigit), s.dropWhile isdigit, ?_, ?_,
                (fun h => by cases h), fun _ h => by cases h⟩
              · simp [Rfc8259.expText]
              · rintro _ _ _ ⟨⟩
                exact ⟨he, by simpa using hc, hdigits s, head?_dropWhile s⟩
            · refine ⟨some (e, none, (c :: s).takeWhile isdigit), (c :: s).dropWhile isdigit, ?_,
                ?_, (fun h => by cases h), fun e' h => ?_⟩
              · simp [Rfc8259.expText]
              · rintro _ _ _ ⟨⟩
                exact ⟨he, by simp, hdigits _, head?_dropWhile _⟩
              · -- no digit was taken, so the byte behind the letter is the one seen above
                have hnil : (c :: s).takeWhile isdigit = [] := by
                  cases h' : (c :: s).takeWhile isdigit with
                  | nil => rfl
                  | cons d ds => rw [h'] at h; cases h
                have heq := List.takeWhile_append_dropWhile (p := isdigit) (l := c :: s)
                rw [hnil, List.nil_append] at heq
                rw [heq]
                exact ⟨fun h => hc (Or.inl (Option.some.inj h)),
                  fun h => hc (Or.inr (Option.some.inj h))⟩
      · refine ⟨none, e :: s, rfl, (fun _ _ _ h => by cases h), fun _ => ⟨fun h => ?_, fun h => ?_⟩,
          fun _ h => by cases h⟩
        · exact he (Or.inl (Option.some.inj h))
        · exact he (Or.inr (Option.some.inj h))

/-- **A text that starts like a number starts with one**, as long as it can be. -/
theorem exists_number {c : UInt8} (s : Bytes) (hc : startsNumber c = true) :
    ∃ n t, c :: s = Number.text n ++ t ∧ Scanned n ∧ Longest n t := by
  obtain ⟨negative, int, u, hs, hstart, hint, hu⟩ : ∃ negative int u,
      c :: s = Rfc8259.signText negative ++ (int ++ u) ∧ (negative = true ∨ int ≠ []) ∧
        (∀ c ∈ int, isdigit c = true) ∧ NoDigit u := by
    have hdigits := fun (s : Bytes) (c : UInt8) (hc : c ∈ s.takeWhile isdigit) =>
      List.mem_takeWhile_imp (p := isdigit) hc
    by_cases hm : c = ch '-'
    · refine ⟨true, s.takeWhile isdigit, s.dropWhile isdigit, ?_, Or.inl rfl, hdigits s,
        head?_dropWhile s⟩
      rw [List.takeWhile_append_dropWhile, hm]
      rfl
    · have hd : isdigit c = true := by simpa [startsNumber, hm] using hc
      refine ⟨false, (c :: s).takeWhile isdigit, (c :: s).dropWhile isdigit, ?_, Or.inr ?_,
        hdigits _, head?_dropWhile _⟩
      · rw [List.takeWhile_append_dropWhile]
        rfl
      · rw [List.takeWhile_cons_of_pos hd]
        exact List.cons_ne_nil _ _
  obtain ⟨frac, u', rfl, hfrac, hpoint⟩ := exists_frac u
  obtain ⟨exp, t, rfl, hexp, hletter, hsign⟩ := exists_exp u'
  refine ⟨⟨negative, int, frac, exp⟩, t, ?_, ⟨hstart, hint, fun ds h => (hfrac ds h).1,
    fun e sign ds h => ?_⟩, fun d hd => ⟨?_, fun he => ⟨fun h => ?_, fun h => ?_⟩,
      fun hf he h => ?_, fun e he => ⟨fun h => ?_, fun h => ?_⟩⟩⟩
  · simp [hs, Number.text]
  · obtain ⟨h₁, h₂, h₃, -⟩ := hexp e sign ds h
    exact ⟨h₁, h₂, h₃⟩
  · -- the last part that is there ends in front of `t`
    cases exp with
    | some x => exact (hexp x.1 x.2.1 x.2.2 rfl).2.2.2 d hd
    | none =>
        cases frac with
        | some ds => exact (hfrac ds rfl).2 d hd
        | none => exact hu d hd
  · exact (hletter he).1 (h ▸ hd)
  · exact (hletter he).2 (h ▸ hd)
  · subst he
    exact hpoint hf (h ▸ hd)
  · exact (hsign e he).1 (h ▸ hd)
  · exact (hsign e he).2 (h ▸ hd)

end Json
end BreUtils
