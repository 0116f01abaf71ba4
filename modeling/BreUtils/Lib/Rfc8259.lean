/-
# The lexical classes of RFC 8259

Whitespace (§2), numbers (§6) and strings (§7) of JSON as texts of bytes: an
unescaped character stands as its UTF-8 encoding (§8.1).  `rfc8259` closes the
grammar of `BreUtils.Lib.JsonGrammar` with these classes; what numbers, strings
and containers denote is a parameter, and `JsonText` is the bare syntax.
-/

import BreUtils.Lib.JsonGrammar
import Mathlib.Algebra.Order.Field.Power
import Mathlib.Algebra.Order.Ring.Rat
import Mathlib.Data.FinEnum
import Mathlib.Data.List.Lemmas
import Mathlib.Tactic.Positivity

namespace BreUtils
namespace Lib
namespace Rfc8259

/-- `DIGIT`: `0` to `9`. -/
def isDigit (c : UInt8) : Bool := ch '0' ≤ c && c ≤ ch '9'

/-- `HEXDIG`, of either case. -/
def isHexDigit (c : UInt8) : Bool :=
  isDigit c || (ch 'a' ≤ c && c ≤ ch 'f') || (ch 'A' ≤ c && c ≤ ch 'F')

/-- `ws`: space, horizontal tab, line feed, carriage return. -/
def isWs (c : UInt8) : Bool := c == 0x20 || c == 0x09 || c == 0x0A || c == 0x0D

/-- A run of whitespace. -/
def Ws (s t : List UInt8) : Prop := ∃ w, (∀ c ∈ w, isWs c = true) ∧ s = w ++ t

/-- No white space at all. -/
theorem Ws.refl (s : List UInt8) : Ws s s := ⟨[], by simp, rfl⟩

/-- White space behind white space. -/
theorem Ws.trans {s t u : List UInt8} (h : Ws s t) (h' : Ws t u) : Ws s u := by
  obtain ⟨v, hv, rfl⟩ := h
  obtain ⟨w, hw, rfl⟩ := h'
  refine ⟨v ++ w, fun c hc => ?_, (List.append_assoc ..).symm⟩
  exact (List.mem_append.1 hc).elim (hv c) (hw c)

/-! ### Numbers -/

/-- The parts of a number literal: the sign, the integer part, the digits after the point, and
the exponent with its letter and its sign. -/
structure Number where
  negative : Bool
  int : List UInt8
  frac : Option (List UInt8)
  exp : Option (UInt8 × Option UInt8 × List UInt8)

/-- `[ minus ]`. -/
def signText (negative : Bool) : List UInt8 := if negative then [ch '-'] else []

/-- `[ frac ]`. -/
def fracText : Option (List UInt8) → List UInt8
  | none => []
  | some ds => ch '.' :: ds

/-- `[ exp ]`. -/
def expText : Option (UInt8 × Option UInt8 × List UInt8) → List UInt8
  | none => []
  | some (e, sign, ds) => e :: (sign.toList ++ ds)

/-- A fraction has a text. -/
@[simp] theorem fracText_eq_nil {frac : Option (List UInt8)} :
    fracText frac = [] ↔ frac = none := by
  cases frac <;> simp [fracText]

/-- So has an exponent. -/
@[simp] theorem expText_eq_nil {exp : Option (UInt8 × Option UInt8 × List UInt8)} :
    expText exp = [] ↔ exp = none := by
  cases exp <;> simp [expText]

namespace Number

/-- The literal. -/
def text (n : Number) : List UInt8 :=
  signText n.negative ++ (n.int ++ (fracText n.frac ++ expText n.exp))

/-- The number that a run of digits writes in base ten. -/
def ofDigits (ds : List UInt8) : ℕ := ds.foldl (fun v d => 10 * v + (d.toNat - 48)) 0

/-- The integer that the sign and the integer part write. -/
def intValue (n : Number) : ℤ := if n.negative then -(ofDigits n.int : ℤ) else ofDigits n.int

/-- The number behind the letter of the exponent. -/
def exponent (n : Number) : ℤ :=
  match n.exp with
  | none => 0
  | some (_, sign, ds) => if sign = some (ch '-') then -(ofDigits ds : ℤ) else ofDigits ds

/-- The rational number that the literal writes: its digits, with the point behind the integer part
moved by the exponent. -/
def value (n : Number) : ℚ :=
  let frac := n.frac.getD []
  let m : ℚ := ofDigits (n.int ++ frac) * 10 ^ (n.exponent - frac.length)
  if n.negative then -m else m

/-- A number without a minus sign is not negative. -/
theorem value_nonneg {n : Number} (h : n.negative = false) : 0 ≤ n.value := by
  rw [value, h, if_neg Bool.false_ne_true]
  positivity

/-- A number with one is not positive. -/
theorem value_nonpos {n : Number} (h : n.negative = true) : n.value ≤ 0 := by
  rw [value, h, if_pos rfl]
  exact neg_nonpos.2 (by positivity)

/-- Without a fraction and an exponent the literal writes an integer. -/
theorem value_eq_intValue {n : Number} (hf : n.frac = none) (he : n.exp = none) :
    n.value = n.intValue := by
  simp only [value, intValue, exponent, hf, he, Option.getD_none, List.append_nil,
    List.length_nil, Nat.cast_zero, sub_zero, zpow_zero, mul_one]
  split_ifs <;> simp

/-- `number = [ minus ] int [ frac ] [ exp ]`: no leading zeros, and at least one digit in every
part that is there. -/
structure Valid (n : Number) : Prop where
  int : n.int = [ch '0'] ∨ ∃ d ds, n.int = d :: ds ∧ isDigit d = true ∧ d ≠ ch '0' ∧
    ∀ c ∈ ds, isDigit c = true
  frac : ∀ ds, n.frac = some ds → ds ≠ [] ∧ ∀ c ∈ ds, isDigit c = true
  exp : ∀ e sign ds, n.exp = some (e, sign, ds) → (e = ch 'e' ∨ e = ch 'E') ∧
    (∀ c ∈ sign, c = ch '+' ∨ c = ch '-') ∧ ds ≠ [] ∧ ∀ c ∈ ds, isDigit c = true

/-- The integer part is made of digits. -/
theorem Valid.isDigit_int {n : Number} (h : n.Valid) : ∀ c ∈ n.int, isDigit c = true := by
  rcases h.int with h | ⟨d, ds, h, hd, -, hds⟩ <;> rw [h]
  · exact fun c hc => List.mem_singleton.1 hc ▸ rfl
  · exact fun c hc => (List.mem_cons.1 hc).elim (fun e => e ▸ hd) (hds c)

/-- There is an integer part. -/
theorem Valid.int_ne_nil {n : Number} (h : n.Valid) : n.int ≠ [] := by
  rcases h.int with h | ⟨d, ds, h, -⟩ <;> rw [h] <;> exact List.cons_ne_nil _ _

end Number

/-! ### Strings -/

/-- The character that a two-character escape stands for, by the byte behind the backslash. -/
def escape (e : UInt8) : Option UInt8 :=
  if e = ch '"' then some (ch '"')
  else if e = ch '\\' then some (ch '\\')
  else if e = ch '/' then some (ch '/')
  else if e = ch 'b' then some 0x08
  else if e = ch 'f' then some 0x0C
  else if e = ch 'n' then some 0x0A
  else if e = ch 'r' then some 0x0D
  else if e = ch 't' then some 0x09
  else none

/-- One character of a string literal: unescaped, a two-character escape, or `\uXXXX`. -/
inductive Item where
  | unescaped (c : Char)
  | escaped (e : UInt8)
  | unicode (h₁ h₂ h₃ h₄ : UInt8)

namespace Item

/-- An item as it is written. -/
def text : Item → List UInt8
  | unescaped c => String.utf8EncodeChar c
  | escaped e => [ch '\\', e]
  | unicode h₁ h₂ h₃ h₄ => [ch '\\', ch 'u', h₁, h₂, h₃, h₄]

/-- `char`: unescaped is everything from U+0020 but the quotation mark and the backslash. -/
def Valid : Item → Prop
  | unescaped c => 0x20 ≤ c.toNat ∧ c ≠ '"' ∧ c ≠ '\\'
  | escaped e => (escape e).isSome = true
  | unicode h₁ h₂ h₃ h₄ => ∀ c ∈ [h₁, h₂, h₃, h₄], isHexDigit c = true

/-- The bytes that an unescaped character or a two-character escape stands for. -/
def content : Item → Option (List UInt8)
  | unescaped c => some (String.utf8EncodeChar c)
  | escaped e => (escape e).map fun d => [d]
  | unicode _ _ _ _ => none

end Item

/-- The bytes that a string literal without `\u` stands for. -/
def content : List Item → Option (List UInt8)
  | [] => some []
  | i :: is => do return (← i.content) ++ (← content is)

/-- The value of a hexadecimal digit. -/
def hexDigit (c : UInt8) : ℕ :=
  if isDigit c then c.toNat - 48 else if ch 'a' ≤ c then c.toNat - 87 else c.toNat - 55

/-- The code unit that the four digits of `\uXXXX` write. -/
def codeUnit (h₁ h₂ h₃ h₄ : UInt8) : ℕ :=
  ((hexDigit h₁ * 16 + hexDigit h₂) * 16 + hexDigit h₃) * 16 + hexDigit h₄

/-- The characters of a literal spell a sequence of Unicode scalar values: each of these stands
unescaped, as a two-character escape, as `\uXXXX`, or above U+FFFF as a surrogate pair. -/
inductive Spells : List Item → List Char → Prop
  | nil : Spells [] []
  | unescaped {c : Char} {is : List Item} {cs : List Char} :
      Spells is cs → Spells (.unescaped c :: is) (c :: cs)
  | escaped {e d : UInt8} {c : Char} {is : List Item} {cs : List Char} :
      escape e = some d → c.toNat = d.toNat → Spells is cs → Spells (.escaped e :: is) (c :: cs)
  | unicode {h₁ h₂ h₃ h₄ : UInt8} {c : Char} {is : List Item} {cs : List Char} :
      c.toNat = codeUnit h₁ h₂ h₃ h₄ → Spells is cs →
      Spells (.unicode h₁ h₂ h₃ h₄ :: is) (c :: cs)
  | pair {h₁ h₂ h₃ h₄ l₁ l₂ l₃ l₄ : UInt8} {c : Char} {is : List Item} {cs : List Char} :
      0xD800 ≤ codeUnit h₁ h₂ h₃ h₄ → codeUnit h₁ h₂ h₃ h₄ ≤ 0xDBFF →
      0xDC00 ≤ codeUnit l₁ l₂ l₃ l₄ → codeUnit l₁ l₂ l₃ l₄ ≤ 0xDFFF →
      c.toNat = 0x10000 + (codeUnit h₁ h₂ h₃ h₄ - 0xD800) * 0x400 +
        (codeUnit l₁ l₂ l₃ l₄ - 0xDC00) → Spells is cs →
      Spells (.unicode h₁ h₂ h₃ h₄ :: .unicode l₁ l₂ l₃ l₄ :: is) (c :: cs)

/-- The literal with these characters. -/
def quote (is : List Item) : List UInt8 := ch '"' :: (is.flatMap Item.text ++ [ch '"'])

/-- The UTF-8 bytes of a character that may stand unescaped are no control characters, no quotation
mark and no backslash. -/
theorem utf8_of_valid {c : Char} (h : (Item.unescaped c).Valid) :
    ∀ b ∈ String.utf8EncodeChar c, 0x20 ≤ b.toNat ∧ b ≠ ch '"' ∧ b ≠ ch '\\' := by
  obtain ⟨h₁, h₂, h₃⟩ := h
  intro b hb
  simp only [String.utf8EncodeChar] at hb
  split at hb
  · next hle =>
      have hbc : b.toNat = c.toNat := by
        rw [List.mem_singleton.1 hb, UInt8.toNat_ofNat']
        exact Nat.mod_eq_of_lt (by omega)
      refine ⟨by omega, fun hq => h₂ ?_, fun hq => h₃ ?_⟩
      · exact Char.toNat_inj.1 (by rw [← hbc, hq]; rfl)
      · exact Char.toNat_inj.1 (by rw [← hbc, hq]; rfl)
  · -- every byte of a longer encoding has its top bit set
    have hbig : 0x80 ≤ b.toNat := by
      split at hb
      · simp only [List.mem_cons, List.not_mem_nil, or_false] at hb
        rcases hb with rfl | rfl <;> rw [UInt8.toNat_ofNat'] <;> omega
      · split at hb
        · simp only [List.mem_cons, List.not_mem_nil, or_false] at hb
          rcases hb with rfl | rfl | rfl <;> rw [UInt8.toNat_ofNat'] <;> omega
        · simp only [List.mem_cons, List.not_mem_nil, or_false] at hb
          rcases hb with rfl | rfl | rfl | rfl <;> rw [UInt8.toNat_ofNat'] <;> omega
    refine ⟨by omega, fun hq => ?_, fun hq => ?_⟩ <;>
      · rw [hq] at hbig
        exact absurd hbig (by decide)

end Rfc8259

open Rfc8259

/-- What numbers, strings and containers denote. -/
structure Denotation (K V : Type*) where
  number : Number → V → Prop
  string : List Item → K → Prop
  null : V
  bool : Bool → V
  ofString : K → V
  array : List V → V
  object : List (K × V) → V → Prop

/-- **RFC 8259** with a denotation. -/
def rfc8259 {K V : Type*} (D : Denotation K V) : Language UInt8 K V where
  byte := id
  gap := Ws
  trail := Eq
  number s v t := ∃ n : Number, n.Valid ∧ D.number n v ∧ s = n.text ++ t
  string s k t := ∃ is : List Item, (∀ i ∈ is, i.Valid) ∧ D.string is k ∧ s = quote is ++ t
  null := D.null
  bool := D.bool
  ofString := D.ofString
  array := D.array
  object := D.object

/-- The syntax alone: every literal denotes the one value there is. -/
def bareSyntax : Denotation Unit Unit where
  number _ _ := True
  string _ _ := True
  null := ()
  bool _ := ()
  ofString _ := ()
  array _ := ()
  object _ _ := True

/-- **`s` is a JSON text**, by the grammar of RFC 8259. -/
def JsonText (s : List UInt8) : Prop := IsText (rfc8259 bareSyntax) s ()

/-- Nothing but white space, a comma or a closing bracket follows a value. -/
theorem head?_of_follows {K V : Type*} {D : Denotation K V} {t : List UInt8}
    (h : Follows (rfc8259 D) t) :
    ∀ c ∈ t.head?, isWs c = true ∨ c ∈ [ch ',', ch ']', ch '}'] := by
  have hgap {s t : List UInt8} (h : Ws s t) (c : UInt8) (hc : c ∈ s.head?) :
      isWs c = true ∨ c ∈ t.head? := by
    obtain ⟨w, hw, rfl⟩ := h
    cases w with
    | nil => exact Or.inr hc
    | cons d w => exact Or.inl (Option.some.inj hc ▸ hw d (List.mem_cons_self ..))
  intro c hc
  cases h with
  | stop h => exact Or.inl ((hgap h c hc).resolve_right (by simp))
  | comma h =>
      refine (hgap h c hc).imp_right fun hc => ?_
      obtain rfl : ch ',' = c := Option.some.inj hc
      simp
  | bracket h h' =>
      subst h'
      refine (hgap h c hc).imp_right fun hc => ?_
      obtain rfl : ch ']' = c := Option.some.inj hc
      simp
  | brace h h' =>
      subst h'
      refine (hgap h c hc).imp_right fun hc => ?_
      obtain rfl : ch '}' = c := Option.some.inj hc
      simp

/-! ### The bytes of a text -/

namespace Rfc8259

/-- A byte that may stand in a text: no control character but tab, line feed and carriage
return. -/
def Printable (c : UInt8) : Prop := 0x20 ≤ c.toNat ∨ isWs c = true

/-- From `s` to `t` there are bytes that may stand in a text. -/
def Passes (s t : List UInt8) : Prop := ∃ u, s = u ++ t ∧ ∀ c ∈ u, Printable c

/-- What passes in two parts passes. -/
theorem Passes.trans {s t u : List UInt8} (h : Passes s t) (h' : Passes t u) : Passes s u := by
  obtain ⟨v, rfl, hv⟩ := h
  obtain ⟨w, rfl, hw⟩ := h'
  refine ⟨v ++ w, (List.append_assoc ..).symm, fun c hc => ?_⟩
  exact (List.mem_append.1 hc).elim (hv c) (hw c)

/-- A printable byte passes. -/
theorem passes_cons {c : UInt8} (hc : Printable c) (t : List UInt8) : Passes (c :: t) t :=
  ⟨[c], rfl, fun _ hd => List.mem_singleton.1 hd ▸ hc⟩

/-- White space passes. -/
theorem Ws.passes {s t : List UInt8} (h : Ws s t) : Passes s t := by
  obtain ⟨w, hw, rfl⟩ := h
  exact ⟨w, rfl, fun c hc => Or.inr (hw c hc)⟩

/-- A hex digit is printable. -/
theorem printable_of_isHexDigit : ∀ c : UInt8, isHexDigit c = true → 0x20 ≤ c.toNat := by
  decide +kernel

/-- So is the letter of an escape. -/
theorem printable_of_escape : ∀ c : UInt8, (escape c).isSome = true → 0x20 ≤ c.toNat := by
  decide +kernel

/-- A byte of a number. -/
def isNumberByte (c : UInt8) : Bool := isDigit c || (ascii "-+.eE").contains c

/-- A digit can stand in a number. -/
theorem isNumberByte_of_isDigit {c : UInt8} (h : isDigit c = true) : isNumberByte c = true := by
  rw [isNumberByte, h, Bool.true_or]

/-- What a number is written with. -/
theorem Number.Valid.mem_text {n : Number} (h : n.Valid) : ∀ c ∈ n.text, isNumberByte c = true := by
  intro c hc
  rw [Number.text, List.mem_append, List.mem_append, List.mem_append] at hc
  rcases hc with hc | hc | hc | hc
  · have hsign : c = ch '-' := by
      unfold signText at hc
      split_ifs at hc
      · exact List.mem_singleton.1 hc
      · cases hc
    rw [hsign]
    decide
  · exact isNumberByte_of_isDigit (h.isDigit_int c hc)
  · cases hfrac : n.frac with
    | none => rw [hfrac] at hc; cases hc
    | some ds =>
        rw [hfrac] at hc
        rcases List.mem_cons.1 hc with rfl | hc
        · decide
        · exact isNumberByte_of_isDigit ((h.frac ds hfrac).2 c hc)
  · cases hexp : n.exp with
    | none => rw [hexp] at hc; cases hc
    | some x =>
        obtain ⟨e, sign, ds⟩ := x
        obtain ⟨he, hsign, -, hds⟩ := h.exp e sign ds hexp
        rw [hexp] at hc
        rcases List.mem_cons.1 hc with rfl | hc
        · rcases he with rfl | rfl <;> decide
        · rcases List.mem_append.1 hc with hc | hc
          · obtain rfl | rfl := hsign c (by simpa using hc) <;> decide
          · exact isNumberByte_of_isDigit (hds c hc)

/-- The bytes of a number are printable. -/
theorem printable_of_isNumberByte : ∀ c : UInt8, isNumberByte c = true → 0x20 ≤ c.toNat := by
  decide +kernel

/-- A number is printable. -/
theorem Number.Valid.printable {n : Number} (h : n.Valid) : ∀ c ∈ n.text, Printable c :=
  fun c hc => Or.inl (printable_of_isNumberByte c (h.mem_text c hc))

/-- An item of a string is printable. -/
theorem Item.Valid.printable {i : Item} (h : i.Valid) : ∀ c ∈ i.text, Printable c := by
  intro c hc
  left
  cases i with
  | unescaped d => exact (utf8_of_valid h c hc).1
  | escaped e =>
      simp only [Item.text, List.mem_cons, List.not_mem_nil, or_false] at hc
      rcases hc with rfl | rfl
      · decide
      · exact printable_of_escape c h
  | unicode h₁ h₂ h₃ h₄ =>
      simp only [Item.text, List.mem_cons, List.not_mem_nil, or_false] at hc
      rcases hc with rfl | rfl | hc
      · decide
      · decide
      · exact printable_of_isHexDigit c (h c (by simpa using hc))

/-- A string is printable. -/
theorem quote_printable {is : List Item} (h : ∀ i ∈ is, i.Valid) : ∀ c ∈ quote is, Printable c := by
  intro c hc
  have hmark : Printable (ch '"') := Or.inl (by decide)
  rw [quote, List.mem_cons, List.mem_append, List.mem_flatMap, List.mem_singleton] at hc
  rcases hc with rfl | ⟨i, hi, hc⟩ | rfl
  · exact hmark
  · exact (h i hi).printable c hc
  · exact hmark

end Rfc8259

open Rfc8259 in
/-- **A derivation passes over bytes that may stand in a text.** -/
theorem Derives.passes {K V : Type*} {D : Denotation K V} {s t : List UInt8} {n : Node K V}
    (h : Derives (rfc8259 D) s n t) : Passes s t := by
  have hcons (c : UInt8) (hc : 0x20 ≤ c.toNat) (t : List UInt8) : Passes (c :: t) t :=
    passes_cons (Or.inl hc) t
  have hstring {s t : List UInt8} {k : K} (h : (rfc8259 D).string s k t) : Passes s t := by
    obtain ⟨is, his, -, rfl⟩ := h
    exact ⟨_, rfl, quote_printable his⟩
  have hliteral (w : List UInt8) (hw : ∀ c ∈ w, 0x20 ≤ c.toNat) (t : List UInt8) :
      Passes (w.map id ++ t) t := ⟨w, by rw [List.map_id], fun c hc => Or.inl (hw c hc)⟩
  induction h with
  | null t => exact hliteral _ (by decide +kernel) t
  | true t => exact hliteral _ (by decide +kernel) t
  | false t => exact hliteral _ (by decide +kernel) t
  | number h =>
      obtain ⟨n, hn, -, rfl⟩ := h
      exact ⟨_, rfl, hn.printable⟩
  | string h => exact hstring h
  | emptyArray h =>
      exact (hcons (ch '[') (by decide) _).trans (h.passes.trans (hcons (ch ']') (by decide) _))
  | array _ ih => exact (hcons (ch '[') (by decide) _).trans ih
  | emptyObject h _ =>
      exact (hcons (ch '{') (by decide) _).trans (h.passes.trans (hcons (ch '}') (by decide) _))
  | object _ _ ih => exact (hcons (ch '{') (by decide) _).trans ih
  | lastElement h₁ _ h₂ h₃ ih =>
      obtain rfl : _ = _ := h₃
      exact h₁.passes.trans (ih.trans (h₂.passes.trans (hcons (ch ']') (by decide) _)))
  | element h₁ _ h₂ _ ihv ih =>
      have hcomma := hcons (ch ',') (by decide)
      exact h₁.passes.trans (ihv.trans (h₂.passes.trans ((hcomma _).trans ih)))
  | lastMember h₁ hk h₂ h₃ _ h₄ h₅ ih =>
      obtain rfl : _ = _ := h₅
      have hcolon := hcons (ch ':') (by decide)
      exact h₁.passes.trans ((hstring hk).trans (h₂.passes.trans ((hcolon _).trans
        (h₃.passes.trans (ih.trans (h₄.passes.trans (hcons (ch '}') (by decide) _)))))))
  | member h₁ hk h₂ h₃ _ h₄ _ ihv ih =>
      have hcolon := hcons (ch ':') (by decide)
      have hcomma := hcons (ch ',') (by decide)
      exact h₁.passes.trans ((hstring hk).trans (h₂.passes.trans ((hcolon _).trans
        (h₃.passes.trans (ihv.trans (h₄.passes.trans ((hcomma _).trans ih)))))))

/-- **The bytes of a JSON text.** -/
theorem JsonText.printable {s : List UInt8} (h : JsonText s) : ∀ c ∈ s, Rfc8259.Printable c := by
  obtain ⟨s₁, s₂, h₁, hv, h₂⟩ := h
  obtain ⟨u, hu, hall⟩ :=
    (Rfc8259.Ws.passes h₁).trans (hv.passes.trans (Rfc8259.Ws.passes h₂))
  rw [List.append_nil] at hu
  exact hu ▸ hall

end Lib
end BreUtils
