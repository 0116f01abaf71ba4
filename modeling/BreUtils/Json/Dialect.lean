/-
# The dialect that the parser reads

`dialect` is the JSON grammar with the lexical classes of `Json/json_parse.hpp`:
every C-locale space, numbers that need no more than one digit before the
exponent, strings with raw control characters, and `\u` escapes of which the
first digit is never looked at and the others are read with `from_chars`, which
stops at the first byte that is no digit.  Its containers are those of RFC 8259.

`Fails` says where a text stops being a beginning of a text of the dialect: the
suffix in front of which the parser has nothing left to go on with.  The number
of bytes before that suffix is the position that the error message names.
-/

import BreUtils.Json.Parser
import BreUtils.Lib.Rfc8259

namespace BreUtils
namespace Json

open Lib Cpp
open Rfc8259 (Number)

variable {D : Type} (rt : Runtime D)

/-- Any number of spaces. -/
def Spaces (s t : Bytes) : Prop := ∃ w, (∀ c ∈ w, isspace c = true) ∧ s = w ++ t

/-- No space is next. -/
def NoSpace (s : Bytes) : Prop := ∀ c ∈ s.head?, isspace c = false

/-! ### Numbers -/

/-- The numbers that the scanner passes over: the parts may be empty, but a minus or a digit comes
first. -/
structure Scanned (n : Number) : Prop where
  start : n.negative = true ∨ n.int ≠ []
  int : ∀ c ∈ n.int, isdigit c = true
  frac : ∀ ds, n.frac = some ds → ∀ c ∈ ds, isdigit c = true
  exp : ∀ e sign ds, n.exp = some (e, sign, ds) → (e = ch 'e' ∨ e = ch 'E') ∧
    (∀ c ∈ sign, c = ch '+' ∨ c = ch '-') ∧ ∀ c ∈ ds, isdigit c = true

/-- Nothing in front of `t` belongs to the number too. -/
def Longest (n : Number) (t : Bytes) : Prop := ∀ c ∈ t.head?, isdigit c = false ∧
  (n.exp = none → c ≠ ch 'e' ∧ c ≠ ch 'E') ∧ (n.frac = none → n.exp = none → c ≠ ch '.') ∧
  ∀ e, n.exp = some (e, none, []) → c ≠ ch '+' ∧ c ≠ ch '-'

/-- A digit comes before the exponent. -/
def HasMantissa (n : Number) : Prop := n.int ≠ [] ∨ ∃ d ds, n.frac = some (d :: ds)

/-- What `std::stod` yields, with the overflow and underflow clause. -/
def doubleValue (n : Number) : Value D :=
  match rt.strtod n.text with
  | some d => .double d
  | none => .double (if n.negative then rt.neg rt.infinity else rt.infinity)

/-- A literal is an integer in the range of `int`. -/
def IsInt (n : Number) : Prop :=
  n.frac = none ∧ n.exp = none ∧ -2 ^ 31 ≤ n.intValue ∧ n.intValue < 2 ^ 31

instance (n : Number) : Decidable (IsInt n) := inferInstanceAs (Decidable (_ ∧ _))

/-- The value of a number: an `int` where the literal is one that fits, else a `double`. -/
def numberValue (n : Number) : Value D :=
  if IsInt n then .int (Int32.ofInt n.intValue) else doubleValue rt n

/-! ### Strings -/

/-- The `codePoint` of an escape whose last three digits are `h₂ h₃ h₄`, with `s` behind it: the
first byte of `s` is read as a fourth digit. -/
def escapeCode (h₂ h₃ h₄ : UInt8) (s : Bytes) : UInt32 :=
  (fromCharsHex (h₂ :: h₃ :: h₄ :: s.take 1)).getD (rt.indeterminate (s.length + 4))

/-- The `lowCodePoint` of the digits `d₁ d₂ d₃ d₄`, with `s` behind them. -/
def lowCode (d₁ d₂ d₃ d₄ : UInt8) (s : Bytes) : UInt32 :=
  (fromCharsHex [d₁, d₂, d₃, d₄]).getD (rt.indeterminate (s.length + 4))

/-- `s`, behind a backslash, starts with an escape that stands for `w` and leaves `t`. -/
inductive Escape : Bytes → Bytes → Bytes → Prop
  | simple {e d : UInt8} {s : Bytes} : Rfc8259.escape e = some d → Escape (e :: s) [d] s
  | unicode {h₁ h₂ h₃ h₄ : UInt8} {s w : Bytes} : s ≠ [] →
      isHighSurrogate (escapeCode rt h₂ h₃ h₄ s) = false →
      utf8 (escapeCode rt h₂ h₃ h₄ s) = some w →
      Escape (ch 'u' :: h₁ :: h₂ :: h₃ :: h₄ :: s) w s
  | pair {h₁ h₂ h₃ h₄ d₁ d₂ d₃ d₄ : UInt8} {s s' w : Bytes} : s ≠ [] →
      s' = ch '\\' :: ch 'u' :: d₁ :: d₂ :: d₃ :: d₄ :: s →
      isHighSurrogate (escapeCode rt h₂ h₃ h₄ s') = true →
      0xDC00 ≤ lowCode rt d₁ d₂ d₃ d₄ s → lowCode rt d₁ d₂ d₃ d₄ s ≤ 0xDFFF →
      utf8 (combine (escapeCode rt h₂ h₃ h₄ s') (lowCode rt d₁ d₂ d₃ d₄ s)) = some w →
      Escape (ch 'u' :: h₁ :: h₂ :: h₃ :: h₄ :: s') w s

/-- `s`, behind a backslash, goes wrong at `e`. -/
inductive BadEscape : Bytes → Bytes → Prop
  | missing : BadEscape [] []
  | unknown {c : UInt8} {s : Bytes} : Rfc8259.escape c = none → c ≠ ch 'u' →
      BadEscape (c :: s) (c :: s)
  | short {s : Bytes} : s.length ≤ 4 → BadEscape (ch 'u' :: s) s
  | unpaired {h₁ h₂ h₃ h₄ : UInt8} {s : Bytes} : s ≠ [] →
      isHighSurrogate (escapeCode rt h₂ h₃ h₄ s) = true →
      s.length ≤ 6 ∨ s[0]? ≠ some (ch '\\') ∨ s[1]? ≠ some (ch 'u') →
      BadEscape (ch 'u' :: h₁ :: h₂ :: h₃ :: h₄ :: s) s
  | badLow {h₁ h₂ h₃ h₄ d₁ d₂ d₃ d₄ : UInt8} {s s' : Bytes} : s ≠ [] →
      s' = ch '\\' :: ch 'u' :: d₁ :: d₂ :: d₃ :: d₄ :: s →
      isHighSurrogate (escapeCode rt h₂ h₃ h₄ s') = true →
      lowCode rt d₁ d₂ d₃ d₄ s < 0xDC00 ∨ 0xDFFF < lowCode rt d₁ d₂ d₃ d₄ s →
      BadEscape (ch 'u' :: h₁ :: h₂ :: h₃ :: h₄ :: s') s
  | tooLarge {h₁ h₂ h₃ h₄ : UInt8} {s : Bytes} : s ≠ [] →
      isHighSurrogate (escapeCode rt h₂ h₃ h₄ s) = false →
      utf8 (escapeCode rt h₂ h₃ h₄ s) = none →
      BadEscape (ch 'u' :: h₁ :: h₂ :: h₃ :: h₄ :: s) s

/-- `s`, behind an opening quote, starts with the characters `k` and a closing quote, and leaves
`t`. -/
inductive Chars : Bytes → Bytes → Bytes → Prop
  | close (t : Bytes) : Chars (ch '"' :: t) [] t
  | raw {c : UInt8} {s k t : Bytes} : c ≠ ch '"' → c ≠ ch '\\' → Chars s k t →
      Chars (c :: s) (c :: k) t
  | escape {s s' w k t : Bytes} : Escape rt s w s' → Chars s' k t →
      Chars (ch '\\' :: s) (w ++ k) t

/-- `s`, behind an opening quote, goes wrong at `e`, or ends before the string does. -/
inductive BadChars : Bytes → Bytes → Prop
  | unclosed : BadChars [] []
  | raw {c : UInt8} {s e : Bytes} : c ≠ ch '"' → c ≠ ch '\\' → BadChars s e →
      BadChars (c :: s) e
  | escape {s s' w e : Bytes} : Escape rt s w s' → BadChars s' e → BadChars (ch '\\' :: s) e
  | bad {s e : Bytes} : BadEscape rt s e → BadChars (ch '\\' :: s) e

/-! ### Texts -/

/-- **The dialect of the parser.** -/
def dialect : Language UInt8 Bytes (Value D) where
  byte := id
  gap := Spaces
  trail := Eq
  number s v t := ∃ n, Scanned n ∧ Longest n t ∧ HasMantissa n ∧ v = numberValue rt n ∧
    s = n.text ++ t
  string s k t := ∃ s', s = ch '"' :: s' ∧ Chars rt s' k t
  null := .null
  bool := .bool
  ofString := .string
  array := .array
  object ms v := ∃ o, AssocMap.LastWins ms o ∧ v = .object o

/-- What is being read when a text goes wrong. -/
inductive Kind where
  | value
  | elements
  | members

/-- A byte with which a number can start. -/
def startsNumber (c : UInt8) : Bool := isdigit c || c == ch '-'

/-- **Where a text goes wrong.**  The parser reads `s` for a `Kind` and finds nothing to go on with
in front of `e`. -/
inductive Fails : Kind → Bytes → Bytes → Prop
  | atEnd {s : Bytes} : Spaces s [] → Fails .value s []
  | unexpected {s t : Bytes} {c : UInt8} : Spaces s (c :: t) → isspace c = false →
      c ∉ ascii "ntf\"[\x7b" → startsNumber c = false → Fails .value s (c :: t)
  | null {s t : Bytes} : Spaces s (ch 'n' :: t) → ¬ascii "null" <+: ch 'n' :: t →
      Fails .value s (ch 'n' :: t)
  | bool {s t : Bytes} {c : UInt8} : Spaces s (c :: t) → c = ch 't' ∨ c = ch 'f' →
      ¬ascii "true" <+: c :: t → ¬ascii "false" <+: c :: t → Fails .value s (c :: t)
  | number {s t : Bytes} {n : Number} : Spaces s (n.text ++ t) → Scanned n → Longest n t →
      ¬HasMantissa n → Fails .value s t
  | string {s s₁ e : Bytes} : Spaces s (ch '"' :: s₁) → BadChars rt s₁ e → Fails .value s e
  | array {s s₁ e : Bytes} : Spaces s (ch '[' :: s₁) → (∀ t, ¬Spaces s₁ (ch ']' :: t)) →
      Fails .elements s₁ e → Fails .value s e
  | object {s s₁ e : Bytes} : Spaces s (ch '{' :: s₁) → (∀ t, ¬Spaces s₁ (ch '}' :: t)) →
      Fails .members s₁ e → Fails .value s e
  | element {s e : Bytes} : Fails .value s e → Fails .elements s e
  | separator {s s₁ s₂ e : Bytes} {v : Value D} : Spaces s s₁ →
      Derives (dialect rt) s₁ (.value v) s₂ → Spaces s₂ e → NoSpace e →
      e.head? ≠ some (ch ',') → e.head? ≠ some (ch ']') → Fails .elements s e
  | nextElement {s s₁ s₂ s₃ e : Bytes} {v : Value D} : Spaces s s₁ →
      Derives (dialect rt) s₁ (.value v) s₂ → Spaces s₂ (ch ',' :: s₃) → Fails .elements s₃ e →
      Fails .elements s e
  | key {s e : Bytes} : Spaces s e → NoSpace e → e.head? ≠ some (ch '"') → Fails .members s e
  | keyString {s s₁ e : Bytes} : Spaces s (ch '"' :: s₁) → BadChars rt s₁ e → Fails .members s e
  | colon {s s₁ s₂ k e : Bytes} : Spaces s s₁ → (dialect rt).string s₁ k s₂ → Spaces s₂ e →
      NoSpace e → e.head? ≠ some (ch ':') → Fails .members s e
  | memberValue {s s₁ s₂ s₃ k e : Bytes} : Spaces s s₁ → (dialect rt).string s₁ k s₂ →
      Spaces s₂ (ch ':' :: s₃) → Fails .value s₃ e → Fails .members s e
  | memberSeparator {s s₁ s₂ s₃ s₄ s₅ k e : Bytes} {v : Value D} : Spaces s s₁ →
      (dialect rt).string s₁ k s₂ → Spaces s₂ (ch ':' :: s₃) → Spaces s₃ s₄ →
      Derives (dialect rt) s₄ (.value v) s₅ → Spaces s₅ e → NoSpace e →
      e.head? ≠ some (ch ',') → e.head? ≠ some (ch '}') → Fails .members s e
  | nextMember {s s₁ s₂ s₃ s₄ s₅ s₆ k e : Bytes} {v : Value D} : Spaces s s₁ →
      (dialect rt).string s₁ k s₂ → Spaces s₂ (ch ':' :: s₃) → Spaces s₃ s₄ →
      Derives (dialect rt) s₄ (.value v) s₅ → Spaces s₅ (ch ',' :: s₆) → Fails .members s₆ e →
      Fails .members s e

/-- A text that starts with a value of the dialect, whatever comes behind it. -/
def Accepted (s : Bytes) : Prop :=
  ∃ s₁ v t, Spaces s s₁ ∧ Derives (dialect rt) s₁ (.value v) t

/-- The suffix of `s` at its first error. -/
def FirstError (s e : Bytes) : Prop := Fails rt .value s e

end Json
end BreUtils
