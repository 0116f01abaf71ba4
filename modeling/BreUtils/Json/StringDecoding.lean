/-
# What `parseString` makes of `\u`

`ParseUnicode` takes its four digits one place too far to the right: the first
digit is passed over, and the byte behind the escape is read in its place, as
a fourth digit where it is one.  `readUnit` is the code point that comes of it.
No encoding in UTF-8 is the beginning of another one, so one wrong code point
spoils the whole string: a literal is decoded exactly if each of its `\u` escapes
is `Harmless`, next to the byte that comes behind it.
-/

import BreUtils.Json.Completeness
import BreUtils.Lib.Utf8

namespace BreUtils
namespace Json

open Lib Cpp
open Rfc8259 (Item Spells isHexDigit hexDigit codeUnit quote)

variable {D : Type} {rt : Runtime D}

/-! ### The bytes of a code point -/

/-- A byte put together from some upper bits and some bits of the code point. -/
theorem toNat_or_and {a m x : UInt32} {i k : ℕ} (ha : a.toNat = k * 2 ^ i)
    (hm : m.toNat = 2 ^ i - 1) : (a ||| (x &&& m)).toNat = x.toNat % 2 ^ i + a.toNat := by
  rw [UInt32.toNat_or, UInt32.toNat_and, hm, Nat.and_two_pow_sub_one_eq_mod, ha,
    ← Nat.shiftLeft_eq, ← Nat.shiftLeft_add_eq_or_of_lt (Nat.mod_lt _ (by positivity)), add_comm]

/-- The last bits of a code point, in a byte that has others set. -/
theorem toChar_or_and {a m x : UInt32} {i k : ℕ} (ha : a.toNat = k * 2 ^ i)
    (hm : m.toNat = 2 ^ i - 1) : toChar (a ||| (x &&& m)) = .ofNat (x.toNat % 2 ^ i + a.toNat) :=
  congrArg UInt8.ofNat (toNat_or_and ha hm)

/-- **`ParseUnicode` writes UTF-8.** -/
theorem utf8_eq {c : UInt32} (h : c.toNat ≤ 0x10FFFF) : utf8 c = some (Utf8.encode c.toNat) := by
  have hshift (n : UInt32) : (c >>> n).toNat = c.toNat / 2 ^ (n.toNat % 32) := by
    rw [UInt32.toNat_shiftRight, Nat.shiftRight_eq_div_pow]
  have htail (x : UInt32) :
      toChar ((0x80 : UInt32) ||| (x &&& 0x3F)) = .ofNat (x.toNat % 64 + 0x80) :=
    toChar_or_and (i := 6) (k := 2) rfl rfl
  simp only [utf8, Utf8.encode, UInt32.le_iff_toNat_le, UInt32.reduceToNat]
  by_cases h₁ : c.toNat ≤ 0x7F
  · rw [if_pos h₁, if_pos h₁]
    rfl
  by_cases h₂ : c.toNat ≤ 0x7FF
  · rw [if_neg h₁, if_pos h₂, if_neg h₁, if_pos h₂, htail,
      toChar_or_and (i := 5) (k := 6) rfl rfl, hshift]
    rfl
  by_cases h₃ : c.toNat ≤ 0xFFFF
  · rw [if_neg h₁, if_neg h₂, if_pos h₃, if_neg h₁, if_neg h₂, if_pos h₃, htail, htail,
      toChar_or_and (i := 4) (k := 14) rfl rfl, hshift, hshift]
    rfl
  · rw [if_neg h₁, if_neg h₂, if_neg h₃, if_pos h, if_neg h₁, if_neg h₂, if_neg h₃, htail, htail,
      htail, toChar_or_and (i := 3) (k := 30) rfl rfl, hshift, hshift, hshift]
    rfl

/-! ### The code point of an escape -/

/-- The code point that `ParseUnicode` reads: the last three digits, and the byte behind them where
that is a digit too. -/
def readUnit (h₂ h₃ h₄ next : UInt8) : ℕ :=
  let n := (hexDigit h₂ * 16 + hexDigit h₃) * 16 + hexDigit h₄
  if isHexDigit next then n * 16 + hexDigit next else n

/-- The digit of the parser is that of the RFC. -/
theorem hexValue_eq : ∀ c, hexValue c = if isHexDigit c then some (hexDigit c) else none := by
  decide +kernel

/-- Digits are below 16. -/
theorem hexDigit_lt : ∀ c, isHexDigit c = true → hexDigit c < 16 := by
  decide +kernel

/-- The digit zero. -/
theorem hexDigit_eq_zero_iff : ∀ c, isHexDigit c = true → (hexDigit c = 0 ↔ c = ch '0') := by
  decide +kernel

/-- `std::from_chars` on digits of which the number fits. -/
theorem fromCharsHex_of_prefix {s : Bytes} {ds : List ℕ} (hs : hexPrefix s = ds) (hne : ds ≠ [])
    (hlt : ds.foldl (fun v d => 16 * v + d) 0 < 2 ^ 32) :
    fromCharsHex s = some (.ofNat (ds.foldl (fun v d => 16 * v + d) 0)) := by
  simp only [fromCharsHex, hs]
  rw [if_neg hne, if_pos hlt]

/-- `std::from_chars` reads three digits, and a fourth one where there is one. -/
theorem toNat_escapeCode {h₂ h₃ h₄ next : UInt8} (hv : ∀ c ∈ [h₂, h₃, h₄], isHexDigit c = true)
    (s : Bytes) : (escapeCode rt h₂ h₃ h₄ (next :: s)).toNat = readUnit h₂ h₃ h₄ next := by
  have hv₂ := hv h₂ (by simp)
  have hv₃ := hv h₃ (by simp)
  have hv₄ := hv h₄ (by simp)
  have hlt₂ := hexDigit_lt h₂ hv₂
  have hlt₃ := hexDigit_lt h₃ hv₃
  have hlt₄ := hexDigit_lt h₄ hv₄
  have hread (ds : List ℕ) (hds : hexPrefix [h₂, h₃, h₄, next] = ds) (hne : ds ≠ [])
      (hlt : ds.foldl (fun v d => 16 * v + d) 0 < 2 ^ 32) :
      (escapeCode rt h₂ h₃ h₄ (next :: s)).toNat = ds.foldl (fun v d => 16 * v + d) 0 := by
    rw [escapeCode, List.take_succ_cons, List.take_zero, fromCharsHex_of_prefix hds hne hlt,
      Option.getD_some, UInt32.toNat_ofNat', Nat.mod_eq_of_lt hlt]
  simp only [readUnit]
  cases hnext : isHexDigit next with
  | false =>
      rw [hread [hexDigit h₂, hexDigit h₃, hexDigit h₄]
        (by simp [hexPrefix, hexValue_eq, hv₂, hv₃, hv₄, hnext]) (List.cons_ne_nil _ _)
        (by simp only [List.foldl_cons, List.foldl_nil]; omega)]
      simp only [List.foldl_cons, List.foldl_nil, Bool.false_eq_true, if_false]
      omega
  | true =>
      have hlt := hexDigit_lt next hnext
      rw [hread [hexDigit h₂, hexDigit h₃, hexDigit h₄, hexDigit next]
        (by simp [hexPrefix, hexValue_eq, hv₂, hv₃, hv₄, hnext]) (List.cons_ne_nil _ _)
        (by simp only [List.foldl_cons, List.foldl_nil]; omega)]
      simp only [List.foldl_cons, List.foldl_nil, if_true]
      omega

/-- The escape `\uXXXX` is decoded right in front of the byte `next`: its first digit is `0` and
`next` is no digit, or all five have one value. -/
def HarmlessAt (h₁ h₂ h₃ h₄ next : UInt8) : Prop :=
  (h₁ = ch '0' ∧ isHexDigit next = false) ∨
    (isHexDigit next = true ∧ ∀ c ∈ [h₂, h₃, h₄, next], hexDigit c = hexDigit h₁)

instance (h₁ h₂ h₃ h₄ next : UInt8) : Decidable (HarmlessAt h₁ h₂ h₃ h₄ next) :=
  inferInstanceAs (Decidable (_ ∨ _))

/-- A number has one last digit. -/
theorem digit_inj {a b m n : ℕ} (ha : a < 16) (hb : b < 16) (h : m * 16 + a = n * 16 + b) :
    m = n ∧ a = b := by
  omega

/-- **When a code unit is read as it is written.** -/
theorem readUnit_eq_iff {h₁ h₂ h₃ h₄ next : UInt8}
    (hv : ∀ c ∈ [h₁, h₂, h₃, h₄], isHexDigit c = true) :
    readUnit h₂ h₃ h₄ next = codeUnit h₁ h₂ h₃ h₄ ↔ HarmlessAt h₁ h₂ h₃ h₄ next := by
  simp only [List.mem_cons, List.not_mem_nil, or_false, forall_eq_or_imp, forall_eq] at hv
  obtain ⟨hv₁, hv₂, hv₃, hv₄⟩ := hv
  have hlt₁ := hexDigit_lt h₁ hv₁
  have hlt₂ := hexDigit_lt h₂ hv₂
  have hlt₃ := hexDigit_lt h₃ hv₃
  have hlt₄ := hexDigit_lt h₄ hv₄
  simp only [readUnit, codeUnit, HarmlessAt, ← hexDigit_eq_zero_iff h₁ hv₁, List.mem_cons,
    List.not_mem_nil, or_false, forall_eq_or_imp, forall_eq]
  cases hnext : isHexDigit next with
  | false =>
      simp only [Bool.false_eq_true, if_false, and_true, false_and, or_false]
      omega
  | true =>
      have hlt := hexDigit_lt next hnext
      simp only [if_true, Bool.true_eq_false, and_false, true_and, false_or]
      refine ⟨fun h => ?_, fun h => by rw [h.1, h.2.1, h.2.2.1, h.2.2.2]⟩
      -- the two numbers have the same digits in base sixteen
      obtain ⟨h, e₄⟩ := digit_inj hlt hlt₄ h
      obtain ⟨h, e₃⟩ := digit_inj hlt₄ hlt₃ h
      obtain ⟨e₁, e₂⟩ := digit_inj hlt₃ hlt₂ h
      exact ⟨e₁, e₂.trans e₁, e₃.trans (e₂.trans e₁), e₄.trans (e₃.trans (e₂.trans e₁))⟩

/-! ### The characters of a literal -/

/-- A character that needs no escape stands for itself. -/
theorem chars_cons_iff {b : UInt8} {s k t : Bytes} (hq : b ≠ ch '"') (hb : b ≠ ch '\\') :
    Chars rt (b :: s) (b :: k) t ↔ Chars rt s k t := by
  refine ⟨fun h => ?_, .raw hq hb⟩
  generalize hs : b :: s = s₀ at h
  generalize hk : b :: k = k₀ at h
  cases h with
  | close => exact absurd (List.cons.inj hs).1 hq
  | raw _ _ h =>
      obtain ⟨-, rfl⟩ := List.cons.inj hs
      obtain ⟨-, rfl⟩ := List.cons.inj hk
      exact h
  | escape => exact absurd (List.cons.inj hs).1 hb

/-- So do several. -/
theorem chars_append_raw_iff {w s k t : Bytes} (hw : ∀ b ∈ w, b ≠ ch '"' ∧ b ≠ ch '\\') :
    Chars rt (w ++ s) (w ++ k) t ↔ Chars rt s k t := by
  induction w with
  | nil => rfl
  | cons b w ih =>
      obtain ⟨hq, hb⟩ := hw b (List.mem_cons_self ..)
      exact (chars_cons_iff hq hb).trans (ih fun c hc => hw c (List.mem_cons_of_mem _ hc))

/-- A backslash begins an escape. -/
theorem chars_backslash_iff {s k t : Bytes} :
    Chars rt (ch '\\' :: s) k t ↔
      ∃ w s' k', Escape rt s w s' ∧ k = w ++ k' ∧ Chars rt s' k' t := by
  refine ⟨fun h => ?_, ?_⟩
  · generalize hs : ch '\\' :: s = s₀ at h
    cases h with
    | close => cases hs
    | raw _ hb => exact absurd (List.cons.inj hs).1.symm hb
    | escape he h =>
        obtain ⟨-, rfl⟩ := List.cons.inj hs
        exact ⟨_, _, _, he, rfl, h⟩
  · rintro ⟨w, s', k', he, rfl, h⟩
    exact .escape he h

/-- `u` is no escape of one letter. -/
theorem escape_u : Rfc8259.escape (ch 'u') = none := rfl

/-- A two-character escape. -/
theorem chars_escaped_iff {e d : UInt8} {s k t : Bytes} (hd : Rfc8259.escape e = some d) :
    Chars rt (ch '\\' :: e :: s) (d :: k) t ↔ Chars rt s k t := by
  rw [chars_backslash_iff]
  refine ⟨?_, fun h => ⟨[d], s, k, .simple hd, rfl, h⟩⟩
  rintro ⟨w, s', k', he, hk, h⟩
  cases he with
  | simple hd' =>
      obtain rfl := Option.some.inj (hd.symm.trans hd')
      obtain ⟨-, rfl⟩ := List.cons.inj hk
      exact h
  | unicode => rw [escape_u] at hd; cases hd
  | pair => rw [escape_u] at hd; cases hd

/-- What is read is four digits long if the next character is a digit, else three. -/
theorem readUnit_lt {h₂ h₃ h₄ next : UInt8} (hv : ∀ c ∈ [h₂, h₃, h₄], isHexDigit c = true) :
    readUnit h₂ h₃ h₄ next < if isHexDigit next then 0x10000 else 0x1000 := by
  have hlt₂ := hexDigit_lt h₂ (hv h₂ (by simp))
  have hlt₃ := hexDigit_lt h₃ (hv h₃ (by simp))
  have hlt₄ := hexDigit_lt h₄ (hv h₄ (by simp))
  simp only [readUnit]
  split_ifs with hnext
  · have := hexDigit_lt next hnext
    omega
  · omega

/-- **The escape `\uXXXX` where a character is to be read**: it has to be the code point that is
read. -/
theorem chars_unicode_iff {h₁ h₂ h₃ h₄ b : UInt8} {c : Char} {s k t : Bytes}
    (hv : ∀ x ∈ [h₂, h₃, h₄], isHexDigit x = true) :
    Chars rt (ch '\\' :: ch 'u' :: h₁ :: h₂ :: h₃ :: h₄ :: b :: s)
        (String.utf8EncodeChar c ++ k) t ↔
      readUnit h₂ h₃ h₄ b = c.toNat ∧ Chars rt (b :: s) k t := by
  have hcode : (escapeCode rt h₂ h₃ h₄ (b :: s)).toNat = readUnit h₂ h₃ h₄ b :=
    toNat_escapeCode hv s
  have hlt : readUnit h₂ h₃ h₄ b < if isHexDigit b then 0x10000 else 0x1000 := readUnit_lt hv
  have hle : (escapeCode rt h₂ h₃ h₄ (b :: s)).toNat ≤ 0x10FFFF := by
    rw [hcode]
    split_ifs at hlt <;> omega
  have hvalid : c.toNat < 0xD800 ∨ 0xDFFF < c.toNat ∧ c.toNat < 0x110000 := c.valid
  have hc : c.toNat ≤ 0x10FFFF := by omega
  rw [chars_backslash_iff]
  constructor
  · rintro ⟨w, s', k', he, hk, h⟩
    cases he with
    | simple hd => rw [escape_u] at hd; cases hd
    | unicode _ _ hw =>
        obtain rfl := Option.some.inj ((utf8_eq hle).symm.trans hw)
        obtain ⟨heq, rfl⟩ := Utf8.encode_append_inj hc hle hk
        exact ⟨hcode ▸ heq.symm, h⟩
    | pair _ hs hhigh =>
        -- a high surrogate needs four digits, and there is a backslash in the place of the last
        obtain ⟨rfl, -⟩ := List.cons.inj hs
        have := (isHighSurrogate_iff.1 hhigh).1
        rw [hcode] at this
        exact absurd (hlt.trans_le (by decide)) (not_lt.2 this)
  · rintro ⟨heq, h⟩
    have hhigh : isHighSurrogate (escapeCode rt h₂ h₃ h₄ (b :: s)) = false := by
      rw [Bool.eq_false_iff, Ne, isHighSurrogate_iff, hcode, heq]
      omega
    refine ⟨_, _, k, .unicode (List.cons_ne_nil _ _) hhigh (utf8_eq hle), ?_, h⟩
    rw [hcode, heq, Utf8.encode_char]

/-! ### Literals -/

/-- The byte behind the first of some characters: of the next one, or the closing quote. -/
def nextByte (is : List Item) : UInt8 := (is.flatMap Item.text).headD (ch '"')

/-- Every escape `\uXXXX` of a literal is harmless where it stands. -/
def Harmless : List Item → Prop
  | [] => True
  | .unicode h₁ h₂ h₃ h₄ :: is => HarmlessAt h₁ h₂ h₃ h₄ (nextByte is) ∧ Harmless is
  | _ :: is => Harmless is

/-- What follows a character of a literal is not empty. -/
theorem exists_nextByte (is : List Item) (t : Bytes) :
    ∃ s, is.flatMap Item.text ++ ch '"' :: t = nextByte is :: s := by
  rw [nextByte]
  cases is.flatMap Item.text with
  | nil => exact ⟨t, rfl⟩
  | cons b s => exact ⟨s ++ ch '"' :: t, rfl⟩

/-- The digits of a `\u` escape. -/
theorem hexDigits {h₁ h₂ h₃ h₄ : UInt8} (hv : (Item.unicode h₁ h₂ h₃ h₄).Valid) :
    ∀ c ∈ [h₂, h₃, h₄], isHexDigit c = true :=
  fun c hc => hv c (List.mem_cons_of_mem _ hc)

/-- The character that a two-character escape stands for is an ASCII one. -/
theorem utf8_of_escape {e d : UInt8} {c : Char} (hd : Rfc8259.escape e = some d)
    (hc : c.toNat = d.toNat) : String.utf8EncodeChar c = [d] := by
  have hascii : ∀ e, (Rfc8259.escape e).all (fun d => d ≤ 0x7F) = true := by decide +kernel
  have hle : d.toNat ≤ 0x7F := by
    have := hascii e
    rwa [hd, Option.all_some, decide_eq_true_iff, UInt8.le_iff_toNat_le] at this
  rw [Utf8.encode_char, Utf8.encode, hc, if_pos hle, UInt8.ofNat_toNat]

/-- **The characters of a literal stand for what it spells, exactly if its escapes are
harmless.** -/
theorem chars_iff_harmless {is : List Item} {cs : List Char} (hv : ∀ i ∈ is, i.Valid)
    (hs : Spells is cs) (t : Bytes) :
    Chars rt (is.flatMap Item.text ++ ch '"' :: t) (cs.flatMap String.utf8EncodeChar) t ↔
      Harmless is := by
  induction hs with
  | nil => exact iff_of_true (.close t) trivial
  | unescaped _ ih =>
      have hi := hv _ (List.mem_cons_self ..)
      rw [List.flatMap_cons, List.flatMap_cons, List.append_assoc]
      exact (chars_append_raw_iff fun b hb => (Rfc8259.utf8_of_valid hi b hb).2).trans
        (ih fun j hj => hv j (List.mem_cons_of_mem _ hj))
  | escaped hd hc _ ih =>
      rw [List.flatMap_cons, List.flatMap_cons, List.append_assoc, utf8_of_escape hd hc]
      exact (chars_escaped_iff hd).trans (ih fun j hj => hv j (List.mem_cons_of_mem _ hj))
  | @unicode h₁ h₂ h₃ h₄ c is cs hc _ ih =>
      have hi := hv _ (List.mem_cons_self ..)
      obtain ⟨s, hnext⟩ := exists_nextByte is t
      have ih := ih fun j hj => hv j (List.mem_cons_of_mem _ hj)
      rw [hnext] at ih
      rw [List.flatMap_cons, List.flatMap_cons, List.append_assoc, hnext]
      refine (chars_unicode_iff (hexDigits hi)).trans (and_congr ?_ ih)
      rw [hc]
      exact readUnit_eq_iff hi
  | @pair h₁ h₂ h₃ h₄ l₁ l₂ l₃ l₄ c is cs hlow _ _ _ hc _ _ =>
      -- the byte behind the first half is a backslash: three digits are read, without the first
      have hi := hv _ (List.mem_cons_self ..)
      have hlt : readUnit h₂ h₃ h₄ (ch '\\') < 0x1000 := readUnit_lt (hexDigits hi)
      rw [List.flatMap_cons, List.flatMap_cons, List.append_assoc]
      refine iff_of_false (fun h => ?_) fun h => ?_
      · have heq := ((chars_unicode_iff (hexDigits hi)).1 h).1
        omega
      · have heq := (readUnit_eq_iff hi).2 h.1
        rw [show nextByte _ = ch '\\' from rfl] at heq
        omega

/-- `parseString` in front of a string, and where it stops. -/
theorem parseString_iff {input s k t : Bytes} {p q : ℕ} (h : At input p (ch '"' :: s))
    (hq : At input q t) :
    parseString rt input p = .ok (.string k, q) ↔ Chars rt s k t := by
  constructor
  · intro hok
    rcases chars_or_bad rt s with ⟨k', t', hk⟩ | ⟨e, hk⟩
    · obtain ⟨q', hok', hq'⟩ := parseString_ok h hk
      rw [hok'] at hok
      obtain ⟨hk', rfl⟩ := Prod.mk.inj (Except.ok.inj hok)
      rw [← Value.string.inj hk', hq.suffix_unique hq']
      exact hk
    · obtain ⟨_, msg, -, herr⟩ := parseString_error h hk
      rw [herr] at hok
      cases hok
  · intro hk
    obtain ⟨q', hok, hq'⟩ := parseString_ok h hk
    rw [hok, hq.position_unique hq']

/-- **A string literal is decoded as what it spells, exactly if each of its `\u` escapes is
harmless.** -/
theorem decodes_iff (rt : Runtime D) {input : Bytes} {p : ℕ} {is : List Item} {cs : List Char}
    {t : Bytes} (hv : ∀ i ∈ is, i.Valid) (hs : Spells is cs) (h : At input p (quote is ++ t)) :
    parseString rt input p =
        .ok (.string (cs.flatMap String.utf8EncodeChar), p + (quote is).length) ↔
      Harmless is := by
  have h' : At input p (ch '"' :: (is.flatMap Item.text ++ ch '"' :: t)) := by
    simpa [quote] using h
  exact (parseString_iff h' h.skip).trans (chars_iff_harmless hv hs t)

/-- `decodes_iff` at the literal `"\u0041"`. -/
theorem decodes_iff_sample :
    parseString Runtime.exact (quote [.unicode 48 48 52 49]) 0 =
        .ok (.string (['A'].flatMap String.utf8EncodeChar),
          0 + (quote [.unicode 48 48 52 49]).length) ↔
      Harmless [.unicode 48 48 52 49] :=
  have hv : ∀ c ∈ [48, 48, 52, 49], isHexDigit c = true := by decide +kernel
  decodes_iff Runtime.exact (t := []) (List.forall_mem_singleton.2 hv) (.unicode rfl .nil)
    ⟨[], by simp, rfl⟩

/-- `"\u1234"` is not U+1234. -/
theorem decodes_wrong : ¬∀ (is : List Item) (cs : List Char), (∀ i ∈ is, i.Valid) → Spells is cs →
    ∀ (input : Bytes) (p : ℕ) (t : Bytes), At input p (quote is ++ t) →
      parseString Runtime.exact input p =
        .ok (.string (cs.flatMap String.utf8EncodeChar), p + (quote is).length) := by
  intro h
  have hdigits : ∀ c ∈ [49, 50, 51, 52], isHexDigit c = true := by decide +kernel
  have hv : ∀ i ∈ [Item.unicode 49 50 51 52], i.Valid := List.forall_mem_singleton.2 hdigits
  have hs : Spells [.unicode 49 50 51 52] [Char.ofNat 0x1234] := .unicode rfl .nil
  have hat : At (quote [.unicode 49 50 51 52]) 0 (quote [.unicode 49 50 51 52] ++ []) :=
    ⟨[], by simp, rfl⟩
  have hharm := (decodes_iff Runtime.exact hv hs hat).1 (h _ _ hv hs _ _ _ hat)
  exact absurd hharm.1 (by decide)

end Json
end BreUtils
