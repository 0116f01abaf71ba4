/-
# What the string functions of the parser do

`parseEscape` with `parseUnicode` below it, and the loop of `parseString`: what
they return in front of an escape and of the characters of a string, where they
throw in front of any other text, and that there is no third kind of text.
-/

import BreUtils.Json.Scan

namespace BreUtils
namespace Json

open Lib Cpp

variable {D : Type} {rt : Runtime D} {input : Bytes}

/-! ### Code points -/

/-- A high surrogate is one by its number. -/
theorem isHighSurrogate_iff {c : UInt32} :
    isHighSurrogate c = true ↔ 0xD800 ≤ c.toNat ∧ c.toNat ≤ 0xDBFF := by
  simp [isHighSurrogate, UInt32.le_iff_toNat_le]

/-- A surrogate pair stands for a code point of the supplementary planes. -/
theorem toNat_combine {c l : UInt32} (hc : isHighSurrogate c = true) (h₁ : 0xDC00 ≤ l)
    (h₂ : l ≤ 0xDFFF) :
    (combine c l).toNat = 0x10000 + (c.toNat - 0xD800) * 2 ^ 10 + (l.toNat - 0xDC00) := by
  obtain ⟨hc₁, hc₂⟩ := isHighSurrogate_iff.1 hc
  have hl₁ : 0xDC00 ≤ l.toNat := UInt32.le_iff_toNat_le.1 h₁
  have hl₂ : l.toNat ≤ 0xDFFF := UInt32.le_iff_toNat_le.1 h₂
  have hcsub : (c - 0xD800).toNat = c.toNat - 0xD800 :=
    UInt32.toNat_sub_of_le _ _ (UInt32.le_iff_toNat_le.2 hc₁)
  have hlsub : (l - 0xDC00).toNat = l.toNat - 0xDC00 := UInt32.toNat_sub_of_le _ _ h₁
  have hshift : ((c - 0xD800) <<< 10).toNat = (c.toNat - 0xD800) * 2 ^ 10 := by
    rw [UInt32.toNat_shiftLeft, hcsub, Nat.shiftLeft_eq]
    exact Nat.mod_eq_of_lt (by simp; omega)
  rw [combine, UInt32.toNat_add, UInt32.toNat_add, hshift, hlsub]
  simp
  omega

/-- `utf8` has an encoding up to U+10FFFF. -/
theorem utf8_isSome {c : UInt32} : (utf8 c).isSome = true ↔ c.toNat ≤ 0x10FFFF := by
  simp only [utf8, UInt32.le_iff_toNat_le]
  split_ifs with h₁ h₂ h₃ h₄
  · exact iff_of_true rfl (h₁.trans (by decide))
  · exact iff_of_true rfl (h₂.trans (by decide))
  · exact iff_of_true rfl (h₃.trans (by decide))
  · exact iff_of_true rfl h₄
  · exact iff_of_false Bool.false_ne_true h₄

/-- Every surrogate pair is written. -/
theorem exists_utf8_combine {c l : UInt32} (hc : isHighSurrogate c = true) (h₁ : 0xDC00 ≤ l)
    (h₂ : l ≤ 0xDFFF) : ∃ w, utf8 (combine c l) = some w := by
  rw [← Option.isSome_iff_exists, utf8_isSome, toNat_combine hc h₁ h₂]
  have := isHighSurrogate_iff.1 hc
  have : l.toNat ≤ 0xDFFF := UInt32.le_iff_toNat_le.1 h₂
  omega

/-! ### Escapes -/

/-- What is done with the result of a table is done in each of its rows. -/
theorem elim_ite {α β : Type} {a : Prop} [Decidable a] (x : α) (o : Option α) (b : β) (f : α → β) :
    (if a then some x else o).elim b f = if a then f x else o.elim b f := by
  by_cases h : a
  · rw [if_pos h, if_pos h, Option.elim_some]
  · rw [if_neg h, if_neg h]

/-- The letters of the RFC, and `u`. -/
theorem parseEscape_eq (c : UInt8) (p : ℕ) :
    parseEscape rt input c p = (Rfc8259.escape c).elim
      (if c = ch 'u' then parseUnicode rt input p
        else .error (throwException input p (ascii "Invalid escape character")))
      fun d => .ok ([d], p) := by
  rw [Rfc8259.escape]
  simp only [elim_ite]
  rfl

/-- The surrogate branch in front of the second half of a pair. -/
theorem parseSurrogate_ok {p : ℕ} {code : UInt32} {d₁ d₂ d₃ d₄ : UInt8} {s : Bytes}
    (h : At input p (ch '\\' :: ch 'u' :: d₁ :: d₂ :: d₃ :: d₄ :: s)) (hs : s ≠ []) :
    parseSurrogate rt input code p =
      if lowCode rt d₁ d₂ d₃ d₄ s < 0xDC00 ∨ lowCode rt d₁ d₂ d₃ d₄ s > 0xDFFF then
        .error (throwException input (p + 6) (ascii "Invalid Unicode surrogate pair"))
      else .ok (combine code (lowCode rt d₁ d₂ d₃ d₄ s), p + 6) := by
  have hlen := h.add_length
  have hpos := List.length_pos_iff.2 hs
  simp only [List.length_cons] at hlen
  have hread : input.length - (p + 2) = s.length + 4 := by omega
  simp only [parseSurrogate, charAt_cons h, charAt_cons h.next, substr_at h.next.next, ok_bind,
    readHex, hread, if_neg (show ¬p + 6 ≥ input.length by omega), lowCode]
  simp

/-- The surrogate branch in front of anything else. -/
theorem parseSurrogate_error {p : ℕ} {code : UInt32} {s : Bytes} (h : At input p s)
    (hs : s.length ≤ 6 ∨ s[0]? ≠ some (ch '\\') ∨ s[1]? ≠ some (ch 'u')) :
    ErrorAt input s (parseSurrogate rt input code p) := by
  have hlen := h.add_length
  refine ⟨p, ascii "Invalid Unicode surrogate pair", h, ?_⟩
  by_cases hshort : s.length ≤ 6
  · simp [parseSurrogate, if_pos (show p + 6 ≥ input.length by omega)]
  · have hs := hs.resolve_left hshort
    match s with
    | c :: d :: s' =>
        simp only [List.length_cons, List.getElem?_cons_zero, List.getElem?_cons_succ, ne_eq,
          Option.some.injEq] at hlen hshort hs
        simp only [parseSurrogate, charAt_cons h, charAt_cons h.next, ok_bind,
          if_neg (show ¬p + 6 ≥ input.length by omega)]
        by_cases hc : c = ch '\\'
        · have hd := hs.resolve_left fun h => h hc
          simp [hc, hd]
        · simp [hc]
    | [_] => simp at hshort
    | [] => simp at hshort

/-- What `ParseUnicode` does with the code point and the cursor behind its digits. -/
def finishUnicode (input : Bytes) (x : UInt32 × ℕ) : Except Exn (Bytes × ℕ) :=
  match utf8 x.1 with
  | some bytes => .ok (bytes, x.2 - 1)
  | none => .error (throwException input x.2 (ascii "Invalid Unicode code point"))

/-- `ParseUnicode` with enough bytes behind the `u`: it passes over one byte, and reads the next
four. -/
theorem parseUnicode_eq {p : ℕ} {c h₁ h₂ h₃ h₄ : UInt8} {s : Bytes}
    (h : At input p (c :: h₁ :: h₂ :: h₃ :: h₄ :: s)) (hs : s ≠ []) :
    parseUnicode rt input p =
      (if isHighSurrogate (escapeCode rt h₂ h₃ h₄ s) then
        parseSurrogate rt input (escapeCode rt h₂ h₃ h₄ s) (p + 5)
      else .ok (escapeCode rt h₂ h₃ h₄ s, p + 5)) >>= finishUnicode input := by
  have hlen := h.add_length
  have hpos := List.length_pos_iff.2 hs
  simp only [List.length_cons] at hlen
  have hread : input.length - (p + 1) = s.length + 4 := by omega
  simp only [parseUnicode, substr_at h.next.next, ok_bind, readHex, hread,
    if_neg (show ¬p + 1 + 4 ≥ input.length by omega)]
  by_cases hhigh : isHighSurrogate (escapeCode rt h₂ h₃ h₄ s) = true
  · rw [if_pos hhigh]
    exact if_pos hhigh
  · rw [if_neg hhigh]
    exact if_neg hhigh

/-- Too few characters behind `u` are an error. -/
theorem parseUnicode_short {p : ℕ} {c : UInt8} {s : Bytes} (h : At input p (c :: s))
    (hs : s.length ≤ 4) : ErrorAt input s (parseUnicode rt input p) := by
  have hlen := h.add_length
  simp only [List.length_cons] at hlen
  refine ⟨p + 1, ascii "Invalid Unicode escape sequence", h.next, ?_⟩
  rw [parseUnicode, if_pos (show p + 1 + 4 ≥ input.length by omega)]
  rfl

/-- Behind `u` a code unit is read. -/
theorem parseEscape_u (p : ℕ) : parseEscape rt input (ch 'u') p = parseUnicode rt input p := by
  rw [parseEscape_eq]
  rfl

/-- **An escape is read**, up to its last byte, and stands for what the dialect says. -/
theorem parseEscape_ok {p : ℕ} {c : UInt8} {s w t : Bytes} (h : At input p (c :: s))
    (he : Escape rt (c :: s) w t) :
    ∃ q, parseEscape rt input c p = .ok (w, q) ∧ At input (q + 1) t := by
  generalize hcs : c :: s = s' at h he
  cases he with
  | simple hd =>
      obtain ⟨rfl, rfl⟩ := List.cons.inj hcs
      rw [parseEscape_eq, hd]
      exact ⟨p, rfl, h.next⟩
  | unicode hne hhigh hw =>
      obtain ⟨rfl, -⟩ := List.cons.inj hcs
      refine ⟨p + 4, ?_, h.skip (u := [_, _, _, _, _])⟩
      rw [parseEscape_u, parseUnicode_eq h hne, hhigh, if_neg Bool.false_ne_true, ok_bind,
        finishUnicode, hw]
      rfl
  | pair hne hs' hhigh hlow₁ hlow₂ hw =>
      obtain ⟨rfl, -⟩ := List.cons.inj hcs
      subst hs'
      have h' : At input (p + 5) _ := h.skip (u := [_, _, _, _, _])
      have hlow := not_or.2 ⟨UInt32.not_lt.2 hlow₁, UInt32.not_lt.2 hlow₂⟩
      refine ⟨p + 10, ?_, h'.skip (u := [_, _, _, _, _, _])⟩
      rw [parseEscape_u, parseUnicode_eq h (List.cons_ne_nil _ _), if_pos hhigh,
        parseSurrogate_ok h' hne, if_neg hlow, ok_bind, finishUnicode, hw]
      rfl

/-- **A bad escape throws** where it goes wrong. -/
theorem parseEscape_error {p : ℕ} {c : UInt8} {s e : Bytes} (h : At input p (c :: s))
    (he : BadEscape rt (c :: s) e) : ErrorAt input e (parseEscape rt input c p) := by
  generalize hcs : c :: s = s' at h he
  cases he with
  | missing => cases hcs
  | unknown hnone hu =>
      obtain ⟨rfl, rfl⟩ := List.cons.inj hcs
      rw [parseEscape_eq, hnone]
      exact ⟨p, _, h, if_neg hu⟩
  | short hlen =>
      obtain ⟨rfl, rfl⟩ := List.cons.inj hcs
      rw [parseEscape_u]
      exact parseUnicode_short h hlen
  | unpaired hne hhigh hs =>
      obtain ⟨rfl, -⟩ := List.cons.inj hcs
      obtain ⟨q, msg, hq, herr⟩ := parseSurrogate_error (h.skip (u := [_, _, _, _, _])) hs
      refine ⟨q, msg, hq, ?_⟩
      rw [parseEscape_u, parseUnicode_eq h hne, if_pos hhigh]
      exact congrArg (· >>= finishUnicode input) herr
  | badLow hne hs' hhigh hlow =>
      obtain ⟨rfl, -⟩ := List.cons.inj hcs
      subst hs'
      have h' : At input (p + 5) _ := h.skip (u := [_, _, _, _, _])
      refine ⟨p + 11, ascii "Invalid Unicode surrogate pair", h'.skip (u := [_, _, _, _, _, _]), ?_⟩
      rw [parseEscape_u, parseUnicode_eq h (List.cons_ne_nil _ _), if_pos hhigh,
        parseSurrogate_ok h' hne, if_pos hlow]
      rfl
  | tooLarge hne hhigh hnone =>
      obtain ⟨rfl, -⟩ := List.cons.inj hcs
      refine ⟨p + 5, ascii "Invalid Unicode code point", h.skip (u := [_, _, _, _, _]), ?_⟩
      rw [parseEscape_u, parseUnicode_eq h hne, hhigh, if_neg Bool.false_ne_true, ok_bind,
        finishUnicode, hnone]

/-- An escape is not empty. -/
theorem Escape.length_lt {s w t : Bytes} (h : Escape rt s w t) : t.length < s.length := by
  cases h with
  | simple _ => exact Nat.lt_succ_self _
  | unicode _ _ _ =>
      simp only [List.length_cons]
      omega
  | pair _ hs _ _ _ _ =>
      rw [hs]
      simp only [List.length_cons]
      omega

/-- **Behind a backslash there is an escape or a bad one.** -/
theorem escape_or_bad (rt : Runtime D) (s : Bytes) :
    (∃ w t, Escape rt s w t) ∨ ∃ e, BadEscape rt s e := by
  cases s with
  | nil => exact Or.inr ⟨_, .missing⟩
  | cons c s =>
      cases hc : Rfc8259.escape c with
      | some d => exact Or.inl ⟨_, _, .simple hc⟩
      | none =>
          by_cases hu : c = ch 'u'
          · subst hu
            match s with
            | h₁ :: h₂ :: h₃ :: h₄ :: b :: s =>
                have hne := List.cons_ne_nil b s
                generalize b :: s = s at hne
                cases hhigh : isHighSurrogate (escapeCode rt h₂ h₃ h₄ s) with
                | false =>
                    cases hw : utf8 (escapeCode rt h₂ h₃ h₄ s) with
                    | some w => exact Or.inl ⟨_, _, .unicode hne hhigh hw⟩
                    | none => exact Or.inr ⟨_, .tooLarge hne hhigh hw⟩
                | true => exact pair_or_bad hne hhigh
            | [] | [_] | [_, _] | [_, _, _] | [_, _, _, _] => exact Or.inr ⟨_, .short (by simp)⟩
          · exact Or.inr ⟨_, .unknown hc hu⟩
where
  /-- Behind a high surrogate there is a low one, or the escape is bad. -/
  pair_or_bad {h₁ h₂ h₃ h₄ : UInt8} {s : Bytes} (hne : s ≠ [])
      (hhigh : isHighSurrogate (escapeCode rt h₂ h₃ h₄ s) = true) :
      (∃ w t, Escape rt (ch 'u' :: h₁ :: h₂ :: h₃ :: h₄ :: s) w t) ∨
        ∃ e, BadEscape rt (ch 'u' :: h₁ :: h₂ :: h₃ :: h₄ :: s) e := by
    by_cases hs : s.length ≤ 6 ∨ s[0]? ≠ some (ch '\\') ∨ s[1]? ≠ some (ch 'u')
    · exact Or.inr ⟨_, .unpaired hne hhigh hs⟩
    · simp only [not_or, not_le, not_not] at hs
      obtain ⟨hlen, hb, hu⟩ := hs
      match s with
      | [] | [_] | [_, _] | [_, _, _] | [_, _, _, _] | [_, _, _, _, _] | [_, _, _, _, _, _] =>
          simp at hlen
      | b :: u :: d₁ :: d₂ :: d₃ :: d₄ :: c :: s =>
          obtain rfl : b = ch '\\' := Option.some.inj hb
          obtain rfl : u = ch 'u' := Option.some.inj hu
          have hne' := List.cons_ne_nil c s
          by_cases hlow : lowCode rt d₁ d₂ d₃ d₄ (c :: s) < 0xDC00 ∨
              0xDFFF < lowCode rt d₁ d₂ d₃ d₄ (c :: s)
          · exact Or.inr ⟨_, .badLow hne' rfl hhigh hlow⟩
          · rw [not_or, UInt32.not_lt, UInt32.not_lt] at hlow
            obtain ⟨w, hw⟩ := exists_utf8_combine hhigh hlow.1 hlow.2
            exact Or.inl ⟨w, _, .pair hne' rfl hhigh hlow.1 hlow.2 hw⟩

/-! ### Strings -/

/-- The end of a string takes a quotation mark. -/
theorem Chars.length_lt {s k t : Bytes} (h : Chars rt s k t) : t.length < s.length := by
  induction h with
  | close t => simp
  | raw _ _ _ ih => rw [List.length_cons]; omega
  | escape he _ ih =>
      have := he.length_lt
      rw [List.length_cons]
      omega

/-- **Behind an opening quote there is a string or a bad one.** -/
theorem chars_or_bad (rt : Runtime D) (s : Bytes) :
    (∃ k t, Chars rt s k t) ∨ ∃ e, BadChars rt s e := by
  induction hn : s.length using Nat.strong_induction_on generalizing s with
  | _ n ih =>
      subst hn
      cases s with
      | nil => exact Or.inr ⟨_, .unclosed⟩
      | cons c s =>
          by_cases hq : c = ch '"'
          · exact Or.inl ⟨[], s, hq ▸ .close s⟩
          by_cases hb : c = ch '\\'
          · subst hb
            rcases escape_or_bad rt s with ⟨w, t, he⟩ | ⟨e, he⟩
            · have hlt := he.length_lt
              rcases ih _ (by rw [List.length_cons]; omega) t rfl with ⟨k, u, hk⟩ | ⟨e, hk⟩
              · exact Or.inl ⟨w ++ k, u, .escape he hk⟩
              · exact Or.inr ⟨e, .escape he hk⟩
            · exact Or.inr ⟨e, .bad he⟩
          · rcases ih _ (by simp) s rfl with ⟨k, t, hk⟩ | ⟨e, hk⟩
            · exact Or.inl ⟨c :: k, t, .raw hq hb hk⟩
            · exact Or.inr ⟨e, .raw hq hb hk⟩

/-- One round of the loop over a byte that stands for itself. -/
theorem parseStringLoop_raw {fuel p : ℕ} {c : UInt8} {s : Bytes} (h : At input p (c :: s))
    (hq : c ≠ ch '"') (hb : c ≠ ch '\\') :
    parseStringLoop rt input (fuel + 1) p =
      (parseStringLoop rt input fuel (p + 1)).map fun x => (c :: x.1, x.2) := by
  simp only [parseStringLoop, h.getElem?_cons, if_neg hq, if_neg hb]
  cases parseStringLoop rt input fuel (p + 1) <;> rfl

/-- One round of the loop over an escape. -/
theorem parseStringLoop_escape {fuel p q : ℕ} {c : UInt8} {s w : Bytes}
    (h : At input p (ch '\\' :: c :: s)) (he : parseEscape rt input c (p + 1) = .ok (w, q)) :
    parseStringLoop rt input (fuel + 1) p =
      (parseStringLoop rt input fuel (q + 1)).map fun x => (w ++ x.1, x.2) := by
  simp only [parseStringLoop, h.getElem?_cons, h.next.getElem?_cons, he, ok_bind]
  rw [if_neg (by decide), if_pos trivial]
  cases parseStringLoop rt input fuel (q + 1) <;> rfl

/-- The loop reads the characters of a string and stops in front of the closing quote. -/
theorem parseStringLoop_ok {s k t : Bytes} (hk : Chars rt s k t) {fuel p : ℕ} (h : At input p s)
    (hf : s.length < fuel) :
    ∃ q, parseStringLoop rt input fuel p = .ok (k, q) ∧ At input q (ch '"' :: t) := by
  induction hk generalizing fuel p with
  | close t =>
      cases fuel with
      | zero => cases hf
      | succ fuel =>
          refine ⟨p, ?_, h⟩
          simp [parseStringLoop, h.getElem?_cons]
  | raw hq hb _ ih =>
      cases fuel with
      | zero => cases hf
      | succ fuel =>
          obtain ⟨q, hok, hat⟩ := ih h.next (Nat.lt_of_succ_lt_succ hf)
          refine ⟨q, ?_, hat⟩
          rw [parseStringLoop_raw h hq hb, hok]
          rfl
  | @escape s s' w k t he _ ih =>
      cases fuel with
      | zero => cases hf
      | succ fuel =>
          have hlt := he.length_lt
          obtain ⟨c, s, rfl⟩ := List.exists_cons_of_length_pos (by omega : 0 < s.length)
          obtain ⟨q, hok, hat⟩ := parseEscape_ok h.next he
          obtain ⟨r, hok', hat'⟩ := ih hat (hlt.trans (Nat.lt_of_succ_lt_succ hf))
          refine ⟨r, ?_, hat'⟩
          rw [parseStringLoop_escape h hok, hok']
          rfl

/-- In front of a bad string the loop throws, or runs into the end of the text. -/
theorem parseStringLoop_error {s e : Bytes} (hk : BadChars rt s e) {fuel p : ℕ} (h : At input p s)
    (hf : s.length < fuel) :
    ErrorAt input e (parseStringLoop rt input fuel p) ∨
      ∃ k q, parseStringLoop rt input fuel p = .ok (k, q) ∧ At input q [] ∧ e = [] := by
  induction hk generalizing fuel p with
  | unclosed =>
      cases fuel with
      | zero => cases hf
      | succ fuel =>
          refine Or.inr ⟨[], p, ?_, h, rfl⟩
          simp [parseStringLoop, h.getElem?_nil]
  | @raw c s e hq hb _ ih =>
      cases fuel with
      | zero => cases hf
      | succ fuel =>
          rw [parseStringLoop_raw h hq hb]
          rcases ih h.next (Nat.lt_of_succ_lt_succ hf) with
            ⟨q, msg, hat, herr⟩ | ⟨k, q, hok, hat⟩
          · exact Or.inl ⟨q, msg, hat, by rw [herr]; rfl⟩
          · exact Or.inr ⟨c :: k, q, by rw [hok]; rfl, hat⟩
  | @escape s s' w e he _ ih =>
      cases fuel with
      | zero => cases hf
      | succ fuel =>
          have hlt := he.length_lt
          obtain ⟨c, s, rfl⟩ := List.exists_cons_of_length_pos (by omega : 0 < s.length)
          obtain ⟨q, hok, hat⟩ := parseEscape_ok h.next he
          rw [parseStringLoop_escape h hok]
          rcases ih hat (hlt.trans (Nat.lt_of_succ_lt_succ hf)) with
            ⟨q, msg, hat, herr⟩ | ⟨k, q, hok, hat⟩
          · exact Or.inl ⟨q, msg, hat, by rw [herr]; rfl⟩
          · exact Or.inr ⟨w ++ k, q, by rw [hok]; rfl, hat⟩
  | @bad s e he =>
      cases fuel with
      | zero => cases hf
      | succ fuel =>
          refine Or.inl ?_
          simp only [parseStringLoop, h.getElem?_cons]
          rw [if_neg (by decide), if_pos trivial]
          cases s with
          | nil =>
              cases he
              simp only [h.next.getElem?_nil]
              exact ⟨p + 1, _, h.next, rfl⟩
          | cons c s =>
              obtain ⟨q, msg, hat, herr⟩ := parseEscape_error h.next he
              simp only [h.next.getElem?_cons, herr]
              exact ⟨q, msg, hat, rfl⟩

/-- Another first character, another word. -/
theorem not_prefix_cons {c : UInt8} {s : Bytes} (h : s.head? ≠ some c) : ¬[c] <+: s := by
  rintro ⟨t, rfl⟩
  exact h rfl

/-- **`parseString` reads a string** and stops behind it. -/
theorem parseString_ok {p : ℕ} {s k t : Bytes} (h : At input p (ch '"' :: s))
    (hk : Chars rt s k t) :
    ∃ q, parseString rt input p = .ok (.string k, q) ∧ At input q t := by
  have hlen := h.next.add_length
  obtain ⟨q, hok, hat⟩ := parseStringLoop_ok hk h.next (show s.length < input.length + 1 by omega)
  refine ⟨q + 1, ?_, hat.next⟩
  simp [parseString, expect_ok (w := [ch '"']) h, hok, expect_ok (w := [ch '"']) hat]

/-- **`parseString` throws** in front of the place where a string goes wrong. -/
theorem parseString_error {p : ℕ} {s e : Bytes} (h : At input p (ch '"' :: s))
    (hk : BadChars rt s e) : ErrorAt input e (parseString rt input p) := by
  have hlen := h.next.add_length
  have hopen := expect_ok (w := [ch '"']) h
  simp only [List.length_singleton] at hopen
  rcases parseStringLoop_error hk h.next (show s.length < input.length + 1 by omega) with
    ⟨q, msg, hat, herr⟩ | ⟨k, q, hok, hat, rfl⟩
  · exact ⟨q, msg, hat, by rw [parseString, hopen, ok_bind, herr]; rfl⟩
  · obtain ⟨r, msg, hat', herr⟩ := expect_error hat (not_prefix_cons (c := ch '"') (by simp))
    refine ⟨r, msg, hat', ?_⟩
    rw [parseString, hopen, ok_bind, hok, ok_bind]
    simp only [herr]
    rfl

end Json
end BreUtils
