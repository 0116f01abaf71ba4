/-
# Where strict mode is no JSON parser

Strict mode returns on more than the JSON texts of RFC 8259.  `Slips` says where
it passes over something that RFC 8259 has no lexeme for: a blank that is a
vertical tab or a form feed, a number with leading zeros or without digits, a
string literal with control characters, with bytes that are no UTF-8 or with `\u`
and no digits behind it.  `Trailing` says that something is left behind the
value.  On an accepted text these are all there is (`jsonText_iff`): with neither,
the derivation of the dialect is one of RFC 8259, and a derivation of RFC 8259
leaves no room for either, since the parser stops where it stops.
-/

import BreUtils.Json.Completeness

namespace BreUtils
namespace Json

open Lib Cpp
open Rfc8259 (Number Item Ws)

variable {D : Type} (rt : Runtime D)

/-- The spaces in front of `s` are not all white space of RFC 8259. -/
def BadGap (s : Bytes) : Prop := ∃ t, Spaces s t ∧ NoSpace t ∧ ¬Ws s t

/-- The number literals of RFC 8259. -/
def RfcNumber (w : Bytes) : Prop := ∃ n : Number, n.Valid ∧ n.text = w

/-- A string literal of RFC 8259 is in front of `t`. -/
def RfcString (s t : Bytes) : Prop :=
  ∃ is : List Item, (∀ i ∈ is, i.Valid) ∧ s = Rfc8259.quote is ++ t

/-- **The parser reads on over a lexeme that is none of RFC 8259.** -/
inductive Slips : Kind → Bytes → Prop
  | gap {kind : Kind} {s : Bytes} : BadGap s → Slips kind s
  | number {s t : Bytes} {n : Number} : Spaces s (n.text ++ t) → Scanned n → Longest n t →
      HasMantissa n → ¬RfcNumber n.text → Slips .value s
  | string {s s₁ k t : Bytes} : Spaces s (ch '"' :: s₁) → Chars rt s₁ k t →
      ¬RfcString (ch '"' :: s₁) t → Slips .value s
  | array {s s₁ : Bytes} : Spaces s (ch '[' :: s₁) → Slips .elements s₁ → Slips .value s
  | object {s s₁ : Bytes} : Spaces s (ch '{' :: s₁) → Slips .members s₁ → Slips .value s
  | element {s : Bytes} : Slips .value s → Slips .elements s
  | behindElement {s s₁ s₂ : Bytes} {v : Value D} : Spaces s s₁ →
      Derives (dialect rt) s₁ (.value v) s₂ → BadGap s₂ → Slips .elements s
  | nextElement {s s₁ s₂ s₃ : Bytes} {v : Value D} : Spaces s s₁ →
      Derives (dialect rt) s₁ (.value v) s₂ → Spaces s₂ (ch ',' :: s₃) → Slips .elements s₃ →
      Slips .elements s
  | key {s s₁ k t : Bytes} : Spaces s (ch '"' :: s₁) → Chars rt s₁ k t →
      ¬RfcString (ch '"' :: s₁) t → Slips .members s
  | behindKey {s s₁ k s₂ : Bytes} : Spaces s (ch '"' :: s₁) → Chars rt s₁ k s₂ → BadGap s₂ →
      Slips .members s
  | memberValue {s s₁ k s₂ s₃ : Bytes} : Spaces s (ch '"' :: s₁) → Chars rt s₁ k s₂ →
      Spaces s₂ (ch ':' :: s₃) → Slips .value s₃ → Slips .members s
  | behindMember {s s₁ k s₂ s₃ s₄ s₅ : Bytes} {v : Value D} : Spaces s (ch '"' :: s₁) →
      Chars rt s₁ k s₂ → Spaces s₂ (ch ':' :: s₃) → Spaces s₃ s₄ →
      Derives (dialect rt) s₄ (.value v) s₅ → BadGap s₅ → Slips .members s
  | nextMember {s s₁ k s₂ s₃ s₄ s₅ s₆ : Bytes} {v : Value D} : Spaces s (ch '"' :: s₁) →
      Chars rt s₁ k s₂ → Spaces s₂ (ch ':' :: s₃) → Spaces s₃ s₄ →
      Derives (dialect rt) s₄ (.value v) s₅ → Spaces s₅ (ch ',' :: s₆) → Slips .members s₆ →
      Slips .members s

/-- Something other than white space is left behind the value in front of `s`. -/
def Trailing (s : Bytes) : Prop :=
  ∃ s₁ v t, Spaces s s₁ ∧ Derives (dialect rt) s₁ (.value v) t ∧ ¬Ws t []

variable {rt}

/-! ### Gaps -/

/-- The white space of the RFC is blanks. -/
theorem spaces_of_ws {s t : Bytes} : Ws s t → Spaces s t := by
  rintro ⟨w, hw, rfl⟩
  exact ⟨w, fun c hc => isspace_of_isWs c (hw c hc), rfl⟩

/-- Blanks without a bad one are white space of the RFC. -/
theorem Spaces.ws {s t : Bytes} (h : Spaces s t) (ht : NoSpace t) (hs : ¬BadGap s) : Ws s t := by
  by_contra hws
  exact hs ⟨t, h, ht, hws⟩

/-- Two runs of spaces in front of something else end in the same place. -/
theorem Spaces.unique {s t t' : Bytes} (h : Spaces s t) (ht : NoSpace t) (h' : Spaces s t')
    (ht' : NoSpace t') : t = t' :=
  (h.dropWhile_eq ht).symm.trans (h'.dropWhile_eq ht')

/-- White space of the RFC has no bad blank. -/
theorem not_badGap_of_ws {s t : Bytes} (h : Ws s t) (ht : NoSpace t) : ¬BadGap s := by
  rintro ⟨t', hs, ht', hws⟩
  exact hws (hs.unique ht' (spaces_of_ws h) ht ▸ h)

/-! ### A derivation without slips is one of RFC 8259 -/

/-- What is derived, without its value. -/
def bare : Node Bytes (Value D) → Node Unit Unit
  | .value _ => .value ()
  | .elements vs => .elements (vs.map fun _ => ())
  | .members ms => .members (ms.map fun _ => ((), ()))

/-- What is read when it is derived. -/
def kindOf {K V : Type} : Node K V → Kind
  | .value _ => .value
  | .elements _ => .elements
  | .members _ => .members

/-- A slip behind blanks is a slip. -/
theorem Slips.of_spaces {s s₁ : Bytes} (h : Slips rt .value s₁) (hs : Spaces s s₁)
    (hs₁ : NoSpace s₁) : Slips rt .value s := by
  cases h with
  | gap h =>
      obtain ⟨t, ht, hno, hws⟩ := h
      exact absurd ⟨[], by simp, (ht.unique hno (.refl _) hs₁) ▸ rfl⟩ hws
  | number h hn ht hm hrfc => exact .number (hs.trans h) hn ht hm hrfc
  | string h hk hrfc => exact .string (hs.trans h) hk hrfc
  | array h h' => exact .array (hs.trans h) h'
  | object h h' => exact .object (hs.trans h) h'

/-- **Without slips the derivation is one of RFC 8259.** -/
theorem rfc_of_not_slips {s t : Bytes} {n : Node Bytes (Value D)}
    (h : Derives (dialect rt) s n t) (hs : ¬Slips rt (kindOf n) s) :
    Derives (rfc8259 bareSyntax) s (bare n) t := by
  induction h with
  | null t => exact .null t
  | true t => exact .true t
  | false t => exact .false t
  | number h =>
      obtain ⟨n, hn, ht, hm, -, rfl⟩ := h
      obtain ⟨n', hn', heq⟩ : RfcNumber n.text := by
        by_contra hrfc
        exact hs (.number (.refl _) hn ht hm hrfc)
      exact .number ⟨n', hn', trivial, heq ▸ rfl⟩
  | string h =>
      obtain ⟨s₁, rfl, hk⟩ := h
      obtain ⟨is, his, heq⟩ : RfcString (ch '"' :: s₁) _ := by
        by_contra hrfc
        exact hs (.string (.refl _) hk hrfc)
      exact .string (k := ()) ⟨is, his, trivial, heq⟩
  | emptyArray h =>
      refine .emptyArray (Spaces.ws h (noSpace_cons rfl) fun hb => hs ?_)
      exact .array (.refl _) (.gap hb)
  | array _ ih => exact .array (ih fun h => hs (.array (.refl _) h))
  | emptyObject h _ =>
      refine .emptyObject (Spaces.ws h (noSpace_cons rfl) fun hb => hs ?_) trivial
      exact .object (.refl _) (.gap hb)
  | object _ _ ih => exact .object (ih fun h => hs (.object (.refl _) h)) trivial
  | lastElement h₁ h h₂ h₃ ih =>
      have hno := noSpace_of_derives h
      subst h₃
      exact .lastElement (Spaces.ws h₁ hno fun hb => hs (.gap hb))
        (ih fun hv => hs (.element (hv.of_spaces h₁ hno)))
        (Spaces.ws h₂ (noSpace_cons rfl) fun hb => hs (.behindElement h₁ h hb)) rfl
  | element h₁ h h₂ _ ih ih' =>
      have hno := noSpace_of_derives h
      exact .element (Spaces.ws h₁ hno fun hb => hs (.gap hb))
        (ih fun hv => hs (.element (hv.of_spaces h₁ hno)))
        (Spaces.ws h₂ (noSpace_cons rfl) fun hb => hs (.behindElement h₁ h hb))
        (ih' fun hv => hs (.nextElement h₁ h h₂ hv))
  | lastMember h₁ hk h₂ h₃ h h₄ h₅ ih =>
      have hno := noSpace_of_derives h
      obtain ⟨s₁, rfl, hk⟩ := hk
      subst h₅
      obtain ⟨is, his, heq⟩ : RfcString (ch '"' :: s₁) _ := by
        by_contra hrfc
        exact hs (.key h₁ hk hrfc)
      exact .lastMember (Spaces.ws h₁ (noSpace_cons rfl) fun hb => hs (.gap hb))
        ⟨is, his, trivial, heq⟩
        (Spaces.ws h₂ (noSpace_cons rfl) fun hb => hs (.behindKey h₁ hk hb))
        (Spaces.ws h₃ hno fun hb => hs (.memberValue h₁ hk h₂ (.gap hb)))
        (ih fun hv => hs (.memberValue h₁ hk h₂ (hv.of_spaces h₃ hno)))
        (Spaces.ws h₄ (noSpace_cons rfl) fun hb => hs (.behindMember h₁ hk h₂ h₃ h hb)) rfl
  | member h₁ hk h₂ h₃ h h₄ _ ih ih' =>
      have hno := noSpace_of_derives h
      obtain ⟨s₁, rfl, hk⟩ := hk
      obtain ⟨is, his, heq⟩ : RfcString (ch '"' :: s₁) _ := by
        by_contra hrfc
        exact hs (.key h₁ hk hrfc)
      exact .member (Spaces.ws h₁ (noSpace_cons rfl) fun hb => hs (.gap hb))
        ⟨is, his, trivial, heq⟩
        (Spaces.ws h₂ (noSpace_cons rfl) fun hb => hs (.behindKey h₁ hk hb))
        (Spaces.ws h₃ hno fun hb => hs (.memberValue h₁ hk h₂ (.gap hb)))
        (ih fun hv => hs (.memberValue h₁ hk h₂ (hv.of_spaces h₃ hno)))
        (Spaces.ws h₄ (noSpace_cons rfl) fun hb => hs (.behindMember h₁ hk h₂ h₃ h hb))
        (ih' fun hv => hs (.nextMember h₁ hk h₂ h₃ h h₄ hv))

/-! ### Where a literal ends -/

/-- Two numbers that are as long as they can be end in the same place. -/
theorem number_unique {n n' : Number} {t t' : Bytes} (hn : Scanned n) (ht : Longest n t)
    (hn' : Scanned n') (ht' : Longest n' t') (h : n.text ++ t = n'.text ++ t') : t = t' :=
  (scanNumber_at (.start _) hn ht).2.2.suffix_unique (scanNumber_at (h ▸ .start _) hn' ht').2.2

/-- Characters that need no escape can be left out in front. -/
theorem Chars.of_append_raw {w s k t : Bytes} (hw : ∀ b ∈ w, b ≠ ch '"' ∧ b ≠ ch '\\')
    (h : Chars rt (w ++ s) k t) : ∃ k', Chars rt s k' t := by
  induction w generalizing k with
  | nil => exact ⟨k, h⟩
  | cons b w ih =>
      obtain ⟨hq, hb⟩ := hw b (List.mem_cons_self ..)
      cases h with
      | close => exact absurd rfl hq
      | raw _ _ h => exact ih (fun c hc => hw c (List.mem_cons_of_mem _ hc)) h
      | escape => exact absurd rfl hb

/-- Three hexadecimal digits and a backslash are no surrogate. -/
theorem escapeCode_lt {h₂ h₃ h₄ : UInt8} (h : ∀ c ∈ [h₂, h₃, h₄], Rfc8259.isHexDigit c = true)
    (s : Bytes) : isHighSurrogate (escapeCode rt h₂ h₃ h₄ (ch '\\' :: s)) = false := by
  have hhex : ∀ c : UInt8, Rfc8259.isHexDigit c = true → ∃ d, hexValue c = some d ∧ d < 16 := by
    decide +kernel
  obtain ⟨d₂, hd₂, hlt₂⟩ := hhex h₂ (h _ (by simp))
  obtain ⟨d₃, hd₃, hlt₃⟩ := hhex h₃ (h _ (by simp))
  obtain ⟨d₄, hd₄, hlt₄⟩ := hhex h₄ (h _ (by simp))
  have hb : hexValue (ch '\\') = none := by decide
  have hbegins : hexPrefix (h₂ :: h₃ :: h₄ :: [ch '\\']) = [d₂, d₃, d₄] := by
    simp [hexPrefix, hd₂, hd₃, hd₄, hb]
  have hv : 16 * (16 * d₂ + d₃) + d₄ < 2 ^ 32 := by omega
  have hcode : escapeCode rt h₂ h₃ h₄ (ch '\\' :: s) =
      UInt32.ofNat (16 * (16 * d₂ + d₃) + d₄) := by
    simp only [escapeCode, fromCharsHex, List.take_succ_cons, List.take_zero, hbegins,
      List.foldl_cons, List.foldl_nil, Nat.mul_zero, Nat.zero_add]
    rw [if_neg (List.cons_ne_nil _ _), if_pos hv, Option.getD_some]
  rw [hcode, Bool.eq_false_iff, Ne, isHighSurrogate_iff, UInt32.toNat_ofNat_of_lt' hv]
  omega

/-- **The parser ends a string literal of RFC 8259 where RFC 8259 does**, if it reads it at all. -/
theorem chars_unique {is : List Item} (his : ∀ i ∈ is, i.Valid) {k t t' : Bytes}
    (h : Chars rt (is.flatMap Item.text ++ ch '"' :: t) k t') : t' = t := by
  induction is generalizing k with
  | nil =>
      cases h with
      | close => rfl
      | raw hq => exact absurd rfl hq
  | cons i is ih =>
      have hi := his i (List.mem_cons_self ..)
      have ih {k : Bytes} := ih (k := k) fun j hj => his j (List.mem_cons_of_mem _ hj)
      rw [List.flatMap_cons, List.append_assoc] at h
      generalize is.flatMap Item.text ++ ch '"' :: t = s at h ih
      cases i with
      | unescaped c =>
          obtain ⟨k', h⟩ := h.of_append_raw fun b hb => (Rfc8259.utf8_of_valid hi b hb).2
          exact ih h
      | escaped e =>
          cases h with
          | raw _ hb => exact absurd rfl hb
          | escape he h =>
              have hu : e ≠ ch 'u' := fun hu => by
                rw [Item.Valid, hu] at hi
                cases hi
              cases he with
              | simple => exact ih h
              | unicode | pair => exact absurd rfl hu
      | unicode h₁ h₂ h₃ h₄ =>
          have hhex : ∀ c ∈ [h₂, h₃, h₄], Rfc8259.isHexDigit c = true := fun c hc =>
            hi c (List.mem_cons_of_mem _ hc)
          cases h with
          | raw _ hb => exact absurd rfl hb
          | escape he h =>
              cases he with
              | simple hd => cases hd
              | unicode => exact ih h
              | pair _ hs' hhigh =>
                  rw [hs', escapeCode_lt hhex] at hhigh
                  cases hhigh

/-- A string of the RFC ends where the parser ends it. -/
theorem rfcString_unique {s t t' k : Bytes} (h : RfcString (ch '"' :: s) t)
    (hk : Chars rt s k t') : t' = t := by
  obtain ⟨is, his, heq⟩ := h
  rw [Rfc8259.quote, List.cons_append, List.append_assoc] at heq
  rw [(List.cons.inj heq).2] at hk
  exact chars_unique his hk

/-! ### The parser stops where RFC 8259 does -/

/-- What a value of the RFC starts with. -/
theorem rfc_exists_cons {s t : Bytes} {v : Unit}
    (h : Derives (rfc8259 bareSyntax) s (.value v) t) :
    ∃ c s', s = c :: s' ∧ (startsNumber c = true ∨ c ∈ ascii "ntf\"[\x7b") := by
  refine exists_cons_of_value rfl ?_ ?_ h
  · rintro _ _ t ⟨n, hn, -, rfl⟩
    exact exists_startsNumber (scanned_of_valid hn) t
  · rintro _ _ _ ⟨is, -, -, rfl⟩
    exact ⟨_, rfl⟩

/-- A value of the RFC starts with no blank. -/
theorem rfc_noSpace {s t : Bytes} {v : Unit} (h : Derives (rfc8259 bareSyntax) s (.value v) t) :
    NoSpace s := by
  obtain ⟨c, s, rfl, hc⟩ := rfc_exists_cons h
  exact noSpace_cons (startsValue c hc).1

/-- No closing bracket is next where RFC 8259 has elements. -/
theorem rfc_not_close_elements {s t : Bytes} {us : List Unit}
    (h : Derives (rfc8259 bareSyntax) s (.elements us) t) (u : Bytes) :
    ¬Spaces s (ch ']' :: u) := by
  have hno {s₁ s₂ : Bytes} {v : Unit} (hs : Ws s s₁)
      (h : Derives (rfc8259 bareSyntax) s₁ (.value v) s₂) : ¬Spaces s (ch ']' :: u) := fun hu => by
    obtain ⟨c, s₁, rfl, hc⟩ := rfc_exists_cons h
    have := hu.unique (noSpace_cons rfl) (spaces_of_ws hs) (rfc_noSpace h)
    exact (startsValue c hc).2 (List.cons.inj this).1.symm
  cases h with
  | lastElement h₁ h _ _ | element h₁ h _ _ => exact hno h₁ h

/-- No closing brace is next where RFC 8259 has members. -/
theorem rfc_not_close_members {s t : Bytes} {us : List (Unit × Unit)}
    (h : Derives (rfc8259 bareSyntax) s (.members us) t) (u : Bytes) : ¬Spaces s (ch '}' :: u) := by
  have hno {s₁ s₂ : Bytes} (hs : Ws s s₁) (hk : (rfc8259 bareSyntax).string s₁ () s₂) :
      ¬Spaces s (ch '}' :: u) := fun hu => by
    obtain ⟨is, -, -, rfl⟩ := hk
    have := hu.unique (noSpace_cons rfl) (spaces_of_ws hs) (noSpace_cons rfl)
    exact absurd (List.cons.inj this).1 (by decide)
  cases h with
  | lastMember h₁ hk _ _ _ _ _ | member h₁ hk _ _ _ _ _ => exact hno h₁ hk

/-- What the parser does in front of a derivation of RFC 8259: if it returns, it stands where the
derivation ends. -/
def Stops (rt : Runtime D) (input s : Bytes) : Node Unit Unit → Bytes → Prop
  | .value _, t => ∀ fuel p s₀ v q, At input p s₀ → s₀.dropWhile isspace = s →
      parseValue rt input fuel p = .ok (v, q) → At input q t
  | .elements _, t => ∀ fuel rounds a p r q, At input p (s.dropWhile isspace) →
      parseArrayLoop input (parseValue rt input fuel) rounds a p = .ok (r, q) → At input q t
  | .members _, t => ∀ fuel rounds o p r q, At input p (s.dropWhile isspace) →
      parseObjectLoop rt input (parseValue rt input fuel) rounds o p = .ok (r, q) → At input q t

variable {input : Bytes}

/-- A call that returns in front of `t` returns nowhere else. -/
theorem at_of_ok {α : Type} {r : Except Exn (α × ℕ)} {a b : α} {q : ℕ} {t : Bytes}
    (h : ∃ q, r = .ok (a, q) ∧ At input q t) (hok : r = .ok (b, q)) : At input q t := by
  obtain ⟨q', rfl, hat⟩ := h
  obtain ⟨-, rfl⟩ := Prod.mk.inj (Except.ok.inj hok)
  exact hat

/-- An error is no result. -/
theorem ErrorAt.not_ok {α : Type} {r : Except Exn α} {a : α} {e : Bytes} (h : ErrorAt input e r) :
    r ≠ .ok a := by
  obtain ⟨q, msg, -, rfl⟩ := h
  exact fun h => by cases h

/-- A value stops where the parser of its kind stops. -/
theorem stops_of_cons {c : UInt8} {s t : Bytes} {u : Unit} {g : ℕ → ℕ → Except Exn (Value D × ℕ)}
    (hg : ∀ fuel q, dispatch rt input fuel c q = g fuel q)
    (h : ∀ fuel q v r, At input q (c :: s) → g fuel q = .ok (v, r) → At input r t) :
    Stops rt input (c :: s) (.value u) t := by
  intro fuel p s₀ v r hat hs hok
  cases fuel with
  | zero => cases hok
  | succ fuel =>
      obtain ⟨q, hq, heq⟩ := parseValue_cons rt fuel hat hs
      rw [heq, hg] at hok
      exact h fuel q v r hq hok

/-- The parser stops behind a string of the RFC. -/
theorem parseString_stops {p q : ℕ} {s t : Bytes} {v : Value D} (h : At input p (ch '"' :: s))
    (hs : RfcString (ch '"' :: s) t) (hok : parseString rt input p = .ok (v, q)) :
    At input q t := by
  rcases chars_or_bad rt s with ⟨k, t', hk⟩ | ⟨e, hk⟩
  · exact rfcString_unique hs hk ▸ at_of_ok (parseString_ok h hk) hok
  · exact absurd hok (parseString_error h hk).not_ok

/-- A round of the loop of `parseObject` that gets past its value. -/
theorem parseObjectLoop_stops {s s₁ s₂ s₃ s₄ s₅ : Bytes} {u : Unit} (h₁ : Ws s s₁)
    (hk : (rfc8259 bareSyntax).string s₁ () s₂) (h₂ : Ws s₂ (ch ':' :: s₃)) (h₃ : Ws s₃ s₄)
    (hs₄ : NoSpace s₄) (ih : Stops rt input s₄ (.value u) s₅) {fuel rounds p q : ℕ}
    {o r : List (Bytes × Value D)} (hat : At input p (s.dropWhile isspace))
    (hok : parseObjectLoop rt input (parseValue rt input fuel) (rounds + 1) o p = .ok (r, q)) :
    ∃ o' q', At input q' s₅ ∧ separator input (ch '}') (ascii "Expected ',' or '\x7d'")
      (parseObjectLoop rt input (parseValue rt input fuel) rounds o') (fun q => (o', q)) q' =
        .ok (r, q) := by
  obtain ⟨is, his, -, hs₁⟩ := hk
  obtain ⟨s₁, rfl⟩ : ∃ s, s₁ = ch '"' :: s := ⟨_, hs₁⟩
  have hrfc : RfcString (ch '"' :: s₁) s₂ := ⟨is, his, hs₁⟩
  rw [(spaces_of_ws h₁).dropWhile_eq (noSpace_cons rfl)] at hat
  rcases chars_or_bad rt s₁ with ⟨k, s₂', hk⟩ | ⟨e, hk⟩
  · obtain rfl := rfcString_unique hrfc hk
    obtain ⟨q₁, hq₁, heq⟩ :=
      parseObjectLoop_key (parseValue rt input fuel) rounds hat hk (spaces_of_ws h₂) o
    rw [heq, bind_eq_ok] at hok
    obtain ⟨⟨v, q₂⟩, hv, hrest⟩ := hok
    exact ⟨_, q₂, ih fuel q₁ s₃ v q₂ hq₁ ((spaces_of_ws h₃).dropWhile_eq hs₄) hv, hrest⟩
  · exact absurd hok (parseObjectLoop_keyString hat hk o).not_ok

/-- A round of the loop of `parseArray` that gets past its element. -/
theorem parseArrayLoop_stops {s s₁ s₂ : Bytes} {u : Unit} (h₁ : Ws s s₁) (hs₁ : NoSpace s₁)
    (ih : Stops rt input s₁ (.value u) s₂) {fuel rounds p q : ℕ} {a r : List (Value D)}
    (hat : At input p (s.dropWhile isspace))
    (hok : parseArrayLoop input (parseValue rt input fuel) (rounds + 1) a p = .ok (r, q)) :
    ∃ a' q', At input q' s₂ ∧ separator input (ch ']') (ascii "Expected ',' or ']'")
      (parseArrayLoop input (parseValue rt input fuel) rounds a') (fun q => (a', q)) q' =
        .ok (r, q) := by
  rw [(spaces_of_ws h₁).dropWhile_eq hs₁] at hat
  rw [parseArrayLoop_succ, bind_eq_ok] at hok
  obtain ⟨⟨v, q'⟩, hv, hrest⟩ := hok
  exact ⟨_, q', ih fuel p s₁ v q' hat (Spaces.dropWhile_eq (.refl _) hs₁) hv, hrest⟩

/-- **Where a text of RFC 8259 has a derivation, the parser stops behind it**, if it returns. -/
theorem rfc_stops {s t : Bytes} {n : Node Unit Unit} (h : Derives (rfc8259 bareSyntax) s n t) :
    (∀ v, n = .value v → Follows (rfc8259 bareSyntax) t) → Stops rt input s n t := by
  induction h with
  | null t =>
      exact fun _ => stops_of_cons (fun _ _ => rfl) fun _ _ _ _ hat => at_of_ok (parseNull_ok hat)
  | true t =>
      exact fun _ => stops_of_cons (fun _ _ => rfl) fun _ _ _ _ hat => at_of_ok (parseBool_true hat)
  | false t =>
      exact fun _ => stops_of_cons (fun _ _ => rfl) fun _ _ _ _ hat =>
        at_of_ok (parseBool_false hat)
  | number h =>
      intro ht
      obtain ⟨n, hn, -, rfl⟩ := h
      have hscan := scanned_of_valid hn
      obtain ⟨c, s, hs, hc⟩ := exists_startsNumber hscan _
      rw [hs]
      refine stops_of_cons (fun _ _ => dispatch_default (notSpace_of_startsNumber c hc).2)
        fun _ q _ _ hat hok => ?_
      rw [parseDefault_number hat hc] at hok
      rw [← hs] at hat
      have hlong := (mayFollow_of_follows (ht _ rfl)).longest (n := n)
      exact at_of_ok ⟨_, parseNumber_ok hat hscan hlong (Or.inl hn.int_ne_nil), hat.skip⟩ hok
  | string h =>
      intro _
      obtain ⟨is, his, -, heq⟩ := h
      obtain ⟨s, rfl⟩ : ∃ s', _ = ch '"' :: s' := ⟨_, heq⟩
      exact stops_of_cons (fun _ _ => rfl) fun _ _ _ _ hat => parseString_stops hat ⟨is, his, heq⟩
  | emptyArray h =>
      exact fun _ => stops_of_cons (fun _ _ => rfl) fun _ _ _ _ hat =>
        at_of_ok (parseArray_empty hat (spaces_of_ws h))
  | array h ih =>
      intro _
      refine stops_of_cons (fun _ _ => dispatch_array) fun fuel q v r hat hok => ?_
      have hclose (u : Bytes) : ¬Spaces _ (ch ']' :: u) := rfc_not_close_elements h u
      obtain ⟨q', hq', heq⟩ := parseArray_loop (parseValue rt input fuel) hat hclose
      rw [heq, map_eq_ok] at hok
      obtain ⟨⟨a, r'⟩, hloop, heq'⟩ := hok
      obtain ⟨-, rfl⟩ := Prod.mk.inj heq'
      exact ih nofun fuel _ [] q' a r' hq' hloop
  | emptyObject h _ =>
      exact fun _ => stops_of_cons (fun _ _ => rfl) fun _ _ _ _ hat =>
        at_of_ok (parseObject_empty hat (spaces_of_ws h))
  | object h _ ih =>
      intro _
      refine stops_of_cons (fun _ _ => dispatch_object) fun fuel q v r hat hok => ?_
      have hclose (u : Bytes) : ¬Spaces _ (ch '}' :: u) := rfc_not_close_members h u
      obtain ⟨q', hq', heq⟩ := parseObject_loop rt (parseValue rt input fuel) hat hclose
      rw [heq, map_eq_ok] at hok
      obtain ⟨⟨a, r'⟩, hloop, heq'⟩ := hok
      obtain ⟨-, rfl⟩ := Prod.mk.inj heq'
      exact ih nofun fuel _ [] q' a r' hq' hloop
  | lastElement h₁ h h₂ h₃ ih =>
      intro _ fuel rounds a p r q hat hok
      cases rounds with
      | zero => cases hok
      | succ rounds =>
          obtain ⟨a', q', hq', hok⟩ := parseArrayLoop_stops h₁ (rfc_noSpace h)
            (ih fun _ _ => .bracket h₂ h₃) hat hok
          subst h₃
          have h₂ : Ws _ (ch ']' :: _) := h₂
          obtain ⟨r', hr', heq⟩ := separator_close hq' (spaces_of_ws h₂) rfl (by decide)
          exact at_of_ok ⟨r', heq, hr'⟩ hok
  | element h₁ h h₂ _ ih ih' =>
      intro _ fuel rounds a p r q hat hok
      cases rounds with
      | zero => cases hok
      | succ rounds =>
          obtain ⟨a', q', hq', hok⟩ := parseArrayLoop_stops h₁ (rfc_noSpace h)
            (ih fun _ _ => .comma h₂) hat hok
          obtain ⟨r', hr', heq⟩ := separator_comma hq' (spaces_of_ws h₂)
          rw [heq] at hok
          exact ih' nofun fuel rounds a' r' r q hr' hok
  | lastMember h₁ hk h₂ h₃ h h₄ h₅ ih =>
      intro _ fuel rounds o p r q hat hok
      cases rounds with
      | zero => cases hok
      | succ rounds =>
          obtain ⟨o', q', hq', hok⟩ := parseObjectLoop_stops h₁ hk h₂ h₃ (rfc_noSpace h)
            (ih fun _ _ => .brace h₄ h₅) hat hok
          subst h₅
          have h₄ : Ws _ (ch '}' :: _) := h₄
          obtain ⟨r', hr', heq⟩ := separator_close hq' (spaces_of_ws h₄) rfl (by decide)
          exact at_of_ok ⟨r', heq, hr'⟩ hok
  | member h₁ hk h₂ h₃ h h₄ _ ih ih' =>
      intro _ fuel rounds o p r q hat hok
      cases rounds with
      | zero => cases hok
      | succ rounds =>
          obtain ⟨o', q', hq', hok⟩ := parseObjectLoop_stops h₁ hk h₂ h₃ (rfc_noSpace h)
            (ih fun _ _ => .comma h₄) hat hok
          obtain ⟨r', hr', heq⟩ := separator_comma hq' (spaces_of_ws h₄)
          rw [heq] at hok
          exact ih' nofun fuel rounds o' r' r q hr' hok

/-- A derivation of the dialect and one of RFC 8259 end in the same place. -/
theorem rfc_agrees {s t t' : Bytes} {v : Value D} {u : Unit}
    (h : Derives (dialect rt) s (.value v) t) (h' : Derives (rfc8259 bareSyntax) s (.value u) t')
    (ht' : Follows (rfc8259 bareSyntax) t') : t = t' := by
  have hs := Spaces.dropWhile_eq (.refl s) (noSpace_of_derives h)
  obtain ⟨q, hok, hat⟩ := derives_parses h (s.length + 1) 0 s (.start s) hs (Nat.lt_succ_self _)
  exact hat.suffix_unique (rfc_stops h' (fun _ _ => ht') _ 0 s v q (.start s) hs hok)

/-! ### A derivation of RFC 8259 has no slips -/

/-- Where a slip can be, by the first byte of the value. -/
theorem Slips.value_cases {s₀ s : Bytes} {c : UInt8} (h : Slips rt .value s₀)
    (hs : Ws s₀ (c :: s)) (hc : isspace c = false) :
    (∃ n t, c :: s = Number.text n ++ t ∧ Scanned n ∧ Longest n t ∧ ¬RfcNumber n.text) ∨
      (c = ch '"' ∧ ∃ k t, Chars rt s k t ∧ ¬RfcString (c :: s) t) ∨
      (c = ch '[' ∧ Slips rt .elements s) ∨ (c = ch '{' ∧ Slips rt .members s) := by
  have hno := noSpace_cons (s := s) hc
  have heq {t : Bytes} (ht : Spaces s₀ t) (hno' : NoSpace t) : c :: s = t :=
    (spaces_of_ws hs).unique hno ht hno'
  cases h with
  | gap h => exact absurd h (not_badGap_of_ws hs hno)
  | @number _ t n h hn ht hm hrfc =>
      obtain ⟨d, u, hdu, hd⟩ := exists_startsNumber hn t
      refine Or.inl ⟨n, t, heq h ?_, hn, ht, hrfc⟩
      rw [hdu]
      exact noSpace_cons (notSpace_of_startsNumber d hd).1
  | string h hk hrfc =>
      obtain ⟨rfl, rfl⟩ := List.cons.inj (heq h (noSpace_cons rfl))
      exact Or.inr (Or.inl ⟨rfl, _, _, hk, hrfc⟩)
  | array h h' =>
      obtain ⟨rfl, rfl⟩ := List.cons.inj (heq h (noSpace_cons rfl))
      exact Or.inr (Or.inr (Or.inl ⟨rfl, h'⟩))
  | object h h' =>
      obtain ⟨rfl, rfl⟩ := List.cons.inj (heq h (noSpace_cons rfl))
      exact Or.inr (Or.inr (Or.inr ⟨rfl, h'⟩))

/-- A number starts like one. -/
theorem startsNumber_of_text {c : UInt8} {s t : Bytes} {n : Number} (hn : Scanned n)
    (h : c :: s = n.text ++ t) : startsNumber c = true := by
  obtain ⟨d, u, hdu, hd⟩ := exists_startsNumber hn t
  rw [(List.cons.inj (h.trans hdu)).1, hd]

/-- A byte that starts no number, string or container starts no slip. -/
theorem not_slips_of_first {s₀ s : Bytes} {c : UInt8} (hs : Ws s₀ (c :: s))
    (hc : isspace c = false ∧ startsNumber c = false ∧ c ∉ ascii "\"[\x7b") :
    ¬Slips rt .value s₀ := by
  obtain ⟨hsp, hstart, hmem⟩ := hc
  intro h
  rcases h.value_cases hs hsp with ⟨n, t, heq, hn, -⟩ | ⟨rfl, -⟩ | ⟨rfl, -⟩ | ⟨rfl, -⟩
  · exact absurd (startsNumber_of_text hn heq) (by simp [hstart])
  all_goals exact hmem (by decide)

/-- No slip is in front of a closing bracket. -/
theorem not_slips_elements {s t : Bytes} (hs : Ws s (ch ']' :: t)) : ¬Slips rt .elements s := by
  intro h
  cases h with
  | gap h => exact not_badGap_of_ws hs (noSpace_cons rfl) h
  | element h => exact not_slips_of_first hs (by decide) h
  | behindElement hs' h _ | nextElement hs' h _ _ =>
      exact not_close_of_derives hs' h (spaces_of_ws hs)

/-- No slip is in front of a closing brace. -/
theorem not_slips_members {s t : Bytes} (hs : Ws s (ch '}' :: t)) : ¬Slips rt .members s := by
  have hno {s₁ : Bytes} (hs' : Spaces s (ch '"' :: s₁)) : False := by
    have := hs'.unique (noSpace_cons rfl) (spaces_of_ws hs) (noSpace_cons rfl)
    exact absurd (List.cons.inj this).1 (by decide)
  intro h
  cases h with
  | gap h => exact not_badGap_of_ws hs (noSpace_cons rfl) h
  | key hs' | behindKey hs' | memberValue hs' | behindMember hs' | nextMember hs' => exact hno hs'

/-- Where the slips of the elements can be, behind a first element of RFC 8259. -/
theorem Slips.elements_cases {s s₁ s₂ : Bytes} {u : Unit} (h : Slips rt .elements s)
    (h₁ : Ws s s₁) (hv : Derives (rfc8259 bareSyntax) s₁ (.value u) s₂)
    (hs₂ : Follows (rfc8259 bareSyntax) s₂) (ih : ¬Slips rt .value s) :
    BadGap s₂ ∨ ∃ s₃, Spaces s₂ (ch ',' :: s₃) ∧ Slips rt .elements s₃ := by
  have hno := rfc_noSpace hv
  have heq {t t' : Bytes} {v : Value D} (ht : Spaces s t)
      (h : Derives (dialect rt) t (.value v) t') : t' = s₂ := by
    obtain rfl := ht.unique (noSpace_of_derives h) (spaces_of_ws h₁) hno
    exact rfc_agrees h hv hs₂
  cases h with
  | gap h => exact absurd h (not_badGap_of_ws h₁ hno)
  | element h => exact absurd h ih
  | behindElement hs h hb => exact Or.inl (heq hs h ▸ hb)
  | nextElement hs h hcomma h' => exact Or.inr ⟨_, heq hs h ▸ hcomma, h'⟩

/-- Where the slips of the members can be, behind a first member of RFC 8259. -/
theorem Slips.members_cases {s s₁ s₂ s₃ s₄ s₅ : Bytes} {u : Unit} (h : Slips rt .members s)
    (h₁ : Ws s s₁) (hk : (rfc8259 bareSyntax).string s₁ () s₂) (h₂ : Ws s₂ (ch ':' :: s₃))
    (h₃ : Ws s₃ s₄) (hv : Derives (rfc8259 bareSyntax) s₄ (.value u) s₅)
    (hs₅ : Follows (rfc8259 bareSyntax) s₅) (ih : ¬Slips rt .value s₃) :
    BadGap s₅ ∨ ∃ s₆, Spaces s₅ (ch ',' :: s₆) ∧ Slips rt .members s₆ := by
  obtain ⟨is, his, -, hs₁⟩ := hk
  obtain ⟨s₁, rfl⟩ : ∃ s, s₁ = ch '"' :: s := ⟨_, hs₁⟩
  have hrfc : RfcString (ch '"' :: s₁) s₂ := ⟨is, his, hs₁⟩
  have hkey {t k t' : Bytes} (ht : Spaces s (ch '"' :: t)) (hk : Chars rt t k t') :
      t = s₁ ∧ t' = s₂ := by
    obtain rfl := (List.cons.inj (ht.unique (noSpace_cons rfl) (spaces_of_ws h₁)
      (noSpace_cons rfl))).2
    exact ⟨rfl, rfcString_unique hrfc hk⟩
  have hcolon {t : Bytes} (ht : Spaces s₂ (ch ':' :: t)) : t = s₃ :=
    (List.cons.inj (ht.unique (noSpace_cons rfl) (spaces_of_ws h₂) (noSpace_cons rfl))).2
  have heq {t t' : Bytes} {v : Value D} (ht : Spaces s₃ t)
      (h : Derives (dialect rt) t (.value v) t') : t' = s₅ := by
    obtain rfl := ht.unique (noSpace_of_derives h) (spaces_of_ws h₃) (rfc_noSpace hv)
    exact rfc_agrees h hv hs₅
  cases h with
  | gap h => exact absurd h (not_badGap_of_ws h₁ (noSpace_cons rfl))
  | key hs hk hno =>
      obtain ⟨rfl, rfl⟩ := hkey hs hk
      exact absurd hrfc hno
  | behindKey hs hk hb =>
      obtain ⟨-, rfl⟩ := hkey hs hk
      exact absurd hb (not_badGap_of_ws h₂ (noSpace_cons rfl))
  | memberValue hs hk hc h =>
      obtain ⟨-, rfl⟩ := hkey hs hk
      exact absurd (hcolon hc ▸ h) ih
  | behindMember hs hk hc hs₃ h hb =>
      obtain ⟨-, rfl⟩ := hkey hs hk
      obtain rfl := hcolon hc
      exact Or.inl (heq hs₃ h ▸ hb)
  | nextMember hs hk hc hs₃ h hcomma h' =>
      obtain ⟨-, rfl⟩ := hkey hs hk
      obtain rfl := hcolon hc
      exact Or.inr ⟨_, heq hs₃ h ▸ hcomma, h'⟩

/-- What is next behind the spaces is one byte only. -/
theorem first_unique {c d : UInt8} {s t u : Bytes} (h : Spaces s (c :: t)) (h' : Ws s (d :: u))
    (hc : isspace c = false) (hd : isspace d = false) : c = d ∧ t = u :=
  List.cons.inj (h.unique (noSpace_cons hc) (spaces_of_ws h') (noSpace_cons hd))

/-- An opening bracket or brace without slips behind it starts none. -/
theorem not_slips_container {s₀ s : Bytes} {c : UInt8} (hs : Ws s₀ (c :: s))
    (hes : c = ch '[' → ¬Slips rt .elements s) (hms : c = ch '{' → ¬Slips rt .members s)
    (hc : c = ch '[' ∨ c = ch '{') : ¬Slips rt .value s₀ := by
  have hsp : isspace c = false := by rcases hc with rfl | rfl <;> rfl
  intro h
  rcases h.value_cases hs hsp with ⟨n, t, heq, hn, -⟩ | ⟨rfl, -⟩ | ⟨rfl, h⟩ | ⟨rfl, h⟩
  · have := startsNumber_of_text hn heq
    rcases hc with rfl | rfl <;> exact absurd this (by decide)
  · exact absurd hc (by decide)
  · exact hes rfl h
  · exact hms rfl h

/-- No slips: at a value behind any white space, at elements and at members. -/
def Clean (rt : Runtime D) (s : Bytes) : Node Unit Unit → Prop
  | .value _ => ∀ s₀, Ws s₀ s → ¬Slips rt .value s₀
  | .elements _ => ¬Slips rt .elements s
  | .members _ => ¬Slips rt .members s

/-- **A derivation of RFC 8259 has no slips.** -/
theorem clean_of_rfc {s t : Bytes} {n : Node Unit Unit} (h : Derives (rfc8259 bareSyntax) s n t) :
    (∀ v, n = .value v → Follows (rfc8259 bareSyntax) t) → Clean rt s n := by
  induction h with
  | null t => exact fun _ s₀ hs => not_slips_of_first (c := ch 'n') hs (by decide)
  | true t => exact fun _ s₀ hs => not_slips_of_first (c := ch 't') hs (by decide)
  | false t => exact fun _ s₀ hs => not_slips_of_first (c := ch 'f') hs (by decide)
  | @number s t v h =>
      intro ht s₀ hs hsl
      obtain ⟨n, hn, -, rfl⟩ := h
      have hscan := scanned_of_valid hn
      obtain ⟨c, s, heq, hc⟩ := exists_startsNumber hscan t
      obtain ⟨hsp, hmem⟩ := notSpace_of_startsNumber c hc
      rw [heq] at hs
      rcases hsl.value_cases hs hsp with ⟨n', t', h, hn', ht', hrfc⟩ | ⟨rfl, -⟩ | ⟨rfl, -⟩ |
        ⟨rfl, -⟩
      · have h := heq.trans h
        obtain rfl := number_unique hscan (mayFollow_of_follows (ht _ rfl)).longest hn' ht' h
        exact hrfc ⟨n, hn, List.append_cancel_right h⟩
      all_goals exact hmem (by decide)
  | string h =>
      intro _ s₀ hs hsl
      obtain ⟨is, his, -, heq⟩ := h
      obtain ⟨s₁, rfl⟩ : ∃ s', _ = ch '"' :: s' := ⟨_, heq⟩
      rcases hsl.value_cases hs rfl with ⟨n, t, h, hn, -⟩ | ⟨-, k, t, hk, hno⟩ | ⟨h, -⟩ | ⟨h, -⟩
      · exact absurd (startsNumber_of_text hn h) (by decide)
      · obtain rfl := rfcString_unique ⟨is, his, heq⟩ hk
        exact hno ⟨is, his, heq⟩
      all_goals exact absurd h (by decide)
  | emptyArray h =>
      intro _ s₀ hs
      exact not_slips_container hs (fun _ => not_slips_elements h) (fun h => absurd h (by decide))
        (Or.inl rfl)
  | array h ih =>
      intro _ s₀ hs
      exact not_slips_container hs (fun _ => ih nofun) (fun h => absurd h (by decide)) (Or.inl rfl)
  | emptyObject h _ =>
      intro _ s₀ hs
      exact not_slips_container hs (fun h => absurd h (by decide)) (fun _ => not_slips_members h)
        (Or.inr rfl)
  | object h _ ih =>
      intro _ s₀ hs
      exact not_slips_container hs (fun h => absurd h (by decide)) (fun _ => ih nofun) (Or.inr rfl)
  | lastElement h₁ h h₂ h₃ ih =>
      intro _ hsl
      have hs₂ := Follows.bracket h₂ h₃
      subst h₃
      have h₂ : Ws _ (ch ']' :: _) := h₂
      rcases hsl.elements_cases h₁ h hs₂ (ih (fun _ _ => hs₂) _ h₁) with hb | ⟨s, hcomma, -⟩
      · exact not_badGap_of_ws h₂ (noSpace_cons rfl) hb
      · exact absurd (first_unique hcomma h₂ rfl rfl).1 (by decide)
  | element h₁ h h₂ _ ih ih' =>
      intro _ hsl
      have hs₂ := Follows.comma h₂
      have h₂ : Ws _ (ch ',' :: _) := h₂
      rcases hsl.elements_cases h₁ h hs₂ (ih (fun _ _ => hs₂) _ h₁) with hb | ⟨s, hcomma, hsl⟩
      · exact not_badGap_of_ws h₂ (noSpace_cons rfl) hb
      · obtain ⟨-, rfl⟩ := first_unique hcomma h₂ rfl rfl
        exact ih' nofun hsl
  | lastMember h₁ hk h₂ h₃ h h₄ h₅ ih =>
      intro _ hsl
      have hs₅ := Follows.brace h₄ h₅
      subst h₅
      have h₄ : Ws _ (ch '}' :: _) := h₄
      rcases hsl.members_cases h₁ hk h₂ h₃ h hs₅ (ih (fun _ _ => hs₅) _ h₃) with
        hb | ⟨s, hcomma, -⟩
      · exact not_badGap_of_ws h₄ (noSpace_cons rfl) hb
      · exact absurd (first_unique hcomma h₄ rfl rfl).1 (by decide)
  | member h₁ hk h₂ h₃ h h₄ _ ih ih' =>
      intro _ hsl
      have hs₅ := Follows.comma h₄
      have h₄ : Ws _ (ch ',' :: _) := h₄
      rcases hsl.members_cases h₁ hk h₂ h₃ h hs₅ (ih (fun _ _ => hs₅) _ h₃) with
        hb | ⟨s, hcomma, hsl⟩
      · exact not_badGap_of_ws h₄ (noSpace_cons rfl) hb
      · obtain ⟨-, rfl⟩ := first_unique hcomma h₄ rfl rfl
        exact ih' nofun hsl

/-! ### Soundness -/

/-- **What strict mode takes for a JSON text and RFC 8259 does not.**  An accepted text is a JSON
text exactly if the parser slips nowhere and leaves nothing behind the value. -/
theorem jsonText_iff {s : Bytes} (h : Accepted rt s) :
    JsonText s ↔ ¬Slips rt .value s ∧ ¬Trailing rt s := by
  obtain ⟨s₁, v, t, hs, hv⟩ := h
  have hno := noSpace_of_derives hv
  constructor
  · rintro ⟨s₁', t', hs', hv', ht'⟩
    refine ⟨clean_of_rfc hv' (fun _ _ => .stop ht') s hs', ?_⟩
    rintro ⟨s₂, w, u, hs₂, hw, hu⟩
    obtain rfl := hs₂.unique (noSpace_of_derives hw) (spaces_of_ws hs') (rfc_noSpace hv')
    exact hu (rfc_agrees hw hv' (.stop ht') ▸ ht')
  · rintro ⟨hslip, htrail⟩
    refine ⟨s₁, t, hs.ws hno fun hb => hslip (.gap hb), ?_, ?_⟩
    · exact rfc_of_not_slips hv fun hsl => hslip (hsl.of_spaces hs hno)
    · by_contra ht
      exact htrail ⟨s₁, v, t, hs, hv, ht⟩

/-- **When strict mode is sound.**  What it returns on is a JSON text, unless it accepts the text
with a slip or with something left behind the value. -/
theorem parse_sound_iff (rt : Runtime D) (s : Bytes) :
    ((∃ v, parse rt s true = .ok v) → JsonText s) ↔
      (Accepted rt s → ¬Slips rt .value s ∧ ¬Trailing rt s) := by
  have hiff : (∃ v, parse rt s true = .ok v) ↔ Accepted rt s := by
    simp only [parse_eq_ok_iff, Accepted]
    exact ⟨fun ⟨v, s₁, t, h⟩ => ⟨s₁, v, t, h⟩, fun ⟨s₁, v, t, h⟩ => ⟨v, s₁, t, h⟩⟩
  rw [hiff]
  exact forall_congr' fun h => by rw [jsonText_iff h]

/-- `["Extra close"]]`, which the JSON checker asks to reject, is accepted. -/
theorem parse_extraClose :
    (∃ v, parse Runtime.exact (ascii "[\"Extra close\"]]") true = .ok v) ∧
      ¬JsonText (ascii "[\"Extra close\"]]") := by
  have hk :
      Chars Runtime.exact (ascii "Extra close\"]]") (ascii "Extra close" ++ []) (ascii "]]") :=
    .append_raw (w := ascii "Extra close") (by decide +kernel) (.close _)
  have hv : Derives (dialect Runtime.exact) (ascii "[\"Extra close\"]]")
      (.value (.array [.string (ascii "Extra close" ++ [])])) (ascii "]") :=
    .array (.lastElement (.refl _) (.string ⟨_, rfl, hk⟩) (.refl _) rfl)
  refine ⟨⟨_, parse_of_derives (.refl _) hv⟩, fun h => ?_⟩
  refine ((jsonText_iff ⟨_, _, _, .refl _, hv⟩).1 h).2 ⟨_, _, _, .refl _, hv, ?_⟩
  rintro ⟨w, hw, heq⟩
  rw [List.append_nil] at heq
  exact absurd (hw (ch ']') (heq ▸ List.mem_singleton.2 rfl)) (by decide)

end Json
end BreUtils
