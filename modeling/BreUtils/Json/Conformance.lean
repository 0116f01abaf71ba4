/-
# The parser reads its dialect

In front of a derivation of the dialect the recursive functions of the parser
return what it derives and stop where it stops: `derives_parses`, for values,
elements and members at once, by induction on the derivation.  The first part has
one lemma for each step that a function can take; `BreUtils.Json.Rejection` uses
the same lemmas for the texts that are no beginning of a derivation.
-/

import BreUtils.Json.Strings

namespace BreUtils
namespace Json

open Lib Cpp
open Rfc8259 (Number)

variable {D : Type} {rt : Runtime D} {input : Bytes}

/-! ### One step of each function -/

/-- `null`. -/
theorem parseNull_ok {p : ℕ} {t : Bytes} (h : At input p (ascii "null" ++ t)) :
    ∃ q, parseNull (D := D) input p = .ok (.null, q) ∧ At input q t :=
  ⟨_, by rw [parseNull, expect_ok h]; rfl, h.skip⟩

/-- Anything else. -/
theorem parseNull_error {p : ℕ} {s : Bytes} (h : At input p s) (hs : ¬ascii "null" <+: s) :
    ErrorAt input s (parseNull (D := D) input p) := by
  exact (expect_error h hs).bind _

/-- `true`. -/
theorem parseBool_true {p : ℕ} {t : Bytes} (h : At input p (ascii "true" ++ t)) :
    ∃ q, parseBool (D := D) input p = .ok (.bool true, q) ∧ At input q t := by
  refine ⟨p + 4, ?_, h.skip⟩
  rw [parseBool, substr_at h]
  rfl

/-- `false`. -/
theorem parseBool_false {p : ℕ} {t : Bytes} (h : At input p (ascii "false" ++ t)) :
    ∃ q, parseBool (D := D) input p = .ok (.bool false, q) ∧ At input q t := by
  refine ⟨p + 5, ?_, h.skip⟩
  rw [parseBool, substr_at h, substr_at h]
  rfl

/-- Neither of them. -/
theorem parseBool_error {p : ℕ} {s : Bytes} (h : At input p s) (ht : ¬ascii "true" <+: s)
    (hf : ¬ascii "false" <+: s) : ErrorAt input s (parseBool (D := D) input p) := by
  have ht' : s.take 4 ≠ ascii "true" := fun he => ht (List.prefix_iff_eq_take.2 he.symm)
  have hf' : s.take 5 ≠ ascii "false" := fun he => hf (List.prefix_iff_eq_take.2 he.symm)
  refine ⟨p, ascii "Invalid boolean value", h, ?_⟩
  rw [parseBool, substr_at h, substr_at h]
  simp [ht', hf']

/-- What can start a number is parsed as one. -/
theorem parseDefault_number {p : ℕ} {c : UInt8} {s : Bytes} (h : At input p (c :: s))
    (hc : startsNumber c = true) : parseDefault rt input p = parseNumber rt input p := by
  rw [startsNumber] at hc
  simp only [parseDefault, charAt_cons h, ok_bind]
  rw [if_neg (not_not.2 hc)]

/-- What cannot start a value is refused. -/
theorem parseDefault_error {p : ℕ} {c : UInt8} {s : Bytes} (h : At input p (c :: s))
    (hc : startsNumber c = false) : ErrorAt input (c :: s) (parseDefault rt input p) := by
  rw [startsNumber] at hc
  refine ⟨p, ascii "Unexpected character", h, ?_⟩
  simp only [parseDefault, charAt_cons h, ok_bind]
  rw [if_pos (by simp [hc])]
  rfl

/-- What `parseValue` does with the first byte `c` of a value. -/
def dispatch (rt : Runtime D) (input : Bytes) (fuel : ℕ) (c : UInt8) (q : ℕ) :
    Except Exn (Value D × ℕ) :=
  if c = ch 'n' then parseNull input q
  else if c = ch 't' ∨ c = ch 'f' then parseBool input q
  else if c = ch '"' then parseString rt input q
  else if c = ch '[' then parseArray input (parseValue rt input fuel) q
  else if c = ch '{' then parseObject rt input (parseValue rt input fuel) q
  else parseDefault rt input q

/-- Every byte but six is left to `parseDefault`. -/
theorem dispatch_default {fuel q : ℕ} {c : UInt8} (hc : c ∉ ascii "ntf\"[\x7b") :
    dispatch rt input fuel c q = parseDefault rt input q := by
  have hne (x : UInt8) (hx : x ∈ ascii "ntf\"[\x7b") : c ≠ x := fun h => hc (h ▸ hx)
  rw [dispatch, if_neg (hne _ (by decide)),
    if_neg (not_or.2 ⟨hne _ (by decide), hne _ (by decide)⟩), if_neg (hne _ (by decide)),
    if_neg (hne _ (by decide)), if_neg (hne _ (by decide))]

/-- A bracket opens an array. -/
theorem dispatch_array {fuel q : ℕ} : dispatch rt input fuel (ch '[') q =
    parseArray input (parseValue rt input fuel) q := rfl

/-- A brace opens an object. -/
theorem dispatch_object {fuel q : ℕ} : dispatch rt input fuel (ch '{') q =
    parseObject rt input (parseValue rt input fuel) q := rfl

/-- `parseValue` passes over the spaces and looks at the byte behind them. -/
theorem parseValue_cons (rt : Runtime D) (fuel : ℕ) {p : ℕ} {c : UInt8} {s s₀ : Bytes}
    (h : At input p s₀) (hs : s₀.dropWhile isspace = c :: s) :
    ∃ q, At input q (c :: s) ∧
      parseValue rt input (fuel + 1) p = dispatch rt input fuel c q := by
  have hat : At input (skipWhitespace input p) (c :: s) := hs ▸ h.scanWhile
  refine ⟨_, hat, ?_⟩
  simp only [parseValue, hat.getElem?_cons, dispatch]

/-- At the end there is no value. -/
theorem parseValue_nil {fuel p : ℕ} {s₀ : Bytes} (h : At input p s₀)
    (hs : s₀.dropWhile isspace = []) : ErrorAt input [] (parseValue rt input (fuel + 1) p) := by
  have hat : At input (skipWhitespace input p) [] := hs ▸ h.scanWhile
  refine ⟨_, ascii "Unexpected end of input", hat, ?_⟩
  simp only [parseValue, hat.getElem?_nil]
  rfl

/-! ### Behind an element -/

section Separator

variable {β : Type}

/-- What the loops do behind an element: a comma and the next round, or the closing bracket. -/
def separator (input : Bytes) (close : UInt8) (message : Bytes) (next : ℕ → Except Exn β)
    (done : ℕ → β) (position : ℕ) : Except Exn β := do
  let position := skipWhitespace input position
  let c ← charAt input position
  if c = ch ',' then next (skipWhitespace input (position + 1))
  else if c = close then return done (position + 1)
  else throw (throwException input position message)

variable {close : UInt8} {message : Bytes} {next : ℕ → Except Exn β} {done : ℕ → β} {p : ℕ}
  {s t : Bytes}

/-- A comma goes on. -/
theorem separator_comma (h : At input p s) (hs : Spaces s (ch ',' :: t)) :
    ∃ q, At input q (t.dropWhile isspace) ∧
      separator input close message next done p = next q := by
  have hat := skipWhitespace_at h hs (noSpace_cons rfl)
  refine ⟨_, hat.next.scanWhile, ?_⟩
  simp only [separator, charAt_cons hat, ok_bind]
  exact if_pos trivial

/-- The closing character ends the container. -/
theorem separator_close (h : At input p s) (hs : Spaces s (close :: t))
    (hclose : isspace close = false) (hne : close ≠ ch ',') :
    ∃ q, At input q t ∧ separator input close message next done p = .ok (done q) := by
  have hat := skipWhitespace_at h hs (noSpace_cons hclose)
  refine ⟨_, hat.next, ?_⟩
  simp only [separator, charAt_cons hat, ok_bind]
  rw [if_neg hne, if_pos trivial]
  rfl

/-- Anything else is refused. -/
theorem separator_error (h : At input p s) (hs : Spaces s t) (ht : NoSpace t)
    (hclose : close ≠ 0) (h₁ : t.head? ≠ some (ch ',')) (h₂ : t.head? ≠ some close) :
    ErrorAt input t (separator input close message next done p) := by
  have hat := skipWhitespace_at h hs ht
  refine ⟨_, message, hat, ?_⟩
  simp only [separator, charAt_at hat, ok_bind]
  rw [if_neg (headD_ne h₁ (by decide)), if_neg (headD_ne h₂ hclose)]
  rfl

end Separator

/-- What is next behind the spaces is not the byte that is never next. -/
theorem head?_ne_of_spaces {c : UInt8} {s : Bytes} (hs : ∀ t, ¬Spaces s (c :: t)) :
    (s.dropWhile isspace).head? ≠ some c := fun hc => by
  obtain ⟨t, ht⟩ := List.head?_eq_some_iff.1 hc
  exact hs t (ht ▸ spaces_dropWhile s)

section Containers

variable {parseValue : ℕ → Except Exn (Value D × ℕ)} {fuel p : ℕ}

/-- One round of the loop over the elements. -/
theorem parseArrayLoop_succ (a : List (Value D)) :
    parseArrayLoop input parseValue (fuel + 1) a p = parseValue p >>= fun x =>
      separator input (ch ']') (ascii "Expected ',' or ']'")
        (parseArrayLoop input parseValue fuel (a ++ [x.1])) (fun q => (a ++ [x.1], q)) x.2 := rfl

/-- A member with its key and its colon: what is left of the round is its value. -/
theorem parseObjectLoop_key (parseValue : ℕ → Except Exn (Value D × ℕ)) (fuel : ℕ)
    {s k s₁ s₂ : Bytes} (h : At input p (ch '"' :: s))
    (hk : Chars rt s k s₁) (hcolon : Spaces s₁ (ch ':' :: s₂)) (o : List (Bytes × Value D)) :
    ∃ q, At input q s₂ ∧
      parseObjectLoop rt input parseValue (fuel + 1) o p = parseValue q >>= fun x =>
        separator input (ch '}') (ascii "Expected ',' or '\x7d'")
          (parseObjectLoop rt input parseValue fuel (AssocMap.assign o k x.1))
          (fun q => (AssocMap.assign o k x.1, q)) x.2 := by
  obtain ⟨q, hok, hat⟩ := parseString_ok h hk
  have hat' := skipWhitespace_at hat hcolon (noSpace_cons rfl)
  refine ⟨_, hat'.next, ?_⟩
  simp only [parseObjectLoop, charAt_cons h, ok_bind, hok, Value.asString,
    expect_ok (w := [ch ':']) hat']
  rfl

/-- A key that is no string of the parser. -/
theorem parseObjectLoop_keyString {s e : Bytes} (h : At input p (ch '"' :: s))
    (hk : BadChars rt s e) (o : List (Bytes × Value D)) :
    ErrorAt input e (parseObjectLoop rt input parseValue (fuel + 1) o p) := by
  obtain ⟨q, msg, hat, herr⟩ := parseString_error h hk
  refine ⟨q, msg, hat, ?_⟩
  simp only [parseObjectLoop, charAt_cons h, ok_bind, herr]
  rfl

/-- No key. -/
theorem parseObjectLoop_noKey {s : Bytes} (h : At input p s) (hs : s.head? ≠ some (ch '"'))
    (o : List (Bytes × Value D)) :
    ErrorAt input s (parseObjectLoop rt input parseValue (fuel + 1) o p) := by
  refine ⟨p, ascii "Expected string key", h, ?_⟩
  simp only [parseObjectLoop, charAt_at h, ok_bind]
  rw [if_pos (headD_ne hs (by decide))]
  rfl

/-- No colon behind a key. -/
theorem parseObjectLoop_colon {s k s₁ e : Bytes} (h : At input p (ch '"' :: s))
    (hk : Chars rt s k s₁) (hs : Spaces s₁ e) (he : NoSpace e) (hcolon : e.head? ≠ some (ch ':'))
    (o : List (Bytes × Value D)) :
    ErrorAt input e (parseObjectLoop rt input parseValue (fuel + 1) o p) := by
  obtain ⟨q, hok, hat⟩ := parseString_ok h hk
  have hat' := skipWhitespace_at hat hs he
  obtain ⟨r, msg, hat'', herr⟩ := expect_error hat' (not_prefix_cons hcolon)
  refine ⟨r, msg, hat'', ?_⟩
  simp only [parseObjectLoop, charAt_cons h, ok_bind, hok, Value.asString, herr]
  rfl

/-- The empty array. -/
theorem parseArray_empty {s t : Bytes} (h : At input p (ch '[' :: s))
    (hs : Spaces s (ch ']' :: t)) :
    ∃ q, parseArray input parseValue p = .ok (.array [], q) ∧ At input q t := by
  have hat := skipWhitespace_at h.next hs (noSpace_cons rfl)
  refine ⟨_, ?_, hat.next⟩
  simp only [parseArray, expect_ok (w := [ch '[']) h, List.length_singleton, ok_bind,
    charAt_cons hat]
  exact if_pos trivial

/-- `parseArray` in front of anything but an empty array runs the loop. -/
theorem parseArray_loop (parseValue : ℕ → Except Exn (Value D × ℕ)) {s : Bytes}
    (h : At input p (ch '[' :: s))
    (hs : ∀ t, ¬Spaces s (ch ']' :: t)) :
    ∃ q, At input q (s.dropWhile isspace) ∧ parseArray input parseValue p =
      (parseArrayLoop input parseValue (input.length + 1) [] q).map
        fun x => (.array x.1, x.2) := by
  have hat : At input (skipWhitespace input (p + 1)) (s.dropWhile isspace) := h.next.scanWhile
  refine ⟨_, hat, ?_⟩
  simp only [parseArray, expect_ok (w := [ch '[']) h, List.length_singleton, ok_bind,
    charAt_at hat]
  rw [if_neg (headD_ne (head?_ne_of_spaces hs) (by decide))]
  cases parseArrayLoop input parseValue (input.length + 1) [] (skipWhitespace input (p + 1)) <;> rfl

/-- The empty object. -/
theorem parseObject_empty {s t : Bytes} (h : At input p (ch '{' :: s))
    (hs : Spaces s (ch '}' :: t)) :
    ∃ q, parseObject rt input parseValue p = .ok (.object [], q) ∧ At input q t := by
  have hat := skipWhitespace_at h.next hs (noSpace_cons rfl)
  refine ⟨_, ?_, hat.next⟩
  simp only [parseObject, expect_ok (w := [ch '{']) h, List.length_singleton, ok_bind,
    charAt_cons hat]
  exact if_pos trivial

/-- `parseObject` in front of anything but an empty object runs the loop. -/
theorem parseObject_loop (rt : Runtime D) (parseValue : ℕ → Except Exn (Value D × ℕ)) {s : Bytes}
    (h : At input p (ch '{' :: s))
    (hs : ∀ t, ¬Spaces s (ch '}' :: t)) :
    ∃ q, At input q (s.dropWhile isspace) ∧ parseObject rt input parseValue p =
      (parseObjectLoop rt input parseValue (input.length + 1) [] q).map
        fun x => (.object x.1, x.2) := by
  have hat : At input (skipWhitespace input (p + 1)) (s.dropWhile isspace) := h.next.scanWhile
  refine ⟨_, hat, ?_⟩
  simp only [parseObject, expect_ok (w := [ch '{']) h, List.length_singleton, ok_bind,
    charAt_at hat]
  rw [if_neg (headD_ne (head?_ne_of_spaces hs) (by decide))]
  cases parseObjectLoop rt input parseValue (input.length + 1) [] (skipWhitespace input (p + 1)) <;>
    rfl

end Containers

/-! ### In front of a derivation -/

/-- Behind blanks there is no more than before. -/
theorem Spaces.length_le {s t : Bytes} : Spaces s t → t.length ≤ s.length := by
  rintro ⟨w, -, rfl⟩
  simp

/-- A key and a colon leave a shorter suffix. -/
theorem length_lt_of_member {s s₁ k s₂ s₃ : Bytes} (h₁ : Spaces s s₁)
    (hk : (dialect rt).string s₁ k s₂) (h₂ : Spaces s₂ (ch ':' :: s₃)) : s₃.length < s.length := by
  obtain ⟨s₁, rfl, hk⟩ := hk
  have := h₁.length_le
  have := hk.length_lt
  have := h₂.length_le
  simp only [List.length_cons] at *
  omega

/-- A derivation leaves a suffix that is no longer than its text. -/
theorem length_le_of_derives {s t : Bytes} {n : Node Bytes (Value D)}
    (h : Derives (dialect rt) s n t) : t.length ≤ s.length := by
  have hgap {s t : Bytes} (h : (dialect rt).gap s t) : t.length ≤ s.length := Spaces.length_le h
  induction h with
  | null | true | false => simp
  | number h =>
      obtain ⟨n, -, -, -, -, rfl⟩ := h
      simp
  | string h =>
      obtain ⟨s, rfl, h⟩ := h
      have := h.length_lt
      rw [List.length_cons]
      omega
  | emptyArray h | emptyObject h =>
      have := hgap h
      simp only [List.length_cons] at this ⊢
      omega
  | array _ ih | object _ _ ih =>
      rw [List.length_cons]
      omega
  | lastElement h₁ _ h₂ h₃ ih =>
      subst h₃
      have := hgap h₁
      have := hgap h₂
      simp only [List.length_cons] at this
      omega
  | element h₁ _ h₂ _ ihv ih =>
      have := hgap h₁
      have := hgap h₂
      simp only [List.length_cons] at this
      omega
  | lastMember h₁ hk h₂ h₃ _ h₄ h₅ ih =>
      subst h₅
      have := length_lt_of_member h₁ hk h₂
      have := hgap h₃
      have := hgap h₄
      simp only [List.length_cons] at this
      omega
  | member h₁ hk h₂ h₃ _ h₄ _ ihv ih =>
      have := length_lt_of_member h₁ hk h₂
      have := hgap h₃
      have := hgap h₄
      simp only [List.length_cons] at this
      omega

/-- What starts a number is no blank, and starts nothing else. -/
theorem notSpace_of_startsNumber : ∀ c : UInt8, startsNumber c = true →
    isspace c = false ∧ c ∉ ascii "ntf\"[\x7b" := by
  decide +kernel

/-- The first byte of a number starts one. -/
theorem exists_startsNumber {n : Number} (hn : Scanned n) (t : Bytes) :
    ∃ c s, n.text ++ t = c :: s ∧ startsNumber c = true := by
  cases h : n.negative with
  | true => exact ⟨ch '-', _, by simp [Number.text, h, Rfc8259.signText]; rfl, by decide⟩
  | false =>
      obtain ⟨d, ds, hd⟩ := List.exists_cons_of_ne_nil (hn.start.resolve_left (by simp [h]))
      have : isdigit d = true := hn.int d (by rw [hd]; exact List.mem_cons_self ..)
      exact ⟨d, _, by simp [Number.text, h, hd, Rfc8259.signText]; rfl,
        by simp [startsNumber, this]⟩

/-- A value starts with one of the bytes that `parseValue` goes on with, in every language whose
numbers and strings do. -/
theorem exists_cons_of_value {K V : Type} {L : Language UInt8 K V} (hbyte : L.byte = id)
    (hnumber : ∀ {s v t}, L.number s v t → ∃ c s', s = c :: s' ∧ startsNumber c = true)
    (hstring : ∀ {s k t}, L.string s k t → ∃ s', s = ch '"' :: s') {s t : Bytes} {v : V}
    (h : Derives L s (.value v) t) :
    ∃ c s', s = c :: s' ∧ (startsNumber c = true ∨ c ∈ ascii "ntf\"[\x7b") := by
  cases h with
  | null => exact ⟨ch 'n', _, by rw [hbyte]; rfl, Or.inr (by decide)⟩
  | true => exact ⟨ch 't', _, by rw [hbyte]; rfl, Or.inr (by decide)⟩
  | false => exact ⟨ch 'f', _, by rw [hbyte]; rfl, Or.inr (by decide)⟩
  | number h =>
      obtain ⟨c, s, hs, hc⟩ := hnumber h
      exact ⟨c, s, hs, Or.inl hc⟩
  | string h =>
      obtain ⟨s, hs⟩ := hstring h
      exact ⟨_, s, hs, Or.inr (by decide)⟩
  | emptyArray | array => exact ⟨ch '[', _, by rw [hbyte]; rfl, Or.inr (by decide)⟩
  | emptyObject | object => exact ⟨ch '{', _, by rw [hbyte]; rfl, Or.inr (by decide)⟩

/-- What a value starts with. -/
theorem exists_cons_of_derives {s t : Bytes} {v : Value D}
    (h : Derives (dialect rt) s (.value v) t) :
    ∃ c s', s = c :: s' ∧ (startsNumber c = true ∨ c ∈ ascii "ntf\"[\x7b") := by
  refine exists_cons_of_value rfl ?_ ?_ h
  · rintro _ _ t ⟨n, hn, -, -, -, rfl⟩
    exact exists_startsNumber hn t
  · rintro _ _ _ ⟨s, rfl, -⟩
    exact ⟨s, rfl⟩

/-- No value starts with a space or a closing bracket. -/
theorem startsValue : ∀ c : UInt8, startsNumber c = true ∨ c ∈ ascii "ntf\"[\x7b" →
    isspace c = false ∧ c ≠ ch ']' := by
  decide +kernel

/-- A value starts with no blank. -/
theorem noSpace_of_derives {s t : Bytes} {v : Value D}
    (h : Derives (dialect rt) s (.value v) t) : NoSpace s := by
  obtain ⟨c, s, rfl, hc⟩ := exists_cons_of_derives h
  exact noSpace_cons (startsValue c hc).1

/-- What comes behind the spaces in front of an element does not close the array. -/
theorem not_close_of_derives {s s₁ t u : Bytes} {v : Value D} (hs : Spaces s s₁)
    (h : Derives (dialect rt) s₁ (.value v) t) : ¬Spaces s (ch ']' :: u) := by
  obtain ⟨c, s, rfl, hc⟩ := exists_cons_of_derives h
  intro hu
  have := (hs.dropWhile_eq (noSpace_of_derives h)).symm.trans (hu.dropWhile_eq (noSpace_cons rfl))
  exact (startsValue c hc).2 (List.cons.inj this).1

/-- What comes behind the spaces in front of a key does not close the object. -/
theorem not_close_of_string {s s₁ k t u : Bytes} (hs : Spaces s s₁)
    (h : (dialect rt).string s₁ k t) : ¬Spaces s (ch '}' :: u) := by
  obtain ⟨s, rfl, -⟩ := h
  intro hu
  have := (hs.dropWhile_eq (noSpace_cons rfl)).symm.trans (hu.dropWhile_eq (noSpace_cons rfl))
  exact absurd (List.cons.inj this).1 (by decide)

/-- What the parser does in front of a derivation: in any surplus of `fuel` and of `rounds`, it
returns what is derived, appended or assigned to what it has so far. -/
def Parses (rt : Runtime D) (input s : Bytes) : Node Bytes (Value D) → Bytes → Prop
  | .value v, t => ∀ fuel p s₀, At input p s₀ → s₀.dropWhile isspace = s → s.length < fuel →
      ∃ q, parseValue rt input fuel p = .ok (v, q) ∧ At input q t
  | .elements vs, t => ∀ fuel rounds a p, At input p (s.dropWhile isspace) → s.length < fuel →
      s.length < rounds →
      ∃ q, parseArrayLoop input (parseValue rt input fuel) rounds a p = .ok (a ++ vs, q) ∧
        At input q t
  | .members ms, t => ∀ fuel rounds o p, At input p (s.dropWhile isspace) → s.length < fuel →
      s.length < rounds →
      ∃ q, parseObjectLoop rt input (parseValue rt input fuel) rounds o p =
          .ok (ms.foldl (fun o e => AssocMap.assign o e.1 e.2) o, q) ∧
        At input q t

/-- `parseValue` at a value whose first byte selects `g`. -/
theorem parses_of_cons {c : UInt8} {s t : Bytes} {v : Value D}
    {g : ℕ → ℕ → Except Exn (Value D × ℕ)}
    (hg : ∀ fuel q, dispatch rt input fuel c q = g fuel q)
    (h : ∀ fuel q, At input q (c :: s) → s.length < fuel →
      ∃ r, g fuel q = .ok (v, r) ∧ At input r t) :
    Parses rt input (c :: s) (.value v) t := by
  intro fuel p s₀ hat hs hf
  cases fuel with
  | zero => cases hf
  | succ fuel =>
      obtain ⟨q, hq, heq⟩ := parseValue_cons rt fuel hat hs
      obtain ⟨r, hr, hat'⟩ := h fuel q hq (Nat.lt_of_succ_lt_succ hf)
      exact ⟨r, by rw [heq, hg, hr], hat'⟩

/-- A number with a mantissa is parsed. -/
theorem parses_number {n : Number} {t : Bytes} (hn : Scanned n) (ht : Longest n t)
    (hm : HasMantissa n) : Parses rt input (n.text ++ t) (.value (numberValue rt n)) t := by
  obtain ⟨c, s, hs, hc⟩ := exists_startsNumber hn t
  rw [hs]
  refine parses_of_cons (fun _ _ => dispatch_default (notSpace_of_startsNumber c hc).2)
    fun fuel q hat _ => ?_
  rw [parseDefault_number hat hc]
  rw [← hs] at hat
  exact ⟨_, parseNumber_ok hat hn ht hm, hat.skip⟩

/-- An array with elements, by its loop. -/
theorem parses_array {s t : Bytes} {vs : List (Value D)} (h : ∀ u, ¬Spaces s (ch ']' :: u))
    (ih : Parses rt input s (.elements vs) t) :
    Parses rt input (ch '[' :: s) (.value (.array vs)) t := by
  refine parses_of_cons (fun _ _ => dispatch_array) fun fuel q hat hf => ?_
  have hlen := hat.add_length
  rw [List.length_cons] at hlen
  obtain ⟨r, hr, heq⟩ := parseArray_loop (parseValue rt input fuel) hat h
  obtain ⟨r', hok, hat'⟩ := ih fuel (input.length + 1) [] r hr hf (by omega)
  exact ⟨r', by rw [heq, hok]; rfl, hat'⟩

/-- An object with members, by its loop. -/
theorem parses_object {s t : Bytes} {ms o : List (Bytes × Value D)}
    (h : ∀ u, ¬Spaces s (ch '}' :: u)) (ho : AssocMap.LastWins ms o)
    (ih : Parses rt input s (.members ms) t) :
    Parses rt input (ch '{' :: s) (.value (.object o)) t := by
  refine parses_of_cons (fun _ _ => dispatch_object) fun fuel q hat hf => ?_
  have hlen := hat.add_length
  rw [List.length_cons] at hlen
  obtain ⟨r, hr, heq⟩ := parseObject_loop rt (parseValue rt input fuel) hat h
  obtain ⟨r', hok, hat'⟩ := ih fuel (input.length + 1) [] r hr hf (by omega)
  rw [(AssocMap.lastWins_foldl ms).unique ho] at hok
  exact ⟨r', by rw [heq, hok]; rfl, hat'⟩

/-- One round of the loop of `parseArray`, up to the element. -/
theorem element_value {s s₁ s₂ : Bytes} {v : Value D} (h₁ : Spaces s s₁) (hs₁ : NoSpace s₁)
    (ih : Parses rt input s₁ (.value v) s₂) {fuel rounds p : ℕ} {a : List (Value D)}
    (hat : At input p (s.dropWhile isspace)) (hf : s.length < fuel) :
    ∃ q, At input q s₂ ∧
      parseArrayLoop input (parseValue rt input fuel) (rounds + 1) a p =
        separator input (ch ']') (ascii "Expected ',' or ']'")
          (parseArrayLoop input (parseValue rt input fuel) rounds (a ++ [v]))
          (fun q => (a ++ [v], q)) q := by
  rw [h₁.dropWhile_eq hs₁] at hat
  obtain ⟨q, hok, hq⟩ := ih fuel p _ hat (Spaces.dropWhile_eq (.refl _) hs₁)
    (h₁.length_le.trans_lt hf)
  exact ⟨q, hq, by rw [parseArrayLoop_succ, hok]; rfl⟩

/-- One round of the loop of `parseObject`, up to the value of the member. -/
theorem member_value {s s₁ s₂ s₃ s₄ s₅ k : Bytes} {v : Value D} (h₁ : Spaces s s₁)
    (hk : (dialect rt).string s₁ k s₂) (h₂ : Spaces s₂ (ch ':' :: s₃)) (h₃ : Spaces s₃ s₄)
    (hs₄ : NoSpace s₄) (ih : Parses rt input s₄ (.value v) s₅) {fuel rounds p : ℕ}
    {o : List (Bytes × Value D)} (hat : At input p (s.dropWhile isspace)) (hf : s.length < fuel) :
    ∃ q, At input q s₅ ∧
      parseObjectLoop rt input (parseValue rt input fuel) (rounds + 1) o p =
        separator input (ch '}') (ascii "Expected ',' or '\x7d'")
          (parseObjectLoop rt input (parseValue rt input fuel) rounds (AssocMap.assign o k v))
          (fun q => (AssocMap.assign o k v, q)) q := by
  obtain ⟨s₁, rfl, hk⟩ := hk
  rw [h₁.dropWhile_eq (noSpace_cons rfl)] at hat
  obtain ⟨q, hq, heq⟩ := parseObjectLoop_key (parseValue rt input fuel) rounds hat hk h₂ o
  have := h₁.length_le
  have := hk.length_lt
  have := h₂.length_le
  have := h₃.length_le
  simp only [List.length_cons] at *
  obtain ⟨r, hr, hat'⟩ := ih fuel q s₃ hq (h₃.dropWhile_eq hs₄) (by omega)
  exact ⟨r, hat', by rw [heq, hr]; rfl⟩

/-- **The parser reads every derivation.** -/
theorem derives_parses {s t : Bytes} {n : Node Bytes (Value D)}
    (h : Derives (dialect rt) s n t) : Parses rt input s n t := by
  induction h with
  | null t => exact parses_of_cons (fun _ _ => rfl) fun _ _ hat _ => parseNull_ok hat
  | true t => exact parses_of_cons (fun _ _ => rfl) fun _ _ hat _ => parseBool_true hat
  | false t => exact parses_of_cons (fun _ _ => rfl) fun _ _ hat _ => parseBool_false hat
  | number h =>
      obtain ⟨n, hn, ht, hm, rfl, rfl⟩ := h
      exact parses_number hn ht hm
  | string h =>
      obtain ⟨s, rfl, hk⟩ := h
      exact parses_of_cons (fun _ _ => rfl) fun _ _ hat _ => parseString_ok hat hk
  | emptyArray h => exact parses_of_cons (fun _ _ => rfl) fun _ _ hat _ => parseArray_empty hat h
  | array h ih =>
      refine parses_array (fun u => ?_) ih
      cases h with
      | lastElement h₁ h _ _ | element h₁ h _ _ => exact not_close_of_derives h₁ h
  | emptyObject h ho =>
      obtain ⟨o, ho, rfl⟩ := ho
      obtain rfl : [] = o := (AssocMap.lastWins_foldl []).unique ho
      exact parses_of_cons (fun _ _ => rfl) fun _ _ hat _ => parseObject_empty hat h
  | object h ho ih =>
      obtain ⟨o, ho, rfl⟩ := ho
      refine parses_object (fun u => ?_) ho ih
      cases h with
      | lastMember h₁ hk _ _ _ _ _ | member h₁ hk _ _ _ _ _ => exact not_close_of_string h₁ hk
  | lastElement h₁ h h₂ h₃ ih =>
      intro fuel rounds a p hat hf hr
      cases rounds with
      | zero => cases hr
      | succ rounds =>
          obtain ⟨q, hq, heq⟩ := element_value h₁ (noSpace_of_derives h) ih hat hf
          subst h₃
          have h₂ : Spaces _ (ch ']' :: _) := h₂
          obtain ⟨r, hr, heq'⟩ := separator_close hq h₂ rfl (by decide)
          exact ⟨r, by rw [heq, heq'], hr⟩
  | @element s s₁ s₂ s₃ t v vs h₁ h h₂ h' ih ih' =>
      intro fuel rounds a p hat hf hr
      have hlen₁ := Spaces.length_le h₁
      have hlen := length_le_of_derives h
      have hlen₂ := Spaces.length_le h₂
      rw [List.length_cons] at hlen₂
      cases rounds with
      | zero => cases hr
      | succ rounds =>
          obtain ⟨q, hq, heq⟩ := element_value h₁ (noSpace_of_derives h) ih hat hf
          obtain ⟨r, hr, heq'⟩ := separator_comma hq h₂
          obtain ⟨r', hok, hat'⟩ := ih' fuel rounds (a ++ [v]) r hr (by omega) (by omega)
          exact ⟨r', by rw [heq, heq', hok, List.append_assoc]; rfl, hat'⟩
  | lastMember h₁ hk h₂ h₃ h h₄ h₅ ih =>
      intro fuel rounds o p hat hf hr
      cases rounds with
      | zero => cases hr
      | succ rounds =>
          obtain ⟨q, hq, heq⟩ := member_value h₁ hk h₂ h₃ (noSpace_of_derives h) ih hat hf
          subst h₅
          have h₄ : Spaces _ (ch '}' :: _) := h₄
          obtain ⟨r, hr, heq'⟩ := separator_close hq h₄ rfl (by decide)
          exact ⟨r, by rw [heq, heq']; rfl, hr⟩
  | @member s s₁ s₂ s₃ s₄ s₅ s₆ t k v ms h₁ hk h₂ h₃ h h₄ h' ih ih' =>
      intro fuel rounds o p hat hf hr
      have hlen := length_lt_of_member h₁ hk h₂
      have hlen₃ := Spaces.length_le h₃
      have hlen₅ := length_le_of_derives h
      have hlen₆ := Spaces.length_le h₄
      rw [List.length_cons] at hlen₆
      cases rounds with
      | zero => cases hr
      | succ rounds =>
          obtain ⟨q, hq, heq⟩ := member_value h₁ hk h₂ h₃ (noSpace_of_derives h) ih hat hf
          obtain ⟨r, hr, heq'⟩ := separator_comma hq h₄
          obtain ⟨r', hok', hat'⟩ := ih' fuel rounds _ r hr (by omega) (by omega)
          exact ⟨r', by rw [heq, heq', hok']; rfl, hat'⟩

end Json
end BreUtils
