/-
# The parser rejects everything else

Where a text fails, the recursive functions of the parser throw in front of the
place where it does (`fails_throws`, by induction on the failure), and a text
that starts with no value of the dialect fails somewhere (`accepted_or_fails`, by
induction on its length).  With `derives_parses` that leaves nothing open:
`Parser::parse` in strict mode returns exactly on the accepted texts, throws at
the first error of every other text, and does nothing else.
-/

import BreUtils.Json.Conformance

namespace BreUtils
namespace Json

open Lib Cpp
open Rfc8259 (Number)

variable {D : Type} {rt : Runtime D} {input : Bytes}

/-! ### In front of an error -/

/-- What the parser does in front of a text that fails: it throws in front of the place where the
text does. -/
def Throws (rt : Runtime D) (input : Bytes) : Kind → Bytes → Bytes → Prop
  | .value, s, e => ∀ fuel p s₀, At input p s₀ → s₀.dropWhile isspace = s.dropWhile isspace →
      s.length < fuel → ErrorAt input e (parseValue rt input fuel p)
  | .elements, s, e => ∀ fuel rounds a p, At input p (s.dropWhile isspace) → s.length < fuel →
      s.length < rounds →
      ErrorAt input e (parseArrayLoop input (parseValue rt input fuel) rounds a p)
  | .members, s, e => ∀ fuel rounds o p, At input p (s.dropWhile isspace) → s.length < fuel →
      s.length < rounds →
      ErrorAt input e (parseObjectLoop rt input (parseValue rt input fuel) rounds o p)

/-- `parseValue` where the first byte selects `g`. -/
theorem throws_of_cons {c : UInt8} {s s₁ e : Bytes} {g : ℕ → ℕ → Except Exn (Value D × ℕ)}
    (hs : Spaces s (c :: s₁)) (hc : isspace c = false)
    (hg : ∀ fuel q, dispatch rt input fuel c q = g fuel q)
    (h : ∀ fuel q, At input q (c :: s₁) → s₁.length < fuel → ErrorAt input e (g fuel q)) :
    Throws rt input .value s e := by
  intro fuel p s₀ hat hs₀ hf
  have hlen := hs.length_le
  rw [List.length_cons] at hlen
  cases fuel with
  | zero => cases hf
  | succ fuel =>
      rw [hs.dropWhile_eq (noSpace_cons hc)] at hs₀
      obtain ⟨q, hq, heq⟩ := parseValue_cons rt fuel hat hs₀
      rw [heq, hg]
      exact h fuel q hq (by omega)

/-- A number without a mantissa is refused. -/
theorem throws_number {n : Number} {s t : Bytes} (hs : Spaces s (n.text ++ t)) (hn : Scanned n)
    (ht : Longest n t) (hm : ¬HasMantissa n) : Throws rt input .value s t := by
  obtain ⟨c, s', hs', hc⟩ := exists_startsNumber hn t
  obtain ⟨hsp, hdef⟩ := notSpace_of_startsNumber c hc
  refine throws_of_cons (hs' ▸ hs) hsp (fun _ _ => dispatch_default hdef) fun fuel q hat _ => ?_
  rw [parseDefault_number hat hc]
  exact parseNumber_error (hs' ▸ hat) hn ht hm

/-- So is an array with an element that is. -/
theorem throws_array {s s₁ e : Bytes} (hs : Spaces s (ch '[' :: s₁))
    (h : ∀ t, ¬Spaces s₁ (ch ']' :: t)) (ih : Throws rt input .elements s₁ e) :
    Throws rt input .value s e := by
  refine throws_of_cons hs rfl (fun _ _ => dispatch_array) fun fuel q hat hf => ?_
  have hlen := hat.add_length
  rw [List.length_cons] at hlen
  obtain ⟨r, hr, heq⟩ := parseArray_loop (parseValue rt input fuel) hat h
  rw [heq]
  exact (ih fuel (input.length + 1) [] r hr hf (by omega)).map _

/-- So is an object with a member that is. -/
theorem throws_object {s s₁ e : Bytes} (hs : Spaces s (ch '{' :: s₁))
    (h : ∀ t, ¬Spaces s₁ (ch '}' :: t)) (ih : Throws rt input .members s₁ e) :
    Throws rt input .value s e := by
  refine throws_of_cons hs rfl (fun _ _ => dispatch_object) fun fuel q hat hf => ?_
  have hlen := hat.add_length
  rw [List.length_cons] at hlen
  obtain ⟨r, hr, heq⟩ := parseObject_loop rt (parseValue rt input fuel) hat h
  rw [heq]
  exact (ih fuel (input.length + 1) [] r hr hf (by omega)).map _

/-- **The parser throws where a text fails.** -/
theorem fails_throws {kind : Kind} {s e : Bytes} (h : Fails rt kind s e) :
    Throws rt input kind s e := by
  induction h with
  | atEnd hs =>
      intro fuel p s₀ hat hs₀ hf
      cases fuel with
      | zero => cases hf
      | succ fuel =>
          rw [hs.dropWhile_eq fun _ h => nomatch h] at hs₀
          exact parseValue_nil hat hs₀
  | unexpected hs hc hdef hstart =>
      exact throws_of_cons hs hc (fun _ _ => dispatch_default hdef) fun _ _ hat _ =>
        parseDefault_error hat hstart
  | null hs hnull =>
      exact throws_of_cons hs rfl (fun _ _ => rfl) fun _ _ hat _ => parseNull_error hat hnull
  | bool hs hc ht hf =>
      rcases hc with rfl | rfl
      all_goals
        exact throws_of_cons hs rfl (fun _ _ => rfl) fun _ _ hat _ => parseBool_error hat ht hf
  | number hs hn ht hm => exact throws_number hs hn ht hm
  | string hs hk =>
      exact throws_of_cons hs rfl (fun _ _ => rfl) fun _ _ hat _ => parseString_error hat hk
  | array hs hclose _ ih => exact throws_array hs hclose ih
  | object hs hclose _ ih => exact throws_object hs hclose ih
  | element _ ih =>
      intro fuel rounds a p hat hf hr
      cases rounds with
      | zero => cases hr
      | succ rounds =>
          rw [parseArrayLoop_succ]
          refine (ih fuel p _ hat ?_ hf).bind _
          exact Spaces.dropWhile_eq (.refl _) (noSpace_dropWhile _)
  | separator hs hv hs₂ he h₁ h₂ =>
      intro fuel rounds a p hat hf hr
      cases rounds with
      | zero => cases hr
      | succ rounds =>
          obtain ⟨q, hq, heq⟩ := element_value hs (noSpace_of_derives hv) (derives_parses hv) hat hf
          rw [heq]
          exact separator_error hq hs₂ he (by decide) h₁ h₂
  | nextElement hs hv hcomma _ ih =>
      intro fuel rounds a p hat hf hr
      have hlen := hs.length_le
      have hlen' := length_le_of_derives hv
      have hlen₂ := hcomma.length_le
      rw [List.length_cons] at hlen₂
      cases rounds with
      | zero => cases hr
      | succ rounds =>
          obtain ⟨q, hq, heq⟩ := element_value hs (noSpace_of_derives hv) (derives_parses hv) hat hf
          obtain ⟨r, hr, heq'⟩ := separator_comma hq hcomma
          rw [heq, heq']
          exact ih fuel rounds _ r hr (by omega) (by omega)
  | key hs he hquote =>
      intro fuel rounds o p hat hf hr
      rw [hs.dropWhile_eq he] at hat
      cases rounds with
      | zero => cases hr
      | succ rounds => exact parseObjectLoop_noKey hat hquote o
  | keyString hs hk =>
      intro fuel rounds o p hat hf hr
      rw [hs.dropWhile_eq (noSpace_cons rfl)] at hat
      cases rounds with
      | zero => cases hr
      | succ rounds => exact parseObjectLoop_keyString hat hk o
  | colon hs hk hs₂ he hcolon =>
      intro fuel rounds o p hat hf hr
      obtain ⟨s₁, rfl, hk⟩ := hk
      rw [hs.dropWhile_eq (noSpace_cons rfl)] at hat
      cases rounds with
      | zero => cases hr
      | succ rounds => exact parseObjectLoop_colon hat hk hs₂ he hcolon o
  | memberValue hs hk hcolon _ ih =>
      intro fuel rounds o p hat hf hr
      have hlen := length_lt_of_member hs hk hcolon
      obtain ⟨s₁, rfl, hk⟩ := hk
      rw [hs.dropWhile_eq (noSpace_cons rfl)] at hat
      cases rounds with
      | zero => cases hr
      | succ rounds =>
          obtain ⟨q, hq, heq⟩ :=
            parseObjectLoop_key (parseValue rt input fuel) rounds hat hk hcolon o
          rw [heq]
          exact (ih fuel q _ hq rfl (by omega)).bind _
  | memberSeparator hs hk hcolon hs₃ hv hs₅ he h₁ h₂ =>
      intro fuel rounds o p hat hf hr
      cases rounds with
      | zero => cases hr
      | succ rounds =>
          obtain ⟨q, hq, heq⟩ :=
            member_value hs hk hcolon hs₃ (noSpace_of_derives hv) (derives_parses hv) hat hf
          rw [heq]
          exact separator_error hq hs₅ he (by decide) h₁ h₂
  | nextMember hs hk hcolon hs₃ hv hcomma _ ih =>
      intro fuel rounds o p hat hf hr
      have hlen := length_lt_of_member hs hk hcolon
      have hlen₃ := hs₃.length_le
      have hlen' := length_le_of_derives hv
      have hlen₅ := hcomma.length_le
      rw [List.length_cons] at hlen₅
      cases rounds with
      | zero => cases hr
      | succ rounds =>
          obtain ⟨q, hq, heq⟩ :=
            member_value hs hk hcolon hs₃ (noSpace_of_derives hv) (derives_parses hv) hat hf
          obtain ⟨r, hr, heq'⟩ := separator_comma hq hcomma
          rw [heq, heq']
          exact ih fuel rounds _ r hr (by omega) (by omega)

/-! ### No third kind of text -/

/-- A text has elements in front, or fails. -/
def HasElements (rt : Runtime D) (s : Bytes) : Prop :=
  (∃ vs t, Derives (dialect rt) s (.elements vs) t) ∨ ∃ e, Fails rt .elements s e

/-- A text has members in front, or fails. -/
def HasMembers (rt : Runtime D) (s : Bytes) : Prop :=
  (∃ ms t, Derives (dialect rt) s (.members ms) t) ∨ ∃ e, Fails rt .members s e

/-- A text has a value in front, or fails. -/
def HasValue (rt : Runtime D) (s : Bytes) : Prop := Accepted rt s ∨ ∃ e, FirstError rt s e

/-- What opens like an array is an array or has an error. -/
theorem hasValue_array {s s₁ : Bytes} (hs : Spaces s (ch '[' :: s₁)) (ih : HasElements rt s₁) :
    HasValue rt s := by
  by_cases hclose : ∃ t, Spaces s₁ (ch ']' :: t)
  · obtain ⟨t, ht⟩ := hclose
    exact Or.inl ⟨_, _, t, hs, .emptyArray ht⟩
  · rcases ih with ⟨vs, t, h⟩ | ⟨e, h⟩
    · exact Or.inl ⟨_, _, t, hs, .array h⟩
    · exact Or.inr ⟨e, .array hs (not_exists.1 hclose) h⟩

/-- What opens like an object is an object or has an error. -/
theorem hasValue_object {s s₁ : Bytes} (hs : Spaces s (ch '{' :: s₁)) (ih : HasMembers rt s₁) :
    HasValue rt s := by
  have hlast (ms : List (Bytes × Value D)) : ∃ v, (dialect rt).object ms v :=
    ⟨_, _, AssocMap.lastWins_foldl ms, rfl⟩
  by_cases hclose : ∃ t, Spaces s₁ (ch '}' :: t)
  · obtain ⟨t, ht⟩ := hclose
    obtain ⟨v, hv⟩ := hlast []
    exact Or.inl ⟨_, v, t, hs, .emptyObject ht hv⟩
  · rcases ih with ⟨ms, t, h⟩ | ⟨e, h⟩
    · obtain ⟨v, hv⟩ := hlast ms
      exact Or.inl ⟨_, v, t, hs, .object h hv⟩
    · exact Or.inr ⟨e, .object hs (not_exists.1 hclose) h⟩

/-- What opens like a bool is one or has an error. -/
theorem hasValue_literal {s s₁ : Bytes} {c : UInt8} (hs : Spaces s (c :: s₁))
    (hc : c = ch 't' ∨ c = ch 'f') : HasValue rt s := by
  by_cases ht : ascii "true" <+: c :: s₁
  · obtain ⟨t, ht⟩ := ht
    exact Or.inl ⟨_, _, t, ht ▸ hs, .true t⟩
  by_cases hf : ascii "false" <+: c :: s₁
  · obtain ⟨t, ht⟩ := hf
    exact Or.inl ⟨_, _, t, ht ▸ hs, .false t⟩
  · exact Or.inr ⟨_, .bool hs hc ht hf⟩

/-- What opens like a number is one or has an error. -/
theorem hasValue_number {s s₁ : Bytes} {c : UInt8} (hs : Spaces s (c :: s₁))
    (hc : startsNumber c = true) : HasValue rt s := by
  obtain ⟨n, t, hnt, hn, ht⟩ := exists_number s₁ hc
  rw [hnt] at hs
  by_cases hm : HasMantissa n
  · exact Or.inl ⟨_, _, t, hs, .number ⟨n, hn, ht, hm, rfl, rfl⟩⟩
  · exact Or.inr ⟨_, .number hs hn ht hm⟩

/-- A value or a failure, when the same is known of everything shorter. -/
theorem hasValue_of_shorter {s : Bytes}
    (hes : ∀ s', s'.length < s.length → HasElements rt s')
    (hms : ∀ s', s'.length < s.length → HasMembers rt s') : HasValue rt s := by
  have hs := spaces_dropWhile s
  have hno := noSpace_dropWhile s
  have hlen := hs.length_le
  generalize s.dropWhile isspace = s₀ at hs hno hlen
  cases s₀ with
  | nil => exact Or.inr ⟨_, .atEnd hs⟩
  | cons c s₁ =>
      have hshort : s₁.length < s.length := by
        rw [List.length_cons] at hlen
        omega
      by_cases hdef : c ∈ ascii "ntf\"[\x7b"
      · obtain rfl | rfl | rfl | rfl | rfl | rfl : c = ch 'n' ∨ c = ch 't' ∨ c = ch 'f' ∨
            c = ch '"' ∨ c = ch '[' ∨ c = ch '{' := by
          simpa [ascii] using hdef
        · by_cases hn : ascii "null" <+: ch 'n' :: s₁
          · obtain ⟨t, ht⟩ := hn
            exact Or.inl ⟨_, _, t, ht ▸ hs, .null t⟩
          · exact Or.inr ⟨_, .null hs hn⟩
        · exact hasValue_literal hs (Or.inl rfl)
        · exact hasValue_literal hs (Or.inr rfl)
        · rcases chars_or_bad rt s₁ with ⟨k, t, hk⟩ | ⟨e, hk⟩
          · exact Or.inl ⟨_, _, t, hs, .string ⟨s₁, rfl, hk⟩⟩
          · exact Or.inr ⟨e, .string hs hk⟩
        · exact hasValue_array hs (hes s₁ hshort)
        · exact hasValue_object hs (hms s₁ hshort)
      · cases hstart : startsNumber c with
        | true => exact hasValue_number hs hstart
        | false => exact Or.inr ⟨_, .unexpected hs (hno c rfl) hdef hstart⟩

/-- Elements or a failure, when the same is known of a value here and of everything shorter. -/
theorem hasElements_of_shorter {s : Bytes} (hv : HasValue rt s)
    (hes : ∀ s', s'.length < s.length → HasElements rt s') : HasElements rt s := by
  rcases hv with ⟨s₁, v, s₂, hs, hv⟩ | ⟨e, he⟩
  · have hlen := hs.length_le
    have hlen' := length_le_of_derives hv
    have hs₂ := spaces_dropWhile s₂
    have hno := noSpace_dropWhile s₂
    generalize s₂.dropWhile isspace = e at hs₂ hno
    by_cases hcomma : e.head? = some (ch ',')
    · obtain ⟨s₃, rfl⟩ := List.head?_eq_some_iff.1 hcomma
      have hlen₂ := hs₂.length_le
      rw [List.length_cons] at hlen₂
      rcases hes s₃ (by omega) with ⟨vs, t, h⟩ | ⟨e, he⟩
      · exact Or.inl ⟨v :: vs, t, .element hs hv hs₂ h⟩
      · exact Or.inr ⟨e, .nextElement hs hv hs₂ he⟩
    by_cases hclose : e.head? = some (ch ']')
    · obtain ⟨t, rfl⟩ := List.head?_eq_some_iff.1 hclose
      exact Or.inl ⟨[v], t, .lastElement hs hv hs₂ rfl⟩
    · exact Or.inr ⟨e, .separator hs hv hs₂ hno hcomma hclose⟩
  · exact Or.inr ⟨e, .element he⟩

/-- Members or a failure, when the same is known of everything shorter. -/
theorem hasMembers_of_shorter {s : Bytes} (hvs : ∀ s', s'.length < s.length → HasValue rt s')
    (hms : ∀ s', s'.length < s.length → HasMembers rt s') : HasMembers rt s := by
  have hs := spaces_dropWhile s
  have hno := noSpace_dropWhile s
  generalize s.dropWhile isspace = s₁ at hs hno
  by_cases hquote : s₁.head? = some (ch '"')
  swap
  · exact Or.inr ⟨_, .key hs hno hquote⟩
  obtain ⟨s₁, rfl⟩ := List.head?_eq_some_iff.1 hquote
  rcases chars_or_bad rt s₁ with ⟨k, s₂, hk⟩ | ⟨e, hk⟩
  swap
  · exact Or.inr ⟨_, .keyString hs hk⟩
  replace hk : (dialect rt).string (ch '"' :: s₁) k s₂ := ⟨s₁, rfl, hk⟩
  have hs₂ := spaces_dropWhile s₂
  have hno₂ := noSpace_dropWhile s₂
  generalize s₂.dropWhile isspace = e at hs₂ hno₂
  by_cases hcolon : e.head? = some (ch ':')
  swap
  · exact Or.inr ⟨_, .colon hs hk hs₂ hno₂ hcolon⟩
  obtain ⟨s₃, rfl⟩ := List.head?_eq_some_iff.1 hcolon
  have hlen := length_lt_of_member hs hk hs₂
  rcases hvs s₃ hlen with ⟨s₄, v, s₅, hs₃, hv⟩ | ⟨e, he⟩
  swap
  · exact Or.inr ⟨e, .memberValue hs hk hs₂ he⟩
  have hlen₃ := hs₃.length_le
  have hlen' := length_le_of_derives hv
  have hs₅ := spaces_dropWhile s₅
  have hno₅ := noSpace_dropWhile s₅
  generalize s₅.dropWhile isspace = e at hs₅ hno₅
  by_cases hcomma : e.head? = some (ch ',')
  · obtain ⟨s₆, rfl⟩ := List.head?_eq_some_iff.1 hcomma
    have hlen₅ := hs₅.length_le
    rw [List.length_cons] at hlen₅
    rcases hms s₆ (by omega) with ⟨ms, t, h⟩ | ⟨e, he⟩
    · exact Or.inl ⟨(k, v) :: ms, t, .member hs hk hs₂ hs₃ hv hs₅ h⟩
    · exact Or.inr ⟨e, .nextMember hs hk hs₂ hs₃ hv hs₅ he⟩
  by_cases hclose : e.head? = some (ch '}')
  · obtain ⟨t, rfl⟩ := List.head?_eq_some_iff.1 hclose
    exact Or.inl ⟨[(k, v)], t, .lastMember hs hk hs₂ hs₃ hv hs₅ rfl⟩
  · exact Or.inr ⟨e, .memberSeparator hs hk hs₂ hs₃ hv hs₅ hno₅ hcomma hclose⟩

/-- **Every text starts with a value of the dialect, or fails somewhere.** -/
theorem accepted_or_fails (rt : Runtime D) (s : Bytes) :
    Accepted rt s ∨ ∃ e, FirstError rt s e := by
  suffices h : ∀ s, HasValue rt s ∧ HasElements rt s ∧ HasMembers rt s from (h s).1
  intro s
  induction hn : s.length using Nat.strong_induction_on generalizing s with
  | _ n ih =>
      subst hn
      have ih (s' : Bytes) (h : s'.length < s.length) := ih _ h s' rfl
      have hv := hasValue_of_shorter (fun s' h => (ih s' h).2.1) fun s' h => (ih s' h).2.2
      exact ⟨hv, hasElements_of_shorter hv fun s' h => (ih s' h).2.1,
        hasMembers_of_shorter (fun s' h => (ih s' h).1) fun s' h => (ih s' h).2.2⟩

/-! ### The whole parser -/

/-- In strict mode the parser returns the value in front of an accepted text. -/
theorem parse_of_derives {s s₁ t : Bytes} {v : Value D} (hs : Spaces s s₁)
    (h : Derives (dialect rt) s₁ (.value v) t) : parse rt s true = .ok v := by
  obtain ⟨q, hok, -⟩ := derives_parses h (s.length + 1) 0 s (.start s)
    (hs.dropWhile_eq (noSpace_of_derives h)) (Nat.lt_succ_of_le hs.length_le)
  change runParser rt s = .ok v
  rw [runParser, hok]
  rfl

/-- In strict mode the parser throws in front of the first error of any other text. -/
theorem parse_of_firstError {s e : Bytes} (h : FirstError rt s e) :
    ErrorAt s e (parse rt s true) :=
  ErrorAt.bind (fails_throws h (s.length + 1) 0 s (.start s) rfl (Nat.lt_succ_self _)) _

/-- **Strict mode returns exactly on the accepted texts**, and what it returns is the value that
the dialect reads in front of the text. -/
theorem parse_eq_ok_iff {s : Bytes} {v : Value D} : parse rt s true = .ok v ↔
    ∃ s₁ t, Spaces s s₁ ∧ Derives (dialect rt) s₁ (.value v) t := by
  refine ⟨fun h => ?_, fun ⟨s₁, t, hs, hv⟩ => parse_of_derives hs hv⟩
  rcases accepted_or_fails rt s with ⟨s₁, w, t, hs, hw⟩ | ⟨e, he⟩
  · rw [parse_of_derives hs hw] at h
    obtain rfl : w = v := Except.ok.inj h
    exact ⟨s₁, t, hs, hw⟩
  · obtain ⟨q, msg, -, herr⟩ := parse_of_firstError he
    rw [herr] at h
    cases h

end Json
end BreUtils
