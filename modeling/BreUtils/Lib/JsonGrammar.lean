/-
# The JSON grammar over an alphabet

The productions of RFC 8259, §§2-5, with the lexical classes left open: what
may stand between two tokens (`gap`), what may stand between the last element
of a container and its closing bracket (`trail`, nothing in RFC 8259), and the
numbers and the strings together with what they denote.  A `Language` fixes
these classes, the alphabet and the values.  `Derives L s n t` says that the
text `s` starts with a derivation of `n` that leaves `t` unread.

`Derives.map` carries a derivation from one language to another along a map of
texts that respects the lexical classes; what stands in front of a closing bracket
is carried over as a whole.  A number may be cut short only by
what can follow it, so the classes have to agree only in front of a text that
may follow a value (`Follows`).
-/

import BreUtils.Lib.Cursor

namespace BreUtils
namespace Lib

/-- Lexical classes and value algebra of a JSON dialect over the alphabet `α`,
with keys in `K` and values in `V`. -/
structure Language (α K V : Type*) where
  byte : UInt8 → α
  gap : List α → List α → Prop
  trail : List α → List α → Prop
  number : List α → V → List α → Prop
  string : List α → K → List α → Prop
  null : V
  bool : Bool → V
  ofString : K → V
  array : List V → V
  object : List (K × V) → V → Prop

/-- What a derivation derives: a value, the elements of an array with its closing bracket, or
the members of an object with its closing bracket. -/
inductive Node (K V : Type*) where
  | value (v : V)
  | elements (vs : List V)
  | members (ms : List (K × V))

variable {α β K V : Type*}

/-- **The grammar.**  `s` starts with a derivation of `n` that leaves `t`. -/
inductive Derives (L : Language α K V) : List α → Node K V → List α → Prop
  | null (t : List α) : Derives L ((ascii "null").map L.byte ++ t) (.value L.null) t
  | true (t : List α) : Derives L ((ascii "true").map L.byte ++ t) (.value (L.bool true)) t
  | false (t : List α) : Derives L ((ascii "false").map L.byte ++ t) (.value (L.bool false)) t
  | number {s t : List α} {v : V} : L.number s v t → Derives L s (.value v) t
  | string {s t : List α} {k : K} : L.string s k t → Derives L s (.value (L.ofString k)) t
  | emptyArray {s t : List α} : L.gap s (L.byte (ch ']') :: t) →
      Derives L (L.byte (ch '[') :: s) (.value (L.array [])) t
  | array {s t : List α} {vs : List V} : Derives L s (.elements vs) t →
      Derives L (L.byte (ch '[') :: s) (.value (L.array vs)) t
  | emptyObject {s t : List α} {v : V} : L.gap s (L.byte (ch '}') :: t) → L.object [] v →
      Derives L (L.byte (ch '{') :: s) (.value v) t
  | object {s t : List α} {ms : List (K × V)} {v : V} : Derives L s (.members ms) t →
      L.object ms v → Derives L (L.byte (ch '{') :: s) (.value v) t
  | lastElement {s s₁ s₂ s₃ t : List α} {v : V} : L.gap s s₁ → Derives L s₁ (.value v) s₂ →
      L.gap s₂ s₃ → L.trail s₃ (L.byte (ch ']') :: t) → Derives L s (.elements [v]) t
  | element {s s₁ s₂ s₃ t : List α} {v : V} {vs : List V} : L.gap s s₁ →
      Derives L s₁ (.value v) s₂ → L.gap s₂ (L.byte (ch ',') :: s₃) →
      Derives L s₃ (.elements vs) t → Derives L s (.elements (v :: vs)) t
  | lastMember {s s₁ s₂ s₃ s₄ s₅ s₆ t : List α} {k : K} {v : V} : L.gap s s₁ →
      L.string s₁ k s₂ → L.gap s₂ (L.byte (ch ':') :: s₃) → L.gap s₃ s₄ →
      Derives L s₄ (.value v) s₅ → L.gap s₅ s₆ → L.trail s₆ (L.byte (ch '}') :: t) →
      Derives L s (.members [(k, v)]) t
  | member {s s₁ s₂ s₃ s₄ s₅ s₆ t : List α} {k : K} {v : V} {ms : List (K × V)} : L.gap s s₁ →
      L.string s₁ k s₂ → L.gap s₂ (L.byte (ch ':') :: s₃) → L.gap s₃ s₄ →
      Derives L s₄ (.value v) s₅ → L.gap s₅ (L.byte (ch ',') :: s₆) →
      Derives L s₆ (.members ms) t → Derives L s (.members ((k, v) :: ms)) t

/-- A text of the language: one value between two gaps, and nothing else. -/
def IsText (L : Language α K V) (s : List α) (v : V) : Prop :=
  ∃ s₁ s₂, L.gap s s₁ ∧ Derives L s₁ (.value v) s₂ ∧ L.gap s₂ []

/-- The texts that may follow a value inside a text of the language. -/
inductive Follows (L : Language α K V) : List α → Prop
  | stop {s : List α} : L.gap s [] → Follows L s
  | comma {s t : List α} : L.gap s (L.byte (ch ',') :: t) → Follows L s
  | bracket {s s₁ t : List α} : L.gap s s₁ → L.trail s₁ (L.byte (ch ']') :: t) → Follows L s
  | brace {s s₁ t : List α} : L.gap s s₁ → L.trail s₁ (L.byte (ch '}') :: t) → Follows L s

/-- A map of texts that respects the lexical classes of two languages with the same values. -/
structure Morphism (L : Language α K V) (M : Language β K V) (f : List α → List β) : Prop where
  byte : ∀ c s, f (L.byte c :: s) = M.byte c :: f s
  gap : ∀ {s t}, L.gap s t → M.gap (f s) (f t)
  trail : ∀ {s s₁ t}, L.gap s s₁ → L.trail s₁ t → ∃ u, M.gap (f s) u ∧ M.trail u (f t)
  number : ∀ {s v t}, L.number s v t → Follows L t → M.number (f s) v (f t)
  string : ∀ {s k t}, L.string s k t → M.string (f s) k (f t)
  null : L.null = M.null
  bool : L.bool = M.bool
  ofString : L.ofString = M.ofString
  array : L.array = M.array
  object : ∀ {ms v}, L.object ms v → M.object ms v

namespace Morphism

variable {L : Language α K V} {M : Language β K V} {f : List α → List β}

/-- A morphism passes over the bytes of a literal. -/
theorem literal (hf : Morphism L M f) (w : List UInt8) (t : List α) :
    f (w.map L.byte ++ t) = w.map M.byte ++ f t := by
  induction w with
  | nil => rfl
  | cons c w ih => rw [List.map_cons, List.cons_append, hf.byte, ih]; rfl

end Morphism

/-- **Derivations go along morphisms**, values in front of a text that may follow a value. -/
theorem Derives.map {L : Language α K V} {M : Language β K V} {f : List α → List β}
    (hf : Morphism L M f) {s t : List α} {n : Node K V} (h : Derives L s n t) :
    (∀ v, n = .value v → Follows L t) → Derives M (f s) n (f t) := by
  induction h with
  | null t => intro _; rw [hf.literal, hf.null]; exact .null _
  | true t => intro _; rw [hf.literal, hf.bool]; exact .true _
  | false t => intro _; rw [hf.literal, hf.bool]; exact .false _
  | number h => intro ht; exact .number (hf.number h (ht _ rfl))
  | string h => intro _; rw [hf.ofString]; exact .string (hf.string h)
  | emptyArray h =>
      intro _
      have := hf.gap h
      rw [hf.byte] at this ⊢
      rw [hf.array]
      exact .emptyArray this
  | array _ ih =>
      intro _
      rw [hf.byte, hf.array]
      exact .array (ih fun _ h => nomatch h)
  | emptyObject h hv =>
      intro _
      have := hf.gap h
      rw [hf.byte] at this ⊢
      exact .emptyObject this (hf.object hv)
  | object _ hv ih =>
      intro _
      rw [hf.byte]
      exact .object (ih fun _ h => nomatch h) (hf.object hv)
  | lastElement h₁ _ h₂ h₃ ih =>
      intro _
      obtain ⟨u, hgap, hclose⟩ := hf.trail h₂ h₃
      rw [hf.byte] at hclose
      exact .lastElement (hf.gap h₁) (ih fun _ _ => .bracket h₂ h₃) hgap hclose
  | element h₁ _ h₂ _ ihv ih =>
      intro _
      have := hf.gap h₂
      rw [hf.byte] at this
      exact .element (hf.gap h₁) (ihv fun _ _ => .comma h₂) this (ih fun _ h => nomatch h)
  | lastMember h₁ hk h₂ h₃ _ h₄ h₅ ih =>
      intro _
      have hcolon := hf.gap h₂
      obtain ⟨u, hgap, hclose⟩ := hf.trail h₄ h₅
      rw [hf.byte] at hcolon hclose
      exact .lastMember (hf.gap h₁) (hf.string hk) hcolon (hf.gap h₃)
        (ih fun _ _ => .brace h₄ h₅) hgap hclose
  | member h₁ hk h₂ h₃ _ h₄ _ ihv ih =>
      intro _
      have hcolon := hf.gap h₂
      have hcomma := hf.gap h₄
      rw [hf.byte] at hcolon hcomma
      exact .member (hf.gap h₁) (hf.string hk) hcolon (hf.gap h₃) (ihv fun _ _ => .comma h₄)
        hcomma (ih fun _ h => nomatch h)

/-- A text goes along a morphism that keeps the empty text. -/
theorem IsText.map {L : Language α K V} {M : Language β K V} {f : List α → List β}
    (hf : Morphism L M f) (hnil : f [] = []) {s : List α} {v : V} (h : IsText L s v) :
    IsText M (f s) v := by
  obtain ⟨s₁, s₂, h₁, h, h₂⟩ := h
  exact ⟨f s₁, f s₂, hf.gap h₁, h.map hf fun _ _ => .stop h₂, hnil ▸ hf.gap h₂⟩

/-- A relation between the texts of two languages with the same values along which every lexical
item of the first one has a counterpart in the second, in front of any counterpart of the rest. -/
structure Lifting (L : Language α K V) (M : Language β K V) (R : List β → List α → Prop) :
    Prop where
  byte : ∀ c {s s'}, R s' s → R (M.byte c :: s') (L.byte c :: s)
  gap : ∀ {s t t'}, L.gap s t → R t' t → ∃ s', R s' s ∧ M.gap s' t'
  trail : ∀ {s t t'}, L.trail s t → R t' t → ∃ s', R s' s ∧ M.trail s' t'
  number : ∀ {s v t t'}, L.number s v t → R t' t → ∃ s', R s' s ∧ M.number s' v t'
  string : ∀ {s k t t'}, L.string s k t → R t' t → ∃ s', R s' s ∧ M.string s' k t'
  null : L.null = M.null
  bool : L.bool = M.bool
  ofString : L.ofString = M.ofString
  array : L.array = M.array
  object : ∀ {ms v}, L.object ms v → M.object ms v

section Lifting

variable {L : Language α K V} {M : Language β K V} {R : List β → List α → Prop}

/-- So does a lifting. -/
theorem Lifting.literal (hR : Lifting L M R) (w : List UInt8) {s : List α} {s' : List β}
    (h : R s' s) : R (w.map M.byte ++ s') (w.map L.byte ++ s) := by
  induction w with
  | nil => exact h
  | cons c w ih => exact hR.byte c ih

/-- **Derivations are lifted**, from their end to their start. -/
theorem Derives.lift (hR : Lifting L M R) {s t : List α} {n : Node K V} (h : Derives L s n t) :
    ∀ t', R t' t → ∃ s', R s' s ∧ Derives M s' n t' := by
  induction h with
  | null t => exact fun t' ht => ⟨_, hR.literal _ ht, hR.null ▸ .null t'⟩
  | true t => exact fun t' ht => ⟨_, hR.literal _ ht, hR.bool ▸ .true t'⟩
  | false t => exact fun t' ht => ⟨_, hR.literal _ ht, hR.bool ▸ .false t'⟩
  | number h =>
      intro t' ht
      obtain ⟨s', hs, h'⟩ := hR.number h ht
      exact ⟨s', hs, .number h'⟩
  | string h =>
      intro t' ht
      obtain ⟨s', hs, h'⟩ := hR.string h ht
      exact ⟨s', hs, hR.ofString ▸ .string h'⟩
  | emptyArray h =>
      intro t' ht
      obtain ⟨s', hs, h'⟩ := hR.gap h (hR.byte _ ht)
      exact ⟨_, hR.byte _ hs, hR.array ▸ .emptyArray h'⟩
  | array _ ih =>
      intro t' ht
      obtain ⟨s', hs, h'⟩ := ih t' ht
      exact ⟨_, hR.byte _ hs, hR.array ▸ .array h'⟩
  | emptyObject h hv =>
      intro t' ht
      obtain ⟨s', hs, h'⟩ := hR.gap h (hR.byte _ ht)
      exact ⟨_, hR.byte _ hs, .emptyObject h' (hR.object hv)⟩
  | object _ hv ih =>
      intro t' ht
      obtain ⟨s', hs, h'⟩ := ih t' ht
      exact ⟨_, hR.byte _ hs, .object h' (hR.object hv)⟩
  | lastElement h₁ _ h₂ h₃ ih =>
      intro t' ht
      obtain ⟨s₃', hs₃, h₃'⟩ := hR.trail h₃ (hR.byte _ ht)
      obtain ⟨s₂', hs₂, h₂'⟩ := hR.gap h₂ hs₃
      obtain ⟨s₁', hs₁, hv⟩ := ih s₂' hs₂
      obtain ⟨s', hs, h₁'⟩ := hR.gap h₁ hs₁
      exact ⟨s', hs, .lastElement h₁' hv h₂' h₃'⟩
  | element h₁ _ h₂ _ ihv ih =>
      intro t' ht
      obtain ⟨s₃', hs₃, hvs⟩ := ih t' ht
      obtain ⟨s₂', hs₂, h₂'⟩ := hR.gap h₂ (hR.byte _ hs₃)
      obtain ⟨s₁', hs₁, hv⟩ := ihv s₂' hs₂
      obtain ⟨s', hs, h₁'⟩ := hR.gap h₁ hs₁
      exact ⟨s', hs, .element h₁' hv h₂' hvs⟩
  | lastMember h₁ hk h₂ h₃ _ h₄ h₅ ih =>
      intro t' ht
      obtain ⟨s₆', hs₆, h₅'⟩ := hR.trail h₅ (hR.byte _ ht)
      obtain ⟨s₅', hs₅, h₄'⟩ := hR.gap h₄ hs₆
      obtain ⟨s₄', hs₄, hv⟩ := ih s₅' hs₅
      obtain ⟨s₃', hs₃, h₃'⟩ := hR.gap h₃ hs₄
      obtain ⟨s₂', hs₂, h₂'⟩ := hR.gap h₂ (hR.byte _ hs₃)
      obtain ⟨s₁', hs₁, hk'⟩ := hR.string hk hs₂
      obtain ⟨s', hs, h₁'⟩ := hR.gap h₁ hs₁
      exact ⟨s', hs, .lastMember h₁' hk' h₂' h₃' hv h₄' h₅'⟩
  | member h₁ hk h₂ h₃ _ h₄ _ ihv ih =>
      intro t' ht
      obtain ⟨s₆', hs₆, hms⟩ := ih t' ht
      obtain ⟨s₅', hs₅, h₄'⟩ := hR.gap h₄ (hR.byte _ hs₆)
      obtain ⟨s₄', hs₄, hv⟩ := ihv s₅' hs₅
      obtain ⟨s₃', hs₃, h₃'⟩ := hR.gap h₃ hs₄
      obtain ⟨s₂', hs₂, h₂'⟩ := hR.gap h₂ (hR.byte _ hs₃)
      obtain ⟨s₁', hs₁, hk'⟩ := hR.string hk hs₂
      obtain ⟨s', hs, h₁'⟩ := hR.gap h₁ hs₁
      exact ⟨s', hs, .member h₁' hk' h₂' h₃' hv h₄' hms⟩

/-- A text is lifted, from the empty one behind it. -/
theorem IsText.lift (hR : Lifting L M R) (hnil : R [] []) {s : List α} {v : V}
    (h : IsText L s v) : ∃ s', R s' s ∧ IsText M s' v := by
  obtain ⟨s₁, s₂, h₁, hv, h₂⟩ := h
  obtain ⟨s₂', hs₂, h₂'⟩ := hR.gap h₂ hnil
  obtain ⟨s₁', hs₁, hv'⟩ := hv.lift hR s₂' hs₂
  obtain ⟨s', hs, h₁'⟩ := hR.gap h₁ hs₁
  exact ⟨s', hs, s₁', s₂', h₁', hv', h₂'⟩

end Lifting

end Lib
end BreUtils
