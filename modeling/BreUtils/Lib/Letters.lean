/-
# JSON texts with insertions, letter by letter

The texts that a cleaning pass works on: a JSON text of RFC 8259 with a comma
inserted before closing brackets of containers that are not empty, and comments
between its tokens.  In the alphabet of `lettered` a string literal is one
letter, and so is an insertion; the newline that ends a comment is a byte of its
own, which stays when the comment goes.  Without the insertions a lettered text
is a JSON text (`JsonText.of_lettered`), and every JSON text is one
(`JsonText.exists_lettered`).

`WellPlaced` is what a scanner of such a text relies on: which bytes stand outside of
the literals, and what comes behind a comma.
-/

import BreUtils.Lib.Rfc8259

namespace BreUtils
namespace Lib

open Rfc8259

/-- A letter of a text with insertions. -/
inductive Letter where
  /-- A byte outside of the string literals. -/
  | text (c : UInt8)
  | literal (is : List Item)
  /-- An inserted comma. -/
  | comma
  /-- An inserted comment `//`, up to the newline that ends it. -/
  | line (body : List UInt8)
  /-- An inserted comment from `/*` to `*/`. -/
  | block (body : List UInt8)

namespace Letter

/-- The text with its insertions. -/
def written : List Letter → List UInt8
  | [] => []
  | text c :: m => c :: written m
  | literal is :: m => quote is ++ written m
  | comma :: m => ch ',' :: written m
  | line body :: m => ascii "//" ++ (body ++ written m)
  | block body :: m => ascii "/*" ++ (body ++ (ascii "*/" ++ written m))

/-- The text without them. -/
def original : List Letter → List UInt8
  | [] => []
  | text c :: m => c :: original m
  | literal is :: m => quote is ++ original m
  | comma :: m => original m
  | line _ :: m => original m
  | block _ :: m => original m

/-- A letter of a comment. -/
def isComment : Letter → Bool
  | line _ | block _ => true
  | text _ | literal _ | comma => false

/-- A letter that the original does not have. -/
def isInserted : Letter → Bool
  | comma | line _ | block _ => true
  | text _ | literal _ => false

/-- A letter of the original is none of a comment. -/
theorem isComment_of_not_isInserted {x : Letter} (h : x.isInserted = false) :
    x.isComment = false := by
  cases x with
  | text | literal | comma => rfl
  | line | block => cases h

/-- Plain text counts to the original. -/
@[simp] theorem original_text (w : List UInt8) (m : List Letter) :
    original (w.map text ++ m) = w ++ original m := by
  induction w with
  | nil => rfl
  | cons c w ih => simp [original, ih]

/-- Plain text is written as it is. -/
@[simp] theorem written_text (w : List UInt8) (m : List Letter) :
    written (w.map text ++ m) = w ++ written m := by
  induction w with
  | nil => rfl
  | cons c w ih => simp [written, ih]

end Letter

open Letter

/-- White space with comments in it. -/
inductive LetterGap : List Letter → List Letter → Prop
  | nil (s : List Letter) : LetterGap s s
  | ws {c : UInt8} {s t : List Letter} : isWs c = true → LetterGap s t → LetterGap (.text c :: s) t
  | line {body : List UInt8} {s t : List Letter} : ch '\n' ∉ body → LetterGap s t →
      LetterGap (.line body :: .text (ch '\n') :: s) t
  | block {body : List UInt8} {s t : List Letter} : ¬ascii "*/" <:+: body → LetterGap s t →
      LetterGap (.block body :: s) t

/-- **The grammar of texts with insertions.** -/
def lettered : Language Letter Unit Unit where
  byte := .text
  gap := LetterGap
  trail s t := s = t ∨ ∃ u, s = .comma :: u ∧ LetterGap u t
  number s _ t := ∃ n : Number, n.Valid ∧ s = n.text.map .text ++ t
  string s _ t := ∃ is : List Item, (∀ i ∈ is, i.Valid) ∧ s = .literal is :: t
  null := ()
  bool _ := ()
  ofString _ := ()
  array _ := ()
  object _ _ := True

/-! ### Texts with insertions, and JSON texts -/

/-- Without its comments a gap is white space. -/
theorem ws_of_letterGap {s t : List Letter} (h : LetterGap s t) :
    Ws (original s) (original t) := by
  induction h with
  | nil s => exact Ws.refl _
  | @ws c s t hc _ ih => exact Ws.trans ⟨[c], by simpa using hc, rfl⟩ ih
  | @line body s t _ _ ih =>
      exact Ws.trans (t := original s) ⟨[ch '\n'], by decide +kernel, rfl⟩ ih
  | block _ _ ih => exact ih

/-- Taking the insertions out maps the texts with insertions to texts of RFC 8259. -/
theorem letter_morphism : Morphism lettered (rfc8259 bareSyntax) original where
  byte _ _ := rfl
  gap := ws_of_letterGap
  trail {s s₁ t} h h' := by
    refine ⟨original t, ?_, rfl⟩
    have hs : Ws (original s) (original s₁) := ws_of_letterGap h
    rcases h' with rfl | ⟨u, rfl, h'⟩
    · exact hs
    · have hu : Ws (original u) (original t) := ws_of_letterGap h'
      exact hs.trans hu
  number := by
    rintro s v t ⟨n, hn, rfl⟩ -
    exact ⟨n, hn, trivial, original_text ..⟩
  string := by
    rintro s k t ⟨is, his, rfl⟩
    exact ⟨is, his, trivial, rfl⟩
  null := rfl
  bool := rfl
  ofString := rfl
  array := rfl
  object h := h

/-- **What is left without the insertions is a JSON text.** -/
theorem JsonText.of_lettered {m : List Letter} (h : IsText lettered m ()) :
    JsonText (original m) :=
  h.map letter_morphism rfl

/-- `m` writes `s` and has no insertions. -/
def Spelled (m : List Letter) (s : List UInt8) : Prop :=
  written m = s ∧ ∀ x ∈ m, x.isInserted = false

/-- Letters that spell a text have it as their original. -/
theorem Spelled.original_eq {m : List Letter} {s : List UInt8} (h : Spelled m s) :
    original m = s := by
  obtain ⟨rfl, hm⟩ := h
  induction m with
  | nil => rfl
  | cons x m ih =>
      have ih := ih fun y hy => hm y (List.mem_cons_of_mem _ hy)
      cases x with
      | text c => rw [original, written, ih]
      | literal is => rw [original, written, ih]
      | comma | line | block => cases hm _ (List.mem_cons_self ..)

/-- Plain text in front is spelled by itself. -/
theorem spelled_text {m : List Letter} {s : List UInt8} (h : Spelled m s) (w : List UInt8) :
    Spelled (w.map .text ++ m) (w ++ s) := by
  refine ⟨by rw [written_text, h.1], fun x hx => ?_⟩
  rcases List.mem_append.1 hx with hx | hx
  · obtain ⟨c, -, rfl⟩ := List.mem_map.1 hx
    rfl
  · exact h.2 x hx

/-- White space is a gap. -/
theorem letterGap_text {w : List UInt8} (hw : ∀ c ∈ w, isWs c = true) (m : List Letter) :
    LetterGap (w.map .text ++ m) m := by
  induction w with
  | nil => exact .nil _
  | cons c w ih =>
      exact .ws (hw c (List.mem_cons_self ..)) (ih fun d hd => hw d (List.mem_cons_of_mem _ hd))

/-- **A derivation of a text lifts to the letters that spell it.** -/
theorem letter_lifting : Lifting (rfc8259 bareSyntax) lettered Spelled where
  byte c _ _ h := spelled_text h [c]
  gap := by
    rintro s t t' ⟨w, hw, rfl⟩ ht
    exact ⟨_, spelled_text ht w, letterGap_text hw t'⟩
  trail := by
    rintro s t t' rfl ht
    exact ⟨t', ht, Or.inl rfl⟩
  number := by
    rintro s v t t' ⟨n, hn, -, rfl⟩ ht
    exact ⟨_, spelled_text ht n.text, n, hn, rfl⟩
  string := by
    rintro s k t t' ⟨is, his, -, rfl⟩ ht
    exact ⟨.literal is :: t', ⟨congrArg _ ht.1, List.forall_mem_cons.2 ⟨rfl, ht.2⟩⟩, is, his, rfl⟩
  null := rfl
  bool := rfl
  ofString := rfl
  array := rfl
  object h := h

/-- **Every JSON text is one without insertions.** -/
theorem JsonText.exists_lettered {s : List UInt8} (h : JsonText s) :
    ∃ m, Spelled m s ∧ IsText lettered m () :=
  IsText.lift letter_lifting ⟨rfl, by simp⟩ h

/-! ### What a scanner relies on -/

/-- A byte that may stand outside of the literals: no quotation mark, no backslash and no slash. -/
def isToken (c : UInt8) : Bool := c != ch '"' && c != ch '\\' && c != ch '/'

/-- No byte of a token begins a string, an escape or a comment. -/
theorem ne_of_isToken : ∀ c, isToken c = true → c ≠ ch '"' ∧ c ≠ ch '\\' ∧ c ≠ ch '/' := by
  decide +kernel

/-- A byte with which a value that is no string starts. -/
def isValueStart (c : UInt8) : Bool := isDigit c || (ascii "-ntf[\x7b").contains c

/-- Behind a gap something starts that is no closing bracket: a literal or another value. -/
def StartsItem (m : List Letter) : Prop :=
  ∃ x t, LetterGap m (x :: t) ∧
    ((∃ is, x = .literal is) ∨ ∃ c, x = .text c ∧ isValueStart c = true)

/-- Behind a gap there is a closing bracket. -/
def ClosesItem (m : List Letter) : Prop :=
  ∃ c t, LetterGap m (.text c :: t) ∧ (c = ch ']' ∨ c = ch '}')

/-- **The places of the letters**, one after the other. -/
inductive WellPlaced : List Letter → Prop
  | nil : WellPlaced []
  | text {c : UInt8} {m : List Letter} : isToken c = true → (c = ch ',' → StartsItem m) →
      WellPlaced m → WellPlaced (.text c :: m)
  | literal {is : List Item} {m : List Letter} : (∀ i ∈ is, i.Valid) → WellPlaced m →
      WellPlaced (.literal is :: m)
  | comma {m : List Letter} : ClosesItem m → WellPlaced m → WellPlaced (.comma :: m)
  | line {body : List UInt8} {m : List Letter} : ch '\n' ∉ body → WellPlaced m →
      WellPlaced (.line body :: .text (ch '\n') :: m)
  | block {body : List UInt8} {m : List Letter} : ¬ascii "*/" <:+: body → WellPlaced m →
      WellPlaced (.block body :: m)

/-- Two gaps in a row are a gap. -/
theorem LetterGap.trans {s t u : List Letter} (h : LetterGap s t) (h' : LetterGap t u) :
    LetterGap s u := by
  induction h with
  | nil s => exact h'
  | ws hc _ ih => exact .ws hc (ih h')
  | line hb _ ih => exact .line hb (ih h')
  | block hb _ ih => exact .block hb (ih h')

/-- An item that starts behind a gap is ahead before it. -/
theorem StartsItem.of_gap {s t : List Letter} (h : LetterGap s t) :
    StartsItem t → StartsItem s := by
  rintro ⟨x, u, hu, hx⟩
  exact ⟨x, u, h.trans hu, hx⟩

/-- A blank can stand in a token, and is no comma. -/
theorem isToken_of_isWs : ∀ c, isWs c = true → isToken c = true ∧ c ≠ ch ',' := by
  decide +kernel

/-- So can the bytes of a number. -/
theorem isToken_of_isNumberByte : ∀ c, isNumberByte c = true → isToken c = true ∧ c ≠ ch ',' := by
  decide +kernel

/-- A gap in front moves no comma to a wrong place. -/
theorem WellPlaced.of_gap {s t : List Letter} (h : LetterGap s t) (ht : WellPlaced t) :
    WellPlaced s := by
  induction h with
  | nil s => exact ht
  | ws hc _ ih =>
      obtain ⟨htoken, hne⟩ := isToken_of_isWs _ hc
      exact .text htoken (fun h => absurd h hne) (ih ht)
  | line hb _ ih => exact .line hb (ih ht)
  | block hb _ ih => exact .block hb (ih ht)

/-- Bytes of a value that is no string and no container. -/
theorem WellPlaced.append {w : List UInt8} (hw : ∀ c ∈ w, isToken c = true ∧ c ≠ ch ',')
    {m : List Letter} (hm : WellPlaced m) : WellPlaced (w.map .text ++ m) := by
  induction w with
  | nil => exact hm
  | cons c w ih =>
      obtain ⟨htoken, hne⟩ := hw c (List.mem_cons_self ..)
      exact .text htoken (fun h => absurd h hne) (ih fun d hd => hw d (List.mem_cons_of_mem _ hd))

/-- The first byte of a value starts an item. -/
theorem starts_text {c : UInt8} (hc : isValueStart c = true) (m : List Letter) :
    StartsItem (.text c :: m) :=
  ⟨_, m, .nil _, Or.inr ⟨c, rfl, hc⟩⟩

/-- The first byte of a number. -/
theorem starts_number {n : Number} (hn : n.Valid) (m : List Letter) :
    StartsItem (n.text.map .text ++ m) := by
  obtain ⟨d, ds, hd⟩ := List.exists_cons_of_ne_nil hn.int_ne_nil
  have hdigit : isDigit d = true := hn.isDigit_int d (by rw [hd]; exact List.mem_cons_self ..)
  rw [Number.text, hd]
  cases n.negative with
  | true => exact starts_text (by decide) _
  | false => exact starts_text (by rw [isValueStart, hdigit, Bool.true_or]) _

/-- What stands in front of a closing bracket: it may be an inserted comma. -/
theorem WellPlaced.of_trail {c : UInt8} {s t : List Letter} (hc : c = ch ']' ∨ c = ch '}')
    (h : lettered.trail s (.text c :: t)) (ht : WellPlaced (.text c :: t)) : WellPlaced s := by
  rcases h with rfl | ⟨u, rfl, hu⟩
  · exact ht
  · exact .comma ⟨c, t, hu, hc⟩ (ht.of_gap hu)

/-- **A derivation places its letters**, and starts with a value, or with a gap and a value. -/
theorem Derives.wellPlaced {s t : List Letter} {n : Node Unit Unit} (h : Derives lettered s n t) :
    WellPlaced t → WellPlaced s ∧ StartsItem s := by
  have hcons {c : UInt8} (hc : isToken c ∧ c ≠ ch ',') {m : List Letter} (hm : WellPlaced m) :
      WellPlaced (.text c :: m) := hm.append (w := [c]) (List.forall_mem_singleton.2 hc)
  have hstring {s t : List Letter} {k : Unit} (h : lettered.string s k t) (ht : WellPlaced t) :
      WellPlaced s ∧ StartsItem s := by
    obtain ⟨is, his, rfl⟩ := h
    exact ⟨.literal his ht, _, _, .nil _, Or.inl ⟨is, rfl⟩⟩
  induction h with
  | null t => exact fun ht => ⟨ht.append (by decide +kernel), starts_text (by decide) _⟩
  | true t => exact fun ht => ⟨ht.append (by decide +kernel), starts_text (by decide) _⟩
  | false t => exact fun ht => ⟨ht.append (by decide +kernel), starts_text (by decide) _⟩
  | number h =>
      intro ht
      obtain ⟨n, hn, rfl⟩ := h
      exact ⟨ht.append fun c hc => isToken_of_isNumberByte c (hn.mem_text c hc), starts_number hn _⟩
  | string h => exact fun ht => hstring h ht
  | emptyArray h =>
      intro ht
      exact ⟨hcons (by decide) ((hcons (by decide) ht).of_gap h), starts_text (by decide) _⟩
  | array _ ih => exact fun ht => ⟨hcons (by decide) (ih ht).1, starts_text (by decide) _⟩
  | emptyObject h _ =>
      intro ht
      exact ⟨hcons (by decide) ((hcons (by decide) ht).of_gap h), starts_text (by decide) _⟩
  | object _ _ ih => exact fun ht => ⟨hcons (by decide) (ih ht).1, starts_text (by decide) _⟩
  | lastElement h₁ _ h₂ h₃ ih =>
      intro ht
      have hclose := WellPlaced.of_trail (Or.inl rfl) h₃ (hcons (by decide) ht)
      obtain ⟨hv, hstarts⟩ := ih (hclose.of_gap h₂)
      exact ⟨hv.of_gap h₁, hstarts.of_gap h₁⟩
  | element h₁ _ h₂ _ ihv ih =>
      intro ht
      obtain ⟨hvs, hnext⟩ := ih ht
      obtain ⟨hv, hstarts⟩ := ihv (WellPlaced.of_gap h₂ (.text (by decide) (fun _ => hnext) hvs))
      exact ⟨hv.of_gap h₁, hstarts.of_gap h₁⟩
  | lastMember h₁ hk h₂ h₃ _ h₄ h₅ ih =>
      intro ht
      have hclose := WellPlaced.of_trail (Or.inr rfl) h₅ (hcons (by decide) ht)
      obtain ⟨hv, -⟩ := ih (hclose.of_gap h₄)
      obtain ⟨hkey, hstarts⟩ :=
        hstring hk (WellPlaced.of_gap h₂ (hcons (by decide) (hv.of_gap h₃)))
      exact ⟨hkey.of_gap h₁, hstarts.of_gap h₁⟩
  | member h₁ hk h₂ h₃ _ h₄ _ ihv ih =>
      intro ht
      obtain ⟨hms, hnext⟩ := ih ht
      obtain ⟨hv, -⟩ := ihv (WellPlaced.of_gap h₄ (.text (by decide) (fun _ => hnext) hms))
      obtain ⟨hkey, hstarts⟩ :=
        hstring hk (WellPlaced.of_gap h₂ (hcons (by decide) (hv.of_gap h₃)))
      exact ⟨hkey.of_gap h₁, hstarts.of_gap h₁⟩

/-- **The letters of a text with insertions are placed.** -/
theorem wellPlaced_of_isText {m : List Letter} (h : IsText lettered m ()) : WellPlaced m := by
  obtain ⟨s₁, s₂, h₁, hv, h₂⟩ := h
  exact (hv.wellPlaced (WellPlaced.nil.of_gap h₂)).1.of_gap h₁

/-! ### The inside of a literal -/

/-- The bytes between the quotation marks of a literal. -/
def inside (is : List Item) : List UInt8 := is.flatMap Item.text

/-- A string begins and ends with a quotation mark. -/
theorem quote_append (is : List Item) (s : List UInt8) :
    quote is ++ s = ch '"' :: (inside is ++ ch '"' :: s) := by
  rw [quote, inside, List.cons_append, List.append_assoc, List.singleton_append]

/-- `w` ends a literal, behind the bytes `p₂`, `p₁`: each quotation mark in it stands behind a
backslash, and a backslash at its end behind another one. -/
def Inside : Option UInt8 → Option UInt8 → List UInt8 → Prop
  | p₂, p₁, [] => p₁ = some (ch '\\') → p₂ = some (ch '\\')
  | _, p₁, c :: w => (c = ch '"' → p₁ = some (ch '\\')) ∧ Inside p₁ (some c) w

/-- A run of bytes that mean nothing to the literal. -/
theorem Inside.append {w s : List UInt8} {p₂ p₁ : Option UInt8}
    (hw : ∀ b ∈ w, b ≠ ch '"' ∧ b ≠ ch '\\')
    (hp : p₁ = some (ch '\\') → p₂ = some (ch '\\'))
    (hs : ∀ p₂ p₁, (p₁ = some (ch '\\') → p₂ = some (ch '\\')) → Inside p₂ p₁ s) :
    Inside p₂ p₁ (w ++ s) := by
  induction w generalizing p₂ p₁ with
  | nil => exact hs p₂ p₁ hp
  | cons b w ih =>
      obtain ⟨hq, hb⟩ := hw b (List.mem_cons_self ..)
      exact ⟨fun h => absurd h hq, ih (fun d hd => hw d (List.mem_cons_of_mem _ hd))
        fun h => absurd (Option.some.inj h) hb⟩

/-- A hex digit neither ends a string nor begins an escape. -/
theorem ne_of_isHexDigit : ∀ c, isHexDigit c = true → c ≠ ch '"' ∧ c ≠ ch '\\' := by
  decide +kernel

/-- **The bytes of a literal**, with the opening quotation mark in front of them. -/
theorem inside_of_valid {is : List Item} (hv : ∀ i ∈ is, i.Valid) :
    ∀ p₂ p₁, (p₁ = some (ch '\\') → p₂ = some (ch '\\')) → Inside p₂ p₁ (inside is) := by
  induction is with
  | nil => exact fun p₂ p₁ hp => hp
  | cons i is ih =>
      intro p₂ p₁ hp
      have hi := hv i (List.mem_cons_self ..)
      have his := ih fun j hj => hv j (List.mem_cons_of_mem _ hj)
      rw [inside, List.flatMap_cons]
      cases i with
      | unescaped c => exact .append (fun b hb => (utf8_of_valid hi b hb).2) hp his
      | escaped e =>
          exact ⟨fun h => absurd h (by decide), fun _ => rfl, his _ _ fun _ => rfl⟩
      | unicode h₁ h₂ h₃ h₄ =>
          exact ⟨fun h => absurd h (by decide), fun h => absurd h (by decide),
            Inside.append (fun b hb => ne_of_isHexDigit b (hi b hb)) (fun h => absurd h (by decide))
              his⟩

end Lib
end BreUtils
