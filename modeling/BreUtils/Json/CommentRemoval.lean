/-
# What `removeComments` does to a text with comments

The scanner takes a quotation mark for one that starts or ends a string unless it
stands behind a backslash; behind two backslashes it takes it for one again,
whatever stands before them.  So it misreads the `\"` in `\\\"`, and from there
on it has inside and outside of the strings exchanged, until it misreads another
one.  A comment it comes to in that state stays, and what looks like a comment in
a string goes: `Quiet` says that neither happens, and it is what the result
depends on (`removeComments_iff`).
-/

import BreUtils.Json.Cleaning
import BreUtils.Lib.Letters

namespace BreUtils
namespace Json

open Lib Cpp Letter
open Rfc8259 (Item quote)

/-! ### The loop, step by step -/

/-- A comment starts here. -/
def OpensComment (s : Bytes) : Prop := ascii "//" <+: s ∨ ascii "/*" <+: s

/-- A comment opens with a slash and a slash or a star. -/
theorem opensComment_cons {c : UInt8} {s : Bytes} : OpensComment (c :: s) ↔
    c = ch '/' ∧ (s.head? = some (ch '/') ∨ s.head? = some (ch '*')) := by
  have htwo (d e : UInt8) : [d, e] <+: c :: s ↔ c = d ∧ s.head? = some e := by
    cases s with
    | nil => simp
    | cons b s => simp [eq_comm]
  exact (or_congr (htwo (ch '/') (ch '/')) (htwo (ch '/') (ch '*'))).trans and_or_left.symm

instance (s : Bytes) : Decidable (OpensComment s) := inferInstanceAs (Decidable (_ ∨ _))

variable {p₁ p₂ : Option UInt8} {inString : Bool} {c : UInt8} {s : Bytes}

/-- A quotation mark that the loop takes for the start or the end of a string. -/
theorem removeCommentsLoop_quote (h : togglesString p₁ p₂ = true) :
    removeCommentsLoop p₁ p₂ inString false false (ch '"' :: s) =
      ch '"' :: removeCommentsLoop (some (ch '"')) p₁ (!inString) false false s := by
  rw [removeCommentsLoop.eq_def]
  simp [h]

/-- Any other byte that the loop passes over. -/
theorem removeCommentsLoop_cons (hq : c = ch '"' → togglesString p₁ p₂ = false)
    (hc : inString = false → ¬OpensComment (c :: s)) :
    removeCommentsLoop p₁ p₂ inString false false (c :: s) =
      c :: removeCommentsLoop (some c) p₁ inString false false s := by
  have hquote : ¬((c == ch '"' && togglesString p₁ p₂) = true) := by
    rw [Bool.and_eq_true, beq_iff_eq]
    rintro ⟨rfl, h⟩
    rw [hq rfl] at h
    cases h
  cases s with
  | nil => simp only [removeCommentsLoop, Bool.false_eq_true, if_false, if_neg hquote]
  | cons d s =>
      have hopen (e : UInt8) (he : e = ch '/' ∨ e = ch '*') :
          ¬((!inString && c == ch '/' && d == e) = true) := by
        rw [Bool.and_eq_true, Bool.and_eq_true, Bool.not_eq_true', beq_iff_eq, beq_iff_eq]
        rintro ⟨⟨hin, rfl⟩, rfl⟩
        exact hc hin (opensComment_cons.2 ⟨rfl, he.imp (congrArg some) (congrArg some)⟩)
      rw [removeCommentsLoop, if_neg Bool.false_ne_true, if_neg Bool.false_ne_true, if_neg hquote]
      simp only [if_neg (hopen _ (Or.inl rfl)), if_neg (hopen _ (Or.inr rfl))]

/-- A comment up to the end of its line. -/
theorem removeCommentsLoop_line (p₁ p₂ : Option UInt8) {body : Bytes} (hb : ch '\n' ∉ body) :
    ∃ q, removeCommentsLoop p₁ p₂ false false false (ascii "//" ++ (body ++ ch '\n' :: s)) =
      ch '\n' :: removeCommentsLoop (some (ch '\n')) q false false false s := by
  have hskip (p₁ p₂ : Option UInt8) :
      ∃ q, removeCommentsLoop p₁ p₂ false true false (body ++ ch '\n' :: s) =
        ch '\n' :: removeCommentsLoop (some (ch '\n')) q false false false s := by
    induction body generalizing p₁ p₂ with
    | nil => exact ⟨p₁, by rw [List.nil_append, removeCommentsLoop.eq_def]; simp⟩
    | cons c body ih =>
        rw [List.mem_cons, not_or] at hb
        obtain ⟨q, hq⟩ := ih hb.2 (some c) p₁
        refine ⟨q, ?_⟩
        have hc : (c == ch '\n') = false := beq_eq_false_iff_ne.2 (Ne.symm hb.1)
        rw [List.cons_append, removeCommentsLoop.eq_def, ← hq]
        simp [hc]
  obtain ⟨q, hq⟩ := hskip (some (ch '/')) (some (ch '/'))
  refine ⟨q, ?_⟩
  rw [← hq]
  rfl

/-- A comment up to `*/`. -/
theorem removeCommentsLoop_block {body : Bytes} (hb : ¬ascii "*/" <:+: body) :
    removeCommentsLoop p₁ p₂ false false false (ascii "/*" ++ (body ++ (ascii "*/" ++ s))) =
      removeCommentsLoop (some (ch '/')) (some (ch '*')) false false false s := by
  have hskip (p₁ p₂ : Option UInt8) :
      removeCommentsLoop p₁ p₂ false false true (body ++ (ascii "*/" ++ s)) =
        removeCommentsLoop (some (ch '/')) (some (ch '*')) false false false s := by
    induction body generalizing p₁ p₂ with
    | nil => rfl
    | cons c body ih =>
        have hbody : ¬ascii "*/" <:+: body :=
          fun h => hb (h.trans (List.suffix_cons c body).isInfix)
        -- the byte behind `c` does not end the comment together with it
        obtain ⟨d, t, hd, hend⟩ : ∃ d t, body ++ (ascii "*/" ++ s) = d :: t ∧
            ¬(c = ch '*' ∧ d = ch '/') := by
          cases body with
          | nil => exact ⟨_, _, rfl, fun h => absurd h.2 (by decide)⟩
          | cons d body =>
              refine ⟨d, _, rfl, ?_⟩
              rintro ⟨rfl, rfl⟩
              exact hb (List.prefix_append (ascii "*/") body).isInfix
        have ih := ih hbody (some c) p₁
        rw [List.cons_append, hd, removeCommentsLoop.eq_def]
        rw [hd] at ih
        simpa [hend] using ih
  rw [← hskip (some (ch '*')) (some (ch '/'))]
  rfl

/-- A byte that starts no comment is the first one of the result. -/
theorem head?_removeCommentsLoop (hc : c ≠ ch '/') :
    (removeCommentsLoop p₁ p₂ inString false false (c :: s)).head? = some c := by
  by_cases hq : c = ch '"' ∧ togglesString p₁ p₂ = true
  · obtain ⟨rfl, htoggles⟩ := hq
    rw [removeCommentsLoop_quote htoggles, List.head?_cons]
  · rw [removeCommentsLoop_cons (fun h => Bool.eq_false_iff.2 fun ht => hq ⟨h, ht⟩)
      (fun _ ho => hc (opensComment_cons.1 ho).1), List.head?_cons]

/-- **Outside of strings no comment is left.** -/
theorem not_opensComment_loop (p₁ p₂ : Option UInt8) {inString : Bool} (single multi : Bool)
    (s : Bytes) (hin : inString = false) :
    ¬OpensComment (removeCommentsLoop p₁ p₂ inString single multi s) := by
  fun_induction removeCommentsLoop p₁ p₂ inString single multi s with
  | case1 | case4 => decide
  | case2 p₁ p₂ inString multi c rest hc =>
      intro h
      rw [(opensComment_cons.1 h).1] at hc
      exact absurd hc (by decide)
  | case3 _ _ _ _ _ _ _ ih => exact ih hin
  | case5 _ _ _ _ _ _ _ _ _ ih => exact ih hin
  | case6 _ _ _ _ _ _ _ _ _ ih => exact ih hin
  | case7 p₁ p₂ inString single multi c rest _ _ hc =>
      intro h
      rw [(opensComment_cons.1 h).1] at hc
      exact absurd (Bool.and_eq_true .. ▸ hc).1 (by decide)
  | case8 => simp [opensComment_cons]
  | case9 _ _ _ _ _ _ _ _ _ _ _ _ ih => exact ih hin
  | case10 _ _ _ _ _ _ _ _ _ _ _ _ _ ih => exact ih hin
  | case11 p₁ p₂ inString single multi c hs hm _ d rest hline hblock =>
      -- the byte behind a slash that is passed over goes on with no comment
      intro h
      obtain ⟨rfl, hhead⟩ := opensComment_cons.1 h
      obtain rfl : single = false := Bool.eq_false_iff.2 hs
      obtain rfl : multi = false := Bool.eq_false_iff.2 hm
      subst hin
      have hslash : d ≠ ch '/' := fun hd => hline (by simp [hd])
      have hstar : d ≠ ch '*' := fun hd => hblock (by simp [hd])
      rw [head?_removeCommentsLoop hslash] at hhead
      exact hhead.elim (fun h => hslash (Option.some.inj h)) fun h => hstar (Option.some.inj h)

/-! ### The strings -/

/-- The loop takes the quotation mark `c` inside of a string for the end of one, or for a start: it
stands behind two backslashes. -/
def misreads (p₂ p₁ : Option UInt8) (c : UInt8) : Bool :=
  c == ch '"' && p₁ == some (ch '\\') && p₂ == some (ch '\\')

/-- The number of quotation marks that are misread in `w`, behind `p₂` and `p₁`, is odd. -/
def misread : Option UInt8 → Option UInt8 → Bytes → Bool
  | _, _, [] => false
  | p₂, p₁, c :: w => misreads p₂ p₁ c != misread p₁ (some c) w

/-- Nothing in `w` looks like a comment behind an odd number of misread quotation marks, if that of
those before `w` is `odd`. -/
def QuietIn : Bool → Option UInt8 → Option UInt8 → Bytes → Prop
  | _, _, _, [] => True
  | odd, p₂, p₁, c :: w =>
      (odd = true → ¬OpensComment (c :: w)) ∧ QuietIn (odd != misreads p₂ p₁ c) p₁ (some c) w

/-- No comment of a text, and nothing in its strings that looks like one, stands where the number
of misread quotation marks before it is odd on the outside, or in a string. -/
def Quiet : Bool → List Letter → Prop
  | _, [] => True
  | odd, .text _ :: m => Quiet odd m
  | odd, .literal is :: m => QuietIn odd none (some (ch '"')) (inside is) ∧
      Quiet (odd != misread none (some (ch '"')) (inside is)) m
  | odd, .comma :: m => Quiet odd m
  | odd, .line _ :: m => odd = false ∧ Quiet odd m
  | odd, .block _ :: m => odd = false ∧ Quiet odd m

/-- Behind a quotation mark the byte before it does not matter. -/
theorem misreads_start (p : Option UInt8) (c : UInt8) : misreads p (some (ch '"')) c = false := by
  have hne : (some (ch '"') == some (ch '\\')) = false := by decide
  rw [misreads, hne, Bool.and_false, Bool.false_and]

/-- What stands before a quotation mark that opens a string makes no difference. -/
theorem misread_start (p : Option UInt8) (w : Bytes) :
    misread p (some (ch '"')) w = misread none (some (ch '"')) w := by
  cases w with
  | nil => rfl
  | cons c w => rw [misread, misread, misreads_start, misreads_start]

/-- Nor to whether the string is quiet. -/
theorem quietIn_start (odd : Bool) (p : Option UInt8) (w : Bytes) :
    QuietIn odd p (some (ch '"')) w ↔ QuietIn odd none (some (ch '"')) w := by
  cases w with
  | nil => rfl
  | cons c w => rw [QuietIn, QuietIn, misreads_start, misreads_start]

/-- What is misread is a quotation mark that is taken for the end. -/
theorem togglesString_of_misreads (h : misreads p₂ p₁ c = true) :
    c = ch '"' ∧ togglesString p₁ p₂ = true := by
  rw [misreads, Bool.and_eq_true, Bool.and_eq_true, beq_iff_eq, beq_iff_eq, beq_iff_eq] at h
  obtain ⟨⟨rfl, rfl⟩, rfl⟩ := h
  exact ⟨rfl, by decide⟩

/-- A quotation mark behind a backslash that is not misread. -/
theorem togglesString_of_not_misreads (hc : c = ch '"') (hp : p₁ = some (ch '\\'))
    (h : ¬misreads p₂ p₁ c = true) : togglesString p₁ p₂ = false := by
  subst hc hp
  simpa [misreads, togglesString] using h

/-- What looks like a comment in a string starts the same way with more behind it. -/
theorem opensComment_append {w : Bytes} (hc : OpensComment (c :: (w ++ ch '"' :: s))) :
    OpensComment (c :: w) := by
  obtain ⟨rfl, hhead⟩ := opensComment_cons.1 hc
  refine opensComment_cons.2 ⟨rfl, ?_⟩
  cases w with
  | nil =>
      rw [List.nil_append, List.head?_cons] at hhead
      exact absurd hhead (by decide)
  | cons d w => exact hhead

/-- **The inside of a string and its end.**  The loop keeps them exactly if nothing in them looks
like a comment that it sees. -/
theorem removeCommentsLoop_inside {w : Bytes} (hw : Inside p₂ p₁ w) (odd : Bool) (X : Bytes) :
    ∃ q, (removeCommentsLoop p₁ p₂ (!odd) false false (w ++ ch '"' :: s) = w ++ ch '"' :: X ↔
      QuietIn odd p₂ p₁ w ∧
        removeCommentsLoop (some (ch '"')) q (odd != misread p₂ p₁ w) false false s = X) := by
  induction w generalizing p₁ p₂ odd with
  | nil =>
      have htoggles : togglesString p₁ p₂ = true := by
        rw [togglesString]
        by_cases h : p₁ = some (ch '\\')
        · rw [h, hw h]
          decide
        · rw [bne_iff_ne.2 h, Bool.true_or]
      refine ⟨p₁, ?_⟩
      rw [List.nil_append, List.nil_append, removeCommentsLoop_quote htoggles, Bool.not_not,
        List.cons_inj_right]
      simp [QuietIn, misread]
  | cons c w ih =>
      obtain ⟨hq, hw⟩ := hw
      obtain ⟨q, ih⟩ := ih hw (odd != misreads p₂ p₁ c)
      refine ⟨q, ?_⟩
      rw [misread, ← Bool.bne_assoc, QuietIn, and_assoc, ← ih, List.cons_append, List.cons_append]
      by_cases hmis : misreads p₂ p₁ c = true
      · -- the mark is taken for the other end of a string
        obtain ⟨rfl, htoggles⟩ := togglesString_of_misreads hmis
        have hopen : ¬OpensComment (ch '"' :: w) :=
          fun h => absurd (opensComment_cons.1 h).1 (by decide)
        rw [removeCommentsLoop_quote htoggles, List.cons_inj_right, hmis, Bool.bne_true]
        exact (and_iff_right fun _ => hopen).symm
      · have hno : c = ch '"' → togglesString p₁ p₂ = false := fun h =>
          togglesString_of_not_misreads h (hq h) hmis
        rw [Bool.eq_false_iff.2 hmis, Bool.bne_false]
        by_cases ho : odd = true ∧ OpensComment (c :: w)
        · -- what is left behind a comment does not look like one
          obtain ⟨rfl, hopen⟩ := ho
          have hopen' : OpensComment (c :: (w ++ ch '"' :: X)) :=
            hopen.imp (fun h => h.trans (List.prefix_append _ _)) fun h =>
              h.trans (List.prefix_append _ _)
          refine iff_of_false (fun h => ?_) fun h => h.1 rfl hopen
          exact not_opensComment_loop p₁ p₂ false false _ (Bool.not_true) (h ▸ hopen')
        · have hclear : odd = true → ¬OpensComment (c :: w) := fun h h' => ho ⟨h, h'⟩
          rw [removeCommentsLoop_cons hno fun h h' =>
            hclear (by simpa using h) (opensComment_append h'), List.cons_inj_right]
          exact (and_iff_right hclear).symm

/-! ### The text -/

/-- What is left of a text does not start with a slash. -/
theorem head?_original {m : List Letter} (hm : WellPlaced m) :
    (original m).head? ≠ some (ch '/') := by
  induction hm with
  | nil => simp [original]
  | text hc _ _ _ => exact fun h => (ne_of_isToken _ hc).2.2 (Option.some.inj h)
  | literal _ _ _ => exact fun h => absurd (Option.some.inj h) (by decide)
  | comma _ _ ih => exact ih
  | line _ _ _ => exact fun h => absurd (Option.some.inj h) (by decide)
  | block _ _ ih => exact ih

/-- The loop in front of a comment that it does not see. -/
theorem removeCommentsLoop_unseen {m : List Letter} (hm : WellPlaced m) :
    removeCommentsLoop p₁ p₂ true false false (ch '/' :: s) ≠ original m := by
  rw [removeCommentsLoop_cons (fun h => absurd h (by decide)) fun h => absurd h (by decide)]
  exact fun h => head?_original hm (h ▸ rfl)

/-- **The loop on a text with comments.** -/
theorem removeCommentsLoop_iff {m : List Letter} (hm : WellPlaced m) (hcomma : .comma ∉ m)
    (odd : Bool) (p₂ : Option UInt8) (hp : p₁ ≠ some (ch '\\')) :
    removeCommentsLoop p₁ p₂ odd false false (written m) = original m ↔ Quiet odd m := by
  induction hm generalizing odd p₁ p₂ with
  | nil => exact iff_of_true rfl trivial
  | @text c m hc _ _ ih =>
      obtain ⟨hq, hb, hslash⟩ := ne_of_isToken c hc
      rw [written, original, removeCommentsLoop_cons (fun h => absurd h hq)
        fun _ h => hslash (opensComment_cons.1 h).1, List.cons_inj_right]
      exact ih (fun h => hcomma (List.mem_cons_of_mem _ h)) odd p₁
        fun h => hb (Option.some.inj h)
  | @literal is m hv _ ih =>
      have htoggles : togglesString p₁ p₂ = true := by
        rw [togglesString, bne_iff_ne.2 hp, Bool.true_or]
      have hinside := inside_of_valid hv p₁ (some (ch '"')) fun h => absurd h (by decide)
      obtain ⟨q, hloop⟩ := removeCommentsLoop_inside (s := written m) hinside odd (original m)
      rw [written, original, quote_append, quote_append, removeCommentsLoop_quote htoggles,
        List.cons_inj_right, hloop, misread_start, quietIn_start]
      exact and_congr_right fun _ => ih (fun h => hcomma (List.mem_cons_of_mem _ h)) _ q (by decide)
  | comma => exact absurd (List.mem_cons_self ..) hcomma
  | @line body m hbody hm ih =>
      cases odd with
      | false =>
          obtain ⟨q, hloop⟩ := removeCommentsLoop_line p₁ p₂ (s := written m) hbody
          rw [written, written, original, original, hloop, List.cons_inj_right, Quiet, Quiet]
          have hm' : .comma ∉ m := fun h => hcomma (by simp [h])
          exact (ih hm' false q (by decide)).trans (and_iff_right rfl).symm
      | true =>
          refine iff_of_false (removeCommentsLoop_unseen ?_) fun h => absurd h.1 (by decide)
          exact .line hbody hm
  | @block body m hbody hm ih =>
      cases odd with
      | false =>
          rw [written, original, removeCommentsLoop_block hbody, Quiet]
          have hm' : .comma ∉ m := fun h => hcomma (List.mem_cons_of_mem _ h)
          exact (ih hm' false _ (by decide)).trans (and_iff_right rfl).symm
      | true =>
          refine iff_of_false (removeCommentsLoop_unseen ?_) fun h => absurd h.1 (by decide)
          exact .block hbody hm

/-- What it does to a JSON text as it is. -/
theorem removeComments_jsonText {s : Bytes} (hs : JsonText s) :
    ∃ m, Spelled m s ∧ (removeComments s = s ↔ Quiet false m) := by
  obtain ⟨m, hspelled, hm⟩ := hs.exists_lettered
  have hcomma : .comma ∉ m := fun h => absurd (hspelled.2 _ h) (by decide)
  have hloop : removeComments (written m) = original m ↔ Quiet false m :=
    removeCommentsLoop_iff (wellPlaced_of_isText hm) hcomma false none (by decide)
  rw [hspelled.1, hspelled.original_eq] at hloop
  exact ⟨m, hspelled, hloop⟩

/-- **`removeComments` takes the comments out of a text, and nothing else, exactly if the text is
`Quiet`.** -/
theorem removeComments_iff {m : List Letter} (hm : IsText lettered m ()) (hcomma : .comma ∉ m) :
    JsonText (original m) ∧ (removeComments (written m) = original m ↔ Quiet false m) :=
  ⟨.of_lettered hm, removeCommentsLoop_iff (wellPlaced_of_isText hm) hcomma false none (by decide)⟩

/-- `[//x` and `]`, on two lines. -/
def twoLines : List Letter :=
  [.text (ch '['), .line (ascii "x"), .text (ch '\n'), .text (ch ']')]

/-- `removeComments_iff` at an array with a comment in it. -/
theorem removeComments_iff_twoLines :
    JsonText (original twoLines) ∧
      (removeComments (written twoLines) = original twoLines ↔ Quiet false twoLines) :=
  removeComments_iff
    ⟨_, [], .nil _, .emptyArray (.line (by decide +kernel) (.nil _)), .nil []⟩ (by simp [twoLines])

/-- In `["\\\""/**/]` the comment stays. -/
theorem removeComments_kept : ¬∀ m : List Letter, IsText lettered m () → .comma ∉ m →
    removeComments (written m) = original m := by
  intro h
  have hescape : ∀ e ∈ [ch '\\', ch '"'], (Rfc8259.escape e).isSome = true := by
    decide +kernel
  have hv : ∀ i ∈ [ch '\\', ch '"'].map Item.escaped, i.Valid := List.forall_mem_map.2 hescape
  have hm : IsText lettered [.text (ch '['), .literal [.escaped (ch '\\'), .escaped (ch '"')],
      .block [], .text (ch ']')] () :=
    ⟨_, [], .nil _, .array (.lastElement (.nil _) (.string (k := ()) ⟨_, hv, rfl⟩)
      (.block (by decide) (.nil _)) (Or.inl rfl)), .nil []⟩
  have hquiet := (removeComments_iff hm (by simp)).2.1 (h _ hm (by simp))
  exact absurd hquiet.2.1 (by decide)

end Json
end BreUtils
