/-
# What `removeTailComma` does to a text with trailing commas

The scanner takes a quotation mark behind a backslash for one inside of a string.
So it misses the end of a string that ends in `\\`, and until it misses another
one it has inside and outside of the strings exchanged.  Whether it is in a
container it tells from the last square bracket and the last curly one that it
has seen, so behind `[[1]` it is in none.  `Removed` says that it removes every
inserted comma all the same, and no comma of a string: the result depends on that
alone (`removeTailComma_iff`).
-/

import BreUtils.Json.Completeness
import BreUtils.Lib.Letters

namespace BreUtils
namespace Json

open Lib Cpp Letter
open Rfc8259 (Item isWs)

/-! ### The brackets that the loop has seen -/

/-- The last one of these brackets among the bytes is the opening one. -/
def lastOpens (opening closing : UInt8) (seen : Bytes) : Bool :=
  seen.foldl (fun b c => if c == opening then true else if c == closing then false else b) false

/-- Among the bytes the last square bracket or the last curly bracket is an opening one. -/
def Opened (seen : Bytes) : Prop :=
  lastOpens (ch '[') (ch ']') seen = true ∨ lastOpens (ch '{') (ch '}') seen = true

instance (seen : Bytes) : Decidable (Opened seen) := inferInstanceAs (Decidable (_ ∨ _))

/-- The last character decides if it opens or closes. -/
theorem lastOpens_append (o e : UInt8) (seen : Bytes) (c : UInt8) :
    lastOpens o e (seen ++ [c]) =
      if c == o then true else if c == e then false else lastOpens o e seen := by
  rw [lastOpens, List.foldl_append]
  rfl

/-- A byte that is no bracket changes nothing. -/
theorem lastOpens_append_of_ne {o e c : UInt8} (ho : c ≠ o) (he : c ≠ e) (seen : Bytes) :
    lastOpens o e (seen ++ [c]) = lastOpens o e seen := by
  rw [lastOpens_append, if_neg (by simpa using ho), if_neg (by simpa using he)]

/-! ### The loop, step by step -/

/-- The loop where it has seen the bytes `seen`. -/
def loopAt (prev : Option UInt8) (inString : Bool) (seen s : Bytes) : Bytes :=
  removeTailCommaLoop prev inString (lastOpens (ch '[') (ch ']') seen)
    (lastOpens (ch '{') (ch '}') seen) s

variable {prev : Option UInt8} {seen : Bytes} {c : UInt8} {s : Bytes}

/-- The loop at a byte that it takes for one inside of a string. -/
theorem loopAt_inside {inString : Bool}
    (hc : (if c == ch '"' && prev != some (ch '\\') then !inString else inString) = true) :
    loopAt prev inString seen (c :: s) = c :: loopAt (some c) true seen s := by
  rw [loopAt, removeTailCommaLoop, hc]
  rfl

/-- The loop at a byte that it takes for one outside of the strings. -/
theorem loopAt_outside {inString : Bool}
    (hc : (if c == ch '"' && prev != some (ch '\\') then !inString else inString) = false) :
    loopAt prev inString seen (c :: s) =
      if c = ch ',' ∧ Opened seen ∧ closesNext s = true then
        loopAt (some c) false (seen ++ [c]) s
      else c :: loopAt (some c) false (seen ++ [c]) s := by
  have hdrop : ((lastOpens (ch '[') (ch ']') (seen ++ [c]) ||
      lastOpens (ch '{') (ch '}') (seen ++ [c])) && c == ch ',' && closesNext s) = true ↔
      c = ch ',' ∧ Opened seen ∧ closesNext s = true := by
    rw [Bool.and_eq_true, Bool.and_eq_true, Bool.or_eq_true, beq_iff_eq, and_assoc, and_left_comm]
    refine and_congr_right fun hcomma => ?_
    rw [hcomma, lastOpens_append_of_ne (by decide) (by decide),
      lastOpens_append_of_ne (by decide) (by decide), Opened]
  rw [loopAt, removeTailCommaLoop, hc]
  simp only [Bool.not_false, if_true, ← lastOpens_append, hdrop, loopAt]

/-- Inside of a string, as the loop sees it. -/
theorem loopAt_hidden (hc : c = ch '"' → prev = some (ch '\\')) :
    loopAt prev true seen (c :: s) = c :: loopAt (some c) true seen s := by
  refine loopAt_inside (if_neg ?_)
  rw [Bool.and_eq_true, beq_iff_eq, bne_iff_ne]
  exact fun h => h.2 (hc h.1)

/-- Outside of the strings, as the loop sees it. -/
theorem loopAt_visible (hc : c = ch '"' → prev = some (ch '\\')) :
    loopAt prev false seen (c :: s) =
      if c = ch ',' ∧ Opened seen ∧ closesNext s = true then
        loopAt (some c) false (seen ++ [c]) s
      else c :: loopAt (some c) false (seen ++ [c]) s := by
  refine loopAt_outside (if_neg ?_)
  rw [Bool.and_eq_true, beq_iff_eq, bne_iff_ne]
  exact fun h => h.2 (hc h.1)

/-- The bytes that are no brackets do not matter to the loop. -/
theorem loopAt_append {inString : Bool} (hc : c ∉ ascii "[]\x7b\x7d") :
    loopAt prev inString (seen ++ [c]) s = loopAt prev inString seen s := by
  have hne (d : UInt8) (hd : d ∈ ascii "[]\x7b\x7d") : c ≠ d := fun h => hc (h ▸ hd)
  rw [loopAt, loopAt, lastOpens_append_of_ne (hne _ (by decide)) (hne _ (by decide)),
    lastOpens_append_of_ne (hne _ (by decide)) (hne _ (by decide))]

/-- A quotation mark starts or ends a string, unless a backslash stands before it. -/
theorem loopAt_quote (inString : Bool) :
    loopAt prev inString seen (ch '"' :: s) =
      ch '"' :: loopAt (some (ch '"')) (inString != (prev != some (ch '\\'))) seen s := by
  have hflag : (if ch '"' == ch '"' && prev != some (ch '\\') then !inString else inString) =
      (inString != (prev != some (ch '\\'))) := by
    cases prev != some (ch '\\') <;> simp
  cases hb : inString != (prev != some (ch '\\')) with
  | true => exact loopAt_inside (hflag.trans hb)
  | false =>
      rw [loopAt_outside (hflag.trans hb), if_neg fun h => absurd h.1 (by decide),
        loopAt_append (by decide)]

/-- A byte that is no comma is kept. -/
theorem head?_loopAt {inString : Bool} (hc : c ≠ ch ',') :
    (loopAt prev inString seen (c :: s)).head? = some c := by
  cases hb : if c == ch '"' && prev != some (ch '\\') then !inString else inString with
  | true => rw [loopAt_inside hb, List.head?_cons]
  | false => rw [loopAt_outside hb, if_neg fun h => hc h.1, List.head?_cons]

/-- What starts with a closing bracket, or with spaces and one, does not start with a comma. -/
theorem exists_cons_of_closesNext (h : closesNext s = true) :
    ∃ d t, s = d :: t ∧ d ≠ ch ',' := by
  cases s with
  | nil => cases h
  | cons d t =>
      refine ⟨d, t, rfl, ?_⟩
      rintro rfl
      cases h

/-! ### The strings -/

/-- A string with these bytes ends in a `\\`, so that the loop misses its end. -/
def missesEnd (w : Bytes) : Bool := w.getLast? == some (ch '\\')

/-- No comma of a string `w` is removed, where the loop takes it for the outside: none stands
in front of a closing bracket, with an open one among the bytes `seen` before it. -/
def KeptIn : Bytes → Bytes → Prop
  | _, [] => True
  | seen, c :: w => ¬(c = ch ',' ∧ Opened seen ∧ closesNext w = true) ∧ KeptIn (seen ++ [c]) w

/-- Every inserted comma is removed, and no comma of a string: `odd` says whether the loop has
missed the ends of an odd number of strings, `seen` which bytes it has taken for the outside. -/
def Removed : Bool → Bytes → List Letter → Prop
  | _, _, [] => True
  | odd, seen, .text c :: m => Removed odd (if odd then seen else seen ++ [c]) m
  | odd, seen, .literal is :: m => (odd = true → KeptIn seen (inside is)) ∧
      Removed (odd != missesEnd (inside is)) (if odd then seen ++ inside is else seen) m
  | odd, seen, .comma :: m => (odd = false ∧ Opened seen) ∧ Removed odd seen m
  | odd, seen, .line _ :: m => Removed odd seen m
  | odd, seen, .block _ :: m => Removed odd seen m

/-- The last character before a place. -/
theorem getLast?_cons_or (c : UInt8) (w : Bytes) (p : Option UInt8) :
    (c :: w).getLast?.or p = w.getLast?.or (some c) := by
  cases w with
  | nil => rfl
  | cons d w =>
      rw [List.getLast?_cons_cons]
      cases h : (d :: w).getLast? with
      | none => simp at h
      | some e => rfl

/-- The end of a string does not close a container. -/
theorem closesNext_append_quote (w s : Bytes) : closesNext (w ++ ch '"' :: s) = closesNext w := by
  rw [closesNext, closesNext]
  induction w with
  | nil => rfl
  | cons c w ih =>
      rw [List.cons_append, List.dropWhile_cons, List.dropWhile_cons]
      cases isspace c with
      | true => exact ih
      | false => rfl

/-- A string that the loop takes for one. -/
theorem loopAt_hidden_string {w : Bytes} {p₂ : Option UInt8} (hw : Inside p₂ prev w) :
    loopAt prev true seen (w ++ ch '"' :: s) =
      w ++ ch '"' :: loopAt (some (ch '"')) (w.getLast?.or prev == some (ch '\\')) seen s := by
  induction w generalizing prev p₂ with
  | nil =>
      rw [List.nil_append, List.nil_append, loopAt_quote, List.getLast?_nil, Option.none_or]
      cases h : prev == some (ch '\\') <;> simp [bne, h]
  | cons c w ih =>
      rw [List.cons_append, List.cons_append, loopAt_hidden hw.1, ih hw.2, getLast?_cons_or]

/-- A string that the loop takes for the outside: it is kept exactly if its commas are. -/
theorem loopAt_visible_string {w : Bytes} {p₂ : Option UInt8} (hw : Inside p₂ prev w)
    (seen X : Bytes) :
    loopAt prev false seen (w ++ ch '"' :: s) = w ++ ch '"' :: X ↔
      KeptIn seen w ∧
        loopAt (some (ch '"')) (!(w.getLast?.or prev == some (ch '\\'))) (seen ++ w) s = X := by
  induction w generalizing prev p₂ seen with
  | nil =>
      rw [List.nil_append, List.nil_append, loopAt_quote, List.getLast?_nil, Option.none_or,
        List.cons_inj_right, List.append_nil, KeptIn, true_and, Bool.false_bne, bne]
  | cons c w ih =>
      have ih := ih hw.2 (seen ++ [c])
      rw [List.append_assoc, List.singleton_append] at ih
      rw [List.cons_append, List.cons_append, loopAt_visible hw.1, closesNext_append_quote,
        getLast?_cons_or, KeptIn, and_assoc, ← ih]
      by_cases hdrop : c = ch ',' ∧ Opened seen ∧ closesNext w = true
      · rw [if_pos hdrop]
        obtain ⟨rfl, -, hnext⟩ := id hdrop
        refine iff_of_false (fun h => ?_) fun h => h.1 hdrop
        -- the byte behind the comma is kept, in the place of the comma
        obtain ⟨d, t, rfl, hd⟩ := exists_cons_of_closesNext hnext
        have hhead := congrArg List.head? h
        rw [List.cons_append, head?_loopAt hd, List.head?_cons] at hhead
        exact hd (Option.some.inj hhead)
      · rw [if_neg hdrop, List.cons_inj_right, and_iff_right hdrop]

/-! ### The text -/

/-- A gap without comments is white space. -/
theorem exists_ws_of_gap {m t : List Letter} (h : LetterGap m t)
    (hm : ∀ x ∈ m, x.isComment = false) :
    ∃ w : Bytes, (∀ c ∈ w, isWs c = true) ∧ m = w.map .text ++ t := by
  induction h with
  | nil s => exact ⟨[], by simp, rfl⟩
  | @ws c s t hc _ ih =>
      obtain ⟨w, hw, rfl⟩ := ih fun x hx => hm x (List.mem_cons_of_mem _ hx)
      exact ⟨c :: w, List.forall_mem_cons.2 ⟨hc, hw⟩, rfl⟩
  | line _ _ _ => cases hm _ (List.mem_cons_self ..)
  | block _ _ _ => cases hm _ (List.mem_cons_self ..)

/-- The first byte behind white space. -/
theorem closesNext_ws {w : Bytes} (hw : ∀ c ∈ w, isWs c = true) (hc : isspace c = false) :
    closesNext (w ++ c :: s) = (c == ch ']' || c == ch '}') := by
  have hdrop : (w ++ c :: s).dropWhile isspace = c :: s :=
    dropWhile_append_of_all (fun d hd => isspace_of_isWs d (hw d hd)) (by simpa using hc)
  rw [closesNext, hdrop]
  rfl

/-- Behind an inserted comma there is a closing bracket. -/
theorem closesNext_of_closes {m : List Letter} (h : ClosesItem m)
    (hm : ∀ x ∈ m, x.isComment = false) : closesNext (written m) = true := by
  obtain ⟨c, t, hgap, hc⟩ := h
  obtain ⟨w, hw, rfl⟩ := exists_ws_of_gap hgap hm
  rw [written_text, written]
  obtain rfl | rfl := hc <;> rw [closesNext_ws hw (by decide)] <;> rfl

/-- Behind any other comma there is none. -/
theorem closesNext_of_starts {m : List Letter} (h : StartsItem m)
    (hm : ∀ x ∈ m, x.isComment = false) : closesNext (written m) = false := by
  have hvalue : ∀ c, isValueStart c = true →
      isspace c = false ∧ (c == ch ']' || c == ch '\x7d') = false := by decide +kernel
  obtain ⟨x, t, hgap, hx⟩ := h
  obtain ⟨w, hw, rfl⟩ := exists_ws_of_gap hgap hm
  rw [written_text]
  rcases hx with ⟨is, rfl⟩ | ⟨c, rfl, hc⟩
  · rw [written, quote_append, closesNext_ws hw (by decide)]
    rfl
  · rw [written, closesNext_ws hw (hvalue c hc).1, (hvalue c hc).2]

/-- What is left behind an inserted comma does not start with a comma. -/
theorem head?_original_of_closes {m : List Letter} (h : ClosesItem m)
    (hm : ∀ x ∈ m, x.isComment = false) : (original m).head? ≠ some (ch ',') := by
  obtain ⟨c, t, hgap, hc⟩ := h
  obtain ⟨w, hw, rfl⟩ := exists_ws_of_gap hgap hm
  rw [original_text, original]
  cases w with
  | nil =>
      rw [List.nil_append, List.head?_cons]
      rcases hc with rfl | rfl <;> decide
  | cons d w =>
      intro h
      obtain rfl : d = ch ',' := Option.some.inj h
      exact absurd (hw _ (List.mem_cons_self ..)) (by decide)

/-- **The loop on a text with trailing commas.** -/
theorem loopAt_iff {m : List Letter} (hm : WellPlaced m) (hcomment : ∀ x ∈ m, x.isComment = false)
    (odd : Bool) (seen : Bytes) (hp : prev ≠ some (ch '\\')) :
    loopAt prev odd seen (written m) = original m ↔ Removed odd seen m := by
  induction hm generalizing odd seen prev with
  | nil => exact iff_of_true rfl trivial
  | @text c m hc hstarts _ ih =>
      have hm := fun x hx => hcomment x (List.mem_cons_of_mem _ hx)
      obtain ⟨hq, hb, -⟩ := ne_of_isToken c hc
      have hp' : some c ≠ some (ch '\\') := fun h => hb (Option.some.inj h)
      rw [written, original, Removed]
      cases odd with
      | true =>
          rw [loopAt_hidden fun h => absurd h hq, List.cons_inj_right, if_pos rfl]
          exact ih hm true seen hp'
      | false =>
          have hkept : ¬(c = ch ',' ∧ Opened seen ∧ closesNext (written m) = true) := by
            rintro ⟨hcomma, -, hnext⟩
            rw [closesNext_of_starts (hstarts hcomma) hm] at hnext
            cases hnext
          rw [loopAt_visible fun h => absurd h hq, if_neg hkept, List.cons_inj_right,
            if_neg Bool.false_ne_true]
          exact ih hm false _ hp'
  | @literal is m hv _ ih =>
      have hm := fun x hx => hcomment x (List.mem_cons_of_mem _ hx)
      have hopen : (prev != some (ch '\\')) = true := bne_iff_ne.2 hp
      have hinside := inside_of_valid hv prev (some (ch '"')) fun h => absurd h (by decide)
      have hend : ((inside is).getLast?.or (some (ch '"')) == some (ch '\\')) =
          missesEnd (inside is) := by
        rw [missesEnd]
        cases (inside is).getLast? <;> rfl
      rw [written, original, quote_append, quote_append, loopAt_quote, hopen, List.cons_inj_right,
        Bool.bne_true, Removed]
      cases odd with
      | true =>
          rw [Bool.not_true, loopAt_visible_string hinside, hend, if_pos rfl, Bool.true_bne]
          exact and_congr (by simp) (ih hm _ _ (by decide))
      | false =>
          rw [Bool.not_false, loopAt_hidden_string hinside, hend, List.append_right_inj,
            List.cons_inj_right, if_neg Bool.false_ne_true, Bool.false_bne]
          exact (ih hm _ seen (by decide)).trans (and_iff_right (by simp)).symm
  | @comma m hcloses _ ih =>
      have hm := fun x hx => hcomment x (List.mem_cons_of_mem _ hx)
      have hhead := head?_original_of_closes hcloses hm
      have hne (X : Bytes) : ch ',' :: X ≠ original m := fun h => hhead (h ▸ rfl)
      rw [written, original, Removed]
      cases odd with
      | true =>
          rw [loopAt_hidden fun h => absurd h (by decide)]
          exact iff_of_false (hne _) fun h => absurd h.1.1 (by decide)
      | false =>
          rw [loopAt_visible fun h => absurd h (by decide), closesNext_of_closes hcloses hm]
          by_cases hopened : Opened seen
          · rw [if_pos ⟨rfl, hopened, rfl⟩, and_iff_right ⟨rfl, hopened⟩,
              loopAt_append (by decide)]
            exact ih hm false seen (by decide)
          · rw [if_neg fun h => hopened h.2.1]
            exact iff_of_false (hne _) fun h => hopened h.1.2
  | line => cases hcomment _ (List.mem_cons_self ..)
  | block => cases hcomment _ (List.mem_cons_self ..)

/-- What it does to a JSON text as it is. -/
theorem removeTailComma_jsonText {s : Bytes} (hs : JsonText s) :
    ∃ m, Spelled m s ∧ (removeTailComma s = s ↔ Removed false [] m) := by
  obtain ⟨m, hspelled, hm⟩ := hs.exists_lettered
  have hcomment : ∀ x ∈ m, x.isComment = false :=
    fun x hx => isComment_of_not_isInserted (hspelled.2 x hx)
  have hloop : removeTailComma (written m) = original m ↔ Removed false [] m :=
    loopAt_iff (wellPlaced_of_isText hm) hcomment false [] (by decide)
  rw [hspelled.1, hspelled.original_eq] at hloop
  exact ⟨m, hspelled, hloop⟩

/-- **`removeTailComma` takes the inserted commas out of a text, and nothing else, exactly if the
text is `Removed`.** -/
theorem removeTailComma_iff {m : List Letter} (hm : IsText lettered m ())
    (hcomment : ∀ x ∈ m, x.isComment = false) :
    JsonText (original m) ∧ (removeTailComma (written m) = original m ↔ Removed false [] m) :=
  ⟨.of_lettered hm, loopAt_iff (wellPlaced_of_isText hm) hcomment false [] (by decide)⟩

/-- An array of one element and one inserted comma is a text with insertions. -/
theorem isText_singleton {s s' : List Letter} (h : Derives lettered s (.value ()) s')
    (hs : s' = [.comma, .text (ch ']')]) : IsText lettered (.text (ch '[') :: s) () := by
  subst hs
  have hlast : Derives lettered s (.elements [()]) [] :=
    .lastElement (.nil _) h (.nil _) (Or.inr ⟨_, rfl, .nil _⟩)
  exact ⟨_, [], .nil _, .array hlast, .nil []⟩

/-- `[null,]`. -/
def singleton : List Letter :=
  .text (ch '[') :: ((ascii "null").map .text ++ [.comma, .text (ch ']')])

/-- `removeTailComma_iff` at `[null,]`. -/
theorem removeTailComma_iff_singleton :
    JsonText (original singleton) ∧
      (removeTailComma (written singleton) = original singleton ↔ Removed false [] singleton) :=
  removeTailComma_iff (isText_singleton (.null _) rfl) (by decide +kernel)

/-- In `[[],]` the comma stays. -/
theorem removeTailComma_kept : ¬∀ m : List Letter, IsText lettered m () →
    (∀ x ∈ m, x.isComment = false) → removeTailComma (written m) = original m := by
  intro h
  have hm : IsText lettered [.text (ch '['), .text (ch '['), .text (ch ']'), .comma,
      .text (ch ']')] () := isText_singleton (.emptyArray (.nil _)) rfl
  have hcomment : ∀ x ∈ [Letter.text (ch '['), .text (ch '['), .text (ch ']'), .comma,
      .text (ch ']')], x.isComment = false := by decide +kernel
  have hremoved := (removeTailComma_iff hm hcomment).2.1 (h _ hm hcomment)
  exact absurd hremoved.1.2 (by decide +kernel)

end Json
end BreUtils
