/-
# The parser moves forward and stays inside of the text

A call that starts inside of the text reads inside of the text or at its end, and if it
returns, it has moved on and is inside of the text still (`Keeps`, `Forward`).  So each
round of a loop and each level of the recursion has less text in front of it than the one
before, and the bounds on their number are never met: the strict parser comes to an end
on every text (`parse_progress`).

What is read without a bounds check comes behind a check that reaches farther, or behind
`skipWhitespace`, which stops at the terminating `\0` at the latest; and to go on from there
takes a character that is no `\0`.  The step back at the end of `ParseUnicode` comes behind
five steps forward at least.
-/

import BreUtils.Json.WatchedParser

namespace BreUtils
namespace Json
namespace Progress

open Lib Cpp

variable {D : Type} (rt : Runtime D) (input : Bytes)

/-- A read is made inside of the text or at its end, and a call that returns has moved on. -/
def Event.Within (n : ℕ) : Event → Prop
  | .read position => position ≤ n
  | .returned before after => before < after

/-- The call keeps to the text and comes to an end, and if it returns, `Q` holds of the result. -/
abbrev Keeps {α : Type} (m : Watched α) (Q : α → Prop) : Prop :=
  Logged.Meets (Event.Within input.length) (· ≠ .outOfFuel) m Q

/-- The call has moved on from `position`, and is inside of the text still. -/
def Forward {α : Type} (position : ℕ) (r : α × ℕ) : Prop := position < r.2 ∧ r.2 ≤ input.length

variable {α : Type} {input} {position : ℕ}

/-- No access to a character runs out of fuel, -/
theorem charAt_ne_outOfFuel {i : ℕ} {e : Exn} (h : Cpp.charAt input i = .error e) :
    e ≠ .outOfFuel := by
  unfold Cpp.charAt at h
  split_ifs at h
  obtain rfl := Except.error.inj h
  simp

/-- and no `substr`, -/
theorem substr_ne_outOfFuel {pos count : ℕ} {e : Exn} (h : Cpp.substr input pos count = .error e) :
    e ≠ .outOfFuel := by
  unfold Cpp.substr at h
  split_ifs at h
  obtain rfl := Except.error.inj h
  simp

/-- The part that has thrown. -/
theorem bind_eq_error {β : Type} {x : Except Exn α} {f : α → Except Exn β} {e : Exn}
    (h : (x >>= f) = .error e) : x = .error e ∨ ∃ a, x = .ok a ∧ f a = .error e := by
  cases x with
  | ok a => exact Or.inr ⟨a, rfl, h⟩
  | error e' => exact Or.inl (congrArg Except.error (Except.error.inj h))

/-- and no exception of the parser says so. -/
theorem throwException_ne_outOfFuel (message : Bytes) :
    Json.throwException input position message ≠ .outOfFuel := by
  unfold Json.throwException
  simp only
  split
  · simp
  · rename_i e hbuilt
    rcases bind_eq_error hbuilt with hc | ⟨c, -, hbuilt⟩
    · exact charAt_ne_outOfFuel hc
    rcases bind_eq_error hbuilt with hbefore | ⟨before, -, hbuilt⟩
    · exact substr_ne_outOfFuel hbefore
    rcases bind_eq_error hbuilt with hafter | ⟨after, -, hbuilt⟩
    · exact substr_ne_outOfFuel hafter
    · cases hbuilt

/-- Only the terminating `\0` is read at the end. -/
theorem getElem?_of_charAt {i : ℕ} {c : UInt8} (h : Cpp.charAt input i = .ok c) (hc : c ≠ 0) :
    input[i]? = some c := by
  unfold Cpp.charAt at h
  split_ifs at h with hlt
  · rw [List.getD_eq_getElem?_getD, List.getElem?_eq_getElem hlt, Option.getD_some] at h
    rw [List.getElem?_eq_getElem hlt, Except.ok.inj h]
  · exact absurd (Except.ok.inj h).symm hc

/-- A character that is not the NUL at the end is inside. -/
theorem lt_of_charAt {i : ℕ} {c : UInt8} (h : Cpp.charAt input i = .ok c) (hc : c ≠ 0) :
    i < input.length := (List.getElem?_eq_some_iff.1 (getElem?_of_charAt h hc)).1

theorem keeps_throwException (hp : position ≤ input.length) (message : Bytes) (Q : α → Prop) :
    Keeps input (throwException input position message) Q :=
  .note_bind hp (.raise (throwException_ne_outOfFuel message))

theorem keeps_throw_bind (hp : position ≤ input.length) (message : Bytes)
    (k : PUnit → Watched α) (Q : α → Prop) :
    Keeps input (throwException input position message >>= k) Q :=
  (keeps_throwException hp message fun _ => False).bind fun _ h => h.elim

theorem keeps_charAt (hp : position ≤ input.length) (i : ℕ) :
    Keeps input (charAt input position i) fun c => Cpp.charAt input i = .ok c :=
  .note_bind hp (.lift (fun _ => charAt_ne_outOfFuel) fun _ hc => hc)

theorem keeps_substr (hp : position ≤ input.length) (pos count : ℕ) :
    Keeps input (substr input position pos count) fun s => Cpp.substr input pos count = .ok s :=
  .note_bind hp (.lift (fun _ => substr_ne_outOfFuel) fun _ hs => hs)

/-- A look ahead. -/
theorem keeps_peek (position : ℕ) :
    Keeps input (peek input position) fun c => c = input[position]? := by
  unfold peek
  split_ifs with hp
  · exact .note_bind hp.le (.pure rfl)
  · exact .pure rfl

theorem keeps_asString (v : Value D) :
    Keeps input (liftM v.asString : Watched Bytes) fun _ => True := by
  refine .lift (fun e he => ?_) fun _ _ => trivial
  cases v with
  | string s => cases he
  | null | bool | int | double | array | object =>
      obtain rfl := Except.error.inj he
      simp

theorem keeps_returning {call : Watched (α × ℕ)} (h : Keeps input call (Forward input position)) :
    Keeps input (returning position call) (Forward input position) :=
  h.bind fun _ hr => .note_bind hr.1 (.pure hr)

/-- A loop that skips characters. -/
theorem keeps_readWhile (f : UInt8 → Bool) {fuel : ℕ} (hp : position ≤ input.length)
    (hfuel : input.length - position < fuel) :
    Keeps input (readWhile input f fuel position) fun q => position ≤ q ∧ q ≤ input.length ∧
      (input[position]?.any f = true → position < q) := by
  induction fuel generalizing position with
  | zero => omega
  | succ fuel ih =>
      refine (keeps_peek position).bind fun c hc => .ite (fun hf => ?_) fun hf => ?_
      · obtain ⟨d, hd, -⟩ := (Option.any_eq_true f c).1 hf
        have hlt : position < input.length := (List.getElem?_eq_some_iff.1 (hc.symm.trans hd)).1
        exact (ih hlt (by omega)).mono fun q hq => ⟨by omega, hq.2.1, fun _ => hq.1⟩
      · exact .pure ⟨le_rfl, hp, fun hany => absurd (hc ▸ hany) hf⟩

/-- Blanks are skipped forwards. -/
theorem keeps_skipWhitespace (hp : position ≤ input.length) :
    Keeps input (skipWhitespace input position) fun q => position ≤ q ∧ q ≤ input.length :=
  (keeps_readWhile isspace hp (by omega)).mono fun _ hq => ⟨hq.1, hq.2.1⟩

/-- So are digits, and one that is there is passed. -/
theorem keeps_skipDigits (hp : position ≤ input.length) :
    Keeps input (skipDigits input position) fun q => position ≤ q ∧ q ≤ input.length ∧
      (input[position]?.any isdigit = true → position < q) :=
  keeps_readWhile isdigit hp (by omega)

/-- What `substr` has found lies inside of the text. -/
theorem add_length_le_of_substr {s : Bytes} {count : ℕ} (hp : position ≤ input.length)
    (h : Cpp.substr input position count = .ok s) : position + s.length ≤ input.length := by
  rw [Cpp.substr, if_pos hp] at h
  rw [← Except.ok.inj h, List.length_take, List.length_drop]
  omega

/-- An expected word is passed. -/
theorem keeps_expect (hp : position ≤ input.length) (expected : Bytes) :
    Keeps input (expect input expected position) fun q =>
      q = position + expected.length ∧ q ≤ input.length := by
  refine (keeps_substr hp position expected.length).bind fun s hs => ?_
  refine .ite (fun _ => keeps_throw_bind hp _ _ _) fun heq => .pure ⟨rfl, ?_⟩
  rw [← not_not.1 heq]
  exact add_length_le_of_substr hp hs

theorem keeps_parseNull (hp : position ≤ input.length) :
    Keeps input (parseNull input position : Watched (Value D × ℕ)) (Forward input position) := by
  refine (keeps_expect hp (ascii "null")).bind fun q hq => .pure ⟨?_, hq.2⟩
  rw [hq.1]
  exact Nat.lt_add_of_pos_right (by decide)

theorem keeps_parseBool (hp : position ≤ input.length) :
    Keeps input (parseBool input position : Watched (Value D × ℕ)) (Forward input position) := by
  refine (keeps_substr hp position 4).bind fun s hs => .ite (fun htrue => ?_) fun _ => ?_
  · subst htrue
    exact .pure ⟨Nat.lt_add_of_pos_right (by decide), add_length_le_of_substr hp hs⟩
  · refine (keeps_substr hp position 5).bind fun s hs => .ite (fun hfalse => ?_) fun _ => ?_
    · subst hfalse
      exact .pure ⟨Nat.lt_add_of_pos_right (by decide), add_length_le_of_substr hp hs⟩
    · exact keeps_throwException hp _ _

/-! ### Numbers -/

/-- The first character of a number. -/
def StartsNumber (input : Bytes) (position : ℕ) : Prop :=
  ∃ c, input[position]? = some c ∧ (isdigit c = true ∨ c = ch '-')

/-- The integer part of a number is passed. -/
theorem keeps_scanInt (h : StartsNumber input position) :
    Keeps input (scanInt input position) fun q => position < q ∧ q ≤ input.length := by
  obtain ⟨c, hc, hstart⟩ := h
  have hlt : position < input.length := (List.getElem?_eq_some_iff.1 hc).1
  refine (keeps_charAt hlt.le position).bind fun d hd => .ite (fun _ => ?_) fun hsign => ?_
  · exact (keeps_skipDigits hlt).mono fun q hq => ⟨hq.1, hq.2.1⟩
  · have hdigit : isdigit c = true := by
      refine hstart.resolve_right fun hminus => hsign ?_
      rw [Cpp.charAt, if_pos hlt, List.getD_eq_getElem?_getD, hc] at hd
      exact (Except.ok.inj hd).symm.trans hminus
    exact (keeps_skipDigits hlt.le).mono fun q hq => ⟨hq.2.2 (by rw [hc]; exact hdigit), hq.2.1⟩

/-- A fraction may be missing. -/
theorem keeps_scanFrac (hp : position ≤ input.length) :
    Keeps input (scanFrac input position) fun q => position ≤ q ∧ q ≤ input.length := by
  refine (keeps_peek position).bind fun c hc => .ite (fun hpoint => ?_) fun _ => ?_
  · have hlt := (List.getElem?_eq_some_iff.1 (hc.symm.trans hpoint)).1
    exact (keeps_skipDigits hlt).mono fun q hq => ⟨Nat.le_of_succ_le hq.1, hq.2.1⟩
  · exact .pure ⟨le_rfl, hp⟩

/-- So may an exponent. -/
theorem keeps_scanExp (hp : position ≤ input.length) :
    Keeps input (scanExp input position) fun q => position ≤ q ∧ q ≤ input.length := by
  refine (keeps_peek position).bind fun c hc => .ite (fun hexp => ?_) fun _ => ?_
  · have hlt : position < input.length := by
      rcases hexp with h | h
      all_goals exact (List.getElem?_eq_some_iff.1 (hc.symm.trans h)).1
    refine (keeps_peek (position + 1)).bind fun d hd => .ite (fun hsign => ?_) fun _ => ?_
    · have hlt' : position + 1 < input.length := by
        rcases hsign with h | h
        all_goals exact (List.getElem?_eq_some_iff.1 (hd.symm.trans h)).1
      exact (keeps_skipDigits hlt').mono fun q hq => ⟨by omega, hq.2.1⟩
    · exact (keeps_skipDigits hlt).mono fun q hq => ⟨by omega, hq.2.1⟩
  · exact .pure ⟨le_rfl, hp⟩

theorem keeps_catchStod (hp : position ≤ input.length) (numberStr message : Bytes) :
    Keeps input (catchStod rt input numberStr position message) fun _ => True := by
  unfold catchStod stod
  by_cases hnumber : hasNumber numberStr
  · rw [if_pos hnumber]
    cases rt.strtod numberStr with
    | some d => exact .pure trivial
    | none => exact .ite (fun _ => .pure trivial) fun _ => .pure trivial
  · rw [if_neg hnumber]
    exact keeps_throwException hp message _

theorem keeps_parseNumber (h : StartsNumber input position) :
    Keeps input (parseNumber rt input position) (Forward input position) := by
  refine (keeps_scanInt h).bind fun afterInt hint => ?_
  refine (keeps_scanFrac hint.2).bind fun afterFrac hfrac => ?_
  refine (keeps_scanExp hfrac.2).bind fun after hexp => ?_
  have hforward : position < after ∧ after ≤ input.length := ⟨by omega, hexp.2⟩
  refine (keeps_substr hexp.2 _ _).bind fun numberStr _ => .ite (fun _ => ?_) fun _ => ?_
  · exact (keeps_catchStod rt hexp.2 numberStr _).bind fun _ _ => .pure hforward
  · cases fromCharsInt numberStr with
    | some value => exact .pure hforward
    | none => exact (keeps_catchStod rt hexp.2 numberStr _).bind fun _ _ => .pure hforward

theorem keeps_parseDefault (hp : position ≤ input.length) :
    Keeps input (parseDefault rt input position) (Forward input position) := by
  refine (keeps_charAt hp position).bind fun c hc => ?_
  refine .ite (fun _ => keeps_throw_bind hp _ _ _) fun hstart => ?_
  have hnumber : isdigit c = true ∨ c = ch '-' := by
    rw [not_not, Bool.or_eq_true, beq_iff_eq] at hstart
    exact hstart
  have hzero : c ≠ 0 := by
    rcases hnumber with h | rfl
    · rintro rfl
      exact absurd h (by decide)
    · decide
  exact keeps_parseNumber rt ⟨c, getElem?_of_charAt hc hzero, hnumber⟩

/-! ### Strings -/

/-- Six characters forward, and there is one behind them. -/
theorem keeps_parseSurrogate (hp : position ≤ input.length) (codePoint : UInt32) :
    Keeps input (parseSurrogate rt input codePoint position) fun r =>
      r.2 = position + 6 ∧ r.2 < input.length := by
  refine .ite (fun _ => keeps_throw_bind hp _ _ _) fun hend => ?_
  refine (keeps_charAt hp position).bind fun c _ => ?_
  refine .ite (fun _ => keeps_throw_bind hp _ _ _) fun _ => ?_
  refine (keeps_charAt hp (position + 1)).bind fun c _ => ?_
  refine .ite (fun _ => keeps_throw_bind hp _ _ _) fun _ => ?_
  refine (keeps_substr (by omega) (position + 2) 4).bind fun lowHexStr _ => ?_
  refine .ite (fun _ => keeps_throw_bind (by omega) _ _ _) fun _ => ?_
  exact .pure ⟨rfl, by omega⟩

/-- Five characters forward, or eleven, and one back. -/
theorem keeps_parseUnicode (hp : position < input.length) :
    Keeps input (parseUnicode rt input position) fun r =>
      position ≤ r.2 ∧ r.2 < input.length := by
  refine .ite (fun _ => keeps_throw_bind hp _ _ _) fun hend => ?_
  refine (keeps_substr hp (position + 1 + 1) 4).bind fun hexStr _ => ?_
  have hfive : position < position + 1 + 4 ∧ position + 1 + 4 < input.length := by omega
  -- a character lies behind the cursor wherever the code point ends
  refine .ite (fun _ => ?_) fun _ => ?_
  · refine (keeps_parseSurrogate rt hfive.2.le _).bind fun r hq => ?_
    obtain ⟨codePoint, q⟩ := r
    simp only at hq ⊢
    cases utf8 codePoint with
    | some bytes => exact .pure ⟨by simp only; omega, by simp only; omega⟩
    | none => exact keeps_throwException hq.2.le _ _
  · refine Logged.Meets.bind (Q := fun r => r.2 = position + 1 + 4) (.pure rfl) fun r hq => ?_
    obtain ⟨codePoint, q⟩ := r
    simp only at hq ⊢
    cases utf8 codePoint with
    | some bytes => exact .pure ⟨by simp only; omega, by simp only; omega⟩
    | none => exact keeps_throwException (by omega) _ _

/-- An escape does not reach the end of the text. -/
theorem keeps_parseEscape (hp : position < input.length) (c : UInt8) :
    Keeps input (parseEscape rt input c position) fun r =>
      position ≤ r.2 ∧ r.2 < input.length := by
  have hone (bytes : Bytes) : Keeps input (pure (bytes, position)) fun r : Bytes × ℕ =>
      position ≤ r.2 ∧ r.2 < input.length := .pure ⟨le_rfl, hp⟩
  unfold parseEscape
  refine .ite (fun _ => hone _) fun _ => .ite (fun _ => hone _) fun _ => .ite (fun _ => hone _)
    fun _ => .ite (fun _ => hone _) fun _ => .ite (fun _ => hone _) fun _ =>
    .ite (fun _ => hone _) fun _ => .ite (fun _ => hone _) fun _ => .ite (fun _ => hone _)
    fun _ => .ite (fun _ => ?_) fun _ => ?_
  · exact keeps_parseUnicode rt hp
  · exact keeps_throwException hp.le _ _

/-- With fuel for every character that is left, the loop over a string comes to its end. -/
theorem keeps_parseStringLoop {fuel : ℕ} (hp : position ≤ input.length)
    (hfuel : input.length - position < fuel) :
    Keeps input (parseStringLoop rt input fuel position) fun r =>
      position ≤ r.2 ∧ r.2 ≤ input.length := by
  induction fuel generalizing position with
  | zero => omega
  | succ fuel ih =>
      -- one round, from where the next one starts
      have hround (q : ℕ) (bytes : Bytes → Bytes) (hq : position ≤ q ∧ q < input.length) :
          Keeps input (parseStringLoop rt input fuel (q + 1) >>= fun r => pure (bytes r.1, r.2))
            fun r => position ≤ r.2 ∧ r.2 ≤ input.length :=
        (ih hq.2 (by omega)).bind fun r hr => .pure ⟨by simp only; omega, hr.2⟩
      refine (keeps_peek position).bind fun c hc => ?_
      cases c with
      | none => exact .pure ⟨le_rfl, hp⟩
      | some c =>
          have hlt : position < input.length := (List.getElem?_eq_some_iff.1 hc.symm).1
          refine .ite (fun _ => .pure ⟨le_rfl, hp⟩) fun _ => .ite (fun _ => ?_) fun _ => ?_
          · refine (keeps_peek (position + 1)).bind fun d hd => ?_
            cases d with
            | none => exact keeps_throwException hlt _ _
            | some d =>
                have hlt' := (List.getElem?_eq_some_iff.1 hd.symm).1
                refine (keeps_parseEscape rt hlt' d).bind fun r hr => ?_
                exact hround r.2 _ ⟨by omega, hr.2⟩
          · exact hround position _ ⟨le_rfl, hlt⟩

theorem keeps_parseString (hp : position ≤ input.length) :
    Keeps input (parseString rt input position) (Forward input position) := by
  refine keeps_returning ((keeps_expect hp [ch '"']).bind fun q hq => ?_)
  refine (keeps_parseStringLoop rt hq.2 (by omega)).bind fun r hr => ?_
  refine (keeps_expect hr.2 [ch '"']).bind fun after hafter => .pure ⟨?_, hafter.2⟩
  have hstep : [ch '"'].length = 1 := rfl
  simp only
  omega

/-! ### Arrays and objects -/

/-- Behind an element or a member: a comma and the next one, or the end of the container. -/
theorem keeps_separator (hp : position ≤ input.length) {close : UInt8} (hclose : close ≠ 0)
    {x : α} {loop : ℕ → Watched (α × ℕ)} (message : Bytes)
    (hloop : ∀ q, position < q → q ≤ input.length → Keeps input (loop q) (Forward input q)) :
    Keeps input (do
      let position ← skipWhitespace input position
      let c ← charAt input position position
      if c = ch ',' then
        let position ← skipWhitespace input (position + 1)
        loop position
      else if c = close then return (x, position + 1)
      else throwException input position message) (Forward input position) := by
  refine (keeps_skipWhitespace hp).bind fun q hq => ?_
  refine (keeps_charAt hq.2 q).bind fun c hc => .ite (fun hcomma => ?_) fun _ => ?_
  · have hlt := lt_of_charAt hc (by rw [hcomma]; decide)
    refine (keeps_skipWhitespace hlt).bind fun q' hq' => ?_
    exact (hloop q' (by omega) hq'.2).mono fun r hr => ⟨by have := hr.1; omega, hr.2⟩
  · refine .ite (fun hend => ?_) fun _ => keeps_throwException hq.2 _ _
    have hlt := lt_of_charAt hc (by rwa [hend])
    exact .pure ⟨Nat.lt_succ_of_le hq.1, hlt⟩

/-- From the opening character on: the end of the container, or its first element or member. -/
theorem keeps_container {β : Type} (hp : position ≤ input.length) {opening close : UInt8}
    (hclose : close ≠ 0) {x : β} {f : α → β} {loop : ℕ → Watched (α × ℕ)}
    (hloop : ∀ q, position < q → q ≤ input.length → Keeps input (loop q) (Forward input q)) :
    Keeps input (returning position do
      let position ← expect input [opening] position
      let position ← skipWhitespace input position
      if (← charAt input position position) = close then return (x, position + 1)
      else
        let r ← loop position
        return (f r.1, r.2)) (Forward input position) := by
  refine keeps_returning ((keeps_expect hp [opening]).bind fun q hq => ?_)
  have hopening : q = position + 1 := hq.1
  refine (keeps_skipWhitespace hq.2).bind fun q' hq' => ?_
  refine (keeps_charAt hq'.2 q').bind fun c hc => .ite (fun hend => ?_) fun _ => ?_
  · have hlt := lt_of_charAt hc (by rwa [hend])
    exact .pure ⟨by simp only; omega, hlt⟩
  · refine (hloop q' (by omega) hq'.2).bind fun r hr => .pure ⟨?_, hr.2⟩
    have hforward := hr.1
    simp only
    omega

section Containers

variable {next : ℕ → Watched (Value D × ℕ)} {start : ℕ}
  (hnext : ∀ position, start < position → position ≤ input.length →
    Keeps input (next position) (Forward input position))

include hnext

/-- The loop of `parseArray` behind `start`. -/
theorem keeps_parseArrayLoop {fuel : ℕ} (hstart : start < position)
    (hp : position ≤ input.length) (hfuel : input.length - position < fuel)
    (arrayValue : List (Value D)) :
    Keeps input (parseArrayLoop input next fuel arrayValue position)
      (Forward input position) := by
  induction fuel generalizing position arrayValue with
  | zero => omega
  | succ fuel ih =>
      refine (hnext position hstart hp).bind fun r hr => ?_
      obtain ⟨hforward, hwithin⟩ := hr
      have hrest := keeps_separator (x := arrayValue ++ [r.1]) hwithin
        (show ch ']' ≠ 0 by decide) (ascii "Expected ',' or ']'")
        fun q hlt hq => ih (by omega) hq (by omega) (arrayValue ++ [r.1])
      exact hrest.mono fun r hr => ⟨Nat.lt_trans hforward hr.1, hr.2⟩

theorem keeps_parseArray (hstart : start ≤ position) (hp : position ≤ input.length) :
    Keeps input (parseArray input next position) (Forward input position) :=
  keeps_container hp (show ch ']' ≠ 0 by decide) fun _ hlt hq =>
    keeps_parseArrayLoop hnext (Nat.lt_of_le_of_lt hstart hlt) hq (by omega) []

/-- The loop of `parseObject` behind `start`. -/
theorem keeps_parseObjectLoop {fuel : ℕ} (hstart : start < position)
    (hp : position ≤ input.length) (hfuel : input.length - position < fuel)
    (objectValue : List (Bytes × Value D)) :
    Keeps input (parseObjectLoop rt input next fuel objectValue position)
      (Forward input position) := by
  induction fuel generalizing position objectValue with
  | zero => omega
  | succ fuel ih =>
      refine (keeps_charAt hp position).bind fun c _ => ?_
      refine .ite (fun _ => keeps_throw_bind hp _ _ _) fun _ => ?_
      refine (keeps_parseString rt hp).bind fun keyValue hkey => ?_
      obtain ⟨hforward, hwithin⟩ := hkey
      refine (keeps_asString keyValue.1).bind fun key _ => ?_
      refine (keeps_skipWhitespace hwithin).bind fun q hq => ?_
      refine (keeps_expect hq.2 [ch ':']).bind fun q' hq' => ?_
      refine (hnext q' (by omega) hq'.2).bind fun r hr => ?_
      obtain ⟨hforward', hwithin'⟩ := hr
      have hrest := keeps_separator (x := AssocMap.assign objectValue key r.1) hwithin'
        (show ch '}' ≠ 0 by decide) (ascii "Expected ',' or '\x7d'")
        fun q hlt hq => ih (by omega) hq (by omega) (AssocMap.assign objectValue key r.1)
      exact hrest.mono fun r hr => ⟨by have := hr.1; omega, hr.2⟩

theorem keeps_parseObject (hstart : start ≤ position) (hp : position ≤ input.length) :
    Keeps input (parseObject rt input next position) (Forward input position) :=
  keeps_container hp (show ch '}' ≠ 0 by decide) fun _ hlt hq =>
    keeps_parseObjectLoop rt hnext (Nat.lt_of_le_of_lt hstart hlt) hq (by omega) []

end Containers

/-! ### The parser -/

/-- **A call of `parseValue` reads inside of the text, comes to an end, and moves on if it
returns.** -/
theorem keeps_parseValue {fuel : ℕ} (hp : position ≤ input.length)
    (hfuel : input.length - position < fuel) :
    Keeps input (parseValue rt input fuel position) (Forward input position) := by
  induction fuel generalizing position with
  | zero => omega
  | succ fuel ih =>
      have hnext (q : ℕ) (hlt : position < q) (hq : q ≤ input.length) :
          Keeps input (parseValue rt input fuel q) (Forward input q) := ih hq (by omega)
      refine keeps_returning ((keeps_skipWhitespace hp).bind fun q hq => ?_)
      have hmono (m : Watched (Value D × ℕ)) (h : Keeps input m (Forward input q)) :
          Keeps input m (Forward input position) :=
        h.mono fun r hr => ⟨Nat.lt_of_le_of_lt hq.1 hr.1, hr.2⟩
      refine (keeps_peek q).bind fun c _ => ?_
      cases c with
      | none => exact keeps_throwException hq.2 _ _
      | some c =>
          refine .ite (fun _ => hmono _ (keeps_parseNull hq.2)) fun _ => ?_
          refine .ite (fun _ => hmono _ (keeps_parseBool hq.2)) fun _ => ?_
          refine .ite (fun _ => hmono _ (keeps_parseString rt hq.2)) fun _ => ?_
          refine .ite (fun _ => hmono _ (keeps_parseArray hnext hq.1 hq.2)) fun _ => ?_
          refine .ite (fun _ => hmono _ (keeps_parseObject rt hnext hq.1 hq.2)) fun _ => ?_
          exact hmono _ (keeps_parseDefault rt hq.2)

/-- `Parser parser(str); return parser.parseValue();` in strict mode, with the log. -/
def watchedRun (str : Bytes) : Watched (Value D × ℕ) := parseValue rt str (str.length + 1) 0

/-- **On every text the strict parser comes to an end, reads inside of the text or at its end, and
moves on in each call that returns.** -/
theorem parse_progress (rt : Runtime D) (str : Bytes) :
    (watchedRun rt str).result.map Prod.fst = Json.parse rt str true ∧
      Json.parse rt str true ≠ .error .outOfFuel ∧
      (∀ position, .read position ∈ (watchedRun rt str).log → position ≤ str.length) ∧
      ∀ before after, .returned before after ∈ (watchedRun rt str).log → before < after := by
  have hkeeps : Keeps str (watchedRun rt str) (Forward str 0) :=
    keeps_parseValue rt (Nat.zero_le str.length) (by omega)
  have hresult : (watchedRun rt str).result.map Prod.fst = Json.parse rt str true := by
    change _ = runParser rt str
    unfold watchedRun runParser
    rw [result_parseValue]
    cases Json.parseValue rt str (str.length + 1) 0 with
    | ok r => rfl
    | error e => rfl
  refine ⟨hresult, fun hfuel => ?_, fun _ h => hkeeps.noted _ h, fun _ _ h => hkeeps.noted _ h⟩
  rw [← hresult] at hfuel
  cases hrun : (watchedRun rt str).result with
  | ok r =>
      rw [hrun] at hfuel
      cases hfuel
  | error e =>
      rw [hrun] at hfuel
      exact hkeeps.thrown e hrun (Except.error.inj hfuel)

/-- The calls of a run that return, the inner one first. -/
example : ((watchedRun Runtime.exact (ascii "[ \"\\u0041\"]")).log.filter fun
    | .read _ => false
    | .returned _ _ => true) =
      [.returned 2 10, .returned 2 10, .returned 0 11, .returned 0 11] := by rfl

end Progress
end Json
end BreUtils
