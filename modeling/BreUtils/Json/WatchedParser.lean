/-
# The parser under watch

The functions of `Parser.lean` once more, with a log: of `position_` at every read of
`input_`, and of `position_` before and after each call of `parseValue`, `parseString`,
`parseArray` and `parseObject` that returns.  The loops
`while (position_ < input_.size() && ..)`, which are closed expressions there, go round by
round here, and the sign of a number is read as the source reads it, without a bounds
check.  Without the log the functions are those of `Parser.lean` (`result_parseValue`).
-/

import BreUtils.Json.Parser
import BreUtils.Lib.Logged

namespace BreUtils
namespace Json
namespace Progress

open Lib Cpp
open Lib.Logged (note raise)

/-- What the log holds. -/
inductive Event where
  /-- A read of `input_`, and `position_` at the time. -/
  | read (position : ℕ)
  /-- A call that has returned, and `position_` before and after. -/
  | returned (before after : ℕ)

/-- A call, with the log. -/
abbrev Watched (α : Type) := Logged Event Exn α

variable {D : Type} (rt : Runtime D) (input : Bytes)

/-- `throwException`.  It reads `input_` while it puts the message together, and does not move. -/
def throwException {α : Type} (position : ℕ) (message : Bytes) : Watched α := do
  note (.read position)
  raise (Json.throwException input position message)

/-- `input_[i]`. -/
def charAt (position i : ℕ) : Watched UInt8 := do
  note (.read position)
  Cpp.charAt input i

/-- `input_.substr(pos, count)`. -/
def substr (position pos count : ℕ) : Watched Bytes := do
  note (.read position)
  Cpp.substr input pos count

/-- `input_[position_]` behind `position_ < input_.size()`. -/
def peek (position : ℕ) : Watched (Option UInt8) := do
  if position < input.length then
    note (.read position)
  return input[position]?

/-- The call returns, and it was made at `position`. -/
def returning {α : Type} (position : ℕ) (call : Watched (α × ℕ)) : Watched (α × ℕ) := do
  let (a, after) ← call
  note (.returned position after)
  return (a, after)

/-- `while (position_ < input_.size() && f(input_[position_])) ++position_;` -/
def readWhile (f : UInt8 → Bool) : ℕ → ℕ → Watched ℕ
  | 0, _ => raise .outOfFuel
  | fuel + 1, position => do
      let c ← peek input position
      if c.any f then readWhile f fuel (position + 1) else return position

/-- `skipWhitespace`. -/
def skipWhitespace (position : ℕ) : Watched ℕ :=
  readWhile input isspace (input.length + 1) position

/-- The digits of a number. -/
def skipDigits (position : ℕ) : Watched ℕ := readWhile input isdigit (input.length + 1) position

/-- `expect`. -/
def expect (expected : Bytes) (position : ℕ) : Watched ℕ := do
  if (← substr input position position expected.length) ≠ expected then
    throwException input position (ascii "Expected '" ++ expected ++ ascii "'")
  return position + expected.length

/-- `parseNull`. -/
def parseNull (position : ℕ) : Watched (Value D × ℕ) := do
  let position ← expect input (ascii "null") position
  return (.null, position)

/-- `parseBool`. -/
def parseBool (position : ℕ) : Watched (Value D × ℕ) := do
  if (← substr input position position 4) = ascii "true" then
    return (.bool true, position + 4)
  else if (← substr input position position 5) = ascii "false" then
    return (.bool false, position + 5)
  else throwException input position (ascii "Invalid boolean value")

/-- The integer part of a number.  The sign is read without a bounds check. -/
def scanInt (start : ℕ) : Watched ℕ := do
  if (← charAt input start start) = ch '-' then skipDigits input (start + 1)
  else skipDigits input start

/-- A fraction. -/
def scanFrac (position : ℕ) : Watched ℕ := do
  if (← peek input position) = some (ch '.') then skipDigits input (position + 1)
  else return position

/-- An exponent. -/
def scanExp (position : ℕ) : Watched ℕ := do
  let c ← peek input position
  if c = some (ch 'e') ∨ c = some (ch 'E') then
    let position := position + 1
    let c ← peek input position
    if c = some (ch '+') ∨ c = some (ch '-') then skipDigits input (position + 1)
    else skipDigits input position
  else return position

/-- `std::stod(numberStr)` with the two `catch` clauses around it. -/
def catchStod (numberStr : Bytes) (position : ℕ) (message : Bytes) : Watched (Value D) :=
  match stod rt numberStr with
  | .ok value => return .double value
  | .error .invalidArgument => throwException input position message
  | .error .outOfRange =>
      if numberStr.head? = some (ch '-') then return .double (rt.neg rt.infinity)
      else return .double rt.infinity
  | .error e => raise e

/-- `parseNumber`. -/
def parseNumber (start : ℕ) : Watched (Value D × ℕ) := do
  let afterInt ← scanInt input start
  let afterFrac ← scanFrac input afterInt
  let position ← scanExp input afterFrac
  let isDouble := afterInt ≠ afterFrac ∨ afterFrac ≠ position
  let numberStr ← substr input position start (position - start)
  if isDouble then
    let value ← catchStod rt input numberStr position (ascii "Invalid double value")
    return (value, position)
  else
    match fromCharsInt numberStr with
    | some value => return (.int value, position)
    | none =>
        let value ← catchStod rt input numberStr position (ascii "Invalid number value")
        return (value, position)

/-- `parseDefault`. -/
def parseDefault (position : ℕ) : Watched (Value D × ℕ) := do
  let c ← charAt input position position
  let ret := isdigit c || c == ch '-'
  if ¬ret then throwException input position (ascii "Unexpected character")
  parseNumber rt input position

/-- The surrogate branch of `ParseUnicode`. -/
def parseSurrogate (codePoint : UInt32) (position : ℕ) : Watched (UInt32 × ℕ) := do
  let invalid := ascii "Invalid Unicode surrogate pair"
  if position + 6 ≥ input.length then throwException input position invalid
  if (← charAt input position position) ≠ ch '\\' then throwException input position invalid
  if (← charAt input position (position + 1)) ≠ ch 'u' then throwException input position invalid
  let position := position + 2
  let lowHexStr ← substr input position position 4
  let lowCodePoint := readHex rt input lowHexStr position
  let position := position + 4
  if lowCodePoint < 0xDC00 ∨ lowCodePoint > 0xDFFF then throwException input position invalid
  return (combine codePoint lowCodePoint, position)

/-- `ParseUnicode`. -/
def parseUnicode (position : ℕ) : Watched (Bytes × ℕ) := do
  let position := position + 1
  if position + 4 ≥ input.length then
    throwException input position (ascii "Invalid Unicode escape sequence")
  let hexStr ← substr input position (position + 1) 4
  let codePoint := readHex rt input hexStr position
  let position := position + 4
  let (codePoint, position) ←
    if isHighSurrogate codePoint then parseSurrogate rt input codePoint position
    else pure (codePoint, position)
  match utf8 codePoint with
  | some bytes => return (bytes, position - 1)
  | none => throwException input position (ascii "Invalid Unicode code point")

/-- The `switch` on the character behind a backslash. -/
def parseEscape (c : UInt8) (position : ℕ) : Watched (Bytes × ℕ) :=
  if c = ch '"' then return ([ch '"'], position)
  else if c = ch '\\' then return ([ch '\\'], position)
  else if c = ch '/' then return ([ch '/'], position)
  else if c = ch 'b' then return ([0x08], position)
  else if c = ch 'f' then return ([0x0C], position)
  else if c = ch 'n' then return ([0x0A], position)
  else if c = ch 'r' then return ([0x0D], position)
  else if c = ch 't' then return ([0x09], position)
  else if c = ch 'u' then parseUnicode rt input position
  else throwException input position (ascii "Invalid escape character")

/-- The loop of `parseString`. -/
def parseStringLoop : ℕ → ℕ → Watched (Bytes × ℕ)
  | 0, _ => raise .outOfFuel
  | fuel + 1, position => do
      match ← peek input position with
      | none => return ([], position)
      | some c =>
          if c = ch '"' then return ([], position)
          else if c = ch '\\' then
            let position := position + 1
            match ← peek input position with
            | none => throwException input position (ascii "Invalid escape sequence")
            | some c =>
                let (bytes, position) ← parseEscape rt input c position
                let (result, position) ← parseStringLoop fuel (position + 1)
                return (bytes ++ result, position)
          else
            let (result, position) ← parseStringLoop fuel (position + 1)
            return (c :: result, position)

/-- `parseString`. -/
def parseString (position : ℕ) : Watched (Value D × ℕ) := returning position do
  let position ← expect input [ch '"'] position
  let (result, position) ← parseStringLoop rt input (input.length + 1) position
  let position ← expect input [ch '"'] position
  return (.string result, position)

section Containers

-- `parseValue` at the next level
variable (parseValue : ℕ → Watched (Value D × ℕ))

/-- The loop of `parseArray`. -/
def parseArrayLoop : ℕ → List (Value D) → ℕ → Watched (List (Value D) × ℕ)
  | 0, _, _ => raise .outOfFuel
  | fuel + 1, arrayValue, position => do
      let (value, position) ← parseValue position
      let arrayValue := arrayValue ++ [value]
      let position ← skipWhitespace input position
      let c ← charAt input position position
      if c = ch ',' then
        let position ← skipWhitespace input (position + 1)
        parseArrayLoop fuel arrayValue position
      else if c = ch ']' then return (arrayValue, position + 1)
      else throwException input position (ascii "Expected ',' or ']'")

/-- `parseArray`. -/
def parseArray (position : ℕ) : Watched (Value D × ℕ) := returning position do
  let position ← expect input [ch '['] position
  let position ← skipWhitespace input position
  if (← charAt input position position) = ch ']' then
    return (.array [], position + 1)
  else
    let (arrayValue, position) ← parseArrayLoop input parseValue (input.length + 1) [] position
    return (.array arrayValue, position)

/-- The loop of `parseObject`. -/
def parseObjectLoop : ℕ → List (Bytes × Value D) → ℕ → Watched (List (Bytes × Value D) × ℕ)
  | 0, _, _ => raise .outOfFuel
  | fuel + 1, objectValue, position => do
      if (← charAt input position position) ≠ ch '"' then
        throwException input position (ascii "Expected string key")
      let (keyValue, position) ← parseString rt input position
      let key ← keyValue.asString
      let position ← skipWhitespace input position
      let position ← expect input [ch ':'] position
      let (value, position) ← parseValue position
      let objectValue := AssocMap.assign objectValue key value
      let position ← skipWhitespace input position
      let c ← charAt input position position
      if c = ch ',' then
        let position ← skipWhitespace input (position + 1)
        parseObjectLoop fuel objectValue position
      else if c = ch '}' then return (objectValue, position + 1)
      else throwException input position (ascii "Expected ',' or '\x7d'")

/-- `parseObject`. -/
def parseObject (position : ℕ) : Watched (Value D × ℕ) := returning position do
  let position ← expect input [ch '{'] position
  let position ← skipWhitespace input position
  if (← charAt input position position) = ch '}' then
    return (.object [], position + 1)
  else
    let (objectValue, position) ←
      parseObjectLoop rt input parseValue (input.length + 1) [] position
    return (.object objectValue, position)

end Containers

/-- `parseValue`. -/
def parseValue : ℕ → ℕ → Watched (Value D × ℕ)
  | 0, _ => raise .outOfFuel
  | fuel + 1, start => returning start do
      let position ← skipWhitespace input start
      match ← peek input position with
      | none => throwException input position (ascii "Unexpected end of input")
      | some c =>
          if c = ch 'n' then parseNull input position
          else if c = ch 't' ∨ c = ch 'f' then parseBool input position
          else if c = ch '"' then parseString rt input position
          else if c = ch '[' then parseArray input (parseValue fuel) position
          else if c = ch '{' then parseObject rt input (parseValue fuel) position
          else parseDefault rt input position

/-! ### Without the log -/

@[simp] theorem result_throwException {α : Type} (position : ℕ) (message : Bytes) :
    (throwException input position message : Watched α).result =
      .error (Json.throwException input position message) := rfl

@[simp] theorem result_charAt (position i : ℕ) :
    (charAt input position i).result = Cpp.charAt input i := rfl

@[simp] theorem result_substr (position pos count : ℕ) :
    (substr input position pos count).result = Cpp.substr input pos count := rfl

/-- A look ahead returns the character, or nothing at the end. -/
@[simp] theorem result_peek (position : ℕ) :
    (peek input position).result = .ok input[position]? := by
  simp [peek]

/-- To note where a call returns changes nothing. -/
@[simp] theorem result_returning {α : Type} (position : ℕ) (call : Watched (α × ℕ)) :
    (returning position call).result = call.result := by
  obtain ⟨log, r⟩ := call
  cases r with
  | ok a => rfl
  | error e => rfl

/-- The loop stops where the closed expression says. -/
theorem result_readWhile (f : UInt8 → Bool) {fuel position : ℕ}
    (hfuel : input.length - position < fuel) :
    (readWhile input f fuel position).result = .ok (scanWhile f input position) := by
  induction fuel generalizing position with
  | zero => omega
  | succ fuel ih =>
      unfold readWhile scanWhile
      simp only [Logged.result_bind, result_peek, ok_bind, Logged.result_ite, Logged.result_pure]
      by_cases hp : position < input.length
      · rw [List.getElem?_eq_getElem hp, List.drop_eq_getElem_cons hp, List.takeWhile_cons]
        by_cases hf : f input[position]
        · have hnext : input.length - (position + 1) < fuel := by omega
          simp [hf, ih hnext, scanWhile]
          omega
        · simp [hf]
      · rw [List.getElem?_eq_none (by omega), List.drop_eq_nil_of_le (by omega)]
        simp

@[simp] theorem result_skipWhitespace (position : ℕ) :
    (skipWhitespace input position).result = .ok (Json.skipWhitespace input position) :=
  result_readWhile input isspace (by omega)

@[simp] theorem result_skipDigits (position : ℕ) :
    (skipDigits input position).result = .ok (scanWhile isdigit input position) :=
  result_readWhile input isdigit (by omega)

@[simp] theorem result_expect (expected : Bytes) (position : ℕ) :
    (expect input expected position).result = Json.expect input expected position := by
  simp [expect, Json.expect]

@[simp] theorem result_parseNull (position : ℕ) :
    (parseNull input position : Watched (Value D × ℕ)).result = Json.parseNull input position := by
  simp [parseNull, Json.parseNull]

@[simp] theorem result_parseBool (position : ℕ) :
    (parseBool input position : Watched (Value D × ℕ)).result = Json.parseBool input position := by
  simp [parseBool, Json.parseBool]

/-- From inside the text the integer part is scanned without an exception. -/
theorem result_scanInt {start : ℕ} (hstart : start ≤ input.length) :
    (scanInt input start).result = .ok (Json.scanInt input start) := by
  unfold scanInt Json.scanInt
  rcases Nat.lt_or_ge start input.length with hlt | hge
  · rw [List.getElem?_eq_getElem hlt]
    by_cases hsign : input[start] = ch '-'
    · simp [Cpp.charAt, hlt, hsign]
    · simp [Cpp.charAt, hlt, hsign]
  · obtain rfl : start = input.length := by omega
    simp [Cpp.charAt, show (0 : UInt8) ≠ ch '-' by decide]

@[simp] theorem result_scanFrac (position : ℕ) :
    (scanFrac input position).result = .ok (Json.scanFrac input position) := by
  unfold scanFrac Json.scanFrac
  by_cases hpoint : input[position]? = some (ch '.')
  · simp [hpoint]
  · simp [hpoint]

@[simp] theorem result_scanExp (position : ℕ) :
    (scanExp input position).result = .ok (Json.scanExp input position) := by
  unfold scanExp Json.scanExp
  by_cases hexp : input[position]? = some (ch 'e') ∨ input[position]? = some (ch 'E')
  · by_cases hsign : input[position + 1]? = some (ch '+') ∨ input[position + 1]? = some (ch '-')
    · simp [hexp, hsign]
    · simp [hexp, hsign]
  · simp [hexp]

@[simp] theorem result_catchStod (numberStr : Bytes) (position : ℕ) (message : Bytes) :
    (catchStod rt input numberStr position message).result =
      Json.catchStod rt input numberStr position message := by
  unfold catchStod Json.catchStod
  cases stod rt numberStr with
  | ok value => rfl
  | error e => cases e <;> simp

theorem result_parseNumber {start : ℕ} (hstart : start ≤ input.length) :
    (parseNumber rt input start).result = Json.parseNumber rt input start := by
  unfold parseNumber Json.parseNumber
  simp only [Logged.result_bind, result_scanInt input hstart, ok_bind, result_scanFrac,
    result_scanExp, result_substr]
  refine bind_congr fun numberStr => ?_
  rw [Logged.result_ite]
  congr 1
  · simp
  · cases fromCharsInt numberStr with
    | some value => rfl
    | none => simp

@[simp] theorem result_parseDefault (position : ℕ) :
    (parseDefault rt input position).result = Json.parseDefault rt input position := by
  unfold parseDefault Json.parseDefault
  simp only [Logged.result_bind, result_charAt]
  by_cases hp : position ≤ input.length
  · simp [result_parseNumber rt input hp]
  · simp [Cpp.charAt, show ¬ position < input.length by omega,
      show position ≠ input.length by omega]

@[simp] theorem result_parseSurrogate (codePoint : UInt32) (position : ℕ) :
    (parseSurrogate rt input codePoint position).result =
      Json.parseSurrogate rt input codePoint position := by
  simp [parseSurrogate, Json.parseSurrogate]

@[simp] theorem result_parseUnicode (position : ℕ) :
    (parseUnicode rt input position).result = Json.parseUnicode rt input position := by
  unfold parseUnicode Json.parseUnicode
  simp only [Logged.result_bind, Logged.result_ite]
  by_cases hend : position + 1 + 4 ≥ input.length
  · simp [hend]
  · simp only [if_neg hend, result_substr, result_parseSurrogate]
    refine bind_congr fun hexStr => ?_
    by_cases hhigh : isHighSurrogate (readHex rt input hexStr (position + 1)) = true
    · rw [if_pos hhigh, if_pos hhigh]
      refine bind_congr fun x => ?_
      cases utf8 x.1 <;> rfl
    · rw [if_neg hhigh, if_neg hhigh]
      simp only [Logged.result_pure, ok_bind, pure_eq_ok]
      cases utf8 (readHex rt input hexStr (position + 1)) <;> rfl

@[simp] theorem result_parseEscape (c : UInt8) (position : ℕ) :
    (parseEscape rt input c position).result = Json.parseEscape rt input c position := by
  simp [parseEscape, Json.parseEscape]

@[simp] theorem result_parseStringLoop (fuel position : ℕ) :
    (parseStringLoop rt input fuel position).result =
      Json.parseStringLoop rt input fuel position := by
  induction fuel generalizing position with
  | zero => rfl
  | succ fuel ih =>
      unfold parseStringLoop Json.parseStringLoop
      simp only [Logged.result_bind, result_peek, ok_bind]
      cases input[position]? with
      | none => rfl
      | some c =>
          simp only [Logged.result_ite, Logged.result_pure, pure_eq_ok]
          by_cases hquote : c = ch '"'
          · rw [if_pos hquote, if_pos hquote]
          · rw [if_neg hquote, if_neg hquote]
            by_cases hslash : c = ch '\\'
            · rw [if_pos hslash, if_pos hslash, Logged.result_bind, result_peek, ok_bind]
              cases input[position + 1]? with
              | none => rfl
              | some c => simp [ih]
            · rw [if_neg hslash, if_neg hslash]
              simp [ih]

@[simp] theorem result_parseString (position : ℕ) :
    (parseString rt input position).result = Json.parseString rt input position := by
  simp [parseString, Json.parseString]

section Containers

variable {next : ℕ → Watched (Value D × ℕ)} {next' : ℕ → Except Exn (Value D × ℕ)}
  (hnext : ∀ position, (next position).result = next' position)

include hnext

theorem result_parseArrayLoop (fuel : ℕ) (arrayValue : List (Value D)) (position : ℕ) :
    (parseArrayLoop input next fuel arrayValue position).result =
      Json.parseArrayLoop input next' fuel arrayValue position := by
  induction fuel generalizing arrayValue position with
  | zero => rfl
  | succ fuel ih =>
      unfold parseArrayLoop Json.parseArrayLoop
      simp [hnext, ih]

theorem result_parseArray (position : ℕ) :
    (parseArray input next position).result = Json.parseArray input next' position := by
  unfold parseArray Json.parseArray
  simp [result_parseArrayLoop input hnext]

theorem result_parseObjectLoop (fuel : ℕ) (objectValue : List (Bytes × Value D))
    (position : ℕ) : (parseObjectLoop rt input next fuel objectValue position).result =
      Json.parseObjectLoop rt input next' fuel objectValue position := by
  induction fuel generalizing objectValue position with
  | zero => rfl
  | succ fuel ih =>
      unfold parseObjectLoop Json.parseObjectLoop
      simp [hnext, ih]

theorem result_parseObject (position : ℕ) :
    (parseObject rt input next position).result = Json.parseObject rt input next' position := by
  unfold parseObject Json.parseObject
  simp [result_parseObjectLoop rt input hnext]

end Containers

/-- **Without the log the parser is the parser.** -/
theorem result_parseValue (fuel position : ℕ) :
    (parseValue rt input fuel position).result = Json.parseValue rt input fuel position := by
  induction fuel generalizing position with
  | zero => rfl
  | succ fuel ih =>
      unfold parseValue Json.parseValue
      simp only [result_returning, Logged.result_bind, result_skipWhitespace, ok_bind, result_peek]
      cases input[Json.skipWhitespace input position]? with
      | none => rfl
      | some c =>
          simp [result_parseArray input ih, result_parseObject rt input ih]

end Progress
end Json
end BreUtils
