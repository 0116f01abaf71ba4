/-
# `bre::json::Parser`

`Json/json_parse.hpp`, function by function.  The parser object holds the text
`input_` and the cursor `position_`; a function takes both and returns its result
with the new `position_`.  Reads of `input_[position_]` that no bounds check
guards go through `charAt`, so that reading behind the terminating `\0` would be
seen.  `parseValue` recurses through `parseArray` and `parseObject` with a
recursion bound, each loop with a bound of its own; `parse` starts them above
any nesting and any number of rounds that the text allows.
-/

import BreUtils.Json.Value
import BreUtils.Json.Cleaning

namespace BreUtils
namespace Json

open Lib Cpp

variable {D : Type} (rt : Runtime D) (input : Bytes)

/-- `size_t` to `int`. -/
def toInt (n : ℤ) : ℤ := n.bmod (2 ^ 32)

/-- `int` to `size_t`. -/
def toSize (n : ℤ) : ℕ := (n % 2 ^ 64).toNat

/-- `throwException`: what is thrown while the message is put together, which quotes the 20 bytes
on either side of `position`. -/
def throwException (position : ℕ) (message : Bytes) : Exn :=
  let msg_long := 20
  let startIndex : ℤ := if position > msg_long then toInt (position - msg_long) else 0
  let endIndex : ℤ :=
    if position + msg_long < input.length then toInt (position + msg_long) else toInt input.length
  let built : Except Exn Bytes := do
    let c ← charAt input position
    let before ← substr input (toSize startIndex) (toSize (position - startIndex))
    let after ← substr input (position + 1) (toSize (endIndex - position - 1))
    return message ++ ascii ": position = " ++ ascii (toString position) ++ ascii ": \'" ++ [c] ++
      ascii "\' near: \"" ++ before ++ [0x1B] ++ ascii "[31m" ++ [c] ++ [0x1B] ++ ascii "[0m" ++
      after ++ ascii "\""
  match built with
  | .ok error_msg => .jsonParseException error_msg
  | .error e => e

/-- `skipWhitespace`. -/
def skipWhitespace (position : ℕ) : ℕ := scanWhile isspace input position

/-- `expect`. -/
def expect (expected : Bytes) (position : ℕ) : Except Exn ℕ := do
  if (← substr input position expected.length) ≠ expected then
    throw (throwException input position (ascii "Expected '" ++ expected ++ ascii "'"))
  return position + expected.length

/-- `parseNull`. -/
def parseNull (position : ℕ) : Except Exn (Value D × ℕ) := do
  let position ← expect input (ascii "null") position
  return (.null, position)

/-- `parseBool`. -/
def parseBool (position : ℕ) : Except Exn (Value D × ℕ) := do
  if (← substr input position 4) = ascii "true" then
    return (.bool true, position + 4)
  else if (← substr input position 5) = ascii "false" then
    return (.bool false, position + 5)
  else throw (throwException input position (ascii "Invalid boolean value"))

/-- The cursor behind the integer part of the number at `start`. -/
def scanInt (start : ℕ) : ℕ :=
  scanWhile isdigit input (if input[start]? = some (ch '-') then start + 1 else start)

/-- The cursor behind a fraction at `position`, which need not have digits. -/
def scanFrac (position : ℕ) : ℕ :=
  if input[position]? = some (ch '.') then scanWhile isdigit input (position + 1) else position

/-- The cursor behind an exponent at `position`, which need not have digits. -/
def scanExp (position : ℕ) : ℕ :=
  if input[position]? = some (ch 'e') ∨ input[position]? = some (ch 'E') then
    let position := position + 1
    scanWhile isdigit input
      (if input[position]? = some (ch '+') ∨ input[position]? = some (ch '-') then position + 1
        else position)
  else position

/-- `std::stod(numberStr)` with the two `catch` clauses around it. -/
def catchStod (numberStr : Bytes) (position : ℕ) (message : Bytes) : Except Exn (Value D) :=
  match stod rt numberStr with
  | .ok value => .ok (.double value)
  | .error .invalidArgument => .error (throwException input position message)
  | .error .outOfRange =>
      if numberStr.head? = some (ch '-') then .ok (.double (rt.neg rt.infinity))
      else .ok (.double rt.infinity)
  | .error e => .error e

/-- `parseNumber`.  What it prints on `std::cout` when an integer does not fit is left out. -/
def parseNumber (start : ℕ) : Except Exn (Value D × ℕ) := do
  let afterInt := scanInt input start
  let afterFrac := scanFrac input afterInt
  let position := scanExp input afterFrac
  -- a fraction or an exponent moves the cursor, if only over its first character
  let isDouble := afterInt ≠ afterFrac ∨ afterFrac ≠ position
  let numberStr ← substr input start (position - start)
  if isDouble then
    let value ← catchStod rt input numberStr position (ascii "Invalid double value")
    return (value, position)
  else
    match fromCharsInt numberStr with
    | some value => return (.int value, position)
    | none =>
        let value ← catchStod rt input numberStr position (ascii "Invalid number value")
        return (value, position)

/-- `parseDefault`. -/
def parseDefault (position : ℕ) : Except Exn (Value D × ℕ) := do
  let c ← charAt input position
  let ret := isdigit c || c == ch '-'
  if ¬ret then throw (throwException input position (ascii "Unexpected character"))
  parseNumber rt input position

/-- `static_cast<char>`. -/
def toChar (n : UInt32) : UInt8 := n.toUInt8

/-- The UTF-8 bytes that `ParseUnicode` appends, `none` above U+10FFFF. -/
def utf8 (codePoint : UInt32) : Option Bytes :=
  if codePoint ≤ 0x7F then
    some [toChar codePoint]
  else if codePoint ≤ 0x7FF then
    some [toChar ((0xC0 : UInt32) ||| ((codePoint >>> 6) &&& 0x1F)),
      toChar ((0x80 : UInt32) ||| (codePoint &&& 0x3F))]
  else if codePoint ≤ 0xFFFF then
    some [toChar ((0xE0 : UInt32) ||| ((codePoint >>> 12) &&& 0x0F)),
      toChar ((0x80 : UInt32) ||| ((codePoint >>> 6) &&& 0x3F)),
      toChar ((0x80 : UInt32) ||| (codePoint &&& 0x3F))]
  else if codePoint ≤ 0x10FFFF then
    some [toChar ((0xF0 : UInt32) ||| ((codePoint >>> 18) &&& 0x07)),
      toChar ((0x80 : UInt32) ||| ((codePoint >>> 12) &&& 0x3F)),
      toChar ((0x80 : UInt32) ||| ((codePoint >>> 6) &&& 0x3F)),
      toChar ((0x80 : UInt32) ||| (codePoint &&& 0x3F))]
  else none

/-- `codePoint >= 0xD800 && codePoint <= 0xDBFF`. -/
def isHighSurrogate (codePoint : UInt32) : Bool := 0xD800 ≤ codePoint && codePoint ≤ 0xDBFF

/-- The code point of a surrogate pair. -/
def combine (codePoint lowCodePoint : UInt32) : UInt32 :=
  (0x10000 : UInt32) + ((codePoint - 0xD800) <<< 10) + (lowCodePoint - 0xDC00)

/-- The `codePoint` that `from_chars` reads off the four bytes at `position`: what the variable
held before where it reads no digit. -/
def readHex (hexStr : Bytes) (position : ℕ) : UInt32 :=
  (fromCharsHex hexStr).getD (rt.indeterminate (input.length - position))

/-- The surrogate branch of `ParseUnicode`: the code point of the pair, and the cursor. -/
def parseSurrogate (codePoint : UInt32) (position : ℕ) : Except Exn (UInt32 × ℕ) := do
  let invalid (position : ℕ) :=
    throwException input position (ascii "Invalid Unicode surrogate pair")
  if position + 6 ≥ input.length then throw (invalid position)
  if (← charAt input position) ≠ ch '\\' then throw (invalid position)
  if (← charAt input (position + 1)) ≠ ch 'u' then throw (invalid position)
  let position := position + 2
  let lowHexStr ← substr input position 4
  let lowCodePoint := readHex rt input lowHexStr position
  let position := position + 4
  if lowCodePoint < 0xDC00 ∨ lowCodePoint > 0xDFFF then throw (invalid position)
  return (combine codePoint lowCodePoint, position)

/-- `ParseUnicode`, from the `u`: the bytes it appends to `result`, and the cursor on the last
character of the escape. -/
def parseUnicode (position : ℕ) : Except Exn (Bytes × ℕ) := do
  let position := position + 1
  if position + 4 ≥ input.length then
    throw (throwException input position (ascii "Invalid Unicode escape sequence"))
  let hexStr ← substr input (position + 1) 4
  let codePoint := readHex rt input hexStr position
  let position := position + 4
  let (codePoint, position) ←
    if isHighSurrogate codePoint then parseSurrogate rt input codePoint position
    else pure (codePoint, position)
  match utf8 codePoint with
  | some bytes => return (bytes, position - 1)
  | none => throw (throwException input position (ascii "Invalid Unicode code point"))

/-- The `switch` on the character behind a backslash at `position`: the bytes appended, and the
cursor on the last character of the escape. -/
def parseEscape (c : UInt8) (position : ℕ) : Except Exn (Bytes × ℕ) :=
  if c = ch '"' then return ([ch '"'], position)
  else if c = ch '\\' then return ([ch '\\'], position)
  else if c = ch '/' then return ([ch '/'], position)
  else if c = ch 'b' then return ([0x08], position)
  else if c = ch 'f' then return ([0x0C], position)
  else if c = ch 'n' then return ([0x0A], position)
  else if c = ch 'r' then return ([0x0D], position)
  else if c = ch 't' then return ([0x09], position)
  else if c = ch 'u' then parseUnicode rt input position
  else throw (throwException input position (ascii "Invalid escape character"))

/-- The loop of `parseString`: the bytes it appends to `result` from `position` on. -/
def parseStringLoop : ℕ → ℕ → Except Exn (Bytes × ℕ)
  | 0, _ => throw .outOfFuel
  | fuel + 1, position =>
      match input[position]? with
      | none => return ([], position)
      | some c =>
          if c = ch '"' then return ([], position)
          else if c = ch '\\' then do
            let position := position + 1
            match input[position]? with
            | none => throw (throwException input position (ascii "Invalid escape sequence"))
            | some c =>
                let (bytes, position) ← parseEscape rt input c position
                let (result, position) ← parseStringLoop fuel (position + 1)
                return (bytes ++ result, position)
          else do
            let (result, position) ← parseStringLoop fuel (position + 1)
            return (c :: result, position)

/-- `parseString`. -/
def parseString (position : ℕ) : Except Exn (Value D × ℕ) := do
  let position ← expect input [ch '"'] position
  let (result, position) ← parseStringLoop rt input (input.length + 1) position
  let position ← expect input [ch '"'] position
  return (.string result, position)

section Containers

-- `parseValue` at the next level
variable (parseValue : ℕ → Except Exn (Value D × ℕ))

/-- The loop of `parseArray`, with the elements appended so far. -/
def parseArrayLoop : ℕ → List (Value D) → ℕ → Except Exn (List (Value D) × ℕ)
  | 0, _, _ => throw .outOfFuel
  | fuel + 1, arrayValue, position => do
      let (value, position) ← parseValue position
      let arrayValue := arrayValue ++ [value]
      let position := skipWhitespace input position
      let c ← charAt input position
      if c = ch ',' then
        parseArrayLoop fuel arrayValue (skipWhitespace input (position + 1))
      else if c = ch ']' then return (arrayValue, position + 1)
      else throw (throwException input position (ascii "Expected ',' or ']'"))

/-- `parseArray`. -/
def parseArray (position : ℕ) : Except Exn (Value D × ℕ) := do
  let position ← expect input [ch '['] position
  let position := skipWhitespace input position
  if (← charAt input position) = ch ']' then
    return (.array [], position + 1)
  else
    let (arrayValue, position) ← parseArrayLoop input parseValue (input.length + 1) [] position
    return (.array arrayValue, position)

/-- The loop of `parseObject`, with the members assigned so far. -/
def parseObjectLoop :
    ℕ → List (Bytes × Value D) → ℕ → Except Exn (List (Bytes × Value D) × ℕ)
  | 0, _, _ => throw .outOfFuel
  | fuel + 1, objectValue, position => do
      if (← charAt input position) ≠ ch '"' then
        throw (throwException input position (ascii "Expected string key"))
      let (keyValue, position) ← parseString rt input position
      let key ← keyValue.asString
      let position := skipWhitespace input position
      let position ← expect input [ch ':'] position
      let (value, position) ← parseValue position
      let objectValue := AssocMap.assign objectValue key value
      let position := skipWhitespace input position
      let c ← charAt input position
      if c = ch ',' then
        parseObjectLoop fuel objectValue (skipWhitespace input (position + 1))
      else if c = ch '}' then return (objectValue, position + 1)
      else throw (throwException input position (ascii "Expected ',' or '\x7d'"))

/-- `parseObject`. -/
def parseObject (position : ℕ) : Except Exn (Value D × ℕ) := do
  let position ← expect input [ch '{'] position
  let position := skipWhitespace input position
  if (← charAt input position) = ch '}' then
    return (.object [], position + 1)
  else
    let (objectValue, position) ←
      parseObjectLoop rt input parseValue (input.length + 1) [] position
    return (.object objectValue, position)

end Containers

/-- `parseValue`. -/
def parseValue : ℕ → ℕ → Except Exn (Value D × ℕ)
  | 0, _ => throw .outOfFuel
  | fuel + 1, position =>
      let position := skipWhitespace input position
      match input[position]? with
      | none => throw (throwException input position (ascii "Unexpected end of input"))
      | some c =>
          if c = ch 'n' then parseNull input position
          else if c = ch 't' ∨ c = ch 'f' then parseBool input position
          else if c = ch '"' then parseString rt input position
          else if c = ch '[' then parseArray input (parseValue fuel) position
          else if c = ch '{' then parseObject rt input (parseValue fuel) position
          else parseDefault rt input position

/-- `Parser parser(cleanStr); return parser.parseValue();` -/
def runParser (cleanStr : Bytes) : Except Exn (Value D) := do
  let (value, _) ← parseValue rt cleanStr (cleanStr.length + 1) 0
  return value

/-- The text that both overloads of `parse` hand to the parser.  The non-strict branch declares a
second `cleanStr` of its own and cleans the text into that one: the outer one stays empty. -/
def cleanStr (str : Bytes) (is_strict : Bool) : Bytes :=
  let cleanStr : Bytes := []
  if !is_strict then
    let _cleanStr := removeComments (removeTailComma str)
    cleanStr
  else str

/-- `Parser::parse(str, is_strict)`. -/
def parse (str : Bytes) (is_strict : Bool) : Except Exn (Value D) :=
  runParser rt (cleanStr str is_strict)

/-- `Parser::parse(str, root, is_strict)`: the new `root`, and what the call ends with. -/
def parseInto (str : Bytes) (root : Value D) (is_strict : Bool) : Value D × Except Exn Unit :=
  match runParser rt (cleanStr str is_strict) with
  | .ok value => (value, .ok ())
  | .error e => (root, .error e)

end Json
end BreUtils
