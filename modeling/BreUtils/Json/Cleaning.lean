/-
# What the non-strict mode does to a text

`Parser::removeTailComma` and `Parser::removeComments` in `Json/json_parse.hpp`.
Each is one pass over the text with a few flags.  The loops read `str[i]` and a
neighbour or two, so they are written over the bytes still to come, with the
bytes just passed as arguments: `none` where the index would be negative.
-/

import BreUtils.Cpp.Text

namespace BreUtils
namespace Json

open Lib Cpp

/-- The first byte behind a comma that is no space closes a container. -/
def closesNext (rest : Bytes) : Bool :=
  match (rest.dropWhile isspace).head? with
  | some c => c == ch ']' || c == ch '}'
  | none => false

/-- The loop of `removeTailComma` at `str[i] = c`, `str[i - 1] = prev`. -/
def removeTailCommaLoop : Option UInt8 → Bool → Bool → Bool → Bytes → Bytes
  | _, _, _, _, [] => []
  | prev, inString, inArray, inObject, c :: rest =>
      let inString := if c == ch '"' && prev != some (ch '\\') then !inString else inString
      if !inString then
        let inArray := if c == ch '[' then true else if c == ch ']' then false else inArray
        let inObject := if c == ch '{' then true else if c == ch '}' then false else inObject
        if (inArray || inObject) && c == ch ',' && closesNext rest then
          removeTailCommaLoop (some c) inString inArray inObject rest
        else c :: removeTailCommaLoop (some c) inString inArray inObject rest
      else c :: removeTailCommaLoop (some c) inString inArray inObject rest

/-- `removeTailComma`: drops a comma outside of strings, inside of an array or an object, when the
next byte that is no space is `]` or `}`. -/
def removeTailComma (str : Bytes) : Bytes := removeTailCommaLoop none false false false str

/-- The quote at `str[i]` starts or ends a string: `str[i - 1] = p₁` is no backslash, or both
`str[i - 1]` and `str[i - 2] = p₂` are. -/
def togglesString (p₁ p₂ : Option UInt8) : Bool :=
  p₁ != some (ch '\\') || (p₁ == some (ch '\\') && p₂ == some (ch '\\'))

/-- The loop of `removeComments` at `str[i - 1] = p₁`, `str[i - 2] = p₂`. -/
def removeCommentsLoop : Option UInt8 → Option UInt8 → Bool → Bool → Bool → Bytes → Bytes
  | _, _, _, _, _, [] => []
  | p₁, p₂, inString, inSingleLineComment, inMultiLineComment, c :: rest =>
      if inSingleLineComment then
        if c == ch '\n' then
          c :: removeCommentsLoop (some c) p₁ inString false inMultiLineComment rest
        else removeCommentsLoop (some c) p₁ inString inSingleLineComment inMultiLineComment rest
      else if inMultiLineComment then
        match rest with
        | [] => []
        | d :: rest' =>
            if c == ch '*' && d == ch '/' then
              removeCommentsLoop (some d) (some c) inString inSingleLineComment false rest'
            else
              removeCommentsLoop (some c) p₁ inString inSingleLineComment inMultiLineComment
                (d :: rest')
      else if c == ch '"' && togglesString p₁ p₂ then
        c :: removeCommentsLoop (some c) p₁ (!inString) inSingleLineComment inMultiLineComment rest
      else
        match rest with
        | [] => [c]
        | d :: rest' =>
            if !inString && c == ch '/' && d == ch '/' then
              removeCommentsLoop (some d) (some c) inString true inMultiLineComment rest'
            else if !inString && c == ch '/' && d == ch '*' then
              removeCommentsLoop (some d) (some c) inString inSingleLineComment true rest'
            else
              c :: removeCommentsLoop (some c) p₁ inString inSingleLineComment inMultiLineComment
                (d :: rest')

/-- `removeComments`. -/
def removeComments (str : Bytes) : Bytes := removeCommentsLoop none none false false false str

example : removeComments (removeTailComma (ascii "[1, // one\n \"//\",]")) =
    ascii "[1, \n \"//\"]" := by
  decide +kernel

end Json
end BreUtils
