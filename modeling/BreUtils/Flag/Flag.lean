/-
# The command line of `flag/flag.hpp`

A `Flag` object holds a table of flags, each with a name, a type, and a pointer to the
variable that takes its value.  `Parse` goes through the arguments once.  An argument
without a leading `-` is positional.  Any other one names a flag, and brings a value
behind an `=`, or takes the next argument for its value, or, if the flag is a bool,
stands for `true`.  An unknown name, and a value that is missing or of the wrong kind,
end the program.

What the loop makes of an argument depends on the table and on the argument behind it
(`read`); what it then does is to push a positional argument or to set a variable.

`float` and `double`, and `std::stof` and `std::stod`, are those of any platform.
-/

import BreUtils.Cpp.Integers
import Mathlib.Logic.Function.Basic

namespace BreUtils
namespace Flags

open Lib Cpp

/-- `FlagType`. -/
inductive FlagType where
  | bool
  | int
  | uint
  | int64
  | uint64
  | float
  | double
  | string
  deriving DecidableEq, Repr

/-- The value of a variable. -/
inductive Value (F D : Type) where
  | bool (v : Bool)
  | int (v : Int32)
  | uint (v : UInt32)
  | int64 (v : Int64)
  | uint64 (v : UInt64)
  | float (v : F)
  | double (v : D)
  | string (v : Bytes)
  deriving DecidableEq

/-- `FlagInfo`, without the texts of its help. -/
structure FlagInfo where
  name : Bytes
  type : FlagType
  /-- The address of the variable. -/
  value : ℕ
  isRequired : Bool := false
  deriving DecidableEq, Repr

/-- `nullptr`. -/
def nullptr : ℕ := 0

/-- `std::stof` and `std::stod`. -/
structure Platform (F D : Type) where
  stof : Bytes → Except Exn F
  stod : Bytes → Except Exn D

/-- `Flag`, with the memory that its flags point into. -/
structure Flag (F D : Type) where
  programName : Bytes
  isParsed : Bool
  /-- `m_flags`. -/
  flags : List FlagInfo
  positionalArgs : List Bytes
  memory : ℕ → Value F D

/-- How a call of `Parse` ends. -/
inductive Outcome (F D : Type) where
  | returned (f : Flag F D)
  /-- `exit(EXIT_FAILURE)`. -/
  | exited
  | threw (e : Exn) (f : Flag F D)

variable {F D : Type} (platform : Platform F D)

/-! ### Values -/

/-- The texts that `judgeSuitableValue` takes for a bool. -/
def boolTexts : List Bytes :=
  ["1", "0", "t", "f", "T", "F", "true", "false", "TRUE", "FALSE", "True", "False"].map ascii

/-- `judgeSuitableValue`. -/
def judgeSuitableValue (type : FlagType) (val : Bytes) : Bool :=
  if val = [] then false
  else if type = .bool ∧ val ∈ boolTexts then true
  else if type = .int then (stoi val).isOk
  else if type = .int64 then (stoll val).isOk
  else if type = .float then (platform.stof val).isOk
  else if type = .double then (platform.stod val).isOk
  else if type = .string then true
  else if val.head? = some (ch '-') then false
  else if type = .uint then (stoul val).isOk
  else if type = .uint64 then (stoull val).isOk
  else false

/-- `stringToBool`. -/
def stringToBool (val : Bytes) : Bool :=
  val ∈ ["1", "t", "T", "true", "TRUE", "True"].map ascii

/-- What `FlagInfo::SetVal` stores. -/
def convert (type : FlagType) (str : Bytes) : Except Exn (Value F D) :=
  match type with
  | .bool => .ok (.bool (str = ascii "true"))
  | .int => (stoi str).map .int
  | .uint => (stoul str).map fun v => .uint v.toUInt32
  | .int64 => (stoll str).map .int64
  | .uint64 => (stoull str).map .uint64
  | .float => (platform.stof str).map .float
  | .double => (platform.stod str).map .double
  | .string => .ok (.string str)

namespace Flag

/-- `SetVal` of one of the flags. -/
def setVal (f : Flag F D) (flag : FlagInfo) (str : Bytes) : Except Exn (Flag F D) :=
  (convert platform flag.type str).map fun v =>
    { f with memory := Function.update f.memory flag.value v }

/-! ### Arguments -/

/-- `m_flag_map.find`: the flag that was registered last under the name. -/
def find (flags : List FlagInfo) (name : Bytes) : Option FlagInfo :=
  flags.reverse.find? fun flag => flag.name = name

/-- The argument starts with `m_prefix_chars`. -/
def isFlag (arg : Bytes) : Bool := arg.head? == some (ch '-')

/-- `arg.find(m_assign_chars)`. -/
def eqPos (arg : Bytes) : Option ℕ := arg.findIdx? (· == ch '=')

/-- `flag_name`.  The count is `eq_pos - 1`, whether there is one `-` in front or two. -/
def flagName (arg : Bytes) : Bytes :=
  let start := if [ch '-', ch '-'].isPrefixOf arg then 2 else 1
  match eqPos arg with
  | some pos => (arg.drop start).take (pos - 1)
  | none => arg.drop start

/-- What the loop makes of an argument. -/
inductive Reading where
  | positional
  /-- Set this flag to this text; whether the text is the next argument. -/
  | set (flag : FlagInfo) (text : Bytes) (takesNext : Bool)
  | exits
  deriving DecidableEq

/-- The body of the loop of `Parse`, up to `push_back` or `SetVal`.  `next` is the argument behind,
if there is one. -/
def read (flags : List FlagInfo) (arg : Bytes) (next : Option Bytes) : Reading :=
  if isFlag arg = false then .positional
  else
    match find flags (flagName arg) with
    | none => .exits
    | some flag =>
        match eqPos arg with
        | some pos => .set flag (arg.drop (pos + 1)) false
        | none =>
            match next with
            | none => if flag.type = .bool then .set flag (ascii "true") false else .exits
            | some value =>
                let isSuitVal := judgeSuitableValue platform flag.type value
                if isSuitVal = false ∧ flag.type = .bool then
                  if value.head? = some (ch '-') then .set flag (ascii "true") false else .exits
                else if isSuitVal = false then .exits
                else if flag.type = .bool then
                  .set flag (if stringToBool value then ascii "true" else ascii "false") true
                else .set flag value true

/-- A turn of the loop: what comes of it, and whether it took the next argument. -/
inductive Turn (F D : Type) where
  | next (f : Flag F D) (takesNext : Bool)
  | exited
  | threw (e : Exn) (f : Flag F D)

/-- A turn of the loop of `Parse`. -/
def turn (f : Flag F D) (arg : Bytes) (next : Option Bytes) : Turn F D :=
  match read platform f.flags arg next with
  | .positional => .next { f with positionalArgs := f.positionalArgs ++ [arg] } false
  | .set flag text takesNext =>
      match setVal platform f flag text with
      | .ok f => .next f takesNext
      | .error e => .threw e f
  | .exits => .exited

/-- A required flag without a variable. -/
def lacksRequired (flags : List FlagInfo) : Bool :=
  flags.any fun flag => flag.isRequired && flag.value == nullptr

/-- `Parse` behind its loop. -/
def finish (f : Flag F D) : Outcome F D :=
  if lacksRequired f.flags then .exited else .returned { f with isParsed := true }

/-- The loop of `Parse`. -/
def parseArgs : List Bytes → Flag F D → Outcome F D
  | [], f => finish f
  | [arg], f =>
      match turn platform f arg none with
      | .next f _ => finish f
      | .exited => .exited
      | .threw e f => .threw e f
  | arg :: value :: rest, f =>
      match turn platform f arg (some value) with
      | .next f true => parseArgs rest f
      | .next f false => parseArgs (value :: rest) f
      | .exited => .exited
      | .threw e f => .threw e f

/-- `Parse` when it takes over the name of the program. -/
def named (f : Flag F D) (program : Bytes) : Flag F D :=
  { f with programName := if f.programName = [] then program else f.programName }

/-- `Parse`. -/
def parse (f : Flag F D) : List Bytes → Outcome F D
  | program :: arg :: args =>
      if f.isParsed then .returned f else parseArgs platform (arg :: args) (named f program)
  | _ => .exited

end Flag

end Flags
end BreUtils
