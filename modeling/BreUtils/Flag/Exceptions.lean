/-
# What leaves `Parse` as an exception

`Parse` is to return, with the flags set, or to end the program.  `SetVal` throws when a
text is not one of its type.  The text of `-n v` has gone through `judgeSuitableValue`
before, which tries the same conversion and catches what it throws, and a bool flag takes
any text; so neither `-n v` nor `-b` throws (`isOk_of_no_assign`).  The text of `-n=v` has
gone through nothing.

So an exception leaves `Parse` exactly when its loop comes to an assignment whose text its
flag does not take (`parse_ends_iff`).
-/

import BreUtils.Flag.Meaning

namespace BreUtils
namespace Flags

open Lib Cpp

namespace Flag

variable {F D : Type} (platform : Platform F D)

/-- The arguments that the loop of `Parse` takes one after the other, without those that it takes
for values. -/
def taken (flags : List FlagInfo) : List Bytes → List Bytes
  | [] => []
  | [arg] => [arg]
  | arg :: value :: rest =>
      match read platform flags arg (some value) with
      | .positional => arg :: taken flags (value :: rest)
      | .set _ _ true => arg :: taken flags rest
      | .set _ _ false => arg :: taken flags (value :: rest)
      | .exits => [arg]

/-- An assignment to a flag of the table, of a text that is not one of the flag's type. -/
def malformed (flags : List FlagInfo) (arg : Bytes) : Bool :=
  isFlag arg &&
    match find flags (flagName arg), eqPos arg with
    | some flag, some pos => !(convert platform flag.type (arg.drop (pos + 1))).isOk
    | _, _ => false

/-- The call has returned with `m_is_parsed` set, or has ended the program. -/
def Ends (o : Outcome F D) : Prop := (∃ g, o = .returned g ∧ g.isParsed = true) ∨ o = .exited

variable {platform} {flags : List FlagInfo} {arg text : Bytes} {next : Option Bytes}
  {flag : FlagInfo} {takesNext : Bool}

/-- What a malformed argument is. -/
theorem malformed_iff :
    malformed platform flags arg = true ↔ ∃ flag pos, isFlag arg = true ∧
      find flags (flagName arg) = some flag ∧ eqPos arg = some pos ∧
        (convert platform flag.type (arg.drop (pos + 1))).isOk = false := by
  unfold malformed
  cases find flags (flagName arg) with
  | none => simp
  | some flag =>
      cases eqPos arg with
      | none => simp
      | some pos => simp

/-- **Only an assignment can throw.** -/
theorem isOk_of_no_assign (h : read platform flags arg next = .set flag text takesNext)
    (heq : eqPos arg = none) : (convert platform flag.type text).isOk = true := by
  rcases read_set h with ⟨-, ⟨pos, hpos, -, -⟩ | ⟨-, htype, -, -, -⟩ | ⟨value, -, -, -, hsuit, rfl⟩⟩
  · rw [heq] at hpos
    cases hpos
  · rw [htype]
    rfl
  · obtain ⟨w, hw⟩ := convert_given hsuit
    rw [hw]
    rfl

/-- The loop takes an argument that sets a flag, and the text is not one of the flag's type. -/
theorem malformed_of_set (h : read platform flags arg next = .set flag text takesNext) :
    malformed platform flags arg = !(convert platform flag.type text).isOk := by
  cases heq : eqPos arg with
  | none =>
      rw [isOk_of_no_assign h heq]
      simp [malformed, heq]
  | some pos =>
      have hflag : isFlag arg = true := by
        by_contra hno
        rw [Bool.not_eq_true] at hno
        simp [read, hno] at h
      cases hfind : find flags (flagName arg) with
      | none => simp [read, hflag, hfind] at h
      | some found =>
          simp only [read, hflag, hfind, heq, Bool.true_eq_false, if_false,
            Reading.set.injEq] at h
          obtain ⟨rfl, rfl, -⟩ := h
          simp [malformed, hflag, hfind, heq]

theorem malformed_of_positional (h : read platform flags arg next = .positional) :
    malformed platform flags arg = false := by
  simp [malformed, read_positional h]

/-- The program ends at an unknown name, or where a value is missing. -/
theorem malformed_of_exits (h : read platform flags arg next = .exits) :
    malformed platform flags arg = false := by
  rw [← Bool.not_eq_true, malformed_iff]
  rintro ⟨flag, pos, hflag, hfind, heq, -⟩
  simp [read, hflag, hfind, heq] at h

/-- A turn after which the loop goes on was not at a malformed argument. -/
theorem malformed_of_next {f g : Flag F D} (h : turn platform f arg next = .next g takesNext) :
    malformed platform f.flags arg = false := by
  rcases turn_next h with ⟨hread, -, -⟩ | ⟨flag, text, v, hread, hv, -⟩
  · exact malformed_of_positional hread
  · rw [malformed_of_set hread, hv]
    rfl

/-- A turn that throws was at one. -/
theorem malformed_of_threw {f g : Flag F D} {e : Exn}
    (h : turn platform f arg next = .threw e g) : malformed platform f.flags arg = true := by
  obtain ⟨flag, text, takesNext, hread, hv⟩ := turn_threw h
  rw [malformed_of_set hread, hv]
  rfl

/-- The loop takes its first argument, whatever comes of it. -/
theorem mem_taken (arg : Bytes) (rest : List Bytes) :
    arg ∈ taken platform flags (arg :: rest) := by
  cases rest with
  | nil => simp [taken]
  | cons value rest =>
      rw [taken]
      split <;> simp

theorem ends_finish (f : Flag F D) : Ends (finish f) := by
  unfold finish
  split_ifs
  · exact .inr rfl
  · exact .inl ⟨_, rfl, rfl⟩

theorem not_ends_threw (e : Exn) (f : Flag F D) : ¬ Ends (Outcome.threw e f) := by
  simp [Ends]

/-- **The loop ends well when it comes to no malformed assignment.** -/
theorem ends_parseArgs_iff (args : List Bytes) (f : Flag F D) :
    Ends (parseArgs platform args f) ↔
      ∀ arg ∈ taken platform f.flags args, malformed platform f.flags arg = false := by
  fun_induction parseArgs with
  | case1 f => simp [taken, ends_finish]
  | case2 arg f g takesNext h => simp [taken, ends_finish, malformed_of_next h]
  | case3 arg f h => simp [taken, Ends, malformed_of_exits (turn_exited h)]
  | case4 arg f e g h => simp [taken, not_ends_threw, malformed_of_threw h]
  | case5 arg value rest f g h ih =>
      have hgood := malformed_of_next h
      rcases turn_next h with ⟨-, hfalse, -⟩ | ⟨flag, text, v, hread, -, rfl⟩
      · cases hfalse
      · simp [taken, hread, hgood, ih]
  | case6 arg value rest f g h ih =>
      have hgood := malformed_of_next h
      rcases turn_next h with ⟨hread, -, rfl⟩ | ⟨flag, text, v, hread, -, rfl⟩
      · simp [taken, hread, hgood, ih]
      · simp [taken, hread, hgood, ih]
  | case7 arg value rest f h =>
      simp [taken, Ends, turn_exited h, malformed_of_exits (turn_exited h)]
  | case8 arg value rest f e g h =>
      refine iff_of_false (not_ends_threw e g) fun hall => ?_
      have hgood := hall arg (mem_taken arg (value :: rest))
      rw [malformed_of_threw h] at hgood
      exact absurd hgood (by simp)

/-- **`Parse` leaks an exception exactly on malformed assignments.**  With at least one argument it
returns with `m_is_parsed` set, or ends the program, if and only if it has been parsed before or
its loop comes to no `-n=v` whose `v` the flag `n` does not take. -/
theorem parse_ends_iff (f : Flag F D) (program arg : Bytes) (args : List Bytes) :
    Ends (parse platform f (program :: arg :: args)) ↔
      f.isParsed = true ∨ ∀ a ∈ taken platform f.flags (arg :: args),
        malformed platform f.flags a = false := by
  by_cases hparsed : f.isParsed = true
  · simp [parse, hparsed, Ends]
  · rw [parse, if_neg hparsed, ends_parseArgs_iff]
    simp [hparsed, named]

/-- `prog x -n=abc`: the positional argument stays behind. -/
theorem parse_throws :
    parse noFloats sample (["prog", "x", "-n=abc"].map ascii) =
        .threw .invalidArgument
          { sample with programName := ascii "prog", positionalArgs := [ascii "x"] } ∧
      ¬ ∀ (f : Flag Unit Unit) (program arg : Bytes) (args : List Bytes),
        Ends (parse noFloats f (program :: arg :: args)) := by
  have hthrows : parse noFloats sample (["prog", "x", "-n=abc"].map ascii) =
      .threw .invalidArgument
        { sample with programName := ascii "prog", positionalArgs := [ascii "x"] } := by rfl
  refine ⟨hthrows, fun h => ?_⟩
  have hends := h sample (ascii "prog") (ascii "x") [ascii "-n=abc"]
  exact not_ends_threw _ _ (hthrows ▸ hends)

end Flag

end Flags
end BreUtils
