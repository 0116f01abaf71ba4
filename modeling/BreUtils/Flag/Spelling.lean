/-
# The spellings of a setting

The usage text of `flag/flag.hpp` sets a flag as `-n=v` or as `-n v`, and `Parse` allows
for a second `-` in front.  The separated spellings do the same thing (`turn_separated`).
The others do not follow.  `-n=v` skips `stringToBool`, so that a bool flag takes `1`, `t`
or `T` for `false` (`parse_assigned`).  In `--n=v` the name is cut one byte too long, up
to and including the `=`, so that no flag is found and the program ends
(`read_assigned_double`), whatever the other spellings do.

So the four spellings agree exactly on the command lines on which the arguments behind the
setting end the program anyway (`spellings_agree_iff`).  Whether they do depends on the
table and on these arguments alone (`parseArgs_exited_iff`).
-/

import BreUtils.Flag.Flag

namespace BreUtils
namespace Flags

open Lib Cpp

/-- The command lines that set the flag `n` to `v`. -/
def spellings (n v : Bytes) : List (List Bytes) :=
  [[ch '-' :: n ++ ch '=' :: v], [ch '-' :: ch '-' :: n ++ ch '=' :: v],
    [ch '-' :: n, v], [ch '-' :: ch '-' :: n, v]]

/-- What holds of all four. -/
theorem forall_spellings {n v : Bytes} {p : List Bytes → Prop} :
    (∀ a ∈ spellings n v, p a) ↔
      p [ch '-' :: n ++ ch '=' :: v] ∧ p [ch '-' :: ch '-' :: n ++ ch '=' :: v] ∧
        p [ch '-' :: n, v] ∧ p [ch '-' :: ch '-' :: n, v] := by
  simp only [spellings, List.forall_mem_cons, List.not_mem_nil, false_implies, implies_true,
    and_true]

/-- Names under which flags can be told apart on a command line. -/
structure WellNamed (flags : List FlagInfo) : Prop where
  nodup : (flags.map FlagInfo.name).Nodup
  ne_nil : ∀ flag ∈ flags, flag.name ≠ []
  no_assign : ∀ flag ∈ flags, ch '=' ∉ flag.name
  no_dash : ∀ flag ∈ flags, flag.name.head? ≠ some (ch '-')

namespace Flag

variable {F D : Type} (platform : Platform F D)

/-- The loop of `Parse` on its way to the argument behind these, which is `next`.  There is no
result when it ends before, or takes `next` for a value. -/
def arrive : List Bytes → Option Bytes → Flag F D → Option (Flag F D)
  | [], _, f => some f
  | [arg], next, f =>
      match turn platform f arg next with
      | .next f false => some f
      | _ => none
  | arg :: value :: rest, next, f =>
      match turn platform f arg (some value) with
      | .next f true => arrive rest next f
      | .next f false => arrive (value :: rest) next f
      | _ => none

/-- `Parse` reads the first of the arguments `a` as an argument of its own when it gets the command
line `before ++ a`. -/
def Reads (f : Flag F D) (program : Bytes) (before a : List Bytes) : Prop :=
  f.isParsed = false ∧ (arrive platform before a.head? (named f program)).isSome

/-- These arguments end the program: the loop gets to one that it does not know, or whose value is
missing or not suitable, or a required flag has no variable. -/
def endsInExit (flags : List FlagInfo) : List Bytes → Bool
  | [] => lacksRequired flags
  | [arg] =>
      match read platform flags arg none with
      | .positional => lacksRequired flags
      | .set flag text _ => (convert platform flag.type text).isOk && lacksRequired flags
      | .exits => true
  | arg :: value :: rest =>
      match read platform flags arg (some value) with
      | .positional => endsInExit flags (value :: rest)
      | .set flag text takesNext =>
          (convert platform flag.type text).isOk &&
            if takesNext then endsInExit flags rest else endsInExit flags (value :: rest)
      | .exits => true

/-- What the separated spellings pass to `SetVal`. -/
def given (type : FlagType) (v : Bytes) : Bytes :=
  if type = .bool then (if stringToBool v then ascii "true" else ascii "false") else v

/-- The flag set to a value. -/
def store (f : Flag F D) (flag : FlagInfo) (w : Value F D) : Flag F D :=
  { f with memory := Function.update f.memory flag.value w }

@[simp] theorem store_flags (f : Flag F D) (flag : FlagInfo) (w : Value F D) :
    (store f flag w).flags = f.flags := rfl

variable {platform}

/-! ### The loop -/

/-- What a turn after which the loop goes on does. -/
theorem turn_next {f g : Flag F D} {arg : Bytes} {next : Option Bytes} {takesNext : Bool}
    (h : turn platform f arg next = .next g takesNext) :
    (read platform f.flags arg next = .positional ∧ takesNext = false ∧
      g = { f with positionalArgs := f.positionalArgs ++ [arg] }) ∨
    ∃ flag text v, read platform f.flags arg next = .set flag text takesNext ∧
      convert platform flag.type text = .ok v ∧ g = store f flag v := by
  unfold turn setVal at h
  cases hread : read platform f.flags arg next with
  | positional =>
      simp only [hread, Turn.next.injEq] at h
      exact .inl ⟨rfl, h.2.symm, h.1.symm⟩
  | set flag text b =>
      cases hv : convert platform flag.type text with
      | ok v =>
          simp only [hread, hv, Except.map, Turn.next.injEq] at h
          exact .inr ⟨flag, text, v, by rw [h.2], hv, h.1.symm⟩
      | error e => simp [hread, hv, Except.map] at h
  | exits => simp [hread] at h

/-- No turn changes the table. -/
theorem turn_flags {f g : Flag F D} {arg : Bytes} {next : Option Bytes} {takesNext : Bool}
    (h : turn platform f arg next = .next g takesNext) : g.flags = f.flags := by
  rcases turn_next h with ⟨-, -, rfl⟩ | ⟨flag, text, v, -, -, rfl⟩
  · rfl
  · rfl

/-- A turn exits when it can make nothing of its argument. -/
theorem turn_exited {f : Flag F D} {arg : Bytes} {next : Option Bytes}
    (h : turn platform f arg next = .exited) : read platform f.flags arg next = .exits := by
  unfold turn setVal at h
  cases hread : read platform f.flags arg next with
  | positional => simp [hread] at h
  | set flag text b =>
      cases hv : convert platform flag.type text <;> simp [hread, hv, Except.map] at h
  | exits => rfl

/-- A turn throws when the text of a value is not one of the type. -/
theorem turn_threw {f g : Flag F D} {arg : Bytes} {next : Option Bytes} {e : Exn}
    (h : turn platform f arg next = .threw e g) :
    ∃ flag text takesNext, read platform f.flags arg next = .set flag text takesNext ∧
      convert platform flag.type text = .error e := by
  unfold turn setVal at h
  cases hread : read platform f.flags arg next with
  | positional => simp [hread] at h
  | set flag text b =>
      cases hv : convert platform flag.type text with
      | ok v => simp [hread, hv, Except.map] at h
      | error e' =>
          simp only [hread, hv, Except.map, Turn.threw.injEq] at h
          exact ⟨flag, text, b, rfl, by rw [hv, h.1]⟩
  | exits => simp [hread] at h

/-- The loop, from argument to argument. -/
theorem parseArgs_cons (arg : Bytes) (rest : List Bytes) (f : Flag F D) :
    parseArgs platform (arg :: rest) f =
      match turn platform f arg rest.head? with
      | .next g takesNext => parseArgs platform (if takesNext then rest.tail else rest) g
      | .exited => .exited
      | .threw e g => .threw e g := by
  cases rest with
  | nil => cases h : turn platform f arg none <;> simp [parseArgs, h]
  | cons value rest =>
      cases h : turn platform f arg (some value) with
      | next g takesNext => cases takesNext <;> simp [parseArgs, h]
      | exited => simp [parseArgs, h]
      | threw e g => simp [parseArgs, h]

theorem finish_exited (f : Flag F D) :
    finish f = .exited ↔ lacksRequired f.flags = true := by
  simp [finish]

/-- **Whether the program ends depends on the table and the arguments alone**, and not on the values
that the flags have so far. -/
theorem parseArgs_exited_iff (args : List Bytes) (f : Flag F D) :
    parseArgs platform args f = .exited ↔ endsInExit platform f.flags args = true := by
  fun_induction parseArgs with
  | case1 f => rw [finish_exited, endsInExit]
  | case2 arg f g takesNext h =>
      rcases turn_next h with ⟨hread, -, rfl⟩ | ⟨flag, text, v, hread, hv, rfl⟩
      · simp [finish_exited, endsInExit, hread]
      · simp [finish_exited, endsInExit, hread, hv, Except.isOk, Except.toBool]
  | case3 arg f h => simp [endsInExit, turn_exited h]
  | case4 arg f e g h =>
      obtain ⟨flag, text, takesNext, hread, hv⟩ := turn_threw h
      simp [endsInExit, hread, hv, Except.isOk, Except.toBool]
  | case5 arg value rest f g h ih =>
      rcases turn_next h with ⟨-, hfalse, -⟩ | ⟨flag, text, v, hread, hv, rfl⟩
      · cases hfalse
      · simp [endsInExit, hread, hv, ih, Except.isOk, Except.toBool]
  | case6 arg value rest f g h ih =>
      rcases turn_next h with ⟨hread, -, rfl⟩ | ⟨flag, text, v, hread, hv, rfl⟩
      · simp [endsInExit, hread, ih]
      · simp [endsInExit, hread, hv, ih, Except.isOk, Except.toBool]
  | case7 arg value rest f h => simp [endsInExit, turn_exited h]
  | case8 arg value rest f e g h =>
      obtain ⟨flag, text, takesNext, hread, hv⟩ := turn_threw h
      simp [endsInExit, hread, hv, Except.isOk, Except.toBool]

/-- The loop leaves the arguments behind to the state in which it gets there. -/
theorem parseArgs_arrive {before rest : List Bytes} {next : Option Bytes} {f g : Flag F D}
    (hnext : rest.head? = next) (h : arrive platform before next f = some g) :
    parseArgs platform (before ++ rest) f = parseArgs platform rest g := by
  fun_induction arrive with
  | case1 next f => rw [Option.some.inj h, List.nil_append]
  | case2 arg next f g' hturn =>
      rw [List.singleton_append, parseArgs_cons, hnext, hturn, Option.some.inj h]
      rfl
  | case3 => cases h
  | case4 arg value before next f g' hturn ih =>
      rw [List.cons_append, List.cons_append, parseArgs_cons, List.head?_cons, hturn]
      exact ih hnext h
  | case5 arg value before next f g' hturn ih =>
      rw [List.cons_append, List.cons_append, parseArgs_cons, List.head?_cons, hturn]
      exact ih hnext h
  | case6 => cases h

/-- The table is the same on the way. -/
theorem arrive_flags {before : List Bytes} {next : Option Bytes} {f g : Flag F D}
    (h : arrive platform before next f = some g) : g.flags = f.flags := by
  fun_induction arrive with
  | case1 f => rw [Option.some.inj h]
  | case2 arg next f g' hturn => rw [← Option.some.inj h, turn_flags hturn]
  | case3 => cases h
  | case4 arg value rest next f g' hturn ih => rw [ih h, turn_flags hturn]
  | case5 arg value rest next f g' hturn ih => rw [ih h, turn_flags hturn]
  | case6 => cases h

/-- An argument that does not take the flag behind it for a value is read as at the end of the
line. -/
theorem read_last {flags : List FlagInfo} {arg next : Bytes} (hnext : isFlag next = true)
    (hexits : read platform flags arg (some next) ≠ .exits)
    (htakes : ∀ flag text, read platform flags arg (some next) ≠ .set flag text true) :
    read platform flags arg none = read platform flags arg (some next) := by
  have hdash : next.head? = some (ch '-') := by simpa [isFlag] using hnext
  unfold read at *
  split_ifs with hpos
  · rfl
  · rw [if_neg hpos] at hexits htakes
    cases hfind : find flags (flagName arg) with
    | none => rfl
    | some flag =>
        cases heq : eqPos arg with
        | some pos => rfl
        | none =>
            simp only [hfind, heq, hdash] at hexits htakes ⊢
            by_cases hbool : flag.type = .bool
            · cases hsuit : judgeSuitableValue platform flag.type next with
              | true => simp_all
              | false => simp [hbool]
            · cases hsuit : judgeSuitableValue platform flag.type next with
              | true => simp_all
              | false => simp_all

/-- A turn that leaves the flag behind it goes as at the end of the line. -/
theorem turn_last {f g : Flag F D} {arg next : Bytes} (hnext : isFlag next = true)
    (h : turn platform f arg (some next) = .next g false) :
    turn platform f arg none = .next g false := by
  have hread : read platform f.flags arg none = read platform f.flags arg (some next) := by
    refine read_last hnext ?_ ?_
    · intro hexits
      rcases turn_next h with ⟨hread, -, -⟩ | ⟨flag, text, v, hread, -, -⟩
      · simp [hread] at hexits
      · simp [hread] at hexits
    · intro flag text htakes
      rcases turn_next h with ⟨hread, -, -⟩ | ⟨flag', text', v, hread, -, -⟩
      · simp [hread] at htakes
      · simp [hread] at htakes
  rw [← h, turn, turn, hread]

/-- **The state in which the loop gets to a flag does not depend on the flag.** -/
theorem arrive_last {before : List Bytes} {next : Bytes} {f g : Flag F D}
    (hnext : isFlag next = true) (h : arrive platform before (some next) f = some g) :
    arrive platform before none f = some g := by
  generalize hn : some next = n at h
  fun_induction arrive with
  | case1 n f => exact h
  | case2 arg n f g' hturn =>
      subst hn
      simp only [arrive, turn_last hnext hturn]
      exact h
  | case3 => cases h
  | case4 arg value before n f g' hturn ih =>
      simp only [arrive, hturn]
      exact ih hn h
  | case5 arg value before n f g' hturn ih =>
      simp only [arrive, hturn]
      exact ih hn h
  | case6 => cases h

/-! ### Names -/

/-- Under distinct names, a name finds its flag. -/
theorem find_name {flags : List FlagInfo} (hflags : WellNamed flags) {flag : FlagInfo}
    (hflag : flag ∈ flags) : find flags flag.name = some flag := by
  cases hfind : find flags flag.name with
  | none =>
      rw [find, List.find?_eq_none] at hfind
      have hne := hfind flag (List.mem_reverse.2 hflag)
      simp at hne
  | some other =>
      have hmem : other ∈ flags := List.mem_reverse.1 (List.mem_of_find?_eq_some hfind)
      have hname : other.name = flag.name := by simpa using List.find?_some hfind
      rw [List.inj_on_of_nodup_map hflags.nodup hmem hflag hname]

/-- No flag is found under a name with a `=` in it. -/
theorem find_assign {flags : List FlagInfo} (hflags : WellNamed flags) {name : Bytes}
    (hname : ch '=' ∈ name) : find flags name = none := by
  rw [find, List.find?_eq_none]
  intro flag hflag heq
  rw [List.mem_reverse] at hflag
  rw [decide_eq_true_eq] at heq
  exact hflags.no_assign flag hflag (heq ▸ hname)

/-- The first `=` is the one behind the name. -/
theorem eqPos_append {s : Bytes} (v : Bytes) (h : ch '=' ∉ s) :
    eqPos (s ++ ch '=' :: v) = some s.length := by
  have hnone : s.findIdx? (· == ch '=') = none := by
    rw [List.findIdx?_eq_none_iff]
    intro c hc
    simpa using fun heq : c = ch '=' => h (heq ▸ hc)
  rw [eqPos, List.findIdx?_append, hnone]
  simp [List.findIdx?_cons]

/-- A text without `=`. -/
theorem eqPos_none {s : Bytes} (h : ch '=' ∉ s) : eqPos s = none := by
  rw [eqPos, List.findIdx?_eq_none_iff]
  intro c hc
  simpa using fun heq : c = ch '=' => h (heq ▸ hc)

/-- A single `-` is not two. -/
theorem isPrefixOf_single {s : Bytes} (h : s.head? ≠ some (ch '-')) :
    [ch '-', ch '-'].isPrefixOf (ch '-' :: s) = false := by
  cases s with
  | nil => rfl
  | cons c s =>
      have hc : ¬ch '-' = c := fun heq => h (by rw [← heq]; rfl)
      simp [List.isPrefixOf, hc]

/-- With a dash in front of it a text has no more `=` than before. -/
theorem not_mem_dash {s : Bytes} (h : ch '=' ∉ s) : ch '=' ∉ ch '-' :: s := by
  rw [List.mem_cons]
  rintro (heq | hmem)
  · exact absurd heq (by decide)
  · exact h hmem

/-- The name in `-n`. -/
theorem flagName_single {n : Bytes} (hassign : ch '=' ∉ n) (hdash : n.head? ≠ some (ch '-')) :
    flagName (ch '-' :: n) = n := by
  simp [flagName, eqPos_none (not_mem_dash hassign), isPrefixOf_single hdash]

/-- The name in `--n`. -/
theorem flagName_double {n : Bytes} (hassign : ch '=' ∉ n) :
    flagName (ch '-' :: ch '-' :: n) = n := by
  simp [flagName, eqPos_none (not_mem_dash (not_mem_dash hassign))]

/-- The name in `-n=v`. -/
theorem flagName_assigned {n : Bytes} (hassign : ch '=' ∉ n) (hdash : n.head? ≠ some (ch '-'))
    (v : Bytes) : flagName (ch '-' :: n ++ ch '=' :: v) = n := by
  have hhead : (n ++ ch '=' :: v).head? ≠ some (ch '-') := by
    cases n with
    | nil => simp; decide
    | cons c n => exact hdash
  have hsingle := isPrefixOf_single hhead
  have hpos := eqPos_append v (not_mem_dash hassign)
  rw [List.cons_append] at hpos ⊢
  simp [flagName, hsingle, hpos]

/-- **The name in `--n=v` is cut behind the `=`**: the count does not allow for the second dash. -/
theorem flagName_assigned_double {n : Bytes} (hassign : ch '=' ∉ n) (v : Bytes) :
    flagName (ch '-' :: ch '-' :: n ++ ch '=' :: v) = n ++ [ch '='] := by
  have hpos := eqPos_append v (not_mem_dash (not_mem_dash hassign))
  simp only [List.cons_append] at hpos ⊢
  simp [flagName, hpos, List.take_append]

/-! ### One setting -/

/-- The argument names the flag and has no `=`, and a suitable value is behind it. -/
theorem read_separated {flags : List FlagInfo} {flag : FlagInfo} {s v : Bytes}
    (hfind : find flags (flagName (ch '-' :: s)) = some flag) (hassign : ch '=' ∉ s)
    (hv : judgeSuitableValue platform flag.type v = true) :
    read platform flags (ch '-' :: s) (some v) = .set flag (given flag.type v) true := by
  have hflag : isFlag (ch '-' :: s) = true := by simp [isFlag]
  have hpos := eqPos_none (not_mem_dash hassign)
  unfold read given
  simp only [hflag, hfind, hpos, hv]
  by_cases htype : flag.type = .bool <;> simp [htype]

/-- The argument names the flag in front of its first `=`. -/
theorem read_assigned {flags : List FlagInfo} {flag : FlagInfo} {s v : Bytes}
    (hfind : find flags (flagName (ch '-' :: s ++ ch '=' :: v)) = some flag)
    (hassign : ch '=' ∉ s) (next : Option Bytes) :
    read platform flags (ch '-' :: s ++ ch '=' :: v) next = .set flag v false := by
  have hflag : isFlag (ch '-' :: s ++ ch '=' :: v) = true := by simp [isFlag]
  have hpos := eqPos_append v (not_mem_dash hassign)
  unfold read
  simp only [hflag, hfind, hpos]
  simp

/-- **`--n=v` is an unknown flag**, whatever `n` is. -/
theorem read_assigned_double {flags : List FlagInfo} (hflags : WellNamed flags) {n : Bytes}
    (hassign : ch '=' ∉ n) (v : Bytes) (next : Option Bytes) :
    read platform flags (ch '-' :: ch '-' :: n ++ ch '=' :: v) next = .exits := by
  have hflag : isFlag (ch '-' :: ch '-' :: n ++ ch '=' :: v) = true := by simp [isFlag]
  have hfind : find flags (flagName (ch '-' :: ch '-' :: n ++ ch '=' :: v)) = none := by
    rw [flagName_assigned_double hassign]
    exact find_assign hflags (by simp)
  unfold read
  simp only [hflag, hfind]
  simp

/-- What is computed from a value that is there is there. -/
theorem exists_map_ok {α β : Type} {x : Except Exn α} (h : x.isOk = true) (g : α → β) :
    ∃ y, x.map g = .ok y := by
  cases x with
  | ok a => exact ⟨g a, rfl⟩
  | error e => cases h

/-- A suitable value is one that `SetVal` takes. -/
theorem convert_suitable {type : FlagType} {v : Bytes}
    (hv : judgeSuitableValue platform type v = true) :
    ∃ w, convert platform type v = .ok w := by
  have hne : v ≠ [] := by
    rintro rfl
    cases hv
  simp only [judgeSuitableValue, if_neg hne] at hv
  cases type with
  | bool => exact ⟨_, rfl⟩
  | int => exact exists_map_ok (by simpa using hv) _
  | uint =>
      have hok : v.head? ≠ some (ch '-') ∧ (stoul v).isOk = true := by simpa using hv
      exact exists_map_ok hok.2 _
  | int64 => exact exists_map_ok (by simpa using hv) _
  | uint64 =>
      have hok : v.head? ≠ some (ch '-') ∧ (stoull v).isOk = true := by simpa using hv
      exact exists_map_ok hok.2 _
  | float => exact exists_map_ok (by simpa using hv) _
  | double => exact exists_map_ok (by simpa using hv) _
  | string => exact ⟨_, rfl⟩

/-- Behind `stringToBool` comes one of two texts. -/
theorem convert_given_bool (v : Bytes) :
    convert platform .bool (given .bool v) = .ok (.bool (stringToBool v)) := by
  cases hv : stringToBool v with
  | true => simp [given, convert, hv]
  | false =>
      have hne : ascii "false" ≠ ascii "true" := by decide
      simp [given, convert, hv, hne]

/-- What the separated spellings pass is one too. -/
theorem convert_given {type : FlagType} {v : Bytes}
    (hv : judgeSuitableValue platform type v = true) :
    ∃ w, convert platform type (given type v) = .ok w := by
  by_cases htype : type = .bool
  · subst htype
    exact ⟨_, rfl⟩
  · rw [given, if_neg htype]
    exact convert_suitable hv

/-- The loop over an argument that is read as a setting. -/
theorem parseArgs_set {f : Flag F D} {flag : FlagInfo} {arg text : Bytes} {takesNext : Bool}
    {w : Value F D} {rest : List Bytes}
    (hread : read platform f.flags arg rest.head? = .set flag text takesNext)
    (hw : convert platform flag.type text = .ok w) :
    parseArgs platform (arg :: rest) f =
      parseArgs platform (if takesNext then rest.tail else rest) (store f flag w) := by
  have hset : setVal platform f flag text = .ok (store f flag w) := by
    rw [setVal, hw]
    rfl
  simp only [parseArgs_cons, turn, hread, hset]

/-- The loop at an argument that it does not know. -/
theorem parseArgs_exits {f : Flag F D} {arg : Bytes} {rest : List Bytes}
    (hread : read platform f.flags arg rest.head? = .exits) :
    parseArgs platform (arg :: rest) f = .exited := by
  simp only [parseArgs_cons, turn, hread]

/-- A first call of `Parse` with arguments. -/
theorem parse_eq {f : Flag F D} (hparsed : f.isParsed = false) (program : Bytes)
    {args : List Bytes} (hargs : args ≠ []) :
    parse platform f (program :: args) = parseArgs platform args (named f program) := by
  cases args with
  | nil => exact absurd rfl hargs
  | cons arg args => simp [parse, hparsed]

/-- A first `Parse` that returns has arguments. -/
theorem parseArgs_of_parse {f g : Flag F D} (hparsed : f.isParsed = false) {program : Bytes}
    {args : List Bytes} (h : parse platform f (program :: args) = .returned g) :
    parseArgs platform args (named f program) = .returned g := by
  have hne : args ≠ [] := by
    rintro rfl
    simp [parse] at h
  rwa [parse_eq hparsed program hne] at h

/-- `Parse` from the state in which it reads the flag. -/
theorem parse_reads {f : Flag F D} {program s : Bytes} {before a : List Bytes}
    (hreads : Reads platform f program before ((ch '-' :: s) :: a)) :
    ∃ g, arrive platform before none (named f program) = some g ∧ g.flags = f.flags ∧
      ∀ after, parse platform f (program :: (before ++ ((ch '-' :: s) :: a) ++ after)) =
        parseArgs platform ((ch '-' :: s) :: (a ++ after)) g := by
  obtain ⟨hparsed, hsome⟩ := hreads
  obtain ⟨g, hg⟩ := Option.isSome_iff_exists.1 hsome
  have hflag : isFlag (ch '-' :: s) = true := by simp [isFlag]
  refine ⟨g, arrive_last hflag hg, ?_, fun after => ?_⟩
  · rw [arrive_flags hg]
    rfl
  · rw [parse_eq hparsed program (by simp), List.append_assoc]
    exact parseArgs_arrive rfl hg

section Setting

variable {f : Flag F D} {flag : FlagInfo} {program v : Bytes} {before : List Bytes}
  (hflags : WellNamed f.flags) (hflag : flag ∈ f.flags)
  (hv : judgeSuitableValue platform flag.type v = true)
include hflags hflag hv

/-- **The separated spellings** take `v` off the line and set the flag to it. -/
theorem parse_separated {a : List Bytes}
    (ha : a ∈ [[ch '-' :: flag.name, v], [ch '-' :: ch '-' :: flag.name, v]])
    (hreads : Reads platform f program before a) :
    ∃ g w, arrive platform before none (named f program) = some g ∧ g.flags = f.flags ∧
      convert platform flag.type (given flag.type v) = .ok w ∧
      ∀ after, parse platform f (program :: (before ++ a ++ after)) =
        parseArgs platform after (store g flag w) := by
  have hassign := hflags.no_assign flag hflag
  obtain ⟨w, hw⟩ := convert_given hv
  obtain ⟨s, rfl, hs, hname⟩ : ∃ s, a = [ch '-' :: s, v] ∧ ch '=' ∉ s ∧
      flagName (ch '-' :: s) = flag.name := by
    simp only [List.mem_cons, List.not_mem_nil, or_false] at ha
    rcases ha with rfl | rfl
    · exact ⟨_, rfl, hassign, flagName_single hassign (hflags.no_dash flag hflag)⟩
    · exact ⟨_, rfl, not_mem_dash hassign, flagName_double hassign⟩
  obtain ⟨g, hg, hgflags, hparse⟩ := parse_reads hreads
  have hfind : find g.flags (flagName (ch '-' :: s)) = some flag := by
    rw [hgflags, hname, find_name hflags hflag]
  refine ⟨g, w, hg, hgflags, hw, fun after => ?_⟩
  have hread : read platform g.flags (ch '-' :: s) (v :: after).head? =
      .set flag (given flag.type v) true := read_separated hfind hs hv
  exact (hparse after).trans (parseArgs_set hread hw)

/-- **`-n=v`** sets the flag to `v` as it stands. -/
theorem parse_assigned
    (hreads : Reads platform f program before [ch '-' :: flag.name ++ ch '=' :: v]) :
    ∃ g w, arrive platform before none (named f program) = some g ∧ g.flags = f.flags ∧
      convert platform flag.type v = .ok w ∧
      ∀ after, parse platform f
          (program :: (before ++ [ch '-' :: flag.name ++ ch '=' :: v] ++ after)) =
        parseArgs platform after (store g flag w) := by
  have hassign := hflags.no_assign flag hflag
  obtain ⟨w, hw⟩ := convert_suitable hv
  obtain ⟨g, hg, hgflags, hparse⟩ := parse_reads hreads
  have hfind : find g.flags (flagName (ch '-' :: flag.name ++ ch '=' :: v)) = some flag := by
    rw [hgflags, flagName_assigned hassign (hflags.no_dash flag hflag), find_name hflags hflag]
  refine ⟨g, w, hg, hgflags, hw, fun after => (hparse after).trans ?_⟩
  exact parseArgs_set (read_assigned hfind hassign _) hw

omit hv in
/-- **`--n=v`** ends the program. -/
theorem parse_assigned_double
    (hreads : Reads platform f program before [ch '-' :: ch '-' :: flag.name ++ ch '=' :: v])
    (after : List Bytes) :
    parse platform f
      (program :: (before ++ [ch '-' :: ch '-' :: flag.name ++ ch '=' :: v] ++ after)) =
        .exited := by
  obtain ⟨g, -, hgflags, hparse⟩ := parse_reads hreads
  have hread : read platform g.flags (ch '-' :: ch '-' :: flag.name ++ ch '=' :: v) after.head? =
      .exits := read_assigned_double (hgflags ▸ hflags) (hflags.no_assign flag hflag) v _
  exact (hparse after).trans (parseArgs_exits hread)

/-- **The two separated spellings agree.** -/
theorem separated_agree {a b : List Bytes}
    (ha : a ∈ [[ch '-' :: flag.name, v], [ch '-' :: ch '-' :: flag.name, v]])
    (hb : b ∈ [[ch '-' :: flag.name, v], [ch '-' :: ch '-' :: flag.name, v]])
    (hreadsa : Reads platform f program before a) (hreadsb : Reads platform f program before b)
    (after : List Bytes) :
    parse platform f (program :: (before ++ a ++ after)) =
      parse platform f (program :: (before ++ b ++ after)) := by
  obtain ⟨g, w, hg, -, hw, hparsea⟩ := parse_separated hflags hflag hv ha hreadsa
  obtain ⟨g', w', hg', -, hw', hparseb⟩ := parse_separated hflags hflag hv hb hreadsb
  obtain rfl := Option.some.inj (hg.symm.trans hg')
  obtain rfl := Except.ok.inj (hw.symm.trans hw')
  rw [hparsea, hparseb]

/-- **`-n=v` agrees with them**, unless the flag is a bool and `v` is one of the texts for `true`
other than `true` itself. -/
theorem assigned_agrees {a : List Bytes}
    (ha : a ∈ [[ch '-' :: flag.name, v], [ch '-' :: ch '-' :: flag.name, v]])
    (hbool : flag.type = .bool → stringToBool v = decide (v = ascii "true"))
    (hreadsa : Reads platform f program before a)
    (hreads : Reads platform f program before [ch '-' :: flag.name ++ ch '=' :: v])
    (after : List Bytes) :
    parse platform f (program :: (before ++ [ch '-' :: flag.name ++ ch '=' :: v] ++ after)) =
      parse platform f (program :: (before ++ a ++ after)) := by
  obtain ⟨g, w, hg, -, hw, hparse⟩ := parse_assigned hflags hflag hv hreads
  obtain ⟨g', w', hg', -, hw', hparsea⟩ := parse_separated hflags hflag hv ha hreadsa
  obtain rfl := Option.some.inj (hg.symm.trans hg')
  have hvalue : convert platform flag.type v = convert platform flag.type (given flag.type v) := by
    by_cases htype : flag.type = .bool
    · rw [htype, convert_given_bool, hbool htype]
      rfl
    · rw [given, if_neg htype]
  obtain rfl : w = w' := Except.ok.inj (hw.symm.trans (hvalue.trans hw'))
  rw [hparse, hparsea]

/-- **The four spellings agree where the arguments behind them end the program**, and nowhere
else. -/
theorem spellings_agree_iff
    (hreads : ∀ a ∈ spellings flag.name v, Reads platform f program before a)
    (after : List Bytes) :
    (∀ a ∈ spellings flag.name v, ∀ b ∈ spellings flag.name v,
      parse platform f (program :: (before ++ a ++ after)) =
        parse platform f (program :: (before ++ b ++ after))) ↔
      endsInExit platform f.flags after = true := by
  have hstored : ∀ {g : Flag F D} {w : Value F D}, g.flags = f.flags →
      (parseArgs platform after (store g flag w) = .exited ↔
        endsInExit platform f.flags after = true) := by
    intro g w hg
    rw [parseArgs_exited_iff, store_flags, hg]
  rw [forall_spellings] at hreads
  obtain ⟨hassigned, hdouble, hsingle, hlong⟩ := hreads
  have hexited := parse_assigned_double hflags hflag hdouble after
  obtain ⟨g, w, -, hg, -, hparse⟩ := parse_separated hflags hflag hv (by simp) hsingle
  constructor
  · intro hagree
    rw [← hstored hg, ← hparse, ← hexited]
    exact hagree _ (by simp [spellings]) _ (by simp [spellings])
  · intro hexits
    have hall : ∀ a ∈ spellings flag.name v,
        parse platform f (program :: (before ++ a ++ after)) = .exited := by
      obtain ⟨g', w', -, hg', -, hparse'⟩ := parse_assigned hflags hflag hv hassigned
      obtain ⟨g'', w'', -, hg'', -, hparse''⟩ :=
        parse_separated hflags hflag hv (by simp) hlong
      rw [forall_spellings, hparse, hparse', hparse'']
      exact ⟨(hstored hg').2 hexits, hexited, (hstored hg).2 hexits, (hstored hg'').2 hexits⟩
    intro a ha b hb
    rw [hall a ha, hall b hb]

end Setting

/-- What a call of `Parse` has left at an address when it returned. -/
def left (o : Outcome F D) (address : ℕ) : Option (Value F D) :=
  match o with
  | .returned f => some (f.memory address)
  | _ => none

/-- A platform for command lines without `float` and `double` flags. -/
def noFloats : Platform Unit Unit where
  stof _ := .error .invalidArgument
  stod _ := .error .invalidArgument

/-- `Int(&n, "n", 0, "")`. -/
def sampleFlag : FlagInfo := { name := ascii "n", type := .int, value := 1 }

/-- A program with this flag and a bool flag `b`. -/
def sample : Flag Unit Unit where
  programName := []
  isParsed := false
  flags := [sampleFlag, { name := ascii "b", type := .bool, value := 2 }]
  positionalArgs := []
  memory a := if a = 1 then .int 0 else .bool false

theorem sample_wellNamed : WellNamed sample.flags where
  nodup := by decide
  ne_nil := by decide
  no_assign := by decide
  no_dash := by decide

/-- The flag `n` of `sample` can be set to `5` in all four ways, behind no arguments and behind
`x -b`. -/
theorem sample_reads {before : List Bytes} (hbefore : before ∈ [[], ["x", "-b"].map ascii]) :
    ∀ a ∈ spellings sampleFlag.name (ascii "5"), Reads noFloats sample (ascii "prog") before a := by
  simp only [List.mem_cons, List.not_mem_nil, or_false] at hbefore
  simp only [forall_spellings, Reads]
  rcases hbefore with rfl | rfl <;> decide +kernel

theorem spellings_agree_iff_sample :
    ((∀ a ∈ spellings sampleFlag.name (ascii "5"), ∀ b ∈ spellings sampleFlag.name (ascii "5"),
      parse noFloats sample (ascii "prog" :: (["x", "-b"].map ascii ++ a ++ [ascii "-q"])) =
        parse noFloats sample (ascii "prog" :: (["x", "-b"].map ascii ++ b ++ [ascii "-q"]))) ↔
      endsInExit noFloats sample.flags [ascii "-q"] = true) ∧
    endsInExit noFloats sample.flags [ascii "-q"] = true :=
  ⟨spellings_agree_iff sample_wellNamed (show sampleFlag ∈ sample.flags by decide)
      (by decide +kernel) (sample_reads (by simp)) _, by decide +kernel⟩

/-- `prog -n=5` and `prog --n=5`. -/
theorem spellings_disagree :
    WellNamed sample.flags ∧ sampleFlag ∈ sample.flags ∧
    judgeSuitableValue noFloats sampleFlag.type (ascii "5") = true ∧
    (∀ a ∈ spellings sampleFlag.name (ascii "5"), Reads noFloats sample (ascii "prog") [] a) ∧
    ¬∀ a ∈ spellings sampleFlag.name (ascii "5"), ∀ b ∈ spellings sampleFlag.name (ascii "5"),
      parse noFloats sample (ascii "prog" :: ([] ++ a ++ [])) =
        parse noFloats sample (ascii "prog" :: ([] ++ b ++ [])) := by
  refine ⟨sample_wellNamed, by decide, by decide +kernel, sample_reads (by simp), fun h => ?_⟩
  have hleft := congrArg (left · 1)
    (h [ascii "-n=5"] (by decide) [ascii "--n=5"] (by decide))
  revert hleft
  decide +kernel

/-- `prog -b=1` and `prog -b 1`. -/
example : left (parse noFloats sample (["prog", "-b=1"].map ascii)) 2 = some (.bool false) ∧
    left (parse noFloats sample (["prog", "-b", "1"].map ascii)) 2 = some (.bool true) := by
  decide +kernel

end Flag

end Flags
end BreUtils
