/-
# What a command line means

Flags are registered one by one, each with the variable that holds its value and gets its
default at once.  A command line is then a row of items: positional arguments, flags on
their own, flags with the next argument for their value, and flags with a value behind a
`=`.  What an item needs (`Splits`) does not mention the loop of `Parse`, and there is at
most one way to split a command line (`Splits.unique`).

When `Parse` returns, it has found the items one after the other and done what they say
(`parseArgs_splits`).  So the positional arguments are those of the row, in its order, and
every variable holds what the last item for its flag says, or else the default
(`parse_meaning`).
-/

import BreUtils.Flag.Spelling
import BreUtils.Lib.Transition

namespace BreUtils
namespace Flags

open Lib Cpp

variable {F D : Type}

/-! ### Registering flags -/

/-- The type of a flag whose variable holds such a value. -/
def Value.type : Value F D → FlagType
  | bool _ => .bool
  | int _ => .int
  | uint _ => .uint
  | int64 _ => .int64
  | uint64 _ => .uint64
  | float _ => .float
  | double _ => .double
  | string _ => .string

namespace Flag

/-- The constructor, in a program whose variables hold `memory`. -/
def init (programName : Bytes) (memory : ℕ → Value F D) : Flag F D where
  programName := programName
  isParsed := false
  flags := []
  positionalArgs := []
  memory := memory

/-- `addFlag`. -/
def addFlag (f : Flag F D) (flagInfo : FlagInfo) : Flag F D :=
  { f with flags := f.flags ++ [flagInfo] }

/-- `*pvalue = default_value`, and `addFlag` of a flag for the variable. -/
def define (f : Flag F D) (pvalue : ℕ) (name : Bytes) (defaultValue : Value F D) : Flag F D :=
  addFlag { f with memory := Function.update f.memory pvalue defaultValue }
    { name := name, type := defaultValue.type, value := pvalue }

section Members

variable (f : Flag F D) (pvalue : ℕ) (name : Bytes)

/-- `Bool`.  The overloads that return the pointer come to this with a new variable, here and
below. -/
def bool (defaultValue : Bool) : Flag F D := define f pvalue name (.bool defaultValue)

/-- `Int`. -/
def int (defaultValue : Int32) : Flag F D := define f pvalue name (.int defaultValue)

/-- `Uint`. -/
def uint (defaultValue : UInt32) : Flag F D := define f pvalue name (.uint defaultValue)

/-- `Int64`. -/
def int64 (defaultValue : Int64) : Flag F D := define f pvalue name (.int64 defaultValue)

/-- `Uint64`. -/
def uint64 (defaultValue : UInt64) : Flag F D := define f pvalue name (.uint64 defaultValue)

/-- `Float`. -/
def float (defaultValue : F) : Flag F D := define f pvalue name (.float defaultValue)

/-- `Double`. -/
def double (defaultValue : D) : Flag F D := define f pvalue name (.double defaultValue)

/-- `String`. -/
def string (defaultValue : Bytes) : Flag F D := define f pvalue name (.string defaultValue)

end Members

/-- A call that registers a flag. -/
structure Registration (F D : Type) where
  pvalue : ℕ
  name : Bytes
  defaultValue : Value F D

namespace Registration

/-- The flag that is registered. -/
def info (r : Registration F D) : FlagInfo :=
  { name := r.name, type := r.defaultValue.type, value := r.pvalue }

/-- The call. -/
def call (f : Flag F D) (r : Registration F D) : Flag F D :=
  match r.defaultValue with
  | .bool v => f.bool r.pvalue r.name v
  | .int v => f.int r.pvalue r.name v
  | .uint v => f.uint r.pvalue r.name v
  | .int64 v => f.int64 r.pvalue r.name v
  | .uint64 v => f.uint64 r.pvalue r.name v
  | .float v => f.float r.pvalue r.name v
  | .double v => f.double r.pvalue r.name v
  | .string v => f.string r.pvalue r.name v

/-- All of them come to the same. -/
theorem call_eq (f : Flag F D) (r : Registration F D) :
    call f r = define f r.pvalue r.name r.defaultValue := by
  obtain ⟨pvalue, name, defaultValue⟩ := r
  cases defaultValue <;> rfl

end Registration

/-- The flags of a program. -/
def table (registrations : List (Registration F D)) : List FlagInfo :=
  registrations.map Registration.info

/-- A program that has registered its flags. -/
def registered (programName : Bytes) (memory : ℕ → Value F D)
    (registrations : List (Registration F D)) : Flag F D :=
  registrations.foldl Registration.call (init programName memory)

/-- The flags stand in the table in order, nothing is parsed, and each variable holds its
default. -/
theorem registered_spec (programName : Bytes) (memory : ℕ → Value F D)
    {registrations : List (Registration F D)}
    (hvalues : (registrations.map Registration.pvalue).Nodup) :
    (registered programName memory registrations).flags = table registrations ∧
      (registered programName memory registrations).isParsed = false ∧
      (registered programName memory registrations).positionalArgs = [] ∧
      ∀ r ∈ registrations,
        (registered programName memory registrations).memory r.pvalue = r.defaultValue := by
  induction registrations using List.reverseRecOn with
  | nil => exact ⟨rfl, rfl, rfl, fun r hr => absurd hr List.not_mem_nil⟩
  | append_singleton registrations r ih =>
      rw [List.map_append, List.map_singleton, List.nodup_append] at hvalues
      obtain ⟨hnodup, -, hdisjoint⟩ := hvalues
      obtain ⟨hflags, hparsed, hargs, hmemory⟩ := ih hnodup
      have hlast : registered programName memory (registrations ++ [r]) =
          define (registered programName memory registrations) r.pvalue r.name r.defaultValue := by
        unfold registered
        rw [List.foldl_concat, Registration.call_eq]
      rw [hlast]
      refine ⟨?_, hparsed, hargs, fun s hs => ?_⟩
      · rw [table, List.map_append, ← table, ← hflags]
        rfl
      · rw [List.mem_append, List.mem_singleton] at hs
        rcases hs with hs | rfl
        · have hne : s.pvalue ≠ r.pvalue :=
            hdisjoint _ (List.mem_map_of_mem hs) _ (List.mem_singleton_self _)
          rw [← hmemory s hs]
          exact Function.update_of_ne hne _ _
        · exact Function.update_self _ _ _

/-! ### Items -/

variable (platform : Platform F D)

/-- A part of a command line. -/
inductive Item where
  | positional (arg : Bytes)
  /-- `-n`, of a bool. -/
  | bare (arg : Bytes) (flag : FlagInfo)
  /-- `-n v`. -/
  | valued (arg : Bytes) (flag : FlagInfo) (value : Bytes)
  /-- `-n=v`. -/
  | assigned (arg : Bytes) (flag : FlagInfo) (value : Bytes)
  deriving DecidableEq

/-- An argument names a flag: without its dashes and what is behind a `=` it is the name. -/
def Names (flags : List FlagInfo) (arg : Bytes) (flag : FlagInfo) : Prop :=
  isFlag arg = true ∧ flag ∈ flags ∧ flagName arg = flag.name

/-- **These are the items of a command line.** -/
inductive Splits (flags : List FlagInfo) : List Item → List Bytes → Prop
  | nil : Splits flags [] []
  | positional {arg : Bytes} {items : List Item} {rest : List Bytes} :
      isFlag arg = false → Splits flags items rest →
      Splits flags (.positional arg :: items) (arg :: rest)
  | bare {arg : Bytes} {flag : FlagInfo} {items : List Item} {rest : List Bytes} :
      Names flags arg flag → eqPos arg = none → flag.type = .bool →
      (∀ next ∈ rest.head?, isFlag next = true) → Splits flags items rest →
      Splits flags (.bare arg flag :: items) (arg :: rest)
  | valued {arg value : Bytes} {flag : FlagInfo} {items : List Item} {rest : List Bytes} :
      Names flags arg flag → eqPos arg = none →
      judgeSuitableValue platform flag.type value = true → Splits flags items rest →
      Splits flags (.valued arg flag value :: items) (arg :: value :: rest)
  | assigned {arg : Bytes} {flag : FlagInfo} {pos : ℕ} {items : List Item} {rest : List Bytes} :
      Names flags arg flag → eqPos arg = some pos → Splits flags items rest →
      Splits flags (.assigned arg flag (arg.drop (pos + 1)) :: items) (arg :: rest)

namespace Item

/-- The positional argument of an item. -/
def positionalArg : Item → Option Bytes
  | positional arg => some arg
  | _ => none

/-- The flag that an item sets, and the value it gives: `true` for a bool on its own, what
`stringToBool` says for a bool with a value of its own, and else the number or text. -/
def setting : Item → Option (FlagInfo × Except Exn (Value F D))
  | positional _ => none
  | bare _ flag => some (flag, .ok (.bool true))
  | valued _ flag value =>
      some (flag, if flag.type = .bool then .ok (.bool (stringToBool value))
        else convert platform flag.type value)
  | assigned _ flag value => some (flag, convert platform flag.type value)

/-- What an item does, if its value is one of the type. -/
def apply (f : Flag F D) : Item → Option (Flag F D)
  | positional arg => some { f with positionalArgs := f.positionalArgs ++ [arg] }
  | item =>
      match setting platform item with
      | some (flag, .ok v) => some (store f flag v)
      | _ => none

end Item

/-- What the last item for a flag gives it. -/
def lastSetting (items : List Item) (flag : FlagInfo) : Option (Except Exn (Value F D)) :=
  (((items.filterMap (Item.setting platform)).filter fun s => s.1 = flag).getLast?).map Prod.snd

variable {platform} {flags : List FlagInfo} {items items' : List Item} {args : List Bytes}
  {f g : Flag F D} {arg : Bytes} {flag flag' : FlagInfo}

/-- A name belongs to one flag. -/
theorem Names.unique (hnames : (flags.map FlagInfo.name).Nodup) (h : Names flags arg flag)
    (h' : Names flags arg flag') : flag = flag' := by
  obtain ⟨-, hmem, hname⟩ := h
  obtain ⟨-, hmem', hname'⟩ := h'
  exact List.inj_on_of_nodup_map hnames hmem hmem' (hname.symm.trans hname')

/-- What a bool takes for its value is no flag. -/
theorem not_isFlag_of_suitable {value : Bytes}
    (h : judgeSuitableValue platform .bool value = true) : isFlag value = false := by
  have hall : ∀ v ∈ boolTexts, isFlag v = false := by decide +kernel
  refine hall value ?_
  by_contra hmem
  simp [judgeSuitableValue, hmem] at h

/-- A bool takes the argument behind it whenever it can. -/
theorem Splits.not_bare_of_suitable {value : Bytes} {rest : List Bytes}
    (hnext : ∀ next ∈ (value :: rest).head?, isFlag next = true) (htype : flag.type = .bool)
    (hsuit : judgeSuitableValue platform flag.type value = true) : False := by
  rw [htype] at hsuit
  have hflag := hnext value rfl
  rw [not_isFlag_of_suitable hsuit] at hflag
  cases hflag

/-- **A command line splits in one way.** -/
theorem Splits.unique (hnames : (flags.map FlagInfo.name).Nodup)
    (h : Splits platform flags items args) (h' : Splits platform flags items' args) :
    items = items' := by
  induction h generalizing items' with
  | nil =>
      cases h'
      rfl
  | positional hflag _ ih =>
      cases h' with
      | positional _ hrest => rw [ih hrest]
      | bare hname => exact absurd hname.1 (by simp [hflag])
      | valued hname => exact absurd hname.1 (by simp [hflag])
      | assigned hname => exact absurd hname.1 (by simp [hflag])
  | bare hname heq htype hnext _ ih =>
      cases h' with
      | positional hflag => exact absurd hname.1 (by simp [hflag])
      | bare hname' _ _ _ hrest => rw [ih hrest, hname.unique hnames hname']
      | valued hname' _ hsuit =>
          obtain rfl := hname.unique hnames hname'
          exact (Splits.not_bare_of_suitable hnext htype hsuit).elim
      | assigned _ heq' => rw [heq] at heq'; cases heq'
  | valued hname heq hsuit _ ih =>
      cases h' with
      | positional hflag => exact absurd hname.1 (by simp [hflag])
      | bare hname' _ htype hnext =>
          obtain rfl := hname.unique hnames hname'
          exact (Splits.not_bare_of_suitable hnext htype hsuit).elim
      | valued hname' _ _ hrest => rw [ih hrest, hname.unique hnames hname']
      | assigned _ heq' => rw [heq] at heq'; cases heq'
  | assigned hname heq _ ih =>
      cases h' with
      | positional hflag => exact absurd hname.1 (by simp [hflag])
      | bare _ heq' => rw [heq] at heq'; cases heq'
      | valued _ heq' => rw [heq] at heq'; cases heq'
      | assigned hname' heq' hrest =>
          obtain rfl := Option.some.inj (heq.symm.trans heq')
          rw [ih hrest, hname.unique hnames hname']

/-! ### What `Parse` finds -/

/-- A flag that is found is in the table. -/
theorem mem_of_find {name : Bytes} (h : find flags name = some flag) :
    flag ∈ flags ∧ name = flag.name := by
  refine ⟨List.mem_reverse.1 (List.mem_of_find?_eq_some h), ?_⟩
  have hname : flag.name = name := by simpa using List.find?_some h
  exact hname.symm

/-- What an argument is, when it sets a flag. -/
theorem read_set {next : Option Bytes} {text : Bytes} {takesNext : Bool}
    (h : read platform flags arg next = .set flag text takesNext) :
    Names flags arg flag ∧
      ((∃ pos, eqPos arg = some pos ∧ text = arg.drop (pos + 1) ∧ takesNext = false) ∨
        (eqPos arg = none ∧ flag.type = .bool ∧ text = ascii "true" ∧ takesNext = false ∧
          ∀ value ∈ next, isFlag value = true) ∨
        ∃ value, eqPos arg = none ∧ next = some value ∧ takesNext = true ∧
          judgeSuitableValue platform flag.type value = true ∧ text = given flag.type value) := by
  unfold read at h
  split_ifs at h with hflag
  rw [Bool.not_eq_false] at hflag
  cases hfind : find flags (flagName arg) with
  | none => simp [hfind] at h
  | some found =>
      obtain ⟨hmem, hname⟩ := mem_of_find hfind
      cases heq : eqPos arg with
      | some pos =>
          simp only [hfind, heq, Reading.set.injEq] at h
          obtain ⟨rfl, rfl, rfl⟩ := h
          exact ⟨⟨hflag, hmem, hname⟩, Or.inl ⟨pos, rfl, rfl, rfl⟩⟩
      | none =>
          cases next with
          | none =>
              simp only [hfind, heq] at h
              split_ifs at h with htype
              obtain ⟨rfl, rfl, rfl⟩ := Reading.set.inj h
              exact ⟨⟨hflag, hmem, hname⟩,
                Or.inr (Or.inl ⟨rfl, htype, rfl, rfl, fun _ hv => by cases hv⟩)⟩
          | some value =>
              simp only [hfind, heq] at h
              split_ifs at h with hbare hdash hsuit htype hvalue
              · obtain ⟨rfl, rfl, rfl⟩ := Reading.set.inj h
                refine ⟨⟨hflag, hmem, hname⟩, Or.inr (Or.inl ⟨rfl, hbare.2, rfl, rfl, ?_⟩)⟩
                rintro _ ⟨⟩
                simp [isFlag, hdash]
              · obtain ⟨rfl, rfl, rfl⟩ := Reading.set.inj h
                refine ⟨⟨hflag, hmem, hname⟩,
                  Or.inr (Or.inr ⟨value, rfl, rfl, rfl, by simpa using hsuit, ?_⟩)⟩
                rw [given, if_pos htype, if_pos hvalue]
              · obtain ⟨rfl, rfl, rfl⟩ := Reading.set.inj h
                refine ⟨⟨hflag, hmem, hname⟩,
                  Or.inr (Or.inr ⟨value, rfl, rfl, rfl, by simpa using hsuit, ?_⟩)⟩
                rw [given, if_pos htype, if_neg hvalue]
              · obtain ⟨rfl, rfl, rfl⟩ := Reading.set.inj h
                refine ⟨⟨hflag, hmem, hname⟩,
                  Or.inr (Or.inr ⟨value, rfl, rfl, rfl, by simpa using hsuit, ?_⟩)⟩
                rw [given, if_neg htype]

/-- An argument that `Parse` takes for a positional one starts with no dash. -/
theorem read_positional {next : Option Bytes}
    (h : read platform flags arg next = .positional) : isFlag arg = false := by
  unfold read at h
  split_ifs at h with hflag
  · exact hflag
  · cases hfind : find flags (flagName arg) with
    | none => simp [hfind] at h
    | some flag =>
        cases heq : eqPos arg with
        | some pos => simp [hfind, heq] at h
        | none =>
            cases next with
            | none =>
                simp only [hfind, heq] at h
                split_ifs at h
            | some value =>
                simp only [hfind, heq] at h
                split_ifs at h

/-- What `SetVal` makes of a value that came as an argument of its own. -/
theorem convert_given_eq (type : FlagType) (value : Bytes) :
    convert platform type (given type value) =
      if type = .bool then .ok (.bool (stringToBool value)) else convert platform type value := by
  by_cases htype : type = .bool
  · rw [if_pos htype, htype, convert_given_bool]
  · rw [if_neg htype, given, if_neg htype]

/-- **One turn of the loop is one item.** -/
theorem turn_item {rest : List Bytes} {takesNext : Bool}
    (h : turn platform f arg rest.head? = .next g takesNext) :
    ∃ item : Item, item.apply platform f = some g ∧ ∀ items,
      Splits platform f.flags items (if takesNext then rest.tail else rest) →
        Splits platform f.flags (item :: items) (arg :: rest) := by
  rcases turn_next h with ⟨hread, rfl, rfl⟩ | ⟨flag, text, v, hread, hv, rfl⟩
  · exact ⟨.positional arg, rfl, fun items hrest => .positional (read_positional hread) hrest⟩
  · obtain ⟨hname, ⟨pos, heq, rfl, rfl⟩ | ⟨heq, htype, rfl, rfl, hnext⟩ |
      ⟨value, heq, hnext, rfl, hsuit, rfl⟩⟩ := read_set hread
    · refine ⟨.assigned arg flag (arg.drop (pos + 1)), ?_, fun items hrest =>
        .assigned hname heq hrest⟩
      simp only [Item.apply, Item.setting, hv]
    · refine ⟨.bare arg flag, ?_, fun items hrest => .bare hname heq htype hnext hrest⟩
      have htrue : v = .bool true := by
        rw [htype] at hv
        exact (Except.ok.inj hv).symm
      simp only [Item.apply, Item.setting, htrue]
    · obtain ⟨rest, rfl⟩ : ∃ tail, rest = value :: tail := by
        cases rest with
        | nil => cases hnext
        | cons c tail => exact ⟨tail, by rw [Option.some.inj hnext]⟩
      refine ⟨.valued arg flag value, ?_, fun items hrest => .valued hname heq hsuit hrest⟩
      rw [convert_given_eq] at hv
      simp only [Item.apply, Item.setting, hv]

/-- A `Parse` that returns goes from one turn to the next, up to the end of the arguments. -/
theorem parseArgs_induction {motive : List Bytes → Flag F D → Prop}
    (hnil : ∀ f, g = { f with isParsed := true } → motive [] f)
    (hcons : ∀ arg rest f u takesNext, turn platform f arg rest.head? = .next u takesNext →
      motive (if takesNext then rest.tail else rest) u → motive (arg :: rest) f)
    (h : parseArgs platform args f = .returned g) : motive args f := by
  induction hn : args.length using Nat.strong_induction_on generalizing args f with
  | _ n ih =>
      cases args with
      | nil =>
          rw [parseArgs, finish] at h
          split_ifs at h
          exact hnil f (Outcome.returned.inj h).symm
      | cons arg rest =>
          rw [parseArgs_cons] at h
          cases hturn : turn platform f arg rest.head? with
          | next u takesNext =>
              simp only [hturn] at h
              have hlength : (if takesNext then rest.tail else rest).length < n := by
                rw [← hn, List.length_cons]
                split_ifs
                · rw [List.length_tail]
                  omega
                · omega
              exact hcons arg rest f u takesNext hturn (ih _ hlength h rfl)
          | exited => simp [hturn] at h
          | threw e u => simp [hturn] at h

/-- **`Parse` goes through the items of the command line** and does what they say. -/
theorem parseArgs_splits (h : parseArgs platform args f = .returned g) :
    ∃ items t, Splits platform f.flags items args ∧
      Transition.run (Item.apply platform) f items = some t ∧ g = { t with isParsed := true } := by
  refine parseArgs_induction (motive := fun args f =>
    ∃ items t, Splits platform f.flags items args ∧
      Transition.run (Item.apply platform) f items = some t ∧ g = { t with isParsed := true })
    (fun f hg => ⟨[], f, .nil, rfl, hg⟩) (fun arg rest f u takesNext hturn ih => ?_) h
  obtain ⟨items, t, hsplits, hrun, hg⟩ := ih
  obtain ⟨item, hitem, hfirst⟩ := turn_item hturn
  rw [turn_flags hturn] at hsplits
  refine ⟨item :: items, t, hfirst items hsplits, ?_, hg⟩
  rw [Transition.run_cons, hitem]
  exact hrun

/-! ### What the items do -/

/-- The last item decides. -/
theorem lastSetting_concat (items : List Item) (item : Item) (flag : FlagInfo) :
    lastSetting platform (items ++ [item]) flag =
      match item.setting platform with
      | some (other, v) => if other = flag then some v else lastSetting platform items flag
      | none => lastSetting platform items flag := by
  unfold lastSetting
  rw [List.filterMap_append, List.filter_append]
  cases hset : item.setting platform with
  | none => simp [hset]
  | some s =>
      obtain ⟨other, v⟩ := s
      by_cases hother : other = flag
      · simp [hset, hother]
      · simp [hset, hother]

/-- What one item does to the memory and the positional arguments. -/
theorem apply_cases {item : Item} (h : item.apply platform f = some g) :
    (item.setting platform = none ∧
        g = { f with positionalArgs := f.positionalArgs ++ item.positionalArg.toList }) ∨
      ∃ flag v, item.setting platform = some (flag, .ok v) ∧ item.positionalArg = none ∧
        g = store f flag v := by
  cases item with
  | positional arg => exact Or.inl ⟨rfl, (Option.some.inj h).symm⟩
  | bare arg flag => exact Or.inr ⟨flag, .bool true, rfl, rfl, (Option.some.inj h).symm⟩
  | valued arg flag value =>
      simp only [Item.apply, Item.setting] at h ⊢
      cases hv : (if flag.type = .bool then Except.ok (.bool (stringToBool value))
        else convert platform flag.type value) with
      | ok v =>
          rw [hv] at h
          exact Or.inr ⟨flag, v, rfl, rfl, (Option.some.inj h).symm⟩
      | error e => rw [hv] at h; cases h
  | assigned arg flag value =>
      simp only [Item.apply, Item.setting] at h ⊢
      cases hv : convert platform flag.type value with
      | ok v =>
          rw [hv] at h
          exact Or.inr ⟨flag, v, rfl, rfl, (Option.some.inj h).symm⟩
      | error e => rw [hv] at h; cases h

theorem run_positionalArgs (h : Transition.run (Item.apply platform) f items = some g) :
    g.positionalArgs = f.positionalArgs ++ items.filterMap Item.positionalArg := by
  induction items using List.reverseRecOn generalizing g with
  | nil =>
      obtain rfl := Option.some.inj h
      exact (List.append_nil _).symm
  | append_singleton items item ih =>
      obtain ⟨t, ht, happly⟩ := Transition.run_concat_eq_some.1 h
      rw [List.filterMap_append, ← List.append_assoc, ← ih ht]
      rcases apply_cases happly with ⟨-, rfl⟩ | ⟨flag, v, -, hnone, rfl⟩
      · cases item <;> rfl
      · simp [hnone, store]

/-- **Every variable holds what the last item for its flag says**, or what it held before. -/
theorem run_memory (hvalues : (flags.map FlagInfo.value).Nodup)
    (hitems : ∀ item ∈ items, ∀ s ∈ item.setting platform, s.1 ∈ flags) (hflag : flag ∈ flags)
    (h : Transition.run (Item.apply platform) f items = some g) :
    match lastSetting platform items flag with
    | some v => v = .ok (g.memory flag.value)
    | none => g.memory flag.value = f.memory flag.value := by
  induction items using List.reverseRecOn generalizing g with
  | nil =>
      obtain rfl := Option.some.inj h
      rfl
  | append_singleton items item ih =>
      obtain ⟨t, ht, happly⟩ := Transition.run_concat_eq_some.1 h
      have hrest := ih (fun i hi => hitems i (List.mem_append_left _ hi)) ht
      rw [lastSetting_concat]
      rcases apply_cases happly with ⟨hnone, rfl⟩ | ⟨other, v, hset, -, rfl⟩
      · rw [hnone]
        exact hrest
      · rw [hset]
        by_cases hother : other = flag
        · subst hother
          dsimp only
          rw [if_pos rfl]
          exact congrArg Except.ok (Function.update_self other.value v t.memory).symm
        · have hmem : other ∈ flags := hitems item List.mem_concat_self _ hset
          have hne : flag.value ≠ other.value := fun heq =>
            hother (List.inj_on_of_nodup_map hvalues hflag hmem heq).symm
          have hsame : (store t other v).memory flag.value = t.memory flag.value :=
            Function.update_of_ne hne _ _
          dsimp only
          rw [if_neg hother, hsame]
          exact hrest

/-- An item of a command line sets a flag of the table. -/
theorem Splits.setting_mem (h : Splits platform flags items args) :
    ∀ item ∈ items, ∀ s ∈ item.setting platform, s.1 ∈ flags := by
  induction h with
  | nil => exact fun item hitem => absurd hitem List.not_mem_nil
  | positional _ _ ih => exact List.forall_mem_cons.2 ⟨by rintro _ ⟨⟩, ih⟩
  | bare hname _ _ _ _ ih => exact List.forall_mem_cons.2 ⟨by rintro _ ⟨⟩; exact hname.2.1, ih⟩
  | valued hname _ _ _ ih => exact List.forall_mem_cons.2 ⟨by rintro _ ⟨⟩; exact hname.2.1, ih⟩
  | assigned hname _ _ ih => exact List.forall_mem_cons.2 ⟨by rintro _ ⟨⟩; exact hname.2.1, ih⟩

/-- **The meaning of a command line:** when the first `Parse` returns, the command line splits into
items in exactly one way.  The positional arguments are those of the items, in order, and the
variable of every flag holds what the last item for the flag gives it, or else its default. -/
theorem parse_meaning (platform : Platform F D) {registrations : List (Registration F D)}
    (hnames : (registrations.map Registration.name).Nodup)
    (hvalues : (registrations.map Registration.pvalue).Nodup) {programName program : Bytes}
    {memory : ℕ → Value F D}
    (h : parse platform (registered programName memory registrations) (program :: args) =
      .returned g) :
    ∃ items, Splits platform (table registrations) items args ∧
      (∀ items', Splits platform (table registrations) items' args → items' = items) ∧
      g.positionalArgs = items.filterMap Item.positionalArg ∧
      ∀ r ∈ registrations,
        match lastSetting platform items r.info with
        | some v => v = .ok (g.memory r.pvalue)
        | none => g.memory r.pvalue = r.defaultValue := by
  obtain ⟨hflags, hparsed, hargs, hmemory⟩ :=
    registered_spec programName memory hvalues
  obtain ⟨items, t, hsplits, hrun, rfl⟩ := parseArgs_splits (parseArgs_of_parse hparsed h)
  have htable : (named (registered programName memory registrations) program).flags =
      table registrations := hflags
  rw [htable] at hsplits
  have hnodup : ((table registrations).map FlagInfo.name).Nodup := by
    rw [table, List.map_map]
    exact hnames
  have haddresses : ((table registrations).map FlagInfo.value).Nodup := by
    rw [table, List.map_map]
    exact hvalues
  refine ⟨items, hsplits, fun items' h' => h'.unique hnodup hsplits, ?_, fun r hr => ?_⟩
  · have hpositional := run_positionalArgs hrun
    rw [show (named (registered programName memory registrations) program).positionalArgs = []
      from hargs, List.nil_append] at hpositional
    exact hpositional
  · have hlast := run_memory haddresses hsplits.setting_mem (List.mem_map_of_mem hr) hrun
    rw [show (named (registered programName memory registrations) program).memory r.info.value =
      r.defaultValue from hmemory r hr] at hlast
    exact hlast

/-- `Bool(&b, "b", false, "")` and `Int(&n, "n", 7, "")`. -/
def sampleRegistrations : List (Registration Unit Unit) :=
  [⟨1, ascii "b", .bool false⟩, ⟨2, ascii "n", .int 7⟩]

/-- `prog x -b --n -5 y -n 3`. -/
theorem parse_meaning_sample :
    ∃ g, parse noFloats (registered [] (fun _ => .bool true) sampleRegistrations)
        (["prog", "x", "-b", "--n", "-5", "y", "-n", "3"].map ascii) = .returned g ∧
      g.memory 2 = .int 3 ∧
      ∃ items, Splits noFloats (table sampleRegistrations) items
          (["x", "-b", "--n", "-5", "y", "-n", "3"].map ascii) ∧
        g.positionalArgs = items.filterMap Item.positionalArg := by
  obtain ⟨g, hg, hn⟩ : ∃ g, parse noFloats
      (registered [] (fun _ => .bool true) sampleRegistrations)
        (["prog", "x", "-b", "--n", "-5", "y", "-n", "3"].map ascii) = .returned g ∧
      g.memory 2 = .int 3 := ⟨_, rfl, by decide +kernel⟩
  have hvalues : (sampleRegistrations.map Registration.pvalue).Nodup := by decide +kernel
  have hnames : (sampleRegistrations.map Registration.name).Nodup := by decide +kernel
  obtain ⟨items, hsplits, -, hpositional, -⟩ := parse_meaning noFloats hnames hvalues hg
  exact ⟨g, hg, hn, items, hsplits, hpositional⟩

end Flag

end Flags
end BreUtils
