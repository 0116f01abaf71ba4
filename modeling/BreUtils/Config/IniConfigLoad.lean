/-
# The configuration of `configLoad/iniConfigLoad.hpp`

`loadConfig` reads a file line by line.  It cuts each line at the first `;`, trims it,
and then takes it for a section or for an assignment, or passes over it; an assignment
goes to the section named last.  A configuration maps sections to maps of keys; both are
kept as in `BreUtils.Lib.AssocMap`, so that equal maps are equal.

What a line says (`statement`) does not depend on the lines before it, so a file is a
list of assignments (`assignments`), and to load it is to carry them out one after the
other (`loadConfig_eq`).  A configuration is known when the value of every key of every
section is (`IniConfigLoad.ext_value`): no section is empty.
-/

import BreUtils.Cpp.Text
import BreUtils.Lib.AssocMap

namespace BreUtils
namespace Config

open Lib Cpp

/-! ### Texts -/

/-- `" \t\n\r"`. -/
def isBlank (c : UInt8) : Bool := c == ch ' ' || c == 0x09 || c == 0x0A || c == 0x0D

/-- `find_first_not_of(" \t\n\r")`.  `none` stands for `npos`. -/
def findFirstNotOf (s : Bytes) : Option ℕ := s.findIdx? fun c => !isBlank c

/-- `find_last_not_of(" \t\n\r")`. -/
def findLastNotOf (s : Bytes) : Option ℕ :=
  (s.reverse.findIdx? fun c => !isBlank c).map fun i => s.length - 1 - i

/-- `s.erase(0, s.find_first_not_of(...))`. -/
def eraseFront (s : Bytes) : Bytes :=
  match findFirstNotOf s with
  | some n => s.drop n
  | none => []

/-- `s.erase(s.find_last_not_of(...) + 1)`; `npos + 1` is `0`. -/
def eraseBack (s : Bytes) : Bytes :=
  match findLastNotOf s with
  | some n => s.take (n + 1)
  | none => []

/-- "Trim whitespace". -/
def trim (s : Bytes) : Bytes := eraseBack (eraseFront s)

/-- What `std::getline` reads off a file until it fails.  Behind the last newline it fails at
once. -/
def getlines : Bytes → List Bytes
  | [] => []
  | c :: file =>
      if c = 0x0A then [] :: getlines file
      else
        match getlines file with
        | [] => [[c]]
        | line :: lines => (c :: line) :: lines

/-! ### The maps -/

/-- `iniSectionInfo`. -/
structure IniSectionInfo where
  sectionDatas : List (Bytes × Bytes) := []
  deriving DecidableEq, Repr

/-- `IniConfigLoad`. -/
structure IniConfigLoad where
  configMap : List (Bytes × IniSectionInfo) := []
  deriving DecidableEq, Repr

namespace IniSectionInfo

/-- `iniSectionInfo::operator[]`. -/
def get (info : IniSectionInfo) (key : Bytes) : Bytes := (info.sectionDatas.lookup key).getD []

/-- `iniSectionInfo::GetValue`. -/
def getValue (info : IniSectionInfo) (key : Bytes) : Bytes :=
  (info.sectionDatas.lookup key).getD []

end IniSectionInfo

namespace IniConfigLoad

/-- `IniConfigLoad::operator[]`. -/
def get (config : IniConfigLoad) (name : Bytes) : IniSectionInfo :=
  (config.configMap.lookup name).getD {}

/-- `IniConfigLoad::GetValue`. -/
def getValue (config : IniConfigLoad) (name key : Bytes) : Bytes :=
  match config.configMap.lookup name with
  | none => []
  | some info => info.getValue key

/-- `_config_map[name]._section_datas[key] = value`. -/
def assign (config : IniConfigLoad) (name key value : Bytes) : IniConfigLoad :=
  let info := (config.configMap.lookup name).getD {}
  ⟨AssocMap.assign config.configMap name ⟨AssocMap.assign info.sectionDatas key value⟩⟩

/-! ### `loadConfig` -/

/-- What a line says. -/
inductive Statement where
  | nothing
  | header (name : Bytes)
  | assignment (key value : Bytes)
  deriving DecidableEq, Repr

/-- "Remove comments". -/
def cutComment (line : Bytes) : Bytes :=
  match line.findIdx? (· == ch ';') with
  | some commentPos => line.take commentPos
  | none => line

/-- The body of the loop of `loadConfig`, up to its effect. -/
def statement (line : Bytes) : Statement :=
  let line := trim (cutComment line)
  if line = [] then .nothing
  else if line.head? = some (ch '[') ∧ line.getLast? = some (ch ']') then
    .header ((line.drop 1).take (line.length - 2))
  else
    match line.findIdx? (· == ch '=') with
    | some equalPos => .assignment (trim (line.take equalPos)) (trim (line.drop (equalPos + 1)))
    | none => .nothing

/-- `current_section`, and the configuration. -/
structure Loading where
  currentSection : Bytes
  config : IniConfigLoad
  deriving DecidableEq, Repr

/-- The body of the loop of `loadConfig`. -/
def loadLine (s : Loading) (line : Bytes) : Loading :=
  match statement line with
  | .nothing => s
  | .header name => { s with currentSection := name }
  | .assignment key value => { s with config := s.config.assign s.currentSection key value }

/-- `loadConfig`, and what it returns.  `file` is the content of the file, if it can be opened. -/
def loadConfig (config : IniConfigLoad) (file : Option Bytes) : Bool × IniConfigLoad :=
  match file with
  | none => (false, config)
  | some content => (true, ((getlines content).foldl loadLine ⟨[], config⟩).config)

/-! ### A file is a list of assignments -/

/-- An assignment to a key of a section. -/
structure Assignment where
  name : Bytes
  key : Bytes
  value : Bytes
  deriving DecidableEq, Repr

/-- What the lines assign, behind a line that opens the section `current`. -/
def assignments (current : Bytes) : List Bytes → List Assignment
  | [] => []
  | line :: lines =>
      match statement line with
      | .nothing => assignments current lines
      | .header name => assignments name lines
      | .assignment key value => ⟨current, key, value⟩ :: assignments current lines

/-- What a file assigns. -/
def assigned (file : Option Bytes) : List Assignment :=
  match file with
  | none => []
  | some content => assignments [] (getlines content)

/-- The value that a key of a section is given last. -/
def lastValue (as : List Assignment) (name key : Bytes) : Option Bytes :=
  (as.reverse.find? fun a => a.name = name ∧ a.key = key).map Assignment.value

/-- The assignments are carried out. -/
def assignAll (config : IniConfigLoad) (as : List Assignment) : IniConfigLoad :=
  as.foldl (fun config a => config.assign a.name a.key a.value) config

theorem foldl_loadLine (lines : List Bytes) (s : Loading) :
    (lines.foldl loadLine s).config =
      s.config.assignAll (assignments s.currentSection lines) := by
  induction lines generalizing s with
  | nil => rfl
  | cons line lines ih =>
      rw [List.foldl_cons, ih, loadLine, assignments]
      cases statement line with
      | nothing => rfl
      | header name => rfl
      | assignment key value => rfl

/-- **To load a file is to carry out its assignments.** -/
theorem loadConfig_eq (config : IniConfigLoad) (file : Option Bytes) :
    (config.loadConfig file).2 = config.assignAll (assigned file) := by
  cases file with
  | none => rfl
  | some content => exact foldl_loadLine _ _

/-! ### The value of every key -/

/-- The value of a key of a section, if it has one. -/
def value (config : IniConfigLoad) (name key : Bytes) : Option Bytes :=
  (config.configMap.lookup name).bind fun info => info.sectionDatas.lookup key

/-- A missing key reads as the empty string. -/
theorem getValue_eq (config : IniConfigLoad) (name key : Bytes) :
    config.getValue name key = (config.value name key).getD [] := by
  unfold getValue value
  cases config.configMap.lookup name with
  | none => rfl
  | some info => rfl

/-- **Both look-ups agree.** -/
theorem get_get (config : IniConfigLoad) (name key : Bytes) :
    (config.get name).get key = config.getValue name key := by
  unfold get getValue
  cases config.configMap.lookup name with
  | none => rfl
  | some info => rfl

theorem value_assign (config : IniConfigLoad) (name key v : Bytes) (name' key' : Bytes) :
    (config.assign name key v).value name' key' =
      if name' = name ∧ key' = key then some v else config.value name' key' := by
  unfold value assign
  rw [AssocMap.lookup_assign]
  by_cases hname : name' = name
  · subst hname
    rw [if_pos rfl, Option.bind_some, AssocMap.lookup_assign]
    cases config.configMap.lookup name' with
    | none => simp
    | some info => simp
  · simp [hname]

theorem value_assignAll (config : IniConfigLoad) (as : List Assignment) (name key : Bytes) :
    (config.assignAll as).value name key = (lastValue as name key).or (config.value name key) := by
  induction as using List.reverseRecOn with
  | nil => rfl
  | append_singleton as a ih =>
      have hlast : lastValue (as ++ [a]) name key =
          if name = a.name ∧ key = a.key then some a.value else lastValue as name key := by
        unfold lastValue
        rw [List.reverse_append, List.reverse_singleton, List.singleton_append, List.find?_cons]
        by_cases ha : a.name = name ∧ a.key = key
        · obtain ⟨rfl, rfl⟩ := ha
          simp
        · rw [if_neg fun h => ha ⟨h.1.symm, h.2.symm⟩]
          simp [ha]
      rw [assignAll, List.foldl_append, List.foldl_cons, List.foldl_nil, value_assign, hlast]
      split_ifs
      · rfl
      · exact ih

/-! ### Canonical configurations -/

/-- The maps are in order, and no section is empty. -/
structure Canonical (config : IniConfigLoad) : Prop where
  sections : AssocMap.Sorted config.configMap
  keys : ∀ e ∈ config.configMap, AssocMap.Sorted e.2.sectionDatas ∧ e.2.sectionDatas ≠ []

theorem Canonical.empty : Canonical {} := ⟨List.Pairwise.nil, by simp⟩

theorem assign_ne_nil (m : List (Bytes × Bytes)) (key v : Bytes) :
    AssocMap.assign m key v ≠ [] := by
  intro hnil
  have hlookup := AssocMap.lookup_assign m key v key
  rw [hnil, if_pos rfl] at hlookup
  exact absurd hlookup (by simp)

theorem Canonical.assign {config : IniConfigLoad} (h : Canonical config) (name key v : Bytes) :
    Canonical (config.assign name key v) := by
  refine ⟨h.sections.assign _ _, fun e he => ?_⟩
  rcases AssocMap.mem_assign he with rfl | he
  · refine ⟨AssocMap.Sorted.assign ?_ _ _, assign_ne_nil _ _ _⟩
    cases hinfo : config.configMap.lookup name with
    | none => exact List.Pairwise.nil
    | some info => exact (h.keys _ (AssocMap.mem_of_lookup hinfo)).1
  · exact h.keys e he

theorem Canonical.assignAll {config : IniConfigLoad} (h : Canonical config)
    (as : List Assignment) : Canonical (config.assignAll as) := by
  induction as generalizing config with
  | nil => exact h
  | cons a as ih => exact ih (h.assign _ _ _)

/-- A section that is there has a key. -/
theorem Canonical.exists_value {config : IniConfigLoad} (h : Canonical config) {name : Bytes}
    {info : IniSectionInfo} (hinfo : config.configMap.lookup name = some info) :
    ∃ key v, config.value name key = some v := by
  obtain ⟨⟨key, v⟩, rest, hdatas⟩ :=
    List.exists_cons_of_ne_nil (h.keys _ (AssocMap.mem_of_lookup hinfo)).2
  refine ⟨key, v, ?_⟩
  rw [value, hinfo, Option.bind_some, hdatas, AssocMap.lookup_cons, if_pos rfl]

/-- **A configuration is known by the values of its keys.** -/
theorem Canonical.ext_value {c d : IniConfigLoad} (hc : Canonical c) (hd : Canonical d)
    (h : ∀ name key, c.value name key = d.value name key) : c = d := by
  have hmaps : c.configMap = d.configMap := by
    refine hc.sections.ext hd.sections fun name => ?_
    cases hinfo : c.configMap.lookup name with
    | none =>
        cases hinfo' : d.configMap.lookup name with
        | none => rfl
        | some info' =>
            obtain ⟨key, v, hv⟩ := hd.exists_value hinfo'
            rw [← h, value, hinfo] at hv
            exact absurd hv (by simp)
    | some info =>
        cases hinfo' : d.configMap.lookup name with
        | none =>
            obtain ⟨key, v, hv⟩ := hc.exists_value hinfo
            rw [h, value, hinfo'] at hv
            exact absurd hv (by simp)
        | some info' =>
            have hdatas : info.sectionDatas = info'.sectionDatas := by
              refine (hc.keys _ (AssocMap.mem_of_lookup hinfo)).1.ext
                (hd.keys _ (AssocMap.mem_of_lookup hinfo')).1 fun key => ?_
              have hkey := h name key
              rwa [value, value, hinfo, hinfo'] at hkey
            obtain ⟨datas⟩ := info
            obtain ⟨datas'⟩ := info'
            exact congrArg (fun m => some (IniSectionInfo.mk m)) hdatas
  obtain ⟨cm⟩ := c
  obtain ⟨dm⟩ := d
  exact congrArg IniConfigLoad.mk hmaps

end IniConfigLoad

end Config
end BreUtils
