/-
# The configuration behind `IniConfigLoad::Inst`

`Inst` holds a static instance, and means to load it in the first call.  The flag that it
gives to `std::call_once` is a local variable, though, so that every call has one of its
own, and every call loads: what the instance holds after a run of calls is what all their
files assign, one after the other (`insts_eq`).

A configuration is left as it is by a file that assigns nothing else
(`loadConfig_eq_self_iff`).  So a run holds what the first call loaded exactly if no later
file says otherwise (`insts_iff`).
-/

import BreUtils.Config.IniConfigLoad

namespace BreUtils
namespace Config

open Lib Cpp

/-- `std::once_flag`: whether a call with it has returned. -/
structure OnceFlag where
  called : Bool := false

/-- `std::call_once`, on what the callable changes. -/
def callOnce {S : Type*} (flag : OnceFlag) (f : S → S) (s : S) : OnceFlag × S :=
  if flag.called then (flag, s) else (⟨true⟩, f s)

namespace IniConfigLoad

/-- A call of `Inst`: its argument, and the files as they are then. -/
structure InstCall where
  filePath : Bytes
  files : Bytes → Option Bytes

/-- The file that a call names, if it can be opened. -/
def InstCall.file (call : InstCall) : Option Bytes := call.files call.filePath

/-- `Inst`.  There is no instance before the first call. -/
def inst (instance? : Option IniConfigLoad) (call : InstCall) : Option IniConfigLoad :=
  let flag : OnceFlag := {}
  let config := instance?.getD {}
  some (callOnce flag (fun config => (config.loadConfig call.file).2) config).2

/-- The instance behind calls of `Inst`. -/
def insts (calls : List InstCall) : Option IniConfigLoad := calls.foldl inst none

theorem inst_eq (instance? : Option IniConfigLoad) (call : InstCall) :
    inst instance? call = some ((instance?.getD {}).assignAll (assigned call.file)) := by
  rw [← loadConfig_eq]
  rfl

theorem assignAll_append (config : IniConfigLoad) (as bs : List Assignment) :
    config.assignAll (as ++ bs) = (config.assignAll as).assignAll bs := List.foldl_append

/-- **Every call loads.**  The instance holds what the files of all calls assign. -/
theorem insts_eq (calls : List InstCall) (h : calls ≠ []) :
    insts calls = some (({} : IniConfigLoad).assignAll
      (calls.flatMap fun call => assigned call.file)) := by
  induction calls using List.reverseRecOn with
  | nil => exact absurd rfl h
  | append_singleton calls call ih =>
      rw [insts, List.foldl_append, List.foldl_cons, List.foldl_nil, ← insts, inst_eq,
        List.flatMap_append, assignAll_append]
      by_cases hcalls : calls = []
      · subst hcalls
        simp [insts, assignAll]
      · simp [ih hcalls]

/-- **A file that changes nothing.**  It assigns, in the end, only what is there. -/
theorem loadConfig_eq_self_iff {config : IniConfigLoad} (h : Canonical config)
    (file : Option Bytes) :
    (config.loadConfig file).2 = config ↔ ∀ name key v,
      lastValue (assigned file) name key = some v → config.value name key = some v := by
  rw [loadConfig_eq]
  constructor
  · intro hself name key v hv
    rw [← hself, value_assignAll, hv, Option.some_or]
  · intro hvalues
    refine (h.assignAll _).ext_value h fun name key => ?_
    rw [value_assignAll]
    cases hv : lastValue (assigned file) name key with
    | none => exact Option.none_or
    | some v => rw [Option.some_or, hvalues name key v hv]

/-- Whatever key the file of a call assigns, it gives the value in the end that the file of the
first call gave it. -/
def Repeats (first call : InstCall) : Prop :=
  ∀ name key v, lastValue (assigned call.file) name key = some v →
    lastValue (assigned first.file) name key = some v

/-- A later call leaves the instance as the first one made it. -/
theorem inst_eq_self_iff (first call : InstCall) :
    inst (some (({} : IniConfigLoad).loadConfig first.file).2) call =
      some (({} : IniConfigLoad).loadConfig first.file).2 ↔ Repeats first call := by
  have hcanonical : Canonical (({} : IniConfigLoad).loadConfig first.file).2 := by
    rw [loadConfig_eq]
    exact Canonical.empty.assignAll _
  have hvalue (name key : Bytes) : (({} : IniConfigLoad).loadConfig first.file).2.value name key =
      lastValue (assigned first.file) name key := by
    rw [loadConfig_eq, value_assignAll]
    exact Option.or_none
  rw [inst_eq, Option.getD_some, ← loadConfig_eq, Option.some_inj,
    loadConfig_eq_self_iff hcanonical]
  simp only [hvalue]
  exact Iff.rfl

/-- **The first call decides as long as the files agree.**  After each call of a run the instance
is the one that `loadConfig` made of the first file, if and only if every later file gives each
key that it assigns the value that the first file gave it. -/
theorem insts_iff (first : InstCall) (calls : List InstCall) :
    (∀ done, done <+: calls →
        insts (first :: done) = some (({} : IniConfigLoad).loadConfig first.file).2) ↔
      ∀ call ∈ calls, Repeats first call := by
  induction calls using List.reverseRecOn with
  | nil =>
      have hfirst : insts [first] = some (({} : IniConfigLoad).loadConfig first.file).2 := rfl
      simp [hfirst]
  | append_singleton calls call ih =>
      have hconcat : insts (first :: (calls ++ [call])) = inst (insts (first :: calls)) call := by
        rw [insts, ← List.cons_append, List.foldl_append]
        rfl
      rw [List.forall_mem_append, List.forall_mem_singleton]
      constructor
      · intro h
        have hcalls := h calls (List.prefix_append calls [call])
        have hall := h _ (List.prefix_refl _)
        rw [hconcat, hcalls, inst_eq_self_iff] at hall
        exact ⟨ih.1 fun done hdone => h done (hdone.trans (List.prefix_append calls [call])), hall⟩
      · rintro ⟨hcalls, hcall⟩ done hdone
        rcases List.prefix_concat_iff.1 hdone with rfl | hdone
        · rw [hconcat, ih.2 hcalls calls (List.prefix_refl _), inst_eq_self_iff]
          exact hcall
        · exact ih.2 hcalls done hdone

/-- Two files that give a key different values. -/
def twoFiles (filePath : Bytes) : Option Bytes :=
  if filePath = ascii "a" then some (ascii "k=1") else some (ascii "k=2")

/-- The second call loads its file over the first. -/
theorem insts_reloads :
    ¬ ∀ (first : InstCall) (calls : List InstCall), ∀ done, done <+: calls →
      insts (first :: done) = some (({} : IniConfigLoad).loadConfig first.file).2 := by
  intro h
  have hcalls := h ⟨ascii "a", twoFiles⟩ [⟨ascii "b", twoFiles⟩] _ (List.prefix_refl _)
  exact absurd hcalls (by decide)

end IniConfigLoad

end Config
end BreUtils
