/-
# `bre::IdGenerator`

The accessor of the shared `SnowWorker`.  The `once_flag` of `instance` is a local variable: it is
clear in every call, and `call_once` runs its function in every call.  So each `Next` gets the first
id of a fresh worker (`next_eq`), whatever the worker before it had reached.  Ids are distinct
exactly when the milliseconds are (`ids_nodup_iff`): in a burst they are all the same.
-/

import BreUtils.Uuid.SnowWorker
import Mathlib.Data.List.Nodup

namespace BreUtils
namespace Uuid

/-- `IdGenerator`: `_worker` is null until `instance` has set it. -/
structure IdGenerator where
  worker : Option SnowWorker := none
  deriving DecidableEq

/-- How a call fails: with the exception of the constructor of `SnowWorker`, or at a null
`_worker`. -/
inductive Failure where
  | invalidArgument (what : String)
  | nullWorker
  deriving DecidableEq

/-- What the clock shows in one call of `Next`: to `setOptions`, and to `SnowWorker::Next`. -/
structure Readings where
  options : Int64
  tick : Int64
  deriving DecidableEq

namespace IdGenerator

/-- `std::call_once` on `flag`; the flag afterwards and the state that `f` leaves. -/
def callOnce (flag : Bool) (f : IdGenerator → Except Failure IdGenerator) (g : IdGenerator) :
    Except Failure (Bool × IdGenerator) :=
  if flag then .ok (true, g) else (f g).map fun g => (true, g)

/-- The function that `instance` gives to `call_once`. -/
def makeWorker (now : Int64) (g : IdGenerator) : Except Failure IdGenerator :=
  let options : IdGenOptions := {}
  match SnowWorker.construct options now with
  | .ok w => .ok { g with worker := some w }
  | .error what => .error (.invalidArgument what)

/-- `instance`: the flag is declared in the function, so no call sees the one of the call before. -/
def instance' (g : IdGenerator) (now : Int64) : Except Failure IdGenerator := do
  let flag := false
  let (_, g) ← callOnce flag (makeWorker now) g
  return g

/-- `Next`. -/
def next (g : IdGenerator) (r : Readings) : Except Failure (Int64 × IdGenerator) := do
  let g ← g.instance' r.options
  match g.worker with
  | none => throw .nullWorker
  | some w =>
      let (id, w) := w.next r.tick
      return (id, { g with worker := some w })

/-- The ids that calls of `Next` return, one after the other.  A call that throws returns none and
leaves the worker as it is. -/
def ids (g : IdGenerator) : List Readings → List Int64
  | [] => []
  | r :: calls =>
      match g.next r with
      | .ok (id, g) => id :: ids g calls
      | .error _ => ids g calls

/-! ### Every call makes a worker -/

/-- The worker that the default options make. -/
def fresh : SnowWorker where
  baseTime := 631123200000
  seqBitLength := 8
  maxSeqNumber := 20
  minSeqNumber := 5
  lastTimeTick := 0
  currentSeqNumber := 5

/-- The default options are accepted from `BaseTime` on.  The comparison is one of unsigned
numbers. -/
def Accepted (r : Readings) : Prop :=
  (631123200000 : UInt64) ≤ r.options.toUInt64

instance (r : Readings) : Decidable (Accepted r) :=
  inferInstanceAs (Decidable (_ ≤ _))

theorem construct_default (now : Int64) :
    SnowWorker.construct {} now =
      if (631123200000 : UInt64) ≤ now.toUInt64 then .ok fresh else .error "BaseTime error." := by
  have hnow : ((({} : SnowWorker).getCurrentTimeTick now).toUInt64 + ({} : SnowWorker).baseTime) =
      now.toUInt64 := by
    simp [SnowWorker.getCurrentTimeTick]
  rw [SnowWorker.construct, SnowWorker.setOptions, hnow]
  by_cases h : (631123200000 : UInt64) ≤ now.toUInt64
  · have hlt : ¬ now.toUInt64 < (631123200000 : UInt64) := UInt64.not_lt.2 h
    simp only [gt_iff_lt, hlt, h, or_false, if_true]
    rfl
  · have hlt : now.toUInt64 < (631123200000 : UInt64) := UInt64.not_le.1 h
    simp only [gt_iff_lt, hlt, h, or_true, if_true, if_false]
    rfl

/-- **Each call starts a worker of its own**: what the generator held before is lost. -/
theorem next_eq (g : IdGenerator) (r : Readings) :
    g.next r =
      if Accepted r then .ok ((fresh.next r.tick).1, ⟨some (fresh.next r.tick).2⟩)
      else .error (.invalidArgument "BaseTime error.") := by
  rw [next, instance', callOnce, makeWorker, construct_default]
  by_cases h : Accepted r
  · rw [if_pos h, if_pos (show (631123200000 : UInt64) ≤ r.options.toUInt64 from h)]
    rfl
  · rw [if_neg h, if_neg (show ¬ (631123200000 : UInt64) ≤ r.options.toUInt64 from h)]
    rfl

theorem ids_eq (g : IdGenerator) (calls : List Readings) :
    g.ids calls = (calls.filter Accepted).map fun r => (fresh.next r.tick).1 := by
  induction calls generalizing g with
  | nil => rfl
  | cons r calls ih =>
      rw [ids, next_eq]
      by_cases h : Accepted r
      · rw [if_pos h, List.filter_cons_of_pos (by simpa using h), List.map_cons]
        exact congrArg _ (ih _)
      · rw [if_neg h, List.filter_cons_of_neg (by simpa using h)]
        exact ih g

/-! ### The first id of a worker -/

/-- The millisecond that a call of `Next` puts into its id: readings up to `BaseTime` count as
`BaseTime`, and 56 bits are kept. -/
def millisecond (r : Readings) : ℕ :=
  (r.tick - 631123200000).toInt.toNat % 2 ^ 56

theorem fresh_inv : fresh.Inv := by
  constructor <;> decide

theorem toNat_fresh_next (r : Readings) :
    (fresh.next r.tick).1.toUInt64.toNat = millisecond r * 2 ^ 8 + 5 := by
  set tick := fresh.getCurrentTimeTick r.tick with htick
  obtain ⟨hinv, hseq⟩ := fresh_inv.advance tick
  obtain ⟨-, hbits, -, -⟩ := SnowWorker.advance_sameOptions fresh tick
  have hid := hinv.toNat_id hseq
  rw [hbits] at hid
  have hfields : (fresh.advance tick).lastTimeTick.toUInt64.toNat = tick.toInt.toNat ∧
      (fresh.advance tick).currentSeqNumber = 5 := by
    rcases SnowWorker.advance_cases fresh tick with ⟨hlt, h⟩ | ⟨hlt, -⟩ | ⟨-, h⟩
    · have hnonneg : 0 ≤ tick.toInt := hlt.le
      have := SnowWorker.toNat_eq_toInt hnonneg
      rw [h]
      exact ⟨show tick.toUInt64.toNat = _ by omega, rfl⟩
    · exact absurd hlt (by decide)
    · have hle : tick.toInt ≤ 0 := by
        by_contra hpos
        have hadv : fresh.advance tick =
            { fresh with lastTimeTick := tick, currentSeqNumber := fresh.minSeqNumber } :=
          if_pos (Int64.lt_iff_toInt_lt.2 (not_le.1 hpos))
        have heq : tick = 0 := congrArg SnowWorker.lastTimeTick (hadv.symm.trans h)
        exact hpos (by rw [heq]; decide)
      rw [h, Int.toNat_of_nonpos hle]
      exact ⟨rfl, rfl⟩
  rw [hfields.1, hfields.2] at hid
  exact hid

/-- **Ids are pairwise distinct exactly when the milliseconds are** that the returning calls
read. -/
theorem ids_nodup_iff (calls : List Readings) :
    (ids {} calls).Nodup ↔ ((calls.filter Accepted).map millisecond).Nodup := by
  have heq (r r' : Readings) : (fresh.next r.tick).1 ≠ (fresh.next r'.tick).1 ↔
      millisecond r ≠ millisecond r' := by
    have hr := toNat_fresh_next r
    have hr' := toNat_fresh_next r'
    refine not_congr ⟨fun h => ?_, fun h => ?_⟩
    · rw [h] at hr
      omega
    · rw [h, ← hr'] at hr
      exact congrArg UInt64.toInt64 (UInt64.toNat_inj.1 hr)
  rw [ids_eq, List.Nodup, List.Nodup, List.pairwise_map, List.pairwise_map]
  exact List.Pairwise.iff heq

/-- The clock does not go back, within a call and from one call to the next. -/
def Nondecreasing (calls : List Readings) : Prop :=
  (calls.flatMap fun r => [r.options, r.tick]).Pairwise (· ≤ ·)

instance (calls : List Readings) : Decidable (Nondecreasing calls) :=
  inferInstanceAs (Decidable (List.Pairwise _ _))

/-- Two calls in one millisecond return one id. -/
theorem ids_burst : ¬ ∀ calls : List Readings, Nondecreasing calls → (ids {} calls).Nodup := by
  intro h
  exact absurd (h [⟨1700000000000, 1700000000000⟩, ⟨1700000000000, 1700000000000⟩] (by decide))
    (by decide)

end IdGenerator

end Uuid
end BreUtils
