/-
# `bre::SnowWorker`

The id generator of `uuid/uuid.hpp`: an id is the last tick, in milliseconds since
`BaseTime`, shifted left by `SeqBitLength` bits, or a sequence number.  A call of
`Next` takes over the clock when it has moved on; when it has not, and the sequence
numbers of the tick are used up, it borrows the next tick.  The sequence number
rests between `MinSeqNumber` and one above the maximum (`Inv`), and what is used in
an id is at most the maximum (`Inv.advance`): the two fields never mix, and ids
increase with the pair of tick and sequence number, whatever the clock does.

The mutex makes one call of `Next` one step.  The clock is a reading for each call.
-/

import Mathlib.Data.Nat.Bitwise
import Mathlib.Order.Monotone.Basic

namespace BreUtils
namespace Uuid

/-- `IdGenOptions`, with its defaults. -/
structure IdGenOptions where
  baseTime : UInt64 := 631123200000
  seqBitLength : UInt8 := 8
  maxSeqNumber : UInt8 := 20
  minSeqNumber : UInt8 := 5
  deriving DecidableEq

/-- `SnowWorker`, its members zero before the constructor sets them. -/
structure SnowWorker where
  baseTime : UInt64 := 0
  seqBitLength : UInt8 := 0
  maxSeqNumber : UInt32 := 0
  minSeqNumber : UInt32 := 0
  lastTimeTick : Int64 := 0
  currentSeqNumber : UInt32 := 0
  deriving DecidableEq

namespace SnowWorker

/-- `getCurrentTimeTick`, with the milliseconds since the epoch that the clock shows. -/
def getCurrentTimeTick (w : SnowWorker) (now : Int64) : Int64 := now - w.baseTime.toInt64

/-- `setOptions`; the error is the message of the `std::invalid_argument`. -/
def setOptions (w : SnowWorker) (options : IdGenOptions) (now : Int64) :
    Except String SnowWorker := do
  if options.baseTime < 631123200000 ∨
      options.baseTime > (w.getCurrentTimeTick now).toUInt64 + w.baseTime then
    throw "BaseTime error."
  let w := { w with baseTime := options.baseTime }
  if options.seqBitLength < 2 ∨ options.seqBitLength > 21 then
    throw "SeqBitLength error. (range:[2, 21])"
  let w := { w with seqBitLength := options.seqBitLength }
  let maxSeqNumber : UInt32 := ((1 : UInt32) <<< options.seqBitLength.toUInt32) - 1
  if options.maxSeqNumber.toUInt32 > maxSeqNumber then
    throw ("SeqBitLength: " ++ toString options.seqBitLength ++ ", 但是你的maxSeqNumber: " ++
      toString maxSeqNumber ++ " 超过了")
  let w := { w with
    maxSeqNumber := if options.maxSeqNumber = 0 then maxSeqNumber
      else options.maxSeqNumber.toUInt32 }
  if options.minSeqNumber < 5 ∨ options.minSeqNumber.toUInt32 > w.maxSeqNumber then
    throw "MinSeqNumber error."
  let w := { w with minSeqNumber := options.minSeqNumber.toUInt32 }
  return { w with lastTimeTick := 0, currentSeqNumber := w.minSeqNumber }

/-- `SnowWorker(options)`. -/
def construct (options : IdGenOptions) (now : Int64) : Except String SnowWorker :=
  setOptions {} options now

/-- The part of `Next` in front of `calculateId`. -/
def advance (w : SnowWorker) (currentTimeTick : Int64) : SnowWorker :=
  if currentTimeTick > w.lastTimeTick then
    { w with lastTimeTick := currentTimeTick, currentSeqNumber := w.minSeqNumber }
  else if w.currentSeqNumber > w.maxSeqNumber then
    { w with lastTimeTick := w.lastTimeTick + 1, currentSeqNumber := w.minSeqNumber }
  else w

/-- `calculateId`. -/
def calculateId (w : SnowWorker) : Int64 × SnowWorker :=
  let id := (w.lastTimeTick.toUInt64 <<< w.seqBitLength.toUInt64) ||| w.currentSeqNumber.toUInt64
  (id.toInt64, { w with currentSeqNumber := w.currentSeqNumber + 1 })

/-- `Next`. -/
def next (w : SnowWorker) (now : Int64) : Int64 × SnowWorker :=
  (w.advance (w.getCurrentTimeTick now)).calculateId

/-- The worker after `n` calls of `Next`, of which the `k`th sees `clock k`. -/
def run (w : SnowWorker) (clock : ℕ → Int64) : ℕ → SnowWorker
  | 0 => w
  | n + 1 => ((run w clock n).next (clock n)).2

/-- The worker in the `n`th call, when `calculateId` is entered. -/
def used (w : SnowWorker) (clock : ℕ → Int64) (n : ℕ) : SnowWorker :=
  (w.run clock n).advance ((w.run clock n).getCurrentTimeTick (clock n))

/-- The id that the `n`th call returns. -/
def id (w : SnowWorker) (clock : ℕ → Int64) (n : ℕ) : Int64 :=
  ((w.run clock n).next (clock n)).1

/-! ### What `setOptions` accepts -/

/-- The effective `MaxSeqNumber`. -/
def effectiveMaxSeqNumber (options : IdGenOptions) : ℕ :=
  if options.maxSeqNumber = 0 then 2 ^ options.seqBitLength.toNat - 1
  else options.maxSeqNumber.toNat

theorem toNat_maxSeqNumber {b : UInt8} (h : b.toNat ≤ 21) :
    (((1 : UInt32) <<< b.toUInt32) - 1).toNat = 2 ^ b.toNat - 1 := by
  have hpow : 2 ^ b.toNat ≤ 2 ^ 21 := Nat.pow_le_pow_right (by omega) h
  have hpos := Nat.two_pow_pos b.toNat
  have hshift : ((1 : UInt32) <<< b.toUInt32).toNat = 2 ^ b.toNat := by
    rw [UInt32.toNat_shiftLeft, UInt8.toNat_toUInt32, UInt32.toNat_one, Nat.shiftLeft_eq, one_mul,
      Nat.mod_eq_of_lt (by omega : b.toNat < 32), Nat.mod_eq_of_lt (by omega)]
  rw [UInt32.toNat_sub_of_le _ _ (UInt32.le_iff_toNat_le.2 (by rw [hshift]; exact hpos)), hshift]
  rfl

/-- What the constructor makes of accepted options. -/
structure Constructed (options : IdGenOptions) (w : SnowWorker) : Prop where
  baseTime : w.baseTime = options.baseTime
  seqBitLength : w.seqBitLength = options.seqBitLength
  minSeqNumber : w.minSeqNumber.toNat = options.minSeqNumber.toNat
  maxSeqNumber : w.maxSeqNumber.toNat = effectiveMaxSeqNumber options
  lastTimeTick : w.lastTimeTick = 0
  currentSeqNumber : w.currentSeqNumber = w.minSeqNumber
  two_le_bits : 2 ≤ options.seqBitLength.toNat
  bits_le : options.seqBitLength.toNat ≤ 21
  min_le_max : options.minSeqNumber.toNat ≤ effectiveMaxSeqNumber options
  max_lt : effectiveMaxSeqNumber options < 2 ^ options.seqBitLength.toNat

theorem constructed_of_ok {options : IdGenOptions} {now : Int64} {w : SnowWorker}
    (h : construct options now = .ok w) : Constructed options w := by
  simp only [construct, setOptions, bind, Except.bind, throw, throwThe, MonadExceptOf.throw, pure,
    Except.pure] at h
  split_ifs at h with _ hbits hmax hzero hmin hmin
  all_goals
    obtain rfl := Except.ok.inj h
    simp only [not_or, UInt8.not_lt, gt_iff_lt, UInt32.not_lt, UInt8.le_iff_toNat_le,
      UInt32.le_iff_toNat_le, UInt8.toNat_toUInt32] at hbits hmax hmin
    have hbits₁ : 2 ≤ options.seqBitLength.toNat := hbits.1
    have hbits₂ : options.seqBitLength.toNat ≤ 21 := hbits.2
    have hpos := Nat.two_pow_pos options.seqBitLength.toNat
    rw [toNat_maxSeqNumber hbits₂] at hmax
  · have heff : effectiveMaxSeqNumber options = 2 ^ options.seqBitLength.toNat - 1 := if_pos hzero
    rw [toNat_maxSeqNumber hbits₂] at hmin
    exact ⟨rfl, rfl, rfl, (toNat_maxSeqNumber hbits₂).trans heff.symm, rfl, rfl, hbits₁, hbits₂,
      heff ▸ hmin.2, by omega⟩
  · have heff : effectiveMaxSeqNumber options = options.maxSeqNumber.toNat := if_neg hzero
    exact ⟨rfl, rfl, rfl, heff.symm, rfl, rfl, hbits₁, hbits₂, heff ▸ hmin.2, by omega⟩

/-! ### The invariant -/

/-- **The invariant**: the sequence number rests between the minimum and one above the maximum,
which fits its field. -/
structure Inv (w : SnowWorker) : Prop where
  two_le_bits : 2 ≤ w.seqBitLength.toNat
  bits_le : w.seqBitLength.toNat ≤ 21
  max_lt : w.maxSeqNumber.toNat < 2 ^ w.seqBitLength.toNat
  min_le_max : w.minSeqNumber.toNat ≤ w.maxSeqNumber.toNat
  min_le : w.minSeqNumber.toNat ≤ w.currentSeqNumber.toNat
  le_max : w.currentSeqNumber.toNat ≤ w.maxSeqNumber.toNat + 1

theorem Constructed.inv {options : IdGenOptions} {w : SnowWorker} (h : Constructed options w) :
    w.Inv where
  two_le_bits := h.seqBitLength ▸ h.two_le_bits
  bits_le := h.seqBitLength ▸ h.bits_le
  max_lt := by rw [h.maxSeqNumber, h.seqBitLength]; exact h.max_lt
  min_le_max := by rw [h.maxSeqNumber, h.minSeqNumber]; exact h.min_le_max
  min_le := by rw [h.currentSeqNumber]
  le_max := by
    have := h.min_le_max
    rw [h.currentSeqNumber, h.minSeqNumber, h.maxSeqNumber]
    omega

/-- What `advance` does: the clock has moved on, or the sequence numbers are used up and the next
tick is borrowed, or the tick goes on. -/
theorem advance_cases (w : SnowWorker) (tick : Int64) :
    (w.lastTimeTick.toInt < tick.toInt ∧ w.advance tick =
        { w with lastTimeTick := tick, currentSeqNumber := w.minSeqNumber }) ∨
      (w.maxSeqNumber.toNat < w.currentSeqNumber.toNat ∧ w.advance tick =
        { w with lastTimeTick := w.lastTimeTick + 1, currentSeqNumber := w.minSeqNumber }) ∨
      (w.currentSeqNumber.toNat ≤ w.maxSeqNumber.toNat ∧ w.advance tick = w) := by
  unfold advance
  split_ifs with htick hseq
  · exact Or.inl ⟨Int64.lt_iff_toInt_lt.1 htick, rfl⟩
  · exact Or.inr (Or.inl ⟨UInt32.lt_iff_toNat_lt.1 hseq, rfl⟩)
  · exact Or.inr (Or.inr ⟨UInt32.le_iff_toNat_le.1 (UInt32.not_lt.1 hseq), rfl⟩)

/-- The options of a worker: what no call changes. -/
def SameOptions (w w' : SnowWorker) : Prop :=
  w'.baseTime = w.baseTime ∧ w'.seqBitLength = w.seqBitLength ∧
    w'.maxSeqNumber = w.maxSeqNumber ∧ w'.minSeqNumber = w.minSeqNumber

theorem advance_sameOptions (w : SnowWorker) (tick : Int64) : SameOptions w (w.advance tick) := by
  rcases advance_cases w tick with ⟨-, h⟩ | ⟨-, h⟩ | ⟨-, h⟩
  all_goals
    rw [h]
    exact ⟨rfl, rfl, rfl, rfl⟩

/-- **The sequence number that an id is made of is at most the maximum**, and the invariant is
kept. -/
theorem Inv.advance {w : SnowWorker} (h : w.Inv) (tick : Int64) :
    (w.advance tick).Inv ∧
      (w.advance tick).currentSeqNumber.toNat ≤ (w.advance tick).maxSeqNumber.toNat := by
  obtain ⟨htwo, hbits, hmax, hmm, hmin, hle⟩ := h
  rcases advance_cases w tick with ⟨-, h⟩ | ⟨-, h⟩ | ⟨hseq, h⟩ <;> rw [h]
  · exact ⟨⟨htwo, hbits, hmax, hmm, le_rfl, hmm.trans (Nat.le_succ _)⟩, hmm⟩
  · exact ⟨⟨htwo, hbits, hmax, hmm, le_rfl, hmm.trans (Nat.le_succ _)⟩, hmm⟩
  · exact ⟨⟨htwo, hbits, hmax, hmm, hmin, hle⟩, hseq⟩

/-- After the sequence number is used it rests at most one above the maximum. -/
theorem Inv.calculateId {w : SnowWorker} (h : w.Inv)
    (hseq : w.currentSeqNumber.toNat ≤ w.maxSeqNumber.toNat) :
    w.calculateId.2.Inv ∧
      w.calculateId.2.currentSeqNumber.toNat = w.currentSeqNumber.toNat + 1 := by
  obtain ⟨htwo, hbits, hmax, hmm, hmin, hle⟩ := h
  have hpow : 2 ^ w.seqBitLength.toNat ≤ 2 ^ 21 := Nat.pow_le_pow_right (by omega) hbits
  have hnext : (w.currentSeqNumber + 1).toNat = w.currentSeqNumber.toNat + 1 := by
    rw [UInt32.toNat_add, UInt32.toNat_one, Nat.mod_eq_of_lt (by omega)]
  refine ⟨⟨htwo, hbits, hmax, hmm, ?_, ?_⟩, hnext⟩
  · exact hmin.trans (by rw [SnowWorker.calculateId, hnext]; omega)
  · rw [SnowWorker.calculateId, hnext]
    exact Nat.succ_le_succ hseq

theorem run_sameOptions (w : SnowWorker) (clock : ℕ → Int64) (n : ℕ) :
    SameOptions w (w.run clock n) := by
  induction n with
  | zero => exact ⟨rfl, rfl, rfl, rfl⟩
  | succ n ih =>
      obtain ⟨h₁, h₂, h₃, h₄⟩ := ih
      obtain ⟨h₁', h₂', h₃', h₄'⟩ := advance_sameOptions (w.run clock n)
        ((w.run clock n).getCurrentTimeTick (clock n))
      exact ⟨h₁'.trans h₁, h₂'.trans h₂, h₃'.trans h₃, h₄'.trans h₄⟩

/-- The invariant holds after every number of calls. -/
theorem Inv.run {w : SnowWorker} (h : w.Inv) (clock : ℕ → Int64) (n : ℕ) : (w.run clock n).Inv := by
  induction n with
  | zero => exact h
  | succ n ih =>
      obtain ⟨hinv, hseq⟩ := ih.advance ((w.run clock n).getCurrentTimeTick (clock n))
      exact (hinv.calculateId hseq).1

/-! ### The two fields of an id -/

theorem toInt_eq_toNat {x : Int64} (h : x.toUInt64.toNat < 2 ^ 63) : x.toInt = x.toUInt64.toNat :=
  BitVec.toInt_eq_toNat_of_lt (show 2 * x.toUInt64.toNat < 2 ^ 64 by omega)

theorem toNat_eq_toInt {x : Int64} (h : 0 ≤ x.toInt) : (x.toUInt64.toNat : ℤ) = x.toInt := by
  rw [Int64.toNat_toUInt64_of_le (Int64.le_iff_toInt_le.2 h)]
  exact Int.toNat_of_nonneg h

/-- **The shift and the or do not mix the fields**: an id is the tick, as far as it fits, in front
of the sequence number. -/
theorem Inv.toNat_id {w : SnowWorker} (h : w.Inv)
    (hseq : w.currentSeqNumber.toNat ≤ w.maxSeqNumber.toNat) :
    w.calculateId.1.toUInt64.toNat =
      w.lastTimeTick.toUInt64.toNat % 2 ^ (64 - w.seqBitLength.toNat) *
        2 ^ w.seqBitLength.toNat + w.currentSeqNumber.toNat := by
  have hb := h.bits_le
  have hlt := hseq.trans_lt h.max_lt
  have hpow : 2 ^ 64 = 2 ^ (64 - w.seqBitLength.toNat) * 2 ^ w.seqBitLength.toNat := by
    rw [← Nat.pow_add, Nat.sub_add_cancel (by omega)]
  rw [SnowWorker.calculateId, UInt64.toUInt64_toInt64, UInt64.toNat_or, UInt64.toNat_shiftLeft,
    UInt8.toNat_toUInt64, UInt32.toNat_toUInt64, Nat.mod_eq_of_lt (by omega : _ < 64),
    Nat.shiftLeft_eq, hpow, Nat.mul_mod_mul_right, ← Nat.shiftLeft_eq,
    ← Nat.shiftLeft_add_eq_or_of_lt hlt]

/-- The id as an integer, while the tick fits its field. -/
theorem Inv.toInt_id {w : SnowWorker} (h : w.Inv)
    (hseq : w.currentSeqNumber.toNat ≤ w.maxSeqNumber.toNat) (hnonneg : 0 ≤ w.lastTimeTick.toInt)
    (hlt : w.lastTimeTick.toInt < 2 ^ (63 - w.seqBitLength.toNat)) :
    w.calculateId.1.toInt =
      w.lastTimeTick.toInt * 2 ^ w.seqBitLength.toNat + w.currentSeqNumber.toNat := by
  have hb := h.bits_le
  have htick := toNat_eq_toInt hnonneg
  have hseq' := hseq.trans_lt h.max_lt
  have hfit : w.lastTimeTick.toUInt64.toNat < 2 ^ (63 - w.seqBitLength.toNat) := by
    rw [← htick] at hlt
    exact_mod_cast hlt
  have hpow : 2 ^ 63 = 2 ^ (63 - w.seqBitLength.toNat) * 2 ^ w.seqBitLength.toNat := by
    rw [← Nat.pow_add, Nat.sub_add_cancel (by omega)]
  have hmod : w.lastTimeTick.toUInt64.toNat % 2 ^ (64 - w.seqBitLength.toNat) =
      w.lastTimeTick.toUInt64.toNat :=
    Nat.mod_eq_of_lt (hfit.trans_le (Nat.pow_le_pow_right (by omega) (by omega)))
  have hid := h.toNat_id hseq
  rw [hmod] at hid
  have hbound : w.calculateId.1.toUInt64.toNat < 2 ^ 63 := by
    rw [hid, hpow]
    have : (w.lastTimeTick.toUInt64.toNat + 1) * 2 ^ w.seqBitLength.toNat ≤
        2 ^ (63 - w.seqBitLength.toNat) * 2 ^ w.seqBitLength.toNat := Nat.mul_le_mul_right _ hfit
    rw [Nat.add_mul, Nat.one_mul] at this
    omega
  rw [toInt_eq_toNat hbound, hid, ← htick]
  push_cast
  rfl

/-! ### Ids increase -/

/-- The clock and the worker are not yet at the end of the field of the tick. -/
def Fits (w : SnowWorker) : Prop :=
  0 ≤ w.lastTimeTick.toInt ∧ w.lastTimeTick.toInt < 2 ^ (63 - w.seqBitLength.toNat)

/-- One step up: whatever the clock shows, the next id is above every id of the same tick with a
lower sequence number than the next one. -/
theorem Inv.advance_lt {w : SnowWorker} (h : w.Inv) (hfits : w.Fits) (tick : Int64) :
    0 ≤ (w.advance tick).lastTimeTick.toInt ∧ ∀ s < w.currentSeqNumber.toNat,
      s < 2 ^ w.seqBitLength.toNat →
      w.lastTimeTick.toInt * 2 ^ w.seqBitLength.toNat + s <
        (w.advance tick).lastTimeTick.toInt * 2 ^ w.seqBitLength.toNat +
          (w.advance tick).currentSeqNumber.toNat := by
  obtain ⟨hnonneg, hlt⟩ := hfits
  have hbound : w.lastTimeTick.toInt < 2 ^ 61 := by
    have hpow : 2 ^ (63 - w.seqBitLength.toNat) ≤ 2 ^ 61 :=
      Nat.pow_le_pow_right (by omega) (by have := h.two_le_bits; omega)
    exact hlt.trans_le (by exact_mod_cast hpow)
  have hsucc : (w.lastTimeTick + 1).toInt = w.lastTimeTick.toInt + 1 := by
    rw [Int64.toInt_add, Int64.toInt_one, Int.bmod_eq_of_le (by omega) (by omega)]
  -- a later tick outweighs every sequence number
  have later {t : ℤ} {m s : ℕ} (ht : w.lastTimeTick.toInt + 1 ≤ t)
      (hs : s < 2 ^ w.seqBitLength.toNat) :
      w.lastTimeTick.toInt * 2 ^ w.seqBitLength.toNat + s < t * 2 ^ w.seqBitLength.toNat + m := by
    have hs : (s : ℤ) < 2 ^ w.seqBitLength.toNat := by exact_mod_cast hs
    have hmul := Int.mul_le_mul_of_nonneg_right ht (hs.le.trans' (Int.natCast_nonneg s))
    rw [Int.add_mul, Int.one_mul] at hmul
    omega
  rcases advance_cases w tick with ⟨htick, h⟩ | ⟨-, h⟩ | ⟨-, h⟩ <;> rw [h]
  · exact ⟨hnonneg.trans htick.le, fun s _ hs => later htick hs⟩
  · refine ⟨?_, fun s _ hs => later hsucc.ge hs⟩
    show 0 ≤ (w.lastTimeTick + 1).toInt
    omega
  · exact ⟨hnonneg, fun s hs _ => by omega⟩

variable {w : SnowWorker} {clock : ℕ → Int64}

/-- While the ticks fit they are not negative. -/
theorem Inv.fits_run (h : w.Inv) (h₀ : 0 ≤ w.lastTimeTick.toInt) {n : ℕ}
    (hlt : ∀ k ≤ n, (w.run clock k).lastTimeTick.toInt < 2 ^ (63 - w.seqBitLength.toNat)) :
    (w.run clock n).Fits := by
  have hbits (k : ℕ) : (w.run clock k).seqBitLength = w.seqBitLength :=
    (run_sameOptions w clock k).2.1
  induction n with
  | zero => exact ⟨h₀, hlt 0 le_rfl⟩
  | succ n ih =>
      have hfits := ih fun k hk => hlt k (hk.trans (Nat.le_succ n))
      refine ⟨((h.run clock n).advance_lt hfits _).1, ?_⟩
      rw [hbits]
      exact hlt (n + 1) le_rfl

/-- The tick and the sequence number of the `n`th call make up its id. -/
theorem Inv.toInt_id_run (h : w.Inv) {n : ℕ} (hfits : (w.run clock (n + 1)).Fits) :
    (w.id clock n).toInt = (w.run clock (n + 1)).lastTimeTick.toInt * 2 ^ w.seqBitLength.toNat +
      (w.used clock n).currentSeqNumber.toNat := by
  obtain ⟨hinv, hseq⟩ := (h.run clock n).advance
    ((w.run clock n).getCurrentTimeTick (clock n))
  have hbits : (w.used clock n).seqBitLength = w.seqBitLength :=
    (advance_sameOptions _ _).2.1.trans (run_sameOptions w clock n).2.1
  rw [← hbits]
  exact hinv.toInt_id hseq hfits.1 hfits.2

/-- **The next id is greater.** -/
theorem Inv.id_lt_succ (h : w.Inv) (h₀ : 0 ≤ w.lastTimeTick.toInt) {n : ℕ}
    (hlt : ∀ k ≤ n + 2, (w.run clock k).lastTimeTick.toInt < 2 ^ (63 - w.seqBitLength.toNat)) :
    w.id clock n < w.id clock (n + 1) := by
  have hfits := h.fits_run h₀ fun k hk => hlt k (hk.trans (Nat.le_succ (n + 1)))
  have hfits' := h.fits_run h₀ hlt
  have hbits : (w.run clock (n + 1)).seqBitLength = w.seqBitLength :=
    (run_sameOptions w clock (n + 1)).2.1
  obtain ⟨hinv, hseq⟩ := (h.run clock n).advance ((w.run clock n).getCurrentTimeTick (clock n))
  have hnext := (hinv.calculateId hseq).2
  have hstep := ((h.run clock (n + 1)).advance_lt hfits
    ((w.run clock (n + 1)).getCurrentTimeTick (clock (n + 1)))).2
    (w.used clock n).currentSeqNumber.toNat (hnext ▸ Nat.lt_succ_self _)
    (hseq.trans_lt hinv.max_lt)
  rw [Int64.lt_iff_toInt_lt, h.toInt_id_run hfits, h.toInt_id_run hfits', ← hbits]
  exact hstep

/-- Ids increase from any call to any later one. -/
theorem Inv.id_lt (h : w.Inv) (h₀ : 0 ≤ w.lastTimeTick.toInt) {i j : ℕ} (hij : i < j)
    (hlt : ∀ k ≤ j + 1, (w.run clock k).lastTimeTick.toInt < 2 ^ (63 - w.seqBitLength.toNat)) :
    w.id clock i < w.id clock j := by
  induction j, hij using Nat.le_induction with
  | base => exact h.id_lt_succ h₀ hlt
  | succ j hij ih =>
      have hbelow := ih fun k hk => hlt k (hk.trans (Nat.le_succ (j + 1)))
      exact Int64.lt_trans hbelow (h.id_lt_succ h₀ hlt)

/-- The fields of the `n`th id, taken apart again. -/
theorem Inv.id_fields (h : w.Inv) (clock : ℕ → Int64) (n : ℕ) :
    (w.id clock n).toUInt64.toNat % 2 ^ w.seqBitLength.toNat =
        (w.used clock n).currentSeqNumber.toNat ∧
      (w.id clock n).toUInt64.toNat / 2 ^ w.seqBitLength.toNat =
        (w.used clock n).lastTimeTick.toUInt64.toNat % 2 ^ (64 - w.seqBitLength.toNat) := by
  obtain ⟨hinv, hseq⟩ := (h.run clock n).advance ((w.run clock n).getCurrentTimeTick (clock n))
  have hbits : (w.used clock n).seqBitLength = w.seqBitLength :=
    (advance_sameOptions _ _).2.1.trans (run_sameOptions w clock n).2.1
  have hid : (w.id clock n).toUInt64.toNat =
      (w.used clock n).lastTimeTick.toUInt64.toNat % 2 ^ (64 - w.seqBitLength.toNat) *
        2 ^ w.seqBitLength.toNat + (w.used clock n).currentSeqNumber.toNat := by
    rw [← hbits]
    exact hinv.toNat_id hseq
  have hfit : (w.used clock n).currentSeqNumber.toNat < 2 ^ w.seqBitLength.toNat :=
    hbits ▸ hseq.trans_lt hinv.max_lt
  rw [hid, Nat.mul_comm]
  constructor
  · rw [Nat.mul_add_mod, Nat.mod_eq_of_lt hfit]
  · rw [Nat.mul_add_div (Nat.two_pow_pos _), Nat.div_eq_of_lt hfit, Nat.add_zero]

/-- **Ids are strictly increasing**, while the tick stays below `2 ^ (63 - SeqBitLength)` and
whatever the clock shows; and the sequence number in an id is between `MinSeqNumber` and the
effective `MaxSeqNumber`, fits in its bits, and is read back from the low bits of the id, as the
tick is from the high ones. -/
theorem next_monotone {options : IdGenOptions} {now : Int64} {w : SnowWorker}
    (h : construct options now = .ok w) (clock : ℕ → Int64) :
    (∀ i j, i < j →
      (∀ k ≤ j + 1,
        (w.run clock k).lastTimeTick.toInt < 2 ^ (63 - options.seqBitLength.toNat)) →
      w.id clock i < w.id clock j) ∧
    ∀ n,
      options.minSeqNumber.toNat ≤ (w.used clock n).currentSeqNumber.toNat ∧
      (w.used clock n).currentSeqNumber.toNat ≤ effectiveMaxSeqNumber options ∧
      (w.used clock n).currentSeqNumber.toNat < 2 ^ options.seqBitLength.toNat ∧
      (w.id clock n).toUInt64.toNat % 2 ^ options.seqBitLength.toNat =
        (w.used clock n).currentSeqNumber.toNat ∧
      (w.id clock n).toUInt64.toNat / 2 ^ options.seqBitLength.toNat =
        (w.used clock n).lastTimeTick.toUInt64.toNat %
          2 ^ (64 - options.seqBitLength.toNat) := by
  have hnew := constructed_of_ok h
  have h₀ : 0 ≤ w.lastTimeTick.toInt := by rw [hnew.lastTimeTick]; decide
  rw [← hnew.seqBitLength]
  refine ⟨fun i j hij hlt => hnew.inv.id_lt h₀ hij hlt, fun n => ?_⟩
  obtain ⟨hinv, hseq⟩ :=
    (hnew.inv.run clock n).advance ((w.run clock n).getCurrentTimeTick (clock n))
  obtain ⟨-, hbits, hmax, hmin⟩ := run_sameOptions w clock n
  obtain ⟨-, hbits', hmax', hmin'⟩ :=
    advance_sameOptions (w.run clock n) ((w.run clock n).getCurrentTimeTick (clock n))
  have hle : (w.used clock n).currentSeqNumber.toNat ≤ effectiveMaxSeqNumber options := by
    rw [← hnew.maxSeqNumber, ← hmax, ← hmax']
    exact hseq
  refine ⟨?_, hle, ?_, hnew.inv.id_fields clock n⟩
  · rw [← hnew.minSeqNumber, ← hmin, ← hmin']
    exact hinv.min_le
  · rw [hnew.seqBitLength]
    exact hle.trans_lt hnew.max_lt

/-- The options of `IdGenerator`, and a clock that goes back by a second. -/
theorem next_monotone_sample : ∃ w, construct {} 1700000000000 = .ok w ∧
    w.id (fun n => if n = 0 then 1700000000001 else 1699999999001) 0 <
      w.id (fun n => if n = 0 then 1700000000001 else 1699999999001) 1 :=
  ⟨_, rfl, (@next_monotone {} 1700000000000 _ rfl _).1 0 1 (by decide) (by decide)⟩

end SnowWorker

end Uuid
end BreUtils
