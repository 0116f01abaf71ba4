/-
# Numbers in base sixteen

`std::stoi` with base 16, and an `int` written to and read from a stream after
`std::hex`.  `strtol` reads blanks, a sign, `0x` if a digit follows it, and digits off the
front of the text; so does a stream, which stores the nearest limit of `int` for a number
outside.  A stream writes an `int` as the `unsigned` with the same bits, without leading
zeros, and fills up to the width with the fill character.
-/

import BreUtils.Cpp.Integers
import Mathlib.Data.Nat.Digits.Lemmas

namespace BreUtils
namespace Cpp

open Lib

/-- `std::isxdigit`. -/
def isxdigit (c : UInt8) : Bool := (hexValue c).isSome

/-- `std::tolower`. -/
def tolower (c : UInt8) : UInt8 := if ch 'A' ≤ c ∧ c ≤ ch 'Z' then c + 32 else c

/-- The number that digits write in base `b`, the highest first. -/
def ofDigits (b : ℕ) (ds : List ℕ) : ℕ := ds.foldl (fun v d => b * v + d) 0

/-! ### Reading -/

/-- The digits at the front, behind `0x` if a digit follows it. -/
def hexField (s : Bytes) : List ℕ :=
  let marked := (s.take 2).map tolower == ascii "0x" && (s.drop 2).head?.any isxdigit
  hexPrefix (if marked then s.drop 2 else s)

/-- What `strtol` reads in base sixteen: whether there is a minus sign, and the number behind it. -/
def strtoHexInteger (s : Bytes) : Option (Bool × ℕ) :=
  let s := s.dropWhile isspace
  let negative := s.head? == some (ch '-')
  let ds := hexField (if negative || s.head? == some (ch '+') then s.tail else s)
  if ds = [] then none else some (negative, ofDigits 16 ds)

/-- `std::stoi(s, nullptr, 16)`. -/
def stoiHex (s : Bytes) : Except Exn Int32 :=
  match strtoHexInteger s with
  | none => .error .invalidArgument
  | some (negative, n) =>
      let v := signed negative n
      if -2 ^ 31 ≤ v ∧ v < 2 ^ 31 then .ok (Int32.ofInt v) else .error .outOfRange

/-- The nearest `int`. -/
def nearestInt (v : ℤ) : Int32 := Int32.ofInt (max (-2 ^ 31) (min v (2 ^ 31 - 1)))

/-- What `std::istringstream(s) >> std::hex >> result` stores in an `int`. -/
def extractHex (s : Bytes) : Int32 :=
  match strtoHexInteger s with
  | none => 0
  | some (negative, n) => nearestInt (signed negative n)

/-! ### Writing -/

/-- A digit, in lower case. -/
def hexChar (d : ℕ) : UInt8 := (ascii "0123456789abcdef").getD d 0

/-- The digits of a number, the highest first. -/
def hexDigits (n : ℕ) : List ℕ := if n = 0 then [0] else (Nat.digits 16 n).reverse

/-- What `oss << std::hex << v` writes for an `int`. -/
def insertHex (v : Int32) : Bytes := (hexDigits v.toUInt32.toNat).map hexChar

/-- `std::setw(width)`: the text is filled up in front. -/
def setw (width : ℕ) (fill : UInt8) (s : Bytes) : Bytes :=
  List.replicate (width - s.length) fill ++ s

example : insertHex (-2) = ascii "fffffffe" ∧ extractHex (ascii "fffffffe") = 2147483647 ∧
    stoiHex (ascii " -0xfg") = .ok (-15) := by decide +kernel

/-! ### Digits -/

variable {n d b : ℕ} {c : UInt8} {s t : Bytes} {ds : List ℕ}

/-- Read from the last digit on it is the number of `Nat.ofDigits`. -/
theorem ofDigits_reverse (ds : List ℕ) : ofDigits b ds.reverse = Nat.ofDigits b ds := by
  rw [ofDigits, List.foldl_reverse, Nat.ofDigits_eq_foldr]
  simp only [Nat.cast_id, Nat.add_comm]

/-- **The digits of a number** read back. -/
theorem ofDigits_hexDigits (n : ℕ) : ofDigits 16 (hexDigits n) = n := by
  unfold hexDigits
  split_ifs with hn
  · rw [hn]
    rfl
  · rw [ofDigits_reverse, Nat.ofDigits_digits]

/-- Every number has a digit. -/
theorem hexDigits_ne_nil (n : ℕ) : hexDigits n ≠ [] := by
  unfold hexDigits
  split_ifs with hn
  · exact List.cons_ne_nil _ _
  · simpa [Nat.digits_eq_nil_iff_eq_zero] using hn

/-- Digits are below 16. -/
theorem lt_of_mem_hexDigits (hd : d ∈ hexDigits n) : d < 16 := by
  unfold hexDigits at hd
  split_ifs at hd with hn
  · rw [List.mem_singleton.1 hd]
    decide
  · exact Nat.digits_lt_base (by decide) (List.mem_reverse.1 hd)

/-- No leading zeros. -/
theorem head?_hexDigits (hn : n ≠ 0) : (hexDigits n).head? ≠ some 0 := by
  rw [hexDigits, if_neg hn, List.head?_reverse]
  intro hzero
  refine Nat.getLast_digit_ne_zero 16 hn ?_
  rw [List.getLast?_eq_some_getLast (Nat.digits_ne_nil_iff_ne_zero.2 hn)] at hzero
  exact Option.some.inj hzero

/-- A digit is read back from its character. -/
theorem hexValue_hexChar : ∀ d < 16, hexValue (hexChar d) = some d := by
  decide +kernel

/-- Its character is a hex digit. -/
theorem isxdigit_hexChar (hd : d < 16) : isxdigit (hexChar d) = true := by
  rw [isxdigit, hexValue_hexChar d hd]
  rfl

/-- A hex digit is no blank, -/
theorem not_isspace_of_isxdigit : ∀ c, isxdigit c = true → isspace c = false := by
  decide +kernel

/-- no sign, -/
theorem not_sign_of_isxdigit : ∀ c, isxdigit c = true → c ≠ ch '-' ∧ c ≠ ch '+' := by
  decide +kernel

/-- and not the letter of the prefix. -/
theorem tolower_ne_of_isxdigit : ∀ c, isxdigit c = true → tolower c ≠ ch 'x' := by
  decide +kernel

/-- Digits are read to the end. -/
theorem hexField_of_isxdigit (hs : ∀ c ∈ s, isxdigit c = true) :
    hexField s = s.filterMap hexValue := by
  have hmarked : ((s.take 2).map tolower == ascii "0x") = false := by
    rw [beq_eq_false_iff_ne]
    intro hx
    have hmem : ch 'x' ∈ (s.take 2).map tolower := by
      rw [hx]
      decide
    obtain ⟨c, hc, htolower⟩ := List.mem_map.1 hmem
    exact tolower_ne_of_isxdigit c (hs c (List.mem_of_mem_take hc)) htolower
  have hall : s.takeWhile (fun c => (hexValue c).isSome) = s := by
    have h := takeWhile_append_of_all (f := fun c => (hexValue c).isSome) (s := []) hs (by simp)
    rwa [List.append_nil] at h
  rw [hexField, hmarked, Bool.false_and]
  exact congrArg (List.filterMap hexValue) hall

/-- A text of digits, as `strtol` reads it. -/
theorem strtoHexInteger_of_isxdigit (hne : s ≠ []) (hs : ∀ c ∈ s, isxdigit c = true) :
    strtoHexInteger s = some (false, ofDigits 16 (s.filterMap hexValue)) := by
  obtain ⟨c, t, rfl⟩ := List.exists_cons_of_ne_nil hne
  have hc := hs c List.mem_cons_self
  have hdrop : (c :: t).dropWhile isspace = c :: t :=
    List.dropWhile_cons_of_neg (by simp [not_isspace_of_isxdigit c hc])
  obtain ⟨hminus, hplus⟩ := not_sign_of_isxdigit c hc
  have hdigits : (c :: t).filterMap hexValue ≠ [] := by
    obtain ⟨v, hv⟩ := Option.isSome_iff_exists.1 hc
    rw [List.filterMap_cons_some hv]
    exact List.cons_ne_nil _ _
  have hsign : ((c :: t).head? == some (ch '-')) = false ∧
      ((c :: t).head? == some (ch '+')) = false := by
    simp [hminus, hplus]
  rw [strtoHexInteger, hdrop, hsign.1, hsign.2, Bool.false_or, if_neg Bool.false_ne_true,
    hexField_of_isxdigit hs, if_neg hdigits]

/-- One more digit. -/
theorem ofDigits_append (b : ℕ) (ds : List ℕ) (d : ℕ) :
    ofDigits b (ds ++ [d]) = b * ofDigits b ds + d := by
  simp [ofDigits]

/-- What some digits can say. -/
theorem ofDigits_lt_pow (hds : ∀ d ∈ ds, d < b) : ofDigits b ds < b ^ ds.length := by
  induction ds using List.reverseRecOn with
  | nil => exact Nat.one_pos
  | append_singleton ds d ih =>
      have hd := hds d List.mem_concat_self
      have hle : ofDigits b ds + 1 ≤ b ^ ds.length :=
        ih fun e he => hds e (List.mem_append_left _ he)
      have hmul := Nat.mul_le_mul_left b hle
      rw [ofDigits_append, List.length_append, List.length_singleton, Nat.pow_succ']
      rw [Nat.mul_add, Nat.mul_one] at hmul
      omega

/-- The digits of a field are below 16. -/
theorem lt_of_mem_hexField (hd : d ∈ hexField s) : d < 16 := by
  have hvalue : ∀ c, ∀ v ∈ hexValue c, v < 16 := by decide +kernel
  unfold hexField hexPrefix at hd
  obtain ⟨c, -, hc⟩ := List.mem_filterMap.1 hd
  exact hvalue c d hc

/-- A field has no more digits than the text has characters. -/
theorem length_hexField_le (s : Bytes) : (hexField s).length ≤ s.length := by
  have hbegins (t : Bytes) : (hexPrefix t).length ≤ t.length :=
    (List.length_filterMap_le _ _).trans (List.takeWhile_prefix _).length_le
  unfold hexField
  dsimp only
  split_ifs
  · exact (hbegins _).trans (by rw [List.length_drop]; omega)
  · exact hbegins s

/-- A number is no longer than its text. -/
theorem lt_of_strtoHexInteger {negative : Bool} (h : strtoHexInteger s = some (negative, n)) :
    n < 16 ^ s.length := by
  unfold strtoHexInteger at h
  dsimp only at h
  have hblanks := (List.dropWhile_suffix isspace (l := s)).length_le
  split_ifs at h
  · obtain ⟨-, rfl⟩ := Prod.mk.inj (Option.some.inj h)
    refine (ofDigits_lt_pow fun d hd => lt_of_mem_hexField hd).trans_le ?_
    refine Nat.pow_le_pow_right (by decide) ((length_hexField_le _).trans ?_)
    rw [List.length_tail]
    omega
  · obtain ⟨-, rfl⟩ := Prod.mk.inj (Option.some.inj h)
    refine (ofDigits_lt_pow fun d hd => lt_of_mem_hexField hd).trans_le ?_
    exact Nat.pow_le_pow_right (by decide) ((length_hexField_le _).trans hblanks)

end Cpp
end BreUtils
