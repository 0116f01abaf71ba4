/-
# The integers that `Parse` sets

The value of `-n v` goes through `std::stoi`, `std::stoul`, `std::stoll` or `std::stoull`
twice, in `judgeSuitableValue` and in `SetVal`.  Both leave out blanks in front and do not
look behind the digits, and the `unsigned long` of a `Uint` is stored in 32 bits.  What
passes is refused or stored as it is otherwise: a number outside its type is none
that `stoi` and its kin return.

So a `Parse` that returns has set its integer flags to the numbers that their values write,
and to nothing else, exactly if no value has a blank in front or anything behind its digits,
and no `Uint` gets `2 ^ 32` or more (`integers_exact_iff`).
-/

import BreUtils.Flag.Meaning

namespace BreUtils
namespace Flags

open Lib Cpp

/-! ### Numbers -/

/-- **A decimal numeral, as a whole:** digits, with or without a sign, and the number they write. -/
inductive Numeral : Bytes → ℤ → Prop
  | bare {ds : Bytes} : ds ≠ [] → (∀ c ∈ ds, isdigit c = true) → Numeral ds (decimal ds)
  | plus {ds : Bytes} : ds ≠ [] → (∀ c ∈ ds, isdigit c = true) →
      Numeral (ch '+' :: ds) (decimal ds)
  | minus {ds : Bytes} : ds ≠ [] → (∀ c ∈ ds, isdigit c = true) →
      Numeral (ch '-' :: ds) (-decimal ds)

/-- The integers of a type; of the other types none. -/
def FlagType.range : FlagType → Set ℤ
  | .int => {v | -2 ^ 31 ≤ v ∧ v < 2 ^ 31}
  | .uint => {v | 0 ≤ v ∧ v < 2 ^ 32}
  | .int64 => {v | -2 ^ 63 ≤ v ∧ v < 2 ^ 63}
  | .uint64 => {v | 0 ≤ v ∧ v < 2 ^ 64}
  | .bool | .float | .double | .string => ∅

/-- `Int`, `Uint`, `Int64` and `Uint64`. -/
def FlagType.isInteger : FlagType → Bool
  | .int | .uint | .int64 | .uint64 => true
  | .bool | .float | .double | .string => false

/-- The integer that a variable holds. -/
def Value.toInt {F D : Type} : Value F D → Option ℤ
  | .int v => some v.toInt
  | .uint v => some v.toNat
  | .int64 v => some v.toInt
  | .uint64 v => some v.toNat
  | .bool _ | .float _ | .double _ | .string _ => none

/-- What stands behind the sign. -/
def unsignedPart (t : Bytes) : Bytes :=
  if t.head? = some (ch '-') ∨ t.head? = some (ch '+') then t.tail else t

/-- A value has digits and nothing else behind its sign, so no blank in front either, and fits into
an `unsigned int` if it is one for a `Uint`. -/
def Clean (type : FlagType) (t : Bytes) : Prop :=
  (∀ c ∈ unsignedPart t, isdigit c = true) ∧ (type = .uint → decimal (unsignedPart t) < 2 ^ 32)

instance (type : FlagType) (t : Bytes) : Decidable (Clean type t) :=
  inferInstanceAs (Decidable ((∀ c ∈ unsignedPart t, isdigit c = true) ∧
    (type = .uint → decimal (unsignedPart t) < 2 ^ 32)))

variable {F D : Type} {platform : Platform F D} {type : FlagType} {t ds : Bytes} {v : ℤ}

theorem not_sign_of_isdigit : ∀ c, isdigit c = true → c ≠ ch '-' ∧ c ≠ ch '+' := by
  decide +kernel

theorem unsignedPart_digits (hne : ds ≠ []) (hds : ∀ c ∈ ds, isdigit c = true) :
    unsignedPart ds = ds := by
  obtain ⟨c, ds, rfl⟩ := List.exists_cons_of_ne_nil hne
  obtain ⟨hminus, hplus⟩ := not_sign_of_isdigit c (hds c List.mem_cons_self)
  exact if_neg (by simp [hminus, hplus])

/-- What stands behind the sign of a numeral. -/
theorem unsignedPart_of_numeral (h : Numeral t v) :
    (∀ c ∈ unsignedPart t, isdigit c = true) ∧
      (v = decimal (unsignedPart t) ∨ v = -decimal (unsignedPart t)) := by
  cases h with
  | bare hne hds =>
      rw [unsignedPart_digits hne hds]
      exact ⟨hds, Or.inl rfl⟩
  | @plus ds hne hds =>
      have hpart : unsignedPart (ch '+' :: ds) = ds := if_pos (Or.inr rfl)
      rw [hpart]
      exact ⟨hds, Or.inl rfl⟩
  | @minus ds hne hds =>
      have hpart : unsignedPart (ch '-' :: ds) = ds := if_pos (Or.inl rfl)
      rw [hpart]
      exact ⟨hds, Or.inr rfl⟩

/-- A numeral is clean, if its number is one of the type. -/
theorem clean_of_numeral (h : Numeral t v) (hrange : v ∈ type.range) : Clean type t := by
  obtain ⟨hds, hv⟩ := unsignedPart_of_numeral h
  refine ⟨hds, ?_⟩
  rintro rfl
  obtain ⟨hlow, hhigh⟩ := hrange
  rcases hv with rfl | rfl <;> omega

/-- What `strtol` makes of a clean value. -/
theorem strtoInteger_of_clean (h : Clean type t) :
    strtoInteger t = if unsignedPart t = [] then none
      else some (t.head? == some (ch '-'), decimal (unsignedPart t)) := by
  have hdrop : t.dropWhile isspace = t := by
    cases t with
    | nil => rfl
    | cons c t =>
        refine List.dropWhile_cons_of_neg ?_
        by_cases hsign : c = ch '-' ∨ c = ch '+'
        · rcases hsign with rfl | rfl <;> decide
        · have hpart : unsignedPart (c :: t) = c :: t := if_neg (by simpa using hsign)
          rw [Clean, hpart] at h
          simp [isspace_of_isdigit c (h.1 c List.mem_cons_self)]
  have htake : (unsignedPart t).takeWhile isdigit = unsignedPart t := by
    have hall := takeWhile_append_of_all (s := []) h.1 (by simp)
    rwa [List.append_nil] at hall
  have hpart : (if t.head? == some (ch '-') || t.head? == some (ch '+') then t.tail else t) =
      unsignedPart t := by
    simp [unsignedPart]
  rw [strtoInteger, hdrop, hpart, htake]

/-- A clean value with a number in it is a numeral. -/
theorem numeral_of_clean (h : Clean type t) (hne : unsignedPart t ≠ []) :
    Numeral t (if t.head? = some (ch '-') then -decimal (unsignedPart t)
      else decimal (unsignedPart t)) := by
  have hds := h.1
  by_cases hminus : t.head? = some (ch '-')
  · obtain ⟨s, rfl⟩ : ∃ s, t = ch '-' :: s := by
      cases t with
      | nil => cases hminus
      | cons c s => exact ⟨s, by rw [Option.some.inj hminus]⟩
    have hpart : unsignedPart (ch '-' :: s) = s := if_pos (Or.inl rfl)
    rw [hpart] at hne hds ⊢
    rw [if_pos hminus]
    exact .minus hne hds
  · rw [if_neg hminus]
    by_cases hplus : t.head? = some (ch '+')
    · obtain ⟨s, rfl⟩ : ∃ s, t = ch '+' :: s := by
        cases t with
        | nil => cases hplus
        | cons c s => exact ⟨s, by rw [Option.some.inj hplus]⟩
      have hpart : unsignedPart (ch '+' :: s) = s := if_pos (Or.inr rfl)
      rw [hpart] at hne hds ⊢
      exact .plus hne hds
    · have hpart : unsignedPart t = t := if_neg (by simp [hminus, hplus])
      rw [hpart] at hne hds ⊢
      exact .bare hne hds

/-- What `stoi` and `stoll` return is what `strtol` reads, and fits. -/
theorem of_stoSigned {bits : ℕ} (h : (stoSigned bits t).isOk = true) : ∃ negative n,
    strtoInteger t = some (negative, n) ∧ stoSigned bits t = .ok (signed negative n) ∧
      -2 ^ (bits - 1) ≤ signed negative n ∧ signed negative n < 2 ^ (bits - 1) := by
  cases hread : strtoInteger t with
  | none =>
      rw [(sto_eq_error hread).1] at h
      cases h
  | some e =>
      obtain ⟨negative, n⟩ := e
      rw [stoSigned_eq bits hread] at h ⊢
      split_ifs at h with hrange
      · exact ⟨negative, n, rfl, if_pos hrange, hrange⟩
      · cases h

/-- What `stoul` and `stoull` return for a number without a minus sign. -/
theorem of_stoUnsigned (h : (stoUnsigned t).isOk = true) : ∃ negative n,
    strtoInteger t = some (negative, n) ∧ n < 2 ^ 64 ∧
      (negative = false → stoUnsigned t = .ok n) := by
  cases hread : strtoInteger t with
  | none =>
      rw [(sto_eq_error hread).2] at h
      cases h
  | some e =>
      obtain ⟨negative, n⟩ := e
      rw [stoUnsigned_eq hread] at h ⊢
      by_cases hrange : n < 2 ^ 64
      · refine ⟨negative, n, rfl, hrange, ?_⟩
        rintro rfl
        rw [if_pos hrange]
        rfl
      · rw [if_neg hrange] at h
        cases h

theorem isOk_map {α β : Type} {x : Except Exn α} {g : α → β} (h : (x.map g).isOk = true) :
    x.isOk = true := by
  cases x with
  | ok a => rfl
  | error e => cases h

/-- What the number of a clean value is. -/
theorem of_strtoInteger (h : Clean type t) {negative : Bool} {n : ℕ}
    (hread : strtoInteger t = some (negative, n)) :
    Numeral t (signed negative n) ∧ (negative = true → t.head? = some (ch '-')) ∧
      n = decimal (unsignedPart t) := by
  rw [strtoInteger_of_clean h] at hread
  split_ifs at hread with hnil
  obtain ⟨rfl, rfl⟩ := Prod.mk.inj (Option.some.inj hread)
  have hnumeral := numeral_of_clean h hnil
  refine ⟨?_, by simp, rfl⟩
  simpa [signed] using hnumeral

/-- A clean value of the unsigned types. -/
theorem of_unsigned (h : Clean type t) (hdash : t.head? ≠ some (ch '-'))
    (hok : (stoUnsigned t).isOk = true) : ∃ n < 2 ^ 64, Numeral t (n : ℕ) ∧
      stoUnsigned t = .ok n ∧ n = decimal (unsignedPart t) := by
  obtain ⟨negative, n, hread, hlt, hvalue⟩ := of_stoUnsigned hok
  obtain ⟨hnumeral, hminus, hn⟩ := of_strtoInteger h hread
  have hplain : negative = false := by
    rw [← Bool.not_eq_true]
    exact fun htrue => hdash (hminus htrue)
  subst hplain
  exact ⟨n, hlt, hnumeral, hvalue rfl, hn⟩

/-- **What is stored for a clean value:** the number it writes, which is one of the type. -/
theorem exists_of_clean (htype : type.isInteger = true)
    (hsuit : judgeSuitableValue platform type t = true) (h : Clean type t) :
    ∃ v w, Numeral t v ∧ v ∈ type.range ∧ convert platform type t = .ok w ∧
      w.toInt = some v := by
  unfold judgeSuitableValue at hsuit
  cases type with
  | int =>
      have hok : t ≠ [] ∧ (stoi t).isOk = true := by simpa using hsuit
      obtain ⟨negative, n, hread, hvalue, hlow, hhigh⟩ := of_stoSigned (isOk_map hok.2)
      refine ⟨_, .int (Int32.ofInt (signed negative n)), (of_strtoInteger h hread).1,
        ⟨hlow, hhigh⟩, ?_, ?_⟩
      · rw [convert, stoi, hvalue]
        rfl
      · exact congrArg some (Int32.toInt_ofInt_of_le hlow hhigh)
  | int64 =>
      have hok : t ≠ [] ∧ (stoll t).isOk = true := by simpa using hsuit
      obtain ⟨negative, n, hread, hvalue, hlow, hhigh⟩ := of_stoSigned (isOk_map hok.2)
      refine ⟨_, .int64 (Int64.ofInt (signed negative n)), (of_strtoInteger h hread).1,
        ⟨hlow, hhigh⟩, ?_, ?_⟩
      · rw [convert, stoll, hvalue]
        rfl
      · exact congrArg some (Int64.toInt_ofInt_of_le hlow hhigh)
  | uint =>
      have hok : t ≠ [] ∧ t.head? ≠ some (ch '-') ∧ (stoul t).isOk = true := by simpa using hsuit
      obtain ⟨n, hlt, hnumeral, hvalue, hn⟩ := of_unsigned h hok.2.1 (isOk_map hok.2.2)
      have hfits : n < 2 ^ 32 := hn ▸ h.2 rfl
      refine ⟨n, .uint (UInt64.ofNat n).toUInt32, hnumeral, ⟨by omega, by omega⟩, ?_, ?_⟩
      · rw [convert, stoul, hvalue]
        rfl
      · refine congrArg some (Int.natCast_inj.2 ?_)
        rw [UInt64.toNat_toUInt32, UInt64.toNat_ofNat', Nat.mod_eq_of_lt hlt,
          Nat.mod_eq_of_lt hfits]
  | uint64 =>
      have hok : t ≠ [] ∧ t.head? ≠ some (ch '-') ∧ (stoull t).isOk = true := by simpa using hsuit
      obtain ⟨n, hlt, hnumeral, hvalue, -⟩ := of_unsigned h hok.2.1 (isOk_map hok.2.2)
      refine ⟨n, .uint64 (UInt64.ofNat n), hnumeral, ⟨by omega, by omega⟩, ?_, ?_⟩
      · rw [convert, stoull, hvalue]
        rfl
      · exact congrArg some (Int.natCast_inj.2 (UInt64.toNat_ofNat'.trans (Nat.mod_eq_of_lt hlt)))
  | bool | float | double | string => cases htype

namespace Flag

/-! ### What `Parse` sets -/

section

variable (platform)

/-- What the loop of `Parse` sets one after the other: the flag, the text for it, and whether that
was an argument of its own. -/
def sets (flags : List FlagInfo) : List Bytes → List (FlagInfo × Bytes × Bool)
  | [] => []
  | [arg] =>
      match read platform flags arg none with
      | .set flag text takesNext => [(flag, text, takesNext)]
      | .positional | .exits => []
  | arg :: value :: rest =>
      match read platform flags arg (some value) with
      | .positional => sets flags (value :: rest)
      | .set flag text true => (flag, text, true) :: sets flags rest
      | .set flag text false => (flag, text, false) :: sets flags (value :: rest)
      | .exits => []

/-- **The integers are exact:** every value that is an argument of its own and goes to an integer
flag is as a whole a numeral for a number of the flag's type, and the variable holds this number
when `Parse` returns, unless it is set again. -/
def Exact (flags : List FlagInfo) (args : List Bytes) (g : Flag F D) : Prop :=
  ∀ before flag t after, sets platform flags args = before ++ (flag, t, true) :: after →
    flag.type.isInteger = true → ∃ v, Numeral t v ∧ v ∈ flag.type.range ∧
      ((∀ s ∈ after, s.1.value ≠ flag.value) → (g.memory flag.value).toInt = some v)

/-- `SetVal`, on the memory alone. -/
def write (memory : ℕ → Value F D) (s : FlagInfo × Bytes × Bool) : Option (ℕ → Value F D) :=
  (convert platform s.1.type s.2.1).toOption.map fun w => Function.update memory s.1.value w

end

variable {flags : List FlagInfo} {flag : FlagInfo} {arg text : Bytes} {args : List Bytes}
  {next : Option Bytes} {f g : Flag F D} {takesNext : Bool} {memory memory' : ℕ → Value F D}
  {s : FlagInfo × Bytes × Bool} {ss : List (FlagInfo × Bytes × Bool)} {w : Value F D} {a : ℕ}

theorem write_of_convert (h : convert platform flag.type text = .ok w) :
    write platform memory (flag, text, takesNext) =
      some (Function.update memory flag.value w) := by
  rw [write, h]
  rfl

theorem sets_cons (flags : List FlagInfo) (arg : Bytes) (rest : List Bytes) :
    sets platform flags (arg :: rest) =
      match read platform flags arg rest.head? with
      | .positional => sets platform flags rest
      | .set flag text takesNext => (flag, text, takesNext) ::
          sets platform flags (if takesNext then rest.tail else rest)
      | .exits => [] := by
  cases rest with
  | nil =>
      cases hread : read platform flags arg none with
      | set flag text takesNext => cases takesNext <;> simp [sets, hread]
      | positional | exits => simp [sets, hread]
  | cons value rest =>
      cases hread : read platform flags arg (some value) with
      | set flag text takesNext => cases takesNext <;> simp [sets, hread]
      | positional | exits => simp [sets, hread]

/-- A text that was an argument of its own was found suitable. -/
theorem suitable_of_takesNext (h : read platform flags arg next = .set flag text true)
    (htype : flag.type ≠ .bool) : judgeSuitableValue platform flag.type text = true := by
  rcases read_set h with ⟨-, ⟨-, -, -, hfalse⟩ | ⟨-, -, -, hfalse, -⟩ |
    ⟨value, -, -, -, hsuit, rfl⟩⟩
  · cases hfalse
  · cases hfalse
  · rwa [given, if_neg htype]

/-- **What the loop does:** it sets one after the other, and a text that was an argument of its own
was found suitable. -/
theorem run_sets (h : parseArgs platform args f = .returned g) :
    Transition.run (write platform) f.memory (sets platform f.flags args) = some g.memory ∧
      ∀ flag text, (flag, text, true) ∈ sets platform f.flags args → flag.type ≠ .bool →
        judgeSuitableValue platform flag.type text = true := by
  refine parseArgs_induction (motive := fun args f =>
    Transition.run (write platform) f.memory (sets platform f.flags args) = some g.memory ∧
      ∀ flag text, (flag, text, true) ∈ sets platform f.flags args → flag.type ≠ .bool →
        judgeSuitableValue platform flag.type text = true)
    (fun f hg => ?_) (fun arg rest f u takesNext hturn hrest => ?_) h
  · rw [hg]
    exact ⟨rfl, fun flag text hmem => absurd hmem List.not_mem_nil⟩
  · rw [turn_flags hturn] at hrest
    rw [sets_cons]
    rcases turn_next hturn with ⟨hread, rfl, rfl⟩ | ⟨flag, text, w, hread, hw, rfl⟩
    · rw [hread]
      exact hrest
    · rw [hread]
      refine ⟨?_, fun flag' text' hmem htype => ?_⟩
      · rw [Transition.run_cons, write_of_convert hw]
        exact hrest.1
      · rcases List.mem_cons.1 hmem with heq | hmem
        · obtain ⟨rfl, rfl, rfl⟩ := heq
          exact suitable_of_takesNext hread htype
        · exact hrest.2 flag' text' hmem htype

/-- Other variables stay as they are. -/
theorem run_write_of_ne (h : Transition.run (write platform) memory ss = some memory')
    (hss : ∀ s ∈ ss, s.1.value ≠ a) : memory' a = memory a := by
  induction ss generalizing memory with
  | nil => exact congrFun (Option.some.inj h).symm a
  | cons s ss ih =>
      rw [Transition.run_cons, Option.bind_eq_some_iff] at h
      obtain ⟨m, hm, h⟩ := h
      rw [write, Option.map_eq_some_iff] at hm
      obtain ⟨w, -, rfl⟩ := hm
      rw [ih h fun t ht => hss t (List.mem_cons_of_mem _ ht)]
      exact Function.update_of_ne (hss s List.mem_cons_self).symm _ _

/-- **The variable of a flag holds what it was last set to.** -/
theorem memory_of_sets {before : List (FlagInfo × Bytes × Bool)}
    (h : Transition.run (write platform) memory (before ++ (flag, text, takesNext) :: ss) =
      some memory')
    (hw : convert platform flag.type text = .ok w) (hss : ∀ s ∈ ss, s.1.value ≠ flag.value) :
    memory' flag.value = w := by
  rw [Transition.run_append, Option.bind_eq_some_iff] at h
  obtain ⟨m, -, h⟩ := h
  rw [Transition.run_cons, write_of_convert hw, Option.bind_some] at h
  rw [run_write_of_ne h hss]
  exact Function.update_self _ _ _

/-- **When the integers are exact.**  When the first `Parse` returns, its integers are exact if and
only if every value of an integer flag that was an argument of its own has nothing but digits
behind its sign, and is less than `2 ^ 32` for a `Uint`. -/
theorem integers_exact_iff {program : Bytes} (hparsed : f.isParsed = false)
    (h : parse platform f (program :: args) = .returned g) :
    Exact platform f.flags args g ↔
      ∀ flag t, (flag, t, true) ∈ sets platform f.flags args → flag.type.isInteger = true →
        Clean flag.type t := by
  obtain ⟨hrun, hsuit⟩ := run_sets (parseArgs_of_parse hparsed h)
  have hflags : (named f program).flags = f.flags := rfl
  rw [hflags] at hrun hsuit
  constructor
  · intro hexact flag t hmem htype
    obtain ⟨before, after, hsplit⟩ := List.append_of_mem hmem
    obtain ⟨v, hnumeral, hrange, -⟩ := hexact before flag t after hsplit htype
    exact clean_of_numeral hnumeral hrange
  · intro hclean before flag t after hsplit htype
    have hmem : (flag, t, true) ∈ sets platform f.flags args := by simp [hsplit]
    have hbool : flag.type ≠ .bool := by
      intro hbool
      rw [hbool] at htype
      cases htype
    obtain ⟨v, w, hnumeral, hrange, hw, hv⟩ :=
      exists_of_clean htype (hsuit flag t hmem hbool) (hclean flag t hmem htype)
    refine ⟨v, hnumeral, hrange, fun hafter => ?_⟩
    rw [hsplit] at hrun
    rw [memory_of_sets hrun hw hafter, hv]

/-- `prog -n -5 -n +7`. -/
theorem integers_exact_sample : ∃ g,
    parse noFloats sample (["prog", "-n", "-5", "-n", "+7"].map ascii) = .returned g ∧
      g.memory 1 = .int 7 ∧
      Exact noFloats sample.flags (["-n", "-5", "-n", "+7"].map ascii) g := by
  obtain ⟨g, hg, hmemory⟩ : ∃ g,
      parse noFloats sample (["prog", "-n", "-5", "-n", "+7"].map ascii) = .returned g ∧
      g.memory 1 = .int 7 := ⟨_, rfl, by decide +kernel⟩
  have hclean : ∀ s ∈ sets noFloats sample.flags (["-n", "-5", "-n", "+7"].map ascii),
      Clean s.1.type s.2.1 := by
    decide +kernel
  exact ⟨g, hg, hmemory, (integers_exact_iff rfl hg).2 fun flag t hmem _ => hclean _ hmem⟩

/-- A program with `Uint(&n, "n", 0, "")`. -/
def sampleUint : Flag Unit Unit :=
  { sample with flags := [{ sampleFlag with type := .uint }], memory := fun _ => .uint 0 }

/-- `prog -n 12abc` sets an `Int` to 12, and `prog -n 4294967296` a `Uint` to 0. -/
theorem parse_cuts :
    (∃ g, parse noFloats sample (["prog", "-n", "12abc"].map ascii) = .returned g ∧
      g.memory 1 = .int 12 ∧ ¬ Exact noFloats sample.flags (["-n", "12abc"].map ascii) g) ∧
    ∃ g, parse noFloats sampleUint (["prog", "-n", "4294967296"].map ascii) = .returned g ∧
      g.memory 1 = .uint 0 := by
  refine ⟨⟨_, rfl, by decide +kernel, fun hexact => ?_⟩, _, rfl, by decide +kernel⟩
  have hsets : sets noFloats sample.flags (["-n", "12abc"].map ascii) =
      [] ++ (sampleFlag, ascii "12abc", true) :: [] := by decide +kernel
  obtain ⟨v, hnumeral, -⟩ := hexact [] _ _ [] hsets rfl
  exact absurd ((unsignedPart_of_numeral hnumeral).1 (ch 'a') (by decide +kernel)) (by decide)

end Flag

end Flags
end BreUtils
