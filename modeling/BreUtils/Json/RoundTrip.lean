/-
# What the generator writes, the parser reads

The text that `Generator::generate` writes for a value without doubles is a text
of the dialect, and what it denotes there is the value: the layout of the generator
fits the dialect (`dialect_fits`), which reads its integers and its escaped strings.
Whatever order the objects are iterated in, the parser returns an equal value.
-/

import BreUtils.Json.Completeness
import BreUtils.Json.Layout

namespace BreUtils
namespace Json

open Lib Cpp
open Rfc8259 (Number)

variable {D : Type}

/-! ### Integers -/

/-- The last digit, and the digits of the tenth part before it. -/
theorem ascii_toString (n : ℕ) : ascii (toString n) =
    if n < 10 then [ch (Nat.digitChar n)]
    else ascii (toString (n / 10)) ++ [ch (Nat.digitChar (n % 10))] := by
  simp only [ascii, Nat.toString_eq_ofList_toDigits, String.toList_ofList]
  split_ifs with hn
  · rw [Nat.toDigits_of_lt_base hn]
    rfl
  · rw [Nat.toDigits_of_base_le (by omega) (by omega), List.map_append]
    rfl

/-- The decimal digits of a natural number. -/
theorem digits_toString (n : ℕ) : ascii (toString n) ≠ [] ∧
    (∀ c ∈ ascii (toString n), isdigit c = true) ∧ Number.ofDigits (ascii (toString n)) = n := by
  have hdigit : ∀ d < 10, isdigit (ch (Nat.digitChar d)) = true ∧
      (ch (Nat.digitChar d)).toNat - 48 = d := by
    decide
  induction n using Nat.strong_induction_on with
  | _ n ih =>
      rw [ascii_toString]
      split_ifs with hn
      · simp [hdigit n hn, Number.ofDigits]
      · obtain ⟨-, hall, hval⟩ := ih (n / 10) (by omega)
        obtain ⟨hd, hdval⟩ := hdigit (n % 10) (Nat.mod_lt _ (by omega))
        rw [Number.ofDigits] at hval
        refine ⟨by simp, fun c hc => ?_, ?_⟩
        · rcases List.mem_append.1 hc with hc | hc
          · exact hall c hc
          · rw [List.mem_singleton] at hc
            rw [hc, hd]
        · rw [Number.ofDigits, List.foldl_append, hval]
          simp only [List.foldl_cons, List.foldl_nil, hdval]
          omega

/-- `std::to_string(int)` writes a number literal with the value it was given. -/
theorem derives_toStringInt (rt : Runtime D) (i : Int32) {t : Bytes} (ht : MayFollow t) :
    Derives (dialect rt) (toStringInt i ++ t) (.value (.int i)) t := by
  obtain ⟨hne, hall, hval⟩ := digits_toString i.toInt.natAbs
  have hrange := i.le_toInt
  have hrange' := i.toInt_lt
  have hv : Number.intValue ⟨decide (i.toInt < 0), ascii (toString i.toInt.natAbs), none, none⟩ =
      i.toInt := by
    simp only [Number.intValue, hval, decide_eq_true_eq]
    split_ifs <;> omega
  refine .number ⟨⟨decide (i.toInt < 0), ascii (toString i.toInt.natAbs), none, none⟩,
    ⟨Or.inr hne, hall, by simp, by simp⟩, ht.longest, Or.inl hne, ?_, ?_⟩
  · rw [numberValue, if_pos ⟨rfl, rfl, by omega, by omega⟩, hv, Int32.ofInt_toInt]
  · simp [toStringInt, Number.text, Rfc8259.signText, Rfc8259.fracText, Rfc8259.expText]

/-! ### Strings -/

/-- **Every escaped string is read back**, whatever bytes it has. -/
theorem chars_escapeString (rt : Runtime D) (s t : Bytes) :
    Chars rt (escapeString s ++ ch '"' :: t) s t := by
  induction s with
  | nil => exact .close t
  | cons c s ih =>
      rw [escapeString, List.flatMap_cons, List.append_assoc]
      rw [escapeString] at ih
      have escaped {e : UInt8} (h : escapeChar c = [ch '\\', e]) (he : Rfc8259.escape e = some c) :
          Chars rt (escapeChar c ++ (s.flatMap escapeChar ++ ch '"' :: t)) (c :: s) t := by
        rw [h]
        exact .escape (w := [c]) (.simple he) ih
      by_cases h : c ∈ [ch '"', ch '\\', 0x08, 0x0C, ch '\n', ch '\r', ch '\t']
      · simp only [List.mem_cons, List.not_mem_nil, or_false] at h
        rcases h with rfl | rfl | rfl | rfl | rfl | rfl | rfl <;> exact escaped rfl rfl
      · simp only [List.mem_cons, List.not_mem_nil, or_false, not_or] at h
        obtain ⟨h₁, h₂, h₃, h₄, h₅, h₆, h₇⟩ := h
        rw [escapeChar, if_neg h₁, if_neg h₂, if_neg h₃, if_neg h₄, if_neg h₅, if_neg h₆, if_neg h₇]
        exact .raw h₁ h₂ ih

/-- What `escapeString` writes is a string of the dialect. -/
theorem string_escapeString (rt : Runtime D) (s t : Bytes) :
    (dialect rt).string (ascii "\"" ++ escapeString s ++ ascii "\"" ++ t) s t :=
  ⟨_, by simp [ascii], chars_escapeString rt s t⟩

/-! ### Values -/

/-- **The layout of the generator fits the dialect**, in which a value denotes its canonical form,
and any bytes may be a string. -/
theorem dialect_fits (rt : Runtime D) : Fits (dialect rt) (fun _ => True) id Value.canon where
  refl := .refl
  gap h h' := by
    obtain ⟨w, hw, rfl⟩ := h
    exact Spaces.trans ⟨w, fun c hc => isspace_of_isWs c (hw c hc), rfl⟩ h'
  trail _ := rfl
  null := by rw [Value.canon]; rfl
  bool b := by rw [Value.canon]; rfl
  int i t ht := by
    rw [Value.canon]
    exact derives_toStringInt rt i fun c hc => (ht c hc).imp_left (isspace_of_isWs c)
  string s := by rw [Value.canon]; rfl
  text t _ := string_escapeString rt _ t
  array a := Value.canon_array a
  object o _ := ⟨_, AssocMap.lastWins_foldl _, Value.canon_object o⟩

/-- There is nothing to ask of the texts. -/
theorem Value.WF.allText {v : Value D} (hv : v.WF) : v.AllText fun _ => True := by
  induction hv with
  | null => exact .null
  | bool b => exact .bool b
  | int i => exact .int i
  | double d => exact .double d
  | string s => exact .string trivial
  | array _ ih => exact .array ih
  | object _ _ ih => exact .object (fun _ _ => trivial) ih

/-- The layout of a call of `generate` has room. -/
theorem room_of_pretty {v : Value D} {pretty : Bool} {indentWidth : Int32}
    (hroom : pretty = true → v.depth * indentWidth.toInt < 2 ^ 31) :
    Room (if pretty then indentWidth else 0) (0 + v.depth) := fun hw => by
  cases pretty with
  | true => simpa using hroom rfl
  | false => simp at hw

/-- **The round trip.**  For every value without doubles, in either layout and every indentation
that does not overflow, `generate` writes a text, and strict mode reads an equal value back. -/
theorem parse_generate (rt : Runtime D) {v : Value D} (hv : v.WF) (hd : v.NoDouble)
    (pretty : Bool) (indentWidth : Int32)
    (hroom : pretty = true → v.depth * indentWidth.toInt < 2 ^ 31) :
    ∃ text, generate rt v pretty indentWidth = some text ∧
      ∃ w, parse rt text true = .ok w ∧ w.beq rt v = true := by
  obtain ⟨text, htext, hwrites⟩ :=
    (dialect_fits rt).generateValue_writes rt hv hd hv.allText (room_of_pretty hroom)
  refine ⟨text, htext, v.canon, ?_, Value.canon_beq hv hd⟩
  have h := hwrites [] (by simp [Closes])
  rw [List.append_nil] at h
  exact parse_of_derives (.refl _) h

/-- `parse_generate` at an object with a nested array, in the default layout. -/
theorem parse_generate_sample :
    let v : Value ℚ :=
      .object [(ascii "k", .array [.int (-1), .string (ascii "\"\n")]), ([], .null)]
    ∃ text, generate Runtime.exact v true 2 = some text ∧
      ∃ w, parse Runtime.exact text true = .ok w ∧ w.beq Runtime.exact v = true := by
  refine parse_generate Runtime.exact ?_ ?_ true 2 fun _ => ?_
  · refine .object (by decide) ?_
    rintro e he
    simp only [List.mem_cons, List.not_mem_nil, or_false] at he
    rcases he with rfl | rfl
    · refine .array fun v hv => ?_
      simp only [List.mem_cons, List.not_mem_nil, or_false] at hv
      rcases hv with rfl | rfl
      · exact .int _
      · exact .string _
    · exact .null
  · refine .object ?_
    rintro e he
    simp only [List.mem_cons, List.not_mem_nil, or_false] at he
    rcases he with rfl | rfl
    · refine .array fun v hv => ?_
      simp only [List.mem_cons, List.not_mem_nil, or_false] at hv
      rcases hv with rfl | rfl
      · exact .int _
      · exact .string _
    · exact .null
  · simp [Value.depth, Int32.toInt]

end Json
end BreUtils
