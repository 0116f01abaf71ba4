/-
# Where `Decode` reads and writes

A group of four letters takes three bytes of the result.  The result has three bytes for
every four letters, less one or two for the padding, and the loop goes through all groups
that have three letters or more.  So the accesses of a call are inside exactly when
there is no `=`, no group has three letters, and every letter of a group is a byte below
123 (`safe_iff`).
-/

import BreUtils.Encoding.Base64RoundTrip

namespace BreUtils
namespace Base64

open Lib Cpp

variable {outside : ℤ → UInt8} {code res : Bytes} {strLen : ℤ} {a : Access} {g i j k : ℕ}

/-- An access stays inside the string or the table that it is for. -/
def Access.Inside (code : Bytes) (strLen : ℤ) : Access → Prop
  | .code i => i < code.length
  | .table k => 0 ≤ k ∧ k < Base64.table.length
  | .res j => (j : ℤ) < strLen

/-- The length of the result is no less than zero, every access is inside, and no `int` passes its
range. -/
structure Safe (outside : ℤ → UInt8) (code : Bytes) : Prop where
  length : 0 ≤ (decode outside code).strLen
  inside : ∀ a ∈ (decode outside code).accesses, a.Inside code (decode outside code).strLen
  range : (decode outside code).result ≠ .error .overflow

/-- The table has a place for the characters up to `z`. -/
theorem index_inside : ∀ c : UInt8,
    (0 ≤ (int c).toInt ∧ (int c).toInt < table.length) ↔ c.toNat ≤ 122 := by decide +kernel

/-- The index is the character, as an `int`. -/
theorem index_codeChar : index code i = (int (codeChar code i)).toInt := rfl

/-- A group is inside when its letters are there, stand in the table, and its bytes fit. -/
theorem group_inside_iff :
    (∀ a ∈ groupAccesses code i j, a.Inside code strLen) ↔
      i + 3 < code.length ∧ (∀ e < 4, (codeChar code (i + e)).toNat ≤ 122) ∧
        ((j + 2 : ℕ) : ℤ) < strLen := by
  have hletters : (∀ e < 4, (codeChar code (i + e)).toNat ≤ 122) ↔
      (codeChar code i).toNat ≤ 122 ∧ (codeChar code (i + 1)).toNat ≤ 122 ∧
        (codeChar code (i + 2)).toNat ≤ 122 ∧ (codeChar code (i + 3)).toNat ≤ 122 := by
    constructor
    · exact fun h => ⟨h 0 (by decide), h 1 (by decide), h 2 (by decide), h 3 (by decide)⟩
    · rintro ⟨h₀, h₁, h₂, h₃⟩ e he
      obtain rfl | rfl | rfl | rfl : e = 0 ∨ e = 1 ∨ e = 2 ∨ e = 3 := by omega
      · exact h₀
      · exact h₁
      · exact h₂
      · exact h₃
  rw [hletters]
  simp only [groupAccesses, List.forall_mem_cons, List.not_mem_nil, false_implies, implies_true,
    and_true, Access.Inside, index_codeChar, index_inside]
  constructor
  · rintro ⟨-, h₀, -, h₁, -, -, -, -, h₂, -, -, -, hcode, h₃, hres⟩
    exact ⟨hcode, ⟨h₀, h₁, h₂, h₃⟩, hres⟩
  · rintro ⟨hcode, ⟨h₀, h₁, h₂, h₃⟩, hres⟩
    refine ⟨?_, h₀, ?_, h₁, ?_, ?_, h₁, ?_, h₂, ?_, ?_, h₂, hcode, h₃, hres⟩ <;> omega

/-- One group of the loop, and the rest. -/
theorem decodeLoop_next (hk : 4 * k + 2 < code.length) (hfits : 4 * k + 4 < 2 ^ 31) :
    decodeLoop outside code (4 * k) (3 * k) res =
      (groupAccesses code (4 * k) (3 * k) ++
          (decodeLoop outside code (4 * (k + 1)) (3 * (k + 1))
            (decodeGroup outside code (4 * k) (3 * k) res)).1,
        (decodeLoop outside code (4 * (k + 1)) (3 * (k + 1))
          (decodeGroup outside code (4 * k) (3 * k) res)).2) := by
  rw [decodeLoop, if_pos (by omega), if_pos hfits]
  rfl

/-- The loop counts within its range when `i` does behind the last group. -/
theorem decodeLoop_range :
    (decodeLoop outside code (4 * k) (3 * k) res).2 ≠ .error .overflow ↔
      ∀ g, k ≤ g → 4 * g + 2 < code.length → 4 * g + 4 < 2 ^ 31 := by
  induction hn : code.length - 4 * k using Nat.strong_induction_on generalizing k res with
  | _ n ih =>
      by_cases hk : 4 * k + 2 < code.length
      · by_cases hfits : 4 * k + 4 < 2 ^ 31
        · rw [decodeLoop_next hk hfits, ih _ (by omega) rfl]
          constructor
          · intro h g hg hlt
            rcases hg.eq_or_lt with rfl | hg
            · exact hfits
            · exact h g hg hlt
          · exact fun h g hg hlt => h g (by omega) hlt
        · rw [decodeLoop_step hk, if_neg hfits]
          constructor
          · exact fun h => absurd rfl h
          · exact fun h => absurd (h k le_rfl hk) hfits
      · rw [decodeLoop_end (by omega)]
        constructor
        · intro _ g hg hlt
          omega
        · exact fun _ h => by cases h

/-- The loop goes through every group with three letters or more. -/
theorem mem_decodeLoop
    (hrange : (decodeLoop outside code (4 * k) (3 * k) res).2 ≠ .error .overflow) :
    a ∈ (decodeLoop outside code (4 * k) (3 * k) res).1 ↔
      ∃ g, k ≤ g ∧ 4 * g + 2 < code.length ∧ a ∈ groupAccesses code (4 * g) (3 * g) := by
  induction hn : code.length - 4 * k using Nat.strong_induction_on generalizing k res with
  | _ n ih =>
      by_cases hk : 4 * k + 2 < code.length
      · have hfits := decodeLoop_range.1 hrange k le_rfl hk
        rw [decodeLoop_next hk hfits] at hrange ⊢
        rw [List.mem_append, ih _ (by omega) hrange rfl]
        constructor
        · rintro (ha | ⟨g, hg, hlt, ha⟩)
          · exact ⟨k, le_rfl, hk, ha⟩
          · exact ⟨g, by omega, hlt, ha⟩
        · rintro ⟨g, hg, hlt, ha⟩
          rcases hg.eq_or_lt with rfl | hg
          · exact Or.inl ha
          · exact Or.inr ⟨g, hg, hlt, ha⟩
      · rw [decodeLoop_end (by omega)]
        constructor
        · exact fun h => absurd h List.not_mem_nil
        · rintro ⟨g, hg, hlt, -⟩
          omega

/-- What is safe about a call, group by group. -/
theorem safe_iff_groups :
    Safe outside code ↔ 0 ≤ decodedLength code ∧
      ∀ g, 4 * g + 2 < code.length → 4 * g + 4 < 2 ^ 31 ∧ 4 * g + 3 < code.length ∧
        (∀ e < 4, (codeChar code (4 * g + e)).toNat ≤ 122) ∧
        ((3 * g + 2 : ℕ) : ℤ) < decodedLength code := by
  by_cases hlength : 0 ≤ decodedLength code
  · have hdecode : decode outside code = ⟨decodedLength code,
        (decodeLoop outside code (4 * 0) (3 * 0)
          (List.replicate (decodedLength code).toNat 0)).1,
        (decodeLoop outside code (4 * 0) (3 * 0)
          (List.replicate (decodedLength code).toNat 0)).2⟩ := by
      unfold decode
      rw [if_neg (by omega)]
    constructor
    · rintro ⟨-, hinside, hrange⟩
      rw [hdecode] at hinside hrange
      refine ⟨hlength, fun g hg => ⟨decodeLoop_range.1 hrange g (Nat.zero_le _) hg, ?_⟩⟩
      refine group_inside_iff.1 fun a ha => ?_
      exact hinside a ((mem_decodeLoop hrange).2 ⟨g, Nat.zero_le _, hg, ha⟩)
    · rintro ⟨-, hgroups⟩
      have hrange : (decodeLoop outside code (4 * 0) (3 * 0)
          (List.replicate (decodedLength code).toNat 0)).2 ≠ .error .overflow :=
        decodeLoop_range.2 fun g _ hg => (hgroups g hg).1
      refine ⟨?_, ?_, ?_⟩
      · rw [hdecode]
        exact hlength
      · rw [hdecode]
        intro a ha
        obtain ⟨g, -, hg, ha⟩ := (mem_decodeLoop hrange).1 ha
        exact group_inside_iff.2 (hgroups g hg).2 a ha
      · rw [hdecode]
        exact hrange
  · constructor
    · rintro ⟨h, -, -⟩
      refine absurd ?_ hlength
      unfold decode at h
      rwa [if_pos (by omega)] at h
    · exact fun h => absurd h.1 hlength

/-- The length of the result, by what `find` says. -/
theorem decodedLength_eq (hcode : ch '=' ∉ code) :
    decodedLength code = (code.length : ℤ) / 4 * 3 := by
  have hone : position (ascii "=") code = none := by
    have hsingle : ascii "=" = [ch '='] := rfl
    rwa [position_eq_none_iff, hsingle, List.singleton_infix_iff]
  have htwo : position (ascii "==") code = none := by
    rw [position_eq_none_iff]
    exact fun h => hcode (h.subset (by decide +kernel))
  unfold decodedLength
  rw [if_neg (by simp [htwo]), if_neg (by simp [hone])]

/-- With padding the result is shorter than its groups. -/
theorem decodedLength_lt (hcode : ch '=' ∈ code) :
    decodedLength code < (code.length : ℤ) / 4 * 3 := by
  have hone : position (ascii "=") code ≠ none := by
    have hsingle : ascii "=" = [ch '='] := rfl
    rw [Ne, position_eq_none_iff, not_not, hsingle, List.singleton_infix_iff]
    exact hcode
  simp only [decodedLength]
  rw [if_pos hone]
  split_ifs <;> omega

/-- A character of the code. -/
theorem codeChar_eq (hi : i < code.length) : codeChar code i = code[i] := by
  rw [codeChar, List.getD_eq_getElem?_getD, List.getElem?_eq_getElem hi, Option.getD_some]

/-- The letters of the groups, one by one. -/
theorem letters_iff :
    (∀ g, 4 * g + 3 < code.length → ∀ e < 4, (codeChar code (4 * g + e)).toNat ≤ 122) ↔
      ∀ c ∈ code.take (code.length / 4 * 4), c.toNat ≤ 122 := by
  constructor
  · intro h c hc
    obtain ⟨i, hi, rfl⟩ := List.mem_iff_getElem.1 hc
    rw [List.length_take] at hi
    have hchar := h (i / 4) (by omega) (i % 4) (by omega)
    rw [Nat.div_add_mod, codeChar_eq (by omega)] at hchar
    rwa [List.getElem_take]
  · intro h g hg e he
    refine h _ (List.mem_iff_getElem.2 ⟨4 * g + e, ?_, ?_⟩)
    · rw [List.length_take]
      omega
    · rw [List.getElem_take, codeChar_eq]

/-- **When `Decode` is safe:** exactly when there is no `=` in the code, it does not end in three
letters over, it is shorter than `2 ^ 31` bytes, and no letter of a group is above 122. -/
theorem safe_iff (outside : ℤ → UInt8) (code : Bytes) :
    Safe outside code ↔ ch '=' ∉ code ∧ code.length % 4 ≠ 3 ∧ code.length < 2 ^ 31 ∧
      ∀ c ∈ code.take (code.length / 4 * 4), c.toNat ≤ 122 := by
  rw [safe_iff_groups, ← letters_iff]
  constructor
  · rintro ⟨hlength, hgroups⟩
    have hpadding : ch '=' ∉ code := by
      intro hmem
      have hlt := decodedLength_lt hmem
      obtain ⟨-, -, -, hres⟩ := hgroups (code.length / 4 - 1) (by omega)
      omega
    have hthree : code.length % 4 ≠ 3 := by
      intro hthree
      obtain ⟨-, hcode, -⟩ := hgroups (code.length / 4) (by omega)
      omega
    refine ⟨hpadding, hthree, ?_, fun g hg => (hgroups g (by omega)).2.2.1⟩
    by_contra hlong
    obtain ⟨hrange, -⟩ := hgroups (2 ^ 29 - 1) (by omega)
    omega
  · rintro ⟨hpadding, hthree, hrange, hletters⟩
    rw [decodedLength_eq hpadding]
    refine ⟨by omega, fun g hg => ⟨by omega, by omega, hletters g (by omega), by omega⟩⟩

/-- What `Encode` makes of one byte, `YQ==`: the result has one byte, and three are written. -/
theorem not_safe_padding :
    encode (ascii "a") = .ok (ascii "YQ==") ∧ (decode (fun _ => 0) (ascii "YQ==")).strLen = 1 ∧
      .res 1 ∈ (decode (fun _ => 0) (ascii "YQ==")).accesses ∧
      .res 2 ∈ (decode (fun _ => 0) (ascii "YQ==")).accesses ∧
      ¬ Safe (fun _ => 0) (ascii "YQ==") := by
  have hencode : encode (ascii "a") = .ok (ascii "YQ==") := by
    rw [encode_eq, if_pos (by decide)]
    rfl
  have hstrLen : (decode (fun _ => 0) (ascii "YQ==")).strLen = 1 := by decide +kernel
  have haccesses : (decode (fun _ => 0) (ascii "YQ==")).accesses =
      groupAccesses (ascii "YQ==") 0 0 := by
    unfold decode
    simp only
    rw [if_neg (by decide +kernel)]
    refine congrArg Prod.fst (decodeLoop_next (k := 0) (by decide) (by decide)) |>.trans ?_
    rw [decodeLoop_end (by decide), List.append_nil]
  refine ⟨hencode, hstrLen, by rw [haccesses]; decide +kernel, by rw [haccesses]; decide +kernel,
    fun hsafe => ?_⟩
  have hinside := hsafe.inside (.res 2) (by rw [haccesses]; decide +kernel)
  rw [hstrLen] at hinside
  exact absurd hinside (show ¬ ((2 : ℕ) : ℤ) < 1 by decide)

end Base64
end BreUtils
