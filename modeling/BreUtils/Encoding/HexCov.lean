/-
# `HexCov` of `HexCov.hpp`

`strToHex` writes two digits for each byte, and `hexToStr` puts pieces of two characters
through `std::stoi` with base 16.  So a text that was written is read back
(`hexToStr_strToHex`).  What `std::stoi` takes besides two digits, a blank or a sign in
front of a digit, or a digit in front of anything, is decoded to a byte too, and a text
decodes faithfully exactly if there is no such piece in it, or the call does not return
bytes (`faithful_iff`).

`intToHex` writes the bits of an `int`, and `hexToInt` reads a number, so that a negative one
does not come back (`intToHex_iff`).
-/

import BreUtils.Cpp.HexNumbers

namespace BreUtils
namespace HexCov

open Lib Cpp

/-- The loop of `hexToStr`, from `i` on.  `static_cast<char>` keeps the lowest eight bits. -/
def hexToStrLoop (hex : Bytes) (i : ℕ) (result : Bytes) : Except Exn Bytes :=
  if i < hex.length then do
    let byteString ← substr hex i 2
    let value ← stoiHex byteString
    hexToStrLoop hex (i + 2) (result ++ [value.toInt8.toUInt8])
  else .ok result
termination_by hex.length - i

/-- `hexToStr`. -/
def hexToStr (hex : Bytes) : Except Exn Bytes :=
  if hex.length % 2 ≠ 0 then .ok [] else hexToStrLoop hex 0 []

/-- `hexToInt`. -/
def hexToInt (hex : Bytes) : Int32 := extractHex hex

/-- `strToHex`. -/
def strToHex (str : Bytes) : Bytes :=
  str.foldl (fun oss c => oss ++ setw 2 (ch '0') (insertHex c.toUInt32.toInt32)) []

/-- `int digit = (isdigit(hexDigit)) ? hexDigit - '0' : tolower(hexDigit) - 'a' + 10`. -/
def digit (hexDigit : UInt8) : ℤ :=
  if isdigit hexDigit then hexDigit.toNat - (ch '0').toNat
  else (tolower hexDigit).toNat - (ch 'a').toNat + 10

/-- The bits 3 to 0 of `std::bitset<4> bits(digit)`. -/
def bits (digit : ℤ) : List Bool := [3, 2, 1, 0].map fun i => (BitVec.ofInt 4 digit).getLsbD i

/-- `intToHex`, with what is in `*binVec` afterwards, if there is one. -/
def intToHex (value : Int32) (asBinaryVector : Bool) (binVec : Option (List Bool)) :
    Bytes × Option (List Bool) :=
  let hexStr := insertHex value
  (hexStr, if asBinaryVector then
    binVec.map fun _ => hexStr.foldl (fun binVec hexDigit => binVec ++ bits (digit hexDigit)) []
  else binVec)

example : strToHex [0, 10, 255] = ascii "000aff" ∧ hexToStr (ascii "000aFF") = .ok [0, 10, 255] ∧
    intToHex 10 true (some []) = (ascii "a", some [true, false, true, false]) := by decide +kernel

/-! ### Pieces of two characters -/

variable {a b c : UInt8} {hex s t result r : Bytes} {i : ℕ}

/-- The pieces of two characters. -/
def pieces : Bytes → List (UInt8 × UInt8)
  | a :: b :: s => (a, b) :: pieces s
  | _ => []

/-- What `hexToStr` makes of a piece. -/
def decodePiece (a b : UInt8) : Except Exn UInt8 :=
  (stoiHex [a, b]).map fun value => value.toInt8.toUInt8

/-- At the end of the text the loop is over. -/
theorem hexToStrLoop_nil (h : At hex i []) : hexToStrLoop hex i result = .ok result := by
  have hlength := h.add_length
  rw [List.length_nil] at hlength
  rw [hexToStrLoop, if_neg (by omega)]

/-- The next piece. -/
theorem hexToStrLoop_cons (h : At hex i (a :: b :: s)) : hexToStrLoop hex i result =
    (decodePiece a b).bind fun byte => hexToStrLoop hex (i + 2) (result ++ [byte]) := by
  have hlength := h.add_length
  rw [List.length_cons] at hlength
  rw [hexToStrLoop, if_pos (by omega), substr_at h, decodePiece]
  simp only [List.take_succ_cons, List.take_zero, ok_bind]
  cases stoiHex [a, b] <;> rfl

/-- **The loop goes through the pieces.** -/
theorem hexToStrLoop_eq (h : At hex i s) (heven : s.length % 2 = 0) :
    hexToStrLoop hex i result =
      ((pieces s).mapM fun p => decodePiece p.1 p.2).map fun bytes => result ++ bytes := by
  induction s using pieces.induct generalizing i result with
  | case1 a b s ih =>
      have heven' : s.length % 2 = 0 := by
        simp only [List.length_cons] at heven
        omega
      have hrest (byte : UInt8) : hexToStrLoop hex (i + 2) (result ++ [byte]) =
          ((pieces s).mapM fun p => decodePiece p.1 p.2).map
            fun bytes => result ++ [byte] ++ bytes := ih h.next.next heven'
      rw [hexToStrLoop_cons h, pieces, List.mapM_cons]
      cases decodePiece a b with
      | error e => rfl
      | ok byte =>
          simp only [Except.bind, hrest, ok_bind]
          cases (pieces s).mapM fun p => decodePiece p.1 p.2 with
          | error e => rfl
          | ok bytes => exact congrArg Except.ok (List.append_assoc result [byte] bytes)
  | case2 s hs =>
      cases s with
      | nil =>
          rw [hexToStrLoop_nil h]
          exact congrArg Except.ok (List.append_nil result).symm
      | cons a s =>
          cases s with
          | nil => simp at heven
          | cons b s => exact absurd rfl (hs a b s)

/-- `hexToStr`, piece by piece. -/
theorem hexToStr_eq (heven : hex.length % 2 = 0) :
    hexToStr hex = (pieces hex).mapM fun p => decodePiece p.1 p.2 := by
  rw [hexToStr, if_neg (by simpa using heven), hexToStrLoop_eq (At.start hex) heven]
  cases (pieces hex).mapM fun p => decodePiece p.1 p.2 <;> rfl

/-! ### One byte -/

/-- The two digits of a byte. -/
def byteDigits (c : UInt8) : Bytes := [hexChar (c.toNat / 16), hexChar (c.toNat % 16)]

/-- `setw(2)` and `hex` write a byte as its two digits. -/
theorem setw_insertHex : ∀ c : UInt8,
    setw 2 (ch '0') (insertHex c.toUInt32.toInt32) = byteDigits c := by
  decide +kernel

/-- **`strToHex` writes two digits for each byte.** -/
theorem strToHex_eq (str : Bytes) : strToHex str = str.flatMap byteDigits := by
  unfold strToHex
  simp only [setw_insertHex]
  rw [List.flatMap_eq_foldl]

/-- A digit, in lower case, is the one that is written for its value. -/
theorem exists_hexChar_eq_tolower : ∀ c, isxdigit c = true →
    ∃ d < 16, hexValue c = some d ∧ hexChar d = tolower c := by
  decide +kernel

/-- An `int` below 256 is cut to its byte. -/
theorem toUInt8_ofInt : ∀ n < 256, (Int32.ofInt (n : ℕ)).toInt8.toUInt8 = UInt8.ofNat n := by
  decide +kernel

/-- **Two digits are a byte.** -/
theorem decodePiece_of_isxdigit (ha : isxdigit a = true) (hb : isxdigit b = true) :
    ∃ c, decodePiece a b = .ok c ∧ byteDigits c = [tolower a, tolower b] := by
  obtain ⟨x, hx, hax, hxa⟩ := exists_hexChar_eq_tolower a ha
  obtain ⟨y, hy, hby, hyb⟩ := exists_hexChar_eq_tolower b hb
  have hvalues : [a, b].filterMap hexValue = [x, y] := by simp [hax, hby]
  have hvalue : ofDigits 16 [x, y] = 16 * x + y := by simp [ofDigits]
  have hread := strtoHexInteger_of_isxdigit (List.cons_ne_nil a [b])
    (List.forall_mem_cons.2 ⟨ha, List.forall_mem_singleton.2 hb⟩)
  rw [hvalues, hvalue] at hread
  refine ⟨UInt8.ofNat (16 * x + y), ?_, ?_⟩
  · have hrange : -2 ^ 31 ≤ ((16 * x + y : ℕ) : ℤ) ∧ ((16 * x + y : ℕ) : ℤ) < 2 ^ 31 := by omega
    rw [decodePiece, stoiHex, hread]
    simp only [signed, Bool.false_eq_true, if_false]
    rw [if_pos hrange, Except.map, toUInt8_ofInt _ (by omega)]
  · have hbyte : (UInt8.ofNat (16 * x + y)).toNat = 16 * x + y := by
      rw [UInt8.toNat_ofNat']
      omega
    rw [byteDigits, hbyte, ← hxa, ← hyb]
    congr 3 <;> omega

/-- The digits are lower case. -/
theorem mem_ascii_of_mem_byteDigits (hb : b ∈ byteDigits c) : b ∈ ascii "0123456789abcdef" := by
  have hall : ∀ d < 16, hexChar d ∈ ascii "0123456789abcdef" := by
    decide +kernel
  have hc := c.toNat_lt
  simp only [byteDigits, List.mem_cons, List.not_mem_nil, or_false] at hb
  rcases hb with rfl | rfl
  · exact hall _ (by omega)
  · exact hall _ (by omega)

/-- **Two digits read back as the byte.** -/
theorem decodePiece_byteDigits :
    ∀ c : UInt8, decodePiece (hexChar (c.toNat / 16)) (hexChar (c.toNat % 16)) = .ok c := by
  decide +kernel

/-! ### Texts of digits -/

/-- **A text of digits decodes** to the bytes that it is written for. -/
theorem exists_decode (heven : hex.length % 2 = 0) (hdigits : ∀ c ∈ hex, isxdigit c = true) :
    ∃ r, hexToStr hex = .ok r ∧ strToHex r = hex.map tolower := by
  rw [hexToStr_eq heven]
  simp only [strToHex_eq]
  induction hex using pieces.induct with
  | case1 a b s ih =>
      obtain ⟨c, hc, hbyte⟩ := decodePiece_of_isxdigit (hdigits a (by simp)) (hdigits b (by simp))
      obtain ⟨r, hr, hwritten⟩ := ih (by simp only [List.length_cons] at heven; omega)
        fun d hd => hdigits d (by simp [hd])
      refine ⟨c :: r, ?_, ?_⟩
      · rw [pieces, List.mapM_cons, hc, hr]
        rfl
      · rw [List.flatMap_cons, hbyte, hwritten]
        rfl
  | case2 s hs =>
      cases s with
      | nil => exact ⟨[], rfl, rfl⟩
      | cons a s =>
          cases s with
          | nil => simp at heven
          | cons b s => exact absurd rfl (hs a b s)

/-- Two digits for each byte. -/
theorem length_strToHex (str : Bytes) : (strToHex str).length = 2 * str.length := by
  rw [strToHex_eq, List.length_flatMap]
  simp [byteDigits, Nat.mul_comm]

/-- The pieces of what is written for bytes are the digits of each of them. -/
theorem mapM_pieces_strToHex (str : Bytes) :
    ((pieces (strToHex str)).mapM fun p => decodePiece p.1 p.2) = .ok str := by
  rw [strToHex_eq]
  induction str with
  | nil => rfl
  | cons c str ih =>
      rw [List.flatMap_cons, byteDigits, List.cons_append, List.singleton_append, pieces,
        List.mapM_cons, decodePiece_byteDigits, ih]
      rfl

/-- **What is written for bytes is read back as these bytes:** two digits in lower case for each
of them. -/
theorem hexToStr_strToHex (s : Bytes) :
    (strToHex s = s.flatMap fun c => [hexChar (c.toNat / 16), hexChar (c.toNat % 16)]) ∧
      (strToHex s).length = 2 * s.length ∧
      (∀ c ∈ strToHex s, c ∈ ascii "0123456789abcdef") ∧
      hexToStr (strToHex s) = .ok s := by
  refine ⟨strToHex_eq s, length_strToHex s, fun c hc => ?_, ?_⟩
  · rw [strToHex_eq, List.mem_flatMap] at hc
    obtain ⟨b, -, hc⟩ := hc
    exact mem_ascii_of_mem_byteDigits hc
  · rw [hexToStr_eq (by rw [length_strToHex]; omega), mapM_pieces_strToHex]

/-! ### Any texts -/

/-- `std::stoi` finds no number at the front of a piece. -/
def NoNumber (a b : UInt8) : Prop :=
  isxdigit a = false ∧ ¬ ((isspace a = true ∨ a = ch '-' ∨ a = ch '+') ∧ isxdigit b = true)

/-- **A text decodes faithfully:** if bytes are returned for it, it is what is written for them,
in lower case or not. -/
def Faithful (hex : Bytes) : Prop :=
  ∀ r, hexToStr hex = .ok r → r ≠ [] →
    (∀ c ∈ hex, isxdigit c = true) ∧ strToHex r = hex.map tolower

/-- Two characters without a number start with no digit. -/
theorem hexField_eq_nil_iff : hexField [a, b] = [] ↔ isxdigit a = false := by
  cases ha : hexValue a with
  | none => simp [hexField, hexPrefix, isxdigit, ha]
  | some v => simp [hexField, hexPrefix, isxdigit, ha]

/-- Nor is one character a number that is no digit. -/
theorem hexField_singleton_eq_nil_iff : hexField [b] = [] ↔ isxdigit b = false := by
  cases hb : hexValue b with
  | none => simp [hexField, hexPrefix, isxdigit, hb]
  | some v => simp [hexField, hexPrefix, isxdigit, hb]

/-- There is no number without a digit behind blanks and a sign. -/
theorem strtoHexInteger_eq_none_iff {s : Bytes} : strtoHexInteger s = none ↔
    hexField (if (s.dropWhile isspace).head? = some (ch '-') ∨
        (s.dropWhile isspace).head? = some (ch '+') then (s.dropWhile isspace).tail
      else s.dropWhile isspace) = [] := by
  simp [strtoHexInteger]

/-- So it is with a piece of two characters. -/
theorem strtoHexInteger_piece : strtoHexInteger [a, b] = none ↔ NoNumber a b := by
  have hspace (c : UInt8) (hc : isspace c = true) : isxdigit c = false := by
    rw [← Bool.not_eq_true]
    exact fun hdigit => absurd (not_isspace_of_isxdigit c hdigit) (by simp [hc])
  have hsign (c : UInt8) (hc : c = ch '-' ∨ c = ch '+') :
      isxdigit c = false ∧ isspace c = false := by
    rcases hc with rfl | rfl <;> decide
  rw [strtoHexInteger_eq_none_iff, NoNumber]
  by_cases ha : isspace a = true
  · rw [List.dropWhile_cons_of_pos ha]
    by_cases hb : isspace b = true
    · rw [List.dropWhile_cons_of_pos hb]
      simp [hspace a ha, hspace b hb, hexField, hexPrefix]
    · rw [List.dropWhile_cons_of_neg hb]
      by_cases hb' : b = ch '-' ∨ b = ch '+'
      · simp [hb', hspace a ha, (hsign b hb').1, hexField, hexPrefix]
      · simp [hb', hspace a ha, ha, hexField_singleton_eq_nil_iff]
  · rw [List.dropWhile_cons_of_neg ha]
    by_cases ha' : a = ch '-' ∨ a = ch '+'
    · simp [ha', (hsign a ha').1, hexField_singleton_eq_nil_iff]
    · simp [ha', ha, hexField_eq_nil_iff]

/-- **Which pieces are decoded.** -/
theorem exists_decodePiece_iff : (∃ c, decodePiece a b = .ok c) ↔ ¬ NoNumber a b := by
  rw [← strtoHexInteger_piece]
  cases hread : strtoHexInteger [a, b] with
  | none =>
      refine iff_of_false ?_ (fun h => h rfl)
      rintro ⟨c, hc⟩
      rw [decodePiece, stoiHex, hread] at hc
      cases hc
  | some e =>
      obtain ⟨negative, n⟩ := e
      have hn : n < 16 ^ 2 := lt_of_strtoHexInteger hread
      have hrange : -2 ^ 31 ≤ signed negative n ∧ signed negative n < 2 ^ 31 := by
        unfold signed
        split_ifs <;> omega
      refine iff_of_true ⟨(Int32.ofInt (signed negative n)).toInt8.toUInt8, ?_⟩ (by simp)
      rw [decodePiece, stoiHex, hread]
      simp only [hrange, and_self, if_true]
      rfl

/-- All pieces are decoded if each has a number. -/
theorem exists_mapM_iff {l : List (UInt8 × UInt8)} :
    (∃ r, l.mapM (fun p => decodePiece p.1 p.2) = .ok r) ↔ ∀ p ∈ l, ¬ NoNumber p.1 p.2 := by
  induction l with
  | nil => exact iff_of_true ⟨[], rfl⟩ (fun p hp => absurd hp List.not_mem_nil)
  | cons p l ih =>
      rw [List.forall_mem_cons, ← ih, ← exists_decodePiece_iff, List.mapM_cons]
      constructor
      · rintro ⟨r, hr⟩
        obtain ⟨c, hc, hr⟩ := bind_eq_ok.1 hr
        obtain ⟨rest, hrest, -⟩ := bind_eq_ok.1 hr
        exact ⟨⟨c, hc⟩, rest, hrest⟩
      · rintro ⟨⟨c, hc⟩, rest, hrest⟩
        refine ⟨c :: rest, ?_⟩
        rw [hc, hrest]
        rfl

/-- Something is decoded to something. -/
theorem eq_nil_of_mapM (heven : hex.length % 2 = 0)
    (h : (pieces hex).mapM (fun p => decodePiece p.1 p.2) = .ok []) : hex = [] := by
  cases hex with
  | nil => rfl
  | cons a s =>
      cases s with
      | nil => simp at heven
      | cons b s =>
          rw [pieces, List.mapM_cons] at h
          obtain ⟨c, -, h⟩ := bind_eq_ok.1 h
          obtain ⟨r, -, h⟩ := bind_eq_ok.1 h
          cases h

/-- **When decoding is faithful:** exactly if the text has an odd length, consists of digits, or has
a piece without a number at its front. -/
theorem faithful_iff (hex : Bytes) :
    Faithful hex ↔ hex.length % 2 = 1 ∨ (∀ c ∈ hex, isxdigit c = true) ∨
      ∃ p ∈ pieces hex, NoNumber p.1 p.2 := by
  rcases Nat.mod_two_eq_zero_or_one hex.length with heven | hodd
  · by_cases hdigits : ∀ c ∈ hex, isxdigit c = true
    · refine iff_of_true (fun r hr _ => ⟨hdigits, ?_⟩) (Or.inr (Or.inl hdigits))
      obtain ⟨r', hr', hwritten⟩ := exists_decode heven hdigits
      rwa [Except.ok.inj (hr.symm.trans hr')]
    · by_cases hpieces : ∃ p ∈ pieces hex, NoNumber p.1 p.2
      · refine iff_of_true (fun r hr _ => ?_) (Or.inr (Or.inr hpieces))
        obtain ⟨p, hp, hno⟩ := hpieces
        rw [hexToStr_eq heven] at hr
        exact absurd hno (exists_mapM_iff.1 ⟨r, hr⟩ p hp)
      · refine iff_of_false (fun hfaithful => ?_) ?_
        · obtain ⟨r, hr⟩ := exists_mapM_iff.2 fun p hp hno => hpieces ⟨p, hp, hno⟩
          have hne : r ≠ [] := by
            rintro rfl
            exact hdigits fun c hc => absurd hc (by simp [eq_nil_of_mapM heven hr])
          exact hdigits (hfaithful r ((hexToStr_eq heven).trans hr) hne).1
        · rintro (hodd | hall | hno)
          · omega
          · exact hdigits hall
          · exact hpieces hno
  · refine iff_of_true (fun r hr hne => ?_) (Or.inl hodd)
    rw [hexToStr, if_pos (by omega)] at hr
    exact absurd (Except.ok.inj hr).symm hne

/-- A digit with something behind it that is none. -/
theorem decodes_partial : hexToStr (ascii "5g") = .ok [5] ∧ ¬ Faithful (ascii "5g") := by
  have hdecoded : hexToStr (ascii "5g") = .ok [5] := by decide +kernel
  refine ⟨hdecoded, fun hfaithful => ?_⟩
  have hdigits := (hfaithful [5] hdecoded (List.cons_ne_nil _ _)).1
  exact absurd (hdigits (ch 'g') (by decide)) (by decide)

/-! ### Integers -/

variable {v : Int32} {ds : List ℕ}

/-- The digits read back from their characters. -/
theorem hexValue_map_hexChar (hds : ∀ d ∈ ds, d < 16) :
    (ds.map hexChar).filterMap hexValue = ds := by
  induction ds with
  | nil => rfl
  | cons d ds ih =>
      rw [List.map_cons, List.filterMap_cons_some (hexValue_hexChar d (hds d (by simp))),
        ih fun e he => hds e (by simp [he])]

/-- `hexToInt` reads the bits of an `int` as a number. -/
theorem hexToInt_insertHex (v : Int32) :
    hexToInt (insertHex v) = nearestInt (v.toUInt32.toNat : ℕ) := by
  have hdigits : ∀ c ∈ insertHex v, isxdigit c = true := by
    intro c hc
    obtain ⟨d, hd, rfl⟩ := List.mem_map.1 hc
    exact isxdigit_hexChar (lt_of_mem_hexDigits hd)
  have hne : insertHex v ≠ [] := by simpa [insertHex] using hexDigits_ne_nil _
  rw [hexToInt, extractHex, strtoHexInteger_of_isxdigit hne hdigits, insertHex,
    hexValue_map_hexChar fun d hd => lt_of_mem_hexDigits hd, ofDigits_hexDigits]
  rfl

/-- The number that bits denote, the highest first. -/
def ofBits (bs : List Bool) : ℕ := ofDigits 2 (bs.map Bool.toNat)

/-- **The bits in `*binVec`:** they denote the number with the bits of `v`, and there are four for
each of its digits in base sixteen, the first of which is zero only if it is the only one. -/
def FillsBits (v : Int32) : Prop :=
  ∀ binVec, ∃ bs, (intToHex v true (some binVec)).2 = some bs ∧ ofBits bs = v.toUInt32.toNat ∧
    bs.length % 4 = 0 ∧ bs ≠ [] ∧
    (bs.take 4 = [false, false, false, false] → bs = [false, false, false, false])

/-- The four bits of a digit are the digit. -/
theorem bits_digit : ∀ d < 16, ofBits (bits (digit (hexChar d))) = d ∧
    (bits (digit (hexChar d)) = [false, false, false, false] → d = 0) := by
  decide +kernel

/-- Four bits for each digit. -/
theorem length_bits (n : ℤ) : (bits n).length = 4 := rfl

/-- More bits behind the others. -/
theorem ofBits_append (bs bs' : List Bool) :
    ofBits (bs ++ bs') = 2 ^ bs'.length * ofBits bs + ofBits bs' := by
  induction bs' using List.reverseRecOn with
  | nil => simp [ofBits, ofDigits]
  | append_singleton bs' d ih =>
      have hconcat (l : List Bool) : ofBits (l ++ [d]) = 2 * ofBits l + d.toNat := by
        simp [ofBits, ofDigits_append]
      rw [← List.append_assoc, hconcat, hconcat, ih, List.length_append, List.length_singleton,
        Nat.pow_succ', Nat.mul_add, Nat.mul_assoc, Nat.add_assoc]

/-- The bits of some digits denote the number that the digits denote. -/
theorem ofBits_flatMap (hds : ∀ d ∈ ds, d < 16) :
    ofBits (ds.flatMap fun d => bits (digit (hexChar d))) = ofDigits 16 ds := by
  induction ds using List.reverseRecOn with
  | nil => rfl
  | append_singleton ds d ih =>
      have hd := hds d List.mem_concat_self
      rw [List.flatMap_append, List.flatMap_singleton, ofBits_append, length_bits,
        ih fun e he => hds e (List.mem_append_left _ he), (bits_digit d hd).1, ofDigits_append]
      rfl

/-- The first digit is zero only if it is the only one. -/
theorem take_flatMap_bits {n : ℕ}
    (h : ((hexDigits n).flatMap fun d => bits (digit (hexChar d))).take 4 =
      [false, false, false, false]) : n = 0 := by
  by_contra hn
  obtain ⟨d, ds, hds⟩ := List.exists_cons_of_ne_nil (hexDigits_ne_nil n)
  have hd : d < 16 := lt_of_mem_hexDigits (hds ▸ List.mem_cons_self)
  rw [hds, List.flatMap_cons, List.take_left' (length_bits _)] at h
  obtain rfl := (bits_digit d hd).2 h
  exact head?_hexDigits hn (by rw [hds]; rfl)

/-- **The bits of the digits fill the vector.** -/
theorem fillsBits (v : Int32) : FillsBits v := by
  intro binVec
  have hlt (d : ℕ) (hd : d ∈ hexDigits v.toUInt32.toNat) : d < 16 := lt_of_mem_hexDigits hd
  obtain ⟨d, ds, hds⟩ := List.exists_cons_of_ne_nil (hexDigits_ne_nil v.toUInt32.toNat)
  refine ⟨(hexDigits v.toUInt32.toNat).flatMap fun d => bits (digit (hexChar d)),
    ?_, ?_, ?_, ?_, ?_⟩
  · simp only [intToHex, if_true, Option.map_some, Option.some.injEq]
    rw [← List.flatMap_eq_foldl, insertHex, List.flatMap_map]
  · rw [ofBits_flatMap hlt, ofDigits_hexDigits]
  · simp [List.length_flatMap, length_bits]
  · rw [hds, List.flatMap_cons]
    exact List.append_ne_nil_of_left_ne_nil (List.cons_ne_nil _ _) _
  · intro hzero
    rw [take_flatMap_bits hzero]
    rfl

/-- An `int` that is not negative is its bits as a number. -/
theorem toInt_eq (v : Int32) : v.toInt =
    if v.toUInt32.toNat < 2 ^ 31 then (v.toUInt32.toNat : ℤ) else v.toUInt32.toNat - 2 ^ 32 := by
  have hcond := BitVec.toInt_eq_toNat_cond v.toBitVec
  change v.toInt = _ at hcond
  have hbits : v.toBitVec.toNat = v.toUInt32.toNat := rfl
  rw [hcond, hbits]
  split_ifs <;> omega

/-- A number that does not fit becomes the nearest `int`. -/
theorem toInt_nearestInt (n : ℤ) : (nearestInt n).toInt = max (-2 ^ 31) (min n (2 ^ 31 - 1)) := by
  rw [nearestInt, Int32.toInt_ofInt_of_le]
  · exact le_max_left _ _
  · omega

/-- **When an `int` comes back:** exactly if it is not negative.  The bits are always right. -/
theorem intToHex_iff (v : Int32) :
    (hexToInt (intToHex v false none).1 = v ∧ FillsBits v ↔ 0 ≤ v) ∧ FillsBits v := by
  refine ⟨?_, fillsBits v⟩
  rw [and_iff_left (fillsBits v)]
  change hexToInt (insertHex v) = v ↔ 0 ≤ v
  have hlt := v.toUInt32.toNat_lt
  have hv := toInt_eq v
  rw [hexToInt_insertHex, ← Int32.toInt_inj, toInt_nearestInt, Int32.le_iff_toInt_le]
  change _ ↔ 0 ≤ v.toInt
  split_ifs at hv <;> omega

/-- Minus one comes back as the largest `int`. -/
theorem hexToInt_minus_one : hexToInt (intToHex (-1) false none).1 = 2147483647 ∧
    hexToInt (intToHex (-1) false none).1 ≠ -1 := by
  decide +kernel

end HexCov
end BreUtils
