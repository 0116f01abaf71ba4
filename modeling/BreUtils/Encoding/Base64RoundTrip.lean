/-
# There and back again: `Encode`, then `Decode`

`Encode` writes the encoding of RFC 4648, as long as its `int`s last, and fails when they
do not (`encode_eq`).  `Decode` gets the bytes back out of such an encoding
(`decode_encode`).  What is written for the padding falls behind the end of the result.
-/

import BreUtils.Encoding.Base64

namespace BreUtils
namespace Base64

open Lib Cpp Rfc4648

variable {u v s str : Bytes} {a b c x : UInt8} {i j k : ℕ}

/-! ### Six bits at a time -/

/-- `base64_table` has the letter of a digit. -/
theorem base64Char_ofNat {d : ℕ} (hd : d < 64) : base64Char (Int32.ofNat d) = .ok (letter d) := by
  have hint : (Int32.ofNat d).toInt = d := Int32.toInt_ofNat_of_lt (by omega)
  have htable : base64Table[d]? = some (letter d) := getElem?_alphabet hd
  unfold base64Char
  rw [hint, if_pos (Int.natCast_nonneg d), Int.toNat_natCast, htable]

/-- `|` puts two bits in front of four. -/
theorem or_ofNat {x y : ℕ} (hx : x < 4) (hy : y < 16) :
    Int32.ofNat (16 * x) ||| Int32.ofNat y = Int32.ofNat (16 * x + y) := by
  have hall : ∀ x : Fin 4, ∀ y : Fin 16,
      Int32.ofNat (16 * x) ||| Int32.ofNat y = Int32.ofNat (16 * x + y) := by decide +kernel
  exact hall ⟨x, hx⟩ ⟨y, hy⟩

/-- `|` puts four bits in front of two. -/
theorem or_ofNat' {x y : ℕ} (hx : x < 16) (hy : y < 4) :
    Int32.ofNat (4 * x) ||| Int32.ofNat y = Int32.ofNat (4 * x + y) := by
  have hall : ∀ x : Fin 16, ∀ y : Fin 4,
      Int32.ofNat (4 * x) ||| Int32.ofNat y = Int32.ofNat (4 * x + y) := by decide +kernel
  exact hall ⟨x, hx⟩ ⟨y, hy⟩

/-- The shifts and masks of `Encode`, byte by byte. -/
theorem int_bits : ∀ a : UInt8,
    (int a >>> 2) &&& 0x3F = Int32.ofNat (a.toNat / 4) ∧
      (int a &&& 0x3) <<< 4 = Int32.ofNat (16 * (a.toNat % 4)) ∧
      (int a >>> 4) &&& 0xF = Int32.ofNat (a.toNat / 16) ∧
      (int a &&& 0xF) <<< 2 = Int32.ofNat (4 * (a.toNat % 16)) ∧
      (int a >>> 6) &&& 0x3 = Int32.ofNat (a.toNat / 64) ∧
      int a &&& 0x3F = Int32.ofNat (a.toNat % 64) := by
  decide +kernel

/-- The first six bits of a byte. -/
theorem int_shift_two (a : UInt8) : (int a >>> 2) &&& 0x3F = Int32.ofNat (a.toNat / 4) :=
  (int_bits a).1

/-- Its last two, moved up. -/
theorem int_and_three (a : UInt8) : (int a &&& 0x3) <<< 4 = Int32.ofNat (16 * (a.toNat % 4)) :=
  (int_bits a).2.1

/-- The first four bits of a byte. -/
theorem int_shift_four (b : UInt8) : (int b >>> 4) &&& 0xF = Int32.ofNat (b.toNat / 16) :=
  (int_bits b).2.2.1

/-- Its last four, moved up. -/
theorem int_and_fifteen (b : UInt8) : (int b &&& 0xF) <<< 2 = Int32.ofNat (4 * (b.toNat % 16)) :=
  (int_bits b).2.2.2.1

/-- The first two bits of a byte. -/
theorem int_shift_six (c : UInt8) : (int c >>> 6) &&& 0x3 = Int32.ofNat (c.toNat / 64) :=
  (int_bits c).2.2.2.2.1

/-- Its last six. -/
theorem int_and_sixtyThree (c : UInt8) : int c &&& 0x3F = Int32.ofNat (c.toNat % 64) :=
  (int_bits c).2.2.2.2.2

/-- The letters that `Encode` looks up are those of the RFC. -/
theorem base64Char_three (a b c : UInt8) :
    base64Char ((int a >>> 2) &&& 0x3F) = .ok (letter (Rfc4648.sextet (group a b c) 3)) := by
  have ha := a.toNat_lt
  rw [sextet_three, int_shift_two, base64Char_ofNat (by omega)]

/-- The second character of a group. -/
theorem base64Char_two (a b c : UInt8) :
    base64Char (((int a &&& 0x3) <<< 4) ||| ((int b >>> 4) &&& 0xF)) =
      .ok (letter (Rfc4648.sextet (group a b c) 2)) := by
  have hb := b.toNat_lt
  rw [sextet_two, int_and_three, int_shift_four, or_ofNat (by omega) (by omega),
    base64Char_ofNat (by omega)]

/-- The third. -/
theorem base64Char_one (a b c : UInt8) :
    base64Char (((int b &&& 0xF) <<< 2) ||| ((int c >>> 6) &&& 0x3)) =
      .ok (letter (Rfc4648.sextet (group a b c) 1)) := by
  have hc := c.toNat_lt
  rw [sextet_one, int_and_fifteen, int_shift_six, or_ofNat' (by omega) (by omega),
    base64Char_ofNat (by omega)]

/-- The fourth. -/
theorem base64Char_zero (a b c : UInt8) :
    base64Char (int c &&& 0x3F) = .ok (letter (Rfc4648.sextet (group a b c) 0)) := by
  rw [sextet_zero, int_and_sixtyThree, base64Char_ofNat (by omega)]

/-- The last letter of two bytes, which no byte follows. -/
theorem base64Char_one_last (a b : UInt8) :
    base64Char ((int b &&& 0xF) <<< 2) = .ok (letter (Rfc4648.sextet (group a b 0) 1)) := by
  rw [sextet_one, int_and_fifteen, base64Char_ofNat (by omega)]
  rfl

/-- The last letter of one byte. -/
theorem base64Char_two_last (a : UInt8) :
    base64Char ((int a &&& 0x3) <<< 4) = .ok (letter (Rfc4648.sextet (group a 0 0) 2)) := by
  rw [sextet_two, int_and_three, base64Char_ofNat (by omega)]
  rfl

/-! ### Reads and writes -/

/-- What returns goes on. -/
@[simp] theorem bind_ok {α β : Type} (a : α) (f : α → Except Fault β) :
    (Except.ok a >>= f) = f a := rfl

/-- What returns is mapped. -/
@[simp] theorem map_ok {α β : Type} (a : α) (f : α → β) :
    (Except.ok a : Except Fault α).map f = .ok (f a) := rfl

/-- `str[j]` is the byte that is ahead. -/
theorem charOf_of_at (h : At str j (a :: s)) : charOf str j = .ok a := by
  unfold charOf
  rw [h.getElem?_cons]

/-- A write at the front. -/
@[simp] theorem put_cons_zero : put (x :: v) 0 c = .ok (c :: v) := by simp [put]

/-- A write behind the front. -/
@[simp] theorem put_cons_succ : put (x :: v) (k + 1) c = (put v k c).map (x :: ·) := by
  unfold put
  rw [List.length_cons, List.set_cons_succ]
  by_cases h : k < v.length
  · rw [if_pos h, if_pos (by omega)]
    rfl
  · rw [if_neg h, if_neg (by omega)]
    rfl

/-- A write behind what is done. -/
theorem put_append (k : ℕ) : put (u ++ v) (u.length + k) c = (put v k c).map (u ++ ·) := by
  unfold put
  rw [List.length_append]
  by_cases h : k < v.length
  · rw [if_pos h, if_pos (by omega), List.set_append_right _ _ (by omega)]
    rw [show u.length + k - u.length = k by omega]
    rfl
  · rw [if_neg h, if_neg (by omega)]
    rfl

/-- A write at the end of what is done. -/
theorem put_append_zero : put (u ++ v) u.length c = (put v 0 c).map (u ++ ·) := put_append 0

/-- Each three bytes take four characters. -/
theorem padding_succ (n : ℕ) :
    List.replicate (4 * ((n + 3 + 2) / 3)) (ch '=') =
      ch '=' :: ch '=' :: ch '=' :: ch '=' :: List.replicate (4 * ((n + 2) / 3)) (ch '=') := by
  rw [show 4 * ((n + 3 + 2) / 3) = 4 * ((n + 2) / 3) + 4 by omega]
  rfl

/-- The loop and the rest, from a place in the text on. -/
def encodeFrom (str : Bytes) (i j : ℕ) (res : Bytes) : Except Fault Bytes :=
  encodeLoop str i j res >>= fun t => encodeRest str t.1 t.2.1 t.2.2

/-- Three bytes: one round of the loop. -/
theorem encodeFrom_step (hj : At str j (a :: b :: c :: s)) :
    encodeFrom str u.length j (u ++ ch '=' :: ch '=' :: ch '=' :: ch '=' :: v) =
      if u.length + 4 < 2 ^ 31 then
        encodeFrom str (u.length + 4) (j + 3) (u ++ Rfc4648.encode [a, b, c] ++ v)
      else .error .overflow := by
  have hlength := hj.add_length
  simp only [List.length_cons] at hlength
  unfold encodeFrom
  rw [encodeLoop, if_pos (by omega), charOf_of_at hj, charOf_of_at hj.next,
    charOf_of_at hj.next.next]
  simp only [bind_ok, base64Char_three a b c, base64Char_two a b c, base64Char_one a b c,
    base64Char_zero a b c, put_append_zero, put_append, put_cons_zero, put_cons_succ, map_ok]
  by_cases hfits : u.length + 4 < 2 ^ 31
  · rw [if_pos hfits, if_pos hfits]
    simp only [Rfc4648.encode, List.append_assoc, List.cons_append, List.nil_append]
  · rw [if_neg hfits, if_neg hfits]
    rfl

/-- Two bytes or less: the loop is over. -/
theorem encodeFrom_rest (hj : At str j s) (hs : s.length < 3) :
    encodeFrom str i j v = encodeRest str i j v := by
  have hlength := hj.add_length
  unfold encodeFrom
  rw [encodeLoop, if_neg (by omega)]
  rfl

/-- Two bytes at the end. -/
theorem encodeFrom_two (hj : At str j [a, b]) :
    encodeFrom str u.length j (u ++ List.replicate 4 (ch '=')) =
      .ok (u ++ Rfc4648.encode [a, b]) := by
  have hlength := hj.add_length
  simp only [List.length_cons, List.length_nil] at hlength
  have hpadding : List.replicate 4 (ch '=') = [ch '=', ch '=', ch '=', ch '='] := rfl
  rw [encodeFrom_rest hj (by simp), encodeRest, if_pos (by omega), charOf_of_at hj,
    charOf_of_at hj.next, hpadding]
  simp only [bind_ok, base64Char_three a b 0, base64Char_two a b 0, base64Char_one_last a b,
    put_append_zero, put_append, put_cons_zero, put_cons_succ, map_ok]
  rw [if_pos (by omega)]
  rfl

/-- One byte at the end. -/
theorem encodeFrom_one (hj : At str j [a]) :
    encodeFrom str u.length j (u ++ List.replicate 4 (ch '=')) =
      .ok (u ++ Rfc4648.encode [a]) := by
  have hlength := hj.add_length
  simp only [List.length_cons, List.length_nil] at hlength
  have hpadding : List.replicate 4 (ch '=') = [ch '=', ch '=', ch '=', ch '='] := rfl
  rw [encodeFrom_rest hj (by simp), encodeRest, if_pos (by omega), charOf_of_at hj, hpadding]
  simp only [bind_ok, base64Char_three a 0 0, base64Char_two_last a,
    put_append_zero, put_append, put_cons_zero, put_cons_succ, map_ok]
  rw [if_neg (by omega)]
  rfl

/-- What is left of the text is encoded, unless `i` passes its range on the way. -/
theorem encodeFrom_eq (hj : At str j s) (hu : u.length < 2 ^ 31) :
    encodeFrom str u.length j (u ++ List.replicate (4 * ((s.length + 2) / 3)) (ch '=')) =
      if u.length + 4 * (s.length / 3) < 2 ^ 31 then .ok (u ++ Rfc4648.encode s)
      else .error .overflow := by
  induction s using Rfc4648.encode.induct generalizing u j with
  | case1 a b c s ih =>
      have hthree : (a :: b :: c :: s).length = s.length + 3 := rfl
      have hnext : At str (j + 3) s := hj.skip (u := [a, b, c])
      have happend : u ++ Rfc4648.encode (a :: b :: c :: s) =
          u ++ Rfc4648.encode [a, b, c] ++ Rfc4648.encode s := by
        simp only [Rfc4648.encode, List.append_assoc, List.cons_append, List.nil_append]
      have hlength : (u ++ Rfc4648.encode [a, b, c]).length = u.length + 4 := by
        simp only [Rfc4648.encode, List.length_append, List.length_cons, List.length_nil]
      rw [hthree, padding_succ, encodeFrom_step hj, happend]
      by_cases hfits : u.length + 4 < 2 ^ 31
      · have hrest := ih (u := u ++ Rfc4648.encode [a, b, c]) hnext (by omega)
        rw [hlength] at hrest
        rw [if_pos hfits, hrest]
        refine if_congr ?_ rfl rfl
        omega
      · rw [if_neg hfits, if_neg (by omega)]
  | case2 a b =>
      have hpadding : 4 * (([a, b].length + 2) / 3) = 4 := by simp
      rw [if_pos (by simpa using hu), hpadding]
      exact encodeFrom_two hj
  | case3 a =>
      have hpadding : 4 * (([a].length + 2) / 3) = 4 := by simp
      rw [if_pos (by simpa using hu), hpadding]
      exact encodeFrom_one hj
  | case4 =>
      have hlength := hj.add_length
      rw [List.length_nil] at hlength
      rw [if_pos (by simpa using hu), encodeFrom_rest hj (by decide), encodeRest,
        if_neg (by omega)]
      rfl

/-- **`Encode` is the encoding of RFC 4648, until `i` passes its range.** -/
theorem encode_eq (s : Bytes) :
    encode s = if s.length / 3 < 2 ^ 29 then .ok (Rfc4648.encode s) else .error .overflow := by
  have heq := encodeFrom_eq (u := []) (At.start s) (by decide)
  rw [List.length_nil, List.nil_append, List.nil_append] at heq
  have hlen : (s.length + 2) / 3 * 4 = 4 * ((s.length + 2) / 3) := Nat.mul_comm _ _
  have hencode : encode s =
      encodeFrom s 0 0 (List.replicate (4 * ((s.length + 2) / 3)) (ch '=')) := by
    unfold encode
    rw [← hlen]
    rfl
  rw [hencode, heq]
  refine if_congr ?_ rfl rfl
  omega

/-! ### Decoding -/

variable {outside : ℤ → UInt8} {code t : Bytes} {d : ℕ}

/-- The index of the character that is ahead. -/
theorem index_of_at (h : At code i (c :: t)) : index code i = (int c).toInt := by
  unfold index codeChar
  rw [List.getD_eq_getElem?_getD, h.getElem?_cons, Option.getD_some]

/-- The table undoes the alphabet. -/
theorem sextet_of_at (h : At code i (letter d :: t)) (hd : d < 64) :
    sextet outside code i = UInt8.ofNat d := by
  have hall : ∀ e ∈ alphabet.zipIdx, 0 ≤ (int e.1).toInt ∧
      table[(int e.1).toInt.toNat]? = some (UInt8.ofNat e.2) := by
    rw [alphabet_eq]
    decide +kernel
  have hmem : (letter d, d) ∈ alphabet.zipIdx :=
    List.mem_zipIdx_iff_getElem?.2 (getElem?_alphabet hd)
  obtain ⟨hnonneg, htable⟩ := hall _ hmem
  unfold sextet
  simp only [index_of_at h]
  rw [if_pos hnonneg, htable]

/-- The padding counts as zero. -/
theorem sextet_padding (h : At code i (ch '=' :: t)) : sextet outside code i = 0 := by
  unfold sextet
  rw [index_of_at h]
  rfl

/-- A digit fits a byte. -/
theorem toNat_ofNat_sextet (n k : ℕ) :
    (UInt8.ofNat (Rfc4648.sextet n k)).toNat = Rfc4648.sextet n k := by
  have hlt := sextet_lt n k
  rw [UInt8.toNat_ofNat', Nat.mod_eq_of_lt (by omega)]

/-- The first byte, from the first two digits. -/
theorem join_first (a b c : UInt8) :
    join (UInt8.ofNat (Rfc4648.sextet (group a b c) 3)) 2
      (UInt8.ofNat (Rfc4648.sextet (group a b c) 2)) 4 = a := by
  have ha := a.toNat_lt
  have hb := b.toNat_lt
  have hright : (16 * (a.toNat % 4) + b.toNat / 16) / 2 ^ 4 = a.toNat % 4 := by omega
  apply UInt8.toNat_inj.1
  unfold join
  rw [toNat_ofNat_sextet, toNat_ofNat_sextet, sextet_three, sextet_two,
    Nat.shiftRight_eq_div_pow, hright, ← Nat.shiftLeft_add_eq_or_of_lt (by omega),
    Nat.shiftLeft_eq, UInt8.toNat_ofNat']
  omega

/-- The second byte, from the second and the third digit. -/
theorem join_second (a b c : UInt8) :
    join (UInt8.ofNat (Rfc4648.sextet (group a b c) 2)) 4
      (UInt8.ofNat (Rfc4648.sextet (group a b c) 1)) 2 = b := by
  have hb := b.toNat_lt
  have hc := c.toNat_lt
  have hright : (4 * (b.toNat % 16) + c.toNat / 64) / 2 ^ 2 = b.toNat % 16 := by omega
  apply UInt8.toNat_inj.1
  unfold join
  rw [toNat_ofNat_sextet, toNat_ofNat_sextet, sextet_two, sextet_one,
    Nat.shiftRight_eq_div_pow, hright, ← Nat.shiftLeft_add_eq_or_of_lt (by omega),
    Nat.shiftLeft_eq, UInt8.toNat_ofNat']
  omega

/-- The third byte, from the last two digits. -/
theorem join_third (a b c : UInt8) :
    join (UInt8.ofNat (Rfc4648.sextet (group a b c) 1)) 6
      (UInt8.ofNat (Rfc4648.sextet (group a b c) 0)) 0 = c := by
  have hc := c.toNat_lt
  apply UInt8.toNat_inj.1
  unfold join
  rw [toNat_ofNat_sextet, toNat_ofNat_sextet, sextet_one, sextet_zero,
    Nat.shiftRight_zero, ← Nat.shiftLeft_add_eq_or_of_lt (by omega),
    Nat.shiftLeft_eq, UInt8.toNat_ofNat']
  omega

/-- A write behind what is finished. -/
theorem set_append (k : ℕ) : (u ++ v).set (u.length + k) c = u ++ v.set k c := by
  rw [List.set_append_right _ _ (by omega), Nat.add_sub_cancel_left]

/-- A write right behind it. -/
theorem set_append_zero : (u ++ v).set u.length c = u ++ v.set 0 c := set_append 0

/-- Four letters give back the three bytes of their group. -/
theorem decodeGroup_three (hi : At code i (Rfc4648.encode (a :: b :: c :: s))) :
    decodeGroup outside code i u.length (u ++ 0 :: 0 :: 0 :: v) = u ++ [a, b, c] ++ v := by
  rw [Rfc4648.encode] at hi
  unfold decodeGroup
  rw [sextet_of_at hi (sextet_lt _ _), sextet_of_at hi.next (sextet_lt _ _),
    sextet_of_at hi.next.next (sextet_lt _ _), sextet_of_at hi.next.next.next (sextet_lt _ _),
    join_first, join_second, join_third]
  simp only [set_append_zero, set_append, List.set_cons_zero, List.set_cons_succ,
    List.append_assoc, List.cons_append, List.nil_append]

/-- The group of the last two bytes. -/
theorem decodeGroup_two (hi : At code i (Rfc4648.encode [a, b])) :
    decodeGroup outside code i u.length (u ++ [0, 0]) = u ++ [a, b] := by
  rw [Rfc4648.encode] at hi
  unfold decodeGroup
  rw [sextet_of_at hi (sextet_lt _ _), sextet_of_at hi.next (sextet_lt _ _),
    sextet_of_at hi.next.next (sextet_lt _ _), sextet_padding hi.next.next.next,
    join_first, join_second]
  simp only [set_append_zero, set_append, List.set_cons_zero, List.set_cons_succ, List.set_nil]

/-- The group of the last byte. -/
theorem decodeGroup_one (hi : At code i (Rfc4648.encode [a])) :
    decodeGroup outside code i u.length (u ++ [0]) = u ++ [a] := by
  rw [Rfc4648.encode] at hi
  unfold decodeGroup
  rw [sextet_of_at hi (sextet_lt _ _), sextet_of_at hi.next (sextet_lt _ _), join_first]
  simp only [set_append_zero, set_append, List.set_cons_zero, List.set_cons_succ, List.set_nil]

/-- Where the loop goes on. -/
theorem decodeLoop_step (hi : i + 2 < code.length) (res : Bytes) :
    (decodeLoop outside code i j res).2 =
      if i + 4 < 2 ^ 31 then
        (decodeLoop outside code (i + 4) (j + 3) (decodeGroup outside code i j res)).2
      else .error .overflow := by
  rw [decodeLoop, if_pos (by omega)]
  by_cases hfits : i + 4 < 2 ^ 31
  · rw [if_pos hfits, if_pos hfits]
  · rw [if_neg hfits, if_neg hfits]

/-- Where the loop ends. -/
theorem decodeLoop_end (hi : code.length ≤ i + 2) (res : Bytes) :
    decodeLoop outside code i j res = ([], .ok res) := by
  rw [decodeLoop, if_neg (by omega)]

/-- The last group of an encoding. -/
theorem decodeLoop_last {res : Bytes} (hlength : i + 4 = code.length) :
    (decodeLoop outside code i j res).2 =
      if i + 4 < 2 ^ 31 then .ok (decodeGroup outside code i j res) else .error .overflow := by
  rw [decodeLoop_step (by omega), decodeLoop_end (by omega)]

/-- What is left of an encoding is decoded, unless `i` passes its range on the way. -/
theorem decodeLoop_encode (hi : At code i (Rfc4648.encode s)) (hrange : i < 2 ^ 31) :
    (decodeLoop outside code i u.length (u ++ List.replicate s.length 0)).2 =
      if i + 4 * ((s.length + 2) / 3) < 2 ^ 31 then .ok (u ++ s) else .error .overflow := by
  have hlength := hi.add_length
  rw [length_encode] at hlength
  induction s using Rfc4648.encode.induct generalizing u i with
  | case1 a b c s ih =>
      have hthree : (a :: b :: c :: s).length = s.length + 3 := rfl
      have hgroup : decodeGroup outside code i u.length
          (u ++ List.replicate (a :: b :: c :: s).length 0) =
            u ++ [a, b, c] ++ List.replicate s.length 0 := decodeGroup_three hi
      have hu : (u ++ [a, b, c]).length = u.length + 3 := List.length_append
      have happend : u ++ a :: b :: c :: s = u ++ [a, b, c] ++ s := by
        simp only [List.append_assoc, List.cons_append, List.nil_append]
      rw [hthree] at hlength
      rw [decodeLoop_step (by omega), hgroup, happend, hthree]
      by_cases hfits : i + 4 < 2 ^ 31
      · have hnext : At code (i + 4) (Rfc4648.encode s) := by
          rw [Rfc4648.encode] at hi
          exact hi.next.next.next.next
        have hrest := ih (u := u ++ [a, b, c]) hnext hfits (by omega)
        rw [hu] at hrest
        rw [if_pos hfits, hrest]
        refine if_congr ?_ rfl rfl
        omega
      · rw [if_neg hfits, if_neg (by omega)]
  | case2 a b =>
      have hfour : 4 * (([a, b].length + 2) / 3) = 4 := by simp
      rw [hfour] at hlength ⊢
      rw [decodeLoop_last hlength]
      exact if_congr Iff.rfl (congrArg Except.ok (decodeGroup_two hi)) rfl
  | case3 a =>
      have hfour : 4 * (([a].length + 2) / 3) = 4 := by simp
      rw [hfour] at hlength ⊢
      rw [decodeLoop_last hlength]
      exact if_congr Iff.rfl (congrArg Except.ok (decodeGroup_one hi)) rfl
  | case4 =>
      have hzero : 4 * ((([] : Bytes).length + 2) / 3) = 0 := by simp
      rw [hzero] at hlength ⊢
      rw [decodeLoop_end (by omega), if_pos (by omega)]
      rfl

/-! ### The length of the result -/

/-- No letter is the padding. -/
theorem letter_ne_padding (hd : d < 64) : letter d ≠ ch '=' := by
  have hall : ch '=' ∉ alphabet := by
    rw [alphabet_eq]
    decide
  exact fun h => hall (h ▸ List.mem_of_getElem? (getElem?_alphabet hd))

/-- An encoding has as many `=` as its last group misses bytes. -/
theorem count_padding (s : Bytes) :
    (Rfc4648.encode s).count (ch '=') = (3 - s.length % 3) % 3 := by
  have hne (n k : ℕ) : letter (Rfc4648.sextet n k) ≠ ch '=' := letter_ne_padding (sextet_lt n k)
  induction s using Rfc4648.encode.induct with
  | case1 a b c s ih =>
      have hthree : (a :: b :: c :: s).length = s.length + 3 := rfl
      rw [hthree, Rfc4648.encode]
      simp only [List.count_cons_of_ne (hne _ _), ih]
      omega
  | case2 a b =>
      rw [Rfc4648.encode]
      simp only [List.count_cons_of_ne (hne _ _), List.length_cons, List.length_nil]
      rfl
  | case3 a =>
      rw [Rfc4648.encode]
      simp only [List.count_cons_of_ne (hne _ _), List.length_cons, List.length_nil]
      rfl
  | case4 => rfl

/-- One byte in the last group makes two `=` side by side. -/
theorem padding_infix (hs : s.length % 3 = 1) : ascii "==" <:+: Rfc4648.encode s := by
  induction s using Rfc4648.encode.induct with
  | case1 a b c s ih =>
      have hthree : (a :: b :: c :: s).length = s.length + 3 := rfl
      rw [Rfc4648.encode]
      refine (ih (by omega)).trans ?_
      exact (List.suffix_append [_, _, _, _] _).isInfix
  | case2 a b => simp at hs
  | case3 a =>
      rw [Rfc4648.encode]
      exact (List.suffix_append [_, _] (ascii "==")).isInfix
  | case4 => simp at hs

/-- `Decode` works out how long the text was. -/
theorem decodedLength_encode (s : Bytes) : decodedLength (Rfc4648.encode s) = s.length := by
  have hcount := count_padding s
  have hlength := length_encode s
  have hone : position (ascii "=") (Rfc4648.encode s) ≠ none ↔ s.length % 3 ≠ 0 := by
    have hsingle : ascii "=" = [ch '='] := rfl
    rw [Ne, position_eq_none_iff, not_not, hsingle, List.singleton_infix_iff,
      ← List.count_pos_iff, hcount]
    omega
  have htwo : position (ascii "==") (Rfc4648.encode s) ≠ none ↔ s.length % 3 = 1 := by
    rw [Ne, position_eq_none_iff, not_not]
    constructor
    · intro hinfix
      have hle := hinfix.sublist.count_le (ch '=')
      have htwo : (ascii "==").count (ch '=') = 2 := by decide +kernel
      rw [htwo, hcount] at hle
      omega
    · exact padding_infix
  unfold decodedLength
  rw [if_congr htwo rfl (if_congr hone rfl rfl), hlength]
  split_ifs <;> omega

/-- **`Decode` undoes the encoding, until `i` passes its range.** -/
theorem decode_encode (outside : ℤ → UInt8) (s : Bytes) :
    (decode outside (Rfc4648.encode s)).result =
      if (s.length + 2) / 3 < 2 ^ 29 then .ok s else .error .overflow := by
  have hloop : (decodeLoop outside (Rfc4648.encode s) 0 ([] : Bytes).length
      ([] ++ List.replicate s.length 0)).2 = _ :=
    decodeLoop_encode (At.start (Rfc4648.encode s)) (by decide)
  unfold decode
  simp only [decodedLength_encode]
  rw [if_neg (by omega)]
  refine hloop.trans (if_congr ?_ rfl rfl)
  omega

/-- **There and back again:** for a string shorter than `2 ^ 31` bytes, `Encode` gives its encoding
and `Decode` gives the string back exactly if it has at most `3 * (2 ^ 29 - 1)` bytes. -/
theorem round_trip_iff (outside : ℤ → UInt8) (s : Bytes) (hs : s.length < 2 ^ 31) :
    (encode s = .ok (Rfc4648.encode s) ∧
        ∃ code, encode s = .ok code ∧ (decode outside code).result = .ok s) ↔
      s.length ≤ 3 * (2 ^ 29 - 1) := by
  constructor
  · rintro ⟨hencode, code, hcode, hdecode⟩
    obtain rfl := Except.ok.inj (hencode.symm.trans hcode)
    rw [decode_encode] at hdecode
    split_ifs at hdecode with hrange
    omega
  · intro hle
    have hencode : encode s = .ok (Rfc4648.encode s) := by
      rw [encode_eq, if_pos (by omega)]
    refine ⟨hencode, _, hencode, ?_⟩
    rw [decode_encode, if_pos (by omega)]

/-- Four bytes, and two characters of padding. -/
theorem round_trip_foob :
    encode (ascii "foob") = .ok (Rfc4648.encode (ascii "foob")) ∧
      ∃ code, encode (ascii "foob") = .ok code ∧
        (decode (fun _ => 0) code).result = .ok (ascii "foob") :=
  (round_trip_iff (fun _ => 0) (ascii "foob") (by decide)).2 (by decide)

/-- One and a half gibibytes are too many for `i`. -/
theorem encode_overflow :
    (List.replicate (3 * 2 ^ 29) (0 : UInt8)).length < 2 ^ 31 ∧
      encode (List.replicate (3 * 2 ^ 29) 0) = .error .overflow := by
  rw [encode_eq, List.length_replicate]
  exact ⟨by decide, if_neg (by decide)⟩

end Base64
end BreUtils
