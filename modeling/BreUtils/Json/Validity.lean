/-
# When the generator writes JSON

The layout of the generator fits the grammar of RFC 8259 too, as far as the strings do
(`rfc8259_fits`): the integers are numbers of the grammar, and so are the escaped strings
strings of the grammar, if their control characters are among those that `escapeString`
knows.  Any other control character is copied into the text, where no JSON text has one.

So the text is a JSON text exactly if no string has such a character and the indentation
does not overflow (`generate_valid_iff`).
-/

import BreUtils.Json.RoundTrip

namespace BreUtils
namespace Json

open Lib Cpp
open Rfc8259 (Number Item Ws Printable)

variable {D : Type}

/-- A text in UTF-8. -/
def Utf8 (s : Bytes) : Prop := ∃ cs : List Char, s = cs.flatMap String.utf8EncodeChar

/-- The control characters for which `escapeString` has an escape. -/
def escapedControls : Bytes := [0x08, 0x0C, ch '\n', ch '\r', ch '\t']

/-- A text that `escapeString` can write: it knows all control characters in there. -/
def Escapable (s : Bytes) : Prop := ∀ c ∈ s, 0x20 ≤ c.toNat ∨ c ∈ escapedControls

/-! ### Integers -/

/-- The digits of a number start with no `0`, except for zero itself. -/
theorem toString_head (n : ℕ) : ascii (toString n) = [ch '0'] ∨
    ∃ d ds, ascii (toString n) = d :: ds ∧ d ≠ ch '0' := by
  have hdigit : ∀ d < 10, d ≠ 0 → ch (Nat.digitChar d) ≠ ch '0' := by decide
  induction n using Nat.strong_induction_on with
  | _ n ih =>
      rw [ascii_toString]
      split_ifs with hn
      · by_cases hzero : n = 0
        · subst hzero
          exact Or.inl rfl
        · exact Or.inr ⟨_, [], rfl, hdigit n hn hzero⟩
      · right
        rcases ih (n / 10) (by omega) with hzero | ⟨d, ds, hd, hne⟩
        · -- only zero has the digits of zero
          obtain ⟨-, -, hvalue⟩ := digits_toString (n / 10)
          rw [hzero] at hvalue
          have hnone : Number.ofDigits [ch '0'] = 0 := rfl
          omega
        · exact ⟨d, _, by rw [hd, List.cons_append], hne⟩

/-- `std::to_string(int)` writes a number of the grammar. -/
theorem number_toStringInt (i : Int32) (t : Bytes) :
    (rfc8259 bareSyntax).number (toStringInt i ++ t) () t := by
  obtain ⟨hne, hall, -⟩ := digits_toString i.toInt.natAbs
  refine ⟨⟨decide (i.toInt < 0), ascii (toString i.toInt.natAbs), none, none⟩,
    ⟨?_, by simp, by simp⟩, trivial, ?_⟩
  · rcases toString_head i.toInt.natAbs with hzero | ⟨d, ds, hd, hnonzero⟩
    · exact Or.inl hzero
    · rw [hd] at hall
      exact Or.inr ⟨d, ds, hd, hall d List.mem_cons_self, hnonzero,
        fun c hc => hall c (List.mem_cons_of_mem _ hc)⟩
  · simp [toStringInt, Number.text, Rfc8259.signText, Rfc8259.fracText, Rfc8259.expText]

/-! ### Strings -/

/-- A byte that is no control character, quotation mark or backslash is copied. -/
theorem escapeChar_eq {b : UInt8} (hb : 0x20 ≤ b.toNat ∧ b ≠ ch '"' ∧ b ≠ ch '\\') :
    escapeChar b = [b] := by
  obtain ⟨hle, hquote, hslash⟩ := hb
  have hcontrols : b ∉ escapedControls := by
    intro hmem
    have hlt : ∀ c ∈ escapedControls, c.toNat < 0x20 := by decide +kernel
    exact absurd (hlt b hmem) (by omega)
  simp only [escapedControls, List.mem_cons, List.not_mem_nil, or_false, not_or] at hcontrols
  obtain ⟨h₁, h₂, h₃, h₄, h₅⟩ := hcontrols
  rw [escapeChar, if_neg hquote, if_neg hslash, if_neg h₁, if_neg h₂, if_neg h₃, if_neg h₄,
    if_neg h₅]

/-- What `escapeString` makes of one character is one character of the grammar. -/
theorem exists_item {c : Char} (hc : Escapable (String.utf8EncodeChar c)) :
    ∃ i : Item, i.Valid ∧ escapeString (String.utf8EncodeChar c) = i.text := by
  have hsingle (hlt : c.toNat < 0x80) : String.utf8EncodeChar c = [UInt8.ofNat c.toNat] := by
    have hle : c.toNat ≤ 127 := by omega
    simp [String.utf8EncodeChar, hle]
  have hescaped (b e : UInt8) (hb : String.utf8EncodeChar c = [b])
      (he : escapeChar b = [ch '\\', e]) (hsome : (Rfc8259.escape e).isSome = true) :
      ∃ i : Item, i.Valid ∧ escapeString (String.utf8EncodeChar c) = i.text :=
    ⟨.escaped e, hsome, by rw [hb, escapeString, List.flatMap_singleton, he]; rfl⟩
  by_cases hcontrol : c.toNat < 0x20
  · have hone := hsingle (by omega)
    have hmem : UInt8.ofNat c.toNat ∈ escapedControls := by
      rw [hone] at hc
      refine (hc _ (List.mem_singleton_self _)).resolve_left ?_
      rw [UInt8.toNat_ofNat', Nat.mod_eq_of_lt (by omega)]
      omega
    simp only [escapedControls, List.mem_cons, List.not_mem_nil, or_false] at hmem
    rcases hmem with h | h | h | h | h
    · exact hescaped _ (ch 'b') hone (by rw [h]; rfl) rfl
    · exact hescaped _ (ch 'f') hone (by rw [h]; rfl) rfl
    · exact hescaped _ (ch 'n') hone (by rw [h]; rfl) rfl
    · exact hescaped _ (ch 'r') hone (by rw [h]; rfl) rfl
    · exact hescaped _ (ch 't') hone (by rw [h]; rfl) rfl
  · by_cases hquote : c = '"'
    · subst hquote
      exact hescaped (ch '"') (ch '"') rfl rfl rfl
    · by_cases hslash : c = '\\'
      · subst hslash
        exact hescaped (ch '\\') (ch '\\') rfl rfl rfl
      · have hvalid : (Item.unescaped c).Valid := ⟨by omega, hquote, hslash⟩
        refine ⟨.unescaped c, hvalid, ?_⟩
        have hbytes := Rfc8259.utf8_of_valid hvalid
        have hcopy : ∀ s : Bytes, (∀ b ∈ s, 0x20 ≤ b.toNat ∧ b ≠ ch '"' ∧ b ≠ ch '\\') →
            s.flatMap escapeChar = s := by
          intro s hs
          induction s with
          | nil => rfl
          | cons b s ih =>
              rw [List.flatMap_cons, escapeChar_eq (hs b List.mem_cons_self),
                ih fun d hd => hs d (List.mem_cons_of_mem _ hd)]
              rfl
        exact hcopy _ hbytes

/-- An escaped string is a string of the grammar. -/
theorem string_escape {s : Bytes} (hutf8 : Utf8 s) (hs : Escapable s) (t : Bytes) :
    (rfc8259 bareSyntax).string (ascii "\"" ++ escapeString s ++ ascii "\"" ++ t) () t := by
  obtain ⟨cs, rfl⟩ := hutf8
  obtain ⟨is, his, htext⟩ : ∃ is : List Item, (∀ i ∈ is, i.Valid) ∧
      escapeString (cs.flatMap String.utf8EncodeChar) = is.flatMap Item.text := by
    induction cs with
    | nil => exact ⟨[], fun i hi => absurd hi List.not_mem_nil, rfl⟩
    | cons c cs ih =>
        rw [List.flatMap_cons] at hs ⊢
        obtain ⟨i, hi, hc⟩ := exists_item (c := c) fun b hb => hs b (List.mem_append_left _ hb)
        obtain ⟨is, his, hcs⟩ := ih fun b hb => hs b (List.mem_append_right _ hb)
        refine ⟨i :: is, List.forall_mem_cons.2 ⟨hi, his⟩, ?_⟩
        rw [List.flatMap_cons, ← hc, ← hcs, escapeString, List.flatMap_append]
        rfl
  refine ⟨is, his, trivial, ?_⟩
  rw [htext, Rfc8259.quote]
  simp [ascii]

/-- **The layout of the generator fits the grammar of RFC 8259.** -/
theorem rfc8259_fits : Fits (D := D) (rfc8259 bareSyntax) (fun s => Utf8 s ∧ Escapable s)
    (fun _ => ()) (fun _ => ()) where
  refl := Ws.refl
  gap := Ws.trans
  trail _ := rfl
  null := rfl
  bool _ := rfl
  int i t _ := .number (number_toStringInt i t)
  string _ := rfl
  text t hs := string_escape hs.1 hs.2 t
  array _ := rfl
  object _ _ := trivial

/-! ### What a text says about its value -/

variable {rt : Runtime D} {w : Int32} {level : ℕ} {v : Value D} {text : Bytes}

/-- The texts of the children are in the text of the container, and so is the indentation. -/
theorem generateItems_inv {items : List (Option Bytes)} {r : Bytes}
    (h : generateItems w level items = some r) :
    ∀ item ∈ items, Room w level ∧ ∃ t, item = some t ∧ t ⊆ r := by
  induction items generalizing r with
  | nil => exact fun item hitem => absurd hitem List.not_mem_nil
  | cons item items ih =>
      simp only [generateItems, Option.bind_eq_bind, Option.bind_eq_some_iff] at h
      obtain ⟨b, hb, t, ht, rest, hrest, hr⟩ := h
      obtain rfl := Option.some.inj hr
      refine List.forall_mem_cons.2 ⟨⟨room_of_prettyIndent hb, t, ht, ?_⟩, fun i hi => ?_⟩
      · intro c hc
        simp [hc]
      · obtain ⟨hroom, t', ht', hsub⟩ := ih hrest i hi
        refine ⟨hroom, t', ht', fun c hc => ?_⟩
        simp [hsub hc]

/-- The same of an array. -/
theorem generateArray_inv {items : List (Option Bytes)}
    (h : generateArray w items (level + 1) = some text) :
    ∀ item ∈ items, Room w (level + 1) ∧ ∃ t, item = some t ∧ t ⊆ text := by
  intro item hitem
  have hne : items ≠ [] := List.ne_nil_of_mem hitem
  simp only [generateArray, if_neg hne, Option.bind_eq_bind, Option.bind_eq_some_iff] at h
  obtain ⟨r, hr, b, -, htext⟩ := h
  obtain rfl := Option.some.inj htext
  obtain ⟨hroom, t, ht, hsub⟩ := generateItems_inv hr item hitem
  refine ⟨hroom, t, ht, fun c hc => ?_⟩
  simp [hsub hc]

/-- The same of an object, whose keys are escaped. -/
theorem generateObject_inv {object : List (Bytes × Option Bytes)}
    (h : generateObject w object (level + 1) = some text) :
    ∀ e ∈ object, Room w (level + 1) ∧
      ∃ t, e.2 = some t ∧ t ⊆ text ∧ escapeString e.1 ⊆ text := by
  intro e he
  have hne : object ≠ [] := List.ne_nil_of_mem he
  simp only [generateObject, if_neg hne, Option.bind_eq_bind, Option.bind_eq_some_iff] at h
  obtain ⟨r, hr, b, -, htext⟩ := h
  obtain rfl := Option.some.inj htext
  obtain ⟨hroom, t, ht, hsub⟩ := generateItems_inv hr _ (List.mem_map_of_mem he)
  obtain ⟨t', ht', rfl⟩ := Option.map_eq_some_iff.1 ht
  refine ⟨hroom, t', ht', fun c hc => ?_, fun c hc => ?_⟩
  · have hmem := hsub (List.mem_append_right _ hc)
    simp [hmem]
  · have hmem : c ∈ r := hsub (by simp [hc])
    simp [hmem]

/-- A control character without an escape is in the text. -/
theorem escapable_of_printable {s : Bytes} (h : ∀ c ∈ escapeString s, Printable c) :
    Escapable s := by
  intro c hc
  by_contra hbad
  rw [not_or, not_le] at hbad
  obtain ⟨hlt, hcontrols⟩ := hbad
  have hcopy : escapeChar c = [c] := by
    have hall : ∀ c : UInt8, c.toNat < 0x20 → c ∉ escapedControls → escapeChar c = [c] := by
      decide +kernel
    exact hall c hlt hcontrols
  have hmem : c ∈ escapeString s :=
    List.mem_flatMap.2 ⟨c, hc, by rw [hcopy]; exact List.mem_singleton_self c⟩
  have hprintable : ∀ c : UInt8, c.toNat < 0x20 → c ∉ escapedControls →
      Rfc8259.isWs c = false := by decide +kernel
  rcases h c hmem with hle | hws
  · omega
  · rw [hprintable c hlt hcontrols] at hws
    cases hws

/-- **A text without control characters comes from strings that `escapeString` can write.** -/
theorem allText_of_printable (hv : v.WF) (h : generateValue rt w level v = some text)
    (htext : ∀ c ∈ text, Printable c) : v.AllText Escapable := by
  induction hv generalizing level text with
  | null => exact .null
  | bool b => exact .bool b
  | int i => exact .int i
  | double d => exact .double d
  | string s =>
      rw [generateValue] at h
      obtain rfl := Option.some.inj h
      exact .string (escapable_of_printable fun c hc => htext c (by simp [hc]))
  | array _ ih =>
      rw [generateValue_array] at h
      refine .array fun v hv => ?_
      obtain ⟨-, t, ht, hsub⟩ := generateArray_inv h _ (List.mem_map_of_mem hv)
      exact ih v hv ht fun c hc => htext c (hsub hc)
  | object _ _ ih =>
      rw [generateValue_object] at h
      have hinv := generateObject_inv h
      refine .object (fun e he => ?_) fun e he => ?_
      · obtain ⟨-, t, -, -, hsub⟩ := hinv _ (List.mem_map_of_mem he)
        exact escapable_of_printable fun c hc => htext c (hsub hc)
      · obtain ⟨-, t, ht, hsub, -⟩ := hinv _ (List.mem_map_of_mem he)
        exact ih e he ht fun c hc => htext c (hsub hc)

/-- **Where there is a text, no indentation overflows.** -/
theorem room_of_generateValue (hv : v.WF) (h : generateValue rt w level v = some text) :
    v.depth = 0 ∨ Room w (level + v.depth) := by
  induction hv generalizing level text with
  | null | bool | int | double | string =>
      left
      rw [Value.depth]
      all_goals simp
  | @array a _ ih =>
      rw [generateValue_array] at h
      rw [Value.depth_array_eq]
      by_cases ha : a = []
      · exact Or.inl (by rw [ha]; rfl)
      · obtain ⟨v, hv, hdepth⟩ := List.mem_map.1 (foldr_max_mem (l := a.map fun v => v.depth + 1)
          (by simpa using ha))
        obtain ⟨hroom, t, ht, -⟩ := generateArray_inv h _ (List.mem_map_of_mem hv)
        rw [← hdepth]
        rcases ih v hv ht with hzero | hdeep
        · exact Or.inr (by rw [hzero]; exact hroom)
        · exact Or.inr (hdeep.mono (by omega))
  | @object o _ _ ih =>
      rw [generateValue_object] at h
      rw [Value.depth_object_eq]
      by_cases ho : o = []
      · exact Or.inl (by rw [ho]; rfl)
      · obtain ⟨e, he, hdepth⟩ := List.mem_map.1 (foldr_max_mem (l := o.map fun e => e.2.depth + 1)
          (by simpa using ho))
        obtain ⟨hroom, t, ht, -⟩ := generateObject_inv h _ (List.mem_map_of_mem he)
        rw [← hdepth]
        rcases ih e he ht with hzero | hdeep
        · exact Or.inr (by rw [hzero]; exact hroom)
        · exact Or.inr (hdeep.mono (by omega))

/-- Two properties of all texts. -/
theorem Value.AllText.and {P Q : Bytes → Prop} (hP : v.AllText P) (hQ : v.AllText Q) :
    v.AllText fun s => P s ∧ Q s := by
  induction hP with
  | null => exact .null
  | bool b => exact .bool b
  | int i => exact .int i
  | double d => exact .double d
  | string hs =>
      cases hQ with
      | string hs' => exact .string ⟨hs, hs'⟩
  | array _ ih =>
      cases hQ with
      | array ha => exact .array fun v hv => ih v hv (ha v hv)
  | object hkeys _ ih =>
      cases hQ with
      | object hkeys' ho =>
          exact .object (fun e he => ⟨hkeys e he, hkeys' e he⟩) fun e he => ih e he (ho e he)

/-- **When the generator writes JSON:** for a value without doubles whose strings and keys are in
UTF-8, `generate` returns a JSON text exactly if the deepest indentation is an `int` and every
control character in a string or a key is one of `\b`, `\f`, `\n`, `\r` and `\t`. -/
theorem generate_valid_iff (rt : Runtime D) {v : Value D} (hv : v.WF) (hd : v.NoDouble)
    (hutf8 : v.AllText Utf8) (pretty : Bool) (indentWidth : Int32) :
    (∃ text, generate rt v pretty indentWidth = some text ∧ JsonText text) ↔
      (pretty = true → v.depth * indentWidth.toInt < 2 ^ 31) ∧ v.AllText Escapable := by
  constructor
  · rintro ⟨text, htext, hjson⟩
    refine ⟨fun hpretty => ?_, allText_of_printable hv htext hjson.printable⟩
    rw [generate, if_pos hpretty] at htext
    by_cases hw : 0 < indentWidth
    · rcases room_of_generateValue hv htext with hzero | hroom
      · simp [hzero]
      · simpa using hroom hw
    · have hle : indentWidth.toInt ≤ 0 := by
        have hle := Int32.le_iff_toInt_le.1 (Int32.not_lt.1 hw)
        simpa using hle
      have hdepth : (0 : ℤ) ≤ v.depth := Int.natCast_nonneg _
      exact (Int.mul_nonpos_of_nonneg_of_nonpos hdepth hle).trans_lt (by decide)
  · rintro ⟨hroom, hescapable⟩
    obtain ⟨text, htext, hwrites⟩ := rfc8259_fits.generateValue_writes rt hv hd
      (hutf8.and hescapable) (room_of_pretty hroom)
    refine ⟨text, htext, text, [], Ws.refl _, ?_, Ws.refl _⟩
    have h := hwrites [] (by simp [Closes])
    rw [List.append_nil] at h
    exact h

/-- A value with every kind of escape, in the default layout. -/
theorem generate_valid_sample :
    let v : Value ℚ := .object [(ascii "k", .array [.null, .string (ascii "\"\n/")])]
    ∃ text, generate Runtime.exact v true 2 = some text ∧ JsonText text := by
  refine (generate_valid_iff Runtime.exact ?_ ?_ ?_ true 2).2 ⟨fun _ => ?_, ?_⟩
  · refine .object (by decide) (List.forall_mem_singleton.2 (.array ?_))
    exact List.forall_mem_cons.2 ⟨.null, List.forall_mem_singleton.2 (.string _)⟩
  · refine .object (List.forall_mem_singleton.2 (.array ?_))
    exact List.forall_mem_cons.2 ⟨.null, List.forall_mem_singleton.2 (.string _)⟩
  · refine .object (List.forall_mem_singleton.2 ⟨"k".toList, by decide +kernel⟩)
      (List.forall_mem_singleton.2 (.array ?_))
    exact List.forall_mem_cons.2
      ⟨.null, List.forall_mem_singleton.2 (.string ⟨"\"\n/".toList, by decide +kernel⟩)⟩
  · simp [Value.depth, Int32.toInt]
  · refine .object (List.forall_mem_singleton.2 (show Escapable (ascii "k") from ?_))
      (List.forall_mem_singleton.2 (.array ?_))
    · unfold Escapable
      decide +kernel
    · refine List.forall_mem_cons.2 ⟨.null, List.forall_mem_singleton.2 (.string ?_)⟩
      unfold Escapable
      decide +kernel

/-- The string with the one character U+0001 comes out as it is. -/
theorem generate_control :
    generate Runtime.exact (.string [0x01]) true 2 = some [ch '"', 0x01, ch '"'] ∧
      ¬ JsonText [ch '"', 0x01, ch '"'] := by
  constructor
  · rw [generate, generateValue]
    decide +kernel
  · intro h
    have hprintable := h.printable 0x01 (by decide)
    revert hprintable
    unfold Printable
    decide +kernel

end Json
end BreUtils
