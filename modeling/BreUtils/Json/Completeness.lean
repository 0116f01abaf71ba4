/-
# The parser reads RFC 8259

`denoting` says what the literals of RFC 8259 denote for `bre::json::Value`:
integers in the range of `int` are an `Int` and all other numbers a `Double`,
strings are unescaped, the last of several equal keys wins.  The grammar with
that denotation lies inside the dialect of the parser (`rfc_morphism`), so strict
mode reads every text of it and returns what it denotes.
-/

import BreUtils.Json.Rejection

namespace BreUtils
namespace Json

open Lib Cpp
open Rfc8259 (Number Item)

variable {D : Type}

/-- What RFC 8259 denotes, for texts without `\u` and numbers that `std::stod` reads. -/
def denoting (rt : Runtime D) : Denotation Bytes (Value D) where
  number n v := IsInt n ∧ v = .int (Int32.ofInt n.intValue) ∨
    ¬IsInt n ∧ ∃ d, stod rt n.text = .ok d ∧ v = .double d
  string is k := Rfc8259.content is = some k
  null := .null
  bool := .bool
  ofString := .string
  array := .array
  object ms v := ∃ o, AssocMap.LastWins ms o ∧ v = .object o

variable {rt : Runtime D}

/-! ### Numbers -/

/-- A number of the RFC is scanned whole. -/
theorem scanned_of_valid {n : Number} (h : n.Valid) : Scanned n where
  start := Or.inr h.int_ne_nil
  int := h.isDigit_int
  frac ds hds := (h.frac ds hds).2
  exp e sign ds he := ⟨(h.exp e sign ds he).1, (h.exp e sign ds he).2.1, (h.exp e sign ds he).2.2.2⟩

/-- What may follow a value: a space, a comma or a closing bracket, or nothing. -/
def MayFollow (t : Bytes) : Prop :=
  ∀ c ∈ t.head?, isspace c = true ∨ c ∈ [ch ',', ch ']', ch '}']

/-- No byte that may follow a value belongs to a number. -/
theorem MayFollow.longest {n : Number} {t : Bytes} (h : MayFollow t) : Longest n t := by
  have hno : ∀ c : UInt8, isspace c = true ∨ c ∈ [ch ',', ch ']', ch '}'] →
      isdigit c = false ∧ c ∉ ascii "eE.+-" := by
    decide +kernel
  intro c hc
  obtain ⟨hd, hmem⟩ := hno c (h c hc)
  have hne (x : UInt8) (hx : x ∈ ascii "eE.+-") : c ≠ x := fun h => hmem (h ▸ hx)
  exact ⟨hd, fun _ => ⟨hne _ (by decide), hne _ (by decide)⟩, fun _ _ => hne _ (by decide),
    fun _ _ => ⟨hne _ (by decide), hne _ (by decide)⟩⟩

/-- The white space of the RFC is a blank of C. -/
theorem isspace_of_isWs : ∀ c : UInt8, Rfc8259.isWs c = true → isspace c = true := by
  decide +kernel

/-- What follows a value in a JSON text may follow a number. -/
theorem mayFollow_of_follows {K V : Type} {E : Denotation K V} {t : Bytes}
    (h : Follows (rfc8259 E) t) : MayFollow t := fun c hc =>
  (head?_of_follows h c hc).imp_left (isspace_of_isWs c)

/-- A double that `std::stod` reads is the one the dialect yields. -/
theorem doubleValue_of_stod {n : Number} {d : D} (h : stod rt n.text = .ok d) :
    doubleValue rt n = .double d := by
  rw [stod] at h
  split_ifs at h
  rw [doubleValue]
  cases hs : rt.strtod n.text with
  | none => rw [hs] at h; cases h
  | some e =>
      rw [hs] at h
      rw [Except.ok.inj h]

/-- The value that a number denotes. -/
theorem numberValue_of_denoting {n : Number} {v : Value D} (h : (denoting rt).number n v) :
    numberValue rt n = v := by
  rcases h with ⟨hint, rfl⟩ | ⟨hint, d, hd, rfl⟩
  · rw [numberValue, if_pos hint]
  · rw [numberValue, if_neg hint, doubleValue_of_stod hd]

/-! ### Strings -/

/-- Characters in front that need no escape. -/
theorem Chars.append_raw {w s k t : Bytes} (hw : ∀ b ∈ w, b ≠ ch '"' ∧ b ≠ ch '\\')
    (h : Chars rt s k t) : Chars rt (w ++ s) (w ++ k) t := by
  induction w with
  | nil => exact h
  | cons b w ih =>
      obtain ⟨hq, hb⟩ := hw b (List.mem_cons_self ..)
      exact .raw hq hb (ih fun c hc => hw c (List.mem_cons_of_mem _ hc))

/-- The characters of a literal without `\u`, and what they stand for. -/
theorem chars_of_items {is : List Item} {k : Bytes} (hv : ∀ i ∈ is, i.Valid)
    (hk : Rfc8259.content is = some k) (t : Bytes) :
    Chars rt (is.flatMap Item.text ++ ch '"' :: t) k t := by
  induction is generalizing k with
  | nil =>
      obtain rfl : [] = k := Option.some.inj hk
      exact .close t
  | cons i is ih =>
      have hi := hv i (List.mem_cons_self ..)
      have his := fun j hj => hv j (List.mem_cons_of_mem _ hj)
      simp only [Rfc8259.content, Option.bind_eq_bind, Option.bind_eq_some_iff,
        Option.pure_def, Option.some.injEq] at hk
      obtain ⟨w, hw, k, hk, rfl⟩ := hk
      rw [List.flatMap_cons, List.append_assoc]
      cases i with
      | unescaped c =>
          obtain rfl : String.utf8EncodeChar c = w := Option.some.inj hw
          exact .append_raw (fun b hb => (Rfc8259.utf8_of_valid hi b hb).2) (ih his hk)
      | escaped e =>
          obtain ⟨d, hd, rfl⟩ := Option.map_eq_some_iff.1 hw
          exact .escape (.simple hd) (ih his hk)
      | unicode => cases hw

/-! ### The grammar -/

/-- **The grammar of RFC 8259 lies inside the dialect.** -/
theorem rfc_morphism (rt : Runtime D) : Morphism (rfc8259 (denoting rt)) (dialect rt) id where
  byte _ _ := rfl
  gap := by
    rintro s t ⟨w, hw, rfl⟩
    exact ⟨w, fun c hc => isspace_of_isWs c (hw c hc), rfl⟩
  trail {s s₁ t} h h' := by
    obtain ⟨w, hw, rfl⟩ := h
    exact ⟨s₁, ⟨w, fun c hc => isspace_of_isWs c (hw c hc), rfl⟩, h'⟩
  number := by
    rintro s v t ⟨n, hn, hv, rfl⟩ ht
    exact ⟨n, scanned_of_valid hn, (mayFollow_of_follows ht).longest, Or.inl hn.int_ne_nil,
      (numberValue_of_denoting hv).symm, rfl⟩
  string := by
    rintro s k t ⟨is, his, hk, rfl⟩
    exact ⟨_, rfl, by simpa [Rfc8259.quote] using chars_of_items his hk t⟩
  null := rfl
  bool := rfl
  ofString := rfl
  array := rfl
  object h := h

/-- **Strict mode is complete.**  It reads every text of RFC 8259, without `\u` and with numbers
that `std::stod` reads, and returns what the text denotes. -/
theorem parse_complete (rt : Runtime D) {s : Bytes} {v : Value D}
    (h : IsText (rfc8259 (denoting rt)) s v) : parse rt s true = .ok v := by
  obtain ⟨s₁, s₂, hs, hv, -⟩ := h.map (rfc_morphism rt) rfl
  exact parse_of_derives hs hv

/-- `parse_complete` at `{"k":1,"k": [0.5]}`: an integer, a double, a space, and a key twice. -/
theorem parse_complete_sample :
    IsText (rfc8259 (denoting Runtime.exact)) (ascii "\x7b\"k\":1,\"k\": [0.5]\x7d")
        (.object [(ascii "k", .array [.double (1 / 2)])]) ∧
      parse Runtime.exact (ascii "\x7b\"k\":1,\"k\": [0.5]\x7d") true =
        .ok (.object [(ascii "k", .array [.double (1 / 2)])]) := by
  have key (t : Bytes) :
      (rfc8259 (denoting Runtime.exact)).string (ascii "\"k\"" ++ t) (ascii "k") t :=
    ⟨[.unescaped 'k'], by simp [Item.Valid], rfl, rfl⟩
  have one : (rfc8259 (denoting Runtime.exact)).number (ascii "1,\"k\": [0.5]\x7d") (.int 1)
      (ascii ",\"k\": [0.5]\x7d") :=
    ⟨⟨false, ascii "1", none, none⟩,
      ⟨Or.inr ⟨_, _, rfl, by decide, by decide, by simp⟩, by simp, by simp⟩,
      Or.inl ⟨by decide, rfl⟩, rfl⟩
  have hstod : stod Runtime.exact (ascii "0.5") = .ok (1 / 2) := by
    have hd : Runtime.exact.strtod (ascii "0.5") = some (1 / 2) := by decide +kernel
    rw [stod, if_pos (by decide), hd]
  have half : (rfc8259 (denoting Runtime.exact)).number (ascii "0.5]\x7d") (.double (1 / 2))
      (ascii "]\x7d") :=
    ⟨⟨false, ascii "0", some (ascii "5"), none⟩,
      ⟨Or.inl rfl, by rintro _ ⟨⟩; decide +kernel, by simp⟩,
      Or.inr ⟨by decide, 1 / 2, hstod, rfl⟩, rfl⟩
  have hlast := AssocMap.lastWins_foldl
    [(ascii "k", .int 1), (ascii "k", Value.array [Value.double (1 / 2 : ℚ)])]
  simp only [List.foldl_cons, List.foldl_nil, AssocMap.assign, if_pos] at hlast
  have nogap (s : Bytes) : (rfc8259 (denoting Runtime.exact)).gap s s := ⟨[], by simp, rfl⟩
  have h : IsText (rfc8259 (denoting Runtime.exact)) (ascii "\x7b\"k\":1,\"k\": [0.5]\x7d")
      (.object [(ascii "k", .array [.double (1 / 2)])]) := by
    refine ⟨_, [], nogap _, .object (.member (nogap _) (key _) (nogap _) (nogap _) (.number one)
      (nogap _) (.lastMember (nogap _) (key _) (nogap _) ⟨ascii " ", by decide +kernel, rfl⟩
        (.array (.lastElement (nogap _) (.number half) (nogap _) rfl)) (nogap _) rfl))
      ⟨_, hlast, rfl⟩, nogap _⟩
  exact ⟨h, parse_complete Runtime.exact h⟩

end Json
end BreUtils
