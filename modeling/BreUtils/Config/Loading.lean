/-
# What a configuration file says

A file consists of lines: blank ones, section headers `[name]` and assignments
`key = value`, each with blanks around it and possibly with a comment behind it
(`Line`).  Which assignments such a file makes is plain to see (`assignmentsOf`), and
they are the ones that the loader finds: cutting at the `;` and trimming leave what the
line is about (`statement_text`).

So after `loadConfig` each key of each section has the value that it was given last
(`loadConfig_render`).
-/

import BreUtils.Config.IniConfigLoad

namespace BreUtils
namespace Config

open Lib Cpp

/-! ### Files -/

/-- What a line is about. -/
inductive Content where
  | nothing
  | header (name : Bytes)
  /-- `before` and `after` stand around the `=`. -/
  | assignment (key before after value : Bytes)

/-- A line, with the blanks around it and the text of a comment behind it. -/
structure Line where
  lead : Bytes
  content : Content
  trail : Bytes
  comment : Option Bytes

def Content.text : Content → Bytes
  | nothing => []
  | header name => ch '[' :: (name ++ [ch ']'])
  | assignment key before after value => key ++ before ++ ch '=' :: (after ++ value)

def Line.text (line : Line) : Bytes :=
  line.lead ++ line.content.text ++ line.trail ++
    match line.comment with
    | none => []
    | some comment => ch ';' :: comment

/-- The lines, with a newline between any two.  A file that ends in a newline has an empty last
line. -/
def render : List Line → Bytes
  | [] => []
  | [line] => line.text
  | line :: lines => line.text ++ 0x0A :: render lines

/-- Spaces, tabs and carriage returns. -/
def Blanks (s : Bytes) : Prop := ∀ c ∈ s, c = ch ' ' ∨ c = 0x09 ∨ c = 0x0D

instance (s : Bytes) : Decidable (Blanks s) :=
  inferInstanceAs (Decidable (∀ c ∈ s, c = ch ' ' ∨ c = 0x09 ∨ c = 0x0D))

/-- No blank at either end. -/
def Trimmed (s : Bytes) : Prop :=
  (∀ c ∈ s.head?, ¬ Blanks [c]) ∧ ∀ c ∈ s.getLast?, ¬ Blanks [c]

instance (s : Bytes) : Decidable (Trimmed s) :=
  inferInstanceAs (Decidable ((∀ c ∈ s.head?, ¬ Blanks [c]) ∧ ∀ c ∈ s.getLast?, ¬ Blanks [c]))

/-- No newline, and no semicolon. -/
def Plain (s : Bytes) : Prop := 0x0A ∉ s ∧ ch ';' ∉ s

instance (s : Bytes) : Decidable (Plain s) :=
  inferInstanceAs (Decidable (0x0A ∉ s ∧ ch ';' ∉ s))

/-- Names and values without semicolons, and keys that can be told from values and headers. -/
def Content.Valid : Content → Prop
  | nothing => True
  | header name => Plain name
  | assignment key before after value =>
      Plain key ∧ key ≠ [] ∧ ch '=' ∉ key ∧ key.head? ≠ some (ch '[') ∧ Trimmed key ∧
        Blanks before ∧ Blanks after ∧ Plain value ∧ Trimmed value

instance (content : Content) : Decidable content.Valid :=
  match content with
  | .nothing => inferInstanceAs (Decidable True)
  | .header name => inferInstanceAs (Decidable (Plain name))
  | .assignment key before after value =>
      inferInstanceAs (Decidable (Plain key ∧ key ≠ [] ∧ ch '=' ∉ key ∧
        key.head? ≠ some (ch '[') ∧ Trimmed key ∧ Blanks before ∧ Blanks after ∧ Plain value ∧
          Trimmed value))

structure Line.Valid (line : Line) : Prop where
  lead : Blanks line.lead
  content : line.content.Valid
  trail : Blanks line.trail
  comment : ∀ comment ∈ line.comment, 0x0A ∉ comment

instance (line : Line) : Decidable line.Valid :=
  decidable_of_iff
    (Blanks line.lead ∧ line.content.Valid ∧ Blanks line.trail ∧
      ∀ comment ∈ line.comment, 0x0A ∉ comment)
    ⟨fun h => ⟨h.1, h.2.1, h.2.2.1, h.2.2.2⟩,
      fun h => ⟨h.lead, h.content, h.trail, h.comment⟩⟩

/-- What the lines assign, behind the header of a section. -/
def assignmentsOf (current : Bytes) : List Content → List IniConfigLoad.Assignment
  | [] => []
  | .nothing :: contents => assignmentsOf current contents
  | .header name :: contents => assignmentsOf name contents
  | .assignment key _ _ value :: contents =>
      ⟨current, key, value⟩ :: assignmentsOf current contents

/-! ### Cutting and trimming -/

/-- Where a byte first occurs. -/
theorem findIdx?_append_cons {a : Bytes} {c : UInt8} (h : c ∉ a) (b : Bytes) :
    (a ++ c :: b).findIdx? (· == c) = some a.length := by
  have hnone : a.findIdx? (· == c) = none := by
    rw [List.findIdx?_eq_none_iff]
    intro d hd
    simp only [beq_eq_false_iff_ne]
    exact fun hdc => h (hdc ▸ hd)
  rw [List.findIdx?_append, hnone]
  simp [List.findIdx?_cons]

theorem findIdx?_not_mem {s : Bytes} {c : UInt8} (h : c ∉ s) :
    s.findIdx? (· == c) = none := by
  rw [List.findIdx?_eq_none_iff]
  intro d hd
  simp only [beq_eq_false_iff_ne]
  exact fun hdc => h (hdc ▸ hd)

theorem Blanks.append {s t : Bytes} (hs : Blanks s) (ht : Blanks t) : Blanks (s ++ t) :=
  List.forall_mem_append.2 ⟨hs, ht⟩

theorem isBlank_of_blanks {s : Bytes} (h : Blanks s) {c : UInt8} (hc : c ∈ s) :
    isBlank c = true := by
  rcases h c hc with rfl | rfl | rfl
  · decide
  · decide
  · decide

/-- Without newlines, the code trims what is blank here. -/
theorem isBlank_eq_false {c : UInt8} (h : ¬ Blanks [c]) (hnewline : c ≠ 0x0A) :
    isBlank c = false := by
  simp only [Blanks, List.forall_mem_singleton, not_or] at h
  simp [isBlank, h, hnewline]

theorem eraseFront_blanks {a s : Bytes} (ha : Blanks a)
    (hs : ∀ c, s.head? = some c → isBlank c = false) : eraseFront (a ++ s) = s := by
  unfold eraseFront findFirstNotOf
  have hnone : a.findIdx? (fun c => !isBlank c) = none := by
    rw [List.findIdx?_eq_none_iff]
    intro c hc
    simp [isBlank_of_blanks ha hc]
  rw [List.findIdx?_append, hnone, Option.none_or]
  cases s with
  | nil => rfl
  | cons c s =>
      rw [List.findIdx?_cons, if_pos (by rw [hs c rfl]; rfl), Option.map_some, Nat.zero_add]
      exact List.drop_left

theorem eraseBack_blanks {s b : Bytes} (hb : Blanks b)
    (hs : ∀ c, s.getLast? = some c → isBlank c = false) : eraseBack (s ++ b) = s := by
  unfold eraseBack findLastNotOf
  have hnone : b.reverse.findIdx? (fun c => !isBlank c) = none := by
    rw [List.findIdx?_eq_none_iff]
    intro c hc
    simp [isBlank_of_blanks hb (List.mem_reverse.1 hc)]
  rw [List.reverse_append, List.findIdx?_append, hnone, Option.none_or]
  induction s using List.reverseRecOn with
  | nil => rfl
  | append_singleton s c =>
      have hc : isBlank c = false := hs c List.getLast?_concat
      rw [List.reverse_append, List.reverse_singleton, List.singleton_append, List.findIdx?_cons,
        if_pos (by rw [hc]; rfl)]
      simp only [Option.map_some, List.length_append, List.length_reverse, List.length_cons,
        List.length_nil, Nat.zero_add]
      exact List.take_left' (by simp)

/-- **Trimming takes the blanks off both ends.** -/
theorem trim_blanks {a s b : Bytes} (ha : Blanks a) (hb : Blanks b)
    (hhead : ∀ c, s.head? = some c → isBlank c = false)
    (hlast : ∀ c, s.getLast? = some c → isBlank c = false) : trim (a ++ s ++ b) = s := by
  cases s with
  | nil =>
      have hnil : eraseFront (a ++ b ++ []) = [] := eraseFront_blanks (ha.append hb) (by simp)
      rw [List.append_nil] at hnil
      rw [trim, List.append_nil, hnil]
      rfl
  | cons d s =>
      have hfront : eraseFront (a ++ (d :: s ++ b)) = d :: s ++ b := eraseFront_blanks ha hhead
      rw [trim, List.append_assoc, hfront]
      exact eraseBack_blanks hb hlast

/-! ### Lines -/

/-- What a line says, in the words of the loader. -/
def Content.statement : Content → IniConfigLoad.Statement
  | nothing => .nothing
  | header name => .header name
  | assignment key _ _ value => .assignment key value

theorem Blanks.not_mem {s : Bytes} (h : Blanks s) {c : UInt8} (hc : ¬ Blanks [c]) : c ∉ s := by
  intro hmem
  rw [Blanks, List.forall_mem_singleton] at hc
  exact hc (h c hmem)

theorem Blanks.plain {s : Bytes} (h : Blanks s) : Plain s :=
  ⟨h.not_mem (by decide), h.not_mem (by decide)⟩

theorem Plain.append {s t : Bytes} (hs : Plain s) (ht : Plain t) : Plain (s ++ t) :=
  ⟨fun h => (List.mem_append.1 h).elim hs.1 ht.1, fun h => (List.mem_append.1 h).elim hs.2 ht.2⟩

theorem Plain.cons {c : UInt8} {s : Bytes} (hnewline : c ≠ 0x0A) (hsemicolon : c ≠ ch ';')
    (hs : Plain s) : Plain (c :: s) :=
  ⟨fun h => (List.mem_cons.1 h).elim (fun h => hnewline h.symm) hs.1,
    fun h => (List.mem_cons.1 h).elim (fun h => hsemicolon h.symm) hs.2⟩

theorem Content.Valid.plain {content : Content} (h : content.Valid) : Plain content.text := by
  cases content with
  | nothing => exact ⟨by simp [text], by simp [text]⟩
  | header name =>
      exact .cons (by decide) (by decide) (.append h (.cons (by decide) (by decide)
        ⟨by simp, by simp⟩))
  | assignment key before after value =>
      obtain ⟨hkey, -, -, -, -, hbefore, hafter, hvalue, -⟩ := h
      exact (hkey.append hbefore.plain).append
        (.cons (by decide) (by decide) (hafter.plain.append hvalue))

/-- Newlines come only between lines. -/
theorem Line.Valid.newline {line : Line} (h : line.Valid) : 0x0A ∉ line.text := by
  have hplain := (h.lead.plain.append h.content.plain).append h.trail.plain
  intro hmem
  rcases List.mem_append.1 hmem with hmem | hmem
  · exact hplain.1 hmem
  · cases hcomment : line.comment with
    | none =>
        rw [hcomment] at hmem
        exact absurd hmem (by simp)
    | some comment =>
        rw [hcomment] at hmem
        rcases List.mem_cons.1 hmem with hmem | hmem
        · exact absurd hmem (by decide)
        · exact h.comment comment hcomment hmem

/-- The comment is cut off. -/
theorem Line.Valid.cut {line : Line} (h : line.Valid) :
    IniConfigLoad.cutComment line.text = line.lead ++ line.content.text ++ line.trail := by
  have hplain := (h.lead.plain.append h.content.plain).append h.trail.plain
  unfold IniConfigLoad.cutComment Line.text
  cases line.comment with
  | none =>
      rw [List.append_nil, findIdx?_not_mem hplain.2]
  | some comment =>
      rw [findIdx?_append_cons hplain.2]
      exact List.take_left

theorem isBlank_head {s : Bytes} (hs : Plain s) (htrimmed : Trimmed s) (c : UInt8)
    (hc : s.head? = some c) : isBlank c = false := by
  refine isBlank_eq_false (htrimmed.1 c hc) fun hnewline => hs.1 ?_
  exact hnewline ▸ List.mem_of_mem_head? hc

theorem isBlank_last {s : Bytes} (hs : Plain s) (htrimmed : Trimmed s) (c : UInt8)
    (hc : s.getLast? = some c) : isBlank c = false := by
  refine isBlank_eq_false (htrimmed.2 c hc) fun hnewline => hs.1 ?_
  exact hnewline ▸ List.mem_of_getLast? hc

/-- What trimming leaves of an assignment. -/
theorem trim_assignment {key before after value lead trail : Bytes}
    (h : (Content.assignment key before after value).Valid) (hlead : Blanks lead)
    (htrail : Blanks trail) :
    ∃ rest, trim (lead ++ (Content.assignment key before after value).text ++ trail) =
      key ++ before ++ ch '=' :: rest ∧ trim rest = value := by
  obtain ⟨hkey, hne, -, -, hktrim, hbefore, hafter, hvalue, hvtrim⟩ := h
  obtain ⟨k, key, rfl⟩ := List.exists_cons_of_ne_nil hne
  have hhead : isBlank k = false := isBlank_head hkey hktrim k rfl
  cases value with
  | nil =>
      refine ⟨[], ?_, rfl⟩
      have htext : lead ++ (Content.assignment (k :: key) before after []).text ++ trail =
          lead ++ (k :: key ++ before ++ [ch '=']) ++ (after ++ trail) := by
        simp [Content.text]
      rw [htext]
      refine trim_blanks hlead (hafter.append htrail) ?_ ?_
      · rintro c ⟨⟩
        exact hhead
      · intro c hc
        rw [List.getLast?_concat] at hc
        obtain rfl := Option.some.inj hc
        decide
  | cons v value =>
      refine ⟨after ++ v :: value, ?_, ?_⟩
      · refine trim_blanks hlead htrail ?_ ?_
        · rintro c ⟨⟩
          exact hhead
        · intro c hc
          refine isBlank_last hvalue hvtrim c ?_
          have hsplit : (Content.assignment (k :: key) before after (v :: value)).text =
              (k :: key ++ before ++ ch '=' :: after) ++ v :: value := by
            simp [Content.text]
          rw [hsplit, List.getLast?_append_of_ne_nil _ (by simp)] at hc
          exact hc
      · have htrim := trim_blanks (b := []) hafter (by simp [Blanks])
          (isBlank_head hvalue hvtrim) (isBlank_last hvalue hvtrim)
        rwa [List.append_nil] at htrim

/-- **A line says what it is about.** -/
theorem statement_text {line : Line} (h : line.Valid) :
    IniConfigLoad.statement line.text = line.content.statement := by
  unfold IniConfigLoad.statement
  dsimp only
  rw [h.cut]
  obtain ⟨lead, content, trail, comment⟩ := line
  obtain ⟨hlead, hcontent, htrail, -⟩ := h
  cases content with
  | nothing =>
      have htrim : trim (lead ++ Content.nothing.text ++ trail) = [] :=
        trim_blanks hlead htrail (by simp [Content.text]) (by simp [Content.text])
      rw [htrim, if_pos rfl]
      rfl
  | header name =>
      have htrim : trim (lead ++ (Content.header name).text ++ trail) =
          (Content.header name).text := by
        refine trim_blanks hlead htrail ?_ ?_
        · rintro c ⟨⟩
          decide
        · intro c hc
          rw [Content.text, ← List.cons_append, List.getLast?_concat] at hc
          obtain rfl := Option.some.inj hc
          decide
      have hlast : (Content.header name).text.getLast? = some (ch ']') := by
        rw [Content.text, ← List.cons_append, List.getLast?_concat]
      rw [htrim, if_neg (by simp [Content.text]), if_pos ⟨rfl, hlast⟩]
      simp [Content.text, Content.statement]
  | assignment key before after value =>
      obtain ⟨rest, htrim, hrest⟩ := trim_assignment hcontent hlead htrail
      obtain ⟨hkey, hne, hassign, hbracket, hktrim, hbefore, -, -, -⟩ := hcontent
      have hfree : ch '=' ∉ key ++ before := by
        intro hmem
        rcases List.mem_append.1 hmem with hmem | hmem
        · exact hassign hmem
        · exact hbefore.not_mem (by decide) hmem
      have hhead : (key ++ before ++ ch '=' :: rest).head? ≠ some (ch '[') := by
        obtain ⟨k, key, rfl⟩ := List.exists_cons_of_ne_nil hne
        exact hbracket
      have hkeytrim : trim (key ++ before) = key := by
        have htrim := trim_blanks (a := []) (by simp [Blanks]) hbefore (isBlank_head hkey hktrim)
          (isBlank_last hkey hktrim)
        rwa [List.nil_append] at htrim
      rw [htrim, if_neg (by simp), if_neg fun hheader => hhead hheader.1,
        findIdx?_append_cons hfree]
      have hdrop : (key ++ before ++ ch '=' :: rest).drop ((key ++ before).length + 1) = rest := by
        rw [← List.drop_drop, List.drop_left]
        rfl
      dsimp only
      rw [List.take_left, hdrop, hkeytrim, hrest]
      rfl

/-! ### Files -/

/-- A line in front of others. -/
theorem getlines_append {line : Bytes} (h : 0x0A ∉ line) (file : Bytes) :
    getlines (line ++ 0x0A :: file) = line :: getlines file := by
  induction line with
  | nil => rfl
  | cons c line ih =>
      rw [List.mem_cons, not_or] at h
      rw [List.cons_append, getlines, if_neg (Ne.symm h.1), ih h.2]

/-- The last line, if there is anything in it. -/
theorem getlines_line {line : Bytes} (h : 0x0A ∉ line) :
    getlines line = if line = [] then [] else [line] := by
  induction line with
  | nil => rfl
  | cons c line ih =>
      rw [List.mem_cons, not_or] at h
      rw [getlines, if_neg (Ne.symm h.1), ih h.2, if_neg (List.cons_ne_nil c line)]
      split_ifs with hnil
      · rw [hnil]
      · rfl

/-- One more line in front, whatever the section is. -/
theorem assignments_cons {line : Line} (h : line.Valid) {rest : List Bytes}
    {contents : List Content}
    (hrest : ∀ current, IniConfigLoad.assignments current rest = assignmentsOf current contents)
    (current : Bytes) : IniConfigLoad.assignments current (line.text :: rest) =
      assignmentsOf current (line.content :: contents) := by
  rw [IniConfigLoad.assignments, statement_text h]
  cases line.content with
  | nothing => exact hrest current
  | header name => exact hrest name
  | assignment key before after value => exact congrArg _ (hrest current)

/-- **The loader finds the assignments of the file.** -/
theorem assignments_render {lines : List Line} (h : ∀ line ∈ lines, line.Valid)
    (current : Bytes) :
    IniConfigLoad.assignments current (getlines (render lines)) =
      assignmentsOf current (lines.map Line.content) := by
  induction lines generalizing current with
  | nil => rfl
  | cons line lines ih =>
      rw [List.forall_mem_cons] at h
      cases lines with
      | nil =>
          rw [render, getlines_line h.1.newline]
          split_ifs with hempty
          · -- an empty last line is not read, and says nothing
            have hnothing : IniConfigLoad.Statement.nothing = line.content.statement := by
              rw [← statement_text h.1, hempty]
              rfl
            rw [List.map_cons]
            cases hcontent : line.content with
            | nothing => rfl
            | header name => exact absurd (hcontent ▸ hnothing) (by simp [Content.statement])
            | assignment key before after value =>
                exact absurd (hcontent ▸ hnothing) (by simp [Content.statement])
          · exact assignments_cons h.1 (fun _ => rfl) current
      | cons next lines =>
          rw [render, getlines_append h.1.newline]
          · exact assignments_cons h.1 (ih h.2) current
          · simp

/-- **Loading means what the text says.**  After `loadConfig` of a file of blank lines, comments,
headers and assignments, every key of every section has the value that it was given last, or reads
as the empty string; and `operator[]` finds the same. -/
theorem loadConfig_render (lines : List Line) (h : ∀ line ∈ lines, line.Valid)
    (name key : Bytes) :
    (({} : IniConfigLoad).loadConfig (some (render lines))).2.getValue name key =
        (IniConfigLoad.lastValue (assignmentsOf [] (lines.map Line.content)) name key).getD [] ∧
      ((({} : IniConfigLoad).loadConfig (some (render lines))).2.get name).get key =
        (IniConfigLoad.lastValue (assignmentsOf [] (lines.map Line.content)) name key).getD [] := by
  rw [IniConfigLoad.get_get, IniConfigLoad.getValue_eq, IniConfigLoad.loadConfig_eq,
    IniConfigLoad.value_assignAll, IniConfigLoad.assigned, assignments_render h]
  simp [IniConfigLoad.value]

/-- A section in two parts, and a value that has an `=`. -/
def sampleLines : List Line :=
  [⟨[0x09], .header (ascii "a"), [ch ' '], some (ascii "1")⟩,
    ⟨[], .assignment (ascii "k") [ch ' '] [ch ' '] (ascii "x=y"), [0x0D], none⟩,
    ⟨[], .header (ascii "b"), [], none⟩,
    ⟨[], .assignment (ascii "k") [] [] [], [], none⟩,
    ⟨[], .header (ascii "a"), [], none⟩]

theorem loadConfig_render_sample :
    render sampleLines = ascii "\t[a] ;1\nk = x=y\x0d\n[b]\nk=\n[a]" ∧
      (({} : IniConfigLoad).loadConfig (some (render sampleLines))).2.getValue
        (ascii "a") (ascii "k") = ascii "x=y" := by
  refine ⟨by decide +kernel, ?_⟩
  have hvalid : ∀ line ∈ sampleLines, line.Valid := by decide +kernel
  exact (loadConfig_render sampleLines hvalid (ascii "a") (ascii "k")).1

end Config
end BreUtils
