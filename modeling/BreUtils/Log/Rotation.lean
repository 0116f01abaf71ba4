/-
# Which file the lines go to

When its `Write` has the mutex, a line has a file: that of its day and of its segment of
`MAX_LINES` lines (`Selected`).  The stream is shared, though, and `Write` turns it to
another file while lines that were accepted for the old one are still in the queue or
in the writer's hand; these end up in the new file (`lines_misplaced`).  Moreover a
`Write` looks at the day of the month alone, so a month later to the day it keeps the old
file; and when the file of a new day does not open, the day counts as turned to, so the
lines that follow have no file.

The lines are in their files, and no more than `MAX_LINES` of them between two openings,
as long as each `Write` that turns to another file finds nothing on its way, and each
that does not finds the file of its day open (`lines_in_files`).  The condition asks for
no more than it must: the first `Write` that fails it can be followed by steps that leave
a line out of its file (`exists_misplaced`).
-/

import BreUtils.Log.Order

namespace BreUtils
namespace Logs
namespace Log

open Lib

variable {T : Type*} [DecidableEq T]

/-- The file of a line: that of its date, with the number of its segment; the first segment may be
in the file that `Init` opened. -/
def Selected (l : Line) (f : File) : Prop :=
  f.date = l.date ∧
    (f.ending = .segment (l.lineCount / MAX_LINES) ∨
      f.ending = .plain ∧ l.lineCount / MAX_LINES = 0)

/-- **The lines are in their files**, and nothing undefined has happened. -/
structure InFiles (s : Log T) : Prop where
  defined : s.undefined = false
  /-- Every `Write` has the file of its line open when it chooses the route. -/
  selected : ∀ l ∈ s.accepted, ∃ f, l.file = some f ∧ Selected l f
  /-- The line goes into that file. -/
  placed : ∀ w ∈ s.written, w.file = w.line.file
  /-- Between two openings, no file gets more than `MAX_LINES` lines. -/
  bounded : ∀ k f, s.written.countP (fun w => w.opening = k ∧ w.file = some f) ≤ MAX_LINES

/-- The condition on a `Write` that gets the mutex.  When it turns to another file, no line is on
its way to the old one; when it does not, the file of its date is open; and it can be counted. -/
def Settled (s : Log T) : Action T → Prop
  | .lock t _ => ∀ m, s.call t = .write m →
      (Rotates s m.t → s.queue = [] ∧ s.str = none) ∧
        (¬ Rotates s m.t →
          s.lineCount < maxInt ∧ ∃ f, s.fileStream = some f ∧ f.date = m.t.toDate)
  | _ => True

/-! ### The invariant -/

/-- The count at which the open file was begun. -/
def start (s : Log T) : ℕ :=
  match s.fileStream with
  | some f => f.segment * MAX_LINES
  | none => s.lineCount

/-- The lines are in their files, and so will be those on their way: they all belong to the file
that is open, and it has counted them. -/
structure Tidy (cfg : Config) (s : Log T) : Prop where
  defined : s.undefined = false
  selected : ∀ l ∈ s.accepted, ∃ f, l.file = some f ∧ Selected l f
  placed : ∀ w ∈ s.written, w.file = w.line.file
  bounded : ∀ k, s.written.countP (fun w => w.opening = k) ≤ MAX_LINES
  past : ∀ w ∈ s.written, w.opening ≤ s.openings
  onTheWay : ∀ l ∈ pending cfg s, l.file = s.fileStream
  ending : ∀ f, s.fileStream = some f → f.ending ≠ .suffixed
  counted : s.written.countP (fun w => w.opening = s.openings) + (pending cfg s).length +
    start s ≤ s.lineCount
  full : s.lineCount ≤ start s + MAX_LINES
  opened : ∀ l ∈ pending cfg s, l.file ≠ none
  day : ∀ f, s.fileStream = some f → f.date.tm_mday = s.today
  range : s.lineCount ≤ maxInt

variable {cfg : Config} {s s' : Log T} {a : Action T}

omit [DecidableEq T] in
theorem Tidy.init (level : LogLevel) (t : Tm) : Tidy cfg (init level t : Log T) where
  defined := rfl
  selected := by simp [Log.init]
  placed := by simp [Log.init]
  bounded := by simp [Log.init]
  past := by simp [Log.init]
  onTheWay := by simp [Log.init, pending, held]
  ending := by
    rintro f ⟨⟩
    simp
  counted := by simp [Log.init, pending, held, start, File.segment]
  full := by simp [Log.init]
  opened := by simp [Log.init, pending, held]
  day := by
    rintro f ⟨⟩
    rfl
  range := Nat.zero_le _

omit [DecidableEq T] in
theorem Tidy.inFiles (hs : Tidy cfg s) : InFiles s where
  defined := hs.defined
  selected := hs.selected
  placed := hs.placed
  bounded k f := by
    refine Nat.le_trans (List.countP_mono_left fun w _ hw => ?_) (hs.bounded k)
    simp only [decide_eq_true_eq] at hw ⊢
    exact hw.1

omit [DecidableEq T] in
/-- Lines may move on their way to the file. -/
theorem Tidy.move (hs : Tidy cfg s) (level : LogLevel) (queue : List Line)
    (mtx : Option (T × Line)) (call : T → Call) (str : Option Line)
    (hpending : pending cfg { s with level, queue, mtx, call, str } = pending cfg s) :
    Tidy cfg { s with level, queue, mtx, call, str } :=
  ⟨hs.defined, hs.selected, hs.placed, hs.bounded, hs.past, hpending ▸ hs.onTheWay, hs.ending,
    hpending ▸ hs.counted, hs.full, hpending ▸ hs.opened, hs.day, hs.range⟩

omit [DecidableEq T] in
/-- A line that was on its way goes into the file. -/
theorem Tidy.give (hs : Tidy cfg s) (l : Line) (mtx : Option (T × Line)) (call : T → Call)
    (str : Option Line)
    (hpending : pending cfg s = l :: pending cfg { s with
      mtx, call, str, written := s.written ++ [⟨l, s.openings, s.fileStream⟩] }) :
    Tidy cfg { s with
      mtx, call, str, written := s.written ++ [⟨l, s.openings, s.fileStream⟩] } := by
  have hcounted := hs.counted
  have hfull := hs.full
  rw [hpending, List.length_cons] at hcounted
  have hlast : ∀ k, (s.written ++ [(⟨l, s.openings, s.fileStream⟩ : Written)]).countP
      (fun w => w.opening = k) =
        s.written.countP (fun w => w.opening = k) + if s.openings = k then 1 else 0 := by
    intro k
    rw [List.countP_append, List.countP_singleton]
    simp only [decide_eq_true_eq]
  refine ⟨hs.defined, hs.selected, ?_, fun k => ?_, ?_, ?_, hs.ending, ?_, hs.full, ?_, hs.day,
    hs.range⟩
  · intro w hw
    rcases List.mem_append.1 hw with hw | hw
    · exact hs.placed w hw
    · rw [List.mem_singleton.1 hw]
      exact (hs.onTheWay l (hpending ▸ List.mem_cons_self)).symm
  · refine (hlast k).trans_le ?_
    split_ifs with hk
    · subst hk
      omega
    · exact hs.bounded k
  · intro w hw
    rcases List.mem_append.1 hw with hw | hw
    · exact hs.past w hw
    · rw [List.mem_singleton.1 hw]
  · exact fun l' hl' => hs.onTheWay l' (hpending ▸ List.mem_cons_of_mem _ hl')
  · have hnow := hlast s.openings
    rw [if_pos rfl] at hnow
    refine (congrArg (· + _ + _) hnow).trans_le ?_
    show _ + _ + _ + start s ≤ s.lineCount
    omega
  · exact fun l' hl' => hs.opened l' (hpending ▸ List.mem_cons_of_mem _ hl')

/-! ### To turn to the next file -/

omit [DecidableEq T] in
theorem newDay_today (s : Log T) (t : Tm) : (newDay s t).today = t.tm_mday := by
  unfold newDay
  split_ifs with hday
  · rfl
  · exact not_not.1 hday

omit [DecidableEq T] in
/-- The name with another suffix is never chosen: the day is set by then. -/
theorem nextFile_newDay (s : Log T) (t : Tm) :
    nextFile (newDay s t) t =
      ⟨t.toDate, .segment ((newDay s t).lineCount / MAX_LINES)⟩ := by
  rw [nextFile, if_neg (not_not.2 (newDay_today s t))]

omit [DecidableEq T] in
/-- `Write` turns to another file at the beginning of a segment. -/
theorem newDay_lineCount_mod {t : Tm} (h : Rotates s t) :
    (newDay s t).lineCount % MAX_LINES = 0 := by
  unfold newDay
  split_ifs with hday
  · rfl
  · exact (h.resolve_left hday).2

omit [DecidableEq T] in
theorem newDay_lineCount_le (s : Log T) (t : Tm) : (newDay s t).lineCount ≤ s.lineCount := by
  unfold newDay
  split_ifs
  · exact Nat.zero_le _
  · exact Nat.le_refl _

omit [DecidableEq T] in
theorem start_rotate {t : Tm} (h : Rotates s t) (opens : Bool) :
    start (rotate s t opens) = (rotate s t opens).lineCount := by
  cases opens with
  | false => rfl
  | true =>
      show (nextFile (newDay s t) t).segment * MAX_LINES = (newDay s t).lineCount
      rw [nextFile_newDay]
      exact Nat.div_mul_cancel (Nat.dvd_of_mod_eq_zero (newDay_lineCount_mod h))

omit [DecidableEq T] in
theorem pending_eq_nil (hmtx : s.mtx = none) (hqueue : s.queue = []) (hstr : s.str = none) :
    pending cfg s = [] := by
  rw [pending, held_eq_nil hmtx, hqueue, hstr]
  rfl

omit [DecidableEq T] in
/-- Nothing is on its way, and the next file is begun. -/
theorem Tidy.rotate (hs : Tidy cfg s) {t : Tm} (hrotates : Rotates s t)
    (hpending : pending cfg s = []) (opens : Bool) : Tidy cfg (rotate s t opens) := by
  have hstart := start_rotate hrotates opens
  have hending : ∀ f, (Log.rotate s t opens).fileStream = some f → f.ending ≠ .suffixed := by
    intro f hf
    cases opens with
    | false => exact absurd hf (by simp [Log.rotate])
    | true =>
        obtain rfl := Option.some.inj hf
        rw [nextFile_newDay]
        simp
  have hday : ∀ f, (Log.rotate s t opens).fileStream = some f →
      f.date.tm_mday = (Log.rotate s t opens).today := by
    intro f hf
    cases opens with
    | false => exact absurd hf (by simp [Log.rotate])
    | true =>
        obtain rfl := Option.some.inj hf
        exact (newDay_today s t).symm
  have hrange : (Log.rotate s t opens).lineCount ≤ maxInt :=
    (newDay_lineCount_le s t).trans hs.range
  have hnone : s.written.countP (fun w => w.opening = s.openings + 1) = 0 := by
    refine List.countP_eq_zero.2 fun w hw => ?_
    have hpast := hs.past w hw
    simp only [decide_eq_true_eq]
    omega
  obtain ⟨n, d, hnew⟩ := newDay_eq s t
  obtain ⟨f, hsame⟩ : ∃ f, Log.rotate s t opens =
      { s with lineCount := n, today := d, fileStream := f, openings := s.openings + 1 } := by
    unfold Log.rotate
    rw [hnew]
    exact ⟨_, rfl⟩
  rw [hsame] at hstart hending hday hrange ⊢
  have hempty : pending cfg { s with
      lineCount := n, today := d, fileStream := f, openings := s.openings + 1 } = [] := hpending
  refine ⟨hs.defined, hs.selected, hs.placed, hs.bounded,
    fun w hw => Nat.le_succ_of_le (hs.past w hw), ?_, hending, ?_, ?_, ?_, hday, hrange⟩
  · rw [hempty]
    simp
  · rw [hempty, hstart, List.length_nil]
    show s.written.countP (fun w => w.opening = s.openings + 1) + 0 + n ≤ n
    omega
  · rw [hstart]
    exact Nat.le_add_right _ _
  · rw [hempty]
    simp

/-- A line is counted for the file that is open. -/
theorem Tidy.count (hs : Tidy cfg s) (t : T) {m : Message} {f : File} (hmtx : s.mtx = none)
    (hfile : s.fileStream = some f) (hdate : f.date = m.t.toDate)
    (hroom : s.lineCount < start s + MAX_LINES) (hrange : s.lineCount < maxInt) :
    Tidy cfg (count cfg s t m) := by
  have hcounted := hs.counted
  have hstart : start s = f.segment * MAX_LINES := by rw [start, hfile]
  have hpending : (pending cfg (Log.count cfg s t m)).Perm (newLine s m :: pending cfg s) :=
    pending_count hmtx
  have hsegment : s.lineCount / MAX_LINES = f.segment := by
    rw [hstart] at hroom hcounted
    exact Nat.div_eq_of_lt_le (by omega) (by rw [Nat.succ_mul]; omega)
  have hselected : Selected (newLine s m) f := by
    refine ⟨hdate, ?_⟩
    show f.ending = .segment (s.lineCount / MAX_LINES) ∨
      f.ending = .plain ∧ s.lineCount / MAX_LINES = 0
    rw [hsegment]
    have hending := hs.ending f hfile
    unfold File.segment
    cases hkind : f.ending with
    | plain => exact Or.inr ⟨rfl, rfl⟩
    | suffixed => exact absurd hkind hending
    | segment k => exact Or.inl rfl
  refine ⟨hs.defined, ?_, hs.placed, hs.bounded, hs.past, ?_, hs.ending, ?_, ?_, ?_, hs.day,
    hrange⟩
  · intro l hl
    rcases List.mem_append.1 hl with hl | hl
    · exact hs.selected l hl
    · rw [List.mem_singleton.1 hl]
      exact ⟨f, hfile, hselected⟩
  · intro l hl
    rcases List.mem_cons.1 (hpending.mem_iff.1 hl) with rfl | hl
    · rfl
    · exact hs.onTheWay l hl
  · rw [hpending.length_eq, List.length_cons]
    have hsame : start (Log.count cfg s t m) = start s := by simp only [start, Log.count, hfile]
    rw [hsame]
    show s.written.countP (fun w => w.opening = s.openings) + _ + _ ≤ s.lineCount + 1
    omega
  · have hsame : start (Log.count cfg s t m) = start s := by simp only [start, Log.count, hfile]
    rw [hsame]
    exact hroom
  · intro l hl
    rcases List.mem_cons.1 (hpending.mem_iff.1 hl) with rfl | hl
    · exact fun hnone => absurd (hfile.symm.trans hnone) (by simp)
    · exact hs.opened l hl

/-! ### Steps and runs -/

omit [DecidableEq T] in
/-- Where no other file is due, the open one has room for a line. -/
theorem Tidy.room (hs : Tidy cfg s) {t : Tm} (hrotates : ¬ Rotates s t) {f : File}
    (hfile : s.fileStream = some f) : s.lineCount < start s + MAX_LINES := by
  have hstart : start s = f.segment * MAX_LINES := by rw [start, hfile]
  refine Nat.lt_of_le_of_ne hs.full fun hfull => hrotates (Or.inr ?_)
  rw [hfull, hstart, ← Nat.succ_mul]
  exact ⟨Nat.mul_ne_zero (Nat.succ_ne_zero _) (by decide), Nat.mul_mod_left _ _⟩

/-- **A step that meets the condition keeps the lines in their files.** -/
theorem Tidy.step (hs : Tidy cfg s) (ha : Settled s a) (h : step cfg s a = some s') :
    Tidy cfg s' := by
  obtain ⟨-, h⟩ := step_moves h
  cases h with
  | setLevel l => exact hs.move l s.queue s.mtx s.call s.str rfl
  | refuse t m => exact hs
  | write t m => exact hs.move s.level s.queue s.mtx _ s.str rfl
  | throw t m hcall hmtx hrotates =>
      obtain ⟨hqueue, hstr⟩ := (ha m hcall).1 hrotates
      have hturned := hs.rotate hrotates (pending_eq_nil hmtx hqueue hstr) false
      exact hturned.move _ _ _ _ _ rfl
  | overflow t opens m hcall hmtx hfull =>
      exfalso
      by_cases hrotates : Rotates s m.t
      · rw [turn, if_pos hrotates] at hfull
        have hmod := newDay_lineCount_mod hrotates
        rw [show (newDay s m.t).lineCount = maxInt from hfull] at hmod
        exact absurd hmod (by decide)
      · rw [turn, if_neg hrotates] at hfull
        have hlt := ((ha m hcall).2 hrotates).1
        omega
  | accept t opens m hcall hmtx hroom =>
      by_cases hrotates : Rotates s m.t
      · obtain ⟨hqueue, hstr⟩ := (ha m hcall).1 hrotates
        have hturned := hs.rotate hrotates (pending_eq_nil hmtx hqueue hstr) true
        rw [turn, if_pos hrotates]
        have hfree : (Log.rotate s m.t true).mtx = none := by rw [rotate_mtx, hmtx]
        have hrange : (Log.rotate s m.t true).lineCount < maxInt := by
          rw [turn, if_pos hrotates] at hroom
          exact Nat.lt_of_le_of_ne hturned.range hroom
        refine hturned.count t hfree rfl rfl ?_ hrange
        rw [start_rotate hrotates]
        exact Nat.lt_add_of_pos_right (by decide)
      · obtain ⟨hrange, f, hfile, hdate⟩ := (ha m hcall).2 hrotates
        rw [turn, if_neg hrotates]
        exact hs.count t hmtx hfile hdate (hs.room hrotates hfile) hrange
  | push t l hmtx hqueued hroom =>
      refine hs.move s.level _ _ _ s.str ?_
      simp [pending, held, hmtx, hqueued]
  | direct t l hmtx hqueued =>
      refine hs.give l _ _ s.str ?_
      simp [pending, held, hmtx, hqueued]
  | pop l rest hstr hqueue =>
      refine hs.move s.level _ s.mtx s.call _ ?_
      simp [pending, held, hstr, hqueue]
  | store l hstr hmtx =>
      refine hs.give l s.mtx s.call _ ?_
      simp [pending, held, hmtx, hstr]

theorem Tidy.of_run {level : LogLevel} {t : Tm} {as : List (Action T)}
    (h : Transition.run (Log.step cfg) (Log.init level t) as = some s)
    (hsettled : Transition.Meets (Log.step cfg) Settled (Log.init level t) as) : Tidy cfg s :=
  Transition.run_invariant_of_meets (fun _ _ _ hs ha hstep => Tidy.step hs ha hstep)
    (Tidy.init level t) hsettled h

/-- **Every line goes to its file**, and no file gets more than `MAX_LINES` lines between two
openings, in every state of every run in which each `Write` that turns to another file finds
nothing on its way, and each that does not finds the file of its date open and can be counted. -/
theorem lines_in_files (cfg : Config) (level : LogLevel) (t : Tm) (as : List (Action T)) (s : Log T)
    (h : Transition.run (step cfg) (init level t) as = some s)
    (hsettled : Transition.Meets (step cfg) Settled (init level t) as) : InFiles s :=
  (Tidy.of_run h hsettled).inFiles

/-- A day later. -/
def nextNoon : Tm := ⟨⟨124, 4, 2⟩, 12, 0, 0⟩

/-- A message of the next day. -/
def atNextNoon : Message := ⟨.info, nextNoon, 0, ascii "noon"⟩

/-- A message of each of two days, and the writer is done with the first before the second comes. -/
def twoDays : List (Action Unit) :=
  [.write () atNoon, .lock () true, .unlock, .pop, .store, .write () atNextNoon, .lock () true,
    .unlock, .pop, .store]

/-- The same messages, but the writer gets to the first when the second has come. -/
def twoDaysLate : List (Action Unit) :=
  [.write () atNoon, .lock () true, .unlock, .write () atNextNoon, .lock () true, .unlock, .pop,
    .store]

theorem lines_in_files_sample :
    ∃ s, Transition.run (step settings) (init .info noon) twoDays = some s ∧ InFiles s ∧
      s.written.map Written.file =
        [some ⟨noon.toDate, .plain⟩, some ⟨nextNoon.toDate, .segment 0⟩] := by
  obtain ⟨s, hs⟩ : ∃ s, Transition.run (step settings) (init .info noon) twoDays = some s :=
    ⟨_, rfl⟩
  have hsettled : Transition.Meets (step settings) Settled (init .info noon) twoDays := by
    refine .cons trivial rfl (.cons ?_ rfl (.cons trivial rfl (.cons trivial rfl (.cons trivial rfl
      (.cons trivial rfl (.cons ?_ rfl (.cons trivial rfl (.cons trivial rfl
        (.cons trivial rfl trivial)))))))))
    · rintro m hm
      obtain rfl := Call.write.inj hm
      exact ⟨fun _ => ⟨rfl, rfl⟩, fun _ => ⟨by decide, _, rfl, rfl⟩⟩
    · rintro m hm
      obtain rfl := Call.write.inj hm
      exact ⟨fun _ => ⟨rfl, rfl⟩, fun hsame => absurd (Or.inl (by decide)) hsame⟩
  refine ⟨s, hs, lines_in_files settings .info noon twoDays s hs hsettled, ?_⟩
  obtain rfl := Option.some.inj hs
  rfl

/-- **A line can end up in the file of another day.**  A message of the first of May is in the queue
when one of the second turns the stream to a new file. -/
theorem lines_misplaced :
    ¬ ∀ (cfg : Config) (level : LogLevel) (t : Tm) (as : List (Action Unit)) (s : Log Unit),
      Transition.run (step cfg) (init level t) as = some s → InFiles s := by
  intro hall
  obtain ⟨s, hs⟩ : ∃ s, Transition.run (step settings) (init .info noon) twoDaysLate = some s :=
    ⟨_, rfl⟩
  have hwritten : s.written.map Written.file = [some ⟨nextNoon.toDate, .segment 0⟩] ∧
      s.written.map (Line.file ∘ Written.line) = [some ⟨noon.toDate, .plain⟩] := by
    obtain rfl := Option.some.inj hs
    exact ⟨rfl, rfl⟩
  have hplaced := (hall settings .info noon twoDaysLate s hs).placed
  have hsame : s.written.map Written.file = s.written.map (Line.file ∘ Written.line) :=
    List.map_congr_left hplaced
  rw [hwritten.1, hwritten.2] at hsame
  exact absurd hsame (by decide)

/-! ### No step that fails the condition is harmless -/

/-- A line that is on its way while another file is open goes there. -/
theorem exists_misplaced_of_pending (hroomy : Roomy s) (hundefined : s.undefined = false) {l : Line}
    (hl : l ∈ pending cfg s) (hfile : l.file ≠ s.fileStream) :
    ∃ bs u, Transition.run (step cfg) s bs = some u ∧ ¬ InFiles u := by
  obtain ⟨u, hproceeds, hpending⟩ := exists_drained cfg hroomy hundefined
  obtain ⟨bs, hbs⟩ := hproceeds.run
  obtain ⟨ws, hws, hstream⟩ := hproceeds.written
  have hlines : ws.map Written.line = pending cfg s := by
    have horder := hproceeds.order
    rw [lanes_order, lanes_order, hpending, List.append_nil, hws, List.map_append] at horder
    exact List.append_cancel_left horder
  refine ⟨bs, u, hbs, fun hfiles => ?_⟩
  rw [← hlines] at hl
  obtain ⟨w, hw, rfl⟩ := List.mem_map.1 hl
  have hplaced := hfiles.placed w (hws ▸ List.mem_append_right _ hw)
  exact hfile (hplaced.symm.trans (hstream w hw))

omit [DecidableEq T] in
/-- While lines are on their way, a file that `Write` turns to is another one. -/
theorem Tidy.fileStream_ne_rotate (hs : Tidy cfg s) {t : Tm} (hrotates : Rotates s t)
    (hpending : pending cfg s ≠ []) (opens : Bool) :
    s.fileStream ≠ (Log.rotate s t opens).fileStream := by
  obtain ⟨l, rest, hcons⟩ := List.exists_cons_of_ne_nil hpending
  have hl : l ∈ pending cfg s := hcons ▸ List.mem_cons_self
  have hopen : s.fileStream ≠ none := hs.onTheWay l hl ▸ hs.opened l hl
  obtain ⟨f, hf⟩ := Option.ne_none_iff_exists'.1 hopen
  intro hsame
  cases opens with
  | false => exact hopen hsame
  | true =>
      have hnext : f = nextFile (newDay s t) t := Option.some.inj (hf.symm.trans hsame)
      rw [nextFile_newDay] at hnext
      by_cases hday : s.today = t.tm_mday
      · obtain ⟨-, hmod⟩ := hrotates.resolve_left (not_not.2 hday)
        have hstart : start s = s.lineCount := by
          rw [start, hf, hnext, newDay, if_neg (not_not.2 hday)]
          exact Nat.div_mul_cancel (Nat.dvd_of_mod_eq_zero hmod)
        have hcounted := hs.counted
        rw [hcons, List.length_cons] at hcounted
        omega
      · have htoday := hs.day f hf
        rw [hnext] at htoday
        exact hday htoday.symm

variable (cfg) in
omit [DecidableEq T] in
/-- How a `Write` can fail the condition. -/
theorem not_settled {t : T} {opens : Bool} {m : Message} (hcall : s.call t = .write m)
    (hmtx : s.mtx = none) (ha : ¬ Settled s (.lock t opens)) :
    Rotates s m.t ∧ pending cfg s ≠ [] ∨
      ¬ Rotates s m.t ∧
        (s.lineCount < maxInt → ∀ f, s.fileStream = some f → f.date ≠ m.t.toDate) := by
  by_cases hrotates : Rotates s m.t
  · refine Or.inl ⟨hrotates, fun hpending => ha ?_⟩
    intro m' hm'
    obtain rfl := Call.write.inj (hcall.symm.trans hm')
    rw [pending, held_eq_nil hmtx] at hpending
    simp only [List.filter_nil, List.nil_append, List.append_nil, List.append_eq_nil_iff,
      Option.toList_eq_nil_iff] at hpending
    exact ⟨fun _ => ⟨hpending.2, hpending.1⟩, fun h => absurd hrotates h⟩
  · refine Or.inr ⟨hrotates, fun hlt f hf hdate => ha ?_⟩
    intro m' hm'
    obtain rfl := Call.write.inj (hcall.symm.trans hm')
    exact ⟨fun h => absurd h hrotates, fun _ => ⟨hlt, f, hf, hdate⟩⟩

/-- **A step that fails the condition** can be followed by steps that leave a line out of its
file. -/
theorem Tidy.exists_misplaced (hs : Tidy cfg s) (hroomy : Roomy s) (ha : ¬ Settled s a)
    (h : Log.step cfg s a = some s') :
    ∃ bs u, Transition.run (Log.step cfg) s' bs = some u ∧ ¬ InFiles u := by
  have hroomy' : Roomy s' := hroomy.step h
  obtain ⟨hundefined, hmoves⟩ := step_moves h
  cases hmoves with
  | setLevel l => exact absurd trivial ha
  | refuse t m => exact absurd trivial ha
  | write t m => exact absurd trivial ha
  | throw t m hcall hmtx hrotates =>
      rcases not_settled cfg hcall hmtx ha with ⟨-, hpending⟩ | ⟨hstays, -⟩
      · obtain ⟨l, hl⟩ := List.exists_mem_of_ne_nil _ hpending
        have hfile := hs.fileStream_ne_rotate hrotates hpending false
        rw [← hs.onTheWay l hl] at hfile
        obtain ⟨n, d, f, k, hsame⟩ := rotate_eq s m.t false
        refine exists_misplaced_of_pending hroomy' ?_ (l := l) ?_ hfile
        · rw [hsame]
          exact hundefined
        · rw [hsame]
          exact hl
      · exact absurd hrotates hstays
  | overflow t opens m hcall hmtx hfull =>
      exact ⟨[], _, rfl, fun hfiles => absurd hfiles.defined (by simp)⟩
  | accept t opens m hcall hmtx hroom =>
      rcases not_settled cfg hcall hmtx ha with ⟨hrotates, hpending⟩ | ⟨hstays, hother⟩
      · obtain ⟨l, hl⟩ := List.exists_mem_of_ne_nil _ hpending
        have hfile := hs.fileStream_ne_rotate hrotates hpending true
        rw [← hs.onTheWay l hl] at hfile
        rw [turn, if_pos hrotates] at hroomy' ⊢
        obtain ⟨n, d, f, k, hsame⟩ := rotate_eq s m.t true
        have hfree : (Log.rotate s m.t true).mtx = none := by rw [rotate_mtx, hmtx]
        refine exists_misplaced_of_pending hroomy' ?_ (l := l) ?_ hfile
        · rw [hsame]
          exact hundefined
        · refine (pending_count hfree).mem_iff.2 (List.mem_cons_of_mem _ ?_)
          rw [hsame]
          exact hl
      · rw [turn, if_neg hstays] at hroom ⊢
        refine ⟨[], _, rfl, fun hfiles => ?_⟩
        obtain ⟨f, hf, hdate, -⟩ :=
          hfiles.selected (newLine s m) (List.mem_append_right _ List.mem_cons_self)
        exact hother (Nat.lt_of_le_of_ne hs.range hroom) f hf hdate
  | push t l hmtx hqueued hroom => exact absurd trivial ha
  | direct t l hmtx hqueued => exact absurd trivial ha
  | pop l rest hstr hqueue => exact absurd trivial ha
  | store l hstr hmtx => exact absurd trivial ha

/-- **The condition asks for no more than it must**: the first step of a run that fails it can be
followed by steps that leave a line out of its file, unless it is undefined itself. -/
theorem exists_misplaced (cfg : Config) (level : LogLevel) (t : Tm) (as : List (Action T))
    (a : Action T) (s s' : Log T) (h : Transition.run (step cfg) (init level t) as = some s)
    (hsettled : Transition.Meets (step cfg) Settled (init level t) as) (ha : ¬ Settled s a)
    (hstep : step cfg s a = some s') :
    ∃ bs u, Transition.run (step cfg) s' bs = some u ∧ ¬ InFiles u :=
  (Tidy.of_run h hsettled).exists_misplaced (Roomy.of_run h) ha hstep

end Log
end Logs
end BreUtils
