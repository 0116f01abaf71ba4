/-
# In which order the lines reach the stream

A log is a line with an express lane (`BreUtils.Lib.Lanes`): a message that is accepted
joins the queue, or, when its `Write` finds the queue full, is given to the stream past
all that wait (`step_lanes`).

So no line is lost on its way and none is doubled; a line comes before one that was
accepted earlier only if its own `Write` found the queue full; and a log whose queue
never fills up, or that has none, writes the lines in the order in which they were
accepted (`write_order`).  A queue does fill up: after `MaxCapacity` messages that the
writer did not get to, the next one comes first (`write_overtakes`).
-/

import BreUtils.Log.Log

namespace BreUtils
namespace Logs
namespace Log

open Lib

variable {T : Type*} [DecidableEq T] (cfg : Config)

/-- A line that was written past a full queue. -/
def Overtakes (l : Line) : Prop := cfg.isAsync = true ∧ MaxCapacity ≤ l.waiting

/-- The line of the `Write` that holds the mutex. -/
def held (s : Log T) : List Line := s.mtx.toList.map Prod.snd

/-- The lines that are yet to be given to the stream: the one that goes there directly, the one that
the writer has, those in the queue, and the one that joins them. -/
def pending (s : Log T) : List Line :=
  (held s).filter (¬ Queued cfg ·) ++ (s.str.toList ++ s.queue ++ (held s).filter (Queued cfg ·))

/-- The log as a line with an express lane. -/
def lanes (s : Log T) : Lanes Line where
  served := s.written.map Written.line ++ (held s).filter (¬ Queued cfg ·)
  waiting := s.str.toList ++ s.queue ++ (held s).filter (Queued cfg ·)
  admitted := s.accepted

omit [DecidableEq T] in
theorem lanes_order (s : Log T) :
    (lanes cfg s).order = s.written.map Written.line ++ pending cfg s :=
  List.append_assoc _ _ _

variable {cfg} {s s' : Log T} {a : Action T}

omit [DecidableEq T] in
theorem lanes_turn (s : Log T) (t : Tm) : lanes cfg (turn s t) = lanes cfg s := by
  obtain ⟨n, d, f, k, h⟩ := turn_eq s t
  rw [h]
  rfl

omit [DecidableEq T] in
theorem held_eq_nil (h : s.mtx = none) : held s = [] := by
  rw [held, h]
  rfl

theorem held_count (s : Log T) (t : T) (m : Message) :
    held (count cfg s t m) = [newLine s m] := rfl

theorem lanes_count_of_queued {t : T} {m : Message} (hmtx : s.mtx = none)
    (hqueued : Queued cfg (newLine s m)) :
    lanes cfg (count cfg s t m) = (lanes cfg s).join (newLine s m) := by
  simp only [lanes, held_count, held_eq_nil hmtx, Lanes.join, hqueued, List.filter_cons,
    List.filter_nil, not_true_eq_false, decide_false, decide_true, if_true, Bool.false_eq_true,
    if_false, List.append_nil]
  rfl

theorem lanes_count_of_direct {t : T} {m : Message} (hmtx : s.mtx = none)
    (hqueued : ¬ Queued cfg (newLine s m)) :
    lanes cfg (count cfg s t m) = (lanes cfg s).pass (newLine s m) := by
  simp only [lanes, held_count, held_eq_nil hmtx, Lanes.pass, hqueued, List.filter_cons,
    List.filter_nil, not_false_eq_true, decide_false, decide_true, if_true, Bool.false_eq_true,
    if_false, List.append_nil]
  rfl

omit [DecidableEq T] in
theorem pending_perm (s : Log T) :
    (pending cfg s).Perm (held s ++ (s.str.toList ++ s.queue)) := by
  have hsplit := List.filter_append_perm (fun l => decide (Queued cfg l)) (held s)
  simp only [pending, decide_not]
  rw [← List.append_assoc]
  refine List.perm_append_comm.trans ?_
  rw [← List.append_assoc]
  exact hsplit.append_right _

/-- A new line is one more on the way to the stream. -/
theorem pending_count {t : T} {m : Message} (hmtx : s.mtx = none) :
    (pending cfg (count cfg s t m)).Perm (newLine s m :: pending cfg s) := by
  refine (pending_perm _).trans (List.Perm.cons _ ?_)
  have hpending : (pending cfg s).Perm _ := pending_perm s
  rw [held_eq_nil hmtx] at hpending
  exact hpending.symm

/-- **The log does what the two lanes do.** -/
theorem step_lanes (h : step cfg s a = some s') :
    lanes cfg s' = lanes cfg s ∨
      (∃ l : Line, l.number = s.accepted.length ∧
        (Queued cfg l ∧ lanes cfg s' = (lanes cfg s).join l ∨
          ¬ Queued cfg l ∧ lanes cfg s' = (lanes cfg s).pass l)) ∨
      (lanes cfg s).serve = some (lanes cfg s') := by
  obtain ⟨-, h⟩ := step_moves h
  cases h with
  | setLevel l => exact Or.inl rfl
  | refuse t m => exact Or.inl rfl
  | write t m => exact Or.inl rfl
  | throw t m hcall hmtx hrotates =>
      left
      obtain ⟨n, d, f, k, h⟩ := rotate_eq s m.t false
      rw [h]
      rfl
  | overflow t opens m hcall hmtx hfull => exact Or.inl (lanes_turn s m.t)
  | accept t opens m hcall hmtx hroom =>
      right; left
      have hfree : (turn s m.t).mtx = none := by rw [turn_mtx, hmtx]
      refine ⟨newLine (turn s m.t) m, congrArg List.length (turn_accepted s m.t), ?_⟩
      rw [← lanes_turn s m.t]
      by_cases hqueued : Queued cfg (newLine (turn s m.t) m)
      · exact Or.inl ⟨hqueued, lanes_count_of_queued hfree hqueued⟩
      · exact Or.inr ⟨hqueued, lanes_count_of_direct hfree hqueued⟩
  | push t l hmtx hqueued hroom =>
      left
      simp [lanes, held, hmtx, hqueued]
  | direct t l hmtx hqueued =>
      left
      simp [lanes, held, hmtx, hqueued]
  | pop l rest hstr hqueue =>
      left
      simp [lanes, held, hstr, hqueue]
  | store l hstr hmtx =>
      right; right
      simp [lanes, held, hstr, hmtx, Lanes.serve]

/-- The two lanes are in order, and without a writer nobody waits. -/
structure InOrder (cfg : Config) (s : Log T) : Prop where
  kept : (lanes cfg s).Kept Line.number (Overtakes cfg)
  direct : cfg.isAsync = false → (lanes cfg s).waiting = []

omit [DecidableEq T] in
theorem InOrder.init (level : LogLevel) (t : Tm) : InOrder cfg (init level t : Log T) :=
  ⟨Lanes.Kept.empty, fun _ => rfl⟩

theorem InOrder.step (hs : InOrder cfg s) (h : step cfg s a = some s') : InOrder cfg s' := by
  rcases step_lanes h with hsame | ⟨l, hnumber, ⟨hqueued, hjoin⟩ | ⟨hqueued, hpass⟩⟩ | hserve
  · exact ⟨hsame ▸ hs.kept, hsame ▸ hs.direct⟩
  · have hplain : ¬ Overtakes cfg l := fun hl => Nat.not_lt.2 hl.2 hqueued.2
    refine ⟨hjoin ▸ hs.kept.join hnumber hplain, fun hsync => ?_⟩
    rw [hqueued.1] at hsync
    exact absurd hsync (by simp)
  · have hexpress : (lanes cfg s).waiting ≠ [] → Overtakes cfg l := by
      intro hwaiting
      have hasync : cfg.isAsync = true := by
        by_contra hsync
        exact hwaiting (hs.direct (by simpa using hsync))
      exact ⟨hasync, Nat.not_lt.1 fun hroom => hqueued ⟨hasync, hroom⟩⟩
    exact ⟨hpass ▸ hs.kept.pass hnumber hexpress, hpass ▸ hs.direct⟩
  · refine ⟨hs.kept.serve hserve, fun hsync => ?_⟩
    obtain ⟨l, rest, hwaiting, -⟩ := Lanes.serve_eq_some hserve
    rw [hs.direct hsync] at hwaiting
    exact absurd hwaiting (by simp)

theorem InOrder.of_run {level : LogLevel} {t : Tm} {as : List (Action T)}
    (h : Transition.run (Log.step cfg) (Log.init level t) as = some s) : InOrder cfg s :=
  Transition.run_invariant (fun _ _ _ hs hstep => InOrder.step hs hstep) (InOrder.init level t) h

/-! ### Into a file, or nowhere -/

/-- A file that a step turns to opens. -/
def Action.Opens : Action T → Prop
  | .lock _ opens => opens = true
  | _ => True

/-- A file is open, and every line so far went into one. -/
structure Stored (s : Log T) : Prop where
  isOpen : s.fileStream.isSome
  stored : ∀ w ∈ s.written, w.file.isSome

omit [DecidableEq T] in
theorem Stored.concat (hs : Stored s) (l : Line) :
    ∀ w ∈ s.written ++ [⟨l, s.openings, s.fileStream⟩], w.file.isSome := by
  intro w hw
  rcases List.mem_append.1 hw with hw | hw
  · exact hs.stored w hw
  · rw [List.mem_singleton.1 hw]
    exact hs.isOpen

omit [DecidableEq T] in
theorem Stored.turn (hs : Stored s) (t : Tm) : Stored (turn s t) := by
  constructor
  · unfold Log.turn
    split_ifs
    · rfl
    · exact hs.isOpen
  · obtain ⟨n, d, f, k, h⟩ := turn_eq s t
    rw [h]
    exact hs.stored

/-- **Where every file opens, every line goes into one.** -/
theorem Stored.step (hs : Stored s) (ha : a.Opens) (h : step cfg s a = some s') : Stored s' := by
  obtain ⟨-, h⟩ := step_moves h
  cases h with
  | setLevel l => exact ⟨hs.isOpen, hs.stored⟩
  | refuse t m => exact hs
  | write t m => exact ⟨hs.isOpen, hs.stored⟩
  | throw t m hcall hmtx hrotates => exact absurd ha (by simp [Action.Opens])
  | overflow t opens m hcall hmtx hfull =>
      obtain ⟨hisOpen, hstored⟩ := hs.turn m.t
      exact ⟨hisOpen, hstored⟩
  | accept t opens m hcall hmtx hroom =>
      obtain ⟨hisOpen, hstored⟩ := hs.turn m.t
      exact ⟨hisOpen, hstored⟩
  | push t l hmtx hqueued hroom => exact ⟨hs.isOpen, hs.stored⟩
  | direct t l hmtx hqueued => exact ⟨hs.isOpen, hs.concat l⟩
  | pop l rest hstr hqueue => exact ⟨hs.isOpen, hs.stored⟩
  | store l hstr hmtx => exact ⟨hs.isOpen, hs.concat l⟩

/-! ### Every line gets its turn -/

/-- The `Write` that holds the mutex found as many lines in the queue as are there, or more. -/
def Roomy (s : Log T) : Prop := ∀ t l, s.mtx = some (t, l) → s.queue.length ≤ l.waiting

theorem Roomy.step (hs : Roomy s) (h : step cfg s a = some s') : Roomy s' := by
  obtain ⟨-, h⟩ := step_moves h
  cases h with
  | setLevel l => exact hs
  | refuse t m => exact hs
  | write t m => exact hs
  | throw t m hcall hmtx hrotates =>
      obtain ⟨n, d, f, k, h⟩ := rotate_eq s m.t false
      rw [h]
      exact hs
  | overflow t opens m hcall hmtx hfull =>
      obtain ⟨n, d, f, k, h⟩ := turn_eq s m.t
      rw [h]
      exact hs
  | accept t opens m hcall hmtx hroom =>
      intro t' l hl
      obtain ⟨-, rfl⟩ := Prod.mk.inj (Option.some.inj hl)
      exact Nat.le_refl _
  | push t l hmtx hqueued hroom => exact fun t' l' hl => absurd hl (by simp)
  | direct t l hmtx hqueued => exact fun t' l' hl => absurd hl (by simp)
  | pop l rest hstr hqueue =>
      intro t' l' hl
      have hle := hs t' l' hl
      rw [hqueue, List.length_cons] at hle
      exact Nat.le_of_succ_le hle
  | store l hstr hmtx => exact hs

theorem Roomy.of_run {level : LogLevel} {t : Tm} {as : List (Action T)}
    (h : Transition.run (Log.step cfg) (init level t) as = some s) : Roomy s :=
  Transition.run_invariant (fun _ _ _ hs hstep => Roomy.step hs hstep)
    (fun _ _ hl => absurd hl (by simp [init])) h

/-- The lines go on to the stream: no message is accepted meanwhile, no other file is opened, and
each line keeps its place. -/
structure Proceeds (cfg : Config) (s s' : Log T) : Prop where
  run : ∃ bs, Transition.run (step cfg) s bs = some s'
  accepted : s'.accepted = s.accepted
  order : (lanes cfg s').order = (lanes cfg s).order
  stream : s'.fileStream = s.fileStream
  written : ∃ ws, s'.written = s.written ++ ws ∧ ∀ w ∈ ws, w.file = s.fileStream

theorem Proceeds.refl (s : Log T) : Proceeds cfg s s :=
  ⟨⟨[], rfl⟩, rfl, rfl, rfl, [], (List.append_nil _).symm, by simp⟩

theorem Proceeds.trans {u : Log T} (h : Proceeds cfg s s') (h' : Proceeds cfg s' u) :
    Proceeds cfg s u := by
  obtain ⟨as, has⟩ := h.run
  obtain ⟨bs, hbs⟩ := h'.run
  obtain ⟨ws, hws, hfile⟩ := h.written
  obtain ⟨ws', hws', hfile'⟩ := h'.written
  refine ⟨⟨as ++ bs, ?_⟩, h'.accepted.trans h.accepted, h'.order.trans h.order,
    h'.stream.trans h.stream, ws ++ ws', ?_, fun w hw => ?_⟩
  · rw [Transition.run_append, has, Option.bind_some, hbs]
  · rw [hws', hws, List.append_assoc]
  · rcases List.mem_append.1 hw with hw | hw
    · exact hfile w hw
    · exact (hfile' w hw).trans h.stream

theorem Proceeds.of_step (h : step cfg s a = some s') (haccepted : s'.accepted = s.accepted)
    (hstream : s'.fileStream = s.fileStream)
    (hwritten : ∃ ws, s'.written = s.written ++ ws ∧ ∀ w ∈ ws, w.file = s.fileStream) :
    Proceeds cfg s s' := by
  refine ⟨⟨[a], by rw [Transition.run_cons, h]; rfl⟩, haccepted, ?_, hstream, hwritten⟩
  have hlength : (lanes cfg s').admitted.length = (lanes cfg s).admitted.length :=
    congrArg List.length haccepted
  rcases step_lanes h with hsame | ⟨l, -, ⟨-, hjoin⟩ | ⟨-, hpass⟩⟩ | hserve
  · rw [hsame]
  · rw [hjoin] at hlength
    exact absurd hlength (by simp [Lanes.join])
  · rw [hpass] at hlength
    exact absurd hlength (by simp [Lanes.pass])
  · exact Lanes.order_serve hserve

/-- Nobody holds the mutex, and nothing undefined has happened. -/
structure Free (s : Log T) : Prop where
  mtx : s.mtx = none
  undefined : s.undefined = false

variable (cfg) in
/-- A `Push` never waits: only who holds the mutex pushes, and it has seen room. -/
theorem exists_unlock (hs : Roomy s) (hundefined : s.undefined = false) :
    ∃ s', Free s' ∧ Proceeds cfg s s' := by
  rcases hmtx : s.mtx with _ | ⟨t, l⟩
  · exact ⟨s, ⟨hmtx, hundefined⟩, .refl s⟩
  by_cases hqueued : Queued cfg l
  · have hroom := Nat.lt_of_le_of_lt (hs t l hmtx) hqueued.2
    refine ⟨_, ?_, .of_step (step_push hundefined hmtx hqueued hroom) rfl rfl
      ⟨[], (List.append_nil _).symm, by simp⟩⟩
    exact ⟨rfl, hundefined⟩
  · refine ⟨_, ?_, .of_step (step_direct hundefined hmtx hqueued) rfl rfl ⟨_, rfl, by simp⟩⟩
    exact ⟨rfl, hundefined⟩

variable (cfg) in
/-- The writer gives its line to the stream, if it has one. -/
theorem Free.exists_store (hs : Free s) :
    ∃ s', Free s' ∧ Proceeds cfg s s' ∧ s'.str = none ∧ s'.queue = s.queue := by
  rcases hstr : s.str with _ | l
  · exact ⟨s, hs, .refl s, hstr, rfl⟩
  · refine ⟨_, ?_, .of_step (step_store hs.undefined hstr hs.mtx) rfl rfl ⟨_, rfl, by simp⟩,
      rfl, rfl⟩
    exact ⟨hs.mtx, hs.undefined⟩

variable (cfg) in
/-- The writer empties the queue. -/
theorem Free.exists_empty (hs : Free s) (hstr : s.str = none) :
    ∃ s', Free s' ∧ Proceeds cfg s s' ∧ s'.str = none ∧ s'.queue = [] := by
  induction hqueue : s.queue generalizing s with
  | nil => exact ⟨s, hs, .refl s, hstr, hqueue⟩
  | cons l rest ih =>
      obtain ⟨u, hu, hsu, hustr, huqueue⟩ :=
        Free.exists_store cfg (s := { s with str := some l, queue := rest })
          ⟨hs.mtx, hs.undefined⟩
      obtain ⟨v, hv, huv, hvstr, hvqueue⟩ := ih hu hustr huqueue
      have hpop : Proceeds cfg s { s with str := some l, queue := rest } :=
        .of_step (step_pop hs.undefined hstr hqueue) rfl rfl ⟨[], (List.append_nil _).symm, by simp⟩
      exact ⟨v, hv, (hpop.trans hsu).trans huv, hvstr, hvqueue⟩

variable (cfg) in
/-- **Every line can get its turn**: no thread waits for ever, whatever state the log is in. -/
theorem exists_drained (hs : Roomy s) (hundefined : s.undefined = false) :
    ∃ s', Proceeds cfg s s' ∧ pending cfg s' = [] := by
  obtain ⟨u, hu, hsu⟩ := exists_unlock cfg hs hundefined
  obtain ⟨v, hv, huv, hvstr, -⟩ := Free.exists_store cfg hu
  obtain ⟨w, hw, hvw, hwstr, hwqueue⟩ := Free.exists_empty cfg hv hvstr
  refine ⟨w, (hsu.trans huv).trans hvw, ?_⟩
  rw [pending, held_eq_nil hw.mtx, hwstr, hwqueue]
  rfl

/-! ### The order of the lines -/

/-- **In which order the lines reach the stream.**  After any run, each accepted message has one
place in the order in which the lines were, and are to be, written, and stands before one that was
accepted earlier only if its own `Write` found the queue full, and that of the other did not.  Where
no `Write` finds the queue full, or there is no queue, the order is that of the mutex.  A line is
dropped only after a file did not open, and what is pending can always be written. -/
theorem write_order (cfg : Config) (level : LogLevel) (t : Tm) (as : List (Action T)) (s : Log T)
    (h : Transition.run (step cfg) (init level t) as = some s) :
    s.accepted.map Line.number = List.range s.accepted.length ∧
      (s.written.map Written.line ++ pending cfg s).Perm s.accepted ∧
      (s.written.map Written.line ++ pending cfg s).Pairwise (fun x y =>
        x.number < y.number ∨ Overtakes cfg x ∧ ¬ Overtakes cfg y) ∧
      ((∀ l ∈ s.accepted, ¬ Overtakes cfg l) →
        s.written.map Written.line ++ pending cfg s = s.accepted) ∧
      ((∀ a ∈ as, a.Opens) → ∀ w ∈ s.written, w.file.isSome) ∧
      (s.undefined = false → ∃ bs s', Transition.run (step cfg) s bs = some s' ∧
        s'.accepted = s.accepted ∧
        s'.written.map Written.line = s.written.map Written.line ++ pending cfg s) := by
  have horder : InOrder cfg s := InOrder.of_run h
  have hlanes := lanes_order cfg s
  refine ⟨horder.kept.numbered, hlanes ▸ horder.kept.accounted, hlanes ▸ horder.kept.ordered,
    fun hplain => hlanes ▸ horder.kept.order_eq hplain, fun hopens => ?_, fun hundefined => ?_⟩
  · have hstored : Stored s :=
      Transition.run_invariant_of_meets (fun _ _ _ hs ha hstep => Stored.step hs ha hstep)
        ⟨rfl, by simp [init]⟩ (Transition.meets_of_forall_mem hopens _) h
    exact hstored.stored
  · obtain ⟨s', hproceeds, hpending⟩ := exists_drained cfg (Roomy.of_run h) hundefined
    obtain ⟨bs, hbs⟩ := hproceeds.run
    refine ⟨bs, s', hbs, hproceeds.accepted, ?_⟩
    have hsame := hproceeds.order
    rw [lanes_order, lanes_order, hpending, List.append_nil] at hsame
    exact hsame

/-! ### A full queue -/

/-- The first of May 2024, at noon. -/
def noon : Tm := ⟨⟨124, 4, 1⟩, 12, 0, 0⟩

/-- A message at noon. -/
def atNoon : Message := ⟨.info, noon, 0, ascii "noon"⟩

/-- The settings of `Instance`. -/
def settings : Config := ⟨ascii "./log", ascii ".log", true, false, true⟩

/-- Two threads, and a writer that gets the first message to the stream before the second. -/
def twoMessages : List (Action Bool) :=
  [.write false atNoon, .write true atNoon, .lock true true, .unlock, .pop, .lock false true,
    .unlock, .store]

theorem write_order_sample :
    ∃ s, Transition.run (step settings) (init .info noon) twoMessages = some s ∧
      s.written.map Written.line ++ pending settings s = s.accepted ∧
      s.accepted.map Line.number = [0, 1] ∧ s.written.map (Line.number ∘ Written.line) = [0] := by
  obtain ⟨s, hs⟩ : ∃ s, Transition.run (step settings) (init .info noon) twoMessages = some s :=
    ⟨_, rfl⟩
  have hsample : s.accepted.map Line.number = [0, 1] ∧ s.accepted.map Line.waiting = [0, 0] ∧
      s.written.map (Line.number ∘ Written.line) = [0] := by
    obtain rfl := Option.some.inj hs
    exact ⟨rfl, rfl, rfl⟩
  obtain ⟨hnumbers, hwaiting, hwritten⟩ := hsample
  refine ⟨s, hs, (write_order settings .info noon twoMessages s hs).2.2.2.1 ?_, hnumbers, hwritten⟩
  rintro l hl ⟨-, hfull⟩
  have hzero : l.waiting ∈ s.accepted.map Line.waiting := List.mem_map_of_mem hl
  rw [hwaiting] at hzero
  have hlt : l.waiting < MaxCapacity := by
    simp only [List.mem_cons, List.not_mem_nil, or_false, or_self] at hzero
    rw [hzero]
    decide
  omega

/-- So many messages wait in the queue, and the writer has not moved. -/
structure Filled (n : ℕ) (s : Log Unit) : Prop where
  mtx : s.mtx = none
  call : s.call () = .idle
  undefined : s.undefined = false
  level : s.level = .info
  today : s.today = noon.tm_mday
  lineCount : s.lineCount = n
  queue : s.queue.length = n
  accepted : s.accepted.length = n
  written : s.written = []

/-- One more message waits for the mutex. -/
def asks (s : Log Unit) : Log Unit :=
  { s with call := Function.update s.call () (.write atNoon) }

/-- It gets the mutex, and no new file is due. -/
theorem Filled.write {n : ℕ} {s : Log Unit} (h : Filled n s) (hn : n ≤ MaxCapacity) :
    Transition.run (step settings) s [.write () atNoon, .lock () true, .unlock] =
      step settings (count settings (asks s) () atNoon) .unlock := by
  have hwrite : step settings s (.write () atNoon) = some (asks s) :=
    step_write h.undefined h.call h.mtx rfl (h.level ▸ Nat.le_refl _)
  have hcall : (asks s).call () = .write atNoon := rfl
  have hrotates : ¬ Rotates (asks s) noon := by
    rintro (hday | ⟨hne, hmod⟩)
    · exact hday h.today
    · replace hne : n ≠ 0 := h.lineCount ▸ hne
      replace hmod : n % 5000 = 0 := h.lineCount ▸ hmod
      unfold MaxCapacity at hn
      omega
  have hroom : (asks s).lineCount ≠ maxInt := by
    rw [show (asks s).lineCount = n from h.lineCount, maxInt]
    unfold MaxCapacity at hn
    omega
  have hlock : step settings (asks s) (.lock () true) = some (count settings (asks s) () atNoon) :=
    step_lock h.undefined hcall h.mtx hrotates hroom
  rw [Transition.run_cons, hwrite, Option.bind_some, Transition.run_cons, hlock, Option.bind_some,
    Transition.run_cons]
  exact Option.bind_fun_some _

/-- It joins the queue while there is room. -/
theorem Filled.push {n : ℕ} {s : Log Unit} (h : Filled n s) (hn : n < MaxCapacity) :
    ∃ as s', Transition.run (step settings) s as = some s' ∧ Filled (n + 1) s' := by
  have hroom : s.queue.length < MaxCapacity := h.queue ▸ hn
  have hqueued : Queued settings (newLine (asks s) atNoon) := ⟨rfl, hroom⟩
  have hpush := step_push (s := count settings (asks s) () atNoon) h.undefined rfl hqueued hroom
  refine ⟨_, _, (h.write (Nat.le_of_lt hn)).trans hpush, ?_⟩
  exact {
    mtx := rfl
    call := rfl
    undefined := h.undefined
    level := h.level
    today := h.today
    lineCount := congrArg (· + 1) h.lineCount
    queue := by simp [count, asks, h.queue]
    accepted := by simp [count, asks, h.accepted]
    written := h.written }

/-- It goes past the queue when that is full. -/
theorem Filled.pass {s : Log Unit} (h : Filled MaxCapacity s) :
    ∃ as s', Transition.run (step settings) s as = some s' ∧
      s'.written.map (Line.number ∘ Written.line) = [MaxCapacity] := by
  have hqueued : ¬ Queued settings (newLine (asks s) atNoon) :=
    fun hl => absurd hl.2 (Nat.not_lt.2 (Nat.le_of_eq h.queue.symm))
  have hdirect := step_direct (s := count settings (asks s) () atNoon) h.undefined rfl hqueued
  refine ⟨_, _, (h.write (Nat.le_refl _)).trans hdirect, ?_⟩
  simp [count, asks, newLine, h.written, h.accepted]

/-- The queue can fill up. -/
theorem exists_filled (n : ℕ) (hn : n ≤ MaxCapacity) :
    ∃ as s, Transition.run (step settings) (init .info noon) as = some s ∧ Filled n s := by
  induction n with
  | zero => exact ⟨[], _, rfl, ⟨rfl, rfl, rfl, rfl, rfl, rfl, rfl, rfl, rfl⟩⟩
  | succ n ih =>
      obtain ⟨as, s, hs, hfilled⟩ := ih (Nat.le_of_succ_le hn)
      obtain ⟨bs, s', hs', hfilled'⟩ := hfilled.push hn
      refine ⟨as ++ bs, s', ?_, hfilled'⟩
      rw [Transition.run_append, hs, Option.bind_some, hs']

/-- **A message can overtake.**  With `MaxCapacity` messages in the queue, the next one is the first
to reach the stream: what was written is not always the beginning of what was accepted. -/
theorem write_overtakes :
    ¬ ∀ (cfg : Config) (level : LogLevel) (t : Tm) (as : List (Action Unit)) (s : Log Unit),
      Transition.run (step cfg) (init level t) as = some s →
        s.written.map Written.line <+: s.accepted := by
  intro hall
  obtain ⟨as, s, hs, hfilled⟩ := exists_filled MaxCapacity (Nat.le_refl _)
  obtain ⟨bs, s', hs', hwritten⟩ := hfilled.pass
  have hrun : Transition.run (step settings) (init .info noon) (as ++ bs) = some s' := by
    rw [Transition.run_append, hs, Option.bind_some, hs']
  have horder : InOrder settings s' := InOrder.of_run hrun
  have hbegins := (hall settings .info noon _ s' hrun).map Line.number
  rw [List.map_map, hwritten, show s'.accepted.map Line.number = _ from horder.kept.numbered]
    at hbegins
  obtain ⟨rest, hrest⟩ := hbegins
  have hhead : (List.range s'.accepted.length).head? = some MaxCapacity := by
    rw [← show _ = List.range s'.accepted.length from hrest]
    rfl
  rw [List.head?_range] at hhead
  split_ifs at hhead
  exact absurd (Option.some.inj hhead) (by decide)

end Log
end Logs
end BreUtils
