/-
# The log of `Log.hpp`

A log after `Init`: any number of threads call `Write`, any of them may call
`SetLevel`, and in asynchronous mode one more thread runs `asyncWrite`, which takes
lines from the queue and gives them to the file.

The mutex `mtx` guards the day, the line counter and the stream.  A `Write` first reads
the level and the clock, before it takes the mutex, so threads may take it in another
order than their times.  With the mutex it turns to another file when the day of the
month changed or the file is full, counts the line and looks whether the queue is full
(`lock`); then it pushes the line, or writes it to the stream itself, and gives the
mutex back (`unlock`).  The writer takes lines from the queue without the mutex
(`pop`), in between too, and takes the mutex to give its line to the stream (`store`).

The clock, the texts, and whether a file opens are left to chance, so they are part of
the action.  Where the line counter overflows the behaviour of the code is undefined,
and the run ends there.
-/

import BreUtils.Cpp.Text
import BreUtils.Lib.Lanes
import BreUtils.Lib.Transition
import Mathlib.Logic.Function.Basic

namespace BreUtils
namespace Logs

open Cpp Lib

/-- `enum class LogLevel`. -/
inductive LogLevel where
  | debug
  | info
  | warn
  | error
  | none
  deriving DecidableEq, Repr

/-- The value of an enumerator, which `<` compares. -/
def LogLevel.value : LogLevel → ℕ
  | .debug => 0
  | .info => 1
  | .warn => 2
  | .error => 3
  | .none => 4

/-- The year, the month and the day of a `std::tm`. -/
structure Date where
  tm_year : ℤ
  tm_mon : ℤ
  tm_mday : ℤ
  deriving DecidableEq, Repr

/-- `std::tm`, as far as the log reads it. -/
structure Tm extends Date where
  tm_hour : ℤ
  tm_min : ℤ
  tm_sec : ℤ
  deriving DecidableEq, Repr

/-- What a `Write` has put together before it takes the mutex: the level, the clock as local time
and in microseconds, and the text that `std::vformat` made. -/
structure Message where
  level : LogLevel
  t : Tm
  now : ℤ
  formattedMessage : Bytes
  deriving DecidableEq, Repr

/-- The settings that `Init` makes and `Write` reads. -/
structure Config where
  path : Bytes
  suffix : Bytes
  isOpen : Bool
  hasConsole : Bool
  isAsync : Bool
  deriving DecidableEq, Repr

/-! ### The texts -/

/-- `std::to_string(int)`. -/
def toText (i : ℤ) : Bytes :=
  (if i < 0 then [ch '-'] else []) ++ ascii (Nat.repr i.natAbs)

/-- The format `{:0<width>d}`: zeros between the sign and the digits. -/
def toTextPadded (width : ℕ) (i : ℤ) : Bytes :=
  let sign := if i < 0 then [ch '-'] else []
  let digits := ascii (Nat.repr i.natAbs)
  sign ++ List.replicate (width - sign.length - digits.length) (ch '0') ++ digits

/-- `timeStr`. -/
def timeStr (t : Tm) (now : ℤ) : Bytes :=
  toTextPadded 4 (t.tm_year + 1900) ++ ascii "-" ++ toTextPadded 2 (t.tm_mon + 1) ++ ascii "-" ++
    toTextPadded 2 t.tm_mday ++ ascii " " ++ toTextPadded 2 t.tm_hour ++ ascii ":" ++
    toTextPadded 2 t.tm_min ++ ascii ":" ++ toTextPadded 2 t.tm_sec ++ ascii "." ++
    toTextPadded 6 (now.tmod 1000000) ++ ascii " "

/-- `appendLogLevelTitle`: what it appends to the empty `buff`. -/
def logLevelTitle : LogLevel → Bytes
  | .debug => ascii "[debug]: "
  | .info => ascii "[info] : "
  | .warn => ascii "[warn] : "
  | .error => ascii "[error]: "
  | .none => ascii "[info] : "

/-- `fullMessage`. -/
def fullMessage (m : Message) : Bytes :=
  timeStr m.t m.now ++ logLevelTitle m.level ++ m.formattedMessage ++ ascii "\n"

/-- `fs::path(path) / name`, for a relative `name`. -/
def inPath (path name : Bytes) : Bytes :=
  if path = [] ∨ path.getLast? = some (ch '/') then path ++ name else path ++ ch '/' :: name

/-! ### The files -/

/-- What the name of a file ends in. -/
inductive Ending where
  /-- Nothing more: the file that `Init` opens. -/
  | plain
  /-- Another suffix. -/
  | suffixed
  | segment (k : ℕ)
  deriving DecidableEq, Repr

/-- A log file. -/
structure File where
  date : Date
  ending : Ending
  deriving DecidableEq, Repr

/-- The number of the segment in a name; the file that `Init` opens has none and is the first. -/
def File.segment (f : File) : ℕ :=
  match f.ending with
  | .segment k => k
  | _ => 0

/-- `fileName`. -/
def File.fileName (cfg : Config) (f : File) : Bytes :=
  inPath cfg.path (toText (f.date.tm_year + 1900) ++ ascii "_" ++ toText (f.date.tm_mon + 1) ++
    ascii "_" ++ toText f.date.tm_mday ++ cfg.suffix) ++
    match f.ending with
    | .plain => []
    | .suffixed => cfg.suffix
    | .segment k => ascii "-" ++ toText k ++ cfg.suffix

/-! ### The state -/

/-- A line that a `Write` accepted, with its number in the order of the mutex.  The log itself keeps
only its text; the rest is what its `Write` found. -/
structure Line where
  number : ℕ
  text : Bytes
  date : Date
  /-- `lineCount`, before this line is counted. -/
  lineCount : ℕ
  /-- How many lines were in the queue. -/
  waiting : ℕ
  /-- The file of the stream. -/
  file : Option File
  deriving DecidableEq, Repr

/-- A line that was given to the stream: how often a file had been opened by then, and into which
file the line went, if one was open. -/
structure Written where
  line : Line
  opening : ℕ
  file : Option File
  deriving DecidableEq, Repr

/-- Where a thread is. -/
inductive Call where
  | idle
  /-- `Write`, before it takes the mutex. -/
  | write (m : Message)
  /-- `Write`, with the mutex. -/
  | locked
  deriving DecidableEq

/-- `Log`, and where its threads are. -/
structure Log (T : Type*) where
  level : LogLevel
  lineCount : ℕ
  today : ℤ
  /-- The file that `fileStream` has open. -/
  fileStream : Option File
  queue : List Line
  /-- Who holds the mutex inside of `Write`, and its line. -/
  mtx : Option (T × Line)
  call : T → Call
  /-- `str` of `asyncWrite`, while it holds a line. -/
  str : Option Line
  /-- What went to `std::cout`. -/
  console : List Bytes
  /-- The lines of all `Write` calls, in the order in which they held the mutex. -/
  accepted : List Line
  /-- What the stream was given, in order. -/
  written : List Written
  /-- How often a `Write` has turned to another file. -/
  openings : ℕ
  /-- The line counter has overflowed. -/
  undefined : Bool

namespace Log

variable {T : Type*}

/-- `static const int MAX_LINES`. -/
def MAX_LINES : ℕ := 5000

/-- The capacity that the constructor of `BlockQueue` takes when it is given none.  `Init` reads
only the sign of its `maxQueueCapacity`. -/
def MaxCapacity : ℕ := 1024

/-- The greatest `int`. -/
def maxInt : ℕ := 2 ^ 31 - 1

/-- The log when `Init` returns, called with this level on this day. -/
def init (level : LogLevel) (t : Tm) : Log T where
  level := level
  lineCount := 0
  today := t.tm_mday
  fileStream := some ⟨t.toDate, .plain⟩
  queue := []
  mtx := none
  call := fun _ => .idle
  str := none
  console := []
  accepted := []
  written := []
  openings := 0
  undefined := false

/-- The condition under which `Write` turns to another file. -/
def Rotates (s : Log T) (t : Tm) : Prop :=
  s.today ≠ t.tm_mday ∨ s.lineCount ≠ 0 ∧ s.lineCount % MAX_LINES = 0

instance (s : Log T) (t : Tm) : Decidable (Rotates s t) :=
  inferInstanceAs (Decidable (_ ∨ _ ∧ _))

/-- `Write` on another day of the month: a new count. -/
def newDay (s : Log T) (t : Tm) : Log T :=
  if s.today ≠ t.tm_mday then { s with lineCount := 0, today := t.tm_mday } else s

/-- The name that `Write` turns to, after `newDay`. -/
def nextFile (s : Log T) (t : Tm) : File :=
  ⟨t.toDate, if s.today ≠ t.tm_mday then .suffixed else .segment (s.lineCount / MAX_LINES)⟩

/-- `Write` closes its file and opens the next. -/
def rotate (s : Log T) (t : Tm) (opens : Bool) : Log T :=
  let s := newDay s t
  { s with
    fileStream := if opens then some (nextFile s t) else none
    openings := s.openings + 1 }

/-- The line that `Write` makes of a message. -/
def newLine (s : Log T) (m : Message) : Line where
  number := s.accepted.length
  text := fullMessage m
  date := m.t.toDate
  lineCount := s.lineCount
  waiting := s.queue.length
  file := s.fileStream

/-- `Write` from `lineCount++` on, up to the choice of the route. -/
def count (cfg : Config) (s : Log T) [DecidableEq T] (t : T) (m : Message) : Log T :=
  { s with
    lineCount := s.lineCount + 1
    console := if cfg.hasConsole then s.console ++ [fullMessage m] else s.console
    accepted := s.accepted ++ [newLine s m]
    mtx := some (t, newLine s m)
    call := Function.update s.call t .locked }

/-- The same, where the count may overflow. -/
def accept (cfg : Config) (s : Log T) [DecidableEq T] (t : T) (m : Message) : Log T :=
  if s.lineCount = maxInt then { s with undefined := true } else count cfg s t m

/-- Whether a line goes through the queue: its `Write` found room there. -/
def Queued (cfg : Config) (l : Line) : Prop := cfg.isAsync = true ∧ l.waiting < MaxCapacity

instance (cfg : Config) (l : Line) : Decidable (Queued cfg l) :=
  inferInstanceAs (Decidable (_ ∧ _))

/-- A step: who moves, and what is left to chance. -/
inductive Action (T : Type*) where
  | setLevel (l : LogLevel)
  /-- `Write` looks at the level, reads the clock and makes the text of its message. -/
  | write (t : T) (m : Message)
  /-- `Write` takes the mutex.  `opens`: a file that it turns to opens. -/
  | lock (t : T) (opens : Bool)
  /-- `Write` hands its line over and gives the mutex back. -/
  | unlock
  /-- `asyncWrite` takes the front of the queue. -/
  | pop
  /-- `asyncWrite` takes the mutex and gives its line to the stream. -/
  | store

variable [DecidableEq T] (cfg : Config)

/-- `Write` with the mutex, as far as it chooses the route.  Where the file does not open it throws,
and gives the mutex back. -/
def lock (s : Log T) (t : T) (opens : Bool) : Option (Log T) :=
  match s.call t, s.mtx with
  | .write m, none =>
      if Rotates s m.t then
        if opens then some (accept cfg (rotate s m.t opens) t m)
        else some { rotate s m.t opens with call := Function.update s.call t .idle }
      else some (accept cfg s t m)
  | _, _ => none

/-- `Write` hands its line over: `Push`, which waits while the queue is full, or `<<`, which a
stream without a file ignores. -/
def unlock (s : Log T) : Option (Log T) :=
  match s.mtx with
  | none => none
  | some (t, l) =>
      if Queued cfg l then
        if s.queue.length ≥ MaxCapacity then none
        else
          some { s with
            queue := s.queue ++ [l]
            mtx := none
            call := Function.update s.call t .idle }
      else
        some { s with
          written := s.written ++ [⟨l, s.openings, s.fileStream⟩]
          mtx := none
          call := Function.update s.call t .idle }

/-- `queue->Pop(str)`, which waits while the queue is empty. -/
def pop (s : Log T) : Option (Log T) :=
  match s.str, s.queue with
  | none, l :: rest => some { s with str := some l, queue := rest }
  | _, _ => none

/-- `asyncWrite` with the mutex: the line is dropped where no file is open. -/
def store (s : Log T) : Option (Log T) :=
  match s.str, s.mtx with
  | some l, none =>
      some { s with str := none, written := s.written ++ [⟨l, s.openings, s.fileStream⟩] }
  | _, _ => none

/-- **One step.** -/
def step (s : Log T) (a : Action T) : Option (Log T) :=
  if s.undefined then none
  else
    match a with
    | .setLevel l =>
        match s.mtx with
        | none => some { s with level := l }
        | some _ => none
    | .write t m =>
        match s.call t, s.mtx with
        | .idle, none =>
            if cfg.isOpen = false ∨ m.level.value < s.level.value then some s
            else some { s with call := Function.update s.call t (.write m) }
        | _, _ => none
    | .lock t opens => lock cfg s t opens
    | .unlock => unlock cfg s
    | .pop => pop s
    | .store => store s

/-! ### What each step does -/

/-- `Write` with its file: the next one where it turns to another, and that one opens. -/
def turn (s : Log T) (t : Tm) : Log T := if Rotates s t then rotate s t true else s

/-- The steps, one by one. -/
inductive Moves (s : Log T) : Action T → Log T → Prop
  | setLevel (l : LogLevel) : Moves s (.setLevel l) { s with level := l }
  | refuse (t : T) (m : Message) : Moves s (.write t m) s
  | write (t : T) (m : Message) :
      Moves s (.write t m) { s with call := Function.update s.call t (.write m) }
  | throw (t : T) (m : Message) (hcall : s.call t = .write m) (hmtx : s.mtx = none)
      (hrotates : Rotates s m.t) :
      Moves s (.lock t false)
        { rotate s m.t false with call := Function.update s.call t .idle }
  | overflow (t : T) (opens : Bool) (m : Message) (hcall : s.call t = .write m)
      (hmtx : s.mtx = none) (hfull : (turn s m.t).lineCount = maxInt) :
      Moves s (.lock t opens) { turn s m.t with undefined := true }
  | accept (t : T) (opens : Bool) (m : Message) (hcall : s.call t = .write m)
      (hmtx : s.mtx = none) (hroom : (turn s m.t).lineCount ≠ maxInt) :
      Moves s (.lock t opens) (count cfg (turn s m.t) t m)
  | push (t : T) (l : Line) (hmtx : s.mtx = some (t, l)) (hqueued : Queued cfg l)
      (hroom : s.queue.length < MaxCapacity) :
      Moves s .unlock { s with
        queue := s.queue ++ [l]
        mtx := none
        call := Function.update s.call t .idle }
  | direct (t : T) (l : Line) (hmtx : s.mtx = some (t, l)) (hqueued : ¬ Queued cfg l) :
      Moves s .unlock { s with
        written := s.written ++ [⟨l, s.openings, s.fileStream⟩]
        mtx := none
        call := Function.update s.call t .idle }
  | pop (l : Line) (rest : List Line) (hstr : s.str = none) (hqueue : s.queue = l :: rest) :
      Moves s .pop { s with str := some l, queue := rest }
  | store (l : Line) (hstr : s.str = some l) (hmtx : s.mtx = none) :
      Moves s .store { s with
        str := none
        written := s.written ++ [⟨l, s.openings, s.fileStream⟩] }

variable {cfg} {s s' : Log T} {a : Action T}

theorem lock_moves {t : T} {opens : Bool} (h : lock cfg s t opens = some s') :
    Moves cfg s (.lock t opens) s' := by
  unfold lock at h
  split at h
  · rename_i m hcall hmtx
    have haccept (hturn : some (accept cfg (turn s m.t) t m) = some s') :
        Moves cfg s (.lock t opens) s' := by
      obtain rfl := Option.some.inj hturn
      by_cases hfull : (turn s m.t).lineCount = maxInt
      · rw [accept, if_pos hfull]
        exact .overflow t opens m hcall hmtx hfull
      · rw [accept, if_neg hfull]
        exact .accept t opens m hcall hmtx hfull
    split_ifs at h with hrotates hopens
    · subst hopens
      exact haccept (by rw [turn, if_pos hrotates, h])
    · obtain rfl : opens = false := by simpa using hopens
      obtain rfl := Option.some.inj h
      exact .throw t m hcall hmtx hrotates
    · exact haccept (by rw [turn, if_neg hrotates, h])
  · exact absurd h (by simp)

theorem unlock_moves (h : unlock cfg s = some s') : Moves cfg s .unlock s' := by
  unfold unlock at h
  split at h
  · exact absurd h (by simp)
  · rename_i t l hmtx
    split_ifs at h with hqueued hfull
    · obtain rfl := Option.some.inj h
      exact .push t l hmtx hqueued (by omega)
    · obtain rfl := Option.some.inj h
      exact .direct t l hmtx hqueued

theorem pop_moves (h : pop s = some s') : Moves cfg s .pop s' := by
  unfold pop at h
  split at h
  · rename_i l rest hstr hqueue
    obtain rfl := Option.some.inj h
    exact .pop l rest hstr hqueue
  · exact absurd h (by simp)

theorem store_moves (h : store s = some s') : Moves cfg s .store s' := by
  unfold store at h
  split at h
  · rename_i l hstr hmtx
    obtain rfl := Option.some.inj h
    exact .store l hstr hmtx
  · exact absurd h (by simp)

/-- **What a step can do.** -/
theorem step_moves (h : step cfg s a = some s') : s.undefined = false ∧ Moves cfg s a s' := by
  unfold step at h
  split_ifs at h with hundefined
  refine ⟨by simpa using hundefined, ?_⟩
  cases a with
  | setLevel l =>
      simp only at h
      split at h
      · obtain rfl := Option.some.inj h
        exact .setLevel l
      · exact absurd h (by simp)
  | write t m =>
      simp only at h
      split at h
      · split_ifs at h with hlevel
        · obtain rfl := Option.some.inj h
          exact .refuse t m
        · obtain rfl := Option.some.inj h
          exact .write t m
      · exact absurd h (by simp)
  | lock t opens => exact lock_moves h
  | unlock => exact unlock_moves h
  | pop => exact pop_moves h
  | store => exact store_moves h

/-! ### Which steps are possible -/

theorem step_write {t : T} {m : Message} (hundefined : s.undefined = false)
    (hcall : s.call t = .idle) (hmtx : s.mtx = none) (hopen : cfg.isOpen = true)
    (hlevel : s.level.value ≤ m.level.value) :
    step cfg s (.write t m) = some { s with call := Function.update s.call t (.write m) } := by
  have hpasses : ¬ (cfg.isOpen = false ∨ m.level.value < s.level.value) := by
    simp [hopen, hlevel]
  simp only [step, hundefined, hcall, hmtx, Bool.false_eq_true, if_false]
  rw [if_neg hpasses]

theorem step_lock {t : T} {m : Message} {opens : Bool} (hundefined : s.undefined = false)
    (hcall : s.call t = .write m) (hmtx : s.mtx = none) (hrotates : ¬ Rotates s m.t)
    (hroom : s.lineCount ≠ maxInt) :
    step cfg s (.lock t opens) = some (count cfg s t m) := by
  simp only [step, hundefined, lock, hcall, hmtx, if_neg hrotates, accept, if_neg hroom,
    Bool.false_eq_true, if_false]

theorem step_push {t : T} {l : Line} (hundefined : s.undefined = false)
    (hmtx : s.mtx = some (t, l)) (hqueued : Queued cfg l) (hroom : s.queue.length < MaxCapacity) :
    step cfg s .unlock = some { s with
      queue := s.queue ++ [l]
      mtx := none
      call := Function.update s.call t .idle } := by
  simp only [step, hundefined, unlock, hmtx, if_pos hqueued, if_neg (Nat.not_le.2 hroom),
    Bool.false_eq_true, if_false]

theorem step_direct {t : T} {l : Line} (hundefined : s.undefined = false)
    (hmtx : s.mtx = some (t, l)) (hqueued : ¬ Queued cfg l) :
    step cfg s .unlock = some { s with
      written := s.written ++ [⟨l, s.openings, s.fileStream⟩]
      mtx := none
      call := Function.update s.call t .idle } := by
  simp only [step, hundefined, unlock, hmtx, if_neg hqueued, Bool.false_eq_true, if_false]

theorem step_pop {l : Line} {rest : List Line} (hundefined : s.undefined = false)
    (hstr : s.str = none) (hqueue : s.queue = l :: rest) :
    step cfg s .pop = some { s with str := some l, queue := rest } := by
  simp only [step, hundefined, pop, hstr, hqueue, Bool.false_eq_true, if_false]

theorem step_store {l : Line} (hundefined : s.undefined = false) (hstr : s.str = some l)
    (hmtx : s.mtx = none) :
    step cfg s .store = some { s with
      str := none
      written := s.written ++ [⟨l, s.openings, s.fileStream⟩] } := by
  simp only [step, hundefined, store, hstr, hmtx, Bool.false_eq_true, if_false]

/-! ### To turn to another file changes nothing else -/

omit [DecidableEq T] in
theorem newDay_eq (s : Log T) (t : Tm) :
    ∃ n d, newDay s t = { s with lineCount := n, today := d } := by
  unfold newDay
  split_ifs
  · exact ⟨_, _, rfl⟩
  · exact ⟨s.lineCount, s.today, rfl⟩

omit [DecidableEq T] in
/-- Only the count, the day, the stream and the number of its openings may change. -/
theorem rotate_eq (s : Log T) (t : Tm) (opens : Bool) :
    ∃ n d f k, rotate s t opens =
      { s with lineCount := n, today := d, fileStream := f, openings := k } := by
  obtain ⟨n, d, h⟩ := newDay_eq s t
  unfold rotate
  rw [h]
  exact ⟨n, d, _, _, rfl⟩

omit [DecidableEq T] in
theorem turn_eq (s : Log T) (t : Tm) :
    ∃ n d f k, turn s t =
      { s with lineCount := n, today := d, fileStream := f, openings := k } := by
  unfold turn
  split_ifs
  · exact rotate_eq s t true
  · exact ⟨s.lineCount, s.today, s.fileStream, s.openings, rfl⟩

omit [DecidableEq T] in
@[simp] theorem rotate_mtx (s : Log T) (t : Tm) (opens : Bool) :
    (rotate s t opens).mtx = s.mtx := by
  obtain ⟨n, d, f, k, h⟩ := rotate_eq s t opens
  rw [h]

omit [DecidableEq T] in
@[simp] theorem turn_mtx (s : Log T) (t : Tm) : (turn s t).mtx = s.mtx := by
  obtain ⟨n, d, f, k, h⟩ := turn_eq s t
  rw [h]

omit [DecidableEq T] in
@[simp] theorem turn_accepted (s : Log T) (t : Tm) : (turn s t).accepted = s.accepted := by
  obtain ⟨n, d, f, k, h⟩ := turn_eq s t
  rw [h]

end Log
end Logs
end BreUtils
