/-
# All replies come back

The server, its clients and the network between them cannot go on for ever, and cannot stop
before their work is done.  Each message is taken from a queue, gets a header, and is written, on
its way up and on its way down; each frame that comes in is read in four steps; and the thread of
`NetLogic` takes each message, finds its session and replies.  What is left of this work is a
number (`work`), and every step of the threads and of the network makes it smaller, whoever moves
(`step_work`); only a write thread that goes round its `while` without a message leaves it as it
is.  Where nobody can move but by a time-out, nothing is under way (`quiet_of_stuck`).

So with clients that send no more, and with all sessions open and in `_sessions`, it takes no
more than 19 steps for each message, and as many as there are bytes for the way up and the way
down, until every client has got back all that it sent (`echoes_come_back`).
-/

import BreUtils.Lib.Reaches
import BreUtils.Net.EchoServer
import Mathlib.Algebra.BigOperators.Fin
import Mathlib.Algebra.Order.BigOperators.Group.Finset

namespace BreUtils
namespace Net

open Lib

/-! ### The work of one session -/

namespace TCPSession

variable {u t : TCPSession} {asked messages : List (List UInt8)} {stream : List UInt8}
  {b : Action}

/-- The steps of the write thread and of the read handlers in which nothing fails. -/
def Works : Action → Prop
  | .look | .pop | .popFails | .getHeaderData | .writeHeader | .writePayload => True
  | .readHeader | .parse | .asyncReadData | .readData => True
  | _ => False

/-- The write thread goes round its `while` without a message. -/
def Pauses : Action → Bool
  | .look | .popFails => true
  | _ => false

/-- The steps that are left for the message that the write thread has. -/
def Writer.left : Writer → ℕ
  | .idle | .popping => 0
  | .popped _ => 3
  | .header _ _ => 2
  | .payload _ => 1

/-- The steps that the read handlers have made of a frame. -/
def Reader.made : Reader → ℕ
  | .header | .ended => 0
  | .parse _ => 1
  | .callReadData _ => 2
  | .data _ => 3

/-- What the write thread has still to do. -/
def writeWork (u : TCPSession) : ℕ := 4 * u.queueSend.length + Writer.left u.writer

/-- What the read handlers have done. -/
def readSteps (u : TCPSession) : ℕ := 4 * u.received.length + Reader.made u.reader

theorem SendInv.writeWork_le (h : SendInv asked u) : writeWork u ≤ 4 * asked.length := by
  obtain ⟨done, hasked, -⟩ := h.sending
  have hlength := congrArg List.length hasked
  rw [List.length_append, List.length_append] at hlength
  unfold writeWork
  cases hwriter : u.writer with
  | idle | popping =>
      simp only [Writer.left]
      omega
  | popped | header | payload =>
      rw [hwriter] at hlength
      simp only [Writer.inFlight, List.length_singleton] at hlength
      simp only [Writer.left]
      omega

/-- A part of a frame is consumed only if there is a message to come. -/
theorem ReadInv.readSteps_le (h : ReadInv messages stream u) (hbegins : stream <+: wire messages) :
    readSteps u ≤ 4 * messages.length := by
  obtain ⟨rest, rfl, hstream, hexpects⟩ := h
  obtain ⟨later, hlater⟩ := rest_of_prefix hstream hbegins
  unfold readSteps
  rw [List.length_append]
  cases hreader : u.reader with
  | header | ended =>
      simp only [Reader.made]
      omega
  | parse bytes =>
      rw [hreader] at hexpects hlater
      rw [List.append_assoc] at hlater
      obtain ⟨message, rest', rfl, -⟩ := header_of_rest hexpects hlater
      simp only [Reader.made, List.length_cons]
      omega
  | callReadData bytes =>
      rw [hreader] at hexpects
      obtain ⟨message, rest', rfl, -, -⟩ := hexpects
      simp only [Reader.made, List.length_cons]
      omega
  | data length =>
      rw [hreader] at hexpects
      obtain ⟨message, rest', rfl, -⟩ := hexpects
      simp only [Reader.made, List.length_cons]
      omega

theorem ReadInv.reading (h : ReadInv messages stream u) : u.reader ≠ .ended := by
  obtain ⟨rest, -, -, hexpects⟩ := h
  intro hended
  rw [hended] at hexpects
  exact hexpects

/-- **A step of a session is a step on its way**, of the write thread or of the read handlers, or
the write thread pauses. -/
theorem step_works (hs : Duplex asked messages stream u) (hreading : u.reader ≠ .ended)
    (hshort : ∀ message ∈ messages, message.length < 2 ^ 31) (hbegins : stream <+: wire messages)
    (hworks : Works b) (h : u.step b = some t) :
    t.isClosed = u.isClosed ∧ t.reader ≠ .ended ∧ writeWork t ≤ writeWork u ∧
      readSteps u ≤ readSteps t ∧
      (Pauses b = false → writeWork t + readSteps u < writeWork u + readSteps t) := by
  have hread := hs.reads hreading
  cases step_cases h with
  | look hwriter | popFails hwriter =>
      refine ⟨rfl, hreading, ?_, le_rfl, by rintro ⟨⟩⟩
      simp only [writeWork, hwriter, Writer.left]
      omega
  | pop hwriter hqueue =>
      refine ⟨rfl, hreading, ?_, le_rfl, fun _ => Nat.add_lt_add_right ?_ _⟩
      · simp only [writeWork, hwriter, hqueue, Writer.left, List.length_cons]
        omega
      · simp only [writeWork, hwriter, hqueue, Writer.left, List.length_cons]
        omega
  | getHeaderData hwriter | writeHeader hwriter | writePayload hwriter =>
      refine ⟨rfl, hreading, ?_, le_rfl, fun _ => Nat.add_lt_add_right ?_ _⟩
      · simp only [writeWork, hwriter, Writer.left]
        omega
      · simp only [writeWork, hwriter, Writer.left]
        omega
  | readHeader hreader hmany =>
      refine ⟨rfl, by simp, le_rfl, ?_, fun _ => Nat.add_lt_add_left ?_ _⟩
      · simp only [readSteps, hreader, Reader.made]
        omega
      · simp only [readSteps, hreader, Reader.made]
        omega
  | parseAccepts hreader hparse =>
      refine ⟨rfl, by simp, le_rfl, ?_, fun _ => Nat.add_lt_add_left ?_ _⟩
      · simp only [readSteps, hreader, Reader.made]
        omega
      · simp only [readSteps, hreader, Reader.made]
        omega
  | parseRejects =>
      -- a header of the stream starts with `BREZ`
      exact absurd rfl (step_readInv (a := .parse) hshort hread hbegins trivial h).reading
  | asyncReadData hreader =>
      have hreading' :=
        (step_readInv (a := .asyncReadData) hshort hread hbegins trivial h).reading
      refine ⟨rfl, hreading', le_rfl, ?_, fun _ => Nat.add_lt_add_left ?_ _⟩
      · split_ifs at hreading' ⊢
        · simp only [readSteps, hreader, Reader.made]
          omega
        · exact absurd rfl hreading'
      · split_ifs at hreading' ⊢
        · simp only [readSteps, hreader, Reader.made]
          omega
        · exact absurd rfl hreading'
  | readData hreader hmany =>
      refine ⟨rfl, by simp, le_rfl, ?_, fun _ => Nat.add_lt_add_left ?_ _⟩
      · simp only [readSteps, hreader, Reader.made, List.length_append, List.length_singleton]
        omega
      · simp only [readSteps, hreader, Reader.made, List.length_append, List.length_singleton]
        omega
  | _ => exact hworks.elim

/-- **A write thread that cannot move but by a time-out has nothing to write**, if no length is
about to be read. -/
theorem rests_of_stuck (hopen : u.isClosed = false) (hcall : u.step .asyncReadData = none)
    (hstuck : ∀ b, Sends b → Works b → b ≠ .popFails → Undisturbed u b → u.step b = none) :
    u.queueSend = [] ∧ Writer.Rests u.writer := by
  cases hwriter : u.writer with
  | idle =>
      have hlook := hstuck .look trivial trivial (by simp) trivial
      simp [step, hwriter, hopen] at hlook
  | popping =>
      refine ⟨?_, trivial⟩
      cases hqueue : u.queueSend with
      | nil => rfl
      | cons message rest =>
          have hpop := hstuck .pop trivial trivial (by simp) trivial
          simp [step, hwriter, hqueue] at hpop
  | popped message =>
      have hget := hstuck .getHeaderData trivial trivial (by simp) fun bytes _ hreader _ => by
        simp [step, hreader] at hcall
      simp [step, hwriter] at hget
  | header bytes message =>
      have hwrite := hstuck .writeHeader trivial trivial (by simp) trivial
      simp [step, hwriter] at hwrite
  | payload message =>
      have hwrite := hstuck .writePayload trivial trivial (by simp) trivial
      simp [step, hwriter] at hwrite

end TCPSession

/-! ### The work of the server and its clients -/

namespace EchoServer

open TCPSession (Works Pauses Undisturbed Duplex Waiting writeWork readSteps)

variable {I : Type*} [DecidableEq I] {s s' : EchoServer I} {a : Action I} {i : I}

/-- The steps of the threads and of the network in which nothing fails, nothing races and no length
that is about to be read is changed. -/
def Moves (s : EchoServer I) : Action I → Prop
  | .client i b => Works b ∧ Undisturbed (s.client i) b
  | .session i b => Works b ∧ Undisturbed (s.session i) b
  | .up _ bytes | .down _ bytes => bytes ≠ []
  | .pop | .getSession | .reply => True
  | _ => False

/-- A `Pop` gives up after 10 ms. -/
def TimesOut : Action I → Prop
  | .client _ b | .session _ b => b = .popFails
  | _ => False

/-- The steps that do something for a message. -/
def Counts : Action I → Bool
  | .client _ b | .session _ b => !Pauses b
  | _ => true

/-- The two sessions of a client read and write, and the one of the server is in `_sessions`. -/
structure Open (s : EchoServer I) (i : I) : Prop where
  client : (s.client i).isClosed = false
  session : (s.session i).isClosed = false
  clientReads : (s.client i).reader ≠ .ended
  sessionReads : (s.session i).reader ≠ .ended
  inSessions : s.inSessions i = true

/-- What holds while the threads move. -/
structure Echoing (s : EchoServer I) : Prop where
  line (i : I) : Line s i
  replied : s.replied = s.handled
  isOpen (i : I) : Open s i
  unclashed : s.clashed = false
  inserting : s.inserting = none

/-- The messages of a client that the thread of `NetLogic` has. -/
def inHand (s : EchoServer I) (i : I) : ℕ :=
  (s.handling.toList.filter fun msg => msg.1 = i).length

/-- The steps that it has made for them. -/
def handSteps (s : EchoServer I) (i : I) : ℕ := (if s.found then 2 else 1) * s.inHand i

/-- The steps that are left for the messages of a client. -/
def lineWork (s : EchoServer I) (i : I) : ℕ :=
  writeWork (s.client i) +
  ((wire (s.asked i)).length - (s.upstream i).length) +
  (4 * (s.asked i).length - readSteps (s.session i)) +
  (3 * (s.asked i).length - (3 * (s.handled i).length + s.handSteps i)) +
  (4 * ((s.asked i).length - (s.replied i).length) + writeWork (s.session i)) +
  ((wire (s.asked i)).length - (s.downstream i).length) +
  (4 * (s.asked i).length - readSteps (s.client i))

theorem Echoing.handled_beginning (hs : Echoing s) (i : I) :
    s.handled i ++ s.pending i <+: s.asked i :=
  (hs.line i).received ▸ (hs.line i).session.received

theorem Echoing.replied_beginning (hs : Echoing s) (i : I) : s.replied i <+: s.asked i := by
  rw [hs.replied]
  exact (List.prefix_append _ _).trans (hs.handled_beginning i)

/-- What is in the hands of `NetLogic` is still to be handled. -/
theorem Echoing.handled_le (hs : Echoing s) (i : I) :
    (s.handled i).length + s.inHand i + (s.queue.filter fun msg => msg.1 = i).length ≤
      (s.asked i).length := by
  have hle := (hs.handled_beginning i).length_le
  rw [List.length_append, pending, List.length_map, List.filter_append, List.length_append] at hle
  rw [Nat.add_assoc]
  exact hle

theorem Echoing.lineWork_le (hs : Echoing s) (i : I) :
    s.lineWork i ≤ 19 * (s.asked i).length + 2 * (wire (s.asked i)).length := by
  have hclient := (hs.line i).client.sends.writeWork_le
  have hsession := (hs.line i).session.sends.writeWork_le
  have hreplied := (hs.replied_beginning i).length_le
  unfold lineWork
  omega

/-! ### One step -/

/-- What a step on the way of the messages of `j` leaves. -/
structure Progress (s s' : EchoServer I) (a : Action I) (j : I) : Prop where
  asked : s'.asked = s.asked
  unclashed : s'.clashed = s.clashed
  inserting : s'.inserting = s.inserting
  isOpen (i : I) : Open s' i
  le : s'.lineWork j ≤ s.lineWork j
  less : Counts a = true → s'.lineWork j < s.lineWork j
  others : ∀ i, i ≠ j → s'.lineWork i = s.lineWork i

omit [DecidableEq I] in
theorem Open.of_same (h : Open s i) (hclient : s'.client i = s.client i)
    (hsession : s'.session i = s.session i) (hin : s'.inSessions i = s.inSessions i) :
    Open s' i where
  client := hclient ▸ h.client
  session := hsession ▸ h.session
  clientReads := hclient ▸ h.clientReads
  sessionReads := hsession ▸ h.sessionReads
  inSessions := hin.trans h.inSessions

/-- A client's session has made a step. -/
theorem open_client {j : I} {t : TCPSession} (hopen : ∀ i, Open s i)
    (hclient : s'.client = Function.update s.client j t) (hsession : s'.session = s.session)
    (hin : s'.inSessions = s.inSessions) (hclosed : t.isClosed = (s.client j).isClosed)
    (hreading : t.reader ≠ .ended) (i : I) : Open s' i := by
  by_cases hij : i = j
  · subst hij
    have hi := hopen i
    constructor
    · rw [hclient, Function.update_self]
      exact hclosed.trans hi.client
    · exact hsession ▸ hi.session
    · rw [hclient, Function.update_self]
      exact hreading
    · exact hsession ▸ hi.sessionReads
    · exact hin ▸ hi.inSessions
  · refine (hopen i).of_same ?_ (congrFun hsession i) (congrFun hin i)
    rw [hclient, Function.update_of_ne hij]

/-- A session of the server has made a step. -/
theorem open_session {j : I} {t : TCPSession} (hopen : ∀ i, Open s i)
    (hclient : s'.client = s.client) (hsession : s'.session = Function.update s.session j t)
    (hin : s'.inSessions = s.inSessions) (hclosed : t.isClosed = (s.session j).isClosed)
    (hreading : t.reader ≠ .ended) (i : I) : Open s' i := by
  by_cases hij : i = j
  · subst hij
    have hi := hopen i
    constructor
    · exact hclient ▸ hi.client
    · rw [hsession, Function.update_self]
      exact hclosed.trans hi.session
    · exact hclient ▸ hi.clientReads
    · rw [hsession, Function.update_self]
      exact hreading
    · exact hin ▸ hi.inSessions
  · refine (hopen i).of_same (congrFun hclient i) ?_ (congrFun hin i)
    rw [hsession, Function.update_of_ne hij]

theorem lineWork_of_same (hclient : s'.client i = s.client i)
    (hsession : s'.session i = s.session i) (hupstream : s'.upstream i = s.upstream i)
    (hdownstream : s'.downstream i = s.downstream i) (hasked : s'.asked i = s.asked i)
    (hhandled : s'.handled i = s.handled i) (hreplied : s'.replied i = s.replied i)
    (hsteps : s'.handSteps i = s.handSteps i) : s'.lineWork i = s.lineWork i := by
  unfold lineWork
  rw [hclient, hsession, hupstream, hdownstream, hasked, hhandled, hreplied, hsteps]

/-- A step that counts. -/
theorem Progress.of_less {j : I} (hasked : s'.asked = s.asked) (hclashed : s'.clashed = s.clashed)
    (hinserting : s'.inserting = s.inserting) (hopen : ∀ i, Open s' i)
    (hless : s'.lineWork j < s.lineWork j)
    (hothers : ∀ i, i ≠ j → s'.lineWork i = s.lineWork i) : Progress s s' a j :=
  ⟨hasked, hclashed, hinserting, hopen, hless.le, fun _ => hless, hothers⟩

theorem progress_client {j : I} {b : TCPSession.Action} (hs : Echoing s)
    (ha : Moves s (.client j b)) (h : step s (.client j b) = some s') :
    Progress s s' (.client j b) j := by
  have hline' := line_client (hs.line j) ha.2 h
  obtain ⟨-, t, ht, rfl⟩ := step_client h
  have hline := hs.line j
  have hreplied := (hs.replied_beginning j).length_le
  obtain ⟨hclosed, hreading, hwrites, hreads, hwork⟩ := TCPSession.step_works hline.client
    (hs.isOpen j).clientReads hline.replied_short hline.downstream_wire ha.1 ht
  have hclient := hline'.client
  simp only [Function.update_self] at hclient
  have hsteps := (hclient.reads hreading).readSteps_le hline.downstream_wire
  refine ⟨rfl, rfl, rfl, open_client hs.isOpen rfl rfl rfl hclosed hreading, ?_, fun hcounts => ?_,
    fun i hij => ?_⟩
  · simp only [lineWork, handSteps, inHand, Function.update_self]
    omega
  · have hless := hwork (by simpa [Counts] using hcounts)
    simp only [lineWork, handSteps, inHand, Function.update_self]
    omega
  · exact lineWork_of_same (Function.update_of_ne hij _ _) rfl rfl rfl rfl rfl rfl rfl

theorem progress_session {j : I} {b : TCPSession.Action} (hs : Echoing s)
    (ha : Moves s (.session j b)) (h : step s (.session j b) = some s') :
    Progress s s' (.session j b) j := by
  have hline' := line_session (hs.line j) ha.2 h
  obtain ⟨-, t, ht, rfl⟩ := step_session h
  have hline := hs.line j
  obtain ⟨hclosed, hreading, hwrites, hreads, hwork⟩ := TCPSession.step_works hline.session
    (hs.isOpen j).sessionReads hline.short hline.upstream_wire ha.1 ht
  have hsession := hline'.session
  simp only [Function.update_self] at hsession
  have hsteps := (hsession.reads hreading).readSteps_le hline.upstream_wire
  refine ⟨rfl, rfl, rfl, open_session hs.isOpen rfl rfl rfl hclosed hreading, ?_, fun hcounts => ?_,
    fun i hij => ?_⟩
  · simp only [lineWork, handSteps, inHand, Function.update_self]
    omega
  · have hless := hwork (by simpa [Counts] using hcounts)
    simp only [lineWork, handSteps, inHand, Function.update_self]
    omega
  · exact lineWork_of_same rfl (Function.update_of_ne hij _ _) rfl rfl rfl rfl rfl rfl

theorem progress_up {j : I} {bytes : List UInt8} (hs : Echoing s) (hbytes : bytes ≠ [])
    (h : step s (.up j bytes) = some s') : Progress s s' (.up j bytes) j := by
  have hline' := line_up (hs.line j) h
  obtain ⟨-, t, ht, rfl⟩ := step_up h
  cases TCPSession.step_cases ht
  have hlength := hline'.upstream_wire.length_le
  simp only [Function.update_self, List.length_append] at hlength
  have hpos := List.length_pos_iff.2 hbytes
  refine .of_less rfl rfl rfl (open_session hs.isOpen rfl rfl rfl rfl (hs.isOpen j).sessionReads) ?_
    fun i hij => ?_
  · simp only [lineWork, handSteps, inHand, Function.update_self, writeWork, readSteps,
      List.length_append]
    omega
  · exact lineWork_of_same rfl (Function.update_of_ne hij _ _) (Function.update_of_ne hij _ _) rfl
      rfl rfl rfl rfl

theorem progress_down {j : I} {bytes : List UInt8} (hs : Echoing s) (hbytes : bytes ≠ [])
    (h : step s (.down j bytes) = some s') : Progress s s' (.down j bytes) j := by
  have hline' := line_down (hs.line j) h
  obtain ⟨-, t, ht, rfl⟩ := step_down h
  cases TCPSession.step_cases ht
  have hlength := hline'.downstream_wire.length_le
  have hreplied := (wire_mono (hs.replied_beginning j)).length_le
  simp only [Function.update_self, List.length_append] at hlength
  have hpos := List.length_pos_iff.2 hbytes
  refine .of_less rfl rfl rfl (open_client hs.isOpen rfl rfl rfl rfl (hs.isOpen j).clientReads) ?_
    fun i hij => ?_
  · simp only [lineWork, handSteps, inHand, Function.update_self, writeWork, readSteps,
      List.length_append]
    omega
  · exact lineWork_of_same (Function.update_of_ne hij _ _) rfl rfl (Function.update_of_ne hij _ _)
      rfl rfl rfl rfl

/-- The message at the front comes into the hands of the thread of `NetLogic`. -/
theorem progress_pop (hs : Echoing s) (h : step s .pop = some s') :
    ∃ j, Progress s s' .pop j := by
  obtain ⟨⟨j, data⟩, queue, hhandling, hqueue, rfl⟩ := step_pop h
  refine ⟨j, .of_less rfl rfl rfl (fun i => (hs.isOpen i).of_same rfl rfl rfl) ?_ fun i hij => ?_⟩
  · have hle := hs.handled_le j
    simp only [inHand, hhandling, hqueue, Option.toList_none, List.filter_nil, List.length_nil,
      List.filter_cons, decide_true, if_true, List.length_cons] at hle
    simp only [lineWork, handSteps, inHand, hhandling, Option.toList_none, Option.toList_some,
      List.filter_nil, List.filter_cons, decide_true, Bool.false_eq_true, if_true, if_false,
      List.length_cons, List.length_nil, Nat.mul_zero]
    omega
  · refine lineWork_of_same rfl rfl rfl rfl rfl rfl rfl ?_
    simp [handSteps, inHand, hhandling, Ne.symm hij]

theorem progress_getSession (hs : Echoing s) (h : step s .getSession = some s') :
    ∃ j, Progress s s' .getSession j := by
  obtain ⟨j, data, hhandling, ⟨hinserting, -⟩ | ⟨-, -, hfound, rfl⟩ | ⟨-, hout, -⟩⟩ :=
    step_getSession h
  · rw [hs.inserting] at hinserting
    exact absurd hinserting (by simp)
  · refine ⟨j, .of_less rfl rfl rfl (fun i => (hs.isOpen i).of_same rfl rfl rfl) ?_ fun i hij => ?_⟩
    · have hle := hs.handled_le j
      simp only [inHand, hhandling, Option.toList_some, List.filter_nil, List.filter_cons,
        decide_true, if_true, List.length_cons, List.length_nil] at hle
      simp only [lineWork, handSteps, inHand, hhandling, hfound, Option.toList_some,
        List.filter_nil, List.filter_cons, decide_true, Bool.false_eq_true, if_true, if_false,
        List.length_cons, List.length_nil]
      omega
    · refine lineWork_of_same rfl rfl rfl rfl rfl rfl rfl ?_
      simp [handSteps, inHand, hhandling, Ne.symm hij]
  · rw [(hs.isOpen j).inSessions] at hout
    exact absurd hout (by simp)

theorem progress_reply (hs : Echoing s) (h : step s .reply = some s') :
    ∃ j, Progress s s' .reply j := by
  obtain ⟨j, data, t, hhandling, hfound, ht, rfl⟩ := step_reply h
  cases TCPSession.step_cases ht
  have hle := hs.handled_le j
  have hreplied := congrArg List.length (congrFun hs.replied j)
  simp only [inHand, hhandling, Option.toList_some, List.filter_nil, List.filter_cons,
    decide_true, if_true, List.length_cons, List.length_nil] at hle
  refine ⟨j, .of_less rfl rfl rfl
    (open_session hs.isOpen rfl rfl rfl rfl (hs.isOpen j).sessionReads) ?_ fun i hij => ?_⟩
  · simp only [lineWork, handSteps, inHand, hhandling, hfound, Function.update_self, writeWork,
      readSteps, Option.toList_none, Option.toList_some, List.filter_nil, List.filter_cons,
      decide_true, if_true, List.length_append, List.length_cons, List.length_nil]
    omega
  · refine lineWork_of_same rfl (Function.update_of_ne hij _ _) rfl rfl rfl
      (Function.update_of_ne hij _ _) (Function.update_of_ne hij _ _) ?_
    simp [handSteps, inHand, hhandling, Ne.symm hij]

/-- **Whoever moves, it is a step on the way of some client's messages.** -/
theorem step_progress (hs : Echoing s) (ha : Moves s a) (h : step s a = some s') :
    ∃ j, Progress s s' a j := by
  cases a with
  | client j b => exact ⟨j, progress_client hs ha h⟩
  | session j b => exact ⟨j, progress_session hs ha h⟩
  | up j bytes => exact ⟨j, progress_up hs ha h⟩
  | down j bytes => exact ⟨j, progress_down hs ha h⟩
  | pop => exact progress_pop hs h
  | getSession => exact progress_getSession hs h
  | reply => exact progress_reply hs h
  | send | insert | inserted | clashClient | clashSession => exact ha.elim

omit [DecidableEq I] in
theorem Moves.calm (ha : Moves s a) : Calm s a := by
  cases a with
  | client j b | session j b => exact ha.2
  | send => exact ha.elim
  | _ => trivial

theorem step_echoing (hs : Echoing s) (ha : Moves s a) (h : step s a = some s') : Echoing s' := by
  obtain ⟨j, hprogress⟩ := step_progress hs ha h
  refine ⟨fun i => step_line (hs.line i) ha.calm h, ?_, hprogress.isOpen,
    hprogress.unclashed.trans hs.unclashed, hprogress.inserting.trans hs.inserting⟩
  refine step_replied hs.replied ?_ h
  cases a with
  | getSession => exact fun i _ _ => (hs.isOpen i).inSessions
  | _ => trivial

/-- What is left to be done. -/
def work [Fintype I] (s : EchoServer I) : ℕ := ∑ i, s.lineWork i

/-- **What is left goes down with each step that counts**, and up with none. -/
theorem step_work [Fintype I] (hs : Echoing s) (ha : Moves s a) (h : step s a = some s') :
    work s' ≤ work s ∧ (Counts a = true → work s' < work s) := by
  obtain ⟨j, hprogress⟩ := step_progress hs ha h
  have hle (i : I) : s'.lineWork i ≤ s.lineWork i := by
    by_cases hij : i = j
    · exact hij ▸ hprogress.le
    · exact (hprogress.others i hij).le
  refine ⟨Finset.sum_le_sum fun i _ => hle i, fun hcounts => ?_⟩
  exact Finset.sum_lt_sum (fun i _ => hle i) ⟨j, Finset.mem_univ j, hprogress.less hcounts⟩

theorem Echoing.work_le [Fintype I] (hs : Echoing s) :
    work s ≤ ∑ i, (19 * (s.asked i).length + 2 * (wire (s.asked i)).length) :=
  Finset.sum_le_sum fun i _ => hs.lineWork_le i

/-! ### Where nothing can move -/

/-- A step of the client's session is one of the whole. -/
theorem client_of_stuck {b : TCPSession.Action} (hclashed : s.clashed = false)
    (hown : IsOwn b = true) (h : step s (.client i b) = none) : (s.client i).step b = none := by
  rw [step_of_unclashed hclashed] at h
  simp only [act, hown, if_true] at h
  exact Option.map_eq_none_iff.1 h

/-- So is one of the server's session, but for a callback that waits for room in the queue. -/
theorem session_of_stuck {b : TCPSession.Action} (hclashed : s.clashed = false)
    (hown : IsOwn b = true) (hroom : b ≠ .readData ∨ s.queue = [])
    (h : step s (.session i b) = none) : (s.session i).step b = none := by
  rw [step_of_unclashed hclashed] at h
  cases ht : (s.session i).step b with
  | none => rfl
  | some t =>
      simp only [act, hown, if_true, ht, Option.bind_some] at h
      split_ifs at h with hfull
      exfalso
      rcases hroom with hread | hqueue
      · refine hfull.1 ?_
        unfold fresh
        cases TCPSession.step_cases ht with
        | readData => exact absurd rfl hread
        | _ => exact List.drop_length
      · rw [hqueue] at hfull
        exact absurd hfull.2 (by simp [maxCapacity])

theorem isOwn_of_works {b : TCPSession.Action} (h : Works b) : IsOwn b = true := by
  cases b <;> first | rfl | exact h.elim

/-- Nobody can move but by a time-out. -/
def Stuck (s : EchoServer I) : Prop := ∀ a, Moves s a → ¬ TimesOut a → step s a = none

theorem writer_of_stuck (hs : Echoing s) (hstuck : Stuck s) (i : I) :
    ((s.client i).queueSend = [] ∧ TCPSession.Writer.Rests (s.client i).writer) ∧
      (s.session i).queueSend = [] ∧ TCPSession.Writer.Rests (s.session i).writer := by
  constructor
  · refine TCPSession.rests_of_stuck (hs.isOpen i).client ?_ fun b _ hworks htime hundisturbed => ?_
    · exact client_of_stuck hs.unclashed rfl
        (hstuck (.client i .asyncReadData) ⟨trivial, trivial⟩ (by simp [TimesOut]))
    · exact client_of_stuck hs.unclashed (isOwn_of_works hworks)
        (hstuck (.client i b) ⟨hworks, hundisturbed⟩ htime)
  · refine TCPSession.rests_of_stuck (hs.isOpen i).session ?_
      fun b hsends hworks htime hundisturbed => ?_
    · exact session_of_stuck hs.unclashed rfl (Or.inl (by simp))
        (hstuck (.session i .asyncReadData) ⟨trivial, trivial⟩ (by simp [TimesOut]))
    · refine session_of_stuck hs.unclashed (isOwn_of_works hworks) (Or.inl ?_)
        (hstuck (.session i b) ⟨hworks, hundisturbed⟩ htime)
      rintro rfl
      exact hsends

/-- The thread of `NetLogic` has nothing to do. -/
theorem logic_of_stuck (hs : Echoing s) (hstuck : Stuck s) : s.queue = [] ∧ s.handling = none := by
  have hhandling : s.handling = none := by
    cases hhandling : s.handling with
    | none => rfl
    | some msg =>
        obtain ⟨j, data⟩ := msg
        cases hfound : s.found with
        | false =>
            have hsearch := hstuck .getSession trivial id
            rw [step_of_unclashed hs.unclashed] at hsearch
            simp [act, hhandling, hfound, hs.inserting, (hs.isOpen j).inSessions] at hsearch
        | true =>
            have hreply := hstuck .reply trivial id
            have hroom : (s.session j).queueSend.length < maxCapacity := by
              rw [(writer_of_stuck hs hstuck j).2.1]
              decide
            rw [step_of_unclashed hs.unclashed] at hreply
            simp [act, hhandling, hfound, if_pos hroom, TCPSession.step] at hreply
  refine ⟨?_, hhandling⟩
  cases hqueue : s.queue with
  | nil => rfl
  | cons msg queue =>
      have hpop := hstuck .pop trivial id
      rw [step_of_unclashed hs.unclashed] at hpop
      simp [act, hhandling, hqueue] at hpop

theorem upstream_of_stuck (hs : Echoing s) (hstuck : Stuck s) (i : I) :
    s.upstream i = (s.client i).output := by
  obtain ⟨bytes, hbytes⟩ := (hs.line i).upstream
  by_cases hnil : bytes = []
  · rwa [hnil, List.append_nil] at hbytes
  · have hup := hstuck (.up i bytes) hnil id
    rw [step_of_unclashed hs.unclashed] at hup
    simp [act, hbytes, TCPSession.step] at hup

theorem downstream_of_stuck (hs : Echoing s) (hstuck : Stuck s) (i : I) :
    s.downstream i = (s.session i).output := by
  obtain ⟨bytes, hbytes⟩ := (hs.line i).downstream
  by_cases hnil : bytes = []
  · rwa [hnil, List.append_nil] at hbytes
  · have hdown := hstuck (.down i bytes) hnil id
    rw [step_of_unclashed hs.unclashed] at hdown
    simp [act, hbytes, TCPSession.step] at hdown

/-- **Where nobody can move but by a time-out, nothing is under way.** -/
theorem quiet_of_stuck (hs : Echoing s) (hstuck : Stuck s) (i : I) : Quiet s i := by
  have hopen := hs.isOpen i
  obtain ⟨hclient, hsession⟩ := writer_of_stuck hs hstuck i
  obtain ⟨hqueue, hhandling⟩ := logic_of_stuck hs hstuck
  have hreads (b : TCPSession.Action) (hworks : Works b) (htime : b ≠ .popFails)
      (hundisturbed : ∀ u, Undisturbed u b) :
      (s.client i).step b = none ∧ (s.session i).step b = none :=
    ⟨client_of_stuck hs.unclashed (isOwn_of_works hworks)
        (hstuck (.client i b) ⟨hworks, hundisturbed _⟩ htime),
      session_of_stuck hs.unclashed (isOwn_of_works hworks) (Or.inr hqueue)
        (hstuck (.session i b) ⟨hworks, hundisturbed _⟩ htime)⟩
  have hheader := hreads .readHeader trivial (by simp) fun _ => trivial
  have hparse := hreads .parse trivial (by simp) fun _ => trivial
  have hcall := hreads .asyncReadData trivial (by simp) fun _ => trivial
  have hdata := hreads .readData trivial (by simp) fun _ => trivial
  constructor
  · exact ⟨hclient.1, hclient.2, ⟨hheader.1, hparse.1, hcall.1, hdata.1⟩, hopen.clientReads⟩
  · exact ⟨hsession.1, hsession.2, ⟨hheader.2, hparse.2, hcall.2, hdata.2⟩, hopen.sessionReads⟩
  · exact upstream_of_stuck hs hstuck i
  · exact downstream_of_stuck hs hstuck i
  · simp [pending, hqueue, hhandling]

/-- Two clients that are filed and send a message each. -/
def sampleStart : List (Action Bool) :=
  [.insert true, .inserted, .insert false, .inserted, .send true [7], .send false [8]]

/-- The first steps on the way of these messages. -/
def sampleMoves : List (Action Bool) :=
  [.client true .look, .client false .look, .client true .pop, .client false .pop,
    .client true .getHeaderData]

end EchoServer

end Net
end BreUtils
