/-
# The sender of `net/TCPManager.hpp`

`TCPSender` starts its send thread in the constructor, and the thread sends what is in
the queue until it finds the queue empty and the sender closed.  But a sender counts
as closed from the start: `_is_closed` is `true` until the last line of the
constructor, which comes after the thread has been started.  A thread that looks at
the flag before that ends at once, and nobody sends what is queued later: `Close`
returns, and no message has been written.  It looks twice, in the predicate of the wait
and behind it; where the constructor, which does not take the mutex, comes between the
two, the thread takes the front of an empty queue.

If the thread does not look before the flag is written, nothing is lost.  So `Close`
has written all messages exactly if the thread looked later, or if there were no
messages (`all_written_iff`).
-/

import BreUtils.Lib.Transition
import BreUtils.Net.TcpHeader

namespace BreUtils
namespace Net

open Lib

/-- Where the thread is that owns the sender. -/
inductive Owner where
  /-- In the constructor: the send thread is started, `_is_closed = false` is next. -/
  | constructing
  /-- Between the constructor and `Close`. -/
  | running
  /-- In `Close`: the flag is set, and it waits for the send thread. -/
  | closing
  /-- `Close` has returned. -/
  | closed
  deriving DecidableEq

/-- Where the send thread is. -/
inductive SendThread where
  /-- It is about to take the mutex and look at the queue and the flag. -/
  | looking
  /-- Asleep in `_cv.wait`. -/
  | blocked
  /-- It has found the queue empty and the flag set, and holds the mutex; the `if` is next. -/
  | leaving
  /-- It has this message, and writes its header. -/
  | header (message : List UInt8)
  /-- It writes the message. -/
  | payload (message : List UInt8)
  /-- `sendThread` has returned. -/
  | done
  /-- It has taken the front of an empty queue, which is undefined. -/
  | crashed
  deriving DecidableEq

/-- `TCPSender`, connected. -/
structure TCPSender where
  isClosed : Bool
  header : TCPHeader
  queue : List (List UInt8)
  owner : Owner
  thread : SendThread
  /-- What is written to the socket. -/
  socket : List UInt8
  /-- The messages that were passed to `Send`. -/
  sent : List (List UInt8)
  deriving DecidableEq

namespace TCPSender

/-- In the constructor, when the send thread has just been started. -/
def init : TCPSender where
  isClosed := true
  header := TCPHeader.init
  queue := []
  owner := .constructing
  thread := .looking
  socket := []
  sent := []

inductive Action where
  /-- The last line of the constructor: `_is_closed = false`. -/
  | constructed
  /-- `Send`. -/
  | send (message : List UInt8)
  /-- The section of `Close`. -/
  | close
  /-- `_send_thread.join()` and the rest of `Close`. -/
  | join
  /-- The send thread looks at the queue and the flag, in the predicate. -/
  | look
  /-- It looks at them again, in the `if`. -/
  | leave
  /-- It wakes by itself. -/
  | rouse
  | writeHeader
  | writePayload

/-- `notify_one` and `notify_all`: one thread waits at most. -/
def notify : SendThread → SendThread
  | .blocked => .looking
  | thread => thread

/-- The send thread has passed the predicate and holds the mutex, or there is no thread any more
that could do anything defined. -/
def Occupied (s : TCPSender) : Prop := s.thread = .leaving ∨ s.thread = .crashed

instance (s : TCPSender) : Decidable s.Occupied := inferInstanceAs (Decidable (_ ∨ _))

/-- **One step.**  `Send` and the section of `Close` take the mutex, the constructor does not. -/
def step (s : TCPSender) : Action → Option TCPSender
  | .constructed =>
      match s.owner with
      | .constructing =>
          if s.thread = .crashed then none else some { s with isClosed := false, owner := .running }
      | _ => none
  | .send message =>
      match s.owner with
      | .running =>
          if s.Occupied then none
          else
            some { s with
              queue := s.queue ++ [message]
              sent := s.sent ++ [message]
              thread := notify s.thread }
      | _ => none
  | .close =>
      match s.owner with
      | .running =>
          if s.Occupied then none
          else some { s with isClosed := true, owner := .closing, thread := notify s.thread }
      | _ => none
  | .join =>
      match s.owner, s.thread with
      | .closing, .done => some { s with owner := .closed }
      | _, _ => none
  | .look =>
      match s.thread with
      | .looking =>
          match s.queue with
          | message :: rest => some { s with queue := rest, thread := .header message }
          | [] => some { s with thread := if s.isClosed then .leaving else .blocked }
      | _ => none
  | .leave =>
      match s.thread with
      | .leaving => some { s with thread := if s.isClosed then .done else .crashed }
      | _ => none
  | .rouse =>
      match s.thread with
      | .blocked => some { s with thread := .looking }
      | _ => none
  | .writeHeader =>
      match s.thread with
      | .header message =>
          some { s with
            socket := s.socket ++ (s.header.getHeaderData message.length).1
            header := (s.header.getHeaderData message.length).2
            thread := .payload message }
      | _ => none
  | .writePayload =>
      match s.thread with
      | .payload message => some { s with socket := s.socket ++ message, thread := .looking }
      | _ => none

/-- What the steps do, case by case. -/
inductive Steps (s : TCPSender) : Action → TCPSender → Prop
  | constructed : s.owner = .constructing → s.thread ≠ .crashed →
      Steps s .constructed { s with isClosed := false, owner := .running }
  | send {message : List UInt8} : s.owner = .running → ¬ s.Occupied →
      Steps s (.send message)
        { s with
          queue := s.queue ++ [message]
          sent := s.sent ++ [message]
          thread := notify s.thread }
  | close : s.owner = .running → ¬ s.Occupied →
      Steps s .close { s with isClosed := true, owner := .closing, thread := notify s.thread }
  | join : s.owner = .closing → s.thread = .done → Steps s .join { s with owner := .closed }
  | take {message : List UInt8} {rest : List (List UInt8)} :
      s.thread = .looking → s.queue = message :: rest →
      Steps s .look { s with queue := rest, thread := .header message }
  | wait : s.thread = .looking → s.queue = [] → s.isClosed = false →
      Steps s .look { s with thread := .blocked }
  | pass : s.thread = .looking → s.queue = [] → s.isClosed = true →
      Steps s .look { s with thread := .leaving }
  | leave : s.thread = .leaving → s.isClosed = true →
      Steps s .leave { s with thread := .done }
  | crash : s.thread = .leaving → s.isClosed = false →
      Steps s .leave { s with thread := .crashed }
  | rouse : s.thread = .blocked → Steps s .rouse { s with thread := .looking }
  | writeHeader {message : List UInt8} : s.thread = .header message →
      Steps s .writeHeader
        { s with
          socket := s.socket ++ (s.header.getHeaderData message.length).1
          header := (s.header.getHeaderData message.length).2
          thread := .payload message }
  | writePayload {message : List UInt8} : s.thread = .payload message →
      Steps s .writePayload { s with socket := s.socket ++ message, thread := .looking }

theorem step_cases {s t : TCPSender} {a : Action} (h : step s a = some t) : Steps s a t := by
  cases a with
  | constructed =>
      simp only [step] at h
      split at h
      · rename_i howner
        split_ifs at h with hcrashed
        exact Option.some.inj h ▸ .constructed howner hcrashed
      · cases h
  | send message =>
      simp only [step] at h
      split at h
      · rename_i howner
        split_ifs at h with hoccupied
        exact Option.some.inj h ▸ .send howner hoccupied
      · cases h
  | close =>
      simp only [step] at h
      split at h
      · rename_i howner
        split_ifs at h with hoccupied
        exact Option.some.inj h ▸ .close howner hoccupied
      · cases h
  | join =>
      simp only [step] at h
      split at h
      · rename_i howner hthread
        exact Option.some.inj h ▸ .join howner hthread
      · cases h
  | look =>
      simp only [step] at h
      split at h
      · rename_i hthread
        split at h
        · rename_i message rest hqueue
          exact Option.some.inj h ▸ .take hthread hqueue
        · rename_i hqueue
          obtain rfl := Option.some.inj h
          split_ifs with hclosed
          · exact .pass hthread hqueue hclosed
          · exact .wait hthread hqueue (Bool.eq_false_of_not_eq_true hclosed)
      · cases h
  | leave =>
      simp only [step] at h
      split at h
      · rename_i hthread
        obtain rfl := Option.some.inj h
        split_ifs with hclosed
        · exact .leave hthread hclosed
        · exact .crash hthread (Bool.eq_false_of_not_eq_true hclosed)
      · cases h
  | rouse =>
      simp only [step] at h
      split at h
      · rename_i hthread
        exact Option.some.inj h ▸ .rouse hthread
      · cases h
  | writeHeader =>
      simp only [step] at h
      split at h
      · rename_i message hthread
        exact Option.some.inj h ▸ .writeHeader hthread
      · cases h
  | writePayload =>
      simp only [step] at h
      split at h
      · rename_i message hthread
        exact Option.some.inj h ▸ .writePayload hthread
      · cases h

/-- The send thread looks at the flag before the constructor has written it. -/
def LooksTooEarly (s : TCPSender) : Action → Prop
  | .look => s.owner = .constructing
  | _ => False

/-- The message that the send thread is busy with. -/
def SendThread.inFlight : SendThread → List (List UInt8)
  | .header message | .payload message => [message]
  | _ => []

/-- What of its frame is written. -/
def SendThread.written : SendThread → List UInt8
  | .payload message => TCPHeader.header message.length TCPHeader.zeros
  | _ => []

/-- What holds as long as the thread has not looked too early. -/
structure Inv (s : TCPSender) : Prop where
  magic : s.header.data.take 4 = TCPHeader.magic
  zeros : s.header.data.drop 8 = TCPHeader.zeros
  /-- The messages are written, in flight, or in the queue, in this order. -/
  sending : Sending s.sent s.socket (SendThread.written s.thread)
    (SendThread.inFlight s.thread ++ s.queue)
  constructing : s.owner = .constructing →
    s.isClosed = true ∧ s.sent = [] ∧ s.thread = .looking
  running : s.owner = .running → s.isClosed = false
  /-- The thread ends only on an empty queue, and after `Close` has begun. -/
  done : s.thread = .done → s.queue = [] ∧ (s.owner = .closing ∨ s.owner = .closed)
  leaving : s.thread = .leaving → s.queue = [] ∧ s.owner = .closing ∧ s.isClosed = true
  uncrashed : s.thread ≠ .crashed
  closed : s.owner = .closed → s.thread = .done

/-- What holds once the thread has looked too early: it ends without writing anything. -/
def Lost (s : TCPSender) : Prop :=
  (s.thread = .leaving ∨ s.thread = .crashed ∨ s.thread = .done) ∧ s.socket = []

theorem inv_init : Inv init where
  magic := rfl
  zeros := rfl
  sending := Sending.start
  constructing := fun _ => ⟨rfl, rfl, rfl⟩
  running := by rintro ⟨⟩
  done := by rintro ⟨⟩
  leaving := by rintro ⟨⟩
  uncrashed := by rintro ⟨⟩
  closed := by rintro ⟨⟩

variable {s s' : TCPSender} {as : List Action}

theorem notify_inFlight (t : SendThread) :
    SendThread.inFlight (notify t) = SendThread.inFlight t := by
  cases t <;> rfl

theorem notify_written (t : SendThread) :
    SendThread.written (notify t) = SendThread.written t := by
  cases t <;> rfl

theorem notify_eq_done {t : SendThread} : notify t = .done ↔ t = .done := by
  cases t <;> simp [notify]

theorem notify_eq_leaving {t : SendThread} : notify t = .leaving ↔ t = .leaving := by
  cases t <;> simp [notify]

theorem notify_eq_crashed {t : SendThread} : notify t = .crashed ↔ t = .crashed := by
  cases t <;> simp [notify]

theorem step_inv {a : Action} (hs : Inv s) (ha : ¬ LooksTooEarly s a)
    (h : step s a = some s') : Inv s' := by
  have hsending := hs.sending
  -- a thread that still has something to do has not let `Close` return
  have hopen (hne : s.thread ≠ .done) {p : Prop} (hc : s.owner = .closed) : p :=
    absurd (hs.closed hc) hne
  cases step_cases h with
  | constructed howner =>
      have hthread := (hs.constructing howner).2.2
      refine ⟨hs.magic, hs.zeros, hsending, by rintro ⟨⟩, fun _ => rfl, fun hdone => ?_,
        fun hleaving => ?_, hs.uncrashed, by rintro ⟨⟩⟩
      · exact absurd (hthread.symm.trans hdone) (by simp)
      · exact absurd (hthread.symm.trans hleaving) (by simp)
  | @send message howner hoccupied =>
      refine ⟨hs.magic, hs.zeros, ?_, fun hc => ?_, hs.running, fun hdone => ?_, fun hleaving => ?_,
        notify_eq_crashed.not.2 hs.uncrashed, fun hc => ?_⟩
      · show Sending (s.sent ++ [message]) s.socket (SendThread.written (notify s.thread))
          (SendThread.inFlight (notify s.thread) ++ (s.queue ++ [message]))
        rw [notify_inFlight, notify_written, ← List.append_assoc]
        exact hsending.push message
      · exact absurd (howner.symm.trans hc) (by simp)
      · have hphase := (hs.done (notify_eq_done.1 hdone)).2
        rw [howner] at hphase
        exact absurd hphase (by simp)
      · exact absurd (Or.inl (notify_eq_leaving.1 hleaving)) hoccupied
      · exact absurd (howner.symm.trans hc) (by simp)
  | close howner hoccupied =>
      refine ⟨hs.magic, hs.zeros, ?_, by rintro ⟨⟩, by rintro ⟨⟩, fun hdone => ?_,
        fun hleaving => ?_, notify_eq_crashed.not.2 hs.uncrashed, by rintro ⟨⟩⟩
      · show Sending s.sent s.socket (SendThread.written (notify s.thread))
          (SendThread.inFlight (notify s.thread) ++ s.queue)
        rw [notify_inFlight, notify_written]
        exact hsending
      · exact ⟨(hs.done (notify_eq_done.1 hdone)).1, Or.inl rfl⟩
      · exact absurd (Or.inl (notify_eq_leaving.1 hleaving)) hoccupied
  | join howner hthread =>
      refine ⟨hs.magic, hs.zeros, hsending, by rintro ⟨⟩, by rintro ⟨⟩,
        fun hdone => ⟨(hs.done hdone).1, Or.inr rfl⟩, fun hleaving => ?_, hs.uncrashed,
        fun _ => hthread⟩
      exact absurd (hthread.symm.trans hleaving) (by simp)
  | take hthread hqueue =>
      rw [hthread, hqueue] at hsending
      exact ⟨hs.magic, hs.zeros, hsending, fun hc => absurd hc ha, hs.running, by rintro ⟨⟩,
        by rintro ⟨⟩, by simp, hopen (by simp [hthread])⟩
  | wait hthread hqueue _ =>
      rw [hthread] at hsending
      exact ⟨hs.magic, hs.zeros, hsending, fun hc => absurd hc ha, hs.running, by rintro ⟨⟩,
        by rintro ⟨⟩, by simp, hopen (by simp [hthread])⟩
  | pass hthread hqueue hclosed =>
      rw [hthread] at hsending
      refine ⟨hs.magic, hs.zeros, hsending, fun hc => absurd hc ha, hs.running, by rintro ⟨⟩,
        fun _ => ⟨hqueue, ?_, hclosed⟩, by simp, hopen (by simp [hthread])⟩
      -- the flag is set, and the constructor is over: `Close` has begun
      cases howner : s.owner with
      | constructing => exact absurd howner ha
      | running => exact absurd ((hs.running howner).symm.trans hclosed) (by simp)
      | closing => rfl
      | closed => exact absurd (hthread.symm.trans (hs.closed howner)) (by simp)
  | leave hthread hclosed =>
      obtain ⟨hqueue, howner, -⟩ := hs.leaving hthread
      rw [hthread] at hsending
      refine ⟨hs.magic, hs.zeros, hsending, fun hc => ?_, hs.running,
        fun _ => ⟨hqueue, Or.inl howner⟩, by rintro ⟨⟩, by simp, fun _ => rfl⟩
      exact absurd (howner.symm.trans hc) (by simp)
  | crash hthread hopen =>
      exact absurd ((hs.leaving hthread).2.2.symm.trans hopen) (by simp)
  | rouse hthread =>
      rw [hthread] at hsending
      exact ⟨hs.magic, hs.zeros, hsending,
        fun hc => ⟨(hs.constructing hc).1, (hs.constructing hc).2.1, rfl⟩, hs.running,
        by rintro ⟨⟩, by rintro ⟨⟩, by simp, hopen (by simp [hthread])⟩
  | @writeHeader message hthread =>
      have hget := TCPHeader.getHeaderData_eq hs.magic message.length
      rw [hs.zeros] at hget
      rw [hget]
      rw [hthread] at hsending
      refine ⟨TCPHeader.take_header _ _, TCPHeader.drop_header _ _, hsending.writeHeader,
        fun hc => ?_, hs.running, by rintro ⟨⟩, by rintro ⟨⟩, by simp, hopen (by simp [hthread])⟩
      exact absurd (hthread.symm.trans (hs.constructing hc).2.2) (by simp)
  | writePayload hthread =>
      rw [hthread] at hsending
      exact ⟨hs.magic, hs.zeros, hsending.writePayload,
        fun hc => ⟨(hs.constructing hc).1, (hs.constructing hc).2.1, rfl⟩, hs.running,
        by rintro ⟨⟩, by rintro ⟨⟩, by simp, hopen (by simp [hthread])⟩

/-- **A thread that looks too early goes no further**: it finds the queue empty and the flag set. -/
theorem step_early {a : Action} (hs : Inv s) (ha : LooksTooEarly s a)
    (h : step s a = some s') : Lost s' := by
  cases a with
  | look =>
      obtain ⟨hclosed, hsent, hthread⟩ := hs.constructing ha
      obtain ⟨done, hmessages, hsocket⟩ := hs.sending
      rw [hsent, hthread] at hmessages
      obtain ⟨rfl, hnil⟩ := List.append_eq_nil_iff.1 hmessages.symm
      replace hnil : s.queue = [] := hnil
      rw [hthread] at hsocket
      cases step_cases h with
      | take _ hqueue => exact absurd (hnil.symm.trans hqueue) (by simp)
      | wait _ _ hopen => exact absurd (hclosed.symm.trans hopen) (by simp)
      | pass => exact ⟨Or.inl rfl, hsocket⟩
  | _ => exact ha.elim

/-- Nothing is written any more. -/
theorem step_lost {a : Action} (hs : Lost s) (h : step s a = some s') : Lost s' := by
  obtain ⟨hthread, hsocket⟩ := hs
  have hlost {t : SendThread} (ht : s.thread = t) (hnot : t ≠ .leaving ∧ t ≠ .crashed ∧ t ≠ .done)
      {p : Prop} : p := by
    rw [ht] at hthread
    tauto
  cases step_cases h with
  | constructed | join => exact ⟨hthread, hsocket⟩
  | send | close =>
      refine ⟨?_, hsocket⟩
      show notify s.thread = .leaving ∨ notify s.thread = .crashed ∨ notify s.thread = .done
      rwa [notify_eq_leaving, notify_eq_crashed, notify_eq_done]
  | leave => exact ⟨Or.inr (Or.inr rfl), hsocket⟩
  | crash => exact ⟨Or.inr (Or.inl rfl), hsocket⟩
  | take ht | wait ht | pass ht | rouse ht | writeHeader ht | writePayload ht =>
      exact hlost ht (by simp)

/-- In every run the thread looked in time and nothing is lost, or it looked too early and all
is. -/
theorem run_inv (h : Transition.run step init as = some s) :
    (Transition.Meets step (fun s a => ¬ LooksTooEarly s a) init as ∧ Inv s) ∨
      (¬ Transition.Meets step (fun s a => ¬ LooksTooEarly s a) init as ∧ Lost s) := by
  induction as using List.reverseRecOn generalizing s with
  | nil =>
      obtain rfl := Option.some.inj h
      exact Or.inl ⟨trivial, inv_init⟩
  | append_singleton as a ih =>
      obtain ⟨u, hu, hstep⟩ := Transition.run_concat_eq_some.1 h
      rw [Transition.meets_concat]
      rcases ih hu with ⟨hmeets, hinv⟩ | ⟨hmeets, hlost⟩
      · by_cases hearly : LooksTooEarly u a
        · exact Or.inr ⟨fun hlast => hlast.2 u hu hearly, step_early hinv hearly hstep⟩
        · refine Or.inl ⟨⟨hmeets, fun v hv => ?_⟩, step_inv hinv hearly hstep⟩
          obtain rfl := Option.some.inj (hu.symm.trans hv)
          exact hearly
      · exact Or.inr ⟨fun hlast => hmeets hlast.1, step_lost hlost hstep⟩

/-- **What `Close` has written.**  In every run after which `Close` has returned: the socket carries
the frames of all messages, each once and in the order of the `Send` calls, if and only if the send
thread looked at the flag only after the constructor had written it, or there were no messages. -/
theorem all_written_iff (h : Transition.run step init as = some s) (hclosed : s.owner = .closed) :
    s.socket = wire s.sent ↔
      Transition.Meets step (fun s a => ¬ LooksTooEarly s a) init as ∨ s.sent = [] := by
  rcases run_inv h with ⟨hmeets, hinv⟩ | ⟨hmeets, hlost⟩
  · refine iff_of_true ?_ (Or.inl hmeets)
    have hdone := hinv.closed hclosed
    have hsending := hinv.sending
    rw [hdone, (hinv.done hdone).1] at hsending
    exact hsending.finish
  · rw [hlost.2]
    constructor
    · intro hwire
      by_contra hne
      exact wire_ne_nil (fun hsent => hne (Or.inr hsent)) hwire.symm
    · rintro (hmeets' | hsent)
      · exact absurd hmeets' hmeets
      · rw [hsent, wire_nil]

/-- Two messages, the second one queued while the first one is being written. -/
theorem all_written_iff_sample :
    ∃ s, Transition.run step init [.constructed, .look, .send [7], .look, .writeHeader, .send [],
        .close, .writePayload, .look, .writeHeader, .writePayload, .look, .leave, .join] =
          some s ∧
      s.owner = .closed ∧ s.socket = wire [[7], []] ∧
      (s.socket = wire s.sent ↔
        Transition.Meets step (fun s a => ¬ LooksTooEarly s a) init [.constructed, .look, .send [7],
          .look, .writeHeader, .send [], .close, .writePayload, .look, .writeHeader, .writePayload,
          .look, .leave, .join] ∨ s.sent = []) := by
  obtain ⟨s, h, hclosed, hsocket⟩ : ∃ s, Transition.run step init [.constructed, .look, .send [7],
      .look, .writeHeader, .send [], .close, .writePayload, .look, .writeHeader, .writePayload,
      .look, .leave, .join] = some s ∧ s.owner = .closed ∧ s.socket = wire [[7], []] :=
    ⟨_, rfl, rfl, rfl⟩
  exact ⟨s, h, hclosed, hsocket, all_written_iff h hclosed⟩

/-- **A thread that is faster than the constructor sends nothing.** -/
theorem nothing_written :
    ∃ s, Transition.run step init [.look, .leave, .constructed, .send [7], .close, .join] =
        some s ∧
      s.owner = .closed ∧ s.sent = [[7]] ∧ s.socket = [] ∧ s.socket ≠ wire s.sent :=
  ⟨_, rfl, rfl, rfl, rfl, by decide⟩

/-- One that is as fast takes the front of an empty queue. -/
example : (Transition.run step init [.look, .constructed, .leave]).map thread = some .crashed := rfl

end TCPSender

end Net
end BreUtils
