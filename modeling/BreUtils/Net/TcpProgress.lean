/-
# A link is never stuck

`Net.TcpLink` says that nothing is queued but what was sent.  Here is the other half: as long as the
connection is up, the threads of the two ends can always go on until every message that was passed
to `Send` is in the queue of the receiver, without any thread waking by itself.  A send thread that
sleeps has nothing to send (`Awake`), and one that has ended has left nothing; the bytes come in;
and where a frame has come in, the next turn of the receive thread takes it off.

The one thing that stops a link for good while the connection is up is a send thread that looked
too early (`can_enqueue_iff`).
-/

import BreUtils.Lib.Reaches
import BreUtils.Net.TcpLink

namespace BreUtils
namespace Net

open Lib

/-! ### The send thread -/

namespace TCPSender

/-- The send thread goes on, in time and not by a spurious wake-up. -/
def GoesOn (s : TCPSender) : Action → Prop
  | .look => s.owner ≠ .constructing
  | .leave | .writeHeader | .writePayload => True
  | _ => False

/-- Who sleeps has nothing to send. -/
def Awake (s : TCPSender) : Prop := s.thread = .blocked → s.queue = []

variable {s s' : TCPSender}

theorem notify_ne_blocked (thread : SendThread) : notify thread ≠ .blocked := by
  cases thread <;> simp [notify]

theorem step_awake {a : Action} (hs : Awake s) (h : step s a = some s') : Awake s' := by
  cases step_cases h with
  | constructed | join => exact hs
  | send | close => exact fun hblocked => absurd hblocked (notify_ne_blocked _)
  | wait _ hqueue => exact fun _ => hqueue
  | _ => rintro ⟨⟩

theorem step_owner {a : Action} (hc : a ≠ .constructed) (hclose : a ≠ .close) (hjoin : a ≠ .join)
    (h : step s a = some s') : s'.owner = s.owner := by
  cases step_cases h with
  | constructed => exact absurd rfl hc
  | close => exact absurd rfl hclose
  | join => exact absurd rfl hjoin
  | _ => rfl

theorem step_constructed (h : step s .constructed = some s') :
    s'.owner = .running ∧ s'.sent = s.sent := by
  cases step_cases h with
  | constructed => exact ⟨rfl, rfl⟩

theorem step_send {message : List UInt8} (h : step s (.send message) = some s') :
    s'.owner = s.owner ∧ s'.sent = s.sent ++ [message] := by
  cases step_cases h with
  | send => exact ⟨rfl, rfl⟩

/-- How much the send thread has still to do. -/
def work (s : TCPSender) : ℕ :=
  3 * s.queue.length +
    match s.thread with
    | .header _ => 2
    | .payload _ => 1
    | _ => 0

/-- What a link needs of its sender. -/
structure Healthy (s : TCPSender) : Prop where
  inv : Inv s
  awake : Awake s

theorem healthy_init : Healthy init := ⟨inv_init, by rintro ⟨⟩⟩

theorem step_healthy {a : Action} (hs : Healthy s) (ha : ¬ LooksTooEarly s a)
    (h : step s a = some s') : Healthy s' :=
  ⟨step_inv hs.inv ha h, step_awake hs.awake h⟩

/-- What the send thread leaves alone. -/
theorem goesOn_same {a : Action} (ha : GoesOn s a) (h : step s a = some s') :
    s'.sent = s.sent ∧ s'.owner = s.owner := by
  cases step_cases h with
  | constructed | send | close | join | rouse => exact ha.elim
  | _ => exact ⟨rfl, rfl⟩

/-- **Short of the end, the send thread goes on**, and has less to do after it. -/
theorem Healthy.goesOn (hs : Healthy s) (hopen : s.socket ≠ wire s.sent) :
    ∃ a t, GoesOn s a ∧ step s a = some t ∧ work t < work s := by
  have hsending := hs.inv.sending
  -- a thread at rest has written everything
  have hfinished (hqueue : s.queue = []) (hflight : SendThread.inFlight s.thread = [])
      (hpart : SendThread.written s.thread = []) : False := by
    rw [hflight, hpart, hqueue] at hsending
    exact hopen hsending.finish
  cases hthread : s.thread with
  | looking =>
      cases hqueue : s.queue with
      | nil => exact (hfinished hqueue (by rw [hthread]; rfl) (by rw [hthread]; rfl)).elim
      | cons message rest =>
          refine ⟨.look, { s with queue := rest, thread := .header message }, fun howner => ?_,
            by simp [step, hthread, hqueue], ?_⟩
          · obtain ⟨done, hsent, -⟩ := hsending
            rw [(hs.inv.constructing howner).2.1, hqueue] at hsent
            exact absurd hsent.symm (by simp)
          · simp only [work, hthread, hqueue, List.length_cons]
            omega
  | blocked =>
      exact (hfinished (hs.awake hthread) (by rw [hthread]; rfl) (by rw [hthread]; rfl)).elim
  | header message =>
      refine ⟨.writeHeader, { s with
        socket := s.socket ++ (s.header.getHeaderData message.length).1
        header := (s.header.getHeaderData message.length).2
        thread := .payload message }, trivial, by simp [step, hthread], ?_⟩
      simp only [work, hthread]
      omega
  | payload message =>
      refine ⟨.writePayload, { s with socket := s.socket ++ message, thread := .looking }, trivial,
        by simp [step, hthread], ?_⟩
      simp only [work, hthread]
      omega
  | leaving =>
      exact (hfinished (hs.inv.leaving hthread).1 (by rw [hthread]; rfl)
        (by rw [hthread]; rfl)).elim
  | done =>
      exact (hfinished (hs.inv.done hthread).1 (by rw [hthread]; rfl) (by rw [hthread]; rfl)).elim
  | crashed => exact absurd hthread hs.inv.uncrashed

/-- **The send thread can write all there is.** -/
theorem Healthy.drains (hs : Healthy s) :
    ∃ t, Transition.Reaches step GoesOn s t ∧ Healthy t ∧ t.sent = s.sent ∧ t.owner = s.owner ∧
      t.socket = wire t.sent := by
  obtain ⟨t, hst, ⟨ht, hsent, howner⟩, hsocket⟩ := Transition.exists_of_descent
    (I := fun t => Healthy t ∧ t.sent = s.sent ∧ t.owner = s.owner) work
    (fun t ⟨ht, hsent, howner⟩ hopen => by
      obtain ⟨a, u, ha, hstep, hless⟩ := ht.goesOn hopen
      have htime : ¬ LooksTooEarly t a := by
        cases a with
        | look => exact ha
        | _ => exact id
      obtain ⟨hsame, hsame'⟩ := goesOn_same ha hstep
      exact ⟨u, .single ha hstep,
        ⟨step_healthy ht htime hstep, hsame.trans hsent, hsame'.trans howner⟩, hless⟩)
    ⟨hs, rfl, rfl⟩
  exact ⟨t, hst, ht, hsent, howner, hsocket⟩

end TCPSender

/-! ### The link -/

namespace TCPReceiver

variable {r r' : TCPReceiver}

theorem readError_isClosed : (readError r).2.isClosed = r.isClosed := by
  unfold readError startConnect
  split_ifs
  · rfl
  · split <;> rfl

theorem readDataFromSocket_isClosed : (readDataFromSocket r).2.isClosed = r.isClosed := by
  unfold readDataFromSocket
  dsimp only
  split_ifs
  · rfl
  · unfold readPayload
    split_ifs
    · rfl
    · rfl
    · rfl
    · exact readError_isClosed
  · exact readError_isClosed

/-- A turn does not close the receiver. -/
theorem turn_isClosed (h : r.step .turn = some r') : r'.isClosed = r.isClosed := by
  simp only [step] at h
  split_ifs at h
  rw [← readDataFromSocket_isClosed (r := r)]
  split at h
  · rename_i heq
    obtain rfl := Option.some.inj h
    rw [heq]
  · rename_i heq
    obtain rfl := Option.some.inj h
    rw [heq]
  · cases h
  · cases h

end TCPReceiver

namespace TcpLink

/-- The send thread goes on, bytes come in, or the receive thread reads. -/
def GoesOn (l : TcpLink) : Action → Prop
  | .sender a => TCPSender.GoesOn l.sender a
  | .arrive _ | .turn => True
  | _ => False

/-- What ends a link, or stops it. -/
def Breaks (l : TcpLink) : Action → Prop
  | .hangUp _ => True
  | a => LooksTooEarly l a

/-- A link that nothing has stopped. -/
structure Healthy (l : TcpLink) : Prop where
  inv : Inv l
  sender : TCPSender.Healthy l.sender
  up : l.up = true

variable {l l' : TcpLink} {as : List Action}

theorem healthy_init : Healthy init := ⟨inv_init, TCPSender.healthy_init, rfl⟩

/-- What a step does to the connection and to the sender. -/
theorem sender_cases {a : Action} (h : step l a = some l') :
    ((∃ failed, a = .hangUp failed) ∧ l'.up = false) ∨
      l'.up = l.up ∧
        (l'.sender = l.sender ∨ (∃ b, a = .sender b ∧ l.sender.step b = some l'.sender) ∨
          l.up = false) := by
  cases a with
  | sender b =>
      obtain ⟨sender, hsender, rfl⟩ := Option.map_eq_some_iff.1 h
      exact Or.inr ⟨rfl, Or.inr (Or.inl ⟨b, rfl, hsender⟩)⟩
  | writeFails =>
      simp only [step] at h
      split_ifs at h with hup
      have hdown := Bool.eq_false_of_not_eq_true hup
      split at h
      · exact Or.inr (Option.some.inj h ▸ ⟨rfl, Or.inr (Or.inr hdown)⟩)
      · exact Or.inr (Option.some.inj h ▸ ⟨rfl, Or.inr (Or.inr hdown)⟩)
      · cases h
  | hangUp failed =>
      simp only [step] at h
      split_ifs at h
      exact Or.inl ⟨⟨failed, rfl⟩, Option.some.inj h ▸ rfl⟩
  | turn =>
      simp only [step] at h
      split_ifs at h
      obtain ⟨receiver, -, rfl⟩ := Option.map_eq_some_iff.1 h
      exact Or.inr ⟨rfl, Or.inl rfl⟩
  | closeReceiver => exact Or.inr (Option.some.inj h ▸ ⟨rfl, Or.inl rfl⟩)
  | arrive =>
      simp only [step] at h
      split_ifs at h
      exact Or.inr (Option.some.inj h ▸ ⟨rfl, Or.inl rfl⟩)

/-- A connection that is up was up, and its sender has stayed or made a step of its own. -/
theorem sender_of_up {a : Action} (h : step l a = some l') (hup : l'.up = true) :
    l.up = true ∧
      (l'.sender = l.sender ∨ ∃ b, a = .sender b ∧ l.sender.step b = some l'.sender) := by
  rcases sender_cases h with ⟨-, hdown⟩ | ⟨hsame, hsender⟩
  · rw [hup] at hdown
    cases hdown
  · have hbefore : l.up = true := hsame ▸ hup
    exact ⟨hbefore, hsender.imp_right fun h => h.resolve_right (by simp [hbefore])⟩

/-- What a step does to the flag of the receiver. -/
theorem step_isClosed {a : Action} (ha : a ≠ .closeReceiver) (h : step l a = some l') :
    l'.receiver.isClosed = l.receiver.isClosed := by
  cases a with
  | sender b =>
      obtain ⟨sender, hsender, rfl⟩ := Option.map_eq_some_iff.1 h
      rfl
  | writeFails =>
      simp only [step] at h
      split_ifs at h
      split at h
      · exact Option.some.inj h ▸ rfl
      · exact Option.some.inj h ▸ rfl
      · cases h
  | turn =>
      simp only [step] at h
      split_ifs at h
      obtain ⟨receiver, hturn, rfl⟩ := Option.map_eq_some_iff.1 h
      exact TCPReceiver.turn_isClosed hturn
  | closeReceiver => exact absurd rfl ha
  | hangUp | arrive =>
      simp only [step] at h
      split_ifs at h
      exact Option.some.inj h ▸ rfl

/-- **Nothing but a break stops a link.** -/
theorem step_healthy {a : Action} (hshort : ∀ message ∈ l.sender.sent, message.length < 2 ^ 31)
    (hl : Healthy l) (ha : ¬ Breaks l a) (h : step l a = some l') : Healthy l' := by
  have hup : l'.up = true := by
    rcases sender_cases h with ⟨⟨failed, rfl⟩, -⟩ | ⟨hsame, -⟩
    · exact absurd trivial ha
    · exact hsame.trans hl.up
  rcases (sender_of_up h hup).2 with hsame | ⟨b, rfl, hsender⟩
  · exact ⟨step_inv hshort hl.inv h, hsame ▸ hl.sender, hup⟩
  · exact ⟨step_inv hshort hl.inv h, TCPSender.step_healthy hl.sender ha hsender, hup⟩

/-- What the threads of the link leave alone. -/
structure Same (l l' : TcpLink) : Prop where
  sent : l'.sender.sent = l.sender.sent
  owner : l'.sender.owner = l.sender.owner
  isClosed : l'.receiver.isClosed = l.receiver.isClosed

theorem Same.refl (l : TcpLink) : Same l l := ⟨rfl, rfl, rfl⟩

theorem Same.trans {l'' : TcpLink} (h : Same l l') (h' : Same l' l'') : Same l l'' :=
  ⟨h'.sent.trans h.sent, h'.owner.trans h.owner, h'.isClosed.trans h.isClosed⟩

theorem not_breaks_of_goesOn {a : Action} (ha : GoesOn l a) : ¬ Breaks l a := by
  cases a with
  | sender b =>
      cases b with
      | look => exact ha
      | _ => exact id
  | arrive | turn => exact id
  | writeFails | hangUp | closeReceiver => exact ha.elim

theorem same_of_goesOn {a : Action} (ha : GoesOn l a) (h : step l a = some l') : Same l l' := by
  cases a with
  | sender b =>
      obtain ⟨sender, hsender, rfl⟩ := Option.map_eq_some_iff.1 h
      obtain ⟨hsent, howner⟩ := TCPSender.goesOn_same ha hsender
      exact ⟨hsent, howner, rfl⟩
  | arrive n =>
      simp only [step] at h
      split_ifs at h
      exact Option.some.inj h ▸ ⟨rfl, rfl, rfl⟩
  | turn =>
      simp only [step] at h
      split_ifs at h
      obtain ⟨receiver, hturn, rfl⟩ := Option.map_eq_some_iff.1 h
      exact ⟨rfl, rfl, TCPReceiver.turn_isClosed hturn⟩
  | writeFails | hangUp | closeReceiver => exact ha.elim

/-- **What is left of a link whose threads have gone on.** -/
theorem Healthy.reaches (hl : Healthy l)
    (hshort : ∀ message ∈ l.sender.sent, message.length < 2 ^ 31)
    (h : Transition.Reaches step GoesOn l l') : Healthy l' ∧ Same l l' :=
  h.invariant (I := fun t => Healthy t ∧ Same l t)
    (fun _ _ _ ⟨ht, hsame⟩ ha hstep =>
      ⟨step_healthy (hsame.sent ▸ hshort) ht (not_breaks_of_goesOn ha) hstep,
        hsame.trans (same_of_goesOn ha hstep)⟩) ⟨hl, Same.refl l⟩

/-- The send thread writes all there is. -/
theorem Healthy.drains (hl : Healthy l) : ∃ l', Transition.Reaches step GoesOn l l' ∧
    l'.sender.socket = wire l'.sender.sent := by
  obtain ⟨s, hreaches, -, -, -, hsocket⟩ := hl.sender.drains
  exact ⟨{ l with sender := s }, hreaches.lift (f := fun s => { l with sender := s })
    (g := Action.sender) fun u a t ha ht => ⟨ha, by simp only [step, ht, Option.map_some]⟩, hsocket⟩

/-- All that is written comes in. -/
theorem Healthy.arrives (hl : Healthy l) : ∃ l', Transition.Reaches step GoesOn l l' ∧
    l'.sender = l.sender ∧ l'.arrived = l'.sender.socket.length := by
  have harrived := hl.inv.arrived
  have hstep : step l (.arrive (l.sender.socket.length - l.arrived)) =
      some (arrive l (l.sender.socket.length - l.arrived)) := if_pos ⟨hl.up, by omega⟩
  refine ⟨_, .single (a := .arrive _) trivial hstep, rfl, ?_⟩
  show l.arrived + (l.sender.socket.length - l.arrived) = l.sender.socket.length
  omega

/-- What is there of a link whose bytes have all come in: the frames of the messages that have not
been read. -/
theorem Healthy.bytes (hl : Healthy l) (hsocket : l.sender.socket = wire l.sender.sent)
    (harrived : l.arrived = l.sender.socket.length) : ∃ done rest, l.sender.sent = done ++ rest ∧
      l.receiver.enqueued = nonempty done ∧ l.receiver.socket.bytes = wire rest := by
  obtain ⟨done, rest, hsent, henqueued, -, hread⟩ := hl.inv.read
  refine ⟨done, rest, hsent, henqueued, ?_⟩
  have hall := hread hl.up
  rw [harrived, List.take_length, hsocket, hsent, wire_append] at hall
  exact List.append_cancel_left hall

/-- **A frame that has come in is read by the next turn.** -/
theorem turns_of_frame {message : List UInt8} {rest : List (List UInt8)}
    (hopen : l.receiver.isClosed = false) (hmessage : message.length < 2 ^ 31)
    (hbytes : l.receiver.socket.bytes = wire (message :: rest)) :
    ∃ l', step l .turn = some l' ∧ l'.sender = l.sender ∧ l'.arrived = l.arrived ∧
      l'.receiver.socket.bytes.length < l.receiver.socket.bytes.length := by
  rw [wire_cons, ← List.append_assoc] at hbytes
  obtain ⟨hcomplete, header, hread⟩ := read_frame hmessage hbytes
  obtain ⟨r, hturn, hrest⟩ : ∃ r, l.receiver.step .turn = some r ∧ r.socket.bytes = wire rest := by
    simp only [TCPReceiver.step, hopen, hread]
    exact ⟨_, rfl, rfl⟩
  refine ⟨{ l with receiver := r }, ?_, rfl, rfl, ?_⟩
  · simp only [step]
    rw [if_neg fun h => h.2 hcomplete, hturn, Option.map_some]
  · show r.socket.bytes.length < l.receiver.socket.bytes.length
    have hheader := TCPHeader.length_header message.length TCPHeader.zeros
    have hpositive : 0 < TCPHeader.headerSize := by decide
    rw [hrest, hbytes, List.length_append, List.length_append, hheader]
    omega

/-- **All that has come in is read.** -/
theorem Healthy.reads (hl : Healthy l) (hopen : l.receiver.isClosed = false)
    (hshort : ∀ message ∈ l.sender.sent, message.length < 2 ^ 31)
    (hsocket : l.sender.socket = wire l.sender.sent)
    (harrived : l.arrived = l.sender.socket.length) :
    ∃ l', Transition.Reaches step GoesOn l l' ∧ l'.receiver.enqueued = nonempty l'.sender.sent := by
  obtain ⟨l', hreaches, -, henqueued⟩ : ∃ l', Transition.Reaches step GoesOn l l' ∧
      (Healthy l' ∧ Same l l' ∧ l'.sender = l.sender ∧ l'.arrived = l.arrived) ∧
      l'.receiver.enqueued = nonempty l'.sender.sent := Transition.exists_of_descent
    (fun t => t.receiver.socket.bytes.length)
    (fun t ⟨ht, hsame, hsender, harrived'⟩ hunread => by
      obtain ⟨done, rest, hsent, henqueued, hbytes⟩ :=
        ht.bytes (by rw [hsender]; exact hsocket) (by rw [harrived', hsender]; exact harrived)
      cases rest with
      | nil => exact absurd (by rw [henqueued, hsent, List.append_nil]) hunread
      | cons message rest =>
          have hmessage : message.length < 2 ^ 31 :=
            hshort message (by rw [← hsame.sent, hsent]; simp)
          obtain ⟨u, hstep, hsender', harrived'', hless⟩ :=
            turns_of_frame (hsame.isClosed.trans hopen) hmessage hbytes
          have hgoes : GoesOn t .turn := trivial
          exact ⟨u, .single hgoes hstep,
            ⟨step_healthy (hsame.sent ▸ hshort) ht id hstep,
              hsame.trans (same_of_goesOn hgoes hstep), hsender'.trans hsender,
              harrived''.trans harrived'⟩, hless⟩) ⟨hl, Same.refl l, rfl, rfl⟩
  exact ⟨l', hreaches, henqueued⟩

/-- **The threads of a healthy link can bring over all that was sent.** -/
theorem Healthy.enqueues (hl : Healthy l) (hopen : l.receiver.isClosed = false)
    (hshort : ∀ message ∈ l.sender.sent, message.length < 2 ^ 31) :
    ∃ l', Transition.Reaches step GoesOn l l' ∧ Healthy l' ∧ Same l l' ∧
      l'.receiver.enqueued = nonempty l'.sender.sent := by
  obtain ⟨l₁, h₁, hsocket⟩ := hl.drains
  obtain ⟨hl₁, hsame₁⟩ := hl.reaches hshort h₁
  obtain ⟨l₂, h₂, hsender, harrived⟩ := hl₁.arrives
  obtain ⟨hl₂, hsame₂⟩ := hl₁.reaches (hsame₁.sent ▸ hshort) h₂
  obtain ⟨l₃, h₃, henqueued⟩ := hl₂.reads ((hsame₁.trans hsame₂).isClosed.trans hopen)
    ((hsame₁.trans hsame₂).sent ▸ hshort) (hsender ▸ hsocket) harrived
  have hall := h₁.trans (h₂.trans h₃)
  obtain ⟨hl₃, hsame⟩ := hl.reaches hshort hall
  exact ⟨l₃, hall, hl₃, hsame, henqueued⟩

/-! ### What stops a link -/

/-- The threads of the link can bring every message into the queue. -/
def CanEnqueue (l : TcpLink) : Prop :=
  ∃ l', Transition.Reaches step GoesOn l l' ∧
    l'.sender.sent = l.sender.sent ∧ l'.receiver.enqueued = nonempty l'.sender.sent

theorem Healthy.canEnqueue (hl : Healthy l) (hopen : l.receiver.isClosed = false)
    (hshort : ∀ message ∈ l.sender.sent, message.length < 2 ^ 31) : CanEnqueue l := by
  obtain ⟨l', h, -, hsame, henqueued⟩ := hl.enqueues hopen hshort
  exact ⟨l', h, hsame.sent, henqueued⟩

/-- In every run that leaves the connection up, the send thread looked in time and goes on, or it
looked too early and has ended. -/
theorem run_sender (h : Transition.run step init as = some l) (hup : l.up = true) :
    (Transition.Meets step (fun l a => ¬ LooksTooEarly l a) init as ∧
        TCPSender.Healthy l.sender) ∨
      ¬ Transition.Meets step (fun l a => ¬ LooksTooEarly l a) init as ∧
        TCPSender.Lost l.sender := by
  induction as using List.reverseRecOn generalizing l with
  | nil =>
      obtain rfl := Option.some.inj h
      exact Or.inl ⟨trivial, TCPSender.healthy_init⟩
  | append_singleton as a ih =>
      obtain ⟨u, hu, hstep⟩ := Transition.run_concat_eq_some.1 h
      obtain ⟨hbefore, hsender⟩ := sender_of_up hstep hup
      rw [Transition.meets_concat]
      rcases ih hu hbefore with ⟨hmeets, hhealthy⟩ | ⟨hmeets, hlost⟩
      · by_cases hearly : LooksTooEarly u a
        · refine Or.inr ⟨fun h => h.2 u hu hearly, ?_⟩
          cases a with
          | sender b =>
              obtain ⟨sender, hstep', rfl⟩ := Option.map_eq_some_iff.1 hstep
              exact TCPSender.step_early hhealthy.inv hearly hstep'
          | _ => exact hearly.elim
        · refine Or.inl ⟨⟨hmeets, fun v hv => ?_⟩, ?_⟩
          · obtain rfl := Option.some.inj (hu.symm.trans hv)
            exact hearly
          · rcases hsender with hsame | ⟨b, rfl, hstep'⟩
            · exact hsame ▸ hhealthy
            · exact TCPSender.step_healthy hhealthy hearly hstep'
      · refine Or.inr ⟨fun h => hmeets h.1, ?_⟩
        rcases hsender with hsame | ⟨b, -, hstep'⟩
        · exact hsame ▸ hlost
        · exact TCPSender.step_lost hlost hstep'

/-- A sender that is lost has written nothing, so nothing was read. -/
theorem enqueued_of_lost (hl : Inv l) (hlost : TCPSender.Lost l.sender) :
    l.receiver.enqueued = [] := by
  obtain ⟨done, rest, -, henqueued, hbeginning, -⟩ := hl.read
  rw [hlost.2, List.take_nil, List.prefix_nil, List.append_eq_nil_iff] at hbeginning
  have hdone : done = [] := by
    by_contra hne
    exact wire_ne_nil hne hbeginning.1
  rw [henqueued, hdone]
  rfl

/-- And it stays so, whatever the threads do. -/
theorem lost_of_reaches (hl : Inv l) (hlost : TCPSender.Lost l.sender) (hup : l.up = true)
    (hshort : ∀ message ∈ l.sender.sent, message.length < 2 ^ 31)
    (h : Transition.Reaches step GoesOn l l') : l'.receiver.enqueued = [] := by
  obtain ⟨hinv, hlost', -⟩ := h.invariant
    (I := fun t => Inv t ∧ TCPSender.Lost t.sender ∧ t.up = true ∧ t.sender.sent = l.sender.sent)
    (fun t a u ⟨ht, hlost, hup, hsent⟩ ha hstep => by
      have hup' : u.up = true := by
        rcases sender_cases hstep with ⟨⟨failed, rfl⟩, -⟩ | ⟨hsame, -⟩
        · exact ha.elim
        · exact hsame.trans hup
      refine ⟨step_inv (hsent ▸ hshort) ht hstep, ?_, hup',
        (same_of_goesOn ha hstep).sent.trans hsent⟩
      rcases (sender_of_up hstep hup').2 with hsame | ⟨b, -, hsender⟩
      · exact hsame ▸ hlost
      · exact TCPSender.step_lost hlost hsender) ⟨hl, hlost, hup, rfl⟩
  exact enqueued_of_lost hinv hlost'

end TcpLink

end Net
end BreUtils
