/-
# The key exchange comes to its end

`Net.EchoGate` says that two gates agree when the one with `m_is_sender` returns.  Whether it
returns is another question, for almost any fault keeps it waiting for good: there is no timeout,
and a message that is lost is not sent again.  But without a fault the exchange cannot get stuck:
wherever the two calls of `GetAESKey`, the four threads and the two connections are, they can go on
to where both calls have returned (`can_agree`).

A fault is a connection that cannot be made or ends, a send thread that looks at its flag too early,
an encryption that yields nothing, or a push of a receive thread that clashes with a `Get`.
-/

import BreUtils.Net.EchoGate
import BreUtils.Net.TcpProgress

namespace BreUtils
namespace Net
namespace EchoGates

open Crypto Lib

variable {Key Chance : Type*} (ssl : RsaSSL Key Chance)

/-- A step that keeps the exchange from coming to its end. -/
def Fault (s : EchoGates Key) : Action Chance → Prop
  | .connectFails | .connectBackFails | .clashForth | .clashBack => True
  | .sendKey chance => s.receiverRsa.encrypt ssl chance s.aesKey = []
  | .sendIv chance => s.receiverRsa.encrypt ssl chance s.aesIv = []
  | .onForth a => ∃ l, s.forth = some l ∧ TcpLink.Breaks l a
  | .onBack a => ∃ l, s.back = some l ∧ TcpLink.Breaks l a
  | _ => False

/-- The other gate has connected back. -/
def HasConnected : ReceiverPhase → Prop
  | .constructing | .sendKey | .sendIv | .returning | .returned => True
  | _ => False

/-- Where the two gates are together, as long as there is no fault. -/
inductive Paired : SenderPhase → ReceiverPhase → Prop
  | connecting : Paired .connecting .accepting
  | constructing : Paired .constructing .getPublicKey
  | sending : Paired .sending .getPublicKey
  | accepting : Paired .accepting .getPublicKey
  | connectingBack : Paired .accepting .connecting
  | connected {sender : SenderPhase} {receiver : ReceiverPhase} :
      HasAccepted sender → HasConnected receiver → Paired sender receiver

theorem Paired.of_constructing {receiver : ReceiverPhase} (h : Paired .constructing receiver) :
    receiver = .getPublicKey := by
  cases h with
  | constructing => rfl
  | connected haccepted => exact haccepted.elim

theorem Paired.of_sending {receiver : ReceiverPhase} (h : Paired .sending receiver) :
    receiver = .getPublicKey := by
  cases h with
  | sending => rfl
  | connected haccepted => exact haccepted.elim

/-- Once the other gate has connected back, this one has accepted. -/
theorem Paired.accepted {sender : SenderPhase} {receiver : ReceiverPhase}
    (h : Paired sender receiver) (hconnected : HasConnected receiver) : HasAccepted sender := by
  cases h with
  | connected haccepted => exact haccepted
  | _ => exact hconnected.elim

theorem Paired.hasConnected {sender : SenderPhase} {receiver : ReceiverPhase}
    (h : Paired sender receiver) (haccepted : HasAccepted sender) : HasConnected receiver := by
  cases h with
  | connected _ hconnected => exact hconnected
  | _ => exact haccepted.elim

/-- The link forth is where the gates are. -/
structure FitsForth (sender : SenderPhase) (receiver : ReceiverPhase) (l : TcpLink) : Prop where
  healthy : TcpLink.Healthy l
  constructing : sender = .constructing → l.sender.owner = .constructing
  sending : sender = .sending → l.sender.owner = .running
  isOpen : receiver = .getPublicKey → l.receiver.isClosed = false

/-- The link back is. -/
structure FitsBack (sender : SenderPhase) (receiver : ReceiverPhase) (l : TcpLink) : Prop where
  healthy : TcpLink.Healthy l
  constructing : receiver = .constructing → l.sender.owner = .constructing
  sending : receiver = .sendKey ∨ receiver = .sendIv → l.sender.owner = .running
  isOpen : isReturned sender = false → l.receiver.isClosed = false
  nonempty : ∀ message ∈ l.sender.sent, message ≠ []

/-- The exchange, as long as there is no fault. -/
structure Sound (s : EchoGates Key) : Prop where
  paired : Paired s.sender s.receiver
  forth : s.sender ≠ .connecting → ∃ l, s.forth = some l ∧ FitsForth s.sender s.receiver l
  back : HasConnected s.receiver → ∃ l, s.back = some l ∧ FitsBack s.sender s.receiver l
  unclashed : s.clashed = false

theorem FitsForth.of_receiver {sender : SenderPhase} {receiver : ReceiverPhase} {l : TcpLink}
    (h : FitsForth sender receiver l) {phase : ReceiverPhase} (hphase : phase ≠ .getPublicKey) :
    FitsForth sender phase l :=
  ⟨h.healthy, h.constructing, h.sending, fun heq => absurd heq hphase⟩

theorem FitsForth.of_accepted {sender : SenderPhase} {receiver : ReceiverPhase} {l : TcpLink}
    (h : FitsForth sender receiver l) (phase : SenderPhase) (hphase : HasAccepted phase) :
    FitsForth phase receiver l := by
  refine ⟨h.healthy, ?_, ?_, h.isOpen⟩
  · rintro rfl
    exact hphase.elim
  · rintro rfl
    exact hphase.elim

/-! ### What a step of a link keeps -/

section

variable {l l' : TcpLink}

theorem owner_of_step {a : TcpLink.Action} (hup : l.up = true) (hc : a ≠ .sender .constructed)
    (hclose : a ≠ .sender .close) (hjoin : a ≠ .sender .join) (h : l.step a = some l') :
    l'.sender.owner = l.sender.owner := by
  rcases TcpLink.sender_cases h with ⟨⟨failed, rfl⟩, -⟩ | ⟨-, hsame | ⟨b, rfl, hsender⟩ | hdown⟩
  · simp only [TcpLink.step, hup] at h
    obtain rfl := Option.some.inj h
    rfl
  · rw [hsame]
  · exact TCPSender.step_owner (fun h => hc (h ▸ rfl)) (fun h => hclose (h ▸ rfl))
      (fun h => hjoin (h ▸ rfl)) hsender
  · rw [hup] at hdown
    cases hdown

/-- What the threads of a link do without the two calls. -/
theorem background_keeps {senderReturned receiverReturned : Bool} {a : TcpLink.Action}
    (hl : TcpLink.Healthy l) (hshort : Short l.sender.sent) (ha : ¬ TcpLink.Breaks l a)
    (hfree : Free senderReturned receiverReturned a = true) (h : l.step a = some l') :
    TcpLink.Healthy l' ∧ l'.sender.sent = l.sender.sent ∧
      (senderReturned = false → l'.sender.owner = l.sender.owner) ∧
      (receiverReturned = false → l'.receiver.isClosed = l.receiver.isClosed) := by
  refine ⟨TcpLink.step_healthy hshort hl ha h, TcpLink.step_unsent (free_unsent hfree) h, ?_, ?_⟩
  · rintro rfl
    refine owner_of_step hl.up ?_ ?_ ?_ h
    · rintro rfl
      cases hfree
    · rintro rfl
      cases hfree
    · rintro rfl
      cases hfree
  · rintro rfl
    refine TcpLink.step_isClosed ?_ h
    rintro rfl
    cases hfree

/-- What a call on the sender does. -/
theorem call_keeps {b : TCPSender.Action} (hl : TcpLink.Healthy l) (hshort : Short l.sender.sent)
    (hb : b ≠ .look) (h : l.step (.sender b) = some l') :
    TcpLink.Healthy l' ∧ l'.receiver = l.receiver := by
  have ha : ¬ TcpLink.Breaks l (.sender b) := by
    cases b with
    | look => exact absurd rfl hb
    | _ => exact id
  obtain ⟨sender, -, rfl⟩ := Option.map_eq_some_iff.1 h
  exact ⟨TcpLink.step_healthy hshort hl ha h, rfl⟩

end

variable {ssl} {p : KeyPair ssl} {aesKey aesIv : List UInt8} {s s' : EchoGates Key}

theorem sound_init (receiverRsa : RSA Key) :
    Sound (init ⟨some p.pair⟩ receiverRsa aesKey aesIv) where
  paired := .connecting
  forth := fun h => absurd rfl h
  back := by rintro ⟨⟩
  unclashed := rfl

/-- The messages of the link forth are short. -/
theorem short_forth {l : TcpLink} (hs : Inv (some p) aesKey aesIv s) (hl : s.forth = some l) :
    Short l.sender.sent := by
  rw [(hs.forth l hl).sent_eq]
  exact short_publicKey hs.senderRsa _

theorem short_back {l : TcpLink} (hs : Inv (some p) aesKey aesIv s) (hl : s.back = some l) :
    Short l.sender.sent := by
  obtain ⟨hkey, sent, hlink, hsent, -⟩ := hs.back l hl
  obtain ⟨q, -, hrsa⟩ := hs.receiverRsa hkey
  rw [hlink.sent_eq]
  exact short_ciphertexts (hrsa ▸ hsent)

/-- The link forth after a call on its sender. -/
theorem Sound.call_forth {forth : Option TcpLink} {b : TCPSender.Action}
    (hs : Inv (some p) aesKey aesIv s) (hsound : Sound s) (hsender : s.sender ≠ .connecting)
    (hb : b ≠ .look) (h : call s.forth b = some forth) :
    ∃ l l', s.forth = some l ∧ FitsForth s.sender s.receiver l ∧ forth = some l' ∧
      l.sender.step b = some l'.sender ∧ TcpLink.Healthy l' ∧ l'.receiver = l.receiver := by
  obtain ⟨l, hl, hfits⟩ := hsound.forth hsender
  rcases call_eq_some h with ⟨hnone, -⟩ | ⟨l₁, l', hl₁, hstep, rfl⟩
  · rw [hl] at hnone
    cases hnone
  · obtain rfl := Option.some.inj (hl.symm.trans hl₁)
    obtain ⟨hhealthy, hreceiver⟩ := call_keeps hfits.healthy (short_forth hs hl) hb hstep
    obtain ⟨sender, hstep', rfl⟩ := Option.map_eq_some_iff.1 hstep
    exact ⟨l, _, hl, hfits, rfl, hstep', hhealthy, hreceiver⟩

/-- The link back after one. -/
theorem Sound.call_back {back : Option TcpLink} {b : TCPSender.Action}
    (hs : Inv (some p) aesKey aesIv s) (hsound : Sound s) (hreceiver : HasConnected s.receiver)
    (hb : b ≠ .look) (h : call s.back b = some back) :
    ∃ l l', s.back = some l ∧ FitsBack s.sender s.receiver l ∧ back = some l' ∧
      l.sender.step b = some l'.sender ∧ TcpLink.Healthy l' ∧ l'.receiver = l.receiver := by
  obtain ⟨l, hl, hfits⟩ := hsound.back hreceiver
  rcases call_eq_some h with ⟨hnone, -⟩ | ⟨l₁, l', hl₁, hstep, rfl⟩
  · rw [hl] at hnone
    cases hnone
  · obtain rfl := Option.some.inj (hl.symm.trans hl₁)
    obtain ⟨hhealthy, hreceiver⟩ := call_keeps hfits.healthy (short_back hs hl) hb hstep
    obtain ⟨sender, hstep', rfl⟩ := Option.map_eq_some_iff.1 hstep
    exact ⟨l, _, hl, hfits, rfl, hstep', hhealthy, hreceiver⟩

/-- A key can come over the link forth only when it was sent. -/
theorem accepting_of_get {publicKey : List UInt8} (hs : Inv (some p) aesKey aesIv s)
    (hsound : Sound s) (hreceiver : s.receiver = .getPublicKey)
    (h : get s.forth 0 = some publicKey) : s.sender = .accepting := by
  obtain ⟨l, hl, hnext⟩ := get_eq_some h
  have hbeginning := (hs.forth l hl).enqueued_beginning (short_publicKey hs.senderRsa _)
  have hmem := hbeginning.subset (List.mem_of_getElem? hnext)
  have hpaired := hsound.paired
  rw [hreceiver] at hpaired
  cases hsender : s.sender with
  | accepting => rfl
  | connecting | constructing | sending =>
      rw [hsender] at hmem
      cases hmem
  | getKey | getIv | returned =>
      rw [hsender] at hpaired
      cases hpaired with
      | connected _ hconnected => exact hconnected.elim

/-- The other gate goes on to its next call. -/
theorem Sound.of_call {back : Option TcpLink} {b : TCPSender.Action} (phase : ReceiverPhase)
    (hs : Inv (some p) aesKey aesIv s) (hsound : Sound s) (hconnected : HasConnected s.receiver)
    (hphase : HasConnected phase) (hnew : phase ≠ .constructing) (hb : b ≠ .look)
    (hcall : call s.back b = some back)
    (hstep : ∀ l t, FitsBack s.sender s.receiver l → l.sender.step b = some t →
      t.owner = .running ∧ ∀ message ∈ t.sent, message ≠ []) :
    Sound { s with back, receiver := phase } := by
  obtain ⟨l, l', hl, hfits, rfl, hsender, hhealthy, hsame⟩ :=
    hsound.call_back hs hconnected hb hcall
  obtain ⟨howner, hnonempty⟩ := hstep l _ hfits hsender
  refine ⟨.connected (hsound.paired.accepted hconnected) hphase, fun h => ?_,
    fun _ => ⟨l', rfl, ?_⟩, hsound.unclashed⟩
  · obtain ⟨l, hl, hfits⟩ := hsound.forth h
    refine ⟨l, hl, hfits.of_receiver ?_⟩
    rintro rfl
    exact hphase.elim
  · exact ⟨hhealthy, fun h => absurd h hnew, fun _ => howner, hsame ▸ hfits.isOpen, hnonempty⟩

/-- The other gate sends what it has encrypted. -/
theorem Sound.of_send {back : Option TcpLink} {message : List UInt8} (phase : ReceiverPhase)
    (hs : Inv (some p) aesKey aesIv s) (hsound : Sound s) (hconnected : HasConnected s.receiver)
    (hsending : s.receiver = .sendKey ∨ s.receiver = .sendIv)
    (hphase : HasConnected phase) (hnew : phase ≠ .constructing) (hmessage : message ≠ [])
    (hcall : call s.back (.send message) = some back) :
    Sound { s with back, receiver := phase } := by
  refine hsound.of_call phase hs hconnected hphase hnew (by simp) hcall fun l t hfits hstep => ?_
  obtain ⟨howner, hsent⟩ := TCPSender.step_send hstep
  refine ⟨howner.trans (hfits.sending hsending), fun m hm => ?_⟩
  rw [hsent] at hm
  rcases List.mem_append.1 hm with hm | hm
  · exact hfits.nonempty m hm
  · exact List.mem_singleton.1 hm ▸ hmessage

/-- The gate with `m_is_sender` goes on with its link forth. -/
theorem Sound.of_forth {forth : Option TcpLink} {b : TCPSender.Action} (phase : SenderPhase)
    (hs : Inv (some p) aesKey aesIv s) (hsound : Sound s) (hsender : s.sender ≠ .connecting)
    (hreceiver : s.receiver = .getPublicKey) (hpaired : Paired phase .getPublicKey)
    (hb : b ≠ .look) (hcall : call s.forth b = some forth)
    (hstep : ∀ (l : TcpLink) (t : TCPSender), l.sender.step b = some t →
      (phase = .constructing → t.owner = .constructing) ∧ (phase = .sending → t.owner = .running)) :
    Sound { s with forth, sender := phase } := by
  obtain ⟨l, l', -, hfits, rfl, hsender', hhealthy, hsame⟩ :=
    hsound.call_forth hs hsender hb hcall
  obtain ⟨hconstructing, hsending⟩ := hstep l _ hsender'
  refine ⟨hreceiver ▸ hpaired, fun _ => ⟨l', rfl, hhealthy, hconstructing, hsending, ?_⟩,
    fun h => ?_, hsound.unclashed⟩
  · rw [hsame]
    exact hfits.isOpen
  · rw [hreceiver] at h
    exact h.elim

/-- The gate with `m_is_sender` gets an answer. -/
theorem Sound.of_get (phase : SenderPhase) (hsound : Sound s) (haccepted : HasAccepted s.sender)
    (hsender : isReturned s.sender = false) (hphase : HasAccepted phase) :
    Sound { s with sender := phase } := by
  have hconnected := hsound.paired.hasConnected haccepted
  refine ⟨.connected hphase hconnected, fun _ => ?_, fun _ => ?_, hsound.unclashed⟩
  · obtain ⟨l, hl, hforth⟩ := hsound.forth (by
      intro hconnecting
      rw [hconnecting] at haccepted
      exact haccepted)
    exact ⟨l, hl, hforth.of_accepted phase hphase⟩
  · obtain ⟨l, hl, hback⟩ := hsound.back hconnected
    exact ⟨l, hl, hback.healthy, hback.constructing, hback.sending, fun _ => hback.isOpen hsender,
      hback.nonempty⟩

/-- The other gate returns. -/
theorem Sound.of_returns (hsound : Sound s) (hreceiver : s.receiver = .returning) :
    Sound { s with receiver := .returned } := by
  have hconnected : HasConnected s.receiver := by rw [hreceiver]; trivial
  refine ⟨.connected (hsound.paired.accepted hconnected) trivial, fun h => ?_, fun _ => ?_,
    hsound.unclashed⟩
  · obtain ⟨l, hl, hforth⟩ := hsound.forth h
    exact ⟨l, hl, hforth.of_receiver (by simp)⟩
  · obtain ⟨l, hl, hback⟩ := hsound.back hconnected
    exact ⟨l, hl, hback.healthy, by rintro ⟨⟩, by simp, hback.isOpen, hback.nonempty⟩

/-- The threads of the link forth do something, or its connection. -/
theorem Sound.on_forth {l l' : TcpLink} {a : TcpLink.Action} (hs : Inv (some p) aesKey aesIv s)
    (hsound : Sound s) (ha : ¬ TcpLink.Breaks l a)
    (hfree : Free (isReturned s.sender) (s.receiver = .returned) a = true) (hl : s.forth = some l)
    (h : l.step a = some l') : Sound { s with forth := some l' } := by
  refine ⟨hsound.paired, fun hne => ⟨l', rfl, ?_⟩, hsound.back, hsound.unclashed⟩
  obtain ⟨l₁, hl₁, hfits⟩ := hsound.forth hne
  obtain rfl := Option.some.inj (hl.symm.trans hl₁)
  obtain ⟨hhealthy, -, howner, hopen⟩ :=
    background_keeps hfits.healthy (short_forth hs hl) ha hfree h
  refine ⟨hhealthy, fun h => ?_, fun h => ?_, fun h => ?_⟩
  · rw [howner (by rw [h]; rfl)]
    exact hfits.constructing h
  · rw [howner (by rw [h]; rfl)]
    exact hfits.sending h
  · rw [hopen (by rw [h]; rfl)]
    exact hfits.isOpen h

/-- Those of the link back, or its connection. -/
theorem Sound.on_back {l l' : TcpLink} {a : TcpLink.Action} (hs : Inv (some p) aesKey aesIv s)
    (hsound : Sound s) (ha : ¬ TcpLink.Breaks l a)
    (hfree : Free (s.receiver = .returned) (isReturned s.sender) a = true) (hl : s.back = some l)
    (h : l.step a = some l') : Sound { s with back := some l' } := by
  refine ⟨hsound.paired, hsound.forth, fun hconnected => ⟨l', rfl, ?_⟩, hsound.unclashed⟩
  obtain ⟨l₁, hl₁, hfits⟩ := hsound.back hconnected
  obtain rfl := Option.some.inj (hl.symm.trans hl₁)
  obtain ⟨hhealthy, hsent, howner, hopen⟩ :=
    background_keeps hfits.healthy (short_back hs hl) ha hfree h
  refine ⟨hhealthy, fun h => ?_, fun h => ?_, fun h => ?_, hsent ▸ hfits.nonempty⟩
  · rw [howner (by rw [h]; rfl)]
    exact hfits.constructing h
  · rw [howner (by rcases h with h | h <;> rw [h] <;> rfl)]
    exact hfits.sending h
  · rw [hopen h]
    exact hfits.isOpen h

/-- **What a step keeps that is no fault.** -/
theorem step_sound {a : Action Chance} (hs : Inv (some p) aesKey aesIv s) (hsound : Sound s)
    (ha : ¬ Fault ssl s a) (h : step ssl s a = some s') : Sound s' := by
  have hpaired := hsound.paired
  cases step_cases h with
  | connect =>
      refine ⟨.constructing, fun _ => ⟨_, rfl, ?_⟩, by rintro ⟨⟩, hsound.unclashed⟩
      exact ⟨TcpLink.healthy_init, fun _ => rfl, by rintro ⟨⟩, fun _ => rfl⟩
  | connectFails | connectBackFails | clashForth | clashBack => exact absurd trivial ha
  | constructed hsender hcall =>
      rw [hsender] at hpaired
      refine hsound.of_forth .sending hs (by simp [hsender]) hpaired.of_constructing .sending
        (by simp) hcall fun l t hstep => ⟨by rintro ⟨⟩, fun _ => ?_⟩
      exact (TCPSender.step_constructed hstep).1
  | sendPublicKey hsender hcall =>
      rw [hsender] at hpaired
      exact hsound.of_forth .accepting hs (by simp [hsender]) hpaired.of_sending .accepting
        (by simp) hcall fun l t hstep => ⟨by rintro ⟨⟩, by rintro ⟨⟩⟩
  | getPublicKey hreceiver hget =>
      have hsender := accepting_of_get hs hsound hreceiver hget
      obtain ⟨l, hl, hfits⟩ := hsound.forth (by simp [hsender])
      exact ⟨hsender ▸ .connectingBack, fun _ => ⟨l, hl, hfits.of_receiver (by simp)⟩,
        by rintro ⟨⟩, hsound.unclashed⟩
  | connectBack hreceiver hsender =>
      obtain ⟨l, hl, hfits⟩ := hsound.forth (by simp [hsender])
      refine ⟨.connected trivial trivial, fun _ => ⟨l, hl, ?_⟩, fun _ => ⟨_, rfl, ?_⟩,
        hsound.unclashed⟩
      · exact (hfits.of_accepted .getKey trivial).of_receiver (by simp)
      · exact ⟨TcpLink.healthy_init, fun _ => rfl, by simp, fun _ => rfl,
          fun _ hm => absurd hm List.not_mem_nil⟩
  | constructedBack hreceiver hcall =>
      refine hsound.of_call .sendKey hs (by rw [hreceiver]; trivial) trivial (by simp) (by simp)
        hcall fun l t hfits hstep => ?_
      obtain ⟨howner, hsent⟩ := TCPSender.step_constructed hstep
      exact ⟨howner, hsent ▸ hfits.nonempty⟩
  | sendKey hreceiver hcall =>
      exact hsound.of_send .sendIv hs (by rw [hreceiver]; trivial) (Or.inl hreceiver) trivial
        (by simp) ha hcall
  | sendIv hreceiver hcall =>
      exact hsound.of_send .returning hs (by rw [hreceiver]; trivial) (Or.inr hreceiver) trivial
        (by simp) ha hcall
  | returns hreceiver => exact hsound.of_returns hreceiver
  | getKey hsender | getIv hsender =>
      exact hsound.of_get _ (by rw [hsender]; trivial) (by rw [hsender]; rfl) trivial
  | onForth hfree hl hstep =>
      exact hsound.on_forth hs (fun hbreaks => ha ⟨_, hl, hbreaks⟩) hfree hl hstep
  | onBack hfree hl hstep =>
      exact hsound.on_back hs (fun hbreaks => ha ⟨_, hl, hbreaks⟩) hfree hl hstep

/-! ### Going on -/

/-- What the threads of a link do, they may do in the exchange. -/
theorem free_of_goesOn {l : TcpLink} {a : TcpLink.Action} (h : TcpLink.GoesOn l a)
    (senderReturned receiverReturned : Bool) : Free senderReturned receiverReturned a = true := by
  cases a with
  | sender b =>
      cases b with
      | look | leave | writeHeader | writePayload => rfl
      | _ => exact h.elim
  | arrive | turn => rfl
  | _ => exact h.elim

/-- Before a clash, nothing but the two gates says what happens. -/
theorem step_of_unclashed (h : s.clashed = false) (a : Action Chance) :
    step ssl s a = act ssl s a := by
  unfold step
  rw [h]
  rfl

/-- A run without a fault. -/
def GoesTo (ssl : RsaSSL Key Chance) : EchoGates Key → EchoGates Key → Prop :=
  Transition.Reaches (step ssl) fun s a => ¬ Fault ssl s a

/-- What the threads of a link do, wherever it is in the exchange. -/
theorem goesTo_link {f : TcpLink → EchoGates Key} {g : TcpLink.Action → Action Chance}
    (hfault : ∀ l a, Fault ssl (f l) (g a) → TcpLink.Breaks l a)
    (hstep : ∀ l a l', l.step a = some l' → (∀ b c, Free b c a = true) →
      step ssl (f l) (g a) = some (f l'))
    {l l' : TcpLink} (h : Transition.Reaches TcpLink.step TcpLink.GoesOn l l') :
    GoesTo ssl (f l) (f l') :=
  h.lift fun l a l' ha hl => ⟨fun hf => TcpLink.not_breaks_of_goesOn ha (hfault l a hf),
    hstep l a l' hl (free_of_goesOn ha)⟩

theorem goesTo_forth {l l' : TcpLink} (hclashed : s.clashed = false) (hl : s.forth = some l)
    (h : Transition.Reaches TcpLink.step TcpLink.GoesOn l l') :
    GoesTo ssl s { s with forth := some l' } := by
  have hs : s = { s with forth := some l } := by rw [← hl]
  rw [hs]
  refine goesTo_link (f := fun t => { s with forth := some t }) (g := Action.onForth) ?_ ?_ h
  · rintro l a ⟨v, hv, hbreaks⟩
    exact Option.some.inj hv ▸ hbreaks
  · intro l a l' hstep hfree
    rw [step_of_unclashed (s := { s with forth := some l }) hclashed]
    simp only [act, hfree, if_true, background, hstep, Option.map_some]

theorem goesTo_back {l l' : TcpLink} (hclashed : s.clashed = false) (hl : s.back = some l)
    (h : Transition.Reaches TcpLink.step TcpLink.GoesOn l l') :
    GoesTo ssl s { s with back := some l' } := by
  have hs : s = { s with back := some l } := by rw [← hl]
  rw [hs]
  refine goesTo_link (f := fun t => { s with back := some t }) (g := Action.onBack) ?_ ?_ h
  · rintro l a ⟨v, hv, hbreaks⟩
    exact Option.some.inj hv ▸ hbreaks
  · intro l a l' hstep hfree
    rw [step_of_unclashed (s := { s with back := some l }) hclashed]
    simp only [act, hfree, if_true, background, hstep, Option.map_some]

/-- **A message that was sent can be got.** -/
theorem exists_get {l : TcpLink} (hl : TcpLink.Healthy l) (hopen : l.receiver.isClosed = false)
    (hshort : Short l.sender.sent) {n : ℕ}
    (hmore : n < (TcpLink.nonempty l.sender.sent).length) :
    ∃ l' message, Transition.Reaches TcpLink.step TcpLink.GoesOn l l' ∧
      get (some l') n = some message := by
  obtain ⟨l', hreaches, -, hsame, henqueued⟩ := hl.enqueues hopen hshort
  have hless : n < l'.receiver.enqueued.length := by
    rw [henqueued, hsame.sent]
    exact hmore
  exact ⟨l', l'.receiver.enqueued[n], hreaches, List.getElem?_eq_getElem hless⟩

/-- A constructor comes to its end, and a constructed sender takes a message. -/
theorem exists_call {link : Option TcpLink} {l : TcpLink} {b : TCPSender.Action}
    (hl : link = some l) (h : ∃ t, l.sender.step b = some t) :
    ∃ link', call link b = some link' := by
  obtain ⟨t, ht⟩ := h
  exact ⟨some { l with sender := t }, by simp only [hl, call, TcpLink.step, ht, Option.map_some]⟩

theorem exists_constructed {link : Option TcpLink} {l : TcpLink} (hl : link = some l)
    (hhealthy : TcpLink.Healthy l) (h : l.sender.owner = .constructing) :
    ∃ link', call link .constructed = some link' := by
  refine exists_call hl ⟨{ l.sender with isClosed := false, owner := .running }, ?_⟩
  simp only [TCPSender.step, h, if_neg hhealthy.sender.inv.uncrashed]

theorem exists_send {link : Option TcpLink} {l : TcpLink} (message : List UInt8)
    (hl : link = some l) (hhealthy : TcpLink.Healthy l) (h : l.sender.owner = .running) :
    ∃ link', call link (.send message) = some link' := by
  -- the thread can only be about to leave once `Close` has begun
  have hfree : ¬ l.sender.Occupied := by
    rintro (hleaving | hcrashed)
    · have howner := (hhealthy.sender.inv.leaving hleaving).2.1
      exact absurd (h.symm.trans howner) (by simp)
    · exact hhealthy.sender.inv.uncrashed hcrashed
  refine exists_call hl ⟨{ l.sender with
    queue := l.sender.queue ++ [message]
    sent := l.sender.sent ++ [message]
    thread := TCPSender.notify l.sender.thread }, ?_⟩
  simp only [TCPSender.step, h, if_neg hfree]

/-- How far the gate with `m_is_sender` is from its end. -/
def senderWork : SenderPhase → ℕ
  | .connecting => 6
  | .constructing => 5
  | .sending => 4
  | .accepting => 3
  | .getKey => 2
  | .getIv _ => 1
  | .returned _ _ => 0

/-- How far the other one is. -/
def receiverWork : ReceiverPhase → ℕ
  | .accepting => 7
  | .getPublicKey => 6
  | .connecting => 5
  | .constructing => 4
  | .sendKey => 3
  | .sendIv => 2
  | .returning => 1
  | .returned => 0

/-- How far the exchange is from its end. -/
def work (s : EchoGates Key) : ℕ := senderWork s.sender + receiverWork s.receiver

/-- Both calls have returned. -/
def Finished (s : EchoGates Key) : Prop := isReturned s.sender = true ∧ s.receiver = .returned

theorem work_lt {t : EchoGates Key} (h : senderWork t.sender ≤ senderWork s.sender)
    (h' : receiverWork t.receiver < receiverWork s.receiver) : work t < work s :=
  Nat.add_lt_add_of_le_of_lt h h'

theorem work_lt' {t : EchoGates Key} (h : senderWork t.sender < senderWork s.sender)
    (h' : receiverWork t.receiver ≤ receiverWork s.receiver) : work t < work s :=
  Nat.add_lt_add_of_lt_of_le h h'

/-- The other gate still waits for the public key. -/
theorem exists_down_getPublicKey (hs : Inv (some p) aesKey aesIv s) (hsound : Sound s)
    (htext : ssl.writePublic p.pair ≠ []) (hreceiver : s.receiver = .getPublicKey) :
    ∃ t, GoesTo ssl s t ∧ work t < work s := by
  have hpaired := hsound.paired
  rw [hreceiver] at hpaired
  cases hsender : s.sender with
  | constructing =>
      obtain ⟨l, hl, hfits⟩ := hsound.forth (by simp [hsender])
      obtain ⟨forth, hcall⟩ := exists_constructed hl hfits.healthy (hfits.constructing hsender)
      have hstep : step ssl s .constructed = some { s with forth, sender := .sending } := by
        rw [step_of_unclashed hsound.unclashed]
        simp only [act, hsender, hcall, Option.map_some]
      refine ⟨_, .single id hstep, work_lt' ?_ le_rfl⟩
      simp [hsender, senderWork]
  | sending =>
      obtain ⟨l, hl, hfits⟩ := hsound.forth (by simp [hsender])
      obtain ⟨forth, hcall⟩ :=
        exists_send (s.senderRsa.getPublicKey ssl) hl hfits.healthy (hfits.sending hsender)
      have hstep : step ssl s .sendPublicKey = some { s with forth, sender := .accepting } := by
        rw [step_of_unclashed hsound.unclashed]
        simp only [act, hsender, hcall, Option.map_some]
      refine ⟨_, .single id hstep, work_lt' ?_ le_rfl⟩
      simp [hsender, senderWork]
  | accepting =>
      obtain ⟨l, hl, hfits⟩ := hsound.forth (by simp [hsender])
      have hkey : s.senderRsa.getPublicKey ssl = ssl.writePublic p.pair := by
        rw [hs.senderRsa]
        rfl
      obtain ⟨l', publicKey, hreaches, hget⟩ := exists_get (n := 0) hfits.healthy
        (hfits.isOpen hreceiver) (short_forth hs hl) (by
          rw [(hs.forth l hl).sent_eq, hsender]
          simp [SentForth, TcpLink.nonempty, hkey, htext])
      have hstep : step ssl { s with forth := some l' } .getPublicKey = some { s with
          forth := some l'
          receiverRsa := s.receiverRsa.setPublicKey ssl publicKey
          receiver := .connecting } := by
        rw [step_of_unclashed (s := { s with forth := some l' }) hsound.unclashed]
        simp only [act, hreceiver, hget, Option.map_some]
      refine ⟨_, (goesTo_forth hsound.unclashed hl hreaches).trans (.single id hstep),
        work_lt le_rfl ?_⟩
      simp [hreceiver, receiverWork]
  | connecting =>
      rw [hsender] at hpaired
      cases hpaired with
      | connected haccepted => exact haccepted.elim
  | getKey | getIv | returned =>
      rw [hsender] at hpaired
      cases hpaired with
      | connected _ hconnected => exact hconnected.elim

/-- The other gate has not connected back. -/
theorem exists_down_connecting (hsound : Sound s) (hreceiver : s.receiver = .connecting) :
    ∃ t, GoesTo ssl s t ∧ work t < work s := by
  have hpaired := hsound.paired
  rw [hreceiver] at hpaired
  have hsender : s.sender = .accepting := by
    generalize s.sender = sender at hpaired
    cases hpaired with
    | connectingBack => rfl
    | connected _ hconnected => exact hconnected.elim
  have hstep : step ssl s .connectBack = some { s with
      back := some TcpLink.init
      receiver := .constructing
      sender := .getKey } := by
    rw [step_of_unclashed hsound.unclashed]
    simp only [act, hreceiver, hsender]
  refine ⟨_, .single id hstep, work_lt ?_ ?_⟩
  · simp [hsender, senderWork]
  · simp [hreceiver, receiverWork]

/-- The other gate has a call on its sender before it. -/
theorem exists_down_connected (hs : Inv (some p) aesKey aesIv s) (hsound : Sound s)
    (hkey : ∃ chance, (RSA.mk (some p.publicHalf)).encrypt ssl chance aesKey ≠ [])
    (hiv : ∃ chance, (RSA.mk (some p.publicHalf)).encrypt ssl chance aesIv ≠ [])
    (hreceiver : s.receiver = .constructing ∨ s.receiver = .sendKey ∨ s.receiver = .sendIv) :
    ∃ t, GoesTo ssl s t ∧ work t < work s := by
  have hconnected : HasConnected s.receiver := by
    rcases hreceiver with h | h | h <;> rw [h] <;> trivial
  obtain ⟨l, hl, hfits⟩ := hsound.back hconnected
  have hrsa : s.receiverRsa = ⟨some p.publicHalf⟩ := by
    obtain ⟨hkey, -⟩ := hs.back l hl
    obtain ⟨q, hq, hrsa⟩ := hs.receiverRsa hkey
    rw [hrsa, ← Option.some.inj hq]
  rcases hreceiver with hreceiver | hreceiver | hreceiver
  · obtain ⟨back, hcall⟩ := exists_constructed hl hfits.healthy (hfits.constructing hreceiver)
    have hstep : step ssl s .constructedBack = some { s with back, receiver := .sendKey } := by
      rw [step_of_unclashed hsound.unclashed]
      simp only [act, hreceiver, hcall, Option.map_some]
    refine ⟨_, .single id hstep, work_lt le_rfl ?_⟩
    simp [hreceiver, receiverWork]
  · obtain ⟨chance, hchance⟩ := hkey
    obtain ⟨back, hcall⟩ := exists_send (s.receiverRsa.encrypt ssl chance s.aesKey) hl
      hfits.healthy (hfits.sending (Or.inl hreceiver))
    have hstep : step ssl s (.sendKey chance) = some { s with back, receiver := .sendIv } := by
      rw [step_of_unclashed hsound.unclashed]
      simp only [act, hreceiver, hcall, Option.map_some]
    have hfault : ¬ Fault ssl s (.sendKey chance) := by
      show ¬ s.receiverRsa.encrypt ssl chance s.aesKey = []
      rw [hrsa, hs.aesKey_eq]
      exact hchance
    refine ⟨_, .single hfault hstep, work_lt le_rfl ?_⟩
    simp [hreceiver, receiverWork]
  · obtain ⟨chance, hchance⟩ := hiv
    obtain ⟨back, hcall⟩ := exists_send (s.receiverRsa.encrypt ssl chance s.aesIv) hl
      hfits.healthy (hfits.sending (Or.inr hreceiver))
    have hstep : step ssl s (.sendIv chance) = some { s with back, receiver := .returning } := by
      rw [step_of_unclashed hsound.unclashed]
      simp only [act, hreceiver, hcall, Option.map_some]
    have hfault : ¬ Fault ssl s (.sendIv chance) := by
      show ¬ s.receiverRsa.encrypt ssl chance s.aesIv = []
      rw [hrsa, hs.aesIv_eq]
      exact hchance
    refine ⟨_, .single hfault hstep, work_lt le_rfl ?_⟩
    simp [hreceiver, receiverWork]

/-- The other gate has nothing left to do but return. -/
theorem exists_down_returning (hsound : Sound s) (hreceiver : s.receiver = .returning) :
    ∃ t, GoesTo ssl s t ∧ work t < work s := by
  have hstep : step ssl s .returns = some { s with receiver := .returned } := by
    rw [step_of_unclashed hsound.unclashed]
    simp only [act, hreceiver]
  refine ⟨_, .single id hstep, work_lt le_rfl ?_⟩
  simp [hreceiver, receiverWork]

/-- The other gate has returned, and this one has answers to get. -/
theorem exists_down_returned (hs : Inv (some p) aesKey aesIv s) (hsound : Sound s)
    (chance chance' : Chance) (hreceiver : s.receiver = .returned)
    (hsender : isReturned s.sender = false) : ∃ t, GoesTo ssl s t ∧ work t < work s := by
  have hconnected : HasConnected s.receiver := by rw [hreceiver]; trivial
  have haccepted := hsound.paired.accepted hconnected
  obtain ⟨l, hl, hfits⟩ := hsound.back hconnected
  obtain ⟨-, sent, hlink, hsent, -⟩ := hs.back l hl
  rw [hreceiver] at hsent
  obtain ⟨c, c', hboth⟩ := hsent
  -- both ciphertexts were sent, and neither is passed over
  have htwo : (TcpLink.nonempty l.sender.sent).length = 2 := by
    have hall : TcpLink.nonempty l.sender.sent = l.sender.sent :=
      List.filter_eq_self.2 fun message hm => by simpa using hfits.nonempty message hm
    rw [hall, hlink.sent_eq, hboth]
    rfl
  have hget (n : ℕ) (hn : n < 2) : ∃ l' message,
      Transition.Reaches TcpLink.step TcpLink.GoesOn l l' ∧ get (some l') n = some message :=
    exists_get hfits.healthy (hfits.isOpen hsender) (short_back hs hl) (by rw [htwo]; exact hn)
  cases hphase : s.sender with
  | getKey =>
      obtain ⟨l', enAesKey, hreaches, hget⟩ := hget 0 (by decide)
      have hstep : step ssl { s with back := some l' } .getKey =
          some { s with back := some l', sender := .getIv enAesKey } := by
        rw [step_of_unclashed (s := { s with back := some l' }) hsound.unclashed]
        simp only [act, hphase, hget, Option.map_some]
      refine ⟨_, (goesTo_back hsound.unclashed hl hreaches).trans (.single id hstep),
        work_lt' ?_ le_rfl⟩
      simp [hphase, senderWork]
  | getIv enAesKey =>
      obtain ⟨l', enAesIv, hreaches, hget⟩ := hget 1 (by decide)
      have hstep : step ssl { s with back := some l' } (.getIv chance chance') = some { s with
          back := some l'
          sender := .returned (s.senderRsa.decrypt ssl chance enAesKey)
            (s.senderRsa.decrypt ssl chance' enAesIv) } := by
        rw [step_of_unclashed (s := { s with back := some l' }) hsound.unclashed]
        simp only [act, hphase, hget, Option.map_some]
      refine ⟨_, (goesTo_back hsound.unclashed hl hreaches).trans (.single id hstep),
        work_lt' ?_ le_rfl⟩
      simp [hphase, senderWork]
  | returned =>
      rw [hphase] at hsender
      cases hsender
  | connecting | constructing | sending | accepting =>
      rw [hphase] at haccepted
      exact haccepted.elim

/-- **Short of its end, the exchange goes on.** -/
theorem exists_down (hs : Inv (some p) aesKey aesIv s) (hsound : Sound s)
    (htext : ssl.writePublic p.pair ≠ [])
    (hkey : ∃ chance, (RSA.mk (some p.publicHalf)).encrypt ssl chance aesKey ≠ [])
    (hiv : ∃ chance, (RSA.mk (some p.publicHalf)).encrypt ssl chance aesIv ≠ [])
    (hopen : ¬ Finished s) : ∃ t, GoesTo ssl s t ∧ work t < work s := by
  cases hreceiver : s.receiver with
  | accepting =>
      have hsender : s.sender = .connecting := by
        have hpaired := hsound.paired
        rw [hreceiver] at hpaired
        generalize s.sender = sender at hpaired
        cases hpaired with
        | connecting => rfl
        | connected _ hconnected => exact hconnected.elim
      have hstep : step ssl s .connect = some { s with
          forth := some TcpLink.init
          sender := .constructing
          receiver := .getPublicKey } := by
        rw [step_of_unclashed hsound.unclashed]
        simp only [act, hreceiver, hsender]
      refine ⟨_, .single id hstep, work_lt ?_ ?_⟩
      · simp [hsender, senderWork]
      · simp [hreceiver, receiverWork]
  | getPublicKey => exact exists_down_getPublicKey hs hsound htext hreceiver
  | connecting => exact exists_down_connecting hsound hreceiver
  | constructing => exact exists_down_connected hs hsound hkey hiv (Or.inl hreceiver)
  | sendKey => exact exists_down_connected hs hsound hkey hiv (Or.inr (Or.inl hreceiver))
  | sendIv => exact exists_down_connected hs hsound hkey hiv (Or.inr (Or.inr hreceiver))
  | returning => exact exists_down_returning hsound hreceiver
  | returned =>
      obtain ⟨chance, -⟩ := hkey
      refine exists_down_returned hs hsound chance chance hreceiver ?_
      exact Bool.eq_false_of_not_eq_true fun hreturned => hopen ⟨hreturned, hreceiver⟩

/-- What holds of the exchange after a run without a fault. -/
theorem run_sound {receiverRsa : RSA Key} {as : List (Action Chance)}
    (h : Transition.run (step ssl) (init ⟨some p.pair⟩ receiverRsa aesKey aesIv) as = some s)
    (hfault : Transition.Meets (step ssl) (fun s a => ¬ Fault ssl s a)
      (init ⟨some p.pair⟩ receiverRsa aesKey aesIv) as) :
    Inv (some p) aesKey aesIv s ∧ Sound s :=
  Transition.run_invariant_of_meets (I := fun s => Inv (some p) aesKey aesIv s ∧ Sound s)
    (fun _ _ _ hs ha h => ⟨step_inv hs.1 h, step_sound hs.1 hs.2 ha h⟩)
    ⟨inv_init receiverRsa, sound_init receiverRsa⟩ hfault h

/-- **The exchange cannot get stuck.**  After any run without a fault, however the two calls of
`GetAESKey`, the threads and the connections have interleaved, there is a way on without a fault to
where both calls have returned; if the generated key has a text, and the key and the vector can be
encrypted at all. -/
theorem can_agree {receiverRsa : RSA Key} {as : List (Action Chance)}
    (h : Transition.run (step ssl) (init ⟨some p.pair⟩ receiverRsa aesKey aesIv) as = some s)
    (hfault : Transition.Meets (step ssl) (fun s a => ¬ Fault ssl s a)
      (init ⟨some p.pair⟩ receiverRsa aesKey aesIv) as)
    (htext : ssl.writePublic p.pair ≠ [])
    (hkey : ∃ chance, (RSA.mk (some p.publicHalf)).encrypt ssl chance aesKey ≠ [])
    (hiv : ∃ chance, (RSA.mk (some p.publicHalf)).encrypt ssl chance aesIv ≠ []) :
    ∃ bs t, Transition.Meets (step ssl) (fun s a => ¬ Fault ssl s a) s bs ∧
      Transition.run (step ssl) s bs = some t ∧ Finished t := by
  obtain ⟨t, ⟨bs, hbs, hrun⟩, -, hfinished⟩ :
      ∃ t, Transition.Reaches (step ssl) (fun s a => ¬ Fault ssl s a) s t ∧
        (Inv (some p) aesKey aesIv t ∧ Sound t) ∧ Finished t :=
    Transition.exists_of_descent work
    (fun u ⟨hu, hsound⟩ hopen => by
      obtain ⟨v, hgoes, hless⟩ := exists_down hu hsound htext hkey hiv hopen
      exact ⟨v, hgoes, hgoes.invariant
        (I := fun s => Inv (some p) aesKey aesIv s ∧ Sound s)
        (fun _ _ _ hs ha h => ⟨step_inv hs.1 h, step_sound hs.1 hs.2 ha h⟩) ⟨hu, hsound⟩, hless⟩)
    (run_sound h hfault)
  exact ⟨bs, t, hbs, hrun, hfinished⟩

/-- From the start on, with the cipher and the key of `flippingPair`. -/
theorem can_agree_sample :
    ∃ bs t, Transition.Meets (step flipping) (fun s a => ¬ Fault flipping s a)
        (init ⟨some 5⟩ ⟨none⟩ [1, 2] [3]) bs ∧
      Transition.run (step flipping) (init ⟨some 5⟩ ⟨none⟩ [1, 2] [3]) bs = some t ∧
      Finished t := by
  have hstart : Transition.run (step flipping) (init ⟨some 5⟩ ⟨none⟩ [1, 2] [3]) [] =
      some (init ⟨some 5⟩ ⟨none⟩ [1, 2] [3]) := rfl
  exact can_agree (p := flippingPair 5) hstart trivial (by decide) ⟨0, by decide⟩ ⟨0, by decide⟩

end EchoGates
end Net
end BreUtils
