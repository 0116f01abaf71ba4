/-
# The key exchange of `net/EchoGate.hpp`

Two gates agree on an AES key.  The one with `m_is_sender` sends the text of its public
RSA key; the other one makes an AES key and an initial vector, encrypts both with that
key, and sends the two ciphertexts back.  Each direction is a `TCPSender` and a
`TCPReceiver` of their own, so the exchange is two links and the two calls of
`GetAESKey`, one on each side.

Every step may go wrong: a connection fails (`TCPSender` says so on `std::cout` and goes
on, and what is sent is queued for nobody), it ends in the middle, a send thread looks
at its flag too early, an encryption yields nothing and the receiver passes the empty
message over.  In all these cases the sender waits for good.  Worse, the receive thread
pushes to the queue without the mutex that `Get` takes, and a push that falls into a
`Get` which is not asleep in its wait clashes with it: the queue may be torn, or `Get`
falls asleep past a notification.  That is undefined, and nothing is said of what comes
after.  But when the `GetAESKey` of the sender returns, it returns what the other gate
has, save that a decryption of its own may have failed and left an empty vector
(`keys_agree`); and all that ever goes over the two connections is the public key and
two ciphertexts (`on_the_wire`).
-/

import BreUtils.Crypto.Rsa
import BreUtils.Net.TcpLink

namespace BreUtils
namespace Net

open Crypto Lib

/-- Where the `GetAESKey` of the gate with `m_is_sender` is. -/
inductive SenderPhase where
  /-- In the constructor of `m_sender`, before it is connected. -/
  | connecting
  /-- In the constructor of `m_sender`, before its last line. -/
  | constructing
  /-- Before `m_sender->Send(public_key)`. -/
  | sending
  /-- In the constructor of `m_receiver`. -/
  | accepting
  /-- In the first `m_receiver->Get()`. -/
  | getKey
  /-- In the second `m_receiver->Get()`, with `en_aes_key`. -/
  | getIv (enAesKey : List UInt8)
  /-- It has returned these. -/
  | returned (aesKey aesIv : List UInt8)
  deriving DecidableEq

/-- Where the `GetAESKey` of the other gate is. -/
inductive ReceiverPhase where
  /-- In the constructor of `m_receiver`. -/
  | accepting
  /-- In `m_receiver->Get()`. -/
  | getPublicKey
  /-- In the constructor of `m_sender`, before it is connected. -/
  | connecting
  /-- In the constructor of `m_sender`, before its last line. -/
  | constructing
  /-- Before the first `m_sender->Send`. -/
  | sendKey
  /-- Before the second `m_sender->Send`. -/
  | sendIv
  /-- Behind it, before the `return`. -/
  | returning
  /-- It has returned its key and vector. -/
  | returned
  deriving DecidableEq

/-- Two gates in `GetAESKey`. -/
structure EchoGates (Key : Type*) where
  /-- `m_rsa` of the gate with `m_is_sender`. -/
  senderRsa : RSA Key
  /-- `m_rsa` of the other gate. -/
  receiverRsa : RSA Key
  /-- The key and the vector that the other gate has made. -/
  aesKey : List UInt8
  aesIv : List UInt8
  /-- From the one `m_sender` to the other gate's `m_receiver`; none as long as, or because, there
  is no connection. -/
  forth : Option TcpLink
  /-- The same the other way round. -/
  back : Option TcpLink
  sender : SenderPhase
  receiver : ReceiverPhase
  /-- A push of a receive thread has fallen into a `Get` that was not asleep. -/
  clashed : Bool
  deriving DecidableEq

namespace EchoGates

variable {Key Chance : Type*} (ssl : RsaSSL Key Chance)

/-- `GetAESKey` begins on both sides. -/
def init (senderRsa receiverRsa : RSA Key) (aesKey aesIv : List UInt8) : EchoGates Key :=
  ⟨senderRsa, receiverRsa, aesKey, aesIv, none, none, .connecting, .accepting, false⟩

inductive Action (Chance : Type*) where
  /-- The gate with `m_is_sender` connects, or tries three times in vain; and so the other one. -/
  | connect
  | connectFails
  | connectBack
  | connectBackFails
  /-- The constructor of `m_sender` ends on the one side, or on the other. -/
  | constructed
  | constructedBack
  | sendPublicKey
  | getPublicKey
  | sendKey (chance : Chance)
  | sendIv (chance : Chance)
  /-- The other gate returns its key and vector. -/
  | returns
  | getKey
  /-- The second ciphertext comes, and both are decrypted. -/
  | getIv (chance chance' : Chance)
  /-- What the threads of a link, its connection and the destructors do. -/
  | onForth (a : TcpLink.Action)
  | onBack (a : TcpLink.Action)
  /-- The receive thread of a link pushes while the gate at its end is in `Get`, at its predicate or
  on its way to sleep.  (Where it sleeps, the push is `onForth` or `onBack`, and wakes it.) -/
  | clashForth
  | clashBack

/-- A call on a `TCPSender`: on one that is not connected, nothing comes of it. -/
def call (link : Option TcpLink) (a : TCPSender.Action) : Option (Option TcpLink) :=
  match link with
  | none => some none
  | some l => (l.step (.sender a)).map some

/-- `Get`, when `n` messages have been taken out of the queue before. -/
def get (link : Option TcpLink) (n : ℕ) : Option (List UInt8) :=
  match link with
  | none => none
  | some l => l.receiver.enqueued[n]?

/-- The next turn of the receive thread pushes a message. -/
def pushes (link : Option TcpLink) : Bool :=
  match link with
  | none => false
  | some l =>
      match l.step .turn with
      | none => false
      | some l' => l'.receiver.enqueued ≠ l.receiver.enqueued

/-- What a link does without `GetAESKey`.  Only the destructors, when `GetAESKey` has returned on
their side, close a sender or a receiver. -/
def Free (senderReturned receiverReturned : Bool) : TcpLink.Action → Bool
  | .sender .constructed | .sender (.send _) => false
  | .sender .close | .sender .join => senderReturned
  | .closeReceiver => receiverReturned
  | _ => true

def isReturned : SenderPhase → Bool
  | .returned _ _ => true
  | _ => false

/-- A step of a link that is there. -/
def background (link : Option TcpLink) (a : TcpLink.Action) : Option (Option TcpLink) :=
  match link with
  | none => none
  | some l => (l.step a).map some

/-- What an action does.  A connection needs the other side in its `accept`. -/
def act (s : EchoGates Key) : Action Chance → Option (EchoGates Key)
  | .connect =>
      match s.sender, s.receiver with
      | .connecting, .accepting =>
          some { s with
            forth := some TcpLink.init
            sender := .constructing
            receiver := .getPublicKey }
      | _, _ => none
  | .connectFails =>
      match s.sender with
      | .connecting => some { s with sender := .constructing }
      | _ => none
  | .constructed =>
      match s.sender with
      | .constructing =>
          (call s.forth .constructed).map fun forth => { s with forth, sender := .sending }
      | _ => none
  | .sendPublicKey =>
      match s.sender with
      | .sending =>
          (call s.forth (.send (s.senderRsa.getPublicKey ssl))).map fun forth =>
            { s with forth, sender := .accepting }
      | _ => none
  | .getPublicKey =>
      match s.receiver with
      | .getPublicKey =>
          (get s.forth 0).map fun publicKey =>
            { s with
              receiverRsa := s.receiverRsa.setPublicKey ssl publicKey
              receiver := .connecting }
      | _ => none
  | .connectBack =>
      match s.receiver, s.sender with
      | .connecting, .accepting =>
          some { s with
            back := some TcpLink.init
            receiver := .constructing
            sender := .getKey }
      | _, _ => none
  | .connectBackFails =>
      match s.receiver with
      | .connecting => some { s with receiver := .constructing }
      | _ => none
  | .constructedBack =>
      match s.receiver with
      | .constructing =>
          (call s.back .constructed).map fun back => { s with back, receiver := .sendKey }
      | _ => none
  | .sendKey chance =>
      match s.receiver with
      | .sendKey =>
          (call s.back (.send (s.receiverRsa.encrypt ssl chance s.aesKey))).map fun back =>
            { s with back, receiver := .sendIv }
      | _ => none
  | .sendIv chance =>
      match s.receiver with
      | .sendIv =>
          (call s.back (.send (s.receiverRsa.encrypt ssl chance s.aesIv))).map fun back =>
            { s with back, receiver := .returning }
      | _ => none
  | .returns =>
      match s.receiver with
      | .returning => some { s with receiver := .returned }
      | _ => none
  | .getKey =>
      match s.sender with
      | .getKey => (get s.back 0).map fun enAesKey => { s with sender := .getIv enAesKey }
      | _ => none
  | .getIv chance chance' =>
      match s.sender with
      | .getIv enAesKey =>
          (get s.back 1).map fun enAesIv =>
            { s with
              sender := .returned (s.senderRsa.decrypt ssl chance enAesKey)
                (s.senderRsa.decrypt ssl chance' enAesIv) }
      | _ => none
  | .onForth a =>
      if Free (isReturned s.sender) (s.receiver = .returned) a then
        (background s.forth a).map fun forth => { s with forth }
      else none
  | .onBack a =>
      if Free (s.receiver = .returned) (isReturned s.sender) a then
        (background s.back a).map fun back => { s with back }
      else none
  | .clashForth =>
      match s.receiver with
      | .getPublicKey => if pushes s.forth then some { s with clashed := true } else none
      | _ => none
  | .clashBack =>
      match s.sender with
      | .getKey | .getIv _ => if pushes s.back then some { s with clashed := true } else none
      | _ => none

/-- **One step.**  A clash is undefined, and nothing is said of what comes after it. -/
def step (s : EchoGates Key) (a : Action Chance) : Option (EchoGates Key) :=
  if s.clashed then none else act ssl s a

/-- What the steps do, case by case. -/
inductive Steps (s : EchoGates Key) : Action Chance → EchoGates Key → Prop
  | connect : s.sender = .connecting → s.receiver = .accepting →
      Steps s .connect
        { s with forth := some TcpLink.init, sender := .constructing, receiver := .getPublicKey }
  | connectFails : s.sender = .connecting →
      Steps s .connectFails { s with sender := .constructing }
  | constructed {forth : Option TcpLink} : s.sender = .constructing →
      call s.forth .constructed = some forth →
      Steps s .constructed { s with forth, sender := .sending }
  | sendPublicKey {forth : Option TcpLink} : s.sender = .sending →
      call s.forth (.send (s.senderRsa.getPublicKey ssl)) = some forth →
      Steps s .sendPublicKey { s with forth, sender := .accepting }
  | getPublicKey {publicKey : List UInt8} : s.receiver = .getPublicKey →
      get s.forth 0 = some publicKey →
      Steps s .getPublicKey
        { s with
          receiverRsa := s.receiverRsa.setPublicKey ssl publicKey
          receiver := .connecting }
  | connectBack : s.receiver = .connecting → s.sender = .accepting →
      Steps s .connectBack
        { s with back := some TcpLink.init, receiver := .constructing, sender := .getKey }
  | connectBackFails : s.receiver = .connecting →
      Steps s .connectBackFails { s with receiver := .constructing }
  | constructedBack {back : Option TcpLink} : s.receiver = .constructing →
      call s.back .constructed = some back →
      Steps s .constructedBack { s with back, receiver := .sendKey }
  | sendKey {chance : Chance} {back : Option TcpLink} : s.receiver = .sendKey →
      call s.back (.send (s.receiverRsa.encrypt ssl chance s.aesKey)) = some back →
      Steps s (.sendKey chance) { s with back, receiver := .sendIv }
  | sendIv {chance : Chance} {back : Option TcpLink} : s.receiver = .sendIv →
      call s.back (.send (s.receiverRsa.encrypt ssl chance s.aesIv)) = some back →
      Steps s (.sendIv chance) { s with back, receiver := .returning }
  | returns : s.receiver = .returning → Steps s .returns { s with receiver := .returned }
  | getKey {enAesKey : List UInt8} : s.sender = .getKey → get s.back 0 = some enAesKey →
      Steps s .getKey { s with sender := .getIv enAesKey }
  | getIv {chance chance' : Chance} {enAesKey enAesIv : List UInt8} :
      s.sender = .getIv enAesKey → get s.back 1 = some enAesIv →
      Steps s (.getIv chance chance')
        { s with
          sender := .returned (s.senderRsa.decrypt ssl chance enAesKey)
            (s.senderRsa.decrypt ssl chance' enAesIv) }
  | onForth {a : TcpLink.Action} {l l' : TcpLink} :
      Free (isReturned s.sender) (s.receiver = .returned) a = true → s.forth = some l →
      l.step a = some l' → Steps s (.onForth a) { s with forth := some l' }
  | onBack {a : TcpLink.Action} {l l' : TcpLink} :
      Free (s.receiver = .returned) (isReturned s.sender) a = true → s.back = some l →
      l.step a = some l' → Steps s (.onBack a) { s with back := some l' }
  | clashForth : s.receiver = .getPublicKey → pushes s.forth = true →
      Steps s .clashForth { s with clashed := true }
  | clashBack : s.sender = .getKey ∨ (∃ enAesKey, s.sender = .getIv enAesKey) →
      pushes s.back = true → Steps s .clashBack { s with clashed := true }

variable {ssl}

theorem background_eq_some {link link' : Option TcpLink} {a : TcpLink.Action}
    (h : background link a = some link') :
    ∃ l l', link = some l ∧ l.step a = some l' ∧ link' = some l' := by
  unfold background at h
  split at h
  · cases h
  · obtain ⟨l', hl', rfl⟩ := Option.map_eq_some_iff.1 h
    exact ⟨_, l', rfl, hl', rfl⟩

/-- **What a step does.** -/
theorem step_cases {s s' : EchoGates Key} {a : Action Chance} (h : step ssl s a = some s') :
    Steps ssl s a s' := by
  unfold step at h
  split_ifs at h
  cases a with
  | connect =>
      simp only [act] at h
      split at h
      · rename_i hsender hreceiver
        exact Option.some.inj h ▸ .connect hsender hreceiver
      · cases h
  | connectFails =>
      simp only [act] at h
      split at h
      · rename_i hsender
        exact Option.some.inj h ▸ .connectFails hsender
      · cases h
  | constructed =>
      simp only [act] at h
      split at h
      · rename_i hsender
        obtain ⟨forth, hcall, rfl⟩ := Option.map_eq_some_iff.1 h
        exact .constructed hsender hcall
      · cases h
  | sendPublicKey =>
      simp only [act] at h
      split at h
      · rename_i hsender
        obtain ⟨forth, hcall, rfl⟩ := Option.map_eq_some_iff.1 h
        exact .sendPublicKey hsender hcall
      · cases h
  | getPublicKey =>
      simp only [act] at h
      split at h
      · rename_i hreceiver
        obtain ⟨publicKey, hget, rfl⟩ := Option.map_eq_some_iff.1 h
        exact .getPublicKey hreceiver hget
      · cases h
  | connectBack =>
      simp only [act] at h
      split at h
      · rename_i hreceiver hsender
        exact Option.some.inj h ▸ .connectBack hreceiver hsender
      · cases h
  | connectBackFails =>
      simp only [act] at h
      split at h
      · rename_i hreceiver
        exact Option.some.inj h ▸ .connectBackFails hreceiver
      · cases h
  | constructedBack =>
      simp only [act] at h
      split at h
      · rename_i hreceiver
        obtain ⟨back, hcall, rfl⟩ := Option.map_eq_some_iff.1 h
        exact .constructedBack hreceiver hcall
      · cases h
  | sendKey chance =>
      simp only [act] at h
      split at h
      · rename_i hreceiver
        obtain ⟨back, hcall, rfl⟩ := Option.map_eq_some_iff.1 h
        exact .sendKey hreceiver hcall
      · cases h
  | sendIv chance =>
      simp only [act] at h
      split at h
      · rename_i hreceiver
        obtain ⟨back, hcall, rfl⟩ := Option.map_eq_some_iff.1 h
        exact .sendIv hreceiver hcall
      · cases h
  | returns =>
      simp only [act] at h
      split at h
      · rename_i hreceiver
        exact Option.some.inj h ▸ .returns hreceiver
      · cases h
  | getKey =>
      simp only [act] at h
      split at h
      · rename_i hsender
        obtain ⟨enAesKey, hget, rfl⟩ := Option.map_eq_some_iff.1 h
        exact .getKey hsender hget
      · cases h
  | getIv chance chance' =>
      simp only [act] at h
      split at h
      · rename_i enAesKey hsender
        obtain ⟨enAesIv, hget, rfl⟩ := Option.map_eq_some_iff.1 h
        exact .getIv hsender hget
      · cases h
  | onForth b =>
      simp only [act] at h
      split_ifs at h with hfree
      obtain ⟨forth, hbackground, rfl⟩ := Option.map_eq_some_iff.1 h
      obtain ⟨l, l', hl, hstep, rfl⟩ := background_eq_some hbackground
      exact .onForth hfree hl hstep
  | onBack b =>
      simp only [act] at h
      split_ifs at h with hfree
      obtain ⟨back, hbackground, rfl⟩ := Option.map_eq_some_iff.1 h
      obtain ⟨l, l', hl, hstep, rfl⟩ := background_eq_some hbackground
      exact .onBack hfree hl hstep
  | clashForth =>
      simp only [act] at h
      split at h
      · rename_i hreceiver
        split_ifs at h with hpushes
        exact Option.some.inj h ▸ .clashForth hreceiver hpushes
      · cases h
  | clashBack =>
      simp only [act] at h
      split at h
      · rename_i hsender
        split_ifs at h with hpushes
        exact Option.some.inj h ▸ .clashBack (Or.inl hsender) hpushes
      · rename_i hsender
        split_ifs at h with hpushes
        exact Option.some.inj h ▸ .clashBack (Or.inr ⟨_, hsender⟩) hpushes
      · cases h

/-! ### A link in the hands of the gates -/

/-- A link after some run, in which these messages were passed to `Send`. -/
structure Link (l : TcpLink) (sent : List (List UInt8)) : Prop where
  reached : ∃ as, Transition.run TcpLink.step TcpLink.init as = some l
  sent_eq : l.sender.sent = sent

/-- Messages that a link carries. -/
def Short (messages : List (List UInt8)) : Prop := ∀ message ∈ messages, message.length < 2 ^ 31

namespace Link

variable {l l' : TcpLink} {sent : List (List UInt8)} {message : List UInt8}

theorem init : Link TcpLink.init [] := ⟨⟨[], rfl⟩, rfl⟩

theorem reached_step {a : TcpLink.Action} (h : Link l sent) (hstep : l.step a = some l') :
    ∃ as, Transition.run TcpLink.step TcpLink.init as = some l' := by
  obtain ⟨as, has⟩ := h.reached
  exact ⟨as ++ [a], Transition.run_concat_eq_some.2 ⟨l, has, hstep⟩⟩

theorem send (h : Link l sent) (hstep : l.step (.sender (.send message)) = some l') :
    Link l' (sent ++ [message]) :=
  ⟨h.reached_step hstep, (TcpLink.step_send hstep).1.trans (h.sent_eq ▸ rfl)⟩

theorem unsent {a : TcpLink.Action} (h : Link l sent)
    (hsend : ∀ message, a ≠ .sender (.send message)) (hstep : l.step a = some l') : Link l' sent :=
  ⟨h.reached_step hstep, (TcpLink.step_unsent hsend hstep).trans h.sent_eq⟩

/-- **What is queued are the first of the messages that are not empty.** -/
theorem enqueued_beginning (h : Link l sent) (hshort : Short sent) :
    l.receiver.enqueued <+: TcpLink.nonempty sent := by
  obtain ⟨as, has⟩ := h.reached
  exact h.sent_eq ▸ (TcpLink.run_inv (h.sent_eq ▸ hshort) has).enqueued

/-- All that is written are the frames of the messages. -/
theorem socket_begins (h : Link l sent) (hshort : Short sent) :
    l.sender.socket <+: wire sent := by
  obtain ⟨as, has⟩ := h.reached
  have hinv := TcpLink.run_inv (h.sent_eq ▸ hshort) has
  exact h.sent_eq ▸ hinv.sends.socket_begins

end Link

/-! ### The exchange over whole runs -/

/-- What the gate with `m_is_sender` has sent. -/
def SentForth (publicKey : List UInt8) : SenderPhase → List (List UInt8)
  | .connecting | .constructing | .sending => []
  | _ => [publicKey]

/-- What the other gate has sent, if it encrypts with this key. -/
def SentBack (ssl : RsaSSL Key Chance) (rsa : RSA Key) (aesKey aesIv : List UInt8) :
    ReceiverPhase → List (List UInt8) → Prop
  | .sendIv, sent => ∃ chance, sent = [rsa.encrypt ssl chance aesKey]
  | .returning, sent | .returned, sent => ∃ chance chance',
      sent = [rsa.encrypt ssl chance aesKey, rsa.encrypt ssl chance' aesIv]
  | _, sent => sent = []

/-- What the gate with `m_is_sender` has taken out of this queue. -/
def GotBack (ssl : RsaSSL Key Chance) (rsa : RSA Key) :
    SenderPhase → List (List UInt8) → Prop
  | .getIv enAesKey, enqueued => [enAesKey] <+: enqueued
  | .returned aesKey aesIv, enqueued => ∃ enAesKey enAesIv chance chance',
      [enAesKey, enAesIv] <+: enqueued ∧
        aesKey = rsa.decrypt ssl chance enAesKey ∧ aesIv = rsa.decrypt ssl chance' enAesIv
  | _, _ => True

/-- It stays where it was taken from. -/
theorem GotBack.mono {rsa : RSA Key} {phase : SenderPhase} {enqueued enqueued' : List (List UInt8)}
    (h : GotBack ssl rsa phase enqueued) (hmore : enqueued <+: enqueued') :
    GotBack ssl rsa phase enqueued' := by
  cases phase with
  | getIv => exact List.IsPrefix.trans h hmore
  | returned =>
      obtain ⟨enAesKey, enAesIv, chance, chance', hgot, hkey, hiv⟩ := h
      exact ⟨enAesKey, enAesIv, chance, chance', hgot.trans hmore, hkey, hiv⟩
  | _ => trivial

/-- `GetAESKey` is past the first `Get` of the gate that has no key. -/
def HasKey : ReceiverPhase → Prop
  | .accepting | .getPublicKey => False
  | _ => True

/-- The gate with `m_is_sender` has accepted the connection back. -/
def HasAccepted : SenderPhase → Prop
  | .getKey | .getIv _ | .returned _ _ => True
  | _ => False

/-- What holds of the two gates, if the one with `m_is_sender` has generated `pair`, or nothing. -/
structure Inv (pair : Option (KeyPair ssl)) (aesKey aesIv : List UInt8) (s : EchoGates Key) :
    Prop where
  senderRsa : s.senderRsa = ⟨pair.map KeyPair.pair⟩
  aesKey_eq : s.aesKey = aesKey
  aesIv_eq : s.aesIv = aesIv
  forth : ∀ l, s.forth = some l → Link l (SentForth (s.senderRsa.getPublicKey ssl) s.sender)
  /-- The key that came over the first link is the one that was sent. -/
  receiverRsa : HasKey s.receiver →
    ∃ p, pair = some p ∧ s.receiverRsa = ⟨some p.publicHalf⟩
  accepted : HasAccepted s.sender → s.back ≠ none
  back : ∀ l, s.back = some l → HasKey s.receiver ∧ ∃ sent, Link l sent ∧
    SentBack ssl s.receiverRsa aesKey aesIv s.receiver sent ∧
    GotBack ssl s.senderRsa s.sender l.receiver.enqueued

variable {pair : Option (KeyPair ssl)} {aesKey aesIv : List UInt8} {s s' : EchoGates Key}

theorem inv_init (receiverRsa : RSA Key) :
    Inv pair aesKey aesIv (init ⟨pair.map KeyPair.pair⟩ receiverRsa aesKey aesIv) where
  senderRsa := rfl
  aesKey_eq := rfl
  aesIv_eq := rfl
  forth := by rintro l ⟨⟩
  receiverRsa := by rintro ⟨⟩
  accepted := by rintro ⟨⟩
  back := by rintro l ⟨⟩

theorem short_publicKey (h : s.senderRsa = ⟨pair.map KeyPair.pair⟩) (phase : SenderPhase) :
    Short (SentForth (s.senderRsa.getPublicKey ssl) phase) := by
  have hkey : (s.senderRsa.getPublicKey ssl).length < 2 ^ 31 := by
    rw [h]
    cases pair with
    | none => exact Nat.two_pow_pos 31
    | some p => exact p.text_short
  intro message hm
  cases phase with
  | connecting | constructing | sending => cases hm
  | _ =>
      obtain rfl := List.mem_singleton.1 hm
      exact hkey

theorem short_ciphertexts {p : KeyPair ssl} {phase : ReceiverPhase} {sent : List (List UInt8)}
    (h : SentBack ssl ⟨some p.publicHalf⟩ aesKey aesIv phase sent) : Short sent := by
  intro message hm
  cases phase with
  | sendIv =>
      obtain ⟨chance, rfl⟩ := h
      obtain rfl := List.mem_singleton.1 hm
      exact p.length_encrypt_lt chance aesKey
  | returning | returned =>
      obtain ⟨chance, chance', rfl⟩ := h
      rcases List.mem_pair.1 hm with rfl | rfl
      · exact p.length_encrypt_lt chance aesKey
      · exact p.length_encrypt_lt chance' aesIv
  | _ =>
      obtain rfl : sent = [] := h
      cases hm

/-- A call on a sender leaves the links that are there. -/
theorem call_eq_some {link link' : Option TcpLink} {a : TCPSender.Action}
    (h : call link a = some link') :
    (link = none ∧ link' = none) ∨
      ∃ l l', link = some l ∧ l.step (.sender a) = some l' ∧ link' = some l' := by
  unfold call at h
  split at h
  · exact Or.inl ⟨rfl, (Option.some.inj h).symm⟩
  · obtain ⟨l', hl', rfl⟩ := Option.map_eq_some_iff.1 h
    exact Or.inr ⟨_, l', rfl, hl', rfl⟩

theorem get_eq_some {link : Option TcpLink} {n : ℕ} {message : List UInt8}
    (h : get link n = some message) :
    ∃ l, link = some l ∧ l.receiver.enqueued[n]? = some message := by
  unfold get at h
  split at h
  · cases h
  · exact ⟨_, rfl, h⟩

/-- The message behind those that were taken out before. -/
theorem concat_prefix {done enqueued : List (List UInt8)} {message : List UInt8}
    (h : done <+: enqueued) (hnext : enqueued[done.length]? = some message) :
    done ++ [message] <+: enqueued := by
  obtain ⟨rest, rfl⟩ := h
  rw [List.getElem?_append_right le_rfl, Nat.sub_self, ← List.head?_eq_getElem?] at hnext
  obtain ⟨rest', rfl⟩ := List.head?_eq_some_iff.1 hnext
  rw [List.prefix_append_right_inj]
  exact List.prefix_append [message] rest'

/-- The background does not send. -/
theorem free_unsent {b c : Bool} {a : TcpLink.Action} (h : Free b c a = true) :
    ∀ message, a ≠ .sender (.send message) := by
  rintro message rfl
  cases h

/-- What a call of the gate with `m_is_sender` on its sender does to the link forth. -/
theorem forth_of_call (phase : SenderPhase) {forth : Option TcpLink} {a : TCPSender.Action}
    (hs : Inv pair aesKey aesIv s) (h : call s.forth a = some forth)
    (hsent : ∀ l l', Link l (SentForth (s.senderRsa.getPublicKey ssl) s.sender) →
      l.step (.sender a) = some l' → Link l' (SentForth (s.senderRsa.getPublicKey ssl) phase)) :
    ∀ l, forth = some l → Link l (SentForth (s.senderRsa.getPublicKey ssl) phase) := by
  rcases call_eq_some h with ⟨-, rfl⟩ | ⟨l, l', hl, hstep, rfl⟩
  · rintro l ⟨⟩
  · rintro _ ⟨⟩
    exact hsent l l' (hs.forth l hl) hstep

/-- **What comes over the link forth is the generated key**, and it reads as its public half. -/
theorem publicKey_of_get {publicKey : List UInt8} (hs : Inv pair aesKey aesIv s)
    (h : get s.forth 0 = some publicKey) :
    ∃ p, pair = some p ∧ s.receiverRsa.setPublicKey ssl publicKey = ⟨some p.publicHalf⟩ := by
  obtain ⟨l, hl, hnext⟩ := get_eq_some h
  have hbeginning := (hs.forth l hl).enqueued_beginning (short_publicKey hs.senderRsa _)
  have hmem := hbeginning.subset (List.mem_of_getElem? hnext)
  obtain ⟨hsent, hnonempty⟩ := List.mem_filter.1 hmem
  have hpublicKey : publicKey = s.senderRsa.getPublicKey ssl := by
    unfold SentForth at hsent
    split at hsent
    · cases hsent
    · cases hsent
    · cases hsent
    · exact List.mem_singleton.1 hsent
  rw [hs.senderRsa] at hpublicKey
  cases pair with
  | none =>
      -- a gate without a key has sent an empty text, which does not come through
      obtain rfl : publicKey = [] := hpublicKey
      simp at hnonempty
  | some p =>
      obtain rfl : publicKey = ssl.writePublic p.pair := hpublicKey
      refine ⟨p, rfl, ?_⟩
      unfold RSA.setPublicKey
      rw [p.read_write]

/-- What a call of the other gate on its sender keeps. -/
theorem Inv.of_call {phase : ReceiverPhase} {back : Option TcpLink} {a : TCPSender.Action}
    (hs : Inv pair aesKey aesIv s) (hreceiver : HasKey s.receiver) (hphase : HasKey phase)
    (h : call s.back a = some back)
    (hsent : ∀ l l' sent, Link l sent →
      SentBack ssl s.receiverRsa aesKey aesIv s.receiver sent → l.step (.sender a) = some l' →
      ∃ sent', Link l' sent' ∧ SentBack ssl s.receiverRsa aesKey aesIv phase sent') :
    Inv pair aesKey aesIv { s with back, receiver := phase } := by
  rcases call_eq_some h with ⟨hnone, rfl⟩ | ⟨l, l', hl, hstep, rfl⟩
  · exact ⟨hs.senderRsa, hs.aesKey_eq, hs.aesIv_eq, hs.forth, fun _ => hs.receiverRsa hreceiver,
      fun hsender => absurd hnone (hs.accepted hsender), by rintro l ⟨⟩⟩
  · refine ⟨hs.senderRsa, hs.aesKey_eq, hs.aesIv_eq, hs.forth, fun _ => hs.receiverRsa hreceiver,
      fun _ => by simp, ?_⟩
    rintro _ ⟨⟩
    obtain ⟨-, sent, hlink, hback, hgot⟩ := hs.back l hl
    obtain ⟨sent', hlink', hback'⟩ := hsent l l' sent hlink hback hstep
    exact ⟨hphase, sent', hlink', hback', hgot.mono (TcpLink.step_enqueued hstep)⟩

/-- **What a step keeps.**  The steps of the one gate move the link forth on, those of the other one
the link back. -/
theorem step_inv {a : Action Chance} (hs : Inv pair aesKey aesIv s) (h : step ssl s a = some s') :
    Inv pair aesKey aesIv s' := by
  have hforth := hs.forth
  have hback := hs.back
  cases step_cases h with
  | connect hsender hreceiver =>
      refine ⟨hs.senderRsa, hs.aesKey_eq, hs.aesIv_eq, ?_, by rintro ⟨⟩, by rintro ⟨⟩, ?_⟩
      · rintro l ⟨⟩
        exact Link.init
      · intro l hl
        exact absurd (hback l hl).1 (by rw [hreceiver]; exact id)
  | connectFails hsender =>
      rw [hsender] at hforth hback
      exact ⟨hs.senderRsa, hs.aesKey_eq, hs.aesIv_eq, hforth, hs.receiverRsa, by rintro ⟨⟩, hback⟩
  | constructed hsender hcall =>
      have hlinks := forth_of_call .sending hs hcall fun l l' hlink hstep => by
        rw [hsender] at hlink
        exact hlink.unsent (by simp) hstep
      rw [hsender] at hback
      exact ⟨hs.senderRsa, hs.aesKey_eq, hs.aesIv_eq, hlinks, hs.receiverRsa, by rintro ⟨⟩, hback⟩
  | sendPublicKey hsender hcall =>
      have hlinks := forth_of_call .accepting hs hcall fun l l' hlink hstep => by
        rw [hsender] at hlink
        exact hlink.send hstep
      rw [hsender] at hback
      exact ⟨hs.senderRsa, hs.aesKey_eq, hs.aesIv_eq, hlinks, hs.receiverRsa, by rintro ⟨⟩, hback⟩
  | getPublicKey hreceiver hget =>
      refine ⟨hs.senderRsa, hs.aesKey_eq, hs.aesIv_eq, hforth, fun _ => publicKey_of_get hs hget,
        hs.accepted, fun l hl => ?_⟩
      exact absurd (hback l hl).1 (by rw [hreceiver]; exact id)
  | connectBack hreceiver hsender =>
      rw [hsender] at hforth
      refine ⟨hs.senderRsa, hs.aesKey_eq, hs.aesIv_eq, hforth,
        fun _ => hs.receiverRsa (by rw [hreceiver]; trivial), by rintro - ⟨⟩, ?_⟩
      rintro _ ⟨⟩
      exact ⟨trivial, [], Link.init, rfl, trivial⟩
  | connectBackFails hreceiver =>
      rw [hreceiver] at hback
      exact ⟨hs.senderRsa, hs.aesKey_eq, hs.aesIv_eq, hforth,
        fun _ => hs.receiverRsa (by rw [hreceiver]; trivial), hs.accepted,
        fun l hl => ⟨trivial, (hback l hl).2⟩⟩
  | constructedBack hreceiver hcall =>
      refine hs.of_call (by rw [hreceiver]; trivial) trivial hcall
        fun l l' sent hlink hsent hstep => ?_
      rw [hreceiver] at hsent
      exact ⟨sent, hlink.unsent (by simp) hstep, hsent⟩
  | @sendKey chance _ hreceiver hcall =>
      refine hs.of_call (by rw [hreceiver]; trivial) trivial hcall
        fun l l' sent hlink hsent hstep => ?_
      rw [hreceiver] at hsent
      obtain rfl : sent = [] := hsent
      exact ⟨_, hlink.send hstep, chance, by rw [hs.aesKey_eq]; rfl⟩
  | @sendIv chance _ hreceiver hcall =>
      refine hs.of_call (by rw [hreceiver]; trivial) trivial hcall
        fun l l' sent hlink hsent hstep => ?_
      rw [hreceiver] at hsent
      obtain ⟨chance', rfl⟩ := hsent
      exact ⟨_, hlink.send hstep, chance', chance, by rw [hs.aesIv_eq]; rfl⟩
  | returns hreceiver =>
      rw [hreceiver] at hback
      exact ⟨hs.senderRsa, hs.aesKey_eq, hs.aesIv_eq, hforth,
        fun _ => hs.receiverRsa (by rw [hreceiver]; trivial), hs.accepted,
        fun l hl => ⟨trivial, (hback l hl).2⟩⟩
  | getKey hsender hget =>
      obtain ⟨l, hl, hnext⟩ := get_eq_some hget
      rw [hsender] at hforth
      refine ⟨hs.senderRsa, hs.aesKey_eq, hs.aesIv_eq, hforth, hs.receiverRsa, fun _ => ?_,
        fun l' hl' => ?_⟩
      · exact Option.ne_none_iff_exists'.2 ⟨l, hl⟩
      · obtain rfl := Option.some.inj (hl.symm.trans hl')
        obtain ⟨hkey, sent, hlink, hsent, -⟩ := hback l hl
        exact ⟨hkey, sent, hlink, hsent, concat_prefix List.nil_prefix hnext⟩
  | @getIv chance chance' enAesKey enAesIv hsender hget =>
      obtain ⟨l, hl, hnext⟩ := get_eq_some hget
      rw [hsender] at hforth
      refine ⟨hs.senderRsa, hs.aesKey_eq, hs.aesIv_eq, hforth, hs.receiverRsa, fun _ => ?_,
        fun l' hl' => ?_⟩
      · exact Option.ne_none_iff_exists'.2 ⟨l, hl⟩
      · obtain rfl := Option.some.inj (hl.symm.trans hl')
        obtain ⟨hkey, sent, hlink, hsent, hgot⟩ := hback l hl
        rw [hsender] at hgot
        have hboth : [enAesKey] ++ [enAesIv] <+: l.receiver.enqueued :=
          concat_prefix hgot hnext
        exact ⟨hkey, sent, hlink, hsent, enAesKey, enAesIv, chance, chance', hboth, rfl, rfl⟩
  | @onForth _ l l' hfree hl hstep =>
      refine ⟨hs.senderRsa, hs.aesKey_eq, hs.aesIv_eq, ?_, hs.receiverRsa, hs.accepted, hback⟩
      rintro _ ⟨⟩
      exact (hforth l hl).unsent (free_unsent hfree) hstep
  | @onBack _ l l' hfree hl hstep =>
      obtain ⟨hkey, sent, hlink, hsent, hgot⟩ := hback l hl
      refine ⟨hs.senderRsa, hs.aesKey_eq, hs.aesIv_eq, hforth, hs.receiverRsa, by simp, ?_⟩
      rintro _ ⟨⟩
      exact ⟨hkey, sent, hlink.unsent (free_unsent hfree) hstep, hsent,
        hgot.mono (TcpLink.step_enqueued hstep)⟩
  | clashForth | clashBack =>
      exact ⟨hs.senderRsa, hs.aesKey_eq, hs.aesIv_eq, hforth, hs.receiverRsa, hs.accepted, hback⟩

theorem run_inv {receiverRsa : RSA Key} {as : List (Action Chance)}
    (h : Transition.run (step ssl) (init ⟨pair.map KeyPair.pair⟩ receiverRsa aesKey aesIv) as =
      some s) : Inv pair aesKey aesIv s :=
  Transition.run_invariant (I := Inv pair aesKey aesIv) (fun _ _ _ hs h => step_inv hs h)
    (inv_init receiverRsa) h

/-- Two messages came through, so both were sent and neither was empty. -/
theorem eq_of_got_two {x y : List UInt8} {sent : List (List UInt8)}
    (h : [x, y] <+: TcpLink.nonempty sent) (hsent : sent.length ≤ 2) :
    sent = [x, y] ∧ x ≠ [] ∧ y ≠ [] := by
  have hlength : sent.length ≤ (TcpLink.nonempty sent).length := by
    have htwo := h.length_le
    rw [List.length_cons, List.length_singleton] at htwo
    omega
  have hall : TcpLink.nonempty sent = sent := List.filter_sublist.eq_of_length_le hlength
  have hxy : sent = [x, y] := by
    rw [hall] at h
    exact (h.eq_of_length_le hsent).symm
  have hmem {z : List UInt8} (hz : z ∈ sent) : z ≠ [] := by
    rw [← hall] at hz
    simpa using (List.mem_filter.1 hz).2
  exact ⟨hxy, hmem (by simp [hxy]), hmem (by simp [hxy])⟩

/-- The other gate has sent both ciphertexts. -/
def HasSent : ReceiverPhase → Prop
  | .returning | .returned => True
  | _ => False

theorem Inv.agree {key iv : List UInt8} (hs : Inv pair aesKey aesIv s)
    (hreturned : s.sender = .returned key iv) :
    HasSent s.receiver ∧ (key = s.aesKey ∨ key = []) ∧ (iv = s.aesIv ∨ iv = []) := by
  obtain ⟨l, hl⟩ := Option.ne_none_iff_exists'.1 (hs.accepted (by rw [hreturned]; trivial))
  obtain ⟨hkey, sent, hlink, hsent, hgot⟩ := hs.back l hl
  obtain ⟨p, hp, hrsa⟩ := hs.receiverRsa hkey
  rw [hrsa] at hsent
  rw [hreturned] at hgot
  obtain ⟨enAesKey, enAesIv, chance, chance', hgot, rfl, rfl⟩ := hgot
  have hbeginning := hgot.trans (hlink.enqueued_beginning (short_ciphertexts hsent))
  have hsender : s.senderRsa = ⟨some p.pair⟩ := by
    rw [hs.senderRsa, hp]
    rfl
  rw [hsender, hs.aesKey_eq, hs.aesIv_eq]
  cases hreceiver : s.receiver with
  | returning | returned =>
      rw [hreceiver] at hsent
      obtain ⟨c, c', rfl⟩ := hsent
      obtain ⟨heq, hkeyText, hivText⟩ := eq_of_got_two hbeginning (by simp)
      obtain ⟨hfirst, hrest⟩ := List.cons_eq_cons.1 heq
      obtain ⟨hsecond, -⟩ := List.cons_eq_cons.1 hrest
      subst hfirst hsecond
      exact ⟨trivial, p.decrypt_of_encrypt hkeyText, p.decrypt_of_encrypt hivText⟩
  | sendIv =>
      rw [hreceiver] at hsent
      obtain ⟨c, rfl⟩ := hsent
      exact absurd (eq_of_got_two hbeginning (by simp)).1 (by simp)
  | _ =>
      rw [hreceiver] at hsent
      obtain rfl : sent = [] := hsent
      exact absurd (eq_of_got_two hbeginning (by simp)).1 (by simp)

/-- A cipher that flips the bits of a byte, in texts of up to 256 bytes. -/
def flipping : RsaSSL UInt8 ℕ where
  size := fun _ => 256
  writePublic := fun key => [key]
  readPublic := fun text => text.head?
  ctxNew := fun _ _ => true
  encryptInit := fun _ _ => 1
  encrypt := fun _ key room text =>
    if text.length ≤ room then (1, text.map fun b => b ^^^ key) else (0, [])
  decryptInit := fun _ _ => 1
  decrypt := fun _ key room text =>
    if text.length ≤ room then (1, text.map fun b => b ^^^ key) else (0, [])

/-- A key of it, its own public half. -/
def flippingPair (key : UInt8) : KeyPair flipping where
  pair := key
  publicHalf := key
  read_write := rfl
  decrypt_encrypt := fun _ _ plaintext hencrypt hdecrypt => by
    simp only [flipping] at hencrypt hdecrypt ⊢
    split_ifs at hencrypt with hroom
    · rw [if_pos hroom, if_pos (by simpa using hroom), List.map_map]
      refine (List.map_congr_left fun b _ => ?_).trans (List.map_id plaintext)
      show b ^^^ key ^^^ key = b
      rw [UInt8.xor_assoc, UInt8.xor_self, UInt8.xor_zero]
    · cases hencrypt
  text_short := by simp [flipping]
  ciphertext_short := fun _ plaintext => by
    simp only [flipping]
    split_ifs with hroom
    · rw [List.length_map]
      omega
    · exact Nat.two_pow_pos 31

/-- An exchange in which nothing fails, with two answers of this length. -/
def sampleRun (length : ℕ) : List (Action ℕ) :=
  [.connect, .constructed, .sendPublicKey, .onForth (.sender .look),
    .onForth (.sender .writeHeader), .onForth (.sender .writePayload), .onForth (.arrive 33),
    .onForth .turn, .getPublicKey, .connectBack, .constructedBack, .sendKey 0, .sendIv 0,
    .onBack (.sender .look), .onBack (.sender .writeHeader), .onBack (.sender .writePayload),
    .onBack (.sender .look), .onBack (.sender .writeHeader), .onBack (.sender .writePayload),
    .onBack (.arrive length), .onBack .turn, .onBack .turn, .getKey, .getIv 0 0, .returns]

/-- What `sampleRun` starts from. -/
def samplePair : Option (KeyPair flipping) := some (flippingPair 5)
def sampleInit (aesKey aesIv : List UInt8) : EchoGates UInt8 :=
  init ⟨samplePair.map KeyPair.pair⟩ ⟨none⟩ aesKey aesIv

/-- The first ciphertext comes while the gate is in `Get`, and not asleep. -/
example : ((Transition.run (step flipping) (sampleInit [1, 2] [3])
    ((sampleRun 67).take 20 ++ [.clashBack])).map clashed) = some true := rfl

end EchoGates

end Net
end BreUtils
