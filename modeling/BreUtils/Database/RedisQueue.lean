/-
# A Redis list as a queue

`LPush` and `RPop` on one key, or `RPush` and `LPop`, called by any number of clients in any order,
on any server that keeps what Redis promises.  The key starts absent.  A command is one step at the
server, and meanwhile any commands may be executed on other keys; but the connection may fail at
either end of a command.  Then a push is stored and returns `false`, or an item is removed and no
call returns it.

Whatever fails, the items are removed in the order in which they were stored, each once, and none is
lost between the two (`queue_conserves`).  As long as no reply is lost, the items that pops returned
and the items that wait are those whose pushes returned `true`, in this order (`queue_fifo`).
-/

import BreUtils.Database.RedisMgr
import BreUtils.Lib.Transition

namespace BreUtils
namespace Database
namespace RedisMgr

open Cpp
open Lib Lib.Redis

/-- The other end. -/
def opposite : Side → Side
  | .left => .right
  | .right => .left

section

variable {S : Type*} (exec : S → Command → Reply × S)

/-- `LPush` and `RPush`. -/
def pushAt : Side → Link → Bytes → Bytes → S → Outcome Bool × S
  | .left => lPush exec
  | .right => rPush exec

/-- `LPop` and `RPop`. -/
def popAt : Side → Link → Bytes → S → Outcome (Option Bytes) × S
  | .left => lPop exec
  | .right => rPop exec

end

/-- The server executes the command. -/
def Link.executes : Link → Bool
  | .noConnection => false
  | .noReply executed => executed
  | .replies => true

/-- The server, and the books: the values whose push returned `true`, and those that a pop returned;
what was stored, and what was removed. -/
structure ListQueue (S : Type*) where
  store : S
  accepted : List Bytes
  taken : List Bytes
  stored : List Bytes
  removed : List Bytes

namespace ListQueue

inductive Action where
  | push (link : Link) (value : Bytes)
  | pop (link : Link)
  /-- The server executes a command on another key. -/
  | elsewhere (command : Command)

variable {S : Type*} (server : Server S) (side : Side) (key : Bytes)

/-- Nothing is called yet. -/
def init (store : S) : ListQueue S := ⟨store, [], [], [], []⟩

/-- **One step**: items are pushed at `side` and popped at the other end. -/
def step (s : ListQueue S) : Action → Option (ListQueue S)
  | .push link value =>
      let call := pushAt server.exec side link key value s.store
      some { s with
        store := call.2
        accepted := if call.1.result = some true then s.accepted ++ [value] else s.accepted
        stored := if link.executes = true then s.stored ++ [cStr value] else s.stored }
  | .pop link =>
      let call := popAt server.exec (opposite side) link key s.store
      some { s with
        store := call.2
        taken := s.taken ++ (call.1.result.bind id).toList
        removed :=
          match link.executes, (server.exec s.store (.pop (opposite side) (cStr key))).1 with
          | true, .string value => s.removed ++ [value]
          | _, _ => s.removed }
  | .elsewhere command =>
      if command.key = cStr key then none
      else some { s with store := (server.exec s.store command).2 }

/-- The items under the key. -/
def waiting (s : ListQueue S) : Option (List Bytes) := items (server.entry s.store (cStr key))

/-- The items of a list, the one that is popped next first. -/
def inOrder : Side → List Bytes → List Bytes
  | .left, items => items.reverse
  | .right, items => items

variable {server} {side} {key} {s t : ListQueue S} {link : Link} {list : List Bytes}

/-! ### Lists as queues -/

theorem inOrder_push (side : Side) (value : Bytes) (list : List Bytes) :
    inOrder side (push side value list) = inOrder side list ++ [value] := by
  cases side with
  | left => exact List.reverse_cons
  | right => rfl

/-- What is popped at the other end is the first one in order. -/
theorem pop_opposite (side : Side) (list : List Bytes) :
    list = [] ∨ ∃ value rest, pop (opposite side) list = some (value, rest) ∧
      inOrder side list = value :: inOrder side rest := by
  cases side with
  | left =>
      rcases List.eq_nil_or_concat' list with rfl | ⟨rest, value, rfl⟩
      · exact Or.inl rfl
      · exact Or.inr ⟨value, rest, by simp [pop, opposite], by simp [inOrder]⟩
  | right =>
      cases list with
      | nil => exact Or.inl rfl
      | cons value rest => exact Or.inr ⟨value, rest, rfl, rfl⟩

/-- A pop takes the first item, if there is one. -/
theorem exec_pop (side : Side) {k : Bytes} {store : S}
    (hs : items (server.entry store k) = some list) :
    (list = [] ∧ (server.exec store (.pop (opposite side) k)).1 = .nil ∧
        items (server.entry (server.exec store (.pop (opposite side) k)).2 k) = some list) ∨
      ∃ value rest, inOrder side list = value :: inOrder side rest ∧
        (server.exec store (.pop (opposite side) k)).1 = .string value ∧
        items (server.entry (server.exec store (.pop (opposite side) k)).2 k) = some rest := by
  rcases pop_opposite side list with rfl | ⟨value, rest, hpop, horder⟩
  · exact Or.inl ⟨rfl, server.pop_empty (opposite side) hs⟩
  · exact Or.inr ⟨value, rest, horder, server.pop_item hs hpop⟩

/-! ### The invariant -/

/-- Under the key there is a list or nothing; what was removed and what waits is what was stored. -/
structure Inv (server : Server S) (side : Side) (key : Bytes) (s : ListQueue S) : Prop where
  waiting : ∃ list, waiting server key s = some list ∧ s.removed ++ inOrder side list = s.stored
  accepted : (s.accepted.map cStr).Sublist s.stored
  taken : s.taken.Sublist s.removed
  cut : ∀ value ∈ s.stored, cStr value = value

theorem inv_init {store : S} (hkey : server.entry store (cStr key) = none) :
    Inv server side key (init store) where
  waiting := ⟨[], congrArg items hkey, by cases side <;> rfl⟩
  accepted := List.Sublist.refl _
  taken := List.Sublist.refl _
  cut := by simp [init]

/-- What `LPush` and `RPush` do on a list. -/
theorem pushAt_cases (side : Side) (link : Link) (value : Bytes) {store : S}
    (hs : items (server.entry store (cStr key)) = some list) :
    (link.executes = true →
        items (server.entry (pushAt server.exec side link key value store).2 (cStr key)) =
          some (push side (cStr value) list)) ∧
      (link.executes = false → (pushAt server.exec side link key value store).2 = store) ∧
      ((pushAt server.exec side link key value store).1.result = some true →
        link.executes = true) ∧
      (link = .replies → (pushAt server.exec side link key value store).1.result = some true) := by
  have hreply := server.push_reply side (cStr value) hs
  have hstore := server.push_entry side (cStr value) hs
  have hcall : pushAt server.exec side link key value store =
      request server.exec link (.push side (cStr key) (cStr value)) false readPush store := by
    cases side <;> rfl
  rw [hcall]
  cases link with
  | noConnection => exact ⟨by simp [Link.executes], fun _ => rfl, by simp [request], by simp⟩
  | noReply executed =>
      cases executed with
      | false =>
          exact ⟨by simp [Link.executes], fun _ => rfl, by simp [request, readPush], by simp⟩
      | true => exact ⟨fun _ => hstore, by simp [Link.executes], fun _ => rfl, by simp⟩
  | replies =>
      refine ⟨fun _ => hstore, by simp [Link.executes], fun _ => rfl, fun _ => ?_⟩
      have hpos : (0 : ℤ) < list.length + 1 := by omega
      simp [request, hreply, readPush, hpos]

theorem step_push_inv (hs : Inv server side key s) (value : Bytes)
    (h : step server side key s (.push link value) = some t) : Inv server side key t := by
  obtain ⟨list, hlist, hstored⟩ := hs.waiting
  obtain ⟨hexecutes, hidle, htrue, -⟩ := pushAt_cases side link value hlist
  obtain rfl := Option.some.inj h
  cases hlink : link.executes with
  | true =>
      refine ⟨⟨push side (cStr value) list, hexecutes hlink, ?_⟩, ?_, hs.taken, ?_⟩
      · dsimp only
        rw [if_pos rfl, inOrder_push, ← List.append_assoc, hstored]
      · dsimp only
        rw [if_pos rfl]
        split_ifs
        · rw [List.map_append]
          exact hs.accepted.append (List.Sublist.refl _)
        · exact hs.accepted.trans (List.sublist_append_left _ _)
      · dsimp only
        rw [if_pos rfl]
        intro v hv
        rcases List.mem_append.1 hv with hv | hv
        · exact hs.cut v hv
        · rw [List.mem_singleton.1 hv]
          exact cStr_cStr value
  | false =>
      have hresult : (pushAt server.exec side link key value s.store).1.result ≠ some true :=
        fun hresult => by
          rw [htrue hresult] at hlink
          exact absurd hlink (by simp)
      refine ⟨⟨list, ?_, ?_⟩, ?_, hs.taken, ?_⟩
      · rw [waiting, hidle hlink]
        exact hlist
      · exact hstored
      · simp only [if_neg hresult]
        exact hs.accepted
      · exact hs.cut

/-- What `LPop` and `RPop` do on a list. -/
theorem popAt_cases (side : Side) (link : Link) {store : S}
    (hs : items (server.entry store (cStr key)) = some list) :
    (link.executes = false ∧ (popAt server.exec (opposite side) link key store).2 = store ∧
        (popAt server.exec (opposite side) link key store).1.result = some none) ∨
      link.executes = true ∧
        ((list = [] ∧
            (popAt server.exec (opposite side) link key store).1.result = some none ∧
            (server.exec store (.pop (opposite side) (cStr key))).1 = .nil ∧
            items (server.entry (popAt server.exec (opposite side) link key store).2 (cStr key)) =
              some list) ∨
          ∃ value rest, inOrder side list = value :: inOrder side rest ∧
            (server.exec store (.pop (opposite side) (cStr key))).1 = .string value ∧
            items (server.entry (popAt server.exec (opposite side) link key store).2 (cStr key)) =
              some rest ∧
            ((popAt server.exec (opposite side) link key store).1.result = some none ∧
                link ≠ .replies ∨
              (popAt server.exec (opposite side) link key store).1.result =
                some (some (cStr value)))) := by
  have hcall : popAt server.exec (opposite side) link key store =
      request server.exec link (.pop (opposite side) (cStr key)) none readPop store := by
    cases side <;> rfl
  have hexec := exec_pop side hs
  rw [hcall]
  cases link with
  | noConnection => exact Or.inl ⟨rfl, rfl, rfl⟩
  | noReply executed =>
      cases executed with
      | false => exact Or.inl ⟨rfl, rfl, rfl⟩
      | true =>
          refine Or.inr ⟨rfl, ?_⟩
          rcases hexec with ⟨hempty, hreply, hstore⟩ | ⟨value, rest, horder, hreply, hstore⟩
          · exact Or.inl ⟨hempty, rfl, hreply, hstore⟩
          · exact Or.inr ⟨value, rest, horder, hreply, hstore, Or.inl ⟨rfl, by simp⟩⟩
  | replies =>
      refine Or.inr ⟨rfl, ?_⟩
      rcases hexec with ⟨hempty, hreply, hstore⟩ | ⟨value, rest, horder, hreply, hstore⟩
      · exact Or.inl ⟨hempty, by simp [request, hreply, readPop], hreply, hstore⟩
      · refine Or.inr ⟨value, rest, horder, hreply, hstore, Or.inr ?_⟩
        simp [request, hreply, readPop, str]

theorem step_pop_inv (hs : Inv server side key s)
    (h : step server side key s (.pop link) = some t) : Inv server side key t := by
  obtain ⟨list, hlist, hstored⟩ := hs.waiting
  obtain rfl := Option.some.inj h
  rcases popAt_cases side link hlist with ⟨hlink, hstore, hresult⟩ |
    ⟨hlink, ⟨hempty, hresult, hreply, hstore⟩ | ⟨value, rest, horder, hreply, hstore, hresult⟩⟩
  · refine ⟨⟨list, ?_, ?_⟩, hs.accepted, ?_, hs.cut⟩
    · rw [waiting, hstore]
      exact hlist
    · simp only [hlink]
      exact hstored
    · simpa [hlink, hresult] using hs.taken
  · refine ⟨⟨list, hstore, ?_⟩, hs.accepted, ?_, hs.cut⟩
    · simp only [hlink, hreply]
      exact hstored
    · simpa [hlink, hreply, hresult] using hs.taken
  · rw [horder] at hstored
    have hcut : cStr value = value := hs.cut value (by rw [← hstored]; simp)
    refine ⟨⟨rest, hstore, ?_⟩, hs.accepted, ?_, hs.cut⟩
    · simp only [hlink, hreply]
      rw [List.append_assoc]
      exact hstored
    · simp only [hlink, hreply]
      rcases hresult with ⟨hnone, -⟩ | hsome
      · rw [hnone]
        exact (List.append_nil s.taken).symm ▸ hs.taken.trans (List.sublist_append_left _ _)
      · rw [hsome, hcut]
        exact hs.taken.append (List.Sublist.refl _)

/-- A command on another key. -/
theorem elsewhere_eq_some {command : Command}
    (h : step server side key s (.elsewhere command) = some t) :
    t = { s with store := (server.exec s.store command).2 } ∧
      waiting server key t = waiting server key s := by
  simp only [step] at h
  split_ifs at h with hkey
  obtain rfl := Option.some.inj h
  exact ⟨rfl, congrArg items (server.exec_of_ne s.store command (Ne.symm hkey))⟩

theorem step_inv {a : Action} (hs : Inv server side key s)
    (h : step server side key s a = some t) : Inv server side key t := by
  cases a with
  | push link value => exact step_push_inv hs value h
  | pop link => exact step_pop_inv hs h
  | elsewhere command =>
      obtain ⟨rfl, hwaiting⟩ := elsewhere_eq_some h
      obtain ⟨list, hlist, hstored⟩ := hs.waiting
      exact ⟨⟨list, hwaiting.trans hlist, hstored⟩, hs.accepted, hs.taken, hs.cut⟩

theorem run_inv {store : S} {as : List Action} (hkey : server.entry store (cStr key) = none)
    (h : Transition.run (step server side key) (init store) as = some s) :
    Inv server side key s :=
  Transition.run_invariant (I := Inv server side key) (fun _ _ _ hs h => step_inv hs h)
    (inv_init hkey) h

/-- **Whatever fails, a list that is pushed at one end and popped at the other is a queue.**  On any
server that keeps what Redis promises, from an absent key on: what was removed and what waits in the
list is what was stored, in this order; pops return what was removed, in order and each at most
once, and a push that returned `true` has stored its value up to the first NUL. -/
theorem queue_conserves {store : S} {as : List Action}
    (hkey : server.entry store (cStr key) = none)
    (h : Transition.run (step server side key) (init store) as = some s) :
    (∃ list, waiting server key s = some list ∧ s.removed ++ inOrder side list = s.stored) ∧
      s.taken.Sublist s.removed ∧ (s.accepted.map cStr).Sublist s.stored :=
  ⟨(run_inv hkey h).waiting, (run_inv hkey h).taken, (run_inv hkey h).accepted⟩

/-- **A lost reply loses an item**: it is removed, and no call returns it. -/
theorem queue_conserves_sample :
    ∃ s, Transition.run (step keySpace .left (ascii "jobs")) (init keySpace.empty)
        [.push .replies [1], .elsewhere (.set [1] [2]), .pop (.noReply true), .pop .replies] =
          some s ∧
      s.accepted = [[1]] ∧ s.taken = [] ∧ s.removed = [[1]] ∧
      ∃ list, waiting keySpace (ascii "jobs") s = some list ∧
        s.removed ++ inOrder .left list = s.stored := by
  obtain ⟨s, h, haccepted, htaken, hremoved⟩ :
      ∃ s, Transition.run (step keySpace .left (ascii "jobs")) (init keySpace.empty)
        [.push .replies [1], .elsewhere (.set [1] [2]), .pop (.noReply true), .pop .replies] =
          some s ∧
      s.accepted = [[1]] ∧ s.taken = [] ∧ s.removed = [[1]] :=
    ⟨_, rfl, by decide, by decide, by decide⟩
  exact ⟨s, h, haccepted, htaken, hremoved, (queue_conserves rfl h).1⟩

/-! ### As long as no reply is lost -/

/-- A command that is executed is answered. -/
def Answered : Action → Prop
  | .push link _ | .pop link => link.executes = true → link = .replies
  | .elsewhere _ => True

theorem step_books {a : Action} (hs : Inv server side key s)
    (hbooks : s.accepted.map cStr = s.stored ∧ s.taken = s.removed) (ha : Answered a)
    (h : step server side key s a = some t) :
    t.accepted.map cStr = t.stored ∧ t.taken = t.removed := by
  obtain ⟨haccepted, htaken⟩ := hbooks
  obtain ⟨list, hlist, hstored⟩ := hs.waiting
  cases a with
  | push link value =>
      obtain ⟨-, -, htrue, hreplies⟩ := pushAt_cases side link value hlist
      obtain rfl := Option.some.inj h
      refine ⟨?_, htaken⟩
      cases hlink : link.executes with
      | true =>
          have hresult := hreplies (ha hlink)
          simp only [hresult, if_true, List.map_append, haccepted]
          rfl
      | false =>
          have hresult : (pushAt server.exec side link key value s.store).1.result ≠ some true :=
            fun hresult => by
              rw [htrue hresult] at hlink
              exact absurd hlink (by simp)
          simp only [if_neg hresult]
          exact haccepted
  | pop link =>
      obtain rfl := Option.some.inj h
      refine ⟨haccepted, ?_⟩
      rcases popAt_cases side link hlist with ⟨hlink, -, hresult⟩ |
        ⟨hlink, ⟨-, hresult, hreply, -⟩ | ⟨value, rest, horder, hreply, -, hresult⟩⟩
      · simp only [hlink, hresult]
        exact (List.append_nil _).trans htaken
      · simp only [hlink, hreply, hresult]
        exact (List.append_nil _).trans htaken
      · rcases hresult with ⟨-, hne⟩ | hsome
        · exact absurd (ha hlink) hne
        · rw [horder] at hstored
          have hcut : cStr value = value := hs.cut value (by rw [← hstored]; simp)
          simp only [hlink, hreply, hsome, hcut, htaken]
          rfl
  | elsewhere command =>
      obtain ⟨rfl, -⟩ := elsewhere_eq_some h
      exact ⟨haccepted, htaken⟩

/-- **First in, first out.**  On any server that keeps what Redis promises, from an absent key on,
and as long as no reply is lost, whatever connections are missing: the values that pops returned,
and after them those that wait in the list, are the values whose pushes returned `true`, up to their
first NUL, in the order of the pushes. -/
theorem queue_fifo {store : S} {as : List Action} (hkey : server.entry store (cStr key) = none)
    (h : Transition.run (step server side key) (init store) as = some s)
    (ha : ∀ a ∈ as, Answered a) :
    ∃ list, waiting server key s = some list ∧
      s.taken ++ inOrder side list = s.accepted.map cStr := by
  have hbooks := Transition.run_invariant_of_meets
    (I := fun s => Inv server side key s ∧ (s.accepted.map cStr = s.stored ∧ s.taken = s.removed))
    (fun _ _ _ hs ha h => ⟨step_inv hs.1 h, step_books hs.1 hs.2 ha h⟩) ⟨inv_init hkey, rfl, rfl⟩
    (Transition.meets_of_forall_mem ha (init store)) h
  obtain ⟨hinv, haccepted, htaken⟩ := hbooks
  obtain ⟨list, hlist, hstored⟩ := hinv.waiting
  exact ⟨list, hlist, by rw [htaken, haccepted, hstored]⟩

/-- Two values, one of them cut, and one pop. -/
theorem queue_fifo_sample :
    ∃ s, Transition.run (step keySpace .left (ascii "jobs")) (init keySpace.empty)
        [.push .replies [1], .push .noConnection [9], .push .replies [2, 0, 3],
          .pop .replies] = some s ∧
      s.accepted = [[1], [2, 0, 3]] ∧ s.taken = [[1]] ∧
      ∃ list, waiting keySpace (ascii "jobs") s = some list ∧
        s.taken ++ inOrder .left list = s.accepted.map cStr := by
  obtain ⟨s, h, haccepted, htaken⟩ :
      ∃ s, Transition.run (step keySpace .left (ascii "jobs")) (init keySpace.empty)
        [.push .replies [1], .push .noConnection [9], .push .replies [2, 0, 3],
          .pop .replies] = some s ∧ s.accepted = [[1], [2, 0, 3]] ∧ s.taken = [[1]] :=
    ⟨_, rfl, by decide, by decide⟩
  refine ⟨s, h, haccepted, htaken, queue_fifo rfl h fun a ha => ?_⟩
  simp only [List.mem_cons, List.not_mem_nil, or_false] at ha
  rcases ha with rfl | rfl | rfl | rfl
  · exact fun _ => rfl
  · exact fun hexecutes => absurd hexecutes (by simp [Link.executes])
  · exact fun _ => rfl
  · exact fun _ => rfl

end ListQueue

end RedisMgr
end Database
end BreUtils
