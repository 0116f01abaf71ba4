/-
# The keep-alive pass of `database/RedisPool.hpp`

A pass of `checkThread` goes once through the queue.  hiredis reports a failure by a null
pointer, and then the context goes back into the queue as it is: only an exception leads to
the reconnection.  So of the contexts that are in the queue after the pass each has answered
`PING`, or is a new one, exactly if no `PING` of the pass gets a null pointer
(`pass_repairs_iff`).
-/

import BreUtils.Database.RedisPool

namespace BreUtils
namespace Database
namespace RedisPool

open Lib

/-- What comes of a round of the loop of `checkThread`. -/
inductive Round where
  /-- `PING` gets a reply. -/
  | answered
  /-- `PING` gets a null pointer. -/
  | null
  /-- `redisCommand` throws; what comes of the reconnection, and of `AUTH` where it gets there. -/
  | threw (result : Connect) (reply : Auth)
  deriving DecidableEq

namespace Round

/-- Its steps. -/
def actions : Round → List Action
  | answered | null => [.take, .ping .returned]
  | threw .established reply => [.take, .ping .threw, .connect .established, .auth reply]
  | threw result _ => [.take, .ping .threw, .connect result]

end Round

/-- In one of the rounds from `s` on, such a round, these steps of it lead to such a phase. -/
def Reaches (s : RedisPool) (rounds : List Round) (round : Round) (steps : List Action)
    (Q : Phase → Prop) : Prop :=
  ∃ before after t, rounds = before ++ round :: after ∧
    Transition.run step s (before.flatMap Round.actions ++ steps) = some t ∧ Q t.phase

/-- In such a round `context` is what `PING` is sent over. -/
def Pinged (s : RedisPool) (rounds : List Round) (round : Round) (context : ℕ) : Prop :=
  Reaches s rounds round [.take] fun phase => ∃ left, phase = .pinging left context

/-- In a round `context` is connected, and passes `AUTH`. -/
def Renewed (s : RedisPool) (rounds : List Round) (context : ℕ) : Prop :=
  Reaches s rounds (.threw .established .ok) [.take, .ping .threw, .connect .established]
    fun phase => ∃ left, phase = .reauthenticating left context

/-- **The pool is repaired:** each context in the queue of `t` has answered `PING` in one of the
rounds from `s` on, or is a new one. -/
def Repaired (s : RedisPool) (rounds : List Round) (t : RedisPool) : Prop :=
  ∀ context ∈ t.connections, Pinged s rounds .answered context ∨ Renewed s rounds context

/-! ### One round -/

variable {s t u : RedisPool} {first round : Round} {rounds : List Round} {left context c : ℕ}
  {queue rest back : List ℕ}

theorem step_take (hphase : s.phase = .checking (left + 1)) (hstop : s.bStop = false)
    (hconnections : s.connections = context :: rest) :
    step s .take = some { s with connections := rest, phase := .pinging left context } := by
  simp only [step, hphase, hstop, hconnections]

/-- What a round puts into the queue, where `fresh` is the next context. -/
def Round.pushed (context fresh : ℕ) : Round → List ℕ
  | answered | null => [context]
  | threw .established .ok => [fresh]
  | threw _ _ => []

theorem Round.mem_pushed {fresh : ℕ} : c ∈ round.pushed context fresh ↔
    (.answered = round ∧ c = context) ∨ (.null = round ∧ c = context) ∨
      (.threw .established .ok = round ∧ c = fresh) := by
  cases round with
  | answered | null => simp [pushed]
  | threw result reply => cases result <;> cases reply <;> simp [pushed]

/-- **What a round does:** the context at the front goes to the back if `PING` returns, and a new
one does if it throws and the reconnection works. -/
theorem run_round (round : Round) (hphase : s.phase = .checking (left + 1))
    (hstop : s.bStop = false)
    (hconnections : s.connections = context :: rest) :
    ∃ t, Transition.run step s round.actions = some t ∧ t.phase = .checking left ∧
      t.bStop = false ∧ s.connected ≤ t.connected ∧
      t.connections = rest ++ round.pushed context s.connected := by
  have htake := step_take hphase hstop hconnections
  cases round with
  | answered | null =>
      simp only [Round.actions, Transition.run_cons, htake, Option.bind_some]
      exact ⟨_, rfl, rfl, hstop, Nat.le_refl _, rfl⟩
  | threw result reply =>
      cases result with
      | null =>
          simp only [Round.actions, Transition.run_cons, htake, Option.bind_some]
          exact ⟨_, rfl, rfl, hstop, Nat.le_refl _, (List.append_nil rest).symm⟩
      | failed =>
          simp only [Round.actions, Transition.run_cons, htake, Option.bind_some]
          exact ⟨_, rfl, rfl, hstop, Nat.le_succ _, (List.append_nil rest).symm⟩
      | established =>
          cases reply with
          | error =>
              simp only [Round.actions, Transition.run_cons, htake, Option.bind_some]
              exact ⟨_, rfl, rfl, hstop, Nat.le_succ _, (List.append_nil rest).symm⟩
          | ok =>
              simp only [Round.actions, Transition.run_cons, htake, Option.bind_some]
              exact ⟨_, rfl, rfl, hstop, Nat.le_succ _, rfl⟩

theorem reaches_cons {steps : List Action} {Q : Phase → Prop}
    (ht : Transition.run step s first.actions = some t) :
    Reaches s (first :: rounds) round steps Q ↔
      (round = first ∧ ∃ u, Transition.run step s steps = some u ∧ Q u.phase) ∨
        Reaches t rounds round steps Q := by
  have hskip (before : List Round) :
      Transition.run step s ((first :: before).flatMap Round.actions ++ steps) =
        Transition.run step t (before.flatMap Round.actions ++ steps) := by
    rw [List.flatMap_cons, List.append_assoc, Transition.run_append, ht, Option.bind_some]
  constructor
  · rintro ⟨before, after, u, hrounds, hu, hphase⟩
    cases before with
    | nil => exact Or.inl ⟨(List.cons.inj hrounds).1.symm, u, hu, hphase⟩
    | cons first' before =>
        obtain ⟨rfl, hafter⟩ := List.cons.inj hrounds
        rw [hskip] at hu
        exact Or.inr ⟨before, after, u, hafter, hu, hphase⟩
  · rintro (⟨rfl, u, hu, hphase⟩ | ⟨before, after, u, rfl, hu, hphase⟩)
    · exact ⟨[], rounds, u, rfl, hu, hphase⟩
    · exact ⟨first :: before, after, u, rfl, (hskip before).trans hu, hphase⟩

theorem not_reaches_nil {steps : List Action} {Q : Phase → Prop} :
    ¬ Reaches s [] round steps Q := by
  rintro ⟨before, after, -, hnil, -⟩
  simp at hnil

section Cons

variable (hphase : s.phase = .checking (left + 1)) (hstop : s.bStop = false)
  (hconnections : s.connections = context :: rest)
  (ht : Transition.run step s first.actions = some t)

include hphase hstop hconnections ht

theorem pinged_cons : Pinged s (first :: rounds) round c ↔
    (round = first ∧ c = context) ∨ Pinged t rounds round c := by
  have htake : Transition.run step s [.take] =
      some { s with connections := rest, phase := .pinging left context } := by
    simp only [Transition.run_cons, Transition.run_nil, Option.bind_some,
      step_take hphase hstop hconnections]
  rw [Pinged, reaches_cons ht, htake]
  refine or_congr_left (and_congr_right fun _ => ?_)
  constructor
  · rintro ⟨u, hu, left', hpinging⟩
    obtain rfl := Option.some.inj hu
    exact (Phase.pinging.inj hpinging).2.symm
  · rintro rfl
    exact ⟨_, rfl, left, rfl⟩

theorem renewed_cons : Renewed s (first :: rounds) c ↔
    (.threw .established .ok = first ∧ c = s.connected) ∨ Renewed t rounds c := by
  have hconnect : Transition.run step s [.take, .ping .threw, .connect .established] =
      some { s with
        connections := rest
        freed := s.freed ++ [context]
        connected := s.connected + 1
        phase := .reauthenticating left s.connected } := by
    simp only [Transition.run_cons, step_take hphase hstop hconnections, Option.bind_some]
    rfl
  rw [Renewed, reaches_cons ht, hconnect]
  refine or_congr_left (and_congr_right fun _ => ?_)
  constructor
  · rintro ⟨u, hu, left', hauth⟩
    obtain rfl := Option.some.inj hu
    exact (Phase.reauthenticating.inj hauth).2.symm
  · rintro rfl
    exact ⟨_, rfl, left, rfl⟩

end Cons

/-! ### A pass -/

/-- **What a pass does.**  The rounds take the contexts that were in the queue one after the other,
new contexts are new, and nothing else is in the queue afterwards. -/
theorem run_rounds (hphase : s.phase = .checking queue.length) (hstop : s.bStop = false)
    (hconnections : s.connections = queue ++ back) (hlength : rounds.length = queue.length) :
    (∃ t, Transition.run step s (rounds.flatMap Round.actions) = some t ∧
      t.phase = .checking 0 ∧ ∀ c, c ∈ t.connections ↔
        c ∈ back ∨ Pinged s rounds .answered c ∨ Pinged s rounds .null c ∨ Renewed s rounds c) ∧
      (∀ round c, Pinged s rounds round c ↔ (round, c) ∈ rounds.zip queue) ∧
      ∀ c, Renewed s rounds c → s.connected ≤ c := by
  induction rounds generalizing s queue back with
  | nil =>
      obtain rfl := List.length_eq_zero_iff.1 hlength.symm
      have hpinged (round : Round) (c : ℕ) : ¬ Pinged s [] round c := not_reaches_nil
      have hrenewed (c : ℕ) : ¬ Renewed s [] c := not_reaches_nil
      refine ⟨⟨s, rfl, hphase, fun c => ?_⟩, fun round c => ?_, fun c hc => absurd hc (hrenewed c)⟩
      · simp [hconnections, hpinged, hrenewed]
      · simp [hpinged]
  | cons first rounds ih =>
      cases queue with
      | nil => simp at hlength
      | cons context queue =>
          rw [List.length_cons] at hphase
          rw [List.cons_append] at hconnections
          obtain ⟨t, ht, hphase', hstop', hconnected, hconnections'⟩ :=
            run_round first hphase hstop hconnections
          have hpinged (round : Round) (c : ℕ) : Pinged s (first :: rounds) round c ↔
              (round = first ∧ c = context) ∨ Pinged t rounds round c :=
            pinged_cons hphase hstop hconnections ht
          have hrenewed (c : ℕ) : Renewed s (first :: rounds) c ↔
              (.threw .established .ok = first ∧ c = s.connected) ∨ Renewed t rounds c :=
            renewed_cons hphase hstop hconnections ht
          rw [List.append_assoc] at hconnections'
          obtain ⟨⟨u, hu, hdone, hmem⟩, hzip, hnew⟩ :=
            ih hphase' hstop' hconnections' (Nat.succ.inj hlength)
          refine ⟨⟨u, ?_, hdone, fun c => ?_⟩, fun round c => ?_, fun c hc => ?_⟩
          · rw [List.flatMap_cons, Transition.run_append, ht, Option.bind_some, hu]
          · rw [hmem, hpinged, hpinged, hrenewed, List.mem_append, Round.mem_pushed]
            tauto
          · rw [hpinged, hzip, List.zip_cons_cons, List.mem_cons, Prod.mk.injEq]
          · rcases (hrenewed c).1 hc with ⟨-, rfl⟩ | hc
            · exact Nat.le_refl _
            · exact Nat.le_trans hconnected (hnew c hc)

/-- What holds of every pool: no context is in two places, and all were connected. -/
def Known (s : RedisPool) : Prop := s.contexts.Nodup ∧ ∀ c ∈ s.contexts, c < s.connected

theorem known_step {a : Action} (hs : s.Known) (h : step s a = some t) : t.Known := by
  rcases step_contexts h with ⟨-, hconnected, hperm⟩ | ⟨-, hconnected, hperm⟩ |
    ⟨-, hconnected, context, hperm⟩
  · refine ⟨hperm.nodup_iff.2 hs.1, fun c hc => ?_⟩
    rw [hconnected]
    exact hs.2 c (hperm.mem_iff.1 hc)
  · refine ⟨hperm.nodup_iff.2 (List.nodup_cons.2 ⟨fun hmem => ?_, hs.1⟩), fun c hc => ?_⟩
    · exact Nat.lt_irrefl _ (hs.2 _ hmem)
    · rw [hconnected]
      rcases List.mem_cons.1 (hperm.mem_iff.1 hc) with rfl | hc
      · exact Nat.lt_succ_self _
      · exact Nat.lt_succ_of_lt (hs.2 c hc)
  · refine ⟨(List.nodup_cons.1 (hperm.nodup_iff.2 hs.1)).2, fun c hc => ?_⟩
    rw [hconnected]
    exact hs.2 c (hperm.mem_iff.1 (List.mem_cons_of_mem _ hc))

theorem known_run {poolSize : ℕ} {as : List Action}
    (h : Transition.run step (init poolSize) as = some s) : s.Known := by
  have hinit : (init poolSize).Known :=
    ⟨List.nodup_nil, fun c hc => absurd hc List.not_mem_nil⟩
  exact Transition.run_invariant (fun _ _ _ hs h => known_step hs h) hinit h

/-- A context is in one round. -/
theorem eq_of_mem_zip {round' : Round} (hqueue : queue.Nodup) (h : (round, c) ∈ rounds.zip queue)
    (h' : (round', c) ∈ rounds.zip queue) : round = round' := by
  obtain ⟨i, hi⟩ := List.mem_iff_getElem?.1 h
  obtain ⟨j, hj⟩ := List.mem_iff_getElem?.1 h'
  rw [List.getElem?_zip_eq_some] at hi hj
  obtain ⟨hlt, -⟩ := List.getElem?_eq_some_iff.1 hi.2
  obtain rfl := (List.getElem?_inj hlt hqueue).1 (hi.2.trans hj.2.symm)
  exact Option.some.inj (hi.1.symm.trans hj.1)

/-- **When a pass repairs the pool.**  In any run, a pass of `checkThread` that is not stopped goes
through a round for each context in the queue.  Afterwards every context in the queue has answered
`PING` in the pass, or was connected and authenticated in it, exactly if no `PING` got a null
pointer. -/
theorem pass_repairs_iff {poolSize : ℕ} {as : List Action}
    (h : Transition.run step (init poolSize) as = some s) (hphase : s.phase = .unlocked)
    (hstop : s.bStop = false) (hrounds : rounds.length = s.connections.length) :
    ∃ t u, step s .checkThread = some t ∧
      Transition.run step t (rounds.flatMap Round.actions ++ [.checked]) = some u ∧
      (Repaired t rounds u ↔ ∀ round ∈ rounds, round ≠ .null) := by
  have hknown := known_run h
  simp only [Known, contexts, List.append_assoc] at hknown
  have hnodup := (List.nodup_append.1 hknown.1).1
  have hlt (c : ℕ) (hc : c ∈ s.connections) := hknown.2 c (List.mem_append_left _ hc)
  have hcheck : step s .checkThread =
      some { s with phase := .checking s.connections.length } := by
    simp [step, hphase, hstop]
  obtain ⟨⟨v, hv, hdone, hmem⟩, hzip, hnew⟩ :=
    run_rounds (s := { s with phase := .checking s.connections.length }) rfl hstop
      (List.append_nil s.connections).symm hrounds
  refine ⟨_, { v with phase := .unlocked }, hcheck, ?_, ?_⟩
  · rw [Transition.run_append, hv, Option.bind_some]
    simp [step, hdone]
  · constructor
    · rintro hrepaired round hround rfl
      -- the context of this round is in the queue, and has done nothing to be there
      obtain ⟨k, hk⟩ := List.mem_iff_getElem?.1 hround
      obtain ⟨hklt, -⟩ := List.getElem?_eq_some_iff.1 hk
      have hc : s.connections[k]? = some s.connections[k] := List.getElem?_eq_getElem (by omega)
      generalize s.connections[k] = c at hc
      have hnull : (Round.null, c) ∈ rounds.zip s.connections :=
        List.mem_iff_getElem?.2 ⟨k, List.getElem?_zip_eq_some.2 ⟨hk, hc⟩⟩
      rcases hrepaired c ((hmem c).2 (Or.inr (Or.inr (Or.inl ((hzip _ c).2 hnull))))) with
        hanswered | hrenewed
      · exact absurd (eq_of_mem_zip hnodup hnull ((hzip _ c).1 hanswered)) (by simp)
      · exact absurd (hlt c (List.mem_of_getElem? hc)) (Nat.not_lt.2 (hnew c hrenewed))
    · intro hall c hc
      rcases (hmem c).1 hc with hback | hanswered | hnull | hrenewed
      · exact absurd hback List.not_mem_nil
      · exact Or.inl hanswered
      · exact absurd rfl (hall .null (List.of_mem_zip ((hzip _ c).1 hnull)).1)
      · exact Or.inr hrenewed

/-- Two contexts, one of which is connected anew. -/
theorem pass_repairs_sample : ∃ s t u,
    Transition.run step (init 2) [.connect .established, .auth .ok, .connect .established,
      .auth .ok, .constructed] = some s ∧ step s .checkThread = some t ∧
    Transition.run step t ([.answered, .threw .established .ok].flatMap Round.actions ++
      [.checked]) = some u ∧ Repaired t [.answered, .threw .established .ok] u := by
  obtain ⟨s, h, hphase, hstop, hlength⟩ : ∃ s, Transition.run step (init 2)
      [.connect .established, .auth .ok, .connect .established, .auth .ok, .constructed] = some s ∧
      s.phase = .unlocked ∧ s.bStop = false ∧
      [Round.answered, .threw .established .ok].length = s.connections.length :=
    ⟨_, rfl, rfl, rfl, rfl⟩
  obtain ⟨t, u, ht, hu, hrepaired⟩ := pass_repairs_iff h hphase hstop hlength
  exact ⟨s, t, u, h, ht, hu, hrepaired.2 (by decide)⟩

/-- A context that gets a null pointer stays in the queue. -/
theorem pass_keeps_dead : ∃ s t u,
    Transition.run step (init 1) [.connect .established, .auth .ok, .constructed] = some s ∧
    step s .checkThread = some t ∧
    Transition.run step t ([Round.null].flatMap Round.actions ++ [.checked]) = some u ∧
    u.connections = [0] ∧ ¬ Repaired t [.null] u := by
  obtain ⟨s, t, u, hs, ht, hu, hphase, hstop, hconnections, hconnected, hleft⟩ : ∃ s t u,
      Transition.run step (init 1) [.connect .established, .auth .ok, .constructed] = some s ∧
      step s .checkThread = some t ∧
      Transition.run step t ([Round.null].flatMap Round.actions ++ [.checked]) = some u ∧
      t.phase = .checking [0].length ∧ t.bStop = false ∧ t.connections = [0] ++ [] ∧
      t.connected = 1 ∧ u.connections = [0] := ⟨_, _, _, rfl, rfl, rfl, rfl, rfl, rfl, rfl, rfl⟩
  refine ⟨s, t, u, hs, ht, hu, hleft, fun hrepaired => ?_⟩
  have hlength : [Round.null].length = [0].length := rfl
  obtain ⟨-, hzip, hnew⟩ := run_rounds hphase hstop hconnections hlength
  rcases hrepaired 0 (hleft ▸ List.mem_singleton_self 0) with hanswered | hrenewed
  · exact absurd ((hzip _ _).1 hanswered) (by decide)
  · exact absurd (hnew 0 hrenewed) (by omega)

end RedisPool
end Database
end BreUtils
