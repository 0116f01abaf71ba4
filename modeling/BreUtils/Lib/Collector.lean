/-
# Collecting the parts of messages

Messages are cut into parts; the parts arrive one by one, in any order.  A
collector holds, for each message, the parts that are there; when a part makes a
message whole it hands the message over and forgets its parts.  A message that has
no parts is never handed over.

What comes of it depends on the history of arrivals.  In any history a message is
handed over at most as often as each of its parts arrived (`count_le`): a part is
in one delivery at most.  In a history that has every part once, every message is
handed over once and nothing is left (`once`, `nothing_held`).

A collector may keep its parts in slots that messages share, as a table does that
is keyed by less than the message.  It works as long as a slot never serves two
messages at a time (`Exclusive`).  That is so when each message has a slot of its
own, and when, in a history that has every part once, no message is interrupted by
another one of its slot (`exclusive_of_uninterrupted`).
-/

import Mathlib.Data.Finset.Insert
import Mathlib.Data.List.Count
import Mathlib.Data.List.Induction
import Mathlib.Data.List.Perm.Basic

namespace BreUtils
namespace Lib
namespace Collector

variable {M ι K : Type*} [DecidableEq M] [DecidableEq ι]

/-- The parts held of each message, and the messages handed over so far. -/
structure Progress (M ι : Type*) where
  held : M → Finset ι
  complete : List M

variable (need : M → Finset ι)

/-- One part arrives. -/
def step (p : Progress M ι) (a : M × ι) : Progress M ι :=
  if insert a.2 (p.held a.1) = need a.1 then
    ⟨Function.update p.held a.1 ∅, p.complete ++ [a.1]⟩
  else ⟨Function.update p.held a.1 (insert a.2 (p.held a.1)), p.complete⟩

/-- What a history of arrivals comes to. -/
def run (history : List (M × ι)) : Progress M ι :=
  history.foldl (step need) ⟨fun _ => ∅, []⟩

/-- Before any fragment nothing is held. -/
@[simp] theorem run_nil : run need [] = ⟨fun _ => ∅, []⟩ := rfl

/-- The last fragment of a history makes one more step. -/
@[simp] theorem run_concat (history : List (M × ι)) (a : M × ι) :
    run need (history ++ [a]) = step need (run need history) a := by
  rw [run, List.foldl_append]
  rfl

variable {need}

/-- A part that makes its message whole. -/
theorem step_whole {p : Progress M ι} {m : M} {i : ι} (h : insert i (p.held m) = need m) :
    (step need p (m, i)).held m = ∅ ∧
      (step need p (m, i)).complete = p.complete ++ [m] := by
  rw [step, if_pos h]
  exact ⟨Function.update_self .., rfl⟩

/-- A part that does not. -/
theorem step_part {p : Progress M ι} {m : M} {i : ι} (h : insert i (p.held m) ≠ need m) :
    (step need p (m, i)).held m = insert i (p.held m) ∧
      (step need p (m, i)).complete = p.complete := by
  rw [step, if_neg h]
  exact ⟨Function.update_self .., rfl⟩

variable (need) in
/-- An arrival changes nothing about the other messages. -/
theorem step_ne (p : Progress M ι) {m m' : M} (i : ι) (h : m' ≠ m) :
    (step need p (m, i)).held m' = p.held m' ∧
      (step need p (m, i)).complete.count m' = p.complete.count m' := by
  unfold step
  split_ifs
  · refine ⟨Function.update_of_ne h _ _, ?_⟩
    rw [List.count_append, List.count_singleton, if_neg (by simpa using h.symm), Nat.add_zero]
  · exact ⟨Function.update_of_ne h _ _, rfl⟩

/-- What is held has arrived. -/
theorem mem_of_held {history : List (M × ι)} {m : M} {i : ι} (h : i ∈ (run need history).held m) :
    (m, i) ∈ history := by
  induction history using List.reverseRecOn with
  | nil => exact absurd h (Finset.notMem_empty i)
  | append_singleton history a ih =>
      obtain ⟨m', i'⟩ := a
      rw [run_concat] at h
      by_cases hm : m = m'
      · subst hm
        by_cases hwhole : insert i' ((run need history).held m) = need m
        · rw [(step_whole hwhole).1] at h
          exact absurd h (Finset.notMem_empty i)
        · rw [(step_part hwhole).1] at h
          rcases Finset.mem_insert.1 h with rfl | h
          · exact List.mem_append_right _ (List.mem_singleton_self _)
          · exact List.mem_append_left _ (ih h)
      · rw [(step_ne need _ i' hm).1] at h
        exact List.mem_append_left _ (ih h)

/-- What is handed over has arrived. -/
theorem mem_of_complete {history : List (M × ι)} {m : M} (h : m ∈ (run need history).complete) :
    ∃ i, (m, i) ∈ history := by
  induction history using List.reverseRecOn with
  | nil => exact absurd h List.not_mem_nil
  | append_singleton history a ih =>
      obtain ⟨m', i'⟩ := a
      rw [run_concat] at h
      have hcases : m ∈ (run need history).complete ∨ m = m' := by
        by_cases hwhole : insert i' ((run need history).held m') = need m'
        · rwa [(step_whole hwhole).2, List.mem_append, List.mem_singleton] at h
        · rw [(step_part hwhole).2] at h
          exact Or.inl h
      rcases hcases with h | rfl
      · obtain ⟨i, hi⟩ := ih h
        exact ⟨i, List.mem_append_left _ hi⟩
      · exact ⟨i', List.mem_append_right _ (List.mem_singleton_self _)⟩

/-! ### Any history -/

/-- **A message is handed over at most as often as each of its parts arrived.**  A part that is held
has arrived once more. -/
theorem count_le (history : List (M × ι)) {m : M} {i : ι} (hi : i ∈ need m) :
    (run need history).complete.count m + (if i ∈ (run need history).held m then 1 else 0) ≤
      history.count (m, i) := by
  induction history using List.reverseRecOn with
  | nil => simp
  | append_singleton history a ih =>
      obtain ⟨m', i'⟩ := a
      rw [run_concat, List.count_append]
      by_cases hm : m = m'
      · subst hm
        -- the part that arrives counts once; of the parts held before, each counts on
        have hcount : [(m, i')].count (m, i) = if i = i' then 1 else 0 := by
          by_cases hii : i = i' <;> simp [hii, eq_comm]
        rw [hcount]
        by_cases hwhole : insert i' ((run need history).held m) = need m
        · rw [(step_whole hwhole).1, (step_whole hwhole).2, if_neg (Finset.notMem_empty i),
            List.count_append, List.count_singleton_self]
          rcases Finset.mem_insert.1 (hwhole.symm ▸ hi) with rfl | hheld
          · rw [if_pos rfl]
            omega
          · rw [if_pos hheld] at ih
            omega
        · rw [(step_part hwhole).1, (step_part hwhole).2]
          by_cases hii : i = i'
          · rw [if_pos hii]
            split_ifs at ih ⊢ <;> omega
          · rw [if_neg hii]
            simpa [Finset.mem_insert, hii] using ih
      · have hstep := step_ne need (run need history) i' hm
        rw [hstep.1, hstep.2]
        exact ih.trans (Nat.le_add_right _ _)

/-! ### Histories that have every part once -/

/-- Every part of `m` has arrived. -/
def Arrived (need : M → Finset ι) (history : List (M × ι)) (m : M) : Prop :=
  (need m).Nonempty ∧ ∀ i ∈ need m, (m, i) ∈ history

/-- **No part arrives twice**: a message is handed over once when all its parts have arrived, and
nothing of it is held any more; until then what is held is what has arrived. -/
theorem run_nodup {history : List (M × ι)} (hnodup : history.Nodup)
    (hneed : ∀ a ∈ history, a.2 ∈ need a.1) (m : M) :
    (Arrived need history m ∧ (run need history).held m = ∅ ∧
        (run need history).complete.count m = 1) ∨
      (¬ Arrived need history m ∧ (∀ i, i ∈ (run need history).held m ↔ (m, i) ∈ history) ∧
        (run need history).complete.count m = 0) := by
  induction history using List.reverseRecOn with
  | nil =>
      refine Or.inr ⟨fun h => ?_, by simp, rfl⟩
      obtain ⟨i, hi⟩ := h.1
      exact absurd (h.2 i hi) List.not_mem_nil
  | append_singleton history a ih =>
      obtain ⟨m', i'⟩ := a
      have hnew : (m', i') ∉ history := fun h =>
        (List.nodup_append.1 hnodup).2.2 _ h _ (List.mem_singleton_self _) rfl
      have ih := ih (List.nodup_append.1 hnodup).1 fun a ha => hneed a (List.mem_append_left _ ha)
      have hi' : i' ∈ need m' := hneed (m', i') (by simp)
      rw [run_concat]
      by_cases hm : m = m'
      · subst hm
        -- its part was missing, so nothing of the message was handed over
        have hmissing : ¬ Arrived need history m := fun h => hnew (h.2 i' hi')
        obtain ⟨-, hheld, hzero⟩ := ih.resolve_left fun h => hmissing h.1
        have hmem (i : ι) : i ∈ insert i' ((run need history).held m) ↔
            (m, i) ∈ history ++ [(m, i')] := by
          rw [Finset.mem_insert, hheld, List.mem_append, List.mem_singleton, Prod.mk.injEq]
          simp only [true_and]
          exact or_comm
        by_cases hwhole : insert i' ((run need history).held m) = need m
        · refine Or.inl ⟨⟨⟨i', hi'⟩, fun i hi => (hmem i).1 (hwhole ▸ hi)⟩, ?_⟩
          rw [(step_whole hwhole).2, List.count_append, hzero]
          exact ⟨(step_whole hwhole).1, by simp⟩
        · refine Or.inr ⟨fun h => hwhole ?_, ?_⟩
          · ext i
            exact ⟨fun hi => hneed (m, i) ((hmem i).1 hi), fun hi => (hmem i).2 (h.2 i hi)⟩
          · rw [(step_part hwhole).1, (step_part hwhole).2]
            exact ⟨hmem, hzero⟩
      · have hstep := step_ne need (run need history) i' hm
        have hmem (i : ι) : (m, i) ∈ history ++ [(m', i')] ↔ (m, i) ∈ history := by
          simp [hm]
        simp only [hstep.1, hstep.2, Arrived, hmem]
        exact ih

/-- The parts of some messages. -/
def parts (need : M → Finset ι) (messages : List M) (a : M × ι) : Prop :=
  a.1 ∈ messages ∧ a.2 ∈ need a.1

section Once

variable {history : List (M × ι)} {messages : List M}
  (hnodup : history.Nodup) (hparts : ∀ a, a ∈ history ↔ parts need messages a)
include hnodup hparts

/-- **Every part once, every message once.** -/
theorem once (hmessages : messages.Nodup) (hnonempty : ∀ m ∈ messages, (need m).Nonempty) :
    (run need history).complete.Perm messages := by
  rw [List.perm_iff_count]
  intro m
  have hcases := run_nodup hnodup (fun a ha => ((hparts a).1 ha).2) m
  by_cases hm : m ∈ messages
  · rw [List.count_eq_one_of_mem hmessages hm]
    have harrived : Arrived need history m :=
      ⟨hnonempty m hm, fun i hi => (hparts (m, i)).2 ⟨hm, hi⟩⟩
    rcases hcases with ⟨-, -, h⟩ | ⟨h, -⟩
    · exact h
    · exact absurd harrived h
  · rw [List.count_eq_zero_of_not_mem hm]
    rcases hcases with ⟨h, -⟩ | ⟨-, -, h⟩
    · obtain ⟨i, hi⟩ := h.1
      exact absurd ((hparts (m, i)).1 (h.2 i hi)).1 hm
    · exact h

/-- Nothing is left. -/
theorem nothing_held (m : M) : (run need history).held m = ∅ := by
  rcases run_nodup hnodup (fun a ha => ((hparts a).1 ha).2) m with ⟨-, h, -⟩ | ⟨h, hheld, -⟩
  · exact h
  · by_contra hne
    obtain ⟨i, hi⟩ := Finset.nonempty_iff_ne_empty.2 hne
    have hmi := (hparts (m, i)).1 ((hheld i).1 hi)
    exact h ⟨⟨i, hmi.2⟩, fun j hj => (hparts (m, j)).2 ⟨hmi.1, hj⟩⟩

end Once

/-! ### Slots -/

variable (need)

/-- A part that arrives finds its slot empty, or holding parts of its own message. -/
def Exclusive (key : M → K) (history : List (M × ι)) : Prop :=
  ∀ earlier m i later, history = earlier ++ (m, i) :: later →
    ∀ m', m' ≠ m → key m' = key m → (run need earlier).held m' = ∅

/-- No part of a message arrives between two parts of another one of its slot. -/
def Uninterrupted (key : M → K) (history : List (M × ι)) : Prop :=
  ∀ m m' i i' j, [(m, i), (m', i'), (m, j)].Sublist history → m ≠ m' → key m ≠ key m'

variable {need} {key : M → K} {history : List (M × ι)}

/-- A beginning of an exclusive history is exclusive. -/
theorem Exclusive.of_concat {a : M × ι} (h : Exclusive need key (history ++ [a])) :
    Exclusive need key history := by
  intro earlier m i later heq
  exact h earlier m i (later ++ [a]) (by rw [heq, List.append_assoc, List.cons_append])

/-- Each message has a slot of its own. -/
theorem exclusive_of_injOn
    (h : ∀ a ∈ history, ∀ b ∈ history, key a.1 = key b.1 → a.1 = b.1) :
    Exclusive need key history := by
  intro earlier m i later heq m' hne hkey
  by_contra hheld
  obtain ⟨j, hj⟩ := Finset.nonempty_iff_ne_empty.2 hheld
  have hm' : (m', j) ∈ history := by
    rw [heq]
    exact List.mem_append_left _ (mem_of_held hj)
  exact hne (h (m', j) hm' (m, i) (by rw [heq]; simp) hkey)

/-- **Messages may share a slot one after the other**: one of which parts are held is not whole, so
another part of it is still to arrive, and then a part of another message interrupts it. -/
theorem exclusive_of_uninterrupted {messages : List M} (hnodup : history.Nodup)
    (hparts : ∀ a, a ∈ history ↔ parts need messages a) (h : Uninterrupted key history) :
    Exclusive need key history := by
  intro earlier m i later heq m' hne hkey
  by_contra hheld
  obtain ⟨j, hj⟩ := Finset.nonempty_iff_ne_empty.2 hheld
  have hjmem : (m', j) ∈ earlier := mem_of_held hj
  have hsub : ∀ a ∈ earlier, a ∈ history := fun a ha => heq ▸ List.mem_append_left _ ha
  have hearlier := run_nodup (heq ▸ hnodup).of_append_left
    (fun a ha => ((hparts a).1 (hsub a ha)).2) m'
  obtain ⟨hmissing, -⟩ := hearlier.resolve_left fun h => hheld h.2.1
  obtain ⟨hmem, hneed⟩ := (hparts (m', j)).1 (hsub _ hjmem)
  obtain ⟨k, hk, hknot⟩ : ∃ k ∈ need m', (m', k) ∉ earlier := by
    by_contra hall
    push Not at hall
    exact hmissing ⟨⟨j, hneed⟩, hall⟩
  have hklater : (m', k) ∈ later := by
    have hkh : (m', k) ∈ earlier ++ (m, i) :: later := heq ▸ (hparts (m', k)).2 ⟨hmem, hk⟩
    rcases List.mem_append.1 hkh with hkh | hkh
    · exact absurd hkh hknot
    · rcases List.mem_cons.1 hkh with hkh | hkh
      · exact absurd (congrArg Prod.fst hkh) hne
      · exact hkh
  refine h m' m j i k ?_ hne hkey
  rw [heq]
  exact (List.singleton_sublist.2 hjmem).append
    ((List.singleton_sublist.2 hklater).cons_cons (m, i))

end Collector
end Lib
end BreUtils
