/-
# Messages out of a buffer

A reader gets a byte stream in pieces, as they arrive.  It appends each piece to a buffer
and asks for messages with `RetrieveUntil`, as often as it likes in between.  When it has
asked until nothing came any more, it has cut the stream at the delimiter from the front
(`messages_cuts`), wherever the pieces end, also within a delimiter: so how the stream
came in cannot be told from the messages (`messages_unique`).
-/

import BreUtils.Buffer.Buffer
import BreUtils.Lib.Transition

namespace BreUtils
namespace Buffers

open Lib Cpp Buffer

/-- What the reader does next. -/
inductive Call where
  | append (chunk : Bytes)
  | retrieveUntil

namespace Call

/-- The bytes that a call brings in. -/
def fed : Call → Bytes
  | append chunk => chunk
  | retrieveUntil => []

/-- One call, on the buffer and what has been returned so far, if it does not throw. -/
def step (d : Bytes) (s : Buffer × List Bytes) : Call → Option (Buffer × List Bytes)
  | append chunk =>
      if chunk.length ≤ maxSize then
        match s.1.append chunk with
        | .returned _ b => some (b, s.2)
        | _ => none
      else none
  | retrieveUntil =>
      match s.1.retrieveUntil d with
      | .returned result b => some (b, s.2 ++ [result])
      | _ => none

end Call

/-- The results that are messages. -/
def messages (results : List Bytes) : List Bytes := results.filter (· ≠ [])

variable {d : Bytes} {s t : Buffer × List Bytes} {b : Buffer} {calls : List Call}
  {results : List Bytes} {n : ℕ}

/-- The messages so far are cut off what has come in so far, and the buffer holds the rest. -/
def Reads (d stream : Bytes) (s : Buffer × List Bytes) : Prop :=
  Inv s.1 ∧ Ahead d stream (messages s.2) (readable s.1)

/-- What is returned and is not empty ends a message. -/
theorem take_ne_nil {s : Bytes} {p : ℕ} (hd : d ≠ []) (hp : position d s = some p) :
    s.take (p + d.length) ≠ [] := by
  have hle := add_le_of_position hp
  have hpos := List.length_pos_iff.2 hd
  rw [← List.length_pos_iff, List.length_take]
  omega

theorem step_reads {stream : Bytes} {c : Call} (hd : d ≠ []) (hs : Reads d stream s)
    (h : c.step d s = some t) : Reads d (stream ++ c.fed) t := by
  obtain ⟨hb, hahead⟩ := hs
  cases c with
  | append chunk =>
      simp only [Call.step] at h
      split_ifs at h with hchunk
      rcases append_spec hb hchunk with ⟨b', hcall, hb', hread⟩ | ⟨-, hcall⟩
      · rw [hcall] at h
        obtain rfl := Option.some.inj h
        refine ⟨hb', ?_⟩
        rw [hread]
        exact hahead.append chunk
      · rw [hcall] at h
        cases h
  | retrieveUntil =>
      simp only [Call.step] at h
      rw [Call.fed, List.append_nil]
      rcases retrieveUntil_spec hb d with ⟨p, b', hp, hcall, hb', hread⟩ | ⟨-, hcall⟩
      · rw [hcall] at h
        obtain rfl := Option.some.inj h
        refine ⟨hb', ?_⟩
        have hmessages : messages (s.2 ++ [(readable s.1).take (p + d.length)]) =
            messages s.2 ++ [(readable s.1).take (p + d.length)] := by
          simp [messages, take_ne_nil hd hp]
        rw [hmessages, hread]
        exact hahead.take hp
      · rw [hcall] at h
        obtain rfl := Option.some.inj h
        refine ⟨hb, ?_⟩
        have hmessages : messages (s.2 ++ [[]]) = messages s.2 := by simp [messages]
        rw [hmessages]
        exact hahead

theorem run_reads (hd : d ≠ []) (hn : n < 2 ^ 31)
    (h : Transition.run (Call.step d) (Buffer.new n, []) calls = some t) :
    Reads d (calls.flatMap Call.fed) t := by
  induction calls using List.reverseRecOn generalizing t with
  | nil =>
      obtain rfl := Option.some.inj h
      refine ⟨Inv.new hn, ?_⟩
      rw [readable_new]
      exact Ahead.start
  | append_singleton calls c ih =>
      obtain ⟨u, hu, hstep⟩ := Transition.run_concat_eq_some.1 h
      have hreads := step_reads hd (ih hu) hstep
      rw [List.flatMap_append, List.flatMap_singleton]
      exact hreads

/-- **A run that asks until nothing comes any more cuts the stream at the delimiter.** -/
theorem messages_cuts (hd : d ≠ []) (hn : n < 2 ^ 31)
    (h : Transition.run (Call.step d) (Buffer.new n, []) (calls ++ [.retrieveUntil]) =
      some (b, results ++ [[]])) :
    Cuts d (calls.flatMap Call.fed) (messages results) (readable b) := by
  obtain ⟨s, hs, hstep⟩ := Transition.run_concat_eq_some.1 h
  obtain ⟨hb, hahead⟩ := run_reads hd hn hs
  simp only [Call.step] at hstep
  rcases retrieveUntil_spec hb d with ⟨p, b', hp, hcall, -⟩ | ⟨hp, hcall⟩
  · -- a message came, and the last result is none
    rw [hcall] at hstep
    obtain ⟨-, hlast⟩ := Prod.mk.inj (Option.some.inj hstep)
    have heq := (List.append_inj' hlast rfl).2
    exact absurd (List.cons.inj heq).1 (take_ne_nil hd hp)
  · rw [hcall] at hstep
    obtain ⟨rfl, hlast⟩ := Prod.mk.inj (Option.some.inj hstep)
    rw [← List.append_cancel_right hlast]
    exact hahead.finish hp

theorem run_of_cuts {text rest : Bytes} {ms : List Bytes} (hcuts : Cuts d text ms rest)
    (hb : Inv b) (hread : readable b = text) (results : List Bytes) :
    ∃ b', Inv b' ∧ readable b' = rest ∧
      Transition.run (Call.step d) (b, results)
        (List.replicate ms.length .retrieveUntil ++ [.retrieveUntil]) =
          some (b', results ++ ms ++ [[]]) := by
  induction hcuts generalizing b results with
  | rest hp =>
      rcases retrieveUntil_spec hb d with ⟨p, b', hp', -⟩ | ⟨-, hcall⟩
      · rw [hread, hp] at hp'
        cases hp'
      · refine ⟨b, hb, hread, ?_⟩
        simp [Call.step, hcall]
  | @cut text rest p ms hp hcuts ih =>
      rcases retrieveUntil_spec hb d with ⟨p', b', hp', hcall, hb', hread'⟩ | ⟨hp', -⟩
      · rw [hread] at hp' hcall hread'
        obtain rfl := Option.some.inj (hp.symm.trans hp')
        obtain ⟨b'', hb'', hrest, hrun⟩ := ih hb' hread' (results ++ [text.take (p + d.length)])
        refine ⟨b'', hb'', hrest, ?_⟩
        rw [List.length_cons, List.replicate_succ, List.cons_append, Transition.run_cons]
        simp only [Call.step, hcall, Option.bind_some]
        rw [hrun, List.append_assoc results, List.singleton_append]
      · rw [hread, hp] at hp'
        cases hp'

/-- **Asking comes to an end:** after finitely many calls the next one returns nothing. -/
theorem exists_run_to_end (hd : d ≠ []) (hb : Inv b) (results : List Bytes) :
    ∃ k b' ms, Cuts d (readable b) ms (readable b') ∧
      Transition.run (Call.step d) (b, results)
        (List.replicate k .retrieveUntil ++ [.retrieveUntil]) =
          some (b', results ++ ms ++ [[]]) := by
  obtain ⟨ms, rest, hcuts⟩ := exists_cuts hd (readable b)
  obtain ⟨b', -, hrest, hrun⟩ := run_of_cuts hcuts hb rfl results
  exact ⟨ms.length, b', ms, hrest ▸ hcuts, hrun⟩

/-- **The messages do not depend on how the stream comes in:** of two runs over the same stream
that both ask until nothing comes any more, the results that are not empty are the same, namely the
stream cut at the delimiter from the front, and so is what stays in the buffer. -/
theorem messages_unique {b₁ b₂ : Buffer} {calls₁ calls₂ : List Call}
    {results₁ results₂ : List Bytes}
    {n₁ n₂ : ℕ} {stream : Bytes} (hd : d ≠ []) (hn₁ : n₁ < 2 ^ 31) (hn₂ : n₂ < 2 ^ 31)
    (hfed₁ : calls₁.flatMap Call.fed = stream) (hfed₂ : calls₂.flatMap Call.fed = stream)
    (h₁ : Transition.run (Call.step d) (Buffer.new n₁, []) (calls₁ ++ [.retrieveUntil]) =
      some (b₁, results₁ ++ [[]]))
    (h₂ : Transition.run (Call.step d) (Buffer.new n₂, []) (calls₂ ++ [.retrieveUntil]) =
      some (b₂, results₂ ++ [[]])) :
    messages results₁ = messages results₂ ∧ readable b₁ = readable b₂ ∧
      Cuts d stream (messages results₁) (readable b₁) := by
  have hcuts₁ := messages_cuts hd hn₁ h₁
  have hcuts₂ := messages_cuts hd hn₂ h₂
  rw [hfed₁] at hcuts₁
  rw [hfed₂] at hcuts₂
  obtain ⟨hmessages, hrest⟩ := hcuts₁.unique hcuts₂
  exact ⟨hmessages, hrest, hcuts₁⟩

/-- A delimiter that overlaps itself and comes in two pieces, and the same stream in one piece. -/
theorem messages_unique_overlap :
    ∃ b₁ b₂ results₁ results₂,
      Transition.run (Call.step (ascii "aa")) (Buffer.new 0, [])
          ([.append (ascii "xa"), .retrieveUntil, .append (ascii "aay"), .retrieveUntil] ++
            [.retrieveUntil]) = some (b₁, results₁ ++ [[]]) ∧
        Transition.run (Call.step (ascii "aa")) (Buffer.new 8, [])
          ([.append (ascii "xaaay"), .retrieveUntil] ++ [.retrieveUntil]) =
            some (b₂, results₂ ++ [[]]) ∧
        messages results₁ = messages results₂ ∧ messages results₁ = [ascii "xaa"] := by
  obtain ⟨b₁, h₁⟩ : ∃ b₁, Transition.run (Call.step (ascii "aa")) (Buffer.new 0, [])
      ([.append (ascii "xa"), .retrieveUntil, .append (ascii "aay"), .retrieveUntil] ++
        [.retrieveUntil]) = some (b₁, [[], ascii "xaa"] ++ [[]]) := ⟨_, rfl⟩
  obtain ⟨b₂, h₂⟩ : ∃ b₂, Transition.run (Call.step (ascii "aa")) (Buffer.new 8, [])
      ([.append (ascii "xaaay"), .retrieveUntil] ++ [.retrieveUntil]) =
        some (b₂, [ascii "xaa"] ++ [[]]) := ⟨_, rfl⟩
  refine ⟨b₁, b₂, _, _, h₁, h₂, ?_, by decide +kernel⟩
  exact (messages_unique (by decide) (by decide) (by decide) (by decide +kernel) rfl h₁ h₂).1

end Buffers
end BreUtils
