/-
# Buffers as byte queues

Any number of buffers live side by side.  They are made, filled, read, cleared and moved,
one call after the other, and every call leaves a reply.

Beside each buffer stands a ledger: the bytes that have been appended, and how many of
them are gone, be it that they were retrieved or that they were cleared.  What a call
does to a ledger, and with which reply, is said by `apply`, which knows of no vector and
no positions.  The buffers do as their ledgers say (`step_refines`, `run_refines`): what
can be read is always what was appended less what is gone.
-/

import BreUtils.Buffer.Buffer
import BreUtils.Lib.Transition
import Mathlib.Data.Option.Basic

namespace BreUtils
namespace Buffers

open Lib Cpp Buffer

variable {ι : Type*} [DecidableEq ι]

/-- A call of a public member function.  `left` is what the move assignment of the vector leaves in
the vector it moves from, which the standard does not say. -/
inductive Action (ι : Type*) where
  | construct (i : ι) (initBuffSize : ℕ)
  | append (i : ι) (str : Bytes)
  | appendBuffer (i buff : ι)
  | retrieve (i : ι) (len : ℕ)
  | retrieveUntil (i : ι) (delimiter : Bytes)
  | retrieveAll (i : ι)
  | clear (i : ι)
  | moveConstruct (i other : ι)
  | moveAssign (i other : ι) (left : Bytes)

/-- What a caller gets back. -/
inductive Reply where
  | done
  | text (s : Bytes)
  | threw (e : Failure)
  | undefined
  deriving DecidableEq

/-- The buffers, and the replies so far. -/
structure World (ι : Type*) where
  store : ι → Option Buffer
  replies : List Reply

namespace World

/-- Before the first call. -/
def init : World ι := ⟨fun _ => none, []⟩

/-- A call on buffer `i` ends. -/
def answer {α : Type} (w : World ι) (i : ι) (reply : α → Reply) : Outcome α → World ι
  | .returned a b => ⟨Function.update w.store i (some b), w.replies ++ [reply a]⟩
  | .threw e b => ⟨Function.update w.store i (some b), w.replies ++ [.threw e]⟩
  | .undefined => ⟨w.store, w.replies ++ [.undefined]⟩

/-- One call.  An object is made where there is none, every other call is on objects that are there,
and no array has more than `maxSize` bytes. -/
def step (w : World ι) : Action ι → Option (World ι)
  | .construct i n =>
      if w.store i = none ∧ n < 2 ^ 31 then
        some (w.answer i (fun _ => .done) (.returned () (Buffer.new n)))
      else none
  | .append i str =>
      if str.length ≤ maxSize then
        (w.store i).map fun b => w.answer i (fun _ => .done) (append b str)
      else none
  | .appendBuffer i j =>
      if i = j then none
      else (w.store i).bind fun b => (w.store j).map fun other =>
        w.answer i (fun _ => .done) (appendBuffer b other)
  | .retrieve i len => (w.store i).map fun b => w.answer i .text (retrieve b len)
  | .retrieveUntil i delimiter =>
      (w.store i).map fun b => w.answer i .text (retrieveUntil b delimiter)
  | .retrieveAll i => (w.store i).map fun b => w.answer i .text (retrieveAll b)
  | .clear i => (w.store i).map fun b => w.answer i (fun _ => .done) (.returned () (clear b))
  | .moveConstruct i j =>
      if w.store i = none then
        (w.store j).map fun other =>
          { w with store := Function.update w.store j (some (moved [])) }.answer i
            (fun _ => .done) (.returned () other)
      else none
  | .moveAssign i j left =>
      if left.length ≤ maxSize then
        (w.store i).bind fun b => (w.store j).map fun other =>
          if i = j then w.answer i (fun _ => .done) (.returned () b)
          else
            { w with store := Function.update w.store j (some (moved left)) }.answer i
              (fun _ => .done) (.returned () other)
      else none

end World

/-! ### Ledgers -/

/-- What has been appended, and how many bytes of it are gone. -/
structure Ledger where
  appended : Bytes
  gone : ℕ
  gone_le : gone ≤ appended.length

namespace Ledger

/-- The bytes that are not gone. -/
def left (l : Ledger) : Bytes := l.appended.drop l.gone

/-- Nothing has been appended. -/
def empty : Ledger := ⟨[], 0, le_rfl⟩

/-- Bytes come in. -/
def append (l : Ledger) (s : Bytes) : Ledger where
  appended := l.appended ++ s
  gone := l.gone
  gone_le := by
    have hle := l.gone_le
    rw [List.length_append]
    omega

/-- The first `n` bytes that are not gone go, if there are as many. -/
def take (l : Ledger) (n : ℕ) : Option Ledger :=
  if h : n ≤ l.left.length then
    some ⟨l.appended, l.gone + n, by
      have hle := l.gone_le
      rw [left, List.length_drop] at h
      omega⟩
  else none

/-- All bytes go. -/
def clear (l : Ledger) : Ledger := ⟨l.appended, l.appended.length, le_rfl⟩

@[simp] theorem left_empty : empty.left = [] := rfl

@[simp] theorem left_append (l : Ledger) (s : Bytes) : (l.append s).left = l.left ++ s :=
  List.drop_append_of_le_length l.gone_le

@[simp] theorem left_clear (l : Ledger) : l.clear.left = [] := List.drop_length

theorem take_eq {l : Ledger} {n : ℕ} (h : n ≤ l.left.length) :
    ∃ l', l.take n = some l' ∧ l'.left = l.left.drop n := by
  refine ⟨_, dif_pos h, ?_⟩
  unfold left
  rw [List.drop_drop]

/-- What a call does to the ledgers, if it may end with that reply. -/
def apply (ls : ι → Option Ledger) : Action ι × Reply → Option (ι → Option Ledger)
  | (.construct i _, .done) =>
      if ls i = none then some (Function.update ls i (some empty)) else none
  | (.append i s, .done) => (ls i).map fun l => Function.update ls i (some (l.append s))
  | (.append _ _, .threw .lengthError) => some ls
  | (.appendBuffer i j, .done) =>
      (ls i).bind fun l => (ls j).map fun other =>
        Function.update ls i (some (l.append other.left))
  | (.appendBuffer _ _, .threw .lengthError) => some ls
  | (.retrieve i len, .text s) =>
      (ls i).bind fun l =>
        if s = l.left.take len then (l.take len).map fun l => Function.update ls i (some l)
        else none
  | (.retrieve i len, .threw (.outOfRange _)) =>
      (ls i).bind fun l => if l.left.length < len then some ls else none
  | (.retrieveUntil i d, .text s) =>
      (ls i).bind fun l =>
        match position d l.left with
        | some p =>
            if s = l.left.take (p + d.length) then
              (l.take (p + d.length)).map fun l => Function.update ls i (some l)
            else none
        | none => if s = [] then some ls else none
  | (.retrieveAll i, .text s) =>
      (ls i).bind fun l =>
        if s = l.left then some (Function.update ls i (some l.clear)) else none
  | (.clear i, .done) => (ls i).map fun l => Function.update ls i (some l.clear)
  | (.moveConstruct i j, .done) =>
      if ls i = none then
        (ls j).map fun other =>
          Function.update (Function.update ls j (some empty)) i (some other)
      else none
  | (.moveAssign i j _, .done) =>
      (ls i).bind fun _ => (ls j).map fun other =>
        if i = j then ls else Function.update (Function.update ls j (some empty)) i (some other)
  | _ => none

end Ledger

/-! ### The buffers follow their ledgers -/

/-- A buffer is in order, and what can be read in it is what its ledger has left. -/
def Holds (b : Buffer) (l : Ledger) : Prop := Inv b ∧ readable b = l.left

/-- Buffers and ledgers are for the same objects, and each buffer follows its ledger. -/
def Refines (store : ι → Option Buffer) (ls : ι → Option Ledger) : Prop :=
  ∀ i, Option.Rel Holds (store i) (ls i)

variable {store : ι → Option Buffer} {ls : ι → Option Ledger} {i j : ι} {b : Buffer} {l : Ledger}

theorem Refines.update (h : Refines store ls) (i : ι) (hb : Holds b l) :
    Refines (Function.update store i (some b)) (Function.update ls i (some l)) := by
  intro k
  by_cases hk : k = i
  · subst hk
    rw [Function.update_self, Function.update_self]
    exact .some hb
  · rw [Function.update_of_ne hk, Function.update_of_ne hk]
    exact h k

omit [DecidableEq ι] in
theorem Refines.eq_none (h : Refines store ls) (hi : store i = none) : ls i = none := by
  have hrel := h i
  rw [hi] at hrel
  cases hls : ls i with
  | none => rfl
  | some l => rw [hls] at hrel; cases hrel

omit [DecidableEq ι] in
theorem Refines.exists_ledger (h : Refines store ls) (hi : store i = some b) :
    ∃ l, ls i = some l ∧ Holds b l := by
  have hrel := h i
  rw [hi] at hrel
  cases hls : ls i with
  | none => rw [hls] at hrel; cases hrel
  | some l =>
      rw [hls] at hrel
      cases hrel with
      | some hb => exact ⟨l, rfl, hb⟩

/-- A call that leaves a buffer as it is leaves all of them as they are. -/
theorem Refines.same (h : Refines store ls) (hi : store i = some b) :
    Refines (Function.update store i (some b)) ls := by
  rw [← hi, Function.update_eq_self]
  exact h

/-- What one call comes to: its reply is defined, and the ledgers go along with it. -/
def Follows (w w' : World ι) (ls : ι → Option Ledger) (a : Action ι) : Prop :=
  ∃ r ls', w'.replies = w.replies ++ [r] ∧ r ≠ .undefined ∧ Ledger.apply ls (a, r) = some ls' ∧
    Refines w'.store ls'

variable {w w' : World ι} {str d left : Bytes} {len : ℕ}

theorem append_follows (h : Refines w.store ls) (hi : w.store i = some b)
    (hstr : str.length ≤ maxSize) :
    Follows w (w.answer i (fun _ => .done) (append b str)) ls (.append i str) := by
  obtain ⟨l, hl, hb, hleft⟩ := h.exists_ledger hi
  rcases append_spec hb hstr with ⟨b', hcall, hb', hread⟩ | ⟨-, hcall⟩
  · rw [hcall]
    refine ⟨.done, Function.update ls i (some (l.append str)), rfl, by simp, ?_,
      h.update i ⟨hb', ?_⟩⟩
    · simp [Ledger.apply, hl]
    · rw [hread, hleft, l.left_append]
  · rw [hcall]
    exact ⟨.threw .lengthError, ls, rfl, by simp, rfl, h.same hi⟩

theorem retrieve_follows (h : Refines w.store ls) (hi : w.store i = some b) (len : ℕ) :
    Follows w (w.answer i .text (retrieve b len)) ls (.retrieve i len) := by
  obtain ⟨l, hl, hb, hleft⟩ := h.exists_ledger hi
  rcases retrieve_spec hb len with ⟨hlen, b', hcall, hb', hread⟩ | ⟨hlen, hcall⟩
  · rw [hcall, hleft]
    rw [hleft] at hlen hread
    obtain ⟨l', htake, hleft'⟩ := Ledger.take_eq hlen
    refine ⟨.text (l.left.take len), Function.update ls i (some l'), rfl, by simp, ?_,
      h.update i ⟨hb', ?_⟩⟩
    · simp [Ledger.apply, hl, htake]
    · rw [hread, hleft']
  · rw [hcall]
    rw [hleft] at hlen
    refine ⟨.threw (.outOfRange tooLarge), ls, rfl, by simp, ?_, h.same hi⟩
    simp [Ledger.apply, hl, hlen]

theorem retrieveUntil_follows (h : Refines w.store ls) (hi : w.store i = some b) (d : Bytes) :
    Follows w (w.answer i .text (retrieveUntil b d)) ls (.retrieveUntil i d) := by
  obtain ⟨l, hl, hb, hleft⟩ := h.exists_ledger hi
  rcases retrieveUntil_spec hb d with ⟨p, b', hp, hcall, hb', hread⟩ | ⟨hp, hcall⟩
  · have hle := add_le_of_position hp
    rw [hcall, hleft]
    rw [hleft] at hp hle hread
    obtain ⟨l', htake, hleft'⟩ := Ledger.take_eq hle
    refine ⟨.text (l.left.take (p + d.length)), Function.update ls i (some l'), rfl, by simp, ?_,
      h.update i ⟨hb', ?_⟩⟩
    · simp [Ledger.apply, hl, hp, htake]
    · rw [hread, hleft']
  · rw [hcall]
    rw [hleft] at hp
    refine ⟨.text [], ls, rfl, by simp, ?_, h.same hi⟩
    simp [Ledger.apply, hl, hp]

theorem retrieveAll_follows (h : Refines w.store ls) (hi : w.store i = some b) :
    Follows w (w.answer i .text (retrieveAll b)) ls (.retrieveAll i) := by
  obtain ⟨l, hl, hb, hleft⟩ := h.exists_ledger hi
  rw [retrieveAll_spec hb, hleft]
  refine ⟨.text l.left, Function.update ls i (some l.clear), rfl, by simp, ?_,
    h.update i ⟨hb.clear, ?_⟩⟩
  · simp [Ledger.apply, hl]
  · rw [readable_clear, l.left_clear]

theorem clear_follows (h : Refines w.store ls) (hi : w.store i = some b) :
    Follows w (w.answer i (fun _ => .done) (.returned () (clear b))) ls (.clear i) := by
  obtain ⟨l, hl, hb, hleft⟩ := h.exists_ledger hi
  refine ⟨.done, Function.update ls i (some l.clear), rfl, by simp, ?_, h.update i ⟨hb.clear, ?_⟩⟩
  · simp [Ledger.apply, hl]
  · rw [readable_clear, l.left_clear]

/-- A buffer is moved from `j` to `i`. -/
theorem Refines.move (h : Refines store ls) (i : ι) (hb : Holds b l)
    (hleft : left.length ≤ maxSize) :
    Refines (Function.update (Function.update store j (some (moved left))) i (some b))
      (Function.update (Function.update ls j (some .empty)) i (some l)) :=
  (h.update j ⟨Inv.moved hleft, readable_moved⟩).update i hb

/-- **One call does to a buffer what it does to its ledger.** -/
theorem step_refines {a : Action ι} (h : Refines w.store ls) (hstep : w.step a = some w') :
    Follows w w' ls a := by
  cases a with
  | construct i n =>
      simp only [World.step] at hstep
      split_ifs at hstep with hguard
      obtain ⟨hi, hn⟩ := hguard
      obtain rfl := Option.some.inj hstep
      refine ⟨.done, Function.update ls i (some .empty), rfl, by simp, ?_,
        h.update i ⟨Inv.new hn, readable_new⟩⟩
      simp [Ledger.apply, h.eq_none hi]
  | append i str =>
      simp only [World.step] at hstep
      split_ifs at hstep with hstr
      obtain ⟨b, hi, rfl⟩ := Option.map_eq_some_iff.1 hstep
      exact append_follows h hi hstr
  | appendBuffer i j =>
      simp only [World.step] at hstep
      split_ifs at hstep with hij
      obtain ⟨b, hi, hstep⟩ := Option.bind_eq_some_iff.1 hstep
      obtain ⟨other, hj, rfl⟩ := Option.map_eq_some_iff.1 hstep
      obtain ⟨lj, hlj, hother, hread⟩ := h.exists_ledger hj
      have hlength : (readable other).length ≤ maxSize := by
        have hinside := hother.inside
        have hsize := hother.size
        rw [length_readable hother]
        omega
      rw [appendBuffer_spec hother]
      obtain ⟨r, ls', hreplies, hr, happly, hrefines⟩ := append_follows h hi hlength
      refine ⟨r, ls', hreplies, hr, ?_, hrefines⟩
      cases r with
      | done => simpa [Ledger.apply, hlj, hread, Option.bind_eq_some_iff] using happly
      | text s => simp [Ledger.apply] at happly
      | threw e =>
          cases e with
          | outOfRange what => simp [Ledger.apply] at happly
          | lengthError => exact happly
      | undefined => exact absurd rfl hr
  | retrieve i len =>
      obtain ⟨b, hi, rfl⟩ := Option.map_eq_some_iff.1 hstep
      exact retrieve_follows h hi len
  | retrieveUntil i d =>
      obtain ⟨b, hi, rfl⟩ := Option.map_eq_some_iff.1 hstep
      exact retrieveUntil_follows h hi d
  | retrieveAll i =>
      obtain ⟨b, hi, rfl⟩ := Option.map_eq_some_iff.1 hstep
      exact retrieveAll_follows h hi
  | clear i =>
      obtain ⟨b, hi, rfl⟩ := Option.map_eq_some_iff.1 hstep
      exact clear_follows h hi
  | moveConstruct i j =>
      simp only [World.step] at hstep
      split_ifs at hstep with hi
      obtain ⟨b, hj, rfl⟩ := Option.map_eq_some_iff.1 hstep
      obtain ⟨l, hl, hb⟩ := h.exists_ledger hj
      refine ⟨.done, _, rfl, by simp, ?_, h.move i hb (Nat.zero_le _)⟩
      simp [Ledger.apply, hl, h.eq_none hi]
  | moveAssign i j left =>
      simp only [World.step, Option.ite_none_right_eq_some] at hstep
      obtain ⟨hleft, hstep⟩ := hstep
      obtain ⟨b, hi, hstep⟩ := Option.bind_eq_some_iff.1 hstep
      obtain ⟨other, hj, rfl⟩ := Option.map_eq_some_iff.1 hstep
      obtain ⟨li, hli, -⟩ := h.exists_ledger hi
      obtain ⟨lj, hlj, hother⟩ := h.exists_ledger hj
      by_cases hij : i = j
      · rw [if_pos hij]
        refine ⟨.done, ls, rfl, by simp, ?_, h.same hi⟩
        simp [Ledger.apply, hlj, hij]
      · rw [if_neg hij]
        refine ⟨.done, _, rfl, by simp, ?_, h.move i hother hleft⟩
        simp [Ledger.apply, hli, hlj, hij]

/-- **After every run of calls the buffers are as their ledgers say.** -/
theorem run_refines {as : List (Action ι)} (h : Transition.run World.step .init as = some w) :
    as.length = w.replies.length ∧ .undefined ∉ w.replies ∧
      ∃ ls, Transition.run Ledger.apply (fun _ => none) (as.zip w.replies) = some ls ∧
        Refines w.store ls := by
  induction as using List.reverseRecOn generalizing w with
  | nil =>
      obtain rfl := Option.some.inj h
      exact ⟨rfl, List.not_mem_nil, _, rfl, fun _ => .none⟩
  | append_singleton as a ih =>
      obtain ⟨u, hu, hstep⟩ := Transition.run_concat_eq_some.1 h
      obtain ⟨hlength, hdefined, ls, hrun, hrefines⟩ := ih hu
      obtain ⟨r, ls', hreplies, hr, happly, hrefines'⟩ := step_refines hrefines hstep
      rw [hreplies]
      refine ⟨?_, ?_, ls', ?_, hrefines'⟩
      · rw [List.length_append, List.length_append, hlength, List.length_singleton,
          List.length_singleton]
      · rw [List.mem_append, List.mem_singleton]
        rintro (hmem | rfl)
        · exact hdefined hmem
        · exact hr rfl
      · rw [List.zip_append hlength]
        exact Transition.run_concat_eq_some.2 ⟨ls, hrun, happly⟩

/-- **A buffer is a byte queue:** in every run of calls each buffer can read what was appended to it
less what is gone, its positions are in order and inside the vector, no call leaves the vector, and
a `Retrieve` that throws or a `RetrieveUntil` that finds nothing changes nothing.  Nor does an
`Append` that throws, which it does only where the vector would pass its `max_size`. -/
theorem byte_queue {as : List (Action ι)} (h : Transition.run World.step .init as = some w) :
    as.length = w.replies.length ∧ .undefined ∉ w.replies ∧
      ∃ ls, Transition.run Ledger.apply (fun _ => none) (as.zip w.replies) = some ls ∧
        ∀ i b, w.store i = some b →
          (∃ l, ls i = some l ∧ readable b = l.left) ∧
          b.readPos ≤ b.writePos ∧ b.writePos ≤ b.buffer.length ∧
          (∀ len e b', retrieve b len = .threw e b' → b' = b) ∧
          (∀ d, position d (readable b) = none → retrieveUntil b d = .returned [] b) ∧
          ∀ s e b', s.length ≤ maxSize → append b s = .threw e b' →
            maxSize < b.writePos + s.length ∧ b' = b := by
  obtain ⟨hlength, hdefined, ls, hrun, hrefines⟩ := run_refines h
  refine ⟨hlength, hdefined, ls, hrun, fun i b hi => ?_⟩
  obtain ⟨l, hl, hb, hleft⟩ := hrefines.exists_ledger hi
  refine ⟨⟨l, hl, hleft⟩, hb.ordered, hb.inside, fun len e b' hthrew => ?_, fun d hd => ?_,
    fun s e b' hs hthrew => ?_⟩
  · rcases retrieve_spec hb len with ⟨-, b'', hcall, -⟩ | ⟨-, hcall⟩
    · rw [hcall] at hthrew
      cases hthrew
    · rw [hcall] at hthrew
      cases hthrew
      rfl
  · rcases retrieveUntil_spec hb d with ⟨p, b', hp, -⟩ | ⟨-, hcall⟩
    · rw [hd] at hp
      cases hp
    · exact hcall
  · rcases append_spec hb hs with ⟨b'', hcall, -⟩ | ⟨hmax, hcall⟩
    · rw [hcall] at hthrew
      cases hthrew
    · rw [hcall] at hthrew
      cases hthrew
      exact ⟨hmax, rfl⟩

/-- A buffer that compacts, then grows, and is moved. -/
theorem byte_queue_moved :
    ∃ w, Transition.run World.step (.init : World Bool)
        [.construct false 4, .append false (ascii "abcd"), .retrieve false 3,
          .append false (ascii "ef"), .retrieve false 9, .append false (ascii "g;h"),
          .moveConstruct true false, .retrieveUntil true (ascii ";")] = some w ∧
      w.replies = [.done, .done, .text (ascii "abc"), .done, .threw (.outOfRange tooLarge), .done,
        .done, .text (ascii "defg;")] ∧
      .undefined ∉ w.replies := by
  obtain ⟨w, hrun, hreplies⟩ : ∃ w, Transition.run World.step (.init : World Bool)
      [.construct false 4, .append false (ascii "abcd"), .retrieve false 3,
        .append false (ascii "ef"), .retrieve false 9, .append false (ascii "g;h"),
        .moveConstruct true false, .retrieveUntil true (ascii ";")] = some w ∧
      w.replies = [.done, .done, .text (ascii "abc"), .done, .threw (.outOfRange tooLarge), .done,
        .done, .text (ascii "defg;")] := ⟨_, rfl, by decide +kernel⟩
  exact ⟨w, hrun, hreplies, (byte_queue hrun).2.1⟩

end Buffers
end BreUtils
