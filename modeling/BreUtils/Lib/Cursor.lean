/-
# A cursor into a list

A hand-written scanner keeps the whole text and a position, and reads it with
bounds checks; a grammar speaks of what is still unread.  `At input p s` ties
the two together: the cursor `p` stands in front of the suffix `s`.  Reading
one element takes it off the front of `s` (`At.next`), reading a known prefix
takes that prefix off (`At.skip`), and skipping everything that satisfies a
predicate, the loop `while (p < size && f(text[p])) ++p`, is `List.dropWhile`
on the suffix (`At.scanWhile`).  Texts are lists of bytes; `ch` and `ascii` write
the ones a program spells out.
-/

import Mathlib.Data.List.Basic

namespace BreUtils
namespace Lib

/-- The code of an ASCII character. -/
def ch (c : Char) : UInt8 := c.toUInt8

/-- The codes of an ASCII text. -/
def ascii (s : String) : List UInt8 := s.toList.map ch

variable {α : Type*} {input s t u : List α} {c d : α} {p q : ℕ}

/-- The cursor `p` stands in front of the suffix `s` of `input`. -/
def At (input : List α) (p : ℕ) (s : List α) : Prop :=
  ∃ u, input = u ++ s ∧ u.length = p

namespace At

/-- At position 0 the whole input is ahead. -/
theorem start (input : List α) : At input 0 input := ⟨[], rfl, rfl⟩

/-- What is ahead is the input without what was read. -/
theorem drop_eq (h : At input p s) : input.drop p = s := by
  obtain ⟨u, rfl, rfl⟩ := h
  exact List.drop_left

/-- What was read and what is ahead make up the input. -/
theorem add_length (h : At input p s) : p + s.length = input.length := by
  obtain ⟨u, rfl, rfl⟩ := h
  simp

/-- A position does not pass the end. -/
theorem le_length (h : At input p s) : p ≤ input.length := by
  have := h.add_length
  omega

/-- One thing is ahead of a position. -/
theorem suffix_unique (h : At input p s) (h' : At input p t) : s = t :=
  h.drop_eq.symm.trans h'.drop_eq

/-- A suffix is ahead of one position. -/
theorem position_unique (h : At input p s) (h' : At input q s) : p = q := by
  have := h.add_length
  have := h'.add_length
  omega

/-- Two positions are the same when nothing lies between them. -/
theorem eq_iff_nil (h : At input p (u ++ s)) (h' : At input q s) : p = q ↔ u = [] := by
  have h₁ := h.add_length
  have h₂ := h'.add_length
  rw [List.length_append] at h₁
  rw [← List.length_eq_zero_iff]
  omega

/-- Reading a known prefix moves the cursor behind it. -/
theorem skip (h : At input p (u ++ s)) : At input (p + u.length) s := by
  obtain ⟨w, rfl, rfl⟩ := h
  exact ⟨w ++ u, (List.append_assoc w u s).symm, by simp⟩

/-- Reading one element moves the cursor one step. -/
theorem next (h : At input p (c :: s)) : At input (p + 1) s := h.skip (u := [c])

/-- The next character. -/
@[simp] theorem getElem?_cons (h : At input p (c :: s)) : input[p]? = some c := by
  obtain ⟨u, rfl, rfl⟩ := h
  simp

/-- At the end there is none. -/
@[simp] theorem getElem?_nil (h : At input p []) : input[p]? = none := by
  have := h.add_length
  simp only [List.length_nil] at this
  exact List.getElem?_eq_none (by omega)

/-- The element under the cursor is the head of the suffix. -/
theorem cons_of_getElem? (h : At input p s) (hc : input[p]? = some c) : ∃ t, s = c :: t := by
  cases s with
  | nil => rw [h.getElem?_nil] at hc; cases hc
  | cons d t =>
      rw [h.getElem?_cons] at hc
      exact ⟨t, by rw [Option.some.inj hc]⟩

end At

/-- `while (p < input.size() && f(input[p])) ++p`, as the position it stops at. -/
def scanWhile (f : α → Bool) (input : List α) (p : ℕ) : ℕ :=
  p + ((input.drop p).takeWhile f).length

/-- The loop stops in front of what `dropWhile` leaves. -/
theorem At.scanWhile {f : α → Bool} (h : At input p s) :
    At input (scanWhile f input p) (s.dropWhile f) := by
  rw [Lib.scanWhile, h.drop_eq]
  refine At.skip ?_
  rwa [List.takeWhile_append_dropWhile]

/-- What `dropWhile` leaves of a text that starts with a run of `f` is what follows the run. -/
theorem dropWhile_append_of_all {f : α → Bool} (hu : ∀ x ∈ u, f x = true)
    (hs : ∀ x ∈ s.head?, f x = false) : (u ++ s).dropWhile f = s := by
  rw [List.dropWhile_append_of_pos (fun x hx => by simpa using hu x hx)]
  cases s with
  | nil => rfl
  | cons x s => rw [List.dropWhile_cons_of_neg (by simp [hs x (by simp)])]

/-- And what `takeWhile` takes of it is the run. -/
theorem takeWhile_append_of_all {f : α → Bool} (hu : ∀ x ∈ u, f x = true)
    (hs : ∀ x ∈ s.head?, f x = false) : (u ++ s).takeWhile f = u := by
  have h := List.takeWhile_append_dropWhile (p := f) (l := u ++ s)
  rw [dropWhile_append_of_all hu hs] at h
  exact List.append_cancel_right h

/-- Nothing that satisfies `f` is left at the front. -/
theorem head?_dropWhile {f : α → Bool} (s : List α) : ∀ x ∈ (s.dropWhile f).head?, f x = false := by
  intro x hx
  have h := List.head?_dropWhile_not f s
  rw [Option.mem_def.1 hx] at h
  simpa using h

end Lib
end BreUtils
