/-
# Programs that throw

A program reads and writes a state, and returns or throws.  When it throws, what it has
written stays written: the state is kept beside the exception.

`Strong` is the contract of a program that does all of its work or none.  From a state in
which `P` holds it returns, and then `Q` holds of what it returns and of the state it
leaves; or it throws one of the exceptions that are allowed, and then the state is what it
was.  Such a program first reads, and may throw there (`Reads`); from its first write on
it does not throw any more (`Total`).  So a `Strong` program is a `Reads` one followed by
a `Strong` one (`Strong.bind`), and a `Total` one is `Strong` (`Total.strong`).
-/

import Mathlib.Logic.Basic

namespace BreUtils
namespace Lib

/-- A program over the states `S` that may throw an `E`. -/
abbrev Throwing (S E α : Type) := ExceptT E (StateM S) α

namespace Throwing

variable {S E α β : Type}

/-- What a program returns or throws, and the state it leaves. -/
def exec (m : Throwing S E α) (s : S) : Except E α × S := m.run s

/-- Reading the state changes nothing. -/
theorem exec_get (s : S) : exec (get : Throwing S E S) s = (.ok s, s) := rfl

/-- What returns is followed by the rest. -/
theorem exec_bind_of_ok {m : Throwing S E α} {f : α → Throwing S E β} {s t : S} {a : α}
    (h : exec m s = (.ok a, t)) : exec (m >>= f) s = exec (f a) t := by
  replace h : m s = (.ok a, t) := h
  simp only [exec, bind, ExceptT.bind, ExceptT.run, ExceptT.mk, StateT.bind, h, ExceptT.bindCont]

/-- What throws is the end. -/
theorem exec_bind_of_error {m : Throwing S E α} {f : α → Throwing S E β} {s t : S} {e : E}
    (h : exec m s = (.error e, t)) : exec (m >>= f) s = (.error e, t) := by
  replace h : m s = (.error e, t) := h
  simp only [exec, bind, ExceptT.bind, ExceptT.run, ExceptT.mk, StateT.bind, h, ExceptT.bindCont]
  rfl

/-! ### The three contracts -/

variable (allowed : E → Prop)

/-- The program changes nothing. -/
def Reads (P : S → Prop) (m : Throwing S E α) (Q : α → S → Prop) : Prop :=
  ∀ s, P s → (∃ a, exec m s = (.ok a, s) ∧ Q a s) ∨ ∃ e, exec m s = (.error e, s) ∧ allowed e

/-- The program does all of its work or none. -/
def Strong (P : S → Prop) (m : Throwing S E α) (Q : α → S → Prop) : Prop :=
  ∀ s, P s →
    (∃ a t, exec m s = (.ok a, t) ∧ Q a t) ∨ ∃ e, exec m s = (.error e, s) ∧ allowed e

/-- The program does not throw. -/
def Total (P : S → Prop) (m : Throwing S E α) (Q : α → S → Prop) : Prop :=
  ∀ s, P s → ∃ a t, exec m s = (.ok a, t) ∧ Q a t

variable {allowed} {P : S → Prop} {R : α → S → Prop} {Q : β → S → Prop} {m : Throwing S E α}
  {f : α → Throwing S E β}

/-- What only reads leaves the state as it was when it throws. -/
theorem Reads.strong (h : Reads allowed P m R) : Strong allowed P m R := by
  intro s hs
  rcases h s hs with ⟨a, ha, hR⟩ | hthrow
  · exact Or.inl ⟨a, s, ha, hR⟩
  · exact Or.inr hthrow

/-- So does what never throws. -/
theorem Total.strong (h : Total P m R) : Strong allowed P m R := fun s hs => Or.inl (h s hs)

/-- First to read, then to read on. -/
theorem Reads.bind (hm : Reads allowed P m R) (hf : ∀ a, Reads allowed (R a) (f a) Q) :
    Reads allowed P (m >>= f) Q := by
  intro s hs
  rcases hm s hs with ⟨a, ha, hR⟩ | ⟨e, he, hallowed⟩
  · rw [exec_bind_of_ok ha]
    exact hf a s hR
  · exact Or.inr ⟨e, exec_bind_of_error he, hallowed⟩

/-- First to read, then to do all or nothing. -/
theorem Strong.bind (hm : Reads allowed P m R) (hf : ∀ a, Strong allowed (R a) (f a) Q) :
    Strong allowed P (m >>= f) Q := by
  intro s hs
  rcases hm s hs with ⟨a, ha, hR⟩ | ⟨e, he, hallowed⟩
  · rw [exec_bind_of_ok ha]
    exact hf a s hR
  · exact Or.inr ⟨e, exec_bind_of_error he, hallowed⟩

/-- First to do all or nothing, then not to throw. -/
theorem Strong.bind_total (hm : Strong allowed P m R) (hf : ∀ a, Total (R a) (f a) Q) :
    Strong allowed P (m >>= f) Q := by
  intro s hs
  rcases hm s hs with ⟨a, t, ha, hR⟩ | ⟨e, he, hallowed⟩
  · rw [exec_bind_of_ok ha]
    exact Or.inl (hf a t hR)
  · exact Or.inr ⟨e, exec_bind_of_error he, hallowed⟩

/-- One thing after the other, and none of them throws. -/
theorem Total.bind (hm : Total P m R) (hf : ∀ a, Total (R a) (f a) Q) : Total P (m >>= f) Q := by
  intro s hs
  obtain ⟨a, t, ha, hR⟩ := hm s hs
  rw [exec_bind_of_ok ha]
  exact hf a t hR

/-- A value. -/
theorem Total.pure {a : α} (h : ∀ s, P s → R a s) : Total P (Pure.pure a : Throwing S E α) R :=
  fun s hs => ⟨a, s, rfl, h s hs⟩

/-- A change of the state. -/
theorem Total.modify {g : S → S} {Q : Unit → S → Prop} (h : ∀ s, P s → Q () (g s)) :
    Total P (modify g : Throwing S E Unit) Q :=
  fun s hs => ⟨(), g s, rfl, h s hs⟩

/-- A value is no change of the state. -/
theorem Reads.pure {a : α} (h : ∀ s, P s → R a s) :
    Reads allowed P (Pure.pure a : Throwing S E α) R :=
  fun s hs => Or.inl ⟨a, rfl, h s hs⟩

/-- What `get` returns is the state. -/
theorem Reads.get {Q : S → S → Prop} (h : ∀ s, P s → Q s s) :
    Reads allowed P (get : Throwing S E S) Q :=
  fun s hs => Or.inl ⟨s, rfl, h s hs⟩

/-- Nor is an exception. -/
theorem Reads.throw {e : E} (h : allowed e) : Reads allowed P (throw e : Throwing S E α) R :=
  fun _ _ => Or.inr ⟨e, rfl, h⟩

/-- A choice between two readers. -/
theorem Reads.ite {c : Prop} [Decidable c] {m' : Throwing S E α}
    (hm : c → Reads allowed P m R) (hm' : ¬ c → Reads allowed P m' R) :
    Reads allowed P (if c then m else m') R := by
  by_cases hc : c
  · rw [if_pos hc]
    exact hm hc
  · rw [if_neg hc]
    exact hm' hc

end Throwing
end Lib
end BreUtils
