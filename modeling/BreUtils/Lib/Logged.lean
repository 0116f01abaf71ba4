/-
# Computations that keep a log

A computation returns or throws, and on its way it notes what it does.  What it has noted
before it throws stays in the log.

`Meets` says at once what is noted, what is thrown and what is returned.  It has a rule
for each way to build a computation, so it is proved by going through the code: what the
first part returns is what the second part may rely on (`Meets.bind`).  Without its log a
computation is an `Except` (`result_bind`).
-/

import Mathlib.Logic.Basic

namespace BreUtils
namespace Lib

/-- What a computation notes, and what it returns or throws. -/
structure Logged (T E α : Type) where
  log : List T
  result : Except E α

namespace Logged

variable {T E α β : Type}

instance : Monad (Logged T E) where
  pure a := ⟨[], .ok a⟩
  bind m f :=
    match m.result with
    | .ok a => ⟨m.log ++ (f a).log, (f a).result⟩
    | .error e => ⟨m.log, .error e⟩

/-- To note something. -/
def note (t : T) : Logged T E Unit := ⟨[t], .ok ()⟩

/-- To throw. -/
def raise (e : E) : Logged T E α := ⟨[], .error e⟩

/-- A computation that notes nothing. -/
instance : MonadLift (Except E) (Logged T E) where
  monadLift r := ⟨[], r⟩

/-! ### Without the log -/

/-- The result of a computation is what is left of it without its notes. -/
@[simp] theorem result_pure (a : α) : (pure a : Logged T E α).result = .ok a := rfl

/-- A note has no result. -/
@[simp] theorem result_note (t : T) : (note t : Logged T E Unit).result = .ok () := rfl

/-- An exception is the result. -/
@[simp] theorem result_raise (e : E) : (raise e : Logged T E α).result = .error e := rfl

/-- A computation without notes is its own result. -/
@[simp] theorem result_lift (r : Except E α) : (liftM r : Logged T E α).result = r := rfl

/-- The results of two computations in a row. -/
@[simp] theorem result_bind (m : Logged T E α) (f : α → Logged T E β) :
    (m >>= f).result = m.result >>= fun a => (f a).result := by
  obtain ⟨log, r⟩ := m
  cases r with
  | ok a => rfl
  | error e => rfl

/-- The result of a choice. -/
@[simp] theorem result_ite {c : Prop} [Decidable c] (m m' : Logged T E α) :
    (if c then m else m').result = if c then m.result else m'.result := by
  by_cases hc : c
  · rw [if_pos hc, if_pos hc]
  · rw [if_neg hc, if_neg hc]

/-! ### What a computation notes, throws and returns -/

/-- What is noted is `good`, what is thrown is `allowed`, and of what is returned `Q` holds. -/
structure Meets (good : T → Prop) (allowed : E → Prop) (m : Logged T E α) (Q : α → Prop) :
    Prop where
  noted : ∀ t ∈ m.log, good t
  thrown : ∀ e, m.result = .error e → allowed e
  returned : ∀ a, m.result = .ok a → Q a

variable {good : T → Prop} {allowed : E → Prop} {Q Q' : α → Prop} {R : β → Prop}
  {m : Logged T E α} {f : α → Logged T E β}

/-- The postcondition may be weakened. -/
theorem Meets.mono (h : Meets good allowed m Q) (hQ : ∀ a, Q a → Q' a) :
    Meets good allowed m Q' :=
  ⟨h.noted, h.thrown, fun a ha => hQ a (h.returned a ha)⟩

/-- A value meets what is true of it. -/
theorem Meets.pure {a : α} (h : Q a) : Meets good allowed (pure a) Q where
  noted _ ht := absurd ht List.not_mem_nil
  thrown e he := nomatch he
  returned b hb := by
    obtain rfl := Except.ok.inj hb
    exact h

/-- A good note is one. -/
theorem Meets.note {t : T} (h : good t) : Meets good allowed (note t) fun _ => True where
  noted u hu := by
    obtain rfl := List.mem_singleton.1 hu
    exact h
  thrown e he := nomatch he
  returned _ _ := trivial

/-- An exception that is allowed. -/
theorem Meets.raise {e : E} (h : allowed e) : Meets good allowed (raise e) Q where
  noted _ ht := absurd ht List.not_mem_nil
  thrown e' he := by
    obtain rfl := Except.error.inj he
    exact h
  returned a ha := nomatch ha

/-- A computation without notes meets what is known of its results. -/
theorem Meets.lift {r : Except E α} (hthrown : ∀ e, r = .error e → allowed e)
    (hreturned : ∀ a, r = .ok a → Q a) : Meets good allowed (liftM r : Logged T E α) Q where
  noted _ ht := absurd ht List.not_mem_nil
  thrown := hthrown
  returned := hreturned

/-- **One part after the other.** -/
theorem Meets.bind (hm : Meets good allowed m Q) (hf : ∀ a, Q a → Meets good allowed (f a) R) :
    Meets good allowed (m >>= f) R := by
  obtain ⟨log, r⟩ := m
  cases r with
  | error e =>
      refine ⟨hm.noted, fun e' he => hm.thrown e' ?_, fun b hb => nomatch hb⟩
      exact congrArg Except.error (Except.error.inj he)
  | ok a =>
      have ha := hf a (hm.returned a rfl)
      refine ⟨fun t ht => ?_, ha.thrown, ha.returned⟩
      rcases List.mem_append.1 ht with ht | ht
      · exact hm.noted t ht
      · exact ha.noted t ht

/-- To note something first. -/
theorem Meets.note_bind {t : T} {k : Logged T E α} (h : good t) (hk : Meets good allowed k Q) :
    Meets good allowed (Logged.note t >>= fun _ => k) Q :=
  (Meets.note h).bind fun _ _ => hk

/-- A choice meets what both branches meet. -/
theorem Meets.ite {c : Prop} [Decidable c] {m' : Logged T E α} (hm : c → Meets good allowed m Q)
    (hm' : ¬ c → Meets good allowed m' Q) : Meets good allowed (if c then m else m') Q := by
  by_cases hc : c
  · rw [if_pos hc]
    exact hm hc
  · rw [if_neg hc]
    exact hm' hc

end Logged
end Lib
end BreUtils
