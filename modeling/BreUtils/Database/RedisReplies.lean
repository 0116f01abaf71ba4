/-
# Any replies to the commands of `database/RedisMgr.hpp`

The server may answer a command with any reply.  `Get` looks for a string; but `LPop`,
`RPop` and `HGet` only look for nil, and copy `reply->str` of every other reply: of an error
its text, and of an integer a null pointer, which ends the call before the connection is
given back.

So errors are never returned as data, strings are returned whole, and every connection is
given back once, exactly as long as these three get a string or nil, and no string with a
NUL is read (`answers_honest_iff`).
-/

import BreUtils.Database.RedisMgr
import BreUtils.Lib.Transition

namespace BreUtils
namespace Database
namespace RedisMgr

open Cpp
open Lib Lib.Redis

/-! ### The other replies -/

/-- `HDel`. -/
def readHDel : Option Reply → Outcome Bool
  | some (.integer n) => ⟨some (0 < n), 1⟩
  | none | some _ => ⟨some false, 1⟩

/-- `Del`. -/
def readDel : Option Reply → Outcome Bool
  | some (.integer _) => ⟨some true, 1⟩
  | none | some _ => ⟨some false, 1⟩

/-- `ExistsKey`. -/
def readExistsKey : Option Reply → Outcome Bool
  | some (.integer n) => ⟨some (n ≠ 0), 1⟩
  | none | some _ => ⟨some false, 1⟩

/-! ### Calls -/

/-- The operations, without their arguments: the server answers as it likes. -/
inductive Operation where
  | get
  | set
  | lPush
  | lPop
  | rPush
  | rPop
  /-- `HSet(key, hkey, value)`. -/
  | hSet
  /-- `HSet(key, hkey, hvalue, hvaluelen)`. -/
  | hSetArgv
  | hGet
  | hDel
  | del
  | existsKey
  deriving DecidableEq

/-- What an operation returns. -/
inductive Returned where
  | bool (b : Bool)
  /-- `bool` and the reference parameter `value`, which is set if `true` is returned. -/
  | value (v : Option Bytes)
  /-- `std::string`. -/
  | text (v : Bytes)
  deriving DecidableEq

/-- What an operation gets. -/
inductive Answer where
  /-- `getConnection` returns a null pointer. -/
  | noConnection
  /-- The reply, or a null pointer. -/
  | reply (r : Option Reply)
  deriving DecidableEq

/-- The outcome, as what the operation returns. -/
def Outcome.as {α : Type*} (f : α → Returned) (o : Outcome α) : Outcome Returned :=
  ⟨o.result.map f, o.returned⟩

namespace Operation

/-- What is returned without a connection. -/
def refused : Operation → Returned
  | get | lPop | rPop => .value none
  | hGet => .text []
  | set | lPush | rPush | hSet | hSetArgv | hDel | del | existsKey => .bool false

/-- What becomes of a reply. -/
def read : Operation → Option Reply → Outcome Returned
  | get, r => (readGet r).as .value
  | set, r => (readSet r).as .bool
  | lPush, r | rPush, r => (readPush r).as .bool
  | lPop, r | rPop, r => (readPop r).as .value
  | hSet, r | hSetArgv, r => (readHSet r).as .bool
  | hGet, r => (readHGet r).as .text
  | hDel, r => (readHDel r).as .bool
  | del, r => (readDel r).as .bool
  | existsKey, r => (readExistsKey r).as .bool

/-- A call. -/
def call (op : Operation) : Answer → Outcome Returned
  | .noConnection => ⟨some op.refused, 0⟩
  | .reply r => op.read r

end Operation

/-- **The calls of the commands are such calls,** with the answer that link and server give. -/
theorem exists_call {α S : Type*} {op : Operation} {f : α → Returned} {refused : α}
    {read : Option Reply → Outcome α} (exec : S → Command → Reply × S)
    (hrefused : op.refused = f refused) (hread : ∀ r, op.read r = (read r).as f) (link : Link)
    (command : Command) (s : S) :
    ∃ a, (request exec link command refused read s).1.as f = op.call a := by
  cases link with
  | noConnection =>
      refine ⟨.noConnection, ?_⟩
      rw [Operation.call, hrefused]
      rfl
  | noReply executed => exact ⟨.reply none, (hread _).symm⟩
  | replies => exact ⟨.reply (some (exec s command).1), (hread _).symm⟩

/-- A call, with the number of connections that are borrowed and not given back.  `none` stands for
a copy from a null pointer, where the run ends. -/
def step (borrowed : ℕ) (c : Operation × Answer) : Option ℕ :=
  (c.1.call c.2).result.map fun _ =>
    borrowed + (if c.2 = .noConnection then 0 else 1) - (c.1.call c.2).returned

/-- **Data is what the server sent as a string,** and the connection that is borrowed is given back
once. -/
def Honest (c : Operation × Answer) : Prop :=
  (c.1.call c.2).returned = (if c.2 = .noConnection then 0 else 1) ∧
    (∀ v, (c.1.call c.2).result = some (.value (some v)) → c.2 = .reply (some (.string v))) ∧
    ∀ v, (c.1.call c.2).result = some (.text v) → v ≠ [] → c.2 = .reply (some (.string v))

/-- The reply is one that the operation can tell apart: for `LPop` and `RPop` a string without a
NUL, or nil; for `HGet` also one that starts with a NUL, and a text that is empty as a C string; for
`Get` anything but a string with a NUL. -/
def ToldApart : Operation × Answer → Prop
  | (.get, .reply (some (.string text))) => 0 ∉ text
  | (.lPop, .reply (some r)) | (.rPop, .reply (some r)) =>
      r = .nil ∨ ∃ text, r = .string text ∧ 0 ∉ text
  | (.hGet, .reply (some (.string text))) => 0 ∉ text ∨ cStr text = []
  | (.hGet, .reply (some (.status text))) | (.hGet, .reply (some (.error text))) => cStr text = []
  | (.hGet, .reply (some (.integer _))) => False
  | _ => True

variable {op : Operation} {a : Answer} {r : Reply} {text : Bytes}

/-! ### One call -/

/-- A call that gives its connection back, and what follows for its data. -/
theorem honest_of (hreturned : (op.call a).returned = if a = .noConnection then 0 else 1)
    (hdata : ∀ v, (op.call a).result ≠ some (.value (some v)) ∧
      ((op.call a).result = some (.text v) → v = [])) : Honest (op, a) :=
  ⟨hreturned, fun v hv => absurd hv (hdata v).1, fun v hv hne => absurd ((hdata v).2 hv) hne⟩

/-- Without a connection nothing is borrowed. -/
theorem honest_noConnection (op : Operation) : Honest (op, .noConnection) := by
  refine honest_of rfl fun v => ?_
  cases op <;> simp [Operation.call, Operation.refused]

/-- The operations that return a `bool` give their connection back, whatever the reply is. -/
theorem honest_of_bool {o : Option Reply} {outcome : Outcome Bool}
    (hread : op.read o = outcome.as .bool) (hreturned : outcome.returned = 1) :
    Honest (op, .reply o) := by
  refine honest_of ?_ fun v => ?_
  · rw [Operation.call, hread, if_neg (by simp)]
    exact hreturned
  · simp [Operation.call, hread, Outcome.as]

/-- Data that is returned with `true`. -/
theorem honest_value_iff (hcall : op.call (.reply (some r)) = ⟨some (.value (some text)), 1⟩) :
    Honest (op, .reply (some r)) ↔ r = .string text := by
  simp [Honest, hcall]

/-- Data that is returned as a text. -/
theorem honest_text_iff (hcall : op.call (.reply (some r)) = ⟨some (.text text), 1⟩) :
    Honest (op, .reply (some r)) ↔ (text ≠ [] → r = .string text) := by
  simp [Honest, hcall]

/-- A copy from a null pointer, before the connection is given back. -/
theorem not_honest (hcall : op.call a = ⟨none, 0⟩) (ha : a ≠ .noConnection) :
    ¬ Honest (op, a) := by
  intro h
  have hreturned := h.1
  rw [hcall, if_neg ha] at hreturned
  cases hreturned

theorem honest_get_iff (r : Option Reply) :
    Honest (.get, .reply r) ↔ ToldApart (.get, .reply r) := by
  cases r with
  | none => exact iff_of_true (honest_of rfl fun v => by simp [Operation.call, Operation.read,
      readGet, Outcome.as]) trivial
  | some r =>
      cases r with
      | string text =>
          rw [honest_value_iff rfl, ToldApart, ← cStr_eq_self]
          simp [eq_comm]
      | nil | status _ | error _ | integer _ =>
          exact iff_of_true (honest_of rfl fun v => by simp [Operation.call, Operation.read,
            readGet, Outcome.as]) trivial

/-- `LPop` and `RPop`. -/
theorem honest_pop_iff (hread : ∀ r, op.read r = (readPop r).as .value) (r : Option Reply) :
    Honest (op, .reply r) ↔
      ∀ reply, r = some reply → reply = .nil ∨ ∃ text, reply = .string text ∧ 0 ∉ text := by
  have hcall (r : Option Reply) : op.call (.reply r) = (readPop r).as .value := hread r
  cases r with
  | none =>
      refine iff_of_true (honest_of ?_ fun v => ?_) (fun reply h => by cases h)
      · rw [hcall]
        rfl
      · simp [hcall, readPop, Outcome.as]
  | some r =>
      simp only [Option.some.injEq, forall_eq']
      cases r with
      | nil =>
          refine iff_of_true (honest_of ?_ fun v => ?_) (Or.inl rfl)
          · rw [hcall]
            rfl
          · simp [hcall, readPop, Outcome.as]
      | string text =>
          rw [honest_value_iff (hcall _)]
          simp [← cStr_eq_self, eq_comm]
      | status text | error text =>
          rw [honest_value_iff (hcall _)]
          simp
      | integer n => exact iff_of_false (not_honest (hcall _) (by simp)) (by simp)

theorem honest_hGet_iff (r : Option Reply) :
    Honest (.hGet, .reply r) ↔ ToldApart (.hGet, .reply r) := by
  cases r with
  | none => exact iff_of_true (honest_of rfl fun v => by simp [Operation.call, Operation.read,
      readHGet, Outcome.as]) trivial
  | some r =>
      cases r with
      | nil => exact iff_of_true (honest_of rfl fun v => by simp [Operation.call, Operation.read,
          readHGet, Outcome.as]) trivial
      | string text =>
          rw [honest_text_iff rfl, ToldApart, ← cStr_eq_self, Reply.string.injEq,
            eq_comm (a := text)]
          tauto
      | status text | error text =>
          rw [honest_text_iff rfl, ToldApart]
          simp
      | integer n => exact iff_of_false (not_honest rfl (by simp)) id

/-- Where the other operations give their connection back. -/
theorem returned_eq_one (r : Option Reply) : (readSet r).returned = 1 ∧ (readPush r).returned = 1 ∧
    (readHSet r).returned = 1 ∧ (readHDel r).returned = 1 ∧ (readDel r).returned = 1 ∧
    (readExistsKey r).returned = 1 := by
  rcases r with _ | r
  · exact ⟨rfl, rfl, rfl, rfl, rfl, rfl⟩
  · cases r <;> exact ⟨rfl, rfl, rfl, rfl, rfl, rfl⟩

/-- **Which replies a call can deal with.** -/
theorem honest_iff (c : Operation × Answer) : Honest c ↔ ToldApart c := by
  obtain ⟨op, a⟩ := c
  cases a with
  | noConnection =>
      refine iff_of_true (honest_noConnection op) ?_
      cases op <;> trivial
  | reply r =>
      obtain ⟨hset, hpush, hhset, hhdel, hdel, hexists⟩ := returned_eq_one r
      cases op with
      | get => exact honest_get_iff r
      | hGet => exact honest_hGet_iff r
      | lPop | rPop =>
          rw [honest_pop_iff (fun _ => rfl)]
          cases r <;> simp [ToldApart]
      | set => exact iff_of_true (honest_of_bool rfl hset) (by cases r <;> trivial)
      | lPush | rPush => exact iff_of_true (honest_of_bool rfl hpush) (by cases r <;> trivial)
      | hSet | hSetArgv => exact iff_of_true (honest_of_bool rfl hhset) (by cases r <;> trivial)
      | hDel => exact iff_of_true (honest_of_bool rfl hhdel) (by cases r <;> trivial)
      | del => exact iff_of_true (honest_of_bool rfl hdel) (by cases r <;> trivial)
      | existsKey => exact iff_of_true (honest_of_bool rfl hexists) (by cases r <;> trivial)

/-! ### Runs of calls -/

/-- A call that does not come to its end has not given its connection back. -/
theorem returned_of_result_none (h : (op.call a).result = none) :
    (op.call a).returned = 0 ∧ a ≠ .noConnection := by
  cases a with
  | noConnection => cases h
  | reply r =>
      refine ⟨?_, by simp⟩
      rcases r with _ | r
      · cases op <;> cases h
      · cases op <;> cases r <;> first | rfl | cases h

theorem step_of_honest {c : Operation × Answer} (h : Honest c) : step 0 c = some 0 := by
  cases hresult : (c.1.call c.2).result with
  | none =>
      obtain ⟨hreturned, hne⟩ := returned_of_result_none hresult
      have hone := h.1
      rw [hreturned, if_neg hne] at hone
      cases hone
  | some v =>
      rw [step, hresult, Option.map_some, h.1]
      simp

/-- **When errors are not returned as data.**  In a run of calls with any answers every call is
reached with no connection borrowed, gives the one it borrows back once, and returns a text as data
only if the server sent that string, exactly if each operation can tell its reply apart. -/
theorem answers_honest_iff (calls : List (Operation × Answer)) :
    (∀ done c, done ++ [c] <+: calls → Transition.run step 0 done = some 0 ∧ Honest c) ↔
      ∀ c ∈ calls, ToldApart c := by
  constructor
  · intro h c hc
    obtain ⟨done, rest, rfl⟩ := List.append_of_mem hc
    refine (honest_iff c).1 (h done c ?_).2
    exact ⟨rest, by simp⟩
  · intro hall done c hdone
    have hmem (d : Operation × Answer) (hd : d ∈ done ++ [c]) : Honest d :=
      (honest_iff d).2 (hall d (hdone.subset hd))
    refine ⟨?_, hmem c List.mem_concat_self⟩
    refine Transition.run_eq_self fun d hd => step_of_honest (hmem d (List.mem_append_left _ hd))

/-- An error is returned as the value of a list, and an integer ends `HGet` with the connection
borrowed. -/
theorem lPop_error :
    (Operation.lPop.call (.reply (some (.error (ascii "WRONGTYPE"))))).result =
      some (.value (some (ascii "WRONGTYPE"))) ∧
    Operation.hGet.call (.reply (some (.integer 1))) = ⟨none, 0⟩ ∧
    ¬ ∀ calls done c, done ++ [c] <+: calls → Transition.run step 0 done = some 0 ∧ Honest c := by
  have hvalue : (Operation.lPop.call (.reply (some (.error (ascii "WRONGTYPE"))))).result =
      some (.value (some (ascii "WRONGTYPE"))) := by decide
  refine ⟨hvalue, rfl, fun h => ?_⟩
  have hhonest := (h [(.lPop, .reply (some (.error (ascii "WRONGTYPE"))))] [] _ List.prefix_rfl).2
  exact absurd (hhonest.2.1 _ hvalue) (by simp)

end RedisMgr
end Database
end BreUtils
