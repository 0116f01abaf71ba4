/-
# The commands of `database/RedisMgr.hpp`

Each call borrows a connection, sends one command, looks at the reply and gives the
connection back.  Most commands are format strings, and `%s` takes a C string: what comes
after the first NUL of a key or of a value is not sent.  `HGet` and the `HSet` with a
length send their arguments with their lengths; but `HSet(key, hkey, value)`, which is
what `HGet` reads, does not.  A reply is copied through `reply->str`, again a C string.

The server is a parameter.  Whichever it is, if it keeps what Redis promises, then what is stored is
what is given back only where there is no NUL: in the value, in the field of a hash, and in the key,
for a key that is cut is the key of another entry (`bytes_survive_iff`).
-/

import BreUtils.Cpp.Text
import BreUtils.Lib.RedisStore
import Mathlib.Data.List.TakeWhile

namespace BreUtils
namespace Database
namespace RedisMgr

open Cpp
open Lib Lib.Redis

/-- What C makes of a `const char *`: the bytes before the first NUL. -/
def cStr (s : Bytes) : Bytes := s.takeWhile fun c => c ≠ 0

/-- `reply->str`: null in a reply that has no text. -/
def str : Reply → Option Bytes
  | .string text | .status text | .error text => some (cStr text)
  | .nil | .integer _ => none

/-- What comes of a call: what it returns, if it does not copy from a null pointer, and how often it
calls `returnConnection`. -/
structure Outcome (α : Type*) where
  result : Option α
  returned : ℕ
  deriving DecidableEq

/-- What the pool and the connection do. -/
inductive Link where
  /-- `getConnection` returns a null pointer. -/
  | noConnection
  /-- `redisCommand` returns one; the server may have executed the command. -/
  | noReply (executed : Bool)
  | replies

/-! ### The replies -/

/-- `Get`: the value, if it returns `true`. -/
def readGet : Option Reply → Outcome (Option Bytes)
  | some (.string text) => ⟨(str (.string text)).map some, 1⟩
  | none | some _ => ⟨some none, 1⟩

/-- `Set`. -/
def readSet : Option Reply → Outcome Bool
  | some (.status text) => ⟨some (cStr text = ascii "OK" ∨ cStr text = ascii "ok"), 1⟩
  | none | some _ => ⟨some false, 1⟩

/-- `LPush` and `RPush`. -/
def readPush : Option Reply → Outcome Bool
  | some (.integer n) => ⟨some (0 < n), 1⟩
  | none | some _ => ⟨some false, 1⟩

/-- `LPop` and `RPop`: the value, if they return `true`.  Of a reply that is not nil the text is
copied, whatever it is. -/
def readPop : Option Reply → Outcome (Option Bytes)
  | none | some .nil => ⟨some none, 1⟩
  | some reply => match str reply with
    | none => ⟨none, 0⟩
    | some value => ⟨some (some value), 1⟩

/-- Both forms of `HSet`. -/
def readHSet : Option Reply → Outcome Bool
  | some (.integer _) => ⟨some true, 1⟩
  | none | some _ => ⟨some false, 1⟩

/-- `HGet`. -/
def readHGet : Option Reply → Outcome Bytes
  | none | some .nil => ⟨some [], 1⟩
  | some reply => match str reply with
    | none => ⟨none, 0⟩
    | some value => ⟨some value, 1⟩

/-! ### The calls -/

variable {α S : Type*}

section

variable (exec : S → Command → Reply × S)

/-- A call: borrow a connection, send the command, and read the reply. -/
def request (link : Link) (command : Command) (refused : α) (read : Option Reply → Outcome α)
    (s : S) : Outcome α × S :=
  match link with
  | .noConnection => (⟨some refused, 0⟩, s)
  | .noReply executed => (read none, if executed then (exec s command).2 else s)
  | .replies => (read (some (exec s command).1), (exec s command).2)

/-- `Get`, by `"GET %s"`. -/
def get (link : Link) (key : Bytes) : S → Outcome (Option Bytes) × S :=
  request exec link (.get (cStr key)) none readGet

/-- `Set`, by `"SET %s %s"`. -/
def set (link : Link) (key value : Bytes) : S → Outcome Bool × S :=
  request exec link (.set (cStr key) (cStr value)) false readSet

/-- `LPush`, by `"LPUSH %s %s"`. -/
def lPush (link : Link) (key value : Bytes) : S → Outcome Bool × S :=
  request exec link (.push .left (cStr key) (cStr value)) false readPush

/-- `LPop`, by `"LPOP %s "`. -/
def lPop (link : Link) (key : Bytes) : S → Outcome (Option Bytes) × S :=
  request exec link (.pop .left (cStr key)) none readPop

/-- `RPush`, by `"RPUSH %s %s"`. -/
def rPush (link : Link) (key value : Bytes) : S → Outcome Bool × S :=
  request exec link (.push .right (cStr key) (cStr value)) false readPush

/-- `RPop`, by `"RPOP %s "`. -/
def rPop (link : Link) (key : Bytes) : S → Outcome (Option Bytes) × S :=
  request exec link (.pop .right (cStr key)) none readPop

/-- `HSet(key, hkey, value)`, by `"HSET %s %s %s"`. -/
def hSet (link : Link) (key hkey value : Bytes) : S → Outcome Bool × S :=
  request exec link (.hset (cStr key) (cStr hkey) (cStr value)) false readHSet

/-- `HSet(key, hkey, hvalue, hvaluelen)`, by `redisCommandArgv`: `key` and `hkey` are C strings. -/
def hSetArgv (link : Link) (key hkey hvalue : Bytes) : S → Outcome Bool × S :=
  request exec link (.hset (cStr key) (cStr hkey) hvalue) false readHSet

/-- `HGet`, by `redisCommandArgv`. -/
def hGet (link : Link) (key hkey : Bytes) : S → Outcome Bytes × S :=
  request exec link (.hget key hkey) [] readHGet

end

/-! ### What survives -/

section

variable (server : Server S)

/-- Only the entry of the key may differ. -/
def Untouched (key : Bytes) (s t : S) : Prop :=
  ∀ k, k ≠ key → server.entry t k = server.entry s k

/-- What `write` stores when it returns `true`, `read` gives back, and neither touches another
key. -/
def Survives (key : Bytes) (write : Link → S → Outcome Bool × S) (read : S → Outcome α × S)
    (value : α) : Prop :=
  ∀ link s, Untouched server key s (write link s).2 ∧ ((write link s).1.result = some true →
    (read (write link s).2).1.result = some value ∧
      Untouched server key (write link s).2 (read (write link s).2).2)

/-- `Set` and `Get`. -/
def SetSurvives (key value : Bytes) : Prop :=
  Survives server key (fun link => set server.exec link key value)
    (get server.exec .replies key) (some value)

/-- `LPush` and `LPop`. -/
def LPushSurvives (key value : Bytes) : Prop :=
  Survives server key (fun link => lPush server.exec link key value)
    (lPop server.exec .replies key) (some value)

/-- `RPush` and `RPop`. -/
def RPushSurvives (key value : Bytes) : Prop :=
  Survives server key (fun link => rPush server.exec link key value)
    (rPop server.exec .replies key) (some value)

/-- `HSet` and `HGet`. -/
def HSetSurvives (key hkey value : Bytes) : Prop :=
  Survives server key (fun link => hSet server.exec link key hkey value)
    (hGet server.exec .replies key hkey) value

end

theorem cStr_eq_self {s : Bytes} : cStr s = s ↔ 0 ∉ s := by
  unfold cStr
  rw [List.takeWhile_eq_self_iff]
  constructor
  · intro h hzero
    exact absurd (h 0 hzero) (by simp)
  · intro h c hc
    rw [decide_eq_true_iff]
    exact fun hzero => h (hzero ▸ hc)

/-- What was cut is not cut again. -/
@[simp] theorem cStr_cStr (s : Bytes) : cStr (cStr s) = cStr s := by
  rw [cStr_eq_self]
  intro hzero
  exact absurd (List.mem_takeWhile_imp hzero) (by simp)

section

variable {server : Server S} {key : Bytes} {c d : Command} {value refused : α}
  {readWrite : Option Reply → Outcome Bool} {readBack : Option Reply → Outcome α}

theorem untouched_exec (s : S) : Untouched server c.key s (server.exec s c).2 :=
  fun _ hk => server.exec_of_ne s c hk

theorem untouched_request {link : Link} {s : S} :
    Untouched server c.key s (request server.exec link c refused readBack s).2 := by
  cases link with
  | noConnection => exact fun _ _ => rfl
  | noReply executed =>
      cases executed with
      | false => exact fun _ _ => rfl
      | true => exact untouched_exec s
  | replies => exact untouched_exec s

/-- Two commands on the key itself, of which the second gives back what the first stored. -/
theorem survives_of (hc : c.key = key) (hd : d.key = key)
    (hnone : (readWrite none).result = some false)
    (hback : ∀ s, (readWrite (some (server.exec s c).1)).result = some true →
      (readBack (some (server.exec (server.exec s c).2 d).1)).result = some value) :
    Survives server key (fun link => request server.exec link c false readWrite)
      (request server.exec .replies d refused readBack) value := by
  intro link s
  subst hc
  refine ⟨untouched_request, fun htrue => ?_⟩
  cases link with
  | noConnection => exact absurd htrue (by simp [request])
  | noReply executed =>
      simp only [request] at htrue
      rw [hnone] at htrue
      exact absurd htrue (by simp)
  | replies =>
      refine ⟨hback s htrue, ?_⟩
      rw [← hd]
      exact untouched_request

/-- A command that stores something is about the key itself. -/
theorem key_of_survives {read : S → Outcome α × S}
    (hstore : server.entry (server.exec server.empty c).2 c.key ≠ none)
    (h : Survives server key (fun link => request server.exec link c false readWrite) read value) :
    c.key = key := by
  by_contra hne
  have huntouched := (h .replies server.empty).1 c.key hne
  exact hstore (huntouched.trans (server.entry_empty c.key))

/-- What is given back after a command, on a given store. -/
theorem result_of_survives {s : S}
    (h : Survives server key (fun link => request server.exec link c false readWrite)
      (request server.exec .replies d refused readBack) value)
    (htrue : (readWrite (some (server.exec s c).1)).result = some true) :
    (readBack (some (server.exec (server.exec s c).2 d).1)).result = some value :=
  ((h .replies s).2 htrue).1

end

section

variable {server : Server S}

/-- **`Set` and `Get`.** -/
theorem setSurvives_iff (key value : Bytes) :
    SetSurvives server key value ↔ 0 ∉ key ∧ 0 ∉ value := by
  simp only [← cStr_eq_self]
  have hback (s : S) : (readGet (some (server.exec
      (server.exec s (.set (cStr key) (cStr value))).2 (.get (cStr key))).1)).result =
        some (some (cStr value)) := by
    simp [Server.get_set, readGet, str]
  constructor
  · intro h
    refine ⟨key_of_survives (by simp [Command.key, server.set_entry]) h, ?_⟩
    have hvalue := result_of_survives (s := server.empty) h
      (by simp [server.set_reply, readSet, show cStr (ascii "OK") = ascii "OK" from by decide])
    rw [hback] at hvalue
    exact Option.some.inj (Option.some.inj hvalue)
  · rintro ⟨hkey, hvalue⟩
    refine survives_of hkey hkey rfl fun s _ => ?_
    rw [hback, hvalue]

/-- A pop after a push that returned `true`. -/
theorem readPop_push {s : S} {side : Side} {key value : Bytes}
    (h : (readPush (some (server.exec s (.push side key value)).1)).result = some true) :
    (readPop (some (server.exec (server.exec s (.push side key value)).2
      (.pop side key)).1)).result = some (some (cStr value)) := by
  cases hreply : (server.exec s (.push side key value)).1 with
  | integer n => simp [Server.pop_push hreply, readPop, str]
  | nil | string _ | status _ | error _ => rw [hreply] at h; exact absurd h (by simp [readPush])

theorem items_empty (server : Server S) (key : Bytes) :
    items (server.entry server.empty key) = some [] := by
  rw [server.entry_empty]
  rfl

theorem fields_empty (server : Server S) (key : Bytes) :
    fields (server.entry server.empty key) = some fun _ => none := by
  rw [server.entry_empty]
  rfl

/-- A push and a pop at the same end. -/
theorem pushSurvives_iff (side : Side) (key value : Bytes) :
    Survives server key
      (fun link => request server.exec link (.push side (cStr key) (cStr value)) false readPush)
      (request server.exec .replies (.pop side (cStr key)) none readPop) (some value) ↔
      0 ∉ key ∧ 0 ∉ value := by
  simp only [← cStr_eq_self]
  have hempty := items_empty server (cStr key)
  constructor
  · intro h
    refine ⟨key_of_survives (fun hnone => ?_) h, ?_⟩
    · have hentry := server.push_entry side (cStr value) hempty
      rw [show server.entry _ (cStr key) = none from hnone] at hentry
      exact push_ne_nil side _ _ (Option.some.inj hentry).symm
    · have htrue : (readPush (some (server.exec server.empty
          (.push side (cStr key) (cStr value))).1)).result = some true := by
        simp [server.push_reply side (cStr value) hempty, readPush]
      have hvalue := result_of_survives h htrue
      rw [readPop_push htrue, cStr_cStr] at hvalue
      exact Option.some.inj (Option.some.inj hvalue)
  · rintro ⟨hkey, hvalue⟩
    refine survives_of hkey hkey rfl fun s htrue => ?_
    rw [readPop_push htrue, cStr_cStr, hvalue]

/-- `HSet` returns `true` for an integer only. -/
theorem integer_of_readHSet {reply : Reply} (h : (readHSet (some reply)).result = some true) :
    ∃ n, reply = .integer n := by
  cases reply with
  | integer n => exact ⟨n, rfl⟩
  | nil | string _ | status _ | error _ => exact absurd h (by simp [readHSet])

/-- `HSet` returns `true` where a hash can be. -/
theorem readHSet_hset {s : S} {key : Bytes} {hash : Bytes → Option Bytes} (field value : Bytes)
    (hs : fields (server.entry s key) = some hash) :
    (readHSet (some (server.exec s (.hset key field value)).1)).result = some true := by
  rw [server.hset_reply field value hs]
  rfl

/-- `HGet` of the field that was set. -/
theorem readHGet_hset {s : S} {key field value : Bytes}
    (h : (readHSet (some (server.exec s (.hset key field value)).1)).result = some true) :
    (readHGet (some (server.exec (server.exec s (.hset key field value)).2
      (.hget key field)).1)).result = some (cStr value) := by
  obtain ⟨n, hreply⟩ := integer_of_readHSet h
  simp [Server.hget_hset hreply, readHGet, str]

/-- **`HSet` and `HGet`.** -/
theorem hSetSurvives_iff (key hkey value : Bytes) :
    HSetSurvives server key hkey value ↔ 0 ∉ key ∧ 0 ∉ hkey ∧ 0 ∉ value := by
  simp only [← cStr_eq_self]
  constructor
  · intro h
    have hk : cStr key = key := by
      refine key_of_survives (fun hnone => ?_) h
      have hentry := server.hset_entry (cStr hkey) (cStr value) (fields_empty server (cStr key))
      rw [show server.entry _ (cStr key) = none from hnone] at hentry
      have hfield := congrFun (Option.some.inj hentry) (cStr hkey)
      rw [Function.update_self] at hfield
      exact absurd hfield (by simp)
    have hf : cStr hkey = hkey := by
      by_contra hne
      -- another value under the field itself is what `HGet` finds
      obtain ⟨old, hold, hclean⟩ : ∃ old : Bytes, old ≠ value ∧ cStr old = old := by
        by_cases hempty : value = []
        · exact ⟨[1], by simp [hempty], by decide⟩
        · exact ⟨[], Ne.symm hempty, rfl⟩
      have hs := server.hset_entry hkey old (fields_empty server key)
      have htrue := readHSet_hset (cStr hkey) (cStr value) hs
      nth_rewrite 2 [← hk] at htrue
      have hvalue := result_of_survives h htrue
      rw [hk, Server.hget_hset_of_ne hs (Function.update_self ..) (Ne.symm hne)] at hvalue
      exact hold (hclean.symm.trans (Option.some.inj hvalue))
    refine ⟨hk, hf, ?_⟩
    have htrue := readHSet_hset (cStr hkey) (cStr value) (fields_empty server (cStr key))
    have hvalue := result_of_survives h htrue
    rw [hk, hf] at hvalue htrue
    rw [readHGet_hset htrue, cStr_cStr] at hvalue
    exact Option.some.inj hvalue
  · rintro ⟨hk, hf, hvalue⟩
    refine survives_of hk rfl rfl fun s htrue => ?_
    rw [hk, hf] at htrue ⊢
    rw [readHGet_hset htrue, cStr_cStr, hvalue]

/-- **The `HSet` with a length stores its value whole**, whatever bytes it has. -/
theorem hGet_hSetArgv {key hkey hvalue : Bytes} {s : S} (hk : 0 ∉ key) (hf : 0 ∉ hkey)
    (htrue : (hSetArgv server.exec .replies key hkey hvalue s).1.result = some true) :
    (server.exec (hSetArgv server.exec .replies key hkey hvalue s).2 (.hget key hkey)).1 =
      .string hvalue := by
  rw [← cStr_eq_self] at hk hf
  rw [hSetArgv, hk, hf] at htrue ⊢
  obtain ⟨n, hreply⟩ := integer_of_readHSet htrue
  exact Server.hget_hset hreply

end

/-- **What is stored is given back, and no other key is touched, exactly where there is no NUL**, on
every server that keeps what Redis promises. -/
theorem bytes_survive_iff (server : Server S) (key hkey value : Bytes) :
    (SetSurvives server key value ↔ 0 ∉ key ∧ 0 ∉ value) ∧
      (LPushSurvives server key value ↔ 0 ∉ key ∧ 0 ∉ value) ∧
      (RPushSurvives server key value ↔ 0 ∉ key ∧ 0 ∉ value) ∧
      (HSetSurvives server key hkey value ↔ 0 ∉ key ∧ 0 ∉ hkey ∧ 0 ∉ value) :=
  ⟨setSurvives_iff key value, pushSurvives_iff .left key value, pushSurvives_iff .right key value,
    hSetSurvives_iff key hkey value⟩

/-- Three bytes survive on the key space, in each of the four ways. -/
theorem bytes_survive_iff_sample :
    SetSurvives keySpace [1] [97, 98] ∧ LPushSurvives keySpace [1] [97, 98] ∧
      RPushSurvives keySpace [1] [97, 98] ∧ HSetSurvives keySpace [1] [2] [97, 98] := by
  obtain ⟨hset, hleft, hright, hhash⟩ := bytes_survive_iff keySpace [1] [2] [97, 98]
  exact ⟨hset.2 (by decide), hleft.2 (by decide), hright.2 (by decide), hhash.2 (by decide)⟩

/-- A value with a NUL in its middle comes back without its end. -/
theorem hGet_cut : ¬ ∀ key hkey value : Bytes,
    SetSurvives keySpace key value ∧ LPushSurvives keySpace key value ∧
      RPushSurvives keySpace key value ∧ HSetSurvives keySpace key hkey value := by
  intro h
  have hvalue := ((h [1] [1] [97, 0, 98]).2.2.2 .replies fun _ => none).2
    (by simp [hSet, request, keySpace, exec, execEntry, readHSet])
  exact absurd hvalue.1 (by
    simp [hSet, hGet, request, keySpace, exec, execEntry, Command.key, readHGet, str, cStr])

end RedisMgr
end Database
end BreUtils
