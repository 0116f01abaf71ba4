/-
# A Redis server

A key space of byte strings, lists and hashes, and what the server replies to the commands
on them.  Every argument and every reply is a byte string of any content.  A list that is
popped empty is gone with its key, and a command on an entry of another kind is answered
with an error.

A `Server` is whatever keeps these promises, in whichever way it keeps its state.  A command
touches its own key only (`Server.exec_of_ne`), and what one command stores the matching one
gives back (`Server.get_set`, `Server.hget_hset`, `Server.pop_push`).  `keySpace` is such a server.
-/

import BreUtils.Lib.Cursor
import Mathlib.Data.Int.Notation
import Mathlib.Logic.Function.Basic

namespace BreUtils
namespace Lib
namespace Redis

/-- What is stored under a key. -/
inductive Entry where
  | string (value : List UInt8)
  | list (items : List (List UInt8))
  | hash (fields : List UInt8 → Option (List UInt8))

/-- The ends of a list. -/
inductive Side where
  | left
  | right
  deriving DecidableEq

/-- The commands on the three kinds of entries. -/
inductive Command where
  | get (key : List UInt8)
  | set (key value : List UInt8)
  /-- `LPUSH` and `RPUSH`. -/
  | push (side : Side) (key value : List UInt8)
  /-- `LPOP` and `RPOP`. -/
  | pop (side : Side) (key : List UInt8)
  | hset (key field value : List UInt8)
  | hget (key field : List UInt8)
  deriving DecidableEq

/-- The kinds of replies. -/
inductive Reply where
  | nil
  | string (text : List UInt8)
  | status (text : List UInt8)
  | error (text : List UInt8)
  | integer (n : ℤ)
  deriving DecidableEq

/-- The key that a command is about. -/
def Command.key : Command → List UInt8
  | get key | set key _ | push _ key _ | pop _ key | hset key _ _ | hget key _ => key

/-- The items of a list, of which an absent key has none. -/
def items : Option Entry → Option (List (List UInt8))
  | none => some []
  | some (.list items) => some items
  | some _ => none

/-- The fields of a hash, of which an absent key has none. -/
def fields : Option Entry → Option (List UInt8 → Option (List UInt8))
  | none => some fun _ => none
  | some (.hash fields) => some fields
  | some _ => none

/-- The list with one more item at its end. -/
def push (side : Side) (value : List UInt8) (items : List (List UInt8)) : List (List UInt8) :=
  match side with
  | .left => value :: items
  | .right => items ++ [value]

/-- The item at an end of the list, and the rest. -/
def pop (side : Side) (items : List (List UInt8)) : Option (List UInt8 × List (List UInt8)) :=
  match side with
  | .left => items.head?.map fun value => (value, items.tail)
  | .right => items.getLast?.map fun value => (value, items.dropLast)

/-- What is pushed at an end is the item that is popped there. -/
theorem pop_push_items (side : Side) (value : List UInt8) (items : List (List UInt8)) :
    pop side (push side value items) = some (value, items) := by
  cases side <;> simp [pop, push]

/-- After a push the list is not empty. -/
theorem push_ne_nil (side : Side) (value : List UInt8) (items : List (List UInt8)) :
    push side value items ≠ [] := by
  cases side <;> simp [push]

/-- **A Redis server**, with what its documentation says of the commands. -/
structure Server (S : Type*) where
  /-- One command, and its reply. -/
  exec : S → Command → Reply × S
  /-- What is stored under a key. -/
  entry : S → List UInt8 → Option Entry
  /-- A server that nothing is stored on. -/
  empty : S
  entry_empty (key : List UInt8) : entry empty key = none
  /-- A command touches its own key only. -/
  exec_of_ne (s : S) (c : Command) {key : List UInt8} (h : key ≠ c.key) :
    entry (exec s c).2 key = entry s key
  /-- `SET` is answered with `OK`. -/
  set_reply (s : S) (key value : List UInt8) :
    (exec s (.set key value)).1 = .status (ascii "OK")
  /-- `SET` replaces whatever is under the key. -/
  set_entry (s : S) (key value : List UInt8) :
    entry (exec s (.set key value)).2 key = some (.string value)
  /-- `GET` is answered with the value. -/
  get_reply {s : S} {key value : List UInt8} (h : entry s key = some (.string value)) :
    (exec s (.get key)).1 = .string value
  /-- `LPUSH` and `RPUSH` are answered with the length of the list after the push. -/
  push_reply {s : S} {key : List UInt8} {list : List (List UInt8)} (side : Side)
    (value : List UInt8) (h : items (entry s key) = some list) :
    (exec s (.push side key value)).1 = .integer (list.length + 1)
  push_entry {s : S} {key : List UInt8} {list : List (List UInt8)} (side : Side)
    (value : List UInt8) (h : items (entry s key) = some list) :
    items (entry (exec s (.push side key value)).2 key) = some (push side value list)
  /-- A push on an entry of another kind is answered with an error. -/
  push_refused {s : S} {key : List UInt8} (side : Side) (value : List UInt8)
    (h : items (entry s key) = none) : ∃ text, (exec s (.push side key value)).1 = .error text
  /-- `LPOP` and `RPOP` of no items are answered with nil. -/
  pop_empty {s : S} {key : List UInt8} (side : Side) (h : items (entry s key) = some []) :
    (exec s (.pop side key)).1 = .nil ∧ items (entry (exec s (.pop side key)).2 key) = some []
  /-- `LPOP` and `RPOP` take the item at their end. -/
  pop_item {s : S} {key value : List UInt8} {list rest : List (List UInt8)} {side : Side}
    (h : items (entry s key) = some list) (hpop : pop side list = some (value, rest)) :
    (exec s (.pop side key)).1 = .string value ∧
      items (entry (exec s (.pop side key)).2 key) = some rest
  /-- `HSET` is answered with the number of new fields. -/
  hset_reply {s : S} {key : List UInt8} {hash : List UInt8 → Option (List UInt8)}
    (field value : List UInt8) (h : fields (entry s key) = some hash) :
    (exec s (.hset key field value)).1 = .integer (if (hash field).isSome then 0 else 1)
  hset_entry {s : S} {key : List UInt8} {hash : List UInt8 → Option (List UInt8)}
    (field value : List UInt8) (h : fields (entry s key) = some hash) :
    fields (entry (exec s (.hset key field value)).2 key) =
      some (Function.update hash field (some value))
  /-- An `HSET` on an entry of another kind is answered with an error. -/
  hset_refused {s : S} {key : List UInt8} (field value : List UInt8)
    (h : fields (entry s key) = none) : ∃ text, (exec s (.hset key field value)).1 = .error text
  /-- `HGET` is answered with the value of the field. -/
  hget_reply {s : S} {key field value : List UInt8} {hash : List UInt8 → Option (List UInt8)}
    (h : fields (entry s key) = some hash) (hfield : hash field = some value) :
    (exec s (.hget key field)).1 = .string value

namespace Server

variable {S : Type*} (server : Server S)

/-- **`GET` gives back what `SET` stored.** -/
theorem get_set (s : S) (key value : List UInt8) :
    (server.exec (server.exec s (.set key value)).2 (.get key)).1 = .string value :=
  server.get_reply (server.set_entry s key value)

variable {server} {s : S} {key field other value old : List UInt8} {side : Side} {n : ℤ}

/-- **`HGET` gives back what `HSET` stored**, if the key can hold it. -/
theorem hget_hset (h : (server.exec s (.hset key field value)).1 = .integer n) :
    (server.exec (server.exec s (.hset key field value)).2 (.hget key field)).1 =
      .string value := by
  cases hfields : fields (server.entry s key) with
  | none =>
      obtain ⟨text, htext⟩ := server.hset_refused field value hfields
      rw [htext] at h
      exact absurd h (by simp)
  | some hash =>
      exact server.hget_reply (server.hset_entry field value hfields) (Function.update_self ..)

/-- **The other fields of a hash stay.** -/
theorem hget_hset_of_ne {hash : List UInt8 → Option (List UInt8)}
    (hs : fields (server.entry s key) = some hash) (hother : hash other = some old)
    (hne : other ≠ field) :
    (server.exec (server.exec s (.hset key field value)).2 (.hget key other)).1 = .string old :=
  server.hget_reply (server.hset_entry field value hs)
    ((Function.update_of_ne hne ..).trans hother)

/-- **`LPOP` gives back what `LPUSH` stored, and `RPOP` what `RPUSH` did**, if the key can hold
it. -/
theorem pop_push (h : (server.exec s (.push side key value)).1 = .integer n) :
    (server.exec (server.exec s (.push side key value)).2 (.pop side key)).1 = .string value := by
  cases hitems : items (server.entry s key) with
  | none =>
      obtain ⟨text, htext⟩ := server.push_refused side value hitems
      rw [htext] at h
      exact absurd h (by simp)
  | some list =>
      exact (server.pop_item (server.push_entry side value hitems)
        (pop_push_items side value list)).1

end Server

/-! ### One such server -/

/-- The key space. -/
abbrev Store := List UInt8 → Option Entry

/-- The entry for a list: none if it is empty. -/
def listEntry (items : List (List UInt8)) : Option Entry :=
  if items = [] then none else some (.list items)

/-- The reply to a command on an entry of another kind. -/
def wrongType : Reply :=
  .error (ascii "WRONGTYPE Operation against a key holding the wrong kind of value")

/-- What a command replies to what it finds under its key, and what it leaves there. -/
def execEntry : Command → Option Entry → Reply × Option Entry
  | .get _, e => match e with
    | none => (.nil, e)
    | some (.string value) => (.string value, e)
    | some _ => (wrongType, e)
  | .set _ value, _ => (.status (ascii "OK"), some (.string value))
  | .push side _ value, e => match e with
    | none => (.integer 1, some (.list (push side value [])))
    | some (.list items) => (.integer (items.length + 1), some (.list (push side value items)))
    | some _ => (wrongType, e)
  | .pop side _, e => match e with
    | none => (.nil, e)
    | some (.list items) => match pop side items with
      | none => (.nil, e)
      | some (value, rest) => (.string value, listEntry rest)
    | some _ => (wrongType, e)
  | .hset _ field value, e => match e with
    | none => (.integer 1, some (.hash (Function.update (fun _ => none) field (some value))))
    | some (.hash fields) =>
        (.integer (if (fields field).isSome then 0 else 1),
          some (.hash (Function.update fields field (some value))))
    | some _ => (wrongType, e)
  | .hget _ field, e => match e with
    | none => (.nil, e)
    | some (.hash fields) => match fields field with
      | none => (.nil, e)
      | some value => (.string value, e)
    | some _ => (wrongType, e)

/-- **One command.** -/
def exec (s : Store) (c : Command) : Reply × Store :=
  ((execEntry c (s c.key)).1, Function.update s c.key (execEntry c (s c.key)).2)

/-- What a command leaves under its key. -/
theorem exec_self (s : Store) (c : Command) :
    (exec s c).2 c.key = (execEntry c (s c.key)).2 := Function.update_self ..

/-- The items of the entry for a list. -/
theorem items_listEntry (list : List (List UInt8)) : items (listEntry list) = some list := by
  unfold listEntry
  split_ifs with hempty
  · rw [hempty]
    rfl
  · rfl

/-- What a list can be under its key. -/
theorem items_eq_some {e : Option Entry} {list : List (List UInt8)} (h : items e = some list) :
    e = none ∧ list = [] ∨ e = some (.list list) := by
  cases e with
  | none => exact Or.inl ⟨rfl, (Option.some.inj h).symm⟩
  | some e =>
      cases e with
      | list items => exact Or.inr (by rw [Option.some.inj h])
      | string _ | hash _ => exact absurd h (by simp [items])

/-- What a hash can be under its key. -/
theorem fields_eq_some {e : Option Entry} {hash : List UInt8 → Option (List UInt8)}
    (h : fields e = some hash) : e = none ∧ hash = (fun _ => none) ∨ e = some (.hash hash) := by
  cases e with
  | none => exact Or.inl ⟨rfl, (Option.some.inj h).symm⟩
  | some e =>
      cases e with
      | hash fields => exact Or.inr (by rw [Option.some.inj h])
      | string _ | list _ => exact absurd h (by simp [fields])

/-- **The key space is a server.** -/
def keySpace : Server Store where
  exec
  entry s key := s key
  empty _ := none
  entry_empty _ := rfl
  exec_of_ne s _ _ h := Function.update_of_ne h _ s
  set_reply _ _ _ := rfl
  set_entry s key value := exec_self s (.set key value)
  get_reply h := by simp [exec, execEntry, Command.key, h]
  push_reply side value h := by
    rcases items_eq_some h with ⟨he, rfl⟩ | he <;> simp [exec, execEntry, Command.key, he]
  push_entry {s key list} side value h := by
    refine (congrArg items (exec_self s (.push side key value))).trans ?_
    rcases items_eq_some h with ⟨he, rfl⟩ | he <;> simp [execEntry, Command.key, he, items]
  push_refused {s key} side value h := by
    cases he : s key with
    | none => simp [he, items] at h
    | some e => cases e <;> simp_all [exec, execEntry, Command.key, items, wrongType]
  pop_empty {s key} side h := by
    refine ⟨?_, (congrArg items (exec_self s (.pop side key))).trans ?_⟩ <;>
      rcases items_eq_some h with ⟨he, -⟩ | he <;>
        cases side <;> simp [exec, execEntry, Command.key, he, items, pop]
  pop_item {s key value list rest side} h hpop := by
    rcases items_eq_some h with ⟨-, rfl⟩ | he
    · cases side <;> simp [pop] at hpop
    · refine ⟨by simp [exec, execEntry, Command.key, he, hpop], ?_⟩
      refine (congrArg items (exec_self s (.pop side key))).trans ?_
      simp [execEntry, Command.key, he, hpop, items_listEntry]
  hset_reply field value h := by
    rcases fields_eq_some h with ⟨he, rfl⟩ | he <;> simp [exec, execEntry, Command.key, he]
  hset_entry {s key hash} field value h := by
    refine (congrArg fields (exec_self s (.hset key field value))).trans ?_
    rcases fields_eq_some h with ⟨he, rfl⟩ | he <;> simp [execEntry, Command.key, he, fields]
  hset_refused {s key} field value h := by
    cases he : s key with
    | none => simp [he, fields] at h
    | some e => cases e <;> simp_all [exec, execEntry, Command.key, fields, wrongType]
  hget_reply h hfield := by
    rcases fields_eq_some h with ⟨-, rfl⟩ | he
    · exact absurd hfield (by simp)
    · simp [exec, execEntry, Command.key, he, hfield]

end Redis
end Lib
end BreUtils
