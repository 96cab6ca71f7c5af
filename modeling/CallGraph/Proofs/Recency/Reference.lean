import CallGraph.Recency
import Mathlib.Data.List.Basic

/-!
# Lists of entries in the order of their use

A `RecencyList` is a list of entries, the most recent first, that drops its last entry when it would get too
long.  It is what a cache is to a caller.  A `Recency.Call` asks either of them to do something, and a
`Recency.Reply` is what it gives back.
-/

namespace CallGraph

/-- Entries with different keys, the most recently used first. -/
structure RecencyList (κ ν : Type) where
  capacity : Nat
  entries : List (κ × ν)

namespace RecencyList

variable {κ ν ε : Type}

/-- The list without entries; it has room for one at least. -/
def empty (capacity : Nat) : RecencyList κ ν :=
  { capacity := max capacity 1, entries := [] }

/-- The list without its entries. -/
def clear (l : RecencyList κ ν) : RecencyList κ ν :=
  { l with entries := [] }

/-- The list with an entry in front; gives the key of the entry that had to leave, if any. -/
def push (l : RecencyList κ ν) (entry : κ × ν) : Option κ × RecencyList κ ν :=
  let entries := entry :: l.entries
  if l.capacity < entries.length then
    (entries.getLast?.map (·.1), { l with entries := entries.dropLast })
  else (none, { l with entries })

/-- A full list loses its last entry to a new one. -/
theorem push_of_full {l : RecencyList κ ν} {rest : List (κ × ν)} {last : κ × ν}
    (hlast : l.entries = rest ++ [last]) (hfull : l.capacity ≤ l.entries.length) (entry : κ × ν) :
  l.push entry = (some last.1, { l with entries := entry :: rest })
  := by
  have hover : l.capacity < (entry :: l.entries).length := Nat.lt_succ_of_le hfull
  simp only [push, hover, if_true]
  rw [hlast, ← List.cons_append, List.getLast?_concat, List.dropLast_concat]
  rfl

/-- A list with room keeps all its entries beside a new one. -/
theorem push_of_room {l : RecencyList κ ν} (hroom : l.entries.length < l.capacity) (entry : κ × ν) :
  l.push entry = (none, { l with entries := entry :: l.entries })
  := by
  have hover : ¬ l.capacity < (entry :: l.entries).length := Nat.not_lt_of_le hroom
  simp only [push, hover, if_false]

variable [BEq κ]

/-- The entry of a key. -/
def find? (l : RecencyList κ ν) (key : κ) : Option (κ × ν) :=
  l.entries.find? fun e => e.1 == key

/-- Whether a key has an entry. -/
def contains (l : RecencyList κ ν) (key : κ) : Bool :=
  l.entries.any fun e => e.1 == key

/-- The list in which `entry` stands in front, in place of the entry of a key. -/
def advance (l : RecencyList κ ν) (key : κ) (entry : κ × ν) : RecencyList κ ν :=
  { l with entries := entry :: l.entries.eraseP fun e => e.1 == key }

/-- The value of a key, whose entry goes to the front. -/
def get (l : RecencyList κ ν) (key : κ) : Option ν × RecencyList κ ν :=
  match l.find? key with
  | none => (none, l)
  | some e => (some e.2, l.advance key e)

/-- Gives a key a value; the entry goes to the front, and keeps its key if it was there. -/
def insert (l : RecencyList κ ν) (key : κ) (value : ν) : Option κ × RecencyList κ ν :=
  match l.find? key with
  | some e => (none, l.advance key (e.1, value))
  | none => l.push (key, value)

/-- The value of a key, which is loaded if it is not there. -/
def getOrLoad (l : RecencyList κ ν) (key : κ) (load : κ → Except ε ν) : Except ε ν × RecencyList κ ν :=
  match l.find? key with
  | some e => (.ok e.2, l.advance key e)
  | none =>
    match load key with
    | .ok value => (.ok value, (l.insert key value).2)
    | .error e => (.error e, l)

end RecencyList

namespace Recency

variable {κ ν ε : Type}

/-- What a cache is asked to do. -/
inductive Call (κ ν ε : Type) where
  | get (key : κ)
  | contains (key : κ)
  | insert (key : κ) (value : ν)
  | getOrLoad (key : κ) (load : κ → Except ε ν)
  | clear

/-- What a cache gives back. -/
inductive Reply (κ ν ε : Type) where
  | value (value : Option ν)
  | present (isThere : Bool)
  | evicted (key : Option κ)
  | loaded (result : Except ε ν)
  | cleared

/-- The replies to calls made one after the other, and the state after them. -/
def replies {S : Type} (perform : S → Call κ ν ε → Reply κ ν ε × S) :
    S → List (Call κ ν ε) → List (Reply κ ν ε) × S
  | s, [] => ([], s)
  | s, call :: calls =>
    let (reply, s) := perform s call
    let (rest, s) := replies perform s calls
    (reply :: rest, s)

/-- A call made to a cache. -/
def perform [BEq κ] (r : Recency κ ν) : Call κ ν ε → Reply κ ν ε × Recency κ ν
  | .get key => ((r.get key).map Reply.value id)
  | .contains key => (.present (r.contains key), r)
  | .insert key value => (r.insert key value).map Reply.evicted id
  | .getOrLoad key load => (r.getOrLoad key load).map Reply.loaded id
  | .clear => (.cleared, r.clear)

/-- A call made to a list. -/
def performList [BEq κ] (l : RecencyList κ ν) : Call κ ν ε → Reply κ ν ε × RecencyList κ ν
  | .get key => (l.get key).map Reply.value id
  | .contains key => (.present (l.contains key), l)
  | .insert key value => (l.insert key value).map Reply.evicted id
  | .getOrLoad key load => (l.getOrLoad key load).map Reply.loaded id
  | .clear => (.cleared, l.clear)

end Recency

end CallGraph
