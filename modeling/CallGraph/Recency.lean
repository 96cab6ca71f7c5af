import CallGraph.Ledger

/-!
# Caches that forget the least recent entry

A `Recency κ ν` holds at most `capacity` entries.  They stand in slots that are linked both ways from the
most to the least recently used, and an index says in which slot the entry of a key stands.  An entry put
into a full cache takes the slot of the last one.
-/

namespace CallGraph

/-- A slot: an entry with the slots used just after and just before it. -/
structure Recency.Slot (κ ν : Type) where
  key : κ
  value : ν
  /-- The slot used more recently. -/
  newer : Option Nat
  /-- The slot used less recently. -/
  older : Option Nat

/-- A bounded map that remembers in which order its entries were used. -/
structure Recency (κ ν : Type) where
  capacity : Nat
  /-- The slot of each key. -/
  index : Ledger κ Nat
  slots : Array (Recency.Slot κ ν)
  /-- The slot used most recently. -/
  newest : Option Nat
  /-- The slot used least recently. -/
  oldest : Option Nat

namespace Recency

variable {κ ν : Type}

/-- The empty cache; it has room for one entry at least. -/
def empty (capacity : Nat) : Recency κ ν :=
  { capacity := max capacity 1, index := {}, slots := #[], newest := none, oldest := none }

/-- The number of entries. -/
def size (r : Recency κ ν) : Nat :=
  r.index.size

/-- Whether there is no entry. -/
def isEmpty (r : Recency κ ν) : Bool :=
  r.index.entries.isEmpty

/-- Changes a slot. -/
def change (r : Recency κ ν) (i : Nat) (f : Slot κ ν → Slot κ ν) : Recency κ ν :=
  { r with slots := r.slots.modify i f }

/-- Changes a slot, if there is one. -/
def change? (r : Recency κ ν) (i : Option Nat) (f : Slot κ ν → Slot κ ν) : Recency κ ν :=
  match i with
  | some i => r.change i f
  | none => r

/-- Has a slot followed by an older one; without a slot, that one becomes the newest. -/
def linkOlder (r : Recency κ ν) (i older : Option Nat) : Recency κ ν :=
  match i with
  | some i => r.change i fun s => { s with older }
  | none => { r with newest := older }

/-- Has a slot preceded by a newer one; without a slot, that one becomes the oldest. -/
def linkNewer (r : Recency κ ν) (i newer : Option Nat) : Recency κ ν :=
  match i with
  | some i => r.change i fun s => { s with newer }
  | none => { r with oldest := newer }

/-- Takes a slot out of the chain. -/
def unlink (r : Recency κ ν) (i : Nat) : Recency κ ν :=
  match r.slots[i]? with
  | none => r
  | some slot =>
    let r := (r.linkOlder slot.newer slot.older).linkNewer slot.older slot.newer
    r.change i fun s => { s with newer := none, older := none }

/-- Puts a slot that is not in the chain before all others. -/
def pushFront (r : Recency κ ν) (i : Nat) : Recency κ ν :=
  let head := r.newest
  let r := r.change i fun s => { s with newer := none, older := head }
  let r := r.change? head fun s => { s with newer := some i }
  { r with newest := some i, oldest := if r.oldest.isNone then some i else r.oldest }

/-- Makes a slot the most recent one. -/
def promote (r : Recency κ ν) (i : Nat) : Recency κ ν :=
  if r.newest = some i then r else (r.unlink i).pushFront i

/-- Walks the chain from a slot on, over at most `fuel` slots. -/
def walk (r : Recency κ ν) : Nat → Option Nat → List κ
  | 0, _ => []
  | _, none => []
  | fuel + 1, some i =>
    match r.slots[i]? with
    | none => []
    | some slot => slot.key :: walk r fuel slot.older

/-- The keys, the most recently used first. -/
def keysByRecency (r : Recency κ ν) : List κ :=
  walk r r.slots.size r.newest

/-- The cache without its entries. -/
def clear (r : Recency κ ν) : Recency κ ν :=
  { r with index := {}, slots := #[], newest := none, oldest := none }

variable [BEq κ]

/-- Whether a key has an entry. -/
def contains (r : Recency κ ν) (key : κ) : Bool :=
  r.index.contains key

/-- The value of a key, which becomes the most recent one. -/
def get (r : Recency κ ν) (key : κ) : Option ν × Recency κ ν :=
  match r.index.find? key with
  | none => (none, r)
  | some i =>
    let r := r.promote i
    (r.slots[i]?.map (·.value), r)

/-- Puts a new entry into a slot of its own. -/
def append (r : Recency κ ν) (key : κ) (value : ν) : Recency κ ν :=
  let i := r.slots.size
  let r := { r with slots := r.slots.push ⟨key, value, none, none⟩, index := r.index.insert key i }
  r.pushFront i

/-- Puts a new entry into the slot of another one; gives the key that had to leave. -/
def replace (r : Recency κ ν) (i : Nat) (key : κ) (value : ν) : Option κ × Recency κ ν :=
  let r := r.unlink i
  let evicted := r.slots[i]?.map (·.key)
  let r := r.change i fun s => { s with key, value }
  let index := match evicted with
    | some old => r.index.erase old
    | none => r.index
  (evicted, { r with index := index.insert key i }.pushFront i)

/-- Puts an entry in as the most recent one; gives the key that had to leave, if any. -/
def insert (r : Recency κ ν) (key : κ) (value : ν) : Option κ × Recency κ ν :=
  match r.index.find? key with
  | some i => (none, (r.change i fun s => { s with value }).promote i)
  | none =>
    if r.capacity ≤ r.size then
      match r.oldest with
      | none => (none, r)
      | some i => r.replace i key value
    else (none, r.append key value)

/-- The value of a key, which is loaded and kept if it is not there; a load that fails changes nothing. -/
def getOrLoad {ε : Type} (r : Recency κ ν) (key : κ) (load : κ → Except ε ν) :
    Except ε ν × Recency κ ν :=
  match r.get key with
  | (some value, r) => (.ok value, r)
  | (none, r) =>
    match load key with
    | .ok value => (.ok value, (r.insert key value).2)
    | .error e => (.error e, r)

end Recency

end CallGraph
