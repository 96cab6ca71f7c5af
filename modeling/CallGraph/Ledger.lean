/-!
# Ledgers

A `Ledger` maps keys to values and keeps its entries in the order in which their keys came in.  An entry
that gets another value keeps its key and its place.
-/

namespace CallGraph

/-- A map whose entries are in the order in which they came in. -/
structure Ledger (κ ν : Type) where
  entries : List (κ × ν) := []

namespace Ledger

variable {κ ν : Type}

/-- The keys in order. -/
def keys (m : Ledger κ ν) : List κ :=
  m.entries.map (·.1)

/-- The values in order. -/
def values (m : Ledger κ ν) : List ν :=
  m.entries.map (·.2)

/-- The number of entries. -/
def size (m : Ledger κ ν) : Nat :=
  m.entries.length

variable [BEq κ]

/-- The value of a key. -/
def find? (m : Ledger κ ν) (key : κ) : Option ν :=
  (m.entries.find? (·.1 == key)).map (·.2)

/-- Whether a key has an entry. -/
def contains (m : Ledger κ ν) (key : κ) : Bool :=
  m.entries.any (·.1 == key)

/-- The ledger with a value for a key. -/
def insert (m : Ledger κ ν) (key : κ) (value : ν) : Ledger κ ν :=
  if m.contains key then ⟨m.entries.map fun e => if e.1 == key then (e.1, value) else e⟩
  else ⟨m.entries ++ [(key, value)]⟩

/-- The ledger without a key. -/
def erase (m : Ledger κ ν) (key : κ) : Ledger κ ν :=
  ⟨m.entries.filter fun e => !(e.1 == key)⟩

/-- The ledger with all entries of another one. -/
def extend (m other : Ledger κ ν) : Ledger κ ν :=
  other.entries.foldl (fun m e => m.insert e.1 e.2) m

end Ledger

end CallGraph
