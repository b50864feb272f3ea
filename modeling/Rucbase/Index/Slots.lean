import Rucbase.Index.IxNodeHandle

/-!
# The slots of a node as a list

A node as the list of its live entries and the sequence of keys in the slots behind them.  Values
may be rids or anything else: the tree of `Rucbase.Index.Tree` has subtrees there.  Each operation
is what the operation of `IxNodeHandle` with the same name does to the slots.
-/

namespace Rucbase

/-- Live entries, and the keys left in the slots after them. -/
structure Slots (κ α : Type) where
  entries : List (κ × α)
  stale : Nat → κ

namespace Slots

variable {κ α β : Type}

/-- The number of live entries. -/
def size (s : Slots κ α) : Nat := s.entries.length

/-- The key in a slot, live or not. -/
def keyAt (s : Slots κ α) (i : Nat) : κ :=
  match s.entries[i]? with
  | some e => e.1
  | none => s.stale (i - s.size)

/-- The same keys with other values. -/
def map (f : α → β) (s : Slots κ α) : Slots κ β where
  entries := s.entries.map fun e => (e.1, f e.2)
  stale := s.stale

section Search

variable [LinearOrder κ]

/-- `lower_bound`. -/
def lowerBound (s : Slots κ α) (target : κ) : Nat :=
  (IxPage.boundLoop true s.keyAt target s.size 0 s.size).toNat

/-- `upper_bound`. -/
def upperBound (s : Slots κ α) (target : κ) : Nat :=
  (IxPage.boundLoop false s.keyAt target s.size 0 s.size).toNat

/-- The index of the child that `InternalLookup` returns. -/
def lookupIndex (s : Slots κ α) (key : κ) : Nat := s.upperBound key - 1

/-- `LeafLookup`. -/
def leafLookup (s : Slots κ α) (key : κ) : Option α :=
  match s.entries[s.lowerBound key]? with
  | some e => if e.1 = key then some e.2 else none
  | none => none

end Search

/-- `insert_pair`. -/
def insertAt (s : Slots κ α) (i : Nat) (key : κ) (value : α) : Slots κ α where
  entries := s.entries.insertIdx i (key, value)
  stale := fun j => s.stale (j + 1)

/-- `Insert`. -/
def insert [LinearOrder κ] (s : Slots κ α) (key : κ) (value : α) : Slots κ α :=
  if s.keyAt (s.lowerBound key) = key then s else s.insertAt (s.lowerBound key) key value

/-- `erase_pair`: the first slot behind the entries keeps its key, and is copied into the slot that
becomes free. -/
def eraseAt (s : Slots κ α) (i : Nat) : Slots κ α where
  entries := s.entries.eraseIdx i
  stale := fun j => s.stale (j - 1)

/-- `insert_pairs` of all entries of another node, at the end. -/
def append (s t : Slots κ α) : Slots κ α where
  entries := s.entries ++ t.entries
  stale := fun j => s.stale (t.size + j)

/-- `set_key`. -/
def setKey (s : Slots κ α) (i : Nat) (key : κ) : Slots κ α where
  entries := s.entries.modify i fun e => (key, e.2)
  stale := s.stale

/-- What `evenlyDistributePairs` leaves in the node. -/
def leftHalf (s : Slots κ α) : Slots κ α where
  entries := s.entries.take (s.size / 2)
  stale := fun j => s.keyAt (s.size / 2 + j)

/-- What `evenlyDistributePairs` moves to the new node. -/
def rightHalf [Inhabited κ] (s : Slots κ α) : Slots κ α where
  entries := s.entries.drop (s.size / 2)
  stale := fun _ => default

end Slots

end Rucbase
