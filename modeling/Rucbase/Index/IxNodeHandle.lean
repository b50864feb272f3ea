import Mathlib.Order.Lattice
import Rucbase.Index.IxDefs

/-!
# Nodes of the B+ tree

`IxNodeHandle` (`index/ix_node_handle.cpp`): a page of an index as its header, its key slots and its
rid slots, and the operations inside one node.  The slots from `num_key` on keep whatever was
written there last, and some operations read the first of them.

Keys are of any type that `ix_compare` compares.  On `TYPE_INT` keys (signed integers) and
`TYPE_STRING` keys (byte strings) it is a linear order; on `TYPE_FLOAT` keys a NaN compares equal to
every key.
-/

namespace Rucbase

variable {κ : Type}

/-- A page of an index as `IxNodeHandle` reads it. -/
structure IxPage (κ : Type) where
  parent : Int
  numKey : Int
  isLeaf : Bool
  prevLeaf : Int
  nextLeaf : Int
  keys : Nat → κ
  rids : Nat → Rid

/-- A type of keys with its case of `ix_compare`. -/
class IxKey (κ : Type) where
  compare : κ → κ → Int

/-- `ix_compare`. -/
def ixCompare [IxKey κ] (a b : κ) : Int := IxKey.compare a b

/-- Keys in a linear order. -/
instance (priority := low) [LinearOrder κ] : IxKey κ where
  compare a b := if a < b then -1 else if b < a then 1 else 0

theorem ixCompare_eq [LinearOrder κ] (a b : κ) :
    ixCompare a b = if a < b then -1 else if b < a then 1 else 0 := rfl

namespace IxPage

/-- A page as `NewPage` hands it out. -/
def zero [Inhabited κ] : IxPage κ where
  parent := 0
  numKey := 0
  isLeaf := false
  prevLeaf := 0
  nextLeaf := 0
  keys := fun _ => default
  rids := fun _ => ⟨0, 0⟩

/-! ### Searching in a node -/

section Search

variable [IxKey κ]

/-- The loop of `lower_bound` (with `op = 1`) and `upper_bound` (with `op = 0`); each round halves
`[left, right)`, so `right - left` rounds are enough. -/
def boundLoop (op : Bool) (keys : Nat → κ) (target : κ) : Nat → Int → Int → Int
  | 0, left, _ => left
  | rounds + 1, left, right =>
    if left < right then
      let mid := (left + right) / 2
      let compareRes := ixCompare target (keys mid.toNat)
      if compareRes ≥ 0 then
        if op ∧ compareRes = 0 then boundLoop op keys target rounds left mid
        else boundLoop op keys target rounds (mid + 1) right
      else boundLoop op keys target rounds left mid
    else left

/-- `IxNodeHandle::lower_bound`. -/
def lowerBound (page : IxPage κ) (target : κ) : Int :=
  boundLoop true page.keys target page.numKey.toNat 0 page.numKey

/-- `IxNodeHandle::upper_bound`. -/
def upperBound (page : IxPage κ) (target : κ) : Int :=
  boundLoop false page.keys target page.numKey.toNat 0 page.numKey

/-- `IxNodeHandle::locateKeyIndex`. -/
def locateKeyIndex (page : IxPage κ) (key : κ) : Int :=
  let index := page.lowerBound key
  if index ≠ page.numKey ∧ ixCompare key (page.keys index.toNat) = 0 then index else -1

/-- `IxNodeHandle::LeafLookup`. -/
def leafLookup (page : IxPage κ) (key : κ) : Option Rid :=
  let index := page.locateKeyIndex key
  if index ≠ -1 then some (page.rids index.toNat) else none

/-- `IxNodeHandle::ValueAt`. -/
def valueAt (page : IxPage κ) (i : Int) : Int := (page.rids i.toNat).pageNo

/-- `IxNodeHandle::InternalLookup`. -/
def internalLookup (page : IxPage κ) (key : κ) : Int :=
  let index := page.upperBound key
  page.valueAt (if index ≠ 0 then index - 1 else index)

end Search

/-! ### Changing a node -/

/-- `IxNodeHandle::insert_pairs`: the `n` pairs go to the slots from `pos` on, and the live slots
from there move up. -/
def insertPairs (page : IxPage κ) (pos : Int) (key : Nat → κ) (rid : Nat → Rid) (n : Int) :
    IxPage κ :=
  if page.numKey - pos ≥ 0 then
    { page with
      keys := fun i =>
        if i < pos then page.keys i
        else if i < pos + n then key (i - pos.toNat)
        else if i < page.numKey + n then page.keys (i - n.toNat)
        else page.keys i
      rids := fun i =>
        if i < pos then page.rids i
        else if i < pos + n then rid (i - pos.toNat)
        else if i < page.numKey + n then page.rids (i - n.toNat)
        else page.rids i
      numKey := page.numKey + n }
  else page

/-- `IxNodeHandle::insert_pair`. -/
def insertPair (page : IxPage κ) (pos : Int) (key : κ) (rid : Rid) : IxPage κ :=
  page.insertPairs pos (fun _ => key) (fun _ => rid) 1

/-- `IxNodeHandle::Insert`.  The slot at the position is compared also when it is not live. -/
def insert [IxKey κ] (page : IxPage κ) (key : κ) (value : Rid) : IxPage κ :=
  let index := page.lowerBound key
  if ixCompare key (page.keys index.toNat) = 0 then page
  else page.insertPair index key value

/-- `IxNodeHandle::erase_pair`: each slot from `pos` on takes what the next one holds. -/
def erasePair (page : IxPage κ) (pos : Int) : IxPage κ :=
  { page with
    keys := fun i => if pos ≤ i ∧ i < page.numKey then page.keys (i + 1) else page.keys i
    rids := fun i => if pos ≤ i ∧ i < page.numKey then page.rids (i + 1) else page.rids i
    numKey := page.numKey - 1 }

/-- `IxNodeHandle::Remove`.  The slot at the position is compared also when it is not live. -/
def remove [IxKey κ] (page : IxPage κ) (key : κ) : IxPage κ :=
  let removePos := page.lowerBound key
  if ixCompare key (page.keys removePos.toNat) = 0 then page.erasePair removePos
  else page

/-- `IxNodeHandle::set_key`. -/
def setKey (page : IxPage κ) (i : Int) (key : κ) : IxPage κ :=
  { page with keys := Function.update page.keys i.toNat key }

/-- `IxNodeHandle::set_rid`. -/
def setRid (page : IxPage κ) (i : Int) (rid : Rid) : IxPage κ :=
  { page with rids := Function.update page.rids i.toNat rid }

/-- `IxNodeHandle::find_child`; `none` where the source's assertion fails. -/
def findChild (page : IxPage κ) (childPageNo : Int) : Option Int :=
  ((List.range page.numKey.toNat).find? fun i => (page.rids i).pageNo = childPageNo).map
    fun i : Nat => (i : Int)

end IxPage

namespace IxFileHdr

/-- `IxNodeHandle::GetMaxSize`. -/
def getMaxSize (hdr : IxFileHdr) : Int := hdr.btreeOrder + 1

/-- `IxNodeHandle::GetMinSize`. -/
def getMinSize (hdr : IxFileHdr) : Int := hdr.getMaxSize / 2

end IxFileHdr

/-- `IxNodeHandle::is_full`. -/
def IxPage.isFull (page : IxPage κ) (hdr : IxFileHdr) : Bool := page.numKey = hdr.getMaxSize

end Rucbase
