import Rucbase.Index.IxIndexHandle

/-!
# Scanning an index

The positions that `IxIndexHandle` gives to the execution layer (`lower_bound`, `upper_bound`,
`leaf_begin`, `leaf_end`) and `IxScan` (`index/ix_scan.cpp`), which walks along the leaves from one
position to another.
-/

namespace Rucbase

/-- `Iid`: a slot of a leaf page. -/
structure Iid where
  pageNo : Int
  slotNo : Int
deriving DecidableEq, Repr

namespace IxIndexHandle

variable {κ : Type}

/-- `IxIndexHandle::get_rid`. -/
def getRid (iid : Iid) : IxM κ Rid := do
  let leaf ← fetchNode iid.pageNo
  let page ← node leaf
  if iid.slotNo ≥ page.numKey then throw .indexEntryNotFoundError
  else
    let _ ← unpinPage leaf
    return page.rids iid.slotNo.toNat

/-- `IxIndexHandle::leaf_begin`. -/
def leafBegin : IxM κ Iid := do
  let s ← get
  return ⟨s.fileHdr.firstLeaf, 0⟩

/-- `IxIndexHandle::leaf_end`. -/
def leafEnd : IxM κ Iid := do
  let s ← get
  let leaf ← fetchNode s.fileHdr.lastLeaf
  let page ← node leaf
  let _ ← unpinPage leaf
  return ⟨s.fileHdr.lastLeaf, page.numKey⟩

section

variable [IxKey κ]

/-- `IxIndexHandle::lower_bound`: the position in the leaf, also when it is behind the entries. -/
def lowerBound (fuel : Nat) (key : κ) : IxM κ Iid := do
  let leaf ← findLeafPage fuel key
  let page ← node leaf
  let _ ← unpinPage leaf
  return ⟨leaf, page.lowerBound key⟩

/-- `IxIndexHandle::upper_bound`: the end of the whole index if no key of the leaf is larger. -/
def upperBound (fuel : Nat) (key : κ) : IxM κ Iid := do
  let leaf ← findLeafPage fuel key
  let page ← node leaf
  let keyIdx := page.upperBound key
  let iid ← if keyIdx = page.numKey then leafEnd else pure ⟨leaf, keyIdx⟩
  let _ ← unpinPage leaf
  return iid

end

end IxIndexHandle

/-- `IxScan`: the position `iid_` of the scan and the position `end_` at which it ends. -/
structure IxScan where
  iid : Iid
  finish : Iid
deriving DecidableEq, Repr

namespace IxScan

open IxIndexHandle

variable {κ : Type}

/-- `IxScan::is_end`. -/
def isEnd (scan : IxScan) : Bool := scan.iid = scan.finish

/-- `IxScan::rid`. -/
def rid (scan : IxScan) : IxM κ Rid := getRid scan.iid

/-- `IxScan::next`.  The leaf stays pinned. -/
def next (scan : IxScan) : IxM κ IxScan := do
  if scan.isEnd then throw .assertionFailure
  else
    let leaf ← fetchNode scan.iid.pageNo
    let page ← node leaf
    if ¬page.isLeaf then throw .assertionFailure
    else if ¬scan.iid.slotNo < page.numKey then throw .assertionFailure
    else
      let s ← get
      let slotNo := scan.iid.slotNo + 1
      if scan.iid.pageNo ≠ s.fileHdr.lastLeaf ∧ slotNo = page.numKey then
        return { scan with iid := ⟨page.nextLeaf, 0⟩ }
      else return { scan with iid := { scan.iid with slotNo } }

/-- A client's loop `for (; !scan.is_end(); scan.next())`, collecting `scan.rid()`. -/
def collect : Nat → IxScan → IxM κ (List Rid)
  | 0, _ => throw .outOfFuel
  | fuel + 1, scan =>
    if scan.isEnd then return []
    else do
      let rid ← scan.rid
      let scan ← scan.next
      let rest ← collect fuel scan
      return rid :: rest

/-- The scan from `lower_bound(a)` to `upper_bound(b)`. -/
def range [IxKey κ] (fuel : Nat) (a b : κ) : IxM κ (List Rid) := do
  let lower ← lowerBound fuel a
  let upper ← upperBound fuel b
  collect fuel ⟨lower, upper⟩

end IxScan

end Rucbase
