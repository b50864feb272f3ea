import Rucbase.Execution.SeqScanExecutor
import Rucbase.Index.IxIndexHandle
import Rucbase.Lib.Memory
import Rucbase.Record.RmPageHandle

/-!
# Nodes of the B+ tree on the bytes of their pages

`IxNodeHandle` (`index/ix_node_handle.h`, `index/ix_node_handle.cpp`) as it works in memory: the
header `IxPageHdr` at the start of the page, behind it the keys of `col_len` bytes each, and the rids
from `keys_size` bytes after that on.  `IxPage` is what the handle is meant to read from there.

A pointer into the page is its distance from the start; one that is passed in by a caller is the bytes
behind it.  An access that leaves the page ends the run; in the source it goes into the next frame.
-/

namespace Rucbase

/-- The bytes of a page by their distance from its start. -/
def PageData.mem (d : PageData) : Int → UInt8 := fun i => if 0 ≤ i then d.byteAt i.toNat else 0

/-- Code that works on the bytes of a page. -/
abbrev NodeM := EStateM QlError PageData

/-- The `int` fields of `IxPageHdr` that are used. -/
inductive IxPageHdrField where
  | parent
  | numKey
  | prevLeaf
  | nextLeaf
deriving DecidableEq, Repr

/-- `offsetof` of the field; `next_free_page_no` is at 0, and `is_leaf` at 12 is padded. -/
def IxPageHdrField.offset : IxPageHdrField → Int
  | parent => 4
  | numKey => 8
  | prevLeaf => 16
  | nextLeaf => 20

/-- A `TYPE_FLOAT` key, by its bits. -/
structure FloatKey where
  bits : UInt32
deriving DecidableEq, Inhabited

instance : IxKey FloatKey where
  compare a b := compareFloat a.bits b.bits

namespace IxNodeHandle

/-! ### Memory -/

/-- `n` bytes of the page. -/
def load (addr n : Int) : NodeM (List UInt8) := do
  let d ← get
  if 0 ≤ addr ∧ 0 ≤ n ∧ addr + n ≤ pageSize then return Memory.load d.mem addr n.toNat
  else throw .outOfBounds

/-- Write bytes to the page. -/
def store (addr : Int) (bytes : List UInt8) : NodeM Unit := do
  let d ← get
  if 0 ≤ addr ∧ addr + bytes.length ≤ pageSize then
    set (d.memcpy addr.toNat (fun j => bytes.getD j 0) bytes.length)
  else throw .outOfBounds

/-- `memcpy` from a caller's buffer into the page. -/
def memcpy (addr : Int) (buf : List UInt8) (n : Int) : NodeM Unit :=
  if 0 ≤ n ∧ n ≤ buf.length then store addr (buf.take n.toNat) else throw .outOfBounds

/-- `memmove` inside the page. -/
def memmove (dest src n : Int) : NodeM Unit := do
  let bytes ← load src n
  store dest bytes

/-- The `int` that a buffer starts with. -/
def intOf (buf : List UInt8) : Int := bytesInt fun j => buf.getD j 0

/-- The bytes of an `int`. -/
def bytesOf (x : Int) : List UInt8 := (List.range 4).map (intBytes x)

/-- The `Rid` that a buffer starts with. -/
def ridOf (buf : List UInt8) : Rid := ⟨intOf buf, intOf (buf.drop 4)⟩

/-- The bytes of a `Rid`. -/
def ridBytes (rid : Rid) : List UInt8 := bytesOf rid.pageNo ++ bytesOf rid.slotNo

/-! ### The page header -/

/-- A field of `page_hdr`. -/
def getField (field : IxPageHdrField) : NodeM Int := return intOf (← load field.offset 4)

/-- Assign to a field of `page_hdr`. -/
def setField (field : IxPageHdrField) (x : Int) : NodeM Unit := store field.offset (bytesOf x)

/-- `IxNodeHandle::GetSize`. -/
def getSize : NodeM Int := getField .numKey

/-- `IxNodeHandle::SetSize`. -/
def setSize (size : Int) : NodeM Unit := setField .numKey size

/-- `IxNodeHandle::GetParentPageNo`. -/
def getParentPageNo : NodeM Int := getField .parent

/-- `IxNodeHandle::SetParentPageNo`. -/
def setParentPageNo (parent : Int) : NodeM Unit := setField .parent parent

/-- `IxNodeHandle::IsRootPage`. -/
def isRootPage : NodeM Bool := return (← getParentPageNo) = invalidPageId

/-- `IxNodeHandle::IsLeafPage`. -/
def isLeafPage : NodeM Bool := return (← load 12 1) ≠ [0]

/-- `IxNodeHandle::set_leaf`. -/
def setLeaf (isLeaf : Bool) : NodeM Unit := store 12 [if isLeaf then 1 else 0]

variable (hdr : IxFileHdr)

/-- `IxNodeHandle::is_full`. -/
def isFull : NodeM Bool := return (← getSize) = hdr.getMaxSize

/-! ### Keys and rids -/

/-- `IxNodeHandle::get_key`. -/
def getKey (keyIdx : Int) : Int := ixPageHdrSize + keyIdx * hdr.colLen

/-- `IxNodeHandle::get_rid`. -/
def getRid (ridIdx : Int) : Int := ixPageHdrSize + hdr.keysSize + ridIdx * ridSize

/-- The `col_len` bytes of a key. -/
def loadKey (keyIdx : Int) : NodeM (List UInt8) := load (getKey hdr keyIdx) hdr.colLen

/-- `*get_rid(rid_idx)`. -/
def loadRid (ridIdx : Int) : NodeM Rid := return ridOf (← load (getRid hdr ridIdx) ridSize)

/-- `IxNodeHandle::set_key`. -/
def setKey (keyIdx : Int) (key : List UInt8) : NodeM Unit :=
  memcpy (getKey hdr keyIdx) key hdr.colLen

/-- `IxNodeHandle::set_rid`. -/
def setRid (ridIdx : Int) (rid : Rid) : NodeM Unit := store (getRid hdr ridIdx) (ridBytes rid)

/-- `IxNodeHandle::ValueAt`. -/
def valueAt (i : Int) : NodeM Int := return (← loadRid hdr i).pageNo

/-! ### Searching -/

/-- `ix_compare(target, get_key(key_idx), col_type, col_len)`: the second buffer is the page from the
key on. -/
def compareKey (target : List UInt8) (keyIdx : Int) : NodeM Int := do
  let buf ← load (getKey hdr keyIdx) (pageSize - getKey hdr keyIdx)
  match ixCompareBytes target buf hdr.colType (.ofInt hdr.colLen) with
  | .ok compareRes => return compareRes
  | .error e => throw e

/-- The loop of `lower_bound` (with `op = 1`) and `upper_bound` (with `op = 0`); each round halves
`[left, right)`, so `right - left` rounds are enough. -/
def boundLoop (op : Bool) (target : List UInt8) : Nat → Int → Int → NodeM Int
  | 0, left, _ => return left
  | rounds + 1, left, right => do
    if left < right then
      let mid := (left + right) / 2
      let compareRes ← compareKey hdr target mid
      if compareRes ≥ 0 then
        if op ∧ compareRes = 0 then boundLoop op target rounds left mid
        else boundLoop op target rounds (mid + 1) right
      else boundLoop op target rounds left mid
    else return left

/-- `IxNodeHandle::lower_bound`. -/
def lowerBound (target : List UInt8) : NodeM Int := do
  let numKey ← getSize
  boundLoop hdr true target numKey.toNat 0 numKey

/-- `IxNodeHandle::upper_bound`. -/
def upperBound (target : List UInt8) : NodeM Int := do
  let numKey ← getSize
  boundLoop hdr false target numKey.toNat 0 numKey

/-- `IxNodeHandle::locateKeyIndex`. -/
def locateKeyIndex (key : List UInt8) : NodeM Int := do
  let index ← lowerBound hdr key
  if index ≠ (← getSize) then
    if (← compareKey hdr key index) = 0 then return index
  return -1

/-- `IxNodeHandle::LeafLookup`: the rid behind `*value`, if it returns true. -/
def leafLookup (key : List UInt8) : NodeM (Option Rid) := do
  let index ← locateKeyIndex hdr key
  if index ≠ -1 then return some (← loadRid hdr index)
  else return none

/-- `IxNodeHandle::InternalLookup`. -/
def internalLookup (key : List UInt8) : NodeM Int := do
  let index ← upperBound hdr key
  valueAt hdr (if index ≠ 0 then index - 1 else index)

/-- The loop of `find_child`, with the assertion behind it. -/
def findChildLoop (childPageNo : Int) : Nat → Int → NodeM Int
  | 0, _ => throw .assertionFailure
  | rounds + 1, ridIdx => do
    if (← valueAt hdr ridIdx) = childPageNo then return ridIdx
    else findChildLoop childPageNo rounds (ridIdx + 1)

/-- `IxNodeHandle::find_child`. -/
def findChild (childPageNo : Int) : NodeM Int := do
  findChildLoop hdr childPageNo (← getSize).toNat 0

/-! ### Changing a node -/

/-- `IxNodeHandle::insert_pairs`; `key` and `rid` are the bytes behind the pointers. -/
def insertPairs (pos : Int) (key rid : List UInt8) (n : Int) : NodeM Unit := do
  let resSize := (← getSize) - pos
  if resSize ≥ 0 then
    let posKey := getKey hdr pos
    let posRid := getRid hdr pos
    memmove (posKey + n * hdr.colLen) posKey (resSize * hdr.colLen)
    memmove (posRid + n * ridSize) posRid (resSize * ridSize)
    memcpy posKey key (n * hdr.colLen)
    memcpy posRid rid (n * ridSize)
    setSize ((← getSize) + n)

/-- `IxNodeHandle::insert_pair`. -/
def insertPair (pos : Int) (key : List UInt8) (rid : Rid) : NodeM Unit :=
  insertPairs hdr pos key (ridBytes rid) 1

/-- `IxNodeHandle::Insert`. -/
def insert (key : List UInt8) (value : Rid) : NodeM Int := do
  let index ← lowerBound hdr key
  if (← compareKey hdr key index) = 0 then getSize
  else
    insertPair hdr index key value
    getSize

/-- The loop of `erase_pair`; its body leaves `num_key` alone, so that the rounds are known. -/
def eraseLoop : Nat → Int → NodeM Unit
  | 0, _ => return ()
  | rounds + 1, i => do
    setKey hdr i (← loadKey hdr (i + 1))
    setRid hdr i (← loadRid hdr (i + 1))
    eraseLoop rounds (i + 1)

/-- `IxNodeHandle::erase_pair`. -/
def erasePair (pos : Int) : NodeM Unit := do
  eraseLoop hdr ((← getSize) - pos).toNat pos
  setSize ((← getSize) - 1)

/-- `IxNodeHandle::Remove`. -/
def remove (key : List UInt8) : NodeM Int := do
  let removePos ← lowerBound hdr key
  if (← compareKey hdr key removePos) = 0 then erasePair hdr removePos
  getSize

/-- `IxNodeHandle::RemoveAndReturnOnlyChild`. -/
def removeAndReturnOnlyChild : NodeM Int := do
  if (← getSize) ≠ 1 then throw .assertionFailure
  let childPageNo ← valueAt hdr 0
  erasePair hdr 0
  if (← getSize) ≠ 0 then throw .assertionFailure
  return childPageNo

end IxNodeHandle

/-! ### Several nodes -/

/-- Code that works on the pages of an index, by their number. -/
abbrev NodesM := EStateM QlError (Int → PageData)

/-- A call of a node. -/
def onNode {α : Type} (pageNo : Int) (x : NodeM α) : NodesM α := fun pages =>
  match x (pages pageNo) with
  | .ok a d => .ok a (Function.update pages pageNo d)
  | .error e d => .error e (Function.update pages pageNo d)

namespace IxNodeHandle

variable (hdr : IxFileHdr)

/-- `insert_pairs` of `n` pairs that another node holds from `src_pos` on, as `Redistribute` and
`Coalesce` call it. -/
def insertPairsFrom (node pos srcNode srcPos n : Int) : NodesM Unit := do
  let key ← onNode srcNode (load (getKey hdr srcPos) (n * hdr.colLen))
  let rid ← onNode srcNode (load (getRid hdr srcPos) (n * ridSize))
  onNode node (insertPairs hdr pos key rid n)

/-- The loop of `evenlyDistributePairs`. -/
def distributeLoop (newNode originNode newKeyNum : Int) : Nat → Int → NodesM Unit
  | 0, _ => return ()
  | rounds + 1, i => do
    let key ← onNode originNode (loadKey hdr (newKeyNum + i))
    onNode newNode (setKey hdr i key)
    let rid ← onNode originNode (loadRid hdr (newKeyNum + i))
    onNode newNode (setRid hdr i rid)
    distributeLoop newNode originNode newKeyNum rounds (i + 1)

/-- `IxIndexHandle::evenlyDistributePairs`. -/
def evenlyDistributePairs (newNode originNode : Int) : NodesM Unit := do
  let newKeyNum := (← onNode originNode getSize) / 2
  let isLeaf ← onNode originNode isLeafPage
  onNode newNode (setLeaf isLeaf)
  let size ← onNode originNode getSize
  onNode newNode (setSize (size - newKeyNum))
  onNode originNode (setSize newKeyNum)
  let parent ← onNode originNode getParentPageNo
  onNode newNode (setParentPageNo parent)
  let moved ← onNode newNode getSize
  distributeLoop hdr newNode originNode newKeyNum moved.toNat 0

end IxNodeHandle

end Rucbase
