import Rucbase.Index.IxNodeBytes
import Rucbase.Record.Equiv.RmPageHandle

/-!
# Calls of nodes

The methods of `IxNodeHandle` as calls, with `evenlyDistributePairs` and the `insert_pairs` that takes
its pairs from another node.  `run` executes a call on the bytes of the pages, `exec` on the nodes the
pages are meant to hold, and `Fits` is what a call needs: slots that exist, room for what is inserted,
and numbers that are `int`s.
-/

namespace Rucbase

/-- A rid whose parts are `int`s. -/
def Rid.IsInts (rid : Rid) : Prop := IsInt rid.pageNo ∧ IsInt rid.slotNo

namespace IxPage

variable {κ : Type}

/-- An `int` field of the page header. -/
def field (page : IxPage κ) : IxPageHdrField → Int
  | .parent => page.parent
  | .numKey => page.numKey
  | .prevLeaf => page.prevLeaf
  | .nextLeaf => page.nextLeaf

/-- The page with an `int` field of its header changed. -/
def setField (page : IxPage κ) (field : IxPageHdrField) (x : Int) : IxPage κ :=
  match field with
  | .parent => { page with parent := x }
  | .numKey => { page with numKey := x }
  | .prevLeaf => { page with prevLeaf := x }
  | .nextLeaf => { page with nextLeaf := x }

end IxPage

/-- What a call returns. -/
inductive NodeAnswer (κ : Type) where
  | done
  | number (x : Int)
  | flag (b : Bool)
  | key (k : κ)
  | rid (rid : Option Rid)
deriving DecidableEq

/-- A call of a method of `IxNodeHandle`; a key is the bytes behind the caller's pointer. -/
inductive NodeCall where
  | getField (field : IxPageHdrField)
  | setField (field : IxPageHdrField) (x : Int)
  | isRootPage
  | isLeafPage
  | setLeaf (isLeaf : Bool)
  | isFull
  | getKey (i : Int)
  | setKey (i : Int) (key : List UInt8)
  | getRid (i : Int)
  | setRid (i : Int) (rid : Rid)
  | lowerBound (key : List UInt8)
  | upperBound (key : List UInt8)
  | locateKeyIndex (key : List UInt8)
  | leafLookup (key : List UInt8)
  | internalLookup (key : List UInt8)
  | findChild (childPageNo : Int)
  | insertPair (pos : Int) (key : List UInt8) (rid : Rid)
  | insert (key : List UInt8) (value : Rid)
  | erasePair (pos : Int)
  | remove (key : List UInt8)
  | removeAndReturnOnlyChild

namespace NodeCall

variable {κ : Type} (hdr : IxFileHdr) (decode : List UInt8 → κ)

/-- A call on the bytes of a page. -/
def run : NodeCall → NodeM (NodeAnswer κ)
  | getField field => return .number (← IxNodeHandle.getField field)
  | setField field x => do
    IxNodeHandle.setField field x
    return .done
  | isRootPage => return .flag (← IxNodeHandle.isRootPage)
  | isLeafPage => return .flag (← IxNodeHandle.isLeafPage)
  | setLeaf isLeaf => do
    IxNodeHandle.setLeaf isLeaf
    return .done
  | isFull => return .flag (← IxNodeHandle.isFull hdr)
  | getKey i => return .key (decode (← IxNodeHandle.loadKey hdr i))
  | setKey i key => do
    IxNodeHandle.setKey hdr i key
    return .done
  | getRid i => return .rid (some (← IxNodeHandle.loadRid hdr i))
  | setRid i rid => do
    IxNodeHandle.setRid hdr i rid
    return .done
  | lowerBound key => return .number (← IxNodeHandle.lowerBound hdr key)
  | upperBound key => return .number (← IxNodeHandle.upperBound hdr key)
  | locateKeyIndex key => return .number (← IxNodeHandle.locateKeyIndex hdr key)
  | leafLookup key => return .rid (← IxNodeHandle.leafLookup hdr key)
  | internalLookup key => return .number (← IxNodeHandle.internalLookup hdr key)
  | findChild childPageNo => return .number (← IxNodeHandle.findChild hdr childPageNo)
  | insertPair pos key rid => do
    IxNodeHandle.insertPair hdr pos key rid
    return .done
  | insert key value => return .number (← IxNodeHandle.insert hdr key value)
  | erasePair pos => do
    IxNodeHandle.erasePair hdr pos
    return .done
  | remove key => return .number (← IxNodeHandle.remove hdr key)
  | removeAndReturnOnlyChild => return .number (← IxNodeHandle.removeAndReturnOnlyChild hdr)

/-- A call on a node. -/
def exec [IxKey κ] (page : IxPage κ) : NodeCall → NodeAnswer κ × IxPage κ
  | getField field => (.number (page.field field), page)
  | setField field x => (.done, page.setField field x)
  | isRootPage => (.flag (page.parent = invalidPageId), page)
  | isLeafPage => (.flag page.isLeaf, page)
  | setLeaf isLeaf => (.done, { page with isLeaf })
  | isFull => (.flag (page.isFull hdr), page)
  | getKey i => (.key (page.keys i.toNat), page)
  | setKey i key => (.done, page.setKey i (decode key))
  | getRid i => (.rid (some (page.rids i.toNat)), page)
  | setRid i rid => (.done, page.setRid i rid)
  | lowerBound key => (.number (page.lowerBound (decode key)), page)
  | upperBound key => (.number (page.upperBound (decode key)), page)
  | locateKeyIndex key => (.number (page.locateKeyIndex (decode key)), page)
  | leafLookup key => (.rid (page.leafLookup (decode key)), page)
  | internalLookup key => (.number (page.internalLookup (decode key)), page)
  | findChild childPageNo => (.number ((page.findChild childPageNo).getD (-1)), page)
  | insertPair pos key rid => (.done, page.insertPair pos (decode key) rid)
  | insert key value =>
    (.number (page.insert (decode key) value).numKey, page.insert (decode key) value)
  | erasePair pos => (.done, page.erasePair pos)
  | remove key => (.number (page.remove (decode key)).numKey, page.remove (decode key))
  | removeAndReturnOnlyChild => (.number (page.rids 0).pageNo, page.erasePair 0)

end NodeCall

namespace IxFileHdr

variable (hdr : IxFileHdr)

/-- The slot exists; one is kept in reserve behind the last that is used between calls. -/
def HasSlot (i : Int) : Prop := 0 ≤ i ∧ i ≤ hdr.btreeOrder

/-- The buffer holds a key. -/
def HoldsKey (key : List UInt8) : Prop := hdr.colLen ≤ key.length

/-- The node has its keys in its slots. -/
def Sized {κ : Type} (page : IxPage κ) : Prop := 0 ≤ page.numKey ∧ page.numKey ≤ hdr.getMaxSize

/-- The node has a slot left. -/
def HasRoom {κ : Type} (page : IxPage κ) : Prop := 0 ≤ page.numKey ∧ page.numKey ≤ hdr.btreeOrder

end IxFileHdr

/-- What a call of a node needs. -/
def NodeCall.Fits {κ : Type} (hdr : IxFileHdr) (page : IxPage κ) : NodeCall → Prop
  | getField _ => True
  | setField _ x => IsInt x
  | isRootPage => True
  | isLeafPage => True
  | setLeaf _ => True
  | isFull => True
  | getKey i => hdr.HasSlot i
  | setKey i key => hdr.HasSlot i ∧ hdr.HoldsKey key
  | getRid i => hdr.HasSlot i
  | setRid i rid => hdr.HasSlot i ∧ rid.IsInts
  | lowerBound key => hdr.Sized page ∧ hdr.HoldsKey key
  | upperBound key => hdr.Sized page ∧ hdr.HoldsKey key
  | locateKeyIndex key => hdr.Sized page ∧ hdr.HoldsKey key
  | leafLookup key => hdr.Sized page ∧ hdr.HoldsKey key
  | internalLookup key => hdr.Sized page ∧ hdr.HoldsKey key
  | findChild childPageNo => hdr.Sized page ∧ (page.findChild childPageNo).isSome
  | insertPair pos key rid => hdr.HasRoom page ∧ 0 ≤ pos ∧ hdr.HoldsKey key ∧ rid.IsInts
  | insert key value => hdr.HasRoom page ∧ hdr.HoldsKey key ∧ value.IsInts
  | erasePair pos => hdr.HasRoom page ∧ hdr.HasSlot pos
  | remove key => hdr.HasRoom page ∧ hdr.HoldsKey key
  | removeAndReturnOnlyChild => page.numKey = 1 ∧ 1 ≤ hdr.btreeOrder

/-- A call of a node, by the number of its page, or of two nodes. -/
inductive NodesCall where
  | call (node : Int) (call : NodeCall)
  | insertPairs (node pos srcNode srcPos n : Int)
  | evenlyDistributePairs (newNode originNode : Int)

namespace NodesCall

variable {κ : Type} (hdr : IxFileHdr) (decode : List UInt8 → κ)

/-- A call on the bytes of the pages. -/
def run : NodesCall → NodesM (NodeAnswer κ)
  | call node c => onNode node (c.run hdr decode)
  | insertPairs node pos srcNode srcPos n => do
    IxNodeHandle.insertPairsFrom hdr node pos srcNode srcPos n
    return .done
  | evenlyDistributePairs newNode originNode => do
    IxNodeHandle.evenlyDistributePairs hdr newNode originNode
    return .done

/-- A call on the nodes. -/
def exec [IxKey κ] (pages : Int → IxPage κ) : NodesCall → NodeAnswer κ × (Int → IxPage κ)
  | call node c =>
    ((c.exec hdr decode (pages node)).1,
      Function.update pages node (c.exec hdr decode (pages node)).2)
  | insertPairs node pos srcNode srcPos n =>
    (.done, Function.update pages node
      ((pages node).insertPairs pos (fun j => (pages srcNode).keys (srcPos.toNat + j))
        (fun j => (pages srcNode).rids (srcPos.toNat + j)) n))
  | evenlyDistributePairs newNode originNode =>
    let halves := IxIndexHandle.evenlyDistributePairs (pages newNode) (pages originNode)
    (.done, Function.update (Function.update pages newNode halves.1) originNode halves.2)

/-- What a call needs. -/
def Fits (pages : Int → IxPage κ) : NodesCall → Prop
  | call node c => c.Fits hdr (pages node)
  | insertPairs node pos srcNode srcPos n =>
    node ≠ srcNode ∧ 0 ≤ pos ∧ 0 ≤ srcPos ∧ 0 ≤ n ∧ srcPos + n ≤ hdr.getMaxSize ∧
      0 ≤ (pages node).numKey ∧ (pages node).numKey + n ≤ hdr.getMaxSize
  | evenlyDistributePairs newNode originNode =>
    newNode ≠ originNode ∧ hdr.Sized (pages originNode)

end NodesCall

end Rucbase
