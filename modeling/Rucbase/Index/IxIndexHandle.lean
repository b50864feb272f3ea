import Rucbase.Index.IxNodeHandle
import Rucbase.Storage.PageStore

/-!
# The B+ tree

`IxIndexHandle` (`index/ix_index_handle.cpp` and the inline functions of its header) over the pages
of its file.  An `IxNodeHandle *` is a page number here: all handles of a page share its memory,
which `node` reads and `setNode` writes.

Loops that follow links, and the recursions up the tree, get a number of rounds and stop with
`outOfFuel` when they have used it up.
-/

namespace Rucbase

/-- An open index: the handle, and the pages behind it. -/
structure IxIndex (κ : Type) where
  fd : Int
  fileHdr : IxFileHdr
  store : PageStore (IxPage κ)
  /-- The header in page 0 on disk. -/
  diskHdr : IxFileHdr

/-- An operation of an index. -/
abbrev IxM (κ : Type) := EStateM RedBaseError (IxIndex κ)

namespace IxIndexHandle

variable {κ : Type}

/-! ### Handles -/

/-- `IxIndexHandle::FetchNode`.  A page that is not a node, such as the file header, ends the call
here; the source goes on with its bytes. -/
def fetchNode (pageNo : Int) : IxM κ Int := do
  let s ← get
  match s.store.fetchPage ⟨s.fd, pageNo⟩ with
  | some (_, store) =>
    set { s with store }
    return pageNo
  | none => throw (.notANode pageNo)

/-- The page behind a handle; a page that was fetched stays in the pool. -/
def node (pageNo : Int) : IxM κ (IxPage κ) := do
  let s ← get
  match s.store.view ⟨s.fd, pageNo⟩ with
  | some page => return page
  | none => throw (.notANode pageNo)

/-- Write the page behind a handle. -/
def setNode (pageNo : Int) (page : IxPage κ) : IxM κ Unit :=
  modify fun s => { s with store := s.store.setPage ⟨s.fd, pageNo⟩ page }

/-- `BufferPoolManager::UnpinPage` of the page behind a handle. -/
def unpinPage (pageNo : Int) : IxM κ Bool := do
  let s ← get
  let r := s.store.unpinPage ⟨s.fd, pageNo⟩
  set { s with store := r.2 }
  return r.1

/-- `IxIndexHandle::CreateNode`. -/
def createNode [Inhabited κ] : IxM κ Int := do
  modify fun s => { s with fileHdr := { s.fileHdr with numPages := s.fileHdr.numPages + 1 } }
  let s ← get
  let pageId : PageId := ⟨s.fd, s.store.fd2pageno s.fd⟩
  match s.store.pool pageId with
  | some _ => throw (.pageInUse pageId)
  | none =>
    set { s with store := s.store.newPage .zero s.fd }
    return pageId.pageNo

/-- `IxIndexHandle::release_node_handle`. -/
def releaseNodeHandle : IxM κ Unit :=
  modify fun s => { s with fileHdr := { s.fileHdr with numPages := s.fileHdr.numPages - 1 } }

/-- `IxIndexHandle::UpdateRootPageNo`. -/
def updateRootPageNo (root : Int) : IxM κ Unit :=
  modify fun s => { s with fileHdr := { s.fileHdr with rootPage := root } }

/-- `IxIndexHandle::set_last_leaf`. -/
def setLastLeaf (pageNo : Int) : IxM κ Unit :=
  modify fun s => { s with fileHdr := { s.fileHdr with lastLeaf := pageNo } }

/-- `IxIndexHandle::maintain_child`. -/
def maintainChild (pageNo : Int) (childIdx : Int) : IxM κ Unit := do
  let page ← node pageNo
  if page.isLeaf then return ()
  else
    let child ← fetchNode (page.rids childIdx.toNat).pageNo
    let childPage ← node child
    setNode child { childPage with parent := pageNo }
    let _ ← unpinPage child

/-- The loops `for (i = lo; i < lo + n; i++) maintain_child(node, i)`. -/
def maintainChildren (pageNo : Int) : Nat → Int → IxM κ Unit
  | 0, _ => return ()
  | n + 1, lo => do
    maintainChild pageNo lo
    maintainChildren pageNo n (lo + 1)

/-! ### Searching -/

section Search

variable [IxKey κ]

/-- The loop of `FindLeafPage`. -/
def findLeafFrom (key : κ) : Nat → Int → IxM κ Int
  | 0, _ => throw .outOfFuel
  | fuel + 1, pageNo => do
    let page ← node pageNo
    if page.isLeaf then return pageNo
    else
      let child ← fetchNode (page.internalLookup key)
      findLeafFrom key fuel child

/-- `IxIndexHandle::FindLeafPage`. -/
def findLeafPage (fuel : Nat) (key : κ) : IxM κ Int := do
  let s ← get
  let root ← fetchNode s.fileHdr.rootPage
  findLeafFrom key fuel root

/-- `IxIndexHandle::GetValue`: the rid it appends, if it returns true. -/
def getValue (fuel : Nat) (key : κ) : IxM κ (Option Rid) := do
  let leaf ← findLeafPage fuel key
  let page ← node leaf
  match page.leafLookup key with
  | some rid => return some rid
  | none =>
    let _ ← unpinPage leaf
    return none

end Search

/-! ### Inserting -/

/-- `IxIndexHandle::evenlyDistributePairs`: the new page and the original page afterwards. -/
def evenlyDistributePairs (newPage originPage : IxPage κ) : IxPage κ × IxPage κ :=
  let newKeyNum := originPage.numKey / 2
  let moved := originPage.numKey - newKeyNum
  ({ newPage with
      isLeaf := originPage.isLeaf
      numKey := moved
      parent := originPage.parent
      keys := fun i => if i < moved then originPage.keys (newKeyNum.toNat + i) else newPage.keys i
      rids := fun i => if i < moved then originPage.rids (newKeyNum.toNat + i) else newPage.rids i },
    { originPage with numKey := newKeyNum })

/-- `IxIndexHandle::insertLeaf`. -/
def insertLeaf (originNode newNode : Int) (keep : Bool) : IxM κ Unit := do
  let origin ← node originNode
  let page ← node newNode
  setNode newNode { page with nextLeaf := origin.nextLeaf }
  if keep then
    let page ← node newNode
    setNode newNode { page with prevLeaf := originNode }
    let origin ← node originNode
    setNode originNode { origin with nextLeaf := newNode }
  let page ← node newNode
  if page.nextLeaf ≠ invalidPageId then
    let nextNode ← fetchNode page.nextLeaf
    let next ← node nextNode
    setNode nextNode { next with prevLeaf := newNode }
    let _ ← unpinPage nextNode

/-- `IxIndexHandle::updateLastLeaf`. -/
def updateLastLeaf (originNode newNode : Int) : IxM κ Unit := do
  let s ← get
  if originNode = s.fileHdr.lastLeaf then setLastLeaf newNode

/-- `IxIndexHandle::Split`. -/
def split [Inhabited κ] (pageNo : Int) : IxM κ Int := do
  let newNode ← createNode
  let newPage ← node newNode
  let page ← node pageNo
  let (newPage, page) := evenlyDistributePairs newPage page
  setNode newNode newPage
  setNode pageNo page
  if newPage.isLeaf then insertLeaf pageNo newNode true
  else maintainChildren newNode newPage.numKey.toNat 0
  return newNode

/-- `IxIndexHandle::setNewRoot`. -/
def setNewRoot (root left right : Int) : IxM κ Unit := do
  let page ← node root
  setNode root { page with isLeaf := false, numKey := 2, parent := invalidPageId }
  updateRootPageNo root
  let leftPage ← node left
  let rightPage ← node right
  let page ← node root
  setNode root
    ((((page.setKey 0 (leftPage.keys 0)).setRid 0 ⟨left, -1⟩).setKey 1 (rightPage.keys 0)).setRid 1
      ⟨right, -1⟩)
  maintainChildren root 2 0
  let _ ← unpinPage root

section Insert

variable [IxKey κ] [Inhabited κ]

/-- `IxIndexHandle::InsertIntoParent`; the last argument is the recursive `splitNodeIfFull`. -/
def insertIntoParent (oldNode : Int) (key : κ) (newNode : Int) (splitNodeIfFull : Int → IxM κ Unit) :
    IxM κ Unit := do
  let old ← node oldNode
  if old.parent = invalidPageId then
    let newRoot ← createNode
    setNewRoot newRoot oldNode newNode
  else
    let parent ← fetchNode old.parent
    let page ← node parent
    setNode parent (page.insert key ⟨newNode, -1⟩)
    splitNodeIfFull parent
    let _ ← unpinPage parent

/-- `IxIndexHandle::splitNodeIfFull`. -/
def splitNodeIfFull : Nat → Int → IxM κ Unit
  | 0, _ => throw .outOfFuel
  | fuel + 1, pageNo => do
    let s ← get
    let page ← node pageNo
    if page.isFull s.fileHdr then
      let newNode ← split pageNo
      let newPage ← node newNode
      insertIntoParent pageNo (newPage.keys 0) newNode (splitNodeIfFull fuel)
      let page ← node pageNo
      if page.isLeaf then
        updateLastLeaf pageNo newNode
        let _ ← unpinPage pageNo
        let _ ← unpinPage newNode

/-- `IxIndexHandle::insert_entry`. -/
def insertEntry (fuel : Nat) (key : κ) (value : Rid) : IxM κ Bool := do
  let leaf ← findLeafPage fuel key
  let page ← node leaf
  let inserted := page.insert key value
  setNode leaf inserted
  if inserted.numKey > page.numKey then
    splitNodeIfFull fuel leaf
    return true
  else return false

end Insert

/-! ### Deleting -/

/-- `assert(buffer_pool_manager_->UnpinPage(..))`. -/
def assertUnpinPage (pageNo : Int) : IxM κ Unit := do
  let ok ← unpinPage pageNo
  if ok then return () else throw .assertionFailure

/-- `IxIndexHandle::maintain_parent`. -/
def maintainParent [DecidableEq κ] : Nat → Int → IxM κ Unit
  | 0, _ => throw .outOfFuel
  | fuel + 1, curr => do
    let page ← node curr
    if page.parent ≠ ixNoPage then
      let parent ← fetchNode page.parent
      let parentPage ← node parent
      match parentPage.findChild curr with
      | none => throw .assertionFailure
      | some rank =>
        if parentPage.keys rank.toNat = page.keys 0 then assertUnpinPage parent
        else
          setNode parent (parentPage.setKey rank (page.keys 0))
          assertUnpinPage parent
          maintainParent fuel parent

/-- `IxIndexHandle::erase_leaf`. -/
def eraseLeaf (leaf : Int) : IxM κ Unit := do
  let page ← node leaf
  if page.isLeaf then
    let prev ← fetchNode page.prevLeaf
    let prevPage ← node prev
    setNode prev { prevPage with nextLeaf := page.nextLeaf }
    let _ ← unpinPage prev
    let page ← node leaf
    let next ← fetchNode page.nextLeaf
    let nextPage ← node next
    setNode next { nextPage with prevLeaf := page.prevLeaf }
    let _ ← unpinPage next
  else throw .assertionFailure

/-- `IxIndexHandle::AdjustRoot`. -/
def adjustRoot (oldRoot : Int) : IxM κ Bool := do
  let page ← node oldRoot
  if page.isLeaf then
    if page.numKey = 0 then
      releaseNodeHandle
      updateRootPageNo invalidPageId
      return true
    else return false
  else if page.numKey = 1 then
    let newRoot ← fetchNode (page.valueAt 0)
    let newPage ← node newRoot
    setNode newRoot { newPage with parent := invalidPageId }
    updateRootPageNo newRoot
    releaseNodeHandle
    let _ ← unpinPage newRoot
    return true
  else return false

section Delete

variable [IxKey κ] [DecidableEq κ]

/-- `IxIndexHandle::Redistribute`. -/
def redistribute (fuel : Nat) (neighbor pageNo : Int) (index : Int) : IxM κ Unit := do
  let nb ← node neighbor
  let page ← node pageNo
  if index ≠ 0 then
    let pos := nb.numKey - 1
    setNode pageNo (page.insertPair 0 (nb.keys pos.toNat) (nb.rids pos.toNat))
    setNode neighbor (nb.erasePair pos)
    maintainChild pageNo 0
    maintainParent fuel pageNo
  else
    let page := page.insertPair page.numKey (nb.keys 0) (nb.rids 0)
    setNode pageNo page
    setNode neighbor (nb.erasePair 0)
    maintainChild pageNo (page.numKey - 1)
    maintainParent fuel neighbor

/-- `IxIndexHandle::Coalesce`; the last argument is the recursive `CoalesceOrRedistribute`.  The
nodes are swapped in place, so that the neighbour is the left one for the caller as well. -/
def coalesce (neighbor pageNo parent index : Int) (coalesceOrRedistribute : Int → IxM κ Bool) :
    IxM κ (Int × Bool) := do
  let (neighbor, pageNo, index) :=
    if index = 0 then (pageNo, neighbor, index + 1) else (neighbor, pageNo, index)
  let nb ← node neighbor
  let page ← node pageNo
  setNode neighbor (nb.insertPairs nb.numKey page.keys page.rids page.numKey)
  maintainChildren neighbor page.numKey.toNat nb.numKey
  let s ← get
  if pageNo = s.fileHdr.lastLeaf then setLastLeaf neighbor
  eraseLeaf pageNo
  releaseNodeHandle
  let parentPage ← node parent
  setNode parent (parentPage.erasePair index)
  let r ← coalesceOrRedistribute parent
  return (neighbor, r)

/-- `IxIndexHandle::CoalesceOrRedistribute`. -/
def coalesceOrRedistribute : Nat → Int → IxM κ Bool
  | 0, _ => throw .outOfFuel
  | fuel + 1, pageNo => do
    let s ← get
    let page ← node pageNo
    if page.parent = invalidPageId then adjustRoot pageNo
    else if page.numKey ≥ s.fileHdr.getMinSize then
      maintainParent (fuel + 1) pageNo
      return false
    else
      let parent ← fetchNode page.parent
      let parentPage ← node parent
      match parentPage.findChild pageNo with
      | none => throw .assertionFailure
      | some pos =>
        let brother ← fetchNode (if pos ≠ 0 then page.prevLeaf else page.nextLeaf)
        let brotherPage ← node brother
        if page.numKey + brotherPage.numKey ≥ s.fileHdr.getMinSize * 2 then
          redistribute (fuel + 1) brother pageNo pos
          let _ ← unpinPage parent
          let _ ← unpinPage brother
          return false
        else
          let (brother, _) ← coalesce brother pageNo parent pos (coalesceOrRedistribute fuel)
          let _ ← unpinPage parent
          let _ ← unpinPage brother
          return true

/-- `IxIndexHandle::delete_entry`. -/
def deleteEntry (fuel : Nat) (key : κ) : IxM κ Bool := do
  let leaf ← findLeafPage fuel key
  let page ← node leaf
  let removed := page.remove key
  setNode leaf removed
  if removed.numKey = page.numKey then
    let _ ← unpinPage leaf
    return false
  else
    let _ ← coalesceOrRedistribute fuel leaf
    let _ ← unpinPage leaf
    return true

end Delete

/-! ### Opening and closing -/

/-- `IxManager::close_index` and `IxManager::open_index`, where `open` returns `fd`: the header and
the pages go to disk, the pool keeps its pages, and the counter of `fd` goes up by one. -/
def reopen (fd : Int) : IxM κ Unit :=
  modify fun s =>
    { fd
      fileHdr := s.fileHdr
      diskHdr := s.fileHdr
      store := (s.store.flushAllPages s.fd).setFd2pageno fd (s.store.fd2pageno fd + 1) }

/-- `IxManager::close_index`, and `IxManager::open_index` in a new process: the pool is empty and all
counters are zero. -/
def restart (fd : Int) : IxM κ Unit :=
  modify fun s =>
    { fd
      fileHdr := s.fileHdr
      diskHdr := s.fileHdr
      store := PageStore.setFd2pageno
        { pool := fun _ => none
          pinCount := fun _ => 0
          disk := (s.store.flushAllPages s.fd).disk
          fd2pageno := fun _ => 0 } fd 1 }

end IxIndexHandle

/-- An index that `IxManager::create_index` has created and `IxManager::open_index` has opened under
the same descriptor: the leaf header (page 1) and the empty root (page 2) are on disk.  Their slots
hold what the uninitialised buffer held. -/
def IxIndex.create {κ : Type} (fd : Int) (colType : ColType) (colLen btreeOrder : Int)
    (keys : Nat → κ) (rids : Nat → Rid) (pool : PageId → Option (IxPage κ))
    (pinCount : PageId → Nat) (fd2pageno : Int → Int) : IxIndex κ :=
  let hdr := { IxFileHdr.init colType colLen with
    btreeOrder, keysSize := (btreeOrder + 1) * colLen }
  let leaf (link : Int) : IxPage κ :=
    { parent := ixNoPage, numKey := 0, isLeaf := true, prevLeaf := link, nextLeaf := link
      keys, rids }
  { fd
    fileHdr := hdr
    diskHdr := hdr
    store :=
      { pool, pinCount
        disk := fun pageNo =>
          if pageNo = ixLeafHeaderPage then some (leaf ixInitRootPage)
          else if pageNo = ixInitRootPage then some (leaf ixLeafHeaderPage)
          else none
        fd2pageno := Function.update fd2pageno fd (ixInitNumPages - 1 + 1) } }

end Rucbase
