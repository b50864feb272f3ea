import Rucbase.Replacer.LruReplacer
import Rucbase.Storage.DiskManager

/-!
# The buffer pool

`BufferPoolManager` (`storage/buffer_pool_manager.cpp`).  The pool is generic in the device that
stores the pages (`PageDevice`), of which `DiskManager` is the instance the program uses: nothing
in the pool looks behind `write_page`, `read_page` and `AllocatePage`.

The operations run in `PoolM`, state with exceptions: a `UnixError` thrown half way leaves the
changes made so far.  The pool's latch serialises the calls, so a call is one step.  A `Page *` is
the number of its frame, and a null pointer is `none`.
-/

namespace Rucbase

/-- What the buffer pool asks of the disk.  The flag of a read or write is `false` when the call
throws `UnixError`; a failed read may have changed the buffer. -/
class PageDevice (D : Type) where
  writePage : D → PageId → PageData → Bool × D
  readPage : D → PageId → PageData → Bool × PageData × D
  allocatePage : D → Int → Int × D

instance : PageDevice DiskManager where
  writePage dm pageId data := dm.writePage pageId.fd pageId.pageNo data
  readPage dm pageId buf := dm.readPage pageId.fd pageId.pageNo buf
  allocatePage dm fd := dm.allocatePage fd

/-- `Page`: a frame of the pool. -/
structure Page where
  id : PageId
  data : PageData
  isDirty : Bool
  pinCount : Nat

structure BufferPoolManager (D : Type) where
  poolSize : Nat
  /-- `pages_[0 .. pool_size_)`. -/
  pages : Nat → Page
  pageTable : PageId → Option Nat
  freeList : List Nat
  replacer : LruReplacer Nat
  diskManager : D

/-- A pool operation: it may throw, and changes made before the throw stay. -/
abbrev PoolM (D : Type) := EStateM RedBaseError (BufferPoolManager D)

/-- `std::unordered_map::insert`: an entry that is there already wins. -/
def tableInsert (t : PageId → Option Nat) (pageId : PageId) (frameId : Nat) :
    PageId → Option Nat :=
  match t pageId with
  | some _ => t
  | none => Function.update t pageId (some frameId)

namespace BufferPoolManager

variable {D : Type}

/-- `BufferPoolManager::BufferPoolManager`.  `Page::id_` leaves the descriptor of an unused frame
uninitialised; `fd₀` gives the values found there. -/
def new (poolSize : Nat) (fd₀ : Nat → Int) (d : D) : BufferPoolManager D where
  poolSize
  pages f := ⟨⟨fd₀ f, invalidPageId⟩, zeroPage, false, 0⟩
  pageTable _ := none
  freeList := List.range poolSize
  replacer := .new
  diskManager := d

/-- Change one frame. -/
def setPage (b : BufferPoolManager D) (frameId : Nat) (page : Page) : BufferPoolManager D :=
  { b with pages := Function.update b.pages frameId page }

variable [PageDevice D]

/-- `disk_manager_->write_page`. -/
def writePage (pageId : PageId) (data : PageData) : PoolM D Unit := do
  let b ← get
  let (ok, d) := PageDevice.writePage b.diskManager pageId data
  set { b with diskManager := d }
  if !ok then throw .unixError

/-- `disk_manager_->read_page` into a frame. -/
def readPage (pageId : PageId) (frameId : Nat) : PoolM D Unit := do
  let b ← get
  let page := b.pages frameId
  let (ok, data, d) := PageDevice.readPage b.diskManager pageId page.data
  set { b.setPage frameId { page with data } with diskManager := d }
  if !ok then throw .unixError

/-- `BufferPoolManager::FindVictimPage`: a free frame, else the replacer's victim, whose page
leaves the page table. -/
def findVictimPage : PoolM D (Option Nat) := do
  let b ← get
  match b.freeList with
  | [] =>
    match b.replacer.victim with
    | (some frameId, replacer) =>
      set { b with
        replacer
        pageTable := Function.update b.pageTable (b.pages frameId).id none }
      return some frameId
    | (none, _) => return none
  | frameId :: rest =>
    set { b with freeList := rest }
    return some frameId

/-- `BufferPoolManager::UpdatePage`: write a dirty page back and give the frame to `newPageId`. -/
def updatePage (frameId : Nat) (newPageId : PageId) : PoolM D Unit := do
  let b ← get
  let page := b.pages frameId
  if page.isDirty then
    set (b.setPage frameId { page with isDirty := false })
    writePage page.id page.data
  let b ← get
  let table := Function.update b.pageTable page.id none
  set { b with pageTable :=
    if newPageId.pageNo ≠ invalidPageId then tableInsert table newPageId frameId else table }
  let b ← get
  set (b.setPage frameId { b.pages frameId with data := zeroPage, id := newPageId })

/-- `BufferPoolManager::FetchPage`. -/
def fetchPage (pageId : PageId) : PoolM D (Option Nat) := do
  let b ← get
  match b.pageTable pageId with
  | some frameId =>
    let page := b.pages frameId
    set { b.setPage frameId { page with pinCount := page.pinCount + 1 } with
      replacer := b.replacer.pin frameId }
    return some frameId
  | none =>
    match ← findVictimPage with
    | none => return none
    | some target =>
      let b ← get
      let page := b.pages target
      -- a clean victim only gets its new id; the page table follows after the read
      if page.isDirty then updatePage target pageId
      else set (b.setPage target { page with id := pageId })
      readPage pageId target
      let b ← get
      let page := b.pages target
      set { b.setPage target { page with pinCount := page.pinCount + 1 } with
        pageTable := tableInsert b.pageTable pageId target
        replacer := b.replacer.pin target }
      return some target

/-- `BufferPoolManager::UnpinPage`. -/
def unpinPage (pageId : PageId) (isDirty : Bool) : PoolM D Bool := do
  let b ← get
  match b.pageTable pageId with
  | none => return false
  | some frameId =>
    let page := b.pages frameId
    if page.pinCount = 0 then return false
    else
      set { b.setPage frameId
              { page with pinCount := page.pinCount - 1, isDirty := page.isDirty || isDirty } with
            replacer :=
              if page.pinCount - 1 = 0 then b.replacer.unpin frameId else b.replacer }
      return true

/-- `BufferPoolManager::FlushPage`. -/
def flushPage (pageId : PageId) : PoolM D Bool := do
  let b ← get
  match b.pageTable pageId with
  | none => return false
  | some frameId =>
    let page := b.pages frameId
    writePage page.id page.data
    let b ← get
    set (b.setPage frameId { b.pages frameId with isDirty := false })
    return true

/-- `BufferPoolManager::NewPage` for the file open under `fd`: the frame and the id it got. -/
def newPage (fd : Int) : PoolM D (Option (Nat × PageId)) := do
  match ← findVictimPage with
  | none => return none
  | some frameId =>
    let b ← get
    let (pageNo, d) := PageDevice.allocatePage b.diskManager fd
    set { b with diskManager := d }
    let pageId : PageId := ⟨fd, pageNo⟩
    updatePage frameId pageId
    let b ← get
    set { b.setPage frameId { b.pages frameId with pinCount := 1 } with
      replacer := b.replacer.pin frameId }
    return some (frameId, pageId)

/-- `BufferPoolManager::DeletePage`; `DeallocatePage` does nothing. -/
def deletePage (pageId : PageId) : PoolM D Bool := do
  let b ← get
  match b.pageTable pageId with
  | none => return true
  | some frameId =>
    let page := b.pages frameId
    if 0 < page.pinCount then return false
    else
      set { b.setPage frameId { page with data := zeroPage } with
        pageTable := Function.update b.pageTable pageId none
        freeList := b.freeList ++ [frameId] }
      return true

/-- One round of the loop of `FlushAllPages`. -/
def flushFrame (fd : Int) (i : Nat) : PoolM D Unit := do
  let b ← get
  let page := b.pages i
  if page.id.fd = fd ∧ page.id.pageNo ≠ invalidPageId then
    writePage page.id page.data
    let b ← get
    set (b.setPage i { b.pages i with isDirty := false })

/-- `BufferPoolManager::FlushAllPages`. -/
def flushAllPages (fd : Int) : PoolM D Unit := do
  let b ← get
  (List.range b.poolSize).forM (flushFrame fd)

end BufferPoolManager

end Rucbase
