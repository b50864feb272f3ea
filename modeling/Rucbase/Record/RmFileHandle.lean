import Rucbase.Record.Bitmap
import Rucbase.Record.RmDefs
import Rucbase.Storage.PageStore

/-!
# Record files

`RmFileHandle` (`record/rm_file_handle.cpp`) over the pages of its file.  A record page is read as
its header, its bitmap and its slots.  Slots and bitmap bytes past the ends of their areas are
memory of their own here; in the source they overlap what follows in the page.
-/

namespace Rucbase

/-- A page of a record file as `RmPageHandle` reads it: `RmPageHdr`, bitmap and slots of `n`
bytes. -/
structure RmPage (n : Nat) where
  nextFreePageNo : Int
  numRecords : Int
  bitmap : Nat → UInt8
  slots : Nat → Fin n → UInt8

/-- A page as `NewPage` hands it out. -/
def RmPage.zero (n : Nat) : RmPage n := ⟨0, 0, fun _ => 0, fun _ _ => 0⟩

/-- A record file of `n`-byte records: the handle, and the pages behind it. -/
structure RmFile (n : Nat) where
  fd : Int
  fileHdr : RmFileHdr
  store : PageStore (RmPage n)
  /-- The header in page 0 on disk. -/
  diskHdr : RmFileHdr

/-- An operation of a record file. -/
abbrev RmM (n : Nat) := EStateM RedBaseError (RmFile n)

namespace RmFileHandle

variable {n : Nat}

/-- `RmFileHandle::fetch_page_handle`. -/
def fetchPageHandle (pageNo : Int) : RmM n (RmPage n) := do
  let f ← get
  match f.store.fetchPage ⟨f.fd, pageNo⟩ with
  | some (page, store) =>
    set { f with store }
    return page
  | none => throw .unixError

/-- Store a page through its handle. -/
def writePage (pageNo : Int) (page : RmPage n) : RmM n Unit :=
  modify fun f => { f with store := f.store.setPage ⟨f.fd, pageNo⟩ page }

/-- `RmFileHandle::create_new_page_handle`: the page header stays zeroed. -/
def createNewPageHandle : RmM n (Int × RmPage n) := do
  let f ← get
  let pageId : PageId := ⟨f.fd, f.store.fd2pageno f.fd⟩
  match f.store.pool pageId with
  | some _ => throw (.pageInUse pageId)
  | none =>
    set { f with
      store := f.store.newPage (.zero n) f.fd
      fileHdr := { f.fileHdr with numPages := f.fileHdr.numPages + 1 } }
    return (pageId.pageNo, .zero n)

/-- `RmFileHandle::create_page_handle`. -/
def createPageHandle : RmM n (Int × RmPage n) := do
  let f ← get
  let freeNo := f.fileHdr.firstFreePageNo
  if freeNo < 0 then createNewPageHandle
  else
    let page ← fetchPageHandle freeNo
    return (freeNo, page)

/-- `RmFileHandle::release_page_handle`: the page becomes the first free page. -/
def releasePageHandle (pageNo : Int) (page : RmPage n) : RmM n Unit := do
  let f ← get
  writePage pageNo { page with nextFreePageNo := f.fileHdr.firstFreePageNo }
  modify fun f => { f with fileHdr := { f.fileHdr with firstFreePageNo := pageNo } }

/-- `RmFileHandle::is_record`. -/
def isRecord (rid : Rid) : RmM n Bool := do
  let page ← fetchPageHandle rid.pageNo
  return Bitmap.isSet page.bitmap rid.slotNo.toNat

/-- `RmFileHandle::get_record`: the bytes of the slot, whether or not it holds a record. -/
def getRecord (rid : Rid) : RmM n (Fin n → UInt8) := do
  let page ← fetchPageHandle rid.pageNo
  return page.slots rid.slotNo.toNat

/-- `RmFileHandle::insert_record`. -/
def insertRecord (buf : Fin n → UInt8) : RmM n Rid := do
  let (pageNo, page) ← createPageHandle
  let f ← get
  let i := Bitmap.firstBit false page.bitmap f.fileHdr.numRecordsPerPage
  writePage pageNo
    { page with
      slots := Function.update page.slots i.toNat buf
      bitmap := Bitmap.set page.bitmap i.toNat
      numRecords := page.numRecords + 1 }
  if page.numRecords + 1 ≥ f.fileHdr.numRecordsPerPage then
    modify fun f =>
      { f with fileHdr := { f.fileHdr with firstFreePageNo := page.nextFreePageNo } }
  return ⟨pageNo, i⟩

/-- `RmFileHandle::delete_record`. -/
def deleteRecord (rid : Rid) : RmM n Unit := do
  let page ← fetchPageHandle rid.pageNo
  let page :=
    { page with
      bitmap := Bitmap.reset page.bitmap rid.slotNo.toNat
      numRecords := page.numRecords - 1 }
  writePage rid.pageNo page
  -- released when the page is empty, not when it stops being full
  if page.numRecords = 0 then releasePageHandle rid.pageNo page

/-- `RmFileHandle::update_record`. -/
def updateRecord (rid : Rid) (buf : Fin n → UInt8) : RmM n Unit := do
  let page ← fetchPageHandle rid.pageNo
  if Bitmap.isSet page.bitmap rid.slotNo.toNat then
    writePage rid.pageNo { page with slots := Function.update page.slots rid.slotNo.toNat buf }

/-- `RmFileHandle::insert_record(const Rid &, char *)`, the insert at a given rid that a rollback
calls. -/
def insertRecordAt (rid : Rid) (buf : Fin n → UInt8) : RmM n Unit := do
  let f ← get
  -- a page is created when the page of the rid does exist
  if rid.pageNo < f.fileHdr.numPages then
    let _ ← createNewPageHandle
  let page ← fetchPageHandle rid.pageNo
  let f ← get
  writePage rid.pageNo
    { page with
      bitmap := Bitmap.set page.bitmap rid.slotNo.toNat
      numRecords := page.numRecords + 1
      slots := Function.update page.slots rid.slotNo.toNat buf }
  if page.numRecords + 1 = f.fileHdr.numRecordsPerPage then
    modify fun f =>
      { f with fileHdr := { f.fileHdr with firstFreePageNo := page.nextFreePageNo } }
  modify fun f => { f with store := (f.store.unpinPage ⟨f.fd, rid.pageNo⟩).2 }

/-- `RmManager::close_file` and `RmManager::open_file`, where `open` returns `fd`: the header and
the pages go to disk, the pool keeps its pages, and numbering goes on after the last page. -/
def reopen (fd : Int) : RmM n Unit :=
  modify fun f =>
    { fd
      fileHdr := f.fileHdr
      diskHdr := f.fileHdr
      store := (f.store.flushAllPages f.fd).setFd2pageno fd f.fileHdr.numPages }

end RmFileHandle

/-- A file that `RmManager::create_file` has created and `RmManager::open_file` has opened, over a
pool that may hold pages under other descriptors. -/
def RmFile.create (n : Nat) (fd : Int) (pool : PageId → Option (RmPage n))
    (pinCount : PageId → Nat) (fd2pageno : Int → Int) : RmFile n where
  fd
  fileHdr := .init n
  diskHdr := .init n
  store :=
    { pool, pinCount
      disk := fun _ => none
      fd2pageno := Function.update fd2pageno fd (RmFileHdr.init n).numPages }

end Rucbase
