import Rucbase.Record.Bitmap
import Rucbase.Record.RmDefs
import Rucbase.Storage.BufferPoolManager

/-!
# Record files over the buffer pool

`RmPageHandle` and `RmFileHandle` (`record/rm_file_handle.h`, `record/rm_file_handle.cpp`) on the
bytes of the pages and on the pool's frames.  `RmFile` is the same code over pages that are always
at hand; here a page that is written is a frame of the pool, which has to be fetched, stays pinned
because no operation unpins it, and is never marked dirty.

A write past the end of a page is dropped; in the source it goes into the next frame.
-/

namespace Rucbase

namespace PageData

/-- The byte at an offset of a page. -/
def byteAt (d : PageData) (i : Nat) : UInt8 := if h : i < pageSize then d ⟨i, h⟩ else 0

/-- `memcpy(data + off, buf, n)`. -/
def memcpy (d : PageData) (off : Nat) (buf : Nat → UInt8) (n : Nat) : PageData :=
  fun i => if off ≤ i.val ∧ i.val < off + n then buf (i.val - off) else d i

/-- The `int` at an offset of a page. -/
def intAt (d : PageData) (off : Nat) : Int := bytesInt fun j => d.byteAt (off + j)

/-- Store an `int` at an offset of a page. -/
def setIntAt (d : PageData) (off : Nat) (x : Int) : PageData := d.memcpy off (intBytes x) 4

end PageData

/-! ### The parts of a record page -/

namespace RmPageHandle

/-- `Page::OFFSET_PAGE_HDR`, where `page_hdr` points. -/
abbrev pageHdrOffset : Nat := 4

/-- Where `bitmap` points: after the `RmPageHdr` of two `int`s. -/
abbrev bitmapOffset : Nat := pageHdrOffset + 8

/-- `page_hdr->next_free_page_no`. -/
def nextFreePageNo (d : PageData) : Int := d.intAt pageHdrOffset

def setNextFreePageNo (d : PageData) (x : Int) : PageData := d.setIntAt pageHdrOffset x

/-- `page_hdr->num_records`. -/
def numRecords (d : PageData) : Int := d.intAt (pageHdrOffset + 4)

def setNumRecords (d : PageData) (x : Int) : PageData := d.setIntAt (pageHdrOffset + 4) x

/-- `bitmap`, the bytes from its address on. -/
def bitmap (d : PageData) (k : Nat) : UInt8 := d.byteAt (bitmapOffset + k)

/-- The page after the byte of the bitmap that holds `pos` was changed. -/
def setBitmap (d : PageData) (pos : Nat) (bm : Nat → UInt8) : PageData :=
  d.memcpy (bitmapOffset + Bitmap.getBucket pos) (fun _ => bm (Bitmap.getBucket pos)) 1

/-- `RmPageHandle::get_slot`, as an offset into the page. -/
def getSlot (fileHdr : RmFileHdr) (slotNo : Int) : Nat :=
  (bitmapOffset + fileHdr.bitmapSize + slotNo * fileHdr.recordSize).toNat

end RmPageHandle

/-- A record file as it is open in a process: the handle, and the pool its pages are in. -/
structure PooledRmFile where
  handle : RmFileHandle
  bpm : BufferPoolManager DiskManager

/-- An operation on an open record file. -/
abbrev PooledRmM := EStateM RedBaseError PooledRmFile

namespace PooledRmFile

open RmPageHandle

/-- A call of the pool. -/
def onPool {α : Type} (x : PoolM DiskManager α) : PooledRmM α := fun s =>
  match x s.bpm with
  | .ok a b => .ok a { s with bpm := b }
  | .error e b => .error e { s with bpm := b }

/-- `page->GetData()`. -/
def getData (frameId : Nat) : PooledRmM PageData := return ((← get).bpm.pages frameId).data

/-- Write through the page's pointer: the bytes of the frame change and nothing else does. -/
def setData (frameId : Nat) (data : PageData) : PooledRmM Unit :=
  modify fun s =>
    { s with bpm := s.bpm.setPage frameId { s.bpm.pages frameId with data } }

/-- Assign to `file_hdr_`. -/
def modifyHdr (g : RmFileHdr → RmFileHdr) : PooledRmM Unit :=
  modify fun s => { s with handle := { s.handle with fileHdr := g s.handle.fileHdr } }

/-- `RmFileHandle::fetch_page_handle`: the frame of the page, pinned. -/
def fetchPageHandle (pageNo : Int) : PooledRmM Nat := do
  let s ← get
  match ← onPool (BufferPoolManager.fetchPage ⟨s.handle.fd, pageNo⟩) with
  | some frameId => return frameId
  | none => throw (.pageNotExistError "page_no Invalid" pageNo)

/-- `RmFileHandle::create_new_page_handle`.  The source dereferences the null pointer that
`NewPage` returns when there is no frame; the model stops there. -/
def createNewPageHandle : PooledRmM Nat := do
  let s ← get
  let page ← onPool (BufferPoolManager.newPage s.handle.fd)
  modifyHdr fun hdr => { hdr with numPages := hdr.numPages + 1 }
  match page with
  | some (frameId, _) => return frameId
  | none => throw .assertionFailure

/-- `RmFileHandle::create_page_handle`. -/
def createPageHandle : PooledRmM Nat := do
  let s ← get
  let freeNo := s.handle.fileHdr.firstFreePageNo
  if freeNo < 0 then createNewPageHandle else fetchPageHandle freeNo

/-- `RmFileHandle::release_page_handle`. -/
def releasePageHandle (frameId : Nat) : PooledRmM Unit := do
  let s ← get
  let d ← getData frameId
  setData frameId (setNextFreePageNo d s.handle.fileHdr.firstFreePageNo)
  modifyHdr fun hdr => { hdr with firstFreePageNo := (s.bpm.pages frameId).id.pageNo }

/-- `RmFileHandle::is_record`. -/
def isRecord (rid : Rid) : PooledRmM Bool := do
  let frameId ← fetchPageHandle rid.pageNo
  let d ← getData frameId
  return Bitmap.isSet (bitmap d) rid.slotNo.toNat

/-- `RmFileHandle::get_record`: a copy of the bytes of the slot. -/
def getRecord (rid : Rid) : PooledRmM (List UInt8) := do
  let frameId ← fetchPageHandle rid.pageNo
  let d ← getData frameId
  let s ← get
  let slot := getSlot s.handle.fileHdr rid.slotNo
  return (List.range s.handle.fileHdr.recordSize.toNat).map fun j => d.byteAt (slot + j)

/-- `RmFileHandle::insert_record`; `buf` is the memory from the caller's pointer on. -/
def insertRecord (buf : Nat → UInt8) : PooledRmM Rid := do
  let frameId ← createPageHandle
  let s ← get
  let hdr := s.handle.fileHdr
  let d ← getData frameId
  let i := Bitmap.firstBit false (bitmap d) hdr.numRecordsPerPage
  let d := d.memcpy (getSlot hdr i) buf hdr.recordSize.toNat
  let d := setBitmap d i.toNat (Bitmap.set (bitmap d) i.toNat)
  let d := setNumRecords d (numRecords d + 1)
  setData frameId d
  if numRecords d ≥ hdr.numRecordsPerPage then
    modifyHdr fun hdr => { hdr with firstFreePageNo := nextFreePageNo d }
  return ⟨(s.bpm.pages frameId).id.pageNo, i⟩

/-- `RmFileHandle::delete_record`. -/
def deleteRecord (rid : Rid) : PooledRmM Unit := do
  let frameId ← fetchPageHandle rid.pageNo
  let d ← getData frameId
  let d := setBitmap d rid.slotNo.toNat (Bitmap.reset (bitmap d) rid.slotNo.toNat)
  let d := setNumRecords d (numRecords d - 1)
  setData frameId d
  if numRecords d = 0 then releasePageHandle frameId

/-- `RmFileHandle::update_record`. -/
def updateRecord (rid : Rid) (buf : Nat → UInt8) : PooledRmM Unit := do
  let frameId ← fetchPageHandle rid.pageNo
  let d ← getData frameId
  if Bitmap.isSet (bitmap d) rid.slotNo.toNat then
    let s ← get
    let hdr := s.handle.fileHdr
    setData frameId (d.memcpy (getSlot hdr rid.slotNo) buf hdr.recordSize.toNat)

end PooledRmFile

end Rucbase
