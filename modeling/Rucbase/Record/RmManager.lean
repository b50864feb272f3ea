import Rucbase.Record.RmDefs
import Rucbase.Storage.ManagerM

/-!
# The record manager

`RmManager` (`record/rm_manager.h`): creating, opening, closing and destroying record files.  The
functions that open a file take the descriptor the operating system chose as an argument.
-/

namespace Rucbase.RmManager

open ManagerM

/-- `RmManager::create_file`; `fd₀` and `fd` are the descriptors that `open` returned to
`DiskManager::create_file` and `DiskManager::open_file`. -/
def createFile (fd₀ fd : Int) (filename : String) (recordSize : Int) : ManagerM Unit := do
  if recordSize < 1 ∨ recordSize > rmMaxRecordSize then
    throw (.invalidRecordSizeError recordSize)
  onDisk (·.createFile fd₀ filename)
  onDisk (·.openFile fd filename)
  -- the header goes to disk directly, not through the pool
  writePage fd rmFileHdrPage (RmFileHdr.init recordSize).toBytes
  modifyDisk (·.closeFile fd)

/-- `RmManager::destroy_file`; `rc` is what `unlink` returned. -/
def destroyFile (rc : Int) (filename : String) : ManagerM Unit := onDisk (·.destroyFile rc filename)

/-- `RmFileHandle::RmFileHandle`: read the header and continue numbering pages after the last;
`buf` is what the uninitialised `file_hdr_` held. -/
def newHandle (fd : Int) (buf : Fin RmFileHdr.size → UInt8) : ManagerM RmFileHandle := do
  let bytes ← readPage fd rmFileHdrPage buf
  let fileHdr := RmFileHdr.ofBytes bytes
  modifyDisk (·.setFd2pageno fd fileHdr.numPages)
  return { fd, fileHdr }

/-- `RmManager::open_file`. -/
def openFile (fd : Int) (buf : Fin RmFileHdr.size → UInt8) (filename : String) :
    ManagerM RmFileHandle := do
  onDisk (·.openFile fd filename)
  newHandle fd buf

/-- `RmManager::close_file`: header, then every page of the pool, then the file. -/
def closeFile (fileHandle : RmFileHandle) : ManagerM Unit := do
  writePage fileHandle.fd rmFileHdrPage fileHandle.fileHdr.toBytes
  BufferPoolManager.flushAllPages fileHandle.fd
  modifyDisk (·.closeFile fileHandle.fd)

end Rucbase.RmManager
