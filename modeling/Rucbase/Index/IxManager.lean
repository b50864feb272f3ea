import Rucbase.Index.IxDefs
import Rucbase.Storage.ManagerM

/-!
# The index manager

`IxManager` (`index/ix_manager.h`): creating, opening, closing and destroying index files, as far
as the bytes on disk go.  The functions that open a file take the descriptor the operating system
chose as an argument.
-/

namespace Rucbase.IxManager

open ManagerM

/-- `IxManager::get_index_name`. -/
def getIndexName (filename : String) (indexNo : Int) : String :=
  filename ++ "." ++ toString indexNo ++ ".idx"

/-- The header fields of a fresh leaf, written over a buffer: `is_leaf` is one byte, and the three
bytes after it stay as they were. -/
def leafPage (prevLeaf nextLeaf : Int) (buf : PageData) : PageData := fun i =>
  if i.val < 12 then intBytes ([ixNoPage, ixNoPage, 0].getD (i / 4) 0) (i % 4)
  else if i.val = 12 then 1
  else if i.val < 16 then buf i
  else if i.val < ixPageHdrSize then intBytes ([prevLeaf, nextLeaf].getD ((i - 16) / 4) 0) (i % 4)
  else buf i

/-- `IxManager::create_index`; `fd₀` and `fd` are the descriptors that `open` returned, `buf` what
the uninitialised `page_buf` held. -/
def createIndex (fd₀ fd : Int) (buf : PageData) (filename : String) (indexNo : Int)
    (colType : ColType) (colLen : Int) : ManagerM Unit := do
  let ixName := getIndexName filename indexNo
  if indexNo < 0 then throw .assertionFailure
  onDisk (·.createFile fd₀ ixName)
  onDisk (·.openFile fd ixName)
  -- this throw leaves the new file open
  if colLen > ixMaxColLen then throw (.invalidColLengthError colLen)
  if IxFileHdr.orderOf colLen ≤ 2 then throw .assertionFailure
  writePage fd ixFileHdrPage (IxFileHdr.init colType colLen).toBytes
  let leafHeader := leafPage ixInitRootPage ixInitRootPage buf
  writePage fd ixLeafHeaderPage leafHeader
  writePage fd ixInitRootPage (leafPage ixLeafHeaderPage ixLeafHeaderPage leafHeader)
  modifyDisk (·.setFd2pageno fd (ixInitNumPages - 1))
  modifyDisk (·.closeFile fd)

/-- `IxManager::destroy_index`; `rc` is what `unlink` returned. -/
def destroyIndex (rc : Int) (filename : String) (indexNo : Int) : ManagerM Unit :=
  onDisk (·.destroyFile rc (getIndexName filename indexNo))

/-- `IxIndexHandle::IxIndexHandle`: read the header and start numbering pages one after whatever
the counter of the descriptor holds. -/
def newHandle (fd : Int) (buf : Fin IxFileHdr.size → UInt8) : ManagerM (Int × IxFileHdr) := do
  let bytes ← readPage fd ixFileHdrPage buf
  modifyDisk fun dm => dm.setFd2pageno fd (dm.fd2pageno fd + 1)
  return (fd, .ofBytes bytes)

/-- `IxManager::open_index`: the descriptor and the header of the handle. -/
def openIndex (fd : Int) (buf : Fin IxFileHdr.size → UInt8) (filename : String) (indexNo : Int) :
    ManagerM (Int × IxFileHdr) := do
  onDisk (·.openFile fd (getIndexName filename indexNo))
  newHandle fd buf

/-- `IxManager::close_index`. -/
def closeIndex (fd : Int) (fileHdr : IxFileHdr) : ManagerM Unit := do
  writePage fd ixFileHdrPage fileHdr.toBytes
  BufferPoolManager.flushAllPages fd
  modifyDisk (·.closeFile fd)

end Rucbase.IxManager
