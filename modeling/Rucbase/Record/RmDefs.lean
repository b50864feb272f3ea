import Rucbase.Common

/-!
# Record files: constants and headers

The constants and the file header of `record/rm_defs.h`.
-/

namespace Rucbase

/-- `RM_NO_PAGE`. -/
abbrev rmNoPage : Int := -1

/-- `RM_FILE_HDR_PAGE`. -/
abbrev rmFileHdrPage : Int := 0

/-- `RM_FIRST_RECORD_PAGE`. -/
abbrev rmFirstRecordPage : Int := 1

/-- `RM_MAX_RECORD_SIZE`. -/
abbrev rmMaxRecordSize : Int := 512

/-- `BITMAP_WIDTH`. -/
abbrev bitmapWidth : Int := 8

/-- `RmFileHdr`, the header in page 0 of a record file. -/
structure RmFileHdr where
  recordSize : Int
  numPages : Int
  numRecordsPerPage : Int
  firstFreePageNo : Int
  bitmapSize : Int
deriving DecidableEq, Repr

namespace RmFileHdr

/-- `sizeof(RmFileHdr)`. -/
abbrev size : Nat := 20

/-- The header as it stands in memory and on disk. -/
def toBytes (hdr : RmFileHdr) : Fin size → UInt8 :=
  structBytes size
    [hdr.recordSize, hdr.numPages, hdr.numRecordsPerPage, hdr.firstFreePageNo, hdr.bitmapSize]

/-- The header that the bytes hold. -/
def ofBytes (b : Fin size → UInt8) : RmFileHdr where
  recordSize := structField b 0
  numPages := structField b 1
  numRecordsPerPage := structField b 2
  firstFreePageNo := structField b 3
  bitmapSize := structField b 4

/-- The header `RmManager::create_file` writes: `num_records_per_page` is the largest count for
which header, bitmap and slots fit in a page. -/
def init (recordSize : Int) : RmFileHdr :=
  let numRecordsPerPage :=
    (bitmapWidth * (pageSize - 1 - size) + 1) / (1 + recordSize * bitmapWidth)
  { recordSize
    numPages := 1
    firstFreePageNo := rmNoPage
    numRecordsPerPage
    bitmapSize := (numRecordsPerPage + bitmapWidth - 1) / bitmapWidth }

end RmFileHdr

/-- `RmFileHandle`: an open record file and its header in memory. -/
structure RmFileHandle where
  fd : Int
  fileHdr : RmFileHdr
deriving DecidableEq

end Rucbase
