import Rucbase.Common

/-!
# Index files: constants and headers

The constants and the headers of `index/ix_defs.h`.
-/

namespace Rucbase

/-- `IX_NO_PAGE`. -/
abbrev ixNoPage : Int := -1

/-- `IX_FILE_HDR_PAGE`. -/
abbrev ixFileHdrPage : Int := 0

/-- `IX_LEAF_HEADER_PAGE`. -/
abbrev ixLeafHeaderPage : Int := 1

/-- `IX_INIT_ROOT_PAGE`. -/
abbrev ixInitRootPage : Int := 2

/-- `IX_INIT_NUM_PAGES`. -/
abbrev ixInitNumPages : Int := 3

/-- `IX_MAX_COL_LEN`. -/
abbrev ixMaxColLen : Int := 512

/-- `ColType`; the order of the constructors is their value. -/
inductive ColType where
  | int
  | float
  | string
deriving DecidableEq, Repr

/-- The value of the enumerator. -/
def ColType.toInt : ColType → Int
  | .int => 0
  | .float => 1
  | .string => 2

/-- The enumerator with a value. -/
def ColType.ofInt (n : Int) : ColType :=
  if n = 0 then .int else if n = 1 then .float else .string

/-- `IxFileHdr`, the header in page 0 of an index file. -/
structure IxFileHdr where
  firstFreePageNo : Int
  numPages : Int
  rootPage : Int
  colType : ColType
  colLen : Int
  btreeOrder : Int
  keysSize : Int
  firstLeaf : Int
  lastLeaf : Int
deriving DecidableEq, Repr

/-- `sizeof(IxPageHdr)`. -/
abbrev ixPageHdrSize : Nat := 24

/-- `sizeof(Rid)`. -/
abbrev ridSize : Nat := 8

namespace IxFileHdr

/-- `sizeof(IxFileHdr)`. -/
abbrev size : Nat := 36

/-- The header as it stands in memory and on disk. -/
def toBytes (hdr : IxFileHdr) : Fin size → UInt8 :=
  structBytes size
    [hdr.firstFreePageNo, hdr.numPages, hdr.rootPage, hdr.colType.toInt, hdr.colLen, hdr.btreeOrder,
      hdr.keysSize, hdr.firstLeaf, hdr.lastLeaf]

/-- The header that the bytes hold. -/
def ofBytes (b : Fin size → UInt8) : IxFileHdr where
  firstFreePageNo := structField b 0
  numPages := structField b 1
  rootPage := structField b 2
  colType := .ofInt (structField b 3)
  colLen := structField b 4
  btreeOrder := structField b 5
  keysSize := structField b 6
  firstLeaf := structField b 7
  lastLeaf := structField b 8

/-- `btree_order` in `IxManager::create_index`: one slot is kept in reserve. -/
def orderOf (colLen : Int) : Int := (pageSize - ixPageHdrSize) / (colLen + ridSize) - 1

/-- The header `IxManager::create_index` writes. -/
def init (colType : ColType) (colLen : Int) : IxFileHdr where
  firstFreePageNo := ixNoPage
  numPages := ixInitNumPages
  rootPage := ixInitRootPage
  colType
  colLen
  btreeOrder := orderOf colLen
  keysSize := (orderOf colLen + 1) * colLen
  firstLeaf := ixInitRootPage
  lastLeaf := ixInitRootPage

end IxFileHdr

end Rucbase
