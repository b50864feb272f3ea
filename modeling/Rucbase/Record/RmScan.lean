import Rucbase.Record.RmFileHandle

/-!
# Scanning a record file

`RmScan` (`record/rm_scan.cpp`).  The state of a scan is `rid_`, which the constructor sets to the
first record; when there is none it leaves `rid_` uninitialised (`rid₀` below).
-/

namespace Rucbase.RmScan

open RmFileHandle

variable {n : Nat}

/-- The macro `isStored`. -/
def isStored (bm : Nat → UInt8) (byteN bitN : Nat) : Bool :=
  (bm byteN >>> UInt8.ofNat (7 - bitN)) &&& 1 != 0

/-- The macro `isStored` on a `char`, which is shifted as a promoted one. -/
def isStoredChar (signed : Bool) (bm : Nat → BitVec 8) (byteN bitN : Nat) : Bool :=
  (Promote.promote signed 32 (bm byteN)).sshiftRight (7 - bitN) &&& 1#32 != 0#32

/-- The two inner loops of the constructor: the first bit that is set, byte by byte. -/
def firstStored (bm : Nat → UInt8) (bitmapSize : Int) : Option Int :=
  (List.range bitmapSize.toNat).findSome? fun byteN =>
    (List.range 8).findSome? fun bitN =>
      if isStored bm byteN bitN then some (byteN * 8 + bitN) else none

/-- The loop over the pages of the constructor, with `k` pages left. -/
def newFrom (rid₀ : Rid) : Nat → Int → RmM n Rid
  | 0, _ => return rid₀
  | k + 1, pageNo => do
    let page ← fetchPageHandle pageNo
    let f ← get
    match firstStored page.bitmap f.fileHdr.bitmapSize with
    | some slotNo => return ⟨pageNo, slotNo⟩
    | none => newFrom rid₀ k (pageNo + 1)

/-- `RmScan::RmScan`. -/
def new (rid₀ : Rid) : RmM n Rid := do
  let f ← get
  newFrom rid₀ (f.fileHdr.numPages - rmFirstRecordPage).toNat rmFirstRecordPage

/-- The loop of `RmScan::next`, with `k` pages left. -/
def nextFrom : Nat → Int → Int → RmM n Rid
  | 0, _, _ => return ⟨-1, -1⟩
  | k + 1, pageNo, slotNo => do
    let page ← fetchPageHandle pageNo
    let f ← get
    let i := Bitmap.nextBit true page.bitmap f.fileHdr.numRecordsPerPage slotNo
    if i = f.fileHdr.numRecordsPerPage then nextFrom k (pageNo + 1) (-1)
    else return ⟨pageNo, i⟩

/-- `RmScan::next`. -/
def next (rid : Rid) : RmM n Rid := do
  let f ← get
  nextFrom (f.fileHdr.numPages - rid.pageNo).toNat rid.pageNo rid.slotNo

/-- `RmScan::is_end`. -/
def isEnd (rid : Rid) : Bool := rid.pageNo = rmNoPage

/-- A client's loop `for (; !scan.is_end(); scan.next())`, collecting `scan.rid()`; `none` when the
scan has not ended after `fuel` rounds. -/
def collect : Nat → Rid → RmM n (Option (List Rid))
  | 0, _ => return none
  | fuel + 1, rid =>
    if isEnd rid then return some []
    else do
      let rid' ← next rid
      let rest ← collect fuel rid'
      return rest.map (rid :: ·)

/-- A scan from construction to the end. -/
def run (rid₀ : Rid) (fuel : Nat) : RmM n (Option (List Rid)) := do
  let rid ← new rid₀
  collect fuel rid

end Rucbase.RmScan
