import Rucbase.Common

/-!
# The pages of one file, as its handle sees them

What `RmFileHandle` and `IxIndexHandle` see of a buffer pool that never runs out of frames: the
pages in the pool with their pin counts, the pages of the file on disk, and the page counters of
the disk manager.  Pages have the type `P` that the handle's module reads them as.  The dirty flags
are left out: without evictions only `FlushAllPages` writes, and it writes every page of the file.
Its disk calls succeed and hit the page they name, as those of `DiskManager` do for page numbers
below `2 ^ 19` of an open file.  `Equiv/HandleView` compares it with the pool.

The pool outlives the handle, so pages are keyed by descriptor and page number here as well.
-/

namespace Rucbase

structure PageStore (P : Type) where
  /-- The pages in the pool. -/
  pool : PageId → Option P
  pinCount : PageId → Nat
  /-- The pages of the file on disk. -/
  disk : Int → Option P
  /-- `DiskManager::fd2pageno_`. -/
  fd2pageno : Int → Int

namespace PageStore

variable {P : Type}

/-- What a fetch of the page would return. -/
def view (s : PageStore P) (p : PageId) : Option P :=
  match s.pool p with
  | some x => some x
  | none => s.disk p.pageNo

/-- `BufferPoolManager::FetchPage`; `none` when the page has to be read and is not on disk. -/
def fetchPage (s : PageStore P) (p : PageId) : Option (P × PageStore P) :=
  (s.view p).map fun x =>
    (x, { s with
      pool := Function.update s.pool p (some x)
      pinCount := Function.update s.pinCount p
        (match s.pool p with
          | some _ => s.pinCount p + 1
          | none => 1) })

/-- Write through a handle. -/
def setPage (s : PageStore P) (p : PageId) (x : P) : PageStore P :=
  { s with pool := Function.update s.pool p (some x) }

/-- `BufferPoolManager::NewPage`: a zeroed page under the next number of the descriptor, for the
case that the pool holds no page under that number. -/
def newPage (s : PageStore P) (zero : P) (fd : Int) : PageStore P :=
  { s with
    pool := Function.update s.pool ⟨fd, s.fd2pageno fd⟩ (some zero)
    pinCount := Function.update s.pinCount ⟨fd, s.fd2pageno fd⟩ 1
    fd2pageno := Function.update s.fd2pageno fd (s.fd2pageno fd + 1) }

/-- `BufferPoolManager::UnpinPage`. -/
def unpinPage (s : PageStore P) (p : PageId) : Bool × PageStore P :=
  match s.pool p with
  | none => (false, s)
  | some _ =>
    if s.pinCount p = 0 then (false, s)
    else (true, { s with pinCount := Function.update s.pinCount p (s.pinCount p - 1) })

/-- `BufferPoolManager::FlushAllPages`. -/
def flushAllPages (s : PageStore P) (fd : Int) : PageStore P :=
  { s with disk := fun n =>
      match s.pool ⟨fd, n⟩ with
      | some x => if n = invalidPageId then s.disk n else some x
      | none => s.disk n }

/-- `DiskManager::set_fd2pageno`. -/
def setFd2pageno (s : PageStore P) (fd n : Int) : PageStore P :=
  { s with fd2pageno := Function.update s.fd2pageno fd n }

end PageStore

end Rucbase
