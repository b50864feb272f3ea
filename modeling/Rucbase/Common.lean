import Mathlib.Algebra.Group.Int.Defs
import Mathlib.Algebra.Group.Nat.Defs
import Mathlib.Logic.Function.Basic
import Mathlib.Tactic.Common

/-!
# Shared types and constants

The identifiers every layer passes around: `PageId` (`storage/page.h`), `Rid` (`defs.h`), the raw
bytes of a page, the constants of `common/config.h`, and the exceptions of `errors.h` that the
modelled functions throw.  `page_id_t`, `frame_id_t` and file descriptors are `int32_t` in the
source; page numbers and descriptors are `Int` here (both use `-1`), frame numbers are `Nat`.
-/

namespace Rucbase

/-- `INVALID_PAGE_ID`; `IX_NO_PAGE` and `RM_NO_PAGE` are the same number. -/
abbrev invalidPageId : Int := -1

/-- `PAGE_SIZE`, in bytes. -/
abbrev pageSize : Nat := 4096

/-- `BUFFER_LENGTH`, the bytes of a request and of its response. -/
def bufferLength : Nat := 8192

/-- `PageId`: a page of the file open under `fd`. -/
structure PageId where
  fd : Int
  pageNo : Int
deriving DecidableEq, Repr

/-- `Rid`: a slot of a page. -/
structure Rid where
  pageNo : Int
  slotNo : Int
deriving DecidableEq, Repr

/-- `Page::data_`, the bytes of one page. -/
abbrev PageData := Fin pageSize → UInt8

/-- `Page::ResetMemory` fills a page with zero bytes. -/
def zeroPage : PageData := fun _ => 0

/-- The bytes of an `int` in memory, low byte first. -/
def intBytes (x : Int) (i : Nat) : UInt8 := .ofNat ((x % 2 ^ 32).toNat / 256 ^ i)

/-- The `int` that four bytes hold. -/
def bytesInt (b : Nat → UInt8) : Int :=
  (((b 0).toNat + 256 * (b 1).toNat + 256 ^ 2 * (b 2).toNat + 256 ^ 3 * (b 3).toNat : Nat) :
    Int).bmod (2 ^ 32)

/-- A struct of `int` fields as `n` bytes. -/
def structBytes (n : Nat) (fields : List Int) : Fin n → UInt8 :=
  fun i => intBytes (fields.getD (i / 4) 0) (i % 4)

/-- The `k`-th `int` field of a struct of `n` bytes. -/
def structField {n : Nat} (b : Fin n → UInt8) (k : Nat) : Int :=
  bytesInt fun j => if h : 4 * k + j < n then b ⟨4 * k + j, h⟩ else 0

/-- The exceptions of `errors.h` that the modelled functions throw, and the ways a model of the file
layers stops: at a failed `assert`; when `NewPage` hands out a page that is still in the page table
(the source goes on with a frame that no `FetchPage` can reach); when a page that is not a node of
an index is read as one (the source goes on with whatever its bytes say); and when a loop or a
recursion has used up the rounds the model gives it. -/
inductive RedBaseError where
  | unixError
  | assertionFailure
  | pageInUse (pageId : PageId)
  | notANode (pageNo : Int)
  | outOfFuel
  | fileExistsError (filename : String)
  | fileNotFoundError (filename : String)
  | fileNotOpenError (fd : Int)
  | invalidRecordSizeError (recordSize : Int)
  | invalidColLengthError (colLen : Int)
  | indexEntryNotFoundError
  | pageNotExistError (tableName : String) (pageNo : Int)
deriving DecidableEq, Repr

end Rucbase
