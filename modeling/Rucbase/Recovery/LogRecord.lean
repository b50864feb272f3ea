import Rucbase.Common
import Rucbase.Lib.Memory

/-!
# Log records

`LogRecord` (`recovery/log_record.h`): its constructors, with the size they compute, and the two
functions that write a table name into the log buffer and read it from there.  A `char` buffer is a
list of bytes, the log buffer a memory that is addressed from its start.  Members that a constructor
leaves uninitialised are `none`.
-/

namespace Rucbase

/-- `LogRecordType`. -/
inductive LogRecordType where
  | invalid | createTable | markDropTable | applyDropTable | createIndex | markDropIndex
  | applyDropIndex | insert | update | delete | begin | commit | abort | newPage
deriving DecidableEq, Repr

/-- `RmRecord`, a tuple. -/
structure RmRecord where
  size : Int32
  data : List UInt8
deriving DecidableEq

/-- `LogRecord`; `tab_meta_` is not used. -/
structure LogRecord where
  size : Int32 := 0
  lsn : Int32 := -1
  txnId : Int32 := -1
  prevLsn : Int32 := -1
  logType : LogRecordType := .invalid
  tabNameSize : Int32
  tabName : List UInt8
  updateRid : Option Rid := none
  oldTuple : Option RmRecord := none
  newTuple : Option RmRecord := none
  insertRid : Option Rid := none
  insertTuple : Option RmRecord := none
  deleteRid : Option Rid := none
  deleteTuple : Option RmRecord := none
  newPageNo : Option Int32 := none
deriving DecidableEq

/-- The ways the functions stop: `new char[n]` of a negative size, and a failed `assert`. -/
inductive LogError where
  | allocationError
  | assertionFailure
deriving DecidableEq

abbrev LogM := Except LogError

namespace LogRecord

/-- `HEADER_SIZE`. -/
def headerSize : Int32 := 20

/-- `sizeof(int)`. -/
def sizeofInt : Int32 := 4

/-- `sizeof(Rid)`. -/
def sizeofRid : Int32 := 8

/-- What the constructors do with the name of the table: its length is narrowed to `int`, and so
many bytes of it are copied to a new buffer. -/
def copyName (tableName : List UInt8) : LogM (Int32 × List UInt8) :=
  let tabNameSize := Int32.ofNat tableName.length
  if tabNameSize < 0 then throw .allocationError
  else return (tabNameSize, tableName.take tabNameSize.toInt.toNat)

/-- The constructor that takes a table name only. -/
def named (txnId prevLsn : Int32) (logType : LogRecordType) (tableName : List UInt8) :
    LogM LogRecord := do
  let (tabNameSize, tabName) ← copyName tableName
  return { txnId, prevLsn, logType, tabNameSize, tabName
           size := headerSize + sizeofInt + tabNameSize }

/-- The constructor for an update. -/
def update (txnId prevLsn : Int32) (logType : LogRecordType) (rid : Rid)
    (oldTuple newTuple : RmRecord) (tableName : List UInt8) : LogM LogRecord := do
  let (tabNameSize, tabName) ← copyName tableName
  return { txnId, prevLsn, logType, tabNameSize, tabName
           updateRid := rid, oldTuple, newTuple
           size := headerSize + sizeofRid + sizeofInt * 3 + oldTuple.size + newTuple.size +
             tabNameSize }

/-- The constructor for an insertion or a deletion. -/
def insertDelete (txnId prevLsn : Int32) (logType : LogRecordType) (rid : Rid) (record : RmRecord)
    (tableName : List UInt8) : LogM LogRecord := do
  if logType ≠ .insert ∧ logType ≠ .delete then throw .assertionFailure
  let (tabNameSize, tabName) ← copyName tableName
  let size := headerSize + sizeofRid + sizeofInt * 2 + record.size + tabNameSize
  if logType = .insert then
    return { txnId, prevLsn, logType, tabNameSize, tabName, size
             insertRid := rid, insertTuple := record }
  else
    return { txnId, prevLsn, logType, tabNameSize, tabName, size
             deleteRid := rid, deleteTuple := record }

/-- The constructor for a new page. -/
def newPage (txnId prevLsn : Int32) (logType : LogRecordType) (pageNo : Int32)
    (tableName : List UInt8) : LogM LogRecord := do
  let (tabNameSize, tabName) ← copyName tableName
  return { txnId, prevLsn, logType, tabNameSize, tabName
           newPageNo := pageNo
           size := headerSize + sizeofInt * 2 + tabNameSize }

/-- `LogRecord::SerializeTableName`: the buffer and the position afterwards. -/
def serializeTableName (record : LogRecord) (logBuffer : Int → UInt8) (pos : Int32) :
    (Int → UInt8) × Int32 :=
  let logBuffer := Memory.store logBuffer pos.toInt
    ((List.range 4).map fun i => intBytes record.tabNameSize.toInt i)
  let pos := pos + sizeofInt
  let logBuffer := Memory.store logBuffer pos.toInt
    (record.tabName.take record.tabNameSize.toInt.toNat)
  -- the size of the member, not its value
  (logBuffer, pos + sizeofInt)

/-- `LogRecord::DeserializeTableName`. -/
def deserializeTableName (record : LogRecord) (logBuffer : Int → UInt8) (data : Int) :
    LogM LogRecord :=
  let tabNameSize := bytesInt fun i => logBuffer (data + i)
  if tabNameSize < 0 then throw .allocationError
  else return { record with
    tabNameSize := Int32.ofInt tabNameSize
    tabName := Memory.load logBuffer (data + 4) tabNameSize.toNat }

end LogRecord

end Rucbase
