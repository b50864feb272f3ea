import Rucbase.Index.IxManager
import Rucbase.Lib.StateExcept
import Rucbase.Record.RmManager
import Rucbase.System.SmMeta

/-!
# The system manager

`create_table`, `create_index` and `drop_index` of `SmManager` (`system/sm_manager.cpp`), with the
catalog, the open handles and the files below.  `TabMeta::get_col` has no body in the repository; it
is taken to return the column of that name or to throw `ColumnNotFoundError`.

What the operating system answers is an argument of a call: the descriptors that `open` returned, what
`unlink` returned, and what uninitialised buffers held.  Of the loop of `create_index` over the
records of the table (`RmScan`, `get_record`, `insert_entry`) the argument says which calls it makes
on the buffer pool, what it stores into the pages, and the exception it ends with, if any.
-/

namespace Rucbase

open Std

/-- An index handle: its descriptor and its header. -/
abbrev IxHandle := Int × IxFileHdr

structure SmManager where
  db : DbMeta
  fhs : ExtTreeMap String RmFileHandle
  ihs : ExtTreeMap String IxHandle
  pool : BufferPoolManager DiskManager

/-- The exceptions of the system manager.  `outOfRange` is that of `std::unordered_map::at`. -/
inductive SmError where
  | base (e : RedBaseError)
  | tableExistsError (tabName : String)
  | tableNotFoundError (tabName : String)
  | columnNotFoundError (colName : String)
  | indexExistsError (tabName colName : String)
  | indexNotFoundError (tabName colName : String)
  | outOfRange

/-- A call of the system manager: it may throw, and changes made before the throw stay. -/
abbrev SmM := EStateM SmError SmManager

/-- A call of `rm_manager_` or `ix_manager_`. -/
def SmM.manager {α : Type} (x : ManagerM α) : SmM α := fun s =>
  match x s.pool with
  | .ok a pool => .ok a { s with pool }
  | .error e pool => .error (.base e) { s with pool }

/-- `std::unordered_map::at`. -/
def SmM.at {α : Type} (entries : ExtTreeMap String α) (name : String) : SmM α :=
  match entries[name]? with
  | some a => pure a
  | none => throw .outOfRange

/-- `TabMeta::get_col`: the place of the column, and the column. -/
def TabMeta.getCol (tab : TabMeta) (colName : String) : SmM (Nat × ColMeta) :=
  match tab.cols.zipIdx.find? fun entry => entry.1.name = colName with
  | some (col, i) => pure (i, col)
  | none => throw (.columnNotFoundError colName)

/-- `col->index = index`, through an iterator into the columns of a table. -/
def TabMeta.setIndex (tab : TabMeta) (i : Nat) (index : Bool) : TabMeta :=
  { tab with cols := tab.cols.modify i fun col => { col with index } }

/-- `ColDef`. -/
structure ColDef where
  name : String
  type : ColType
  len : Int32

namespace SmManager

open SmM

/-- The columns that `create_table` makes of their definitions, from an offset on, and the offset
behind them. -/
def makeCols (tabName : String) : List ColDef → Int32 → List ColMeta × Int32
  | [], currOffset => ([], currOffset)
  | colDef :: colDefs, currOffset =>
    let col : ColMeta :=
      { tabName, name := colDef.name, type := colDef.type, len := colDef.len, offset := currOffset
        index := false }
    let (cols, currOffset) := makeCols tabName colDefs (currOffset + colDef.len)
    (col :: cols, currOffset)

/-- What `open` answers to the three calls of `create_table`, and what `file_hdr_` held. -/
structure TableEnv where
  fdCreate : Int
  fdInit : Int
  fdOpen : Int
  buf : Fin RmFileHdr.size → UInt8

/-- `SmManager::create_table`. -/
def createTable (env : TableEnv) (tabName : String) (colDefs : List ColDef) : SmM Unit := do
  if (← get).db.isTable tabName then throw (.tableExistsError tabName)
  let (cols, currOffset) := makeCols tabName colDefs 0
  let tab : TabMeta := { name := tabName, cols }
  manager (RmManager.createFile env.fdCreate env.fdInit tabName currOffset.toInt)
  modify fun s => { s with db.tabs := s.db.tabs.insert tabName tab }
  let fileHandle ← manager (RmManager.openFile env.fdOpen env.buf tabName)
  modify fun s => { s with fhs := s.fhs.insertIfNew tabName fileHandle }

/-- What the loop of `create_index` over the records does to the pool. -/
inductive LoopCall where
  | fetchPage (pageId : PageId)
  | newPage (fd : Int)
  | unpinPage (pageId : PageId) (isDirty : Bool)
  | store (frameId : Nat) (data : PageData)

/-- The state that a call of the loop leaves behind, also when it throws. -/
def LoopCall.exec (b : BufferPoolManager DiskManager) : LoopCall → BufferPoolManager DiskManager
  | fetchPage pageId => (BufferPoolManager.fetchPage pageId).after b
  | newPage fd => (BufferPoolManager.newPage fd).after b
  | unpinPage pageId isDirty => (BufferPoolManager.unpinPage pageId isDirty).after b
  | store frameId data => b.setPage frameId { b.pages frameId with data }

/-- The loop of `create_index`: its calls, what it makes of the header of the index, and the
exception it ends with. -/
structure RecordLoop where
  calls : List LoopCall
  fileHdr : IxFileHdr → IxFileHdr
  error : Option RedBaseError

/-- The pool after the loop. -/
def RecordLoop.pool (loop : RecordLoop) (b : BufferPoolManager DiskManager) :
    BufferPoolManager DiskManager :=
  loop.calls.foldl LoopCall.exec b

/-- What `open` answers to the three calls of `create_index`, what uninitialised buffers held, and
what becomes of the records. -/
structure IndexEnv where
  fdCreate : Int
  fdInit : Int
  fdOpen : Int
  pageBuf : PageData
  buf : Fin IxFileHdr.size → UInt8
  loop : RecordLoop

/-- The loop of `create_index` over the records. -/
def indexRecords (loop : RecordLoop) (ih : IxHandle) : ManagerM IxHandle := do
  modify loop.pool
  match loop.error with
  | some e => throw e
  | none => return (ih.1, loop.fileHdr ih.2)

/-- `SmManager::create_index`. -/
def createIndex (env : IndexEnv) (tabName colName : String) : SmM Unit := do
  match (← get).db.tabs[tabName]? with
  | none => throw (.tableNotFoundError tabName)
  | some tab =>
    let (colIdx, col) ← tab.getCol colName
    if col.index then throw (.indexExistsError tabName colName)
    manager (IxManager.createIndex env.fdCreate env.fdInit env.pageBuf tabName colIdx col.type
      col.len.toInt)
    let ih ← manager (IxManager.openIndex env.fdOpen env.buf tabName colIdx)
    let _fileHandle ← SmM.at (← get).fhs tabName
    let ih ← manager (indexRecords env.loop ih)
    let indexName := IxManager.getIndexName tabName colIdx
    if (← get).ihs.contains indexName then throw (.base .assertionFailure)
    modify fun s => { s with ihs := s.ihs.insertIfNew indexName ih }
    modify fun s => { s with db.tabs := s.db.tabs.modify tabName (·.setIndex colIdx true) }

/-- `SmManager::drop_index`; `db_.tabs_[tab_name]` enters an empty table when there is none, and `rc`
is what `unlink` returned. -/
def dropIndex (rc : Int) (tabName colName : String) : SmM Unit := do
  modify fun s => { s with db.tabs := s.db.tabs.insertIfNew tabName {} }
  let tab ← SmM.at (← get).db.tabs tabName
  let (colIdx, col) ← tab.getCol colName
  if !col.index then throw (.indexNotFoundError tabName colName)
  let indexName := IxManager.getIndexName tabName colIdx
  let ih ← SmM.at (← get).ihs indexName
  manager (IxManager.closeIndex ih.1 ih.2)
  manager (IxManager.destroyIndex rc tabName colIdx)
  modify fun s => { s with ihs := s.ihs.erase indexName }
  modify fun s => { s with db.tabs := s.db.tabs.modify tabName (·.setIndex colIdx false) }

end SmManager

end Rucbase
