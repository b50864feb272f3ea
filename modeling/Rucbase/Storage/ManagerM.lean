import Rucbase.Storage.BufferPoolManager

/-!
# Calls on the shared disk manager

`RmManager` and `IxManager` hold the same `DiskManager` as the buffer pool and call it directly,
behind the pool.  Their functions run in `ManagerM`: the state is the pool with its disk manager.
-/

namespace Rucbase

/-- A call of a file manager: it may throw, and changes made before the throw stay. -/
abbrev ManagerM := PoolM DiskManager

namespace ManagerM

/-- A call of the disk manager that may throw. -/
def onDisk (f : DiskManager → Except RedBaseError DiskManager) : ManagerM Unit := do
  let b ← get
  match f b.diskManager with
  | .ok dm => set { b with diskManager := dm }
  | .error e => throw e

/-- `disk_manager_->write_page(fd, page_no, data, num_bytes)`. -/
def writePage (fd pageNo : Int) {n : Nat} (data : Fin n → UInt8) : ManagerM Unit := do
  let b ← get
  let (ok, dm) := b.diskManager.writePage fd pageNo data
  set { b with diskManager := dm }
  if !ok then throw .unixError

/-- `disk_manager_->read_page(fd, page_no, buf, num_bytes)`. -/
def readPage (fd pageNo : Int) {n : Nat} (buf : Fin n → UInt8) : ManagerM (Fin n → UInt8) := do
  let b ← get
  let (ok, data, dm) := b.diskManager.readPage fd pageNo buf
  set { b with diskManager := dm }
  if ok then return data else throw .unixError

/-- A call of the disk manager that cannot fail. -/
def modifyDisk (f : DiskManager → DiskManager) : ManagerM Unit :=
  modify fun b => { b with diskManager := f b.diskManager }

end ManagerM

end Rucbase
