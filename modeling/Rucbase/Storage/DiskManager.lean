import Rucbase.Common
import Rucbase.Lib.ByteFile

/-!
# The disk manager

`DiskManager` (`storage/disk_manager.cpp`) over a small operating system: a directory of
regular files, the bytes of each file, and the open file descriptors with their positions.
A file that is unlinked while it is open keeps its bytes, so descriptors point to file numbers
(`inode`), not to paths.  A path is resolved to a name first: `a` and `./a` are one file for
`stat`, `open` and `unlink`, and two keys in the tables of the disk manager.

`open` may return any descriptor that is not in use; the functions that call it or `unlink` take the
value it returned as an argument (negative when it failed).  Offsets are `int` products in the
source, so they wrap modulo `2^32`, and an `lseek` to a negative offset fails and leaves the position
where it was.  There is always room on the disk: a `write` to an open descriptor takes all bytes.
-/

namespace Rucbase

/-- An open file description: the file and the current position in it. -/
structure OpenFile where
  inode : Nat
  pos : Nat
deriving DecidableEq

/-- The directory. -/
structure Directory where
  /-- The name that a path is resolved to. -/
  resolve : String → String
  /-- The regular files, by name. -/
  entry : String → Option Nat

namespace Directory

/-- The file that a path names. -/
def find (dir : Directory) (path : String) : Option Nat := dir.entry (dir.resolve path)

/-- Enter a file under the name of a path, or remove it. -/
def set (dir : Directory) (path : String) (file : Option Nat) : Directory :=
  { dir with entry := Function.update dir.entry (dir.resolve path) file }

variable {dir : Directory} {path path' : String} {file : Option Nat}

@[simp]
theorem resolve_set : (dir.set path file).resolve = dir.resolve := rfl

@[simp]
theorem find_set_self : (dir.set path file).find path = file := Function.update_self ..

theorem find_set_of_eq (h : dir.resolve path' = dir.resolve path) :
    (dir.set path file).find path' = file := by
  simp [find, set, h]

theorem find_set_of_ne (h : dir.resolve path' ≠ dir.resolve path) :
    (dir.set path file).find path' = dir.find path' := by
  simp [find, set, h]

/-- Two paths with one name name one file. -/
theorem find_congr (h : dir.resolve path = dir.resolve path') : dir.find path = dir.find path' := by
  simp only [find, h]

end Directory

/-- What the disk manager sees of the operating system. -/
structure Os where
  dir : Directory
  /-- The bytes of each file. -/
  file : Nat → ByteFile
  /-- The open descriptors. -/
  fds : Int → Option OpenFile
  /-- The number the next created file gets. -/
  nextInode : Nat

namespace Os

/-- `lseek(fd, offset, SEEK_SET)`; its result is never checked. -/
def lseek (os : Os) (fd offset : Int) : Os :=
  match os.fds fd with
  | some o =>
    if 0 ≤ offset then
      { os with fds := Function.update os.fds fd (some { o with pos := offset.toNat }) }
    else os
  | none => os

/-- `write(fd, data, n)`; `false` when it did not write `n` bytes. -/
def write (os : Os) (fd : Int) {n : Nat} (data : Fin n → UInt8) : Bool × Os :=
  match os.fds fd with
  | some o =>
    (true, { os with
      file := Function.update os.file o.inode ((os.file o.inode).write o.pos data)
      fds := Function.update os.fds fd (some { o with pos := o.pos + n }) })
  | none => (false, os)

/-- `read(fd, buf, n)`: the bytes there are, up to `n`; `false` when there are fewer than `n`. -/
def read (os : Os) (fd : Int) {n : Nat} (buf : Fin n → UInt8) :
    Bool × (Fin n → UInt8) × Os :=
  match os.fds fd with
  | some o =>
    let f := os.file o.inode
    let k := min n (f.size - o.pos)
    (k == n, (fun i => if i.val < k then f.byte (o.pos + i) else buf i),
      { os with fds := Function.update os.fds fd (some { o with pos := o.pos + k }) })
  | none => (false, buf, os)

end Os

/-- The offset the source passes to `lseek`: the `int` product `page_no * PAGE_SIZE`. -/
def pageOffset (pageNo : Int) : Int := (pageNo * pageSize).bmod (2 ^ 32)

structure DiskManager where
  os : Os
  /-- `path2fd_`, the files this manager has open. -/
  path2fd : String → Option Int
  /-- `fd2path_`. -/
  fd2path : Int → Option String
  /-- `fd2pageno_`: the next page number `AllocatePage` hands out, per descriptor. -/
  fd2pageno : Int → Int

namespace DiskManager

/-- `DiskManager::DiskManager`: a fresh manager on the operating system's files. -/
def new (os : Os) : DiskManager := ⟨os, fun _ => none, fun _ => none, fun _ => 0⟩

/-- `DiskManager::write_page`; `false` when it throws `UnixError`. -/
def writePage (dm : DiskManager) (fd pageNo : Int) {n : Nat} (data : Fin n → UInt8) :
    Bool × DiskManager :=
  let (ok, os) := (dm.os.lseek fd (pageOffset pageNo)).write fd data
  (ok, { dm with os })

/-- `DiskManager::read_page`; `false` when it throws `UnixError`. -/
def readPage (dm : DiskManager) (fd pageNo : Int) {n : Nat} (buf : Fin n → UInt8) :
    Bool × (Fin n → UInt8) × DiskManager :=
  let (ok, buf, os) := (dm.os.lseek fd (pageOffset pageNo)).read fd buf
  (ok, buf, { dm with os })

/-- `DiskManager::AllocatePage`. -/
def allocatePage (dm : DiskManager) (fd : Int) : Int × DiskManager :=
  (dm.fd2pageno fd, { dm with fd2pageno := Function.update dm.fd2pageno fd (dm.fd2pageno fd + 1) })

/-- `DiskManager::set_fd2pageno`. -/
def setFd2pageno (dm : DiskManager) (fd startPageNo : Int) : DiskManager :=
  { dm with fd2pageno := Function.update dm.fd2pageno fd startPageNo }

/-- `DiskManager::is_file`. -/
def isFile (dm : DiskManager) (path : String) : Bool := (dm.os.dir.find path).isSome

/-- `DiskManager::create_file`; `fd` is what `open(path, O_CREAT | O_RDWR)` returned.  The
descriptor is closed again at once. -/
def createFile (dm : DiskManager) (fd : Int) (path : String) : Except RedBaseError DiskManager :=
  if dm.isFile path then .error (.fileExistsError path)
  else if fd < 0 then .error .unixError
  else .ok { dm with os := { dm.os with
    dir := dm.os.dir.set path (some dm.os.nextInode)
    file := Function.update dm.os.file dm.os.nextInode .empty
    nextInode := dm.os.nextInode + 1 } }

/-- `DiskManager::destroy_file`; `rc` is what `unlink(path)` returned. -/
def destroyFile (dm : DiskManager) (rc : Int) (path : String) : Except RedBaseError DiskManager :=
  if dm.isFile path then
    if rc < 0 then .error .unixError
    else .ok { dm with os := { dm.os with dir := dm.os.dir.set path none } }
  else .error (.fileNotFoundError path)

/-- `DiskManager::open_file`; `fd` is what `open(path, O_RDWR)` returned. -/
def openFile (dm : DiskManager) (fd : Int) (path : String) : Except RedBaseError DiskManager :=
  match dm.os.dir.find path, dm.path2fd path with
  | some inode, none =>
    if fd < 0 then .error .unixError
    else .ok
      { dm with
        os := { dm.os with fds := Function.update dm.os.fds fd (some ⟨inode, 0⟩) }
        path2fd := Function.update dm.path2fd path (some fd)
        fd2path := Function.update dm.fd2path fd (some path) }
  | _, _ => .error (.fileNotFoundError path)

/-- `DiskManager::close_file`: nothing happens unless `fd` is in the table of open files. -/
def closeFile (dm : DiskManager) (fd : Int) : DiskManager :=
  match dm.fd2path fd with
  | some path =>
    if 0 ≤ fd then
      { dm with
        os := { dm.os with fds := Function.update dm.os.fds fd none }
        path2fd := Function.update dm.path2fd path none
        fd2path := Function.update dm.fd2path fd none }
    else dm
  | none => dm

/-- `DiskManager::GetFileFd`: open the file unless it is open already. -/
def getFileFd (dm : DiskManager) (fd : Int) (path : String) :
    Except RedBaseError (Int × DiskManager) :=
  match dm.path2fd path with
  | some fd' => .ok (fd', dm)
  | none => (dm.openFile fd path).map (fd, ·)

end DiskManager

end Rucbase
