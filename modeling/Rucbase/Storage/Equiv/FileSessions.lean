import Rucbase.Index.IxManager
import Rucbase.Record.RmManager
import Rucbase.Storage.Equiv.OpenFiles
import Rucbase.Storage.Equiv.PageContents

/-!
# Sessions: files opened and closed over one buffer pool

A session is any sequence of calls of `RmManager` and `IxManager` and of pool calls on the files
that are open, all over one `BufferPoolManager`.  The operating system may give a file the
descriptor of a file closed earlier.  `close_file` leaves the pages of the file in the pool, keyed
by the descriptor, and nothing removes them when the descriptor is used again.

`sessions_own_bytes` is the exact condition: as long as no file is opened that is open already (which
a second spelling of its path gets past `open_file`), and every page that the pool still holds under
the descriptor of a newly opened file is the page of that file, byte for byte, every fetched page
holds its file's bytes and `FlushAllPages` writes only pages of the file.
-/

namespace Rucbase

open BufferPoolManager EStateM ManagerM

namespace DiskManager

/-- The file open under `fd`, if there is one. -/
def IsOpen (dm : DiskManager) (fd : Int) : Prop := (dm.os.fds fd).isSome

instance (dm : DiskManager) (fd : Int) : Decidable (dm.IsOpen fd) :=
  inferInstanceAs (Decidable ((dm.os.fds fd).isSome = true))

/-- The page of a file that clients may fetch: page 0 is the header, which never goes through the
pool. -/
def pageOf (dm : DiskManager) (p : PageId) : Option PageData :=
  if 1 ≤ p.pageNo ∧ p.pageNo < 2 ^ 19 then dm.contents p else none

end DiskManager

/-! ### Manager calls and their effect on what the clients may expect -/

/-- What happens in a session.  The descriptors are those that `open` returned, `rc` is what `unlink`
returned. -/
inductive SessionOp where
  | createFile (fd₀ fd : Int) (filename : String) (recordSize : Int)
  | openFile (fd : Int) (buf : Fin RmFileHdr.size → UInt8) (filename : String)
  | closeFile (fileHandle : RmFileHandle)
  | destroyFile (rc : Int) (filename : String)
  | createIndex (fd₀ fd : Int) (buf : PageData) (filename : String) (indexNo : Int)
      (colType : ColType) (colLen : Int)
  | openIndex (fd : Int) (buf : Fin IxFileHdr.size → UInt8) (filename : String) (indexNo : Int)
  | closeIndex (fd : Int) (fileHdr : IxFileHdr)
  | destroyIndex (rc : Int) (filename : String) (indexNo : Int)
  | client (op : ClientOp)

/-- The state a manager call leaves behind, also when it throws. -/
def SessionOp.exec (op : SessionOp) (b : BufferPoolManager DiskManager) :
    BufferPoolManager DiskManager :=
  match op with
  | .createFile fd₀ fd filename recordSize =>
    (RmManager.createFile fd₀ fd filename recordSize).after b
  | .openFile fd buf filename => (RmManager.openFile fd buf filename).after b
  | .closeFile fileHandle => (RmManager.closeFile fileHandle).after b
  | .destroyFile rc filename => (RmManager.destroyFile rc filename).after b
  | .createIndex fd₀ fd buf filename indexNo colType colLen =>
    (IxManager.createIndex fd₀ fd buf filename indexNo colType colLen).after b
  | .openIndex fd buf filename indexNo => (IxManager.openIndex fd buf filename indexNo).after b
  | .closeIndex fd fileHdr => (IxManager.closeIndex fd fileHdr).after b
  | .destroyIndex rc filename indexNo => (IxManager.destroyIndex rc filename indexNo).after b
  | .client _ => b

/-- The descriptor that `open` chose for a file that stays open during the call. -/
def SessionOp.opened : SessionOp → Option Int
  | .createFile _ fd _ _ | .openFile fd _ _ | .createIndex _ fd _ _ _ _ _ | .openIndex fd _ _ _ =>
    some fd
  | _ => none

/-- Follow a manager call: a file that was opened starts with the pages it has on disk, a file that
was closed has no pages any more. -/
def PoolClient.follow (c : PoolClient) (b' : BufferPoolManager DiskManager) : PoolClient where
  bpm := b'
  last p :=
    if b'.diskManager.IsOpen p.fd then
      if c.bpm.diskManager.IsOpen p.fd then c.last p else b'.diskManager.pageOf p
    else none
  pending p :=
    if b'.diskManager.IsOpen p.fd ∧ c.bpm.diskManager.IsOpen p.fd then c.pending p else false

/-- One step of a session.  `open` fails or returns a descriptor that is not in use; clients use
the pool on open files only, under its contract, and page 0 is not a page they may create. -/
def SessionStep (c : PoolClient) (op : SessionOp) (c' : PoolClient) : Prop :=
  match op with
  | .client op => c.bpm.diskManager.IsOpen op.fd ∧
      (∀ fd, op = .newPage fd → 1 ≤ c.bpm.diskManager.fd2pageno fd) ∧ ClientStep c op c'
  | op => (∀ fd, op.opened = some fd → 0 ≤ fd → ¬c.bpm.diskManager.IsOpen fd) ∧
      c' = c.follow (op.exec c.bpm)

/-- What a session owes the files that are open: a fetched page holds the file's bytes, and all
that `FlushAllPages` would write are pages of the file. -/
def PoolClient.OwnBytes (c : PoolClient) : Prop :=
  ∀ fd, c.bpm.diskManager.IsOpen fd →
    (∀ p f b', p.fd = fd → c.last p ≠ none → fetchPage p c.bpm = .ok (some f) b' →
      c.last p = some (b'.pages f).data) ∧
    ∀ f < c.bpm.poolSize, (c.bpm.pages f).id.fd = fd →
      (c.bpm.pages f).id.pageNo ≠ invalidPageId →
        c.last (c.bpm.pages f).id = some (c.bpm.pages f).data

/-- Every page that the pool still holds under a descriptor is the page of the file that is about
to be opened under it. -/
def PoolClient.Matches (c : PoolClient) (fd : Int) (file : ByteFile) : Prop :=
  ∀ p f, p.fd = fd → c.bpm.pageTable p = some f → 1 ≤ p.pageNo ∧ p.pageNo < 2 ^ 19 ∧
    file.read (p.pageNo.toNat * pageSize) pageSize = some (c.bpm.pages f).data

/-- The file that a path names is open nowhere, and the pool holds no page of another file under the
descriptor it is about to be opened under. -/
def PoolClient.OpensCleanly (c : PoolClient) (fd : Int) (path : String) : Prop :=
  ∀ i, c.bpm.diskManager.os.dir.find path = some i → c.bpm.diskManager.path2fd path = none →
    c.bpm.diskManager.Unopened i ∧ c.Matches fd (c.bpm.diskManager.os.file i)

/-- The condition on a step: a file is opened only if it is open nowhere, and only under a descriptor
for which the pool holds no page of another file.  (`create_index` leaves the empty file open when it
throws after opening.) -/
def OpensClean (c : PoolClient) : SessionOp → Prop
  | .openFile fd _ filename => c.OpensCleanly fd filename
  | .openIndex fd _ filename indexNo =>
      c.OpensCleanly fd (IxManager.getIndexName filename indexNo)
  | .createIndex _ fd _ _ _ _ colLen =>
      ixMaxColLen < colLen ∨ IxFileHdr.orderOf colLen ≤ 2 → c.Matches fd .empty
  | _ => True

/-! ### What a manager call does to the disk manager -/

namespace DiskManager

variable {dm dm' dm₁ dm₂ : DiskManager} {fd : Int} {path : String}

/-- The same descriptors stay open on the same files, and no file there was has changed. -/
structure Quiet (dm dm' : DiskManager) : Prop where
  filesOk : FilesOk dm'
  inodes : SameInodes dm dm'
  file : ∀ i < dm.os.nextInode, dm'.os.file i = dm.os.file i

/-- A file was opened under a descriptor that was not in use. -/
structure Opened (dm : DiskManager) (fd : Int) (file : ByteFile) (dm' : DiskManager) : Prop where
  filesOk : FilesOk dm'
  others : ∀ fd', fd' ≠ fd → (dm'.os.fds fd').map OpenFile.inode = (dm.os.fds fd').map OpenFile.inode
  self : ∃ o, dm'.os.fds fd = some o ∧ dm'.os.file o.inode = file
  file : ∀ i < dm.os.nextInode, dm'.os.file i = dm.os.file i

/-- A file was created and is open under `fd`. -/
structure NewFile (dm : DiskManager) (path : String) (fd : Int) (dm' : DiskManager) : Prop where
  others : ∀ fd', fd' ≠ fd → (dm'.os.fds fd').map OpenFile.inode = (dm.os.fds fd').map OpenFile.inode
  self : (dm'.os.fds fd).map OpenFile.inode = some dm.os.nextInode
  dir : dm'.os.dir = dm.os.dir.set path (some dm.os.nextInode)
  nextInode : dm'.os.nextInode = dm.os.nextInode + 1
  path2fd : dm'.path2fd = Function.update dm.path2fd path (some fd)
  fd2path : dm'.fd2path = Function.update dm.fd2path fd (some path)
  file : ∀ i < dm.os.nextInode, dm'.os.file i = dm.os.file i

theorem isOpen_iff_map : dm.IsOpen fd ↔ ((dm.os.fds fd).map OpenFile.inode).isSome = true := by
  simp [IsOpen]

theorem SameInodes.isOpen_iff (h : SameInodes dm dm') (fd : Int) :
    dm'.IsOpen fd ↔ dm.IsOpen fd := by
  rw [isOpen_iff_map, isOpen_iff_map, h fd]

theorem SameOpen.sameInodes (h : SameOpen dm dm') : SameInodes dm dm' := fun fd => (h.inode fd).symm

theorem Quiet.refl (h : FilesOk dm) : Quiet dm dm := ⟨h, fun _ => rfl, fun _ _ => rfl⟩

/-- A write to a descriptor that is not open fails and does nothing. -/
theorem writePage_closed (h : ¬dm.IsOpen fd) (pageNo : Int) {n : Nat} (data : Fin n → UInt8) :
    dm.writePage fd pageNo data = (false, dm) := by
  have ho : dm.os.fds fd = none := by simpa [IsOpen] using h
  simp [writePage, Os.lseek, Os.write, ho]

/-- Seeking only moves the position, if anything. -/
theorem lseek_eq {os : Os} {o : OpenFile} (ho : os.fds fd = some o) (offset : Int) : ∃ pos,
    os.lseek fd offset = { os with fds := Function.update os.fds fd (some ⟨o.inode, pos⟩) } := by
  by_cases hoff : 0 ≤ offset
  · exact ⟨offset.toNat, by simp [Os.lseek, ho, hoff]⟩
  · refine ⟨o.pos, ?_⟩
    have hself : Function.update os.fds fd (some ⟨o.inode, o.pos⟩) = os.fds :=
      Function.update_eq_self_iff.mpr ho.symm
    simp [Os.lseek, ho, hoff, hself]

theorem map_inode_update {fds : Int → Option OpenFile} {o : OpenFile} (ho : fds fd = some o)
    (pos : Nat) (fd' : Int) :
    (Function.update fds fd (some ⟨o.inode, pos⟩) fd').map OpenFile.inode =
      (fds fd').map OpenFile.inode := by
  by_cases he : fd' = fd
  · subst he
    simp [ho]
  · simp [he]

/-- A write to an open descriptor succeeds and changes no other file. -/
theorem writePage_open (h : dm.IsOpen fd) (pageNo : Int) {n : Nat} (data : Fin n → UInt8) :
    ∃ dm', dm.writePage fd pageNo data = (true, dm') ∧ SameOpen dm dm' ∧
      ∀ i, (dm.os.fds fd).map OpenFile.inode ≠ some i → dm'.os.file i = dm.os.file i := by
  obtain ⟨o, ho⟩ := Option.isSome_iff_exists.mp h
  obtain ⟨pos, hseek⟩ := lseek_eq ho (pageOffset pageNo)
  refine ⟨{ dm with os := ((dm.os.lseek fd (pageOffset pageNo)).write fd data).2 }, ?_, ?_,
    fun i hi => ?_⟩
  · simp [writePage, hseek, Os.write]
  · simp only [hseek, Os.write, Function.update_self, Function.update_idem]
    exact ⟨fun fd' => (map_inode_update ho _ fd').symm, rfl, rfl, rfl, rfl⟩
  · simp only [hseek, Os.write, Function.update_self]
    rw [ho] at hi
    exact Function.update_of_ne (fun e => hi (by simp [e])) ..

theorem readPage_sameOpen (dm : DiskManager) (fd pageNo : Int) {n : Nat} (buf : Fin n → UInt8) :
    SameOpen dm (dm.readPage fd pageNo buf).2.2 ∧
      (dm.readPage fd pageNo buf).2.2.os.file = dm.os.file := by
  cases ho : dm.os.fds fd with
  | none =>
    have hread : (dm.readPage fd pageNo buf).2.2 = dm := by simp [readPage, Os.lseek, Os.read, ho]
    rw [hread]
    exact ⟨⟨fun _ => rfl, rfl, rfl, rfl, rfl⟩, rfl⟩
  | some o =>
    obtain ⟨pos, hseek⟩ := lseek_eq ho (pageOffset pageNo)
    simp only [readPage, hseek, Os.read, Function.update_self, Function.update_idem]
    exact ⟨⟨fun fd' => (map_inode_update ho _ fd').symm, rfl, rfl, rfl, rfl⟩, trivial⟩

theorem Quiet.createFile (h : FilesOk dm) {fd₀ : Int} (hc : dm.createFile fd₀ path = .ok dm₁) :
    Quiet dm dm₁ := by
  unfold DiskManager.createFile at hc
  split_ifs at hc
  cases hc
  exact ⟨h.create path (fun _ => rfl) rfl rfl rfl rfl, fun _ => rfl,
    fun i hi => Function.update_of_ne (ne_of_lt hi) ..⟩

theorem Quiet.destroyFile (h : FilesOk dm) {rc : Int} (hd : dm.destroyFile rc path = .ok dm₁) :
    Quiet dm dm₁ := by
  unfold DiskManager.destroyFile at hd
  split_ifs at hd
  cases hd
  exact ⟨h.unlink path, fun _ => rfl, fun _ _ => rfl⟩

theorem Opened.openFile (h : FilesOk dm) (ho : dm.openFile fd path = .ok dm') :
    ∃ i, dm.os.dir.find path = some i ∧ dm.path2fd path = none ∧
      (dm.Unopened i → Opened dm fd (dm.os.file i) dm') := by
  obtain ⟨-, i, hi, hp, rfl⟩ := openFile_eq_ok ho
  exact ⟨i, hi, hp, fun hnot => ⟨h.open hi hp hnot, fun fd' he => by simp [he],
    ⟨_, Function.update_self .., rfl⟩, fun _ _ => rfl⟩⟩

theorem Opened.trans {file : ByteFile} (h : Opened dm fd file dm₁) (h' : SameOpen dm₁ dm')
    (hf : dm'.os.file = dm₁.os.file) : Opened dm fd file dm' where
  filesOk := h'.filesOk h.filesOk
  others fd' he := (h'.inode fd').symm.trans (h.others fd' he)
  self := by
    obtain ⟨o, ho, hfile⟩ := h.self
    obtain ⟨o', ho', he⟩ := h'.sameInodes.symm.exists_open ho
    exact ⟨o', ho', by rw [hf, he, hfile]⟩
  file i hi := by rw [hf, h.file i hi]

/-- `create_file` and `open_file` one after the other. -/
theorem NewFile.create {fd₀ : Int} (hc : dm.createFile fd₀ path = .ok dm₁)
    (ho : dm₁.openFile fd path = .ok dm₂) :
    NewFile dm path fd dm₂ ∧ dm.path2fd path = none ∧ 0 ≤ fd ∧
      dm₂.os.file dm.os.nextInode = .empty ∧ (FilesOk dm → FilesOk dm₂) := by
  have hcreate := hc
  unfold DiskManager.createFile at hc
  split_ifs at hc
  cases hc
  obtain ⟨hfd, i, hi, hp, rfl⟩ := openFile_eq_ok ho
  have hnew := Option.some.inj (Directory.find_set_self.symm.trans hi)
  subst hnew
  refine ⟨⟨fun fd' he => by simp [he], by simp, rfl, rfl, rfl, rfl,
    fun i hi => Function.update_of_ne (ne_of_lt hi) ..⟩, hp, hfd, by simp, fun h => ?_⟩
  -- no descriptor is open on the number of a file that has just been created
  exact (Quiet.createFile h hcreate).filesOk.open hi hp h.unopened_next

theorem NewFile.isOpen (h : NewFile dm path fd dm₂) : dm₂.IsOpen fd := by
  rw [isOpen_iff_map, h.self]
  rfl

/-- Writing into the new file keeps it the new file. -/
theorem NewFile.trans (h : NewFile dm path fd dm₂) (h' : SameOpen dm₂ dm')
    (hf : ∀ i, (dm₂.os.fds fd).map OpenFile.inode ≠ some i → dm'.os.file i = dm₂.os.file i) :
    NewFile dm path fd dm' where
  others fd' he := (h'.inode fd').symm.trans (h.others fd' he)
  self := (h'.inode fd).symm.trans h.self
  dir := h'.dir.trans h.dir
  nextInode := h'.nextInode.trans h.nextInode
  path2fd := h'.path2fd.trans h.path2fd
  fd2path := h'.fd2path.trans h.fd2path
  file i hi := by
    rw [hf i, h.file i hi]
    rw [h.self]
    simpa using ne_of_gt hi

/-- A new file that is closed again: only the directory has changed. -/
theorem NewFile.close (h : NewFile dm path fd dm₂) (hok : FilesOk dm) (hpath : dm.path2fd path = none)
    (hfd : 0 ≤ fd) (hopen : ¬dm.IsOpen fd) : Quiet dm (dm₂.closeFile fd) := by
  have hnone : dm.os.fds fd = none := by simpa [IsOpen] using hopen
  have hlist : dm.fd2path fd = none := by
    cases hq : dm.fd2path fd with
    | none => rfl
    | some q =>
      obtain ⟨o, ho⟩ := hok.listed_open hq
      rw [hnone] at ho
      cases ho
  have hclose : dm₂.closeFile fd =
      { dm₂ with
        os := { dm₂.os with fds := Function.update dm₂.os.fds fd none }
        path2fd := Function.update dm₂.path2fd path none
        fd2path := Function.update dm₂.fd2path fd none } := by
    simp [closeFile, h.fd2path, hfd]
  have hinodes : SameInodes dm (dm₂.closeFile fd) := by
    intro fd'
    rw [hclose]
    by_cases he : fd' = fd
    · subst he
      simp [hnone]
    · simpa [he] using h.others fd' he
  refine ⟨hok.create path hinodes ?_ ?_ ?_ ?_, hinodes, fun i hi => ?_⟩
  · rw [hclose]
    exact h.dir
  · rw [hclose]
    exact h.nextInode
  · rw [hclose, h.path2fd]
    rw [Function.update_idem]
    exact Function.update_eq_self_iff.mpr hpath.symm
  · rw [hclose, h.fd2path]
    rw [Function.update_idem]
    exact Function.update_eq_self_iff.mpr hlist.symm
  · rw [hclose]
    exact h.file i hi

/-- A new file that stays open. -/
theorem NewFile.opened (h : NewFile dm path fd dm₂) (hok : FilesOk dm₂) {file : ByteFile}
    (hfile : dm₂.os.file dm.os.nextInode = file) : Opened dm fd file dm₂ where
  filesOk := hok
  others := h.others
  self := by
    obtain ⟨o, ho, hi⟩ := Option.map_eq_some_iff.mp h.self
    exact ⟨o, ho, by rw [hi, hfile]⟩
  file := h.file

end DiskManager

section Managers

open DiskManager

variable {b : BufferPoolManager DiskManager} {dm : DiskManager} {fd pageNo : Int} {n : Nat}
  {data : Fin n → UInt8} {e : RedBaseError}

theorem onDisk_of_ok {f : DiskManager → Except RedBaseError DiskManager}
    (h : f b.diskManager = .ok dm) : onDisk f b = .ok () { b with diskManager := dm } := by
  simp [onDisk, h]

theorem onDisk_of_error {f : DiskManager → Except RedBaseError DiskManager}
    (h : f b.diskManager = .error e) : onDisk f b = .error e b := by
  simp [onDisk, h]

theorem managerWritePage_of_ok (h : b.diskManager.writePage fd pageNo data = (true, dm)) :
    ManagerM.writePage fd pageNo data b = .ok () { b with diskManager := dm } := by
  simp [ManagerM.writePage, h]

theorem managerWritePage_of_error (h : b.diskManager.writePage fd pageNo data = (false, dm)) :
    ManagerM.writePage fd pageNo data b = .error .unixError { b with diskManager := dm } := by
  simp [ManagerM.writePage, h]

/-- Reading a header moves a position at most. -/
theorem after_managerReadPage (b : BufferPoolManager DiskManager) (fd pageNo : Int)
    (buf : Fin n → UInt8) :
    (∃ a b', ManagerM.readPage fd pageNo buf b = .ok a b' ∧
        b' = { b with diskManager := (b.diskManager.readPage fd pageNo buf).2.2 }) ∨
      ∃ b', ManagerM.readPage fd pageNo buf b = .error .unixError b' ∧
        b' = { b with diskManager := (b.diskManager.readPage fd pageNo buf).2.2 } := by
  cases hr : (b.diskManager.readPage fd pageNo buf).1 with
  | true => exact Or.inl ⟨_, _, by simp [ManagerM.readPage, hr]; rfl, rfl⟩
  | false => exact Or.inr ⟨_, by simp [ManagerM.readPage, hr], rfl⟩

/-- **Creating a record file** leaves the open files alone. -/
theorem after_createFile (hok : FilesOk b.diskManager) {fd₀ : Int}
    (hopen : 0 ≤ fd → ¬b.diskManager.IsOpen fd) (filename : String) (recordSize : Int) :
    ∃ dm, (RmManager.createFile fd₀ fd filename recordSize).after b = { b with diskManager := dm } ∧
      Quiet b.diskManager dm := by
  unfold RmManager.createFile
  by_cases hsize : recordSize < 1 ∨ recordSize > rmMaxRecordSize
  · rw [if_pos hsize]
    exact ⟨b.diskManager, rfl, .refl hok⟩
  rw [if_neg hsize]
  cases hc : b.diskManager.createFile fd₀ filename with
  | error e => exact ⟨b.diskManager, after_bind_of_error (onDisk_of_error hc), .refl hok⟩
  | ok dm₁ =>
    rw [after_bind_of_ok (onDisk_of_ok hc)]
    cases ho : dm₁.openFile fd filename with
    | error e =>
      exact ⟨dm₁, after_bind_of_error (onDisk_of_error ho), .createFile hok hc⟩
    | ok dm₂ =>
      rw [after_bind_of_ok (onDisk_of_ok ho)]
      obtain ⟨hnew, hpath, hfd, -, -⟩ := NewFile.create hc ho
      obtain ⟨dm₃, hw, hso, hf⟩ := writePage_open hnew.isOpen rmFileHdrPage
        (RmFileHdr.init recordSize).toBytes
      rw [after_bind_of_ok (managerWritePage_of_ok hw)]
      exact ⟨dm₃.closeFile fd, rfl, (hnew.trans hso hf).close hok hpath hfd (hopen hfd)⟩

/-- **Creating an index file** leaves the open files alone, or throws and leaves the new file
open. -/
theorem after_createIndex (hok : FilesOk b.diskManager) {fd₀ : Int}
    (hopen : 0 ≤ fd → ¬b.diskManager.IsOpen fd) (buf : PageData) (filename : String)
    (indexNo : Int) (colType : ColType) (colLen : Int) :
    ∃ dm, (IxManager.createIndex fd₀ fd buf filename indexNo colType colLen).after b =
        { b with diskManager := dm } ∧
      (Quiet b.diskManager dm ∨ (ixMaxColLen < colLen ∨ IxFileHdr.orderOf colLen ≤ 2) ∧
        ¬b.diskManager.IsOpen fd ∧ Opened b.diskManager fd .empty dm) := by
  unfold IxManager.createIndex
  by_cases hno : indexNo < 0
  · simp only [hno, if_true]
    exact ⟨b.diskManager, rfl, .inl (.refl hok)⟩
  simp only [hno, if_false]
  cases hc : b.diskManager.createFile fd₀ (IxManager.getIndexName filename indexNo) with
  | error e => exact ⟨b.diskManager, after_bind_of_error (onDisk_of_error hc), .inl (.refl hok)⟩
  | ok dm₁ =>
    have hquiet := Quiet.createFile hok hc
    rw [after_bind_of_ok (onDisk_of_ok hc)]
    cases ho : dm₁.openFile fd (IxManager.getIndexName filename indexNo) with
    | error e => exact ⟨dm₁, after_bind_of_error (onDisk_of_error ho), .inl hquiet⟩
    | ok dm₂ =>
      rw [after_bind_of_ok (onDisk_of_ok ho)]
      obtain ⟨hnew, hpath, hfd, hempty, hok₂⟩ := NewFile.create hc ho
      have hleft := hnew.opened (hok₂ hok) hempty
      by_cases hlen : colLen > ixMaxColLen
      · rw [if_pos hlen]
        -- the exception leaves the file open
        exact ⟨dm₂, rfl, .inr ⟨.inl hlen, hopen hfd, hleft⟩⟩
      rw [if_neg hlen]
      by_cases hord : IxFileHdr.orderOf colLen ≤ 2
      · rw [if_pos hord]
        exact ⟨dm₂, rfl, .inr ⟨.inr hord, hopen hfd, hleft⟩⟩
      rw [if_neg hord]
      -- the header, the leaf header and the root are written, and the file is closed again
      obtain ⟨dm₃, hw, hso, hf⟩ := writePage_open hnew.isOpen ixFileHdrPage
        (IxFileHdr.init colType colLen).toBytes
      have hnew₃ := hnew.trans hso hf
      rw [after_bind_of_ok (managerWritePage_of_ok hw)]
      obtain ⟨dm₄, hw, hso, hf⟩ := writePage_open hnew₃.isOpen ixLeafHeaderPage
        (IxManager.leafPage ixInitRootPage ixInitRootPage buf)
      have hnew₄ := hnew₃.trans hso hf
      rw [after_bind_of_ok (managerWritePage_of_ok hw)]
      obtain ⟨dm₅, hw, hso, hf⟩ := writePage_open hnew₄.isOpen ixInitRootPage
        (IxManager.leafPage ixLeafHeaderPage ixLeafHeaderPage
          (IxManager.leafPage ixInitRootPage ixInitRootPage buf))
      have hnew₅ := hnew₄.trans hso hf
      rw [after_bind_of_ok (managerWritePage_of_ok hw)]
      have hnew₆ : NewFile b.diskManager (IxManager.getIndexName filename indexNo) fd
          (dm₅.setFd2pageno fd (ixInitNumPages - 1)) :=
        hnew₅.trans ⟨fun _ => rfl, rfl, rfl, rfl, rfl⟩ fun _ _ => rfl
      exact ⟨_, rfl, .inl (hnew₆.close hok hpath hfd (hopen hfd))⟩

/-- Opening a file that is open nowhere, whatever the constructor of the handle then does with header
and counter. -/
theorem after_open (hok : FilesOk b.diskManager) (path : String)
    (hnot : ∀ i, b.diskManager.os.dir.find path = some i → b.diskManager.path2fd path = none →
      b.diskManager.Unopened i) {α : Type} {k : ManagerM α}
    (hk : ∀ b', ∃ dm, k.after b' = { b' with diskManager := dm } ∧
      SameOpen b'.diskManager dm ∧ dm.os.file = b'.diskManager.os.file) :
    ∃ dm, (onDisk (·.openFile fd path) >>= fun _ => k).after b = { b with diskManager := dm } ∧
      (Quiet b.diskManager dm ∨ ∃ i, b.diskManager.os.dir.find path = some i ∧
        b.diskManager.path2fd path = none ∧ 0 ≤ fd ∧
        Opened b.diskManager fd (b.diskManager.os.file i) dm) := by
  cases ho : b.diskManager.openFile fd path with
  | error e => exact ⟨b.diskManager, after_bind_of_error (onDisk_of_error ho), .inl (.refl hok)⟩
  | ok dm₁ =>
    rw [after_bind_of_ok (onDisk_of_ok ho)]
    obtain ⟨dm, hafter, hso, hf⟩ := hk { b with diskManager := dm₁ }
    obtain ⟨i, hi, hp, hopened⟩ := Opened.openFile hok ho
    exact ⟨dm, hafter,
      .inr ⟨i, hi, hp, (openFile_eq_ok ho).1, (hopened (hnot i hi hp)).trans hso hf⟩⟩

theorem after_rmNewHandle (fd : Int) (buf : Fin RmFileHdr.size → UInt8)
    (b : BufferPoolManager DiskManager) :
    ∃ dm, (RmManager.newHandle fd buf).after b = { b with diskManager := dm } ∧
      SameOpen b.diskManager dm ∧ dm.os.file = b.diskManager.os.file := by
  obtain ⟨hso, hf⟩ := readPage_sameOpen b.diskManager fd rmFileHdrPage buf
  unfold RmManager.newHandle
  rcases after_managerReadPage b fd rmFileHdrPage buf with
    ⟨a, b', hr, rfl⟩ | ⟨b', hr, rfl⟩
  · rw [after_bind_of_ok hr]
    exact ⟨_, rfl, hso.trans ⟨fun _ => rfl, rfl, rfl, rfl, rfl⟩, hf⟩
  · rw [after_bind_of_error hr]
    exact ⟨_, rfl, hso, hf⟩

theorem after_ixNewHandle (fd : Int) (buf : Fin IxFileHdr.size → UInt8)
    (b : BufferPoolManager DiskManager) :
    ∃ dm, (IxManager.newHandle fd buf).after b = { b with diskManager := dm } ∧
      SameOpen b.diskManager dm ∧ dm.os.file = b.diskManager.os.file := by
  obtain ⟨hso, hf⟩ := readPage_sameOpen b.diskManager fd ixFileHdrPage buf
  unfold IxManager.newHandle
  rcases after_managerReadPage b fd ixFileHdrPage buf with
    ⟨a, b', hr, rfl⟩ | ⟨b', hr, rfl⟩
  · rw [after_bind_of_ok hr]
    exact ⟨_, rfl, hso.trans ⟨fun _ => rfl, rfl, rfl, rfl, rfl⟩, hf⟩
  · rw [after_bind_of_error hr]
    exact ⟨_, rfl, hso, hf⟩

theorem after_destroyFile (hok : FilesOk b.diskManager) (rc : Int) (path : String) :
    ∃ dm, (onDisk (·.destroyFile rc path)).after b = { b with diskManager := dm } ∧
      Quiet b.diskManager dm := by
  cases hd : b.diskManager.destroyFile rc path with
  | error e => exact ⟨b.diskManager, after_of_error (onDisk_of_error hd), .refl hok⟩
  | ok dm => exact ⟨dm, after_of_ok (onDisk_of_ok hd), .destroyFile hok hd⟩

end Managers

/-! ### The invariant of a session -/

open DiskManager

/-- The tables of open files are in order, the pool invariant holds for the open descriptors, and
page 0 is none of the pages that clients use. -/
structure PoolClient.SessionInv (c : PoolClient) : Prop where
  files : FilesOk c.bpm.diskManager
  pool : c.Inv c.bpm.diskManager c.bpm.diskManager.IsOpen
  page : ∀ {p data}, c.last p = some data → 1 ≤ p.pageNo

theorem PoolInv.rebase {dm₀ : DiskManager} {live : Int → Prop} {b : BufferPoolManager DiskManager}
    {last : PageId → Option PageData} {pending : PageId → Bool}
    (h : PoolInv dm₀ live b last pending) : PoolInv b.diskManager live b last pending :=
  { h with
    distinct := h.sameOpen.distinct h.distinct
    sameOpen := ⟨fun _ => rfl, rfl, rfl, rfl, rfl⟩ }

/-- A step of the pool's clients opens and closes nothing. -/
theorem PoolClient.SessionInv.of_pool {c : PoolClient} {dm : DiskManager} (hf : FilesOk dm)
    (h : c.Inv dm dm.IsOpen) (hp : ∀ {p data}, c.last p = some data → 1 ≤ p.pageNo) :
    c.SessionInv := by
  have hopen : c.bpm.diskManager.IsOpen = dm.IsOpen := by
    funext fd
    exact propext (h.sameOpen.sameInodes.isOpen_iff fd)
  refine ⟨h.sameOpen.filesOk hf, ?_, hp⟩
  rw [hopen]
  exact PoolInv.rebase h

/-- **Following a change of the open files.**  The invariant survives if open files keep their
pages, the pool holds no foreign page under a new descriptor, and no dirty page under a closed
one. -/
theorem PoolClient.SessionInv.follow {c : PoolClient} (h : c.SessionInv) {dm : DiskManager}
    (hfiles : FilesOk dm)
    (hkeep : ∀ p d, c.bpm.diskManager.IsOpen p.fd → dm.IsOpen p.fd → c.last p = some d →
      c.bpm.diskManager.contents p = some d → dm.contents p = some d)
    (hnew : ∀ p f, ¬c.bpm.diskManager.IsOpen p.fd → dm.IsOpen p.fd → c.bpm.pageTable p = some f →
      dm.pageOf p = some (c.bpm.pages f).data)
    (hgone : ∀ p f, c.bpm.diskManager.IsOpen p.fd → ¬dm.IsOpen p.fd → c.bpm.pageTable p = some f →
      (c.bpm.pages f).isDirty = false) :
    (c.follow { c.bpm with diskManager := dm }).SessionInv := by
  have hpool := h.pool
  have hpage : ∀ {p d}, dm.pageOf p = some d → p.InRange ∧ 1 ≤ p.pageNo ∧ dm.contents p = some d := by
    intro p d hp
    unfold pageOf at hp
    split_ifs at hp with hr
    exact ⟨⟨by omega, hr.2⟩, hr.1, hp⟩
  have hold : ∀ {p}, c.bpm.diskManager.IsOpen p.fd → dm.IsOpen p.fd →
      (c.follow { c.bpm with diskManager := dm }).last p = c.last p ∧
      (c.follow { c.bpm with diskManager := dm }).pending p = c.pending p :=
    fun h1 h2 => by simp [PoolClient.follow, h1, h2]
  have hfresh : ∀ {p}, ¬c.bpm.diskManager.IsOpen p.fd → dm.IsOpen p.fd →
      (c.follow { c.bpm with diskManager := dm }).last p = dm.pageOf p ∧
      (c.follow { c.bpm with diskManager := dm }).pending p = false :=
    fun h1 h2 => by simp [PoolClient.follow, h1, h2]
  have hlive : ∀ {p d}, (c.follow { c.bpm with diskManager := dm }).last p = some d →
      dm.IsOpen p.fd := by
    intro p d hp
    by_contra hl
    simp [PoolClient.follow, hl] at hp
  -- every clause is proved for files that stay open and for files that have just been opened
  refine ⟨hfiles,
    { frames := hpool.frames.congr rfl rfl rfl rfl fun _ => ⟨rfl, rfl, id⟩
      distinct := hfiles.distinct
      sameOpen := ⟨fun _ => rfl, rfl, rfl, rfl, rfl⟩
      inRange := fun {p d} hp => ?_
      last_live := hlive
      free_id := hpool.free_id
      resident := fun {p f} hl hp => ?_
      clean := fun {p f} hl hp hd hpe => ?_
      unpinned := fun {p f} hl hp h0 => ?_
      absent := fun {p d} hp hd => ?_
      left_clean := fun {p f} hl hp => ?_ }, fun {p d} hp => ?_⟩
  · by_cases ho : c.bpm.diskManager.IsOpen p.fd
    · rw [(hold ho (hlive hp)).1] at hp
      exact hpool.inRange hp
    · rw [(hfresh ho (hlive hp)).1] at hp
      exact (hpage hp).1
  · by_cases ho : c.bpm.diskManager.IsOpen p.fd
    · rw [(hold ho hl).1]
      exact hpool.resident ho hp
    · rw [(hfresh ho hl).1]
      exact hnew p f ho hl hp
  · by_cases ho : c.bpm.diskManager.IsOpen p.fd
    · rw [(hold ho hl).2] at hpe
      exact hkeep p _ ho hl (hpool.resident ho hp) (hpool.clean ho hp hd hpe)
    · exact (hpage (hnew p f ho hl hp)).2.2
  · by_cases ho : c.bpm.diskManager.IsOpen p.fd
    · rw [(hold ho hl).2]
      exact hpool.unpinned ho hp h0
    · exact (hfresh ho hl).2
  · have hl := hlive hd
    by_cases ho : c.bpm.diskManager.IsOpen p.fd
    · rw [(hold ho hl).1] at hd
      exact hkeep p d ho hl hd (hpool.absent hp hd)
    · rw [(hfresh ho hl).1] at hd
      exact (hpage hd).2.2
  · by_cases ho : c.bpm.diskManager.IsOpen p.fd
    · exact hgone p f ho hl hp
    · exact hpool.left_clean ho hp
  · by_cases ho : c.bpm.diskManager.IsOpen p.fd
    · rw [(hold ho (hlive hp)).1] at hp
      exact h.page hp
    · rw [(hfresh ho (hlive hp)).1] at hp
      exact (hpage hp).2.1

/-- Contents of an open file depend on its bytes only. -/
theorem contents_eq_of_inode {dm dm' : DiskManager} {p : PageId}
    (hi : (dm'.os.fds p.fd).map OpenFile.inode = (dm.os.fds p.fd).map OpenFile.inode)
    (hf : ∀ o, dm.os.fds p.fd = some o → dm'.os.file o.inode = dm.os.file o.inode) :
    dm'.contents p = dm.contents p := by
  unfold contents
  cases ho : dm.os.fds p.fd with
  | none =>
    rw [ho] at hi
    rw [Option.map_eq_none_iff.mp hi]
    rfl
  | some o =>
    rw [ho] at hi
    obtain ⟨o', ho', he⟩ := Option.map_eq_some_iff.mp hi
    rw [ho']
    simp only [Option.bind_some, he, hf o ho]

theorem PoolClient.SessionInv.quiet {c : PoolClient} (h : c.SessionInv) {dm : DiskManager}
    (hq : Quiet c.bpm.diskManager dm) : (c.follow { c.bpm with diskManager := dm }).SessionInv := by
  refine h.follow hq.filesOk (fun p d _ _ _ hc => ?_) (fun p f h1 h2 => ?_) fun p f h1 h2 => ?_
  · rw [contents_eq_of_inode (hq.inodes p.fd) fun o ho => hq.file _ (h.files.open_lt ho)]
    exact hc
  · exact absurd ((hq.inodes.isOpen_iff p.fd).mp h2) h1
  · exact absurd ((hq.inodes.isOpen_iff p.fd).mpr h1) h2

/-- **Opening a file** keeps the invariant if the pool holds no foreign page under its
descriptor. -/
theorem PoolClient.SessionInv.opened {c : PoolClient} (h : c.SessionInv) {dm : DiskManager} {fd : Int}
    {file : ByteFile} (hfd : ¬c.bpm.diskManager.IsOpen fd)
    (ho : Opened c.bpm.diskManager fd file dm) (hm : c.Matches fd file) :
    (c.follow { c.bpm with diskManager := dm }).SessionInv := by
  refine h.follow ho.filesOk (fun p d h1 _ _ hc => ?_) (fun p f h1 h2 hp => ?_) fun p f h1 h2 => ?_
  · have hne : p.fd ≠ fd := fun e => hfd (e ▸ h1)
    rw [contents_eq_of_inode (ho.others p.fd hne) fun o ho' => ho.file _ (h.files.open_lt ho')]
    exact hc
  · have he : p.fd = fd := by
      by_contra hne
      rw [isOpen_iff_map, ho.others p.fd hne, ← isOpen_iff_map] at h2
      exact h1 h2
    obtain ⟨hlo, hhi, hread⟩ := hm p f he hp
    obtain ⟨o, hop, hfile⟩ := ho.self
    rw [pageOf, if_pos ⟨hlo, hhi⟩, contents, he, hop, Option.bind_some, hfile]
    exact hread
  · have hne : p.fd ≠ fd := fun e => hfd (e ▸ h1)
    rw [isOpen_iff_map, ho.others p.fd hne, ← isOpen_iff_map] at h2
    exact absurd h1 h2

/-- A header written to page 0 overwrites no other page. -/
theorem contents_writePage_header {dm dm' : DiskManager} (hd : dm.DistinctFiles) {fd : Int} {n : Nat}
    {data : Fin n → UInt8} (hn : n ≤ pageSize) (hw : dm.writePage fd 0 data = (true, dm'))
    {p : PageId} (hp : 1 ≤ p.pageNo) {d : PageData} (hc : dm.contents p = some d) :
    dm'.contents p = some d := by
  have hoff : pageOffset 0 = 0 := by decide
  unfold DiskManager.writePage at hw
  cases ho : dm.os.fds fd with
  | none => simp [Os.lseek, Os.write, ho] at hw
  | some o =>
    simp only [hoff, Os.lseek, Os.write, ho, le_refl, if_true, Function.update_self, Int.toNat_zero,
      Prod.mk.injEq, true_and, Function.update_idem] at hw
    subst hw
    unfold contents at hc ⊢
    obtain ⟨o', ho', hread⟩ := Option.bind_eq_some_iff.mp hc
    by_cases he : p.fd = fd
    · rw [he, ho] at ho'
      obtain rfl := Option.some.inj ho'
      simp only [he, Function.update_self, Option.bind_some]
      refine ByteFile.read_write_disjoint hread (Or.inr ?_)
      calc 0 + n ≤ 1 * pageSize := by omega
        _ ≤ p.pageNo.toNat * pageSize := Nat.mul_le_mul_right _ (by omega)
    · have hne : o'.inode ≠ o.inode := fun e => he (hd p.fd fd o' o ho' ho e)
      simp [he, ho', hne, hread]

/-- `FlushAllPages` on an open file does not throw, and opens and closes nothing. -/
theorem flushAllPages_open {b : BufferPoolManager DiskManager} {fd : Int}
    (h : b.diskManager.IsOpen fd) :
    ∃ b', flushAllPages fd b = .ok () b' ∧ SameOpen b.diskManager b'.diskManager := by
  have hround : ∀ i ∈ List.range b.poolSize, ∀ s : BufferPoolManager DiskManager,
      SameOpen b.diskManager s.diskManager →
        ∃ s', flushFrame fd i s = .ok () s' ∧ SameOpen b.diskManager s'.diskManager := by
    intro i _ s hs
    unfold flushFrame
    by_cases hid : (s.pages i).id.fd = fd ∧ (s.pages i).id.pageNo ≠ invalidPageId
    · have hs' : s.diskManager.IsOpen (s.pages i).id.fd := by
        rw [hid.1]
        exact (hs.sameInodes.isOpen_iff fd).mpr h
      obtain ⟨dm, hw, hso, -⟩ := writePage_open hs' (s.pages i).id.pageNo (s.pages i).data
      have hw' : BufferPoolManager.writePage (s.pages i).id (s.pages i).data s =
          .ok () { s with diskManager := dm } := writePage_eq_ok_iff.mpr ⟨dm, hw, rfl⟩
      simp only [get_bind_apply, if_pos hid, bind_of_ok hw', set_apply]
      exact ⟨_, rfl, hs.trans hso⟩
    · simp only [get_bind_apply, if_neg hid, pure_apply]
      exact ⟨s, rfl, hs⟩
  exact forM_eq_ok_of_forall hround b ⟨fun _ => rfl, rfl, rfl, rfl, rfl⟩

theorem closeFile_fds (dm : DiskManager) (fd : Int) :
    ((dm.closeFile fd).os.file = dm.os.file) ∧ ∀ fd', (dm.closeFile fd).os.fds fd' = dm.os.fds fd' ∨
      fd' = fd ∧ (dm.closeFile fd).os.fds fd' = none := by
  unfold closeFile
  split
  · split_ifs
    · refine ⟨rfl, fun fd' => ?_⟩
      by_cases he : fd' = fd
      · subst he
        exact Or.inr ⟨rfl, Function.update_self ..⟩
      · exact Or.inl (Function.update_of_ne he ..)
    · exact ⟨rfl, fun _ => Or.inl rfl⟩
  · exact ⟨rfl, fun _ => Or.inl rfl⟩

/-- **Closing a file**: header, `FlushAllPages`, `close_file`. -/
theorem PoolClient.SessionInv.close {c : PoolClient} (h : c.SessionInv) {fd : Int} {n : Nat}
    (hn : n ≤ pageSize) (hdr : Fin n → UInt8) :
    (c.follow ((do
      ManagerM.writePage fd 0 hdr
      flushAllPages fd
      modifyDisk (·.closeFile fd) : ManagerM Unit).after c.bpm)).SessionInv := by
  by_cases hopen : c.bpm.diskManager.IsOpen fd
  · obtain ⟨dm₁, hw, hso₁, -⟩ := writePage_open hopen 0 hdr
    have hopen₁ : dm₁.IsOpen fd := (hso₁.sameInodes.isOpen_iff fd).mpr hopen
    obtain ⟨b₂, hflush, -⟩ := flushAllPages_open
      (show { c.bpm with diskManager := dm₁ }.diskManager.IsOpen fd from hopen₁)
    rw [after_bind_of_ok (managerWritePage_of_ok hw), after_bind_of_ok hflush]
    -- the header write does not touch a page of a client
    have h₁ : (c.follow { c.bpm with diskManager := dm₁ }).SessionInv := by
      refine h.follow (hso₁.filesOk h.files) (fun p d _ _ hp hc => ?_) (fun p f h1 h2 => ?_)
        fun p f h1 h2 => ?_
      · exact contents_writePage_header h.files.distinct hn hw (h.page hp) hc
      · exact absurd ((hso₁.sameInodes.isOpen_iff p.fd).mp h2) h1
      · exact absurd ((hso₁.sameInodes.isOpen_iff p.fd).mpr h1) h2
    obtain ⟨hinv, htable, hpages, -, hall⟩ :=
      PoolInv.flushFrames hopen₁ (fun i hi => List.mem_range.mp hi) h₁.pool hflush
    have h₂ : SessionInv { c.follow { c.bpm with diskManager := dm₁ } with bpm := b₂ } :=
      .of_pool h₁.files hinv h₁.page
    have hopen₂ : ∀ fd', b₂.diskManager.IsOpen fd' ↔ c.bpm.diskManager.IsOpen fd' := fun fd' =>
      (hinv.sameOpen.sameInodes.isOpen_iff fd').trans (hso₁.sameInodes.isOpen_iff fd')
    obtain ⟨hfile, hfds⟩ := closeFile_fds b₂.diskManager fd
    have hfollow : c.follow { b₂ with diskManager := b₂.diskManager.closeFile fd } =
        PoolClient.follow { c.follow { c.bpm with diskManager := dm₁ } with bpm := b₂ }
          { b₂ with diskManager := b₂.diskManager.closeFile fd } := by
      unfold PoolClient.follow
      simp only [PoolClient.mk.injEq, true_and, hopen₂, hso₁.sameInodes.isOpen_iff]
      constructor
      · funext p
        split_ifs <;> rfl
      · funext p
        by_cases ho : c.bpm.diskManager.IsOpen p.fd <;> simp [ho]
    show (c.follow { b₂ with diskManager := b₂.diskManager.closeFile fd }).SessionInv
    rw [hfollow]
    refine h₂.follow (h₂.files.close fd) (fun p d h1 h2 _ hc => ?_) (fun p f h1 h2 => ?_)
      fun p f h1 h2 hp => ?_
    · rw [contents_eq_of_inode _ fun o _ => congrFun hfile _]
      · exact hc
      · rcases hfds p.fd with he | ⟨-, he⟩
        · exact congrArg _ he
        · simp [DiskManager.IsOpen, he] at h2
    · rcases hfds p.fd with he | ⟨-, he⟩
      · unfold DiskManager.IsOpen at h1 h2
        rw [he] at h2
        exact absurd h2 h1
      · simp [DiskManager.IsOpen, he] at h2
    · rcases hfds p.fd with he | ⟨hpfd, -⟩
      · unfold DiskManager.IsOpen at h1 h2
        rw [he] at h2
        exact absurd h1 h2
      · have hp₁ : c.bpm.pageTable p = some f := htable ▸ hp
        exact (hall p f hp₁ (List.mem_range.mpr (h.pool.frames.table hp₁).1) hpfd).1
  · rw [after_bind_of_error (managerWritePage_of_error (writePage_closed hopen 0 hdr))]
    exact h.quiet (.refl h.files)

/-! ### Steps and runs of a session -/

/-- Client calls keep page 0 out of the pool. -/
theorem clientStep_page {c c' : PoolClient} {op : ClientOp} (h : c.SessionInv)
    (hopen : c.bpm.diskManager.IsOpen op.fd)
    (hno : ∀ fd, op = .newPage fd → 1 ≤ c.bpm.diskManager.fd2pageno fd)
    (hstep : ClientStep c op c') {p : PageId} {data : PageData} (hp : c'.last p = some data) :
    1 ≤ p.pageNo := by
  -- only `NewPage` and a write change what is expected of a page
  have hupdate : ∀ {q x}, 1 ≤ q.pageNo → Function.update c.last q (some x) p = some data →
      1 ≤ p.pageNo := by
    intro q x hq hp
    by_cases he : p = q
    · rw [he]
      exact hq
    · rw [Function.update_of_ne he] at hp
      exact h.page hp
  cases op with
  | newPage fd =>
    obtain ⟨halloc, r, b', hr, rfl⟩ := hstep
    rcases newPage_cases h.pool.frames (halloc.fresh h.pool hopen) hr with
      ⟨-, -, rfl, rfl⟩ | ⟨f, d, -, rfl, -, rfl⟩
    · exact h.page hp
    · exact hupdate (hno fd rfl) hp
  | fetchPage pageId =>
    obtain ⟨-, r, b', -, rfl⟩ := hstep
    exact h.page hp
  | unpinPage pageId isDirty =>
    obtain ⟨-, r, b', -, rfl⟩ := hstep
    exact h.page hp
  | flushPage pageId =>
    obtain ⟨r, b', -, rfl⟩ := hstep
    exact h.page hp
  | flushAllPages fd =>
    obtain ⟨b', -, rfl⟩ := hstep
    exact h.page hp
  | write pageId data' =>
    obtain ⟨f, hf, -, rfl⟩ := hstep
    exact hupdate (h.page (h.pool.resident hopen hf)) hp

/-- **Every step of a session that opens no file over foreign pages keeps the invariant.** -/
theorem sessionStep_inv {c c' : PoolClient} {op : SessionOp} (h : c.SessionInv)
    (hstep : SessionStep c op c') (hclean : OpensClean c op) : c'.SessionInv := by
  cases op with
  | createFile fd₀ fd filename recordSize =>
    obtain ⟨hopen, rfl⟩ := hstep
    obtain ⟨dm, hexec, hq⟩ := after_createFile h.files (hopen fd rfl) filename recordSize
    show (c.follow ((RmManager.createFile fd₀ fd filename recordSize).after c.bpm)).SessionInv
    rw [hexec]
    exact h.quiet hq
  | openFile fd buf filename =>
    obtain ⟨hopen, rfl⟩ := hstep
    obtain ⟨dm, hexec, hcase⟩ := after_open h.files filename
      (fun i hi hp => (hclean i hi hp).1) (after_rmNewHandle fd buf)
    show (c.follow ((RmManager.openFile fd buf filename).after c.bpm)).SessionInv
    unfold RmManager.openFile
    rw [hexec]
    rcases hcase with hq | ⟨i, hi, hp, hfd, ho⟩
    · exact h.quiet hq
    · exact h.opened (hopen fd rfl hfd) ho (hclean i hi hp).2
  | closeFile fileHandle =>
    obtain ⟨-, rfl⟩ := hstep
    exact h.close (by decide) fileHandle.fileHdr.toBytes
  | destroyFile rc filename =>
    obtain ⟨-, rfl⟩ := hstep
    obtain ⟨dm, hexec, hq⟩ := after_destroyFile h.files rc filename
    show (c.follow ((RmManager.destroyFile rc filename).after c.bpm)).SessionInv
    unfold RmManager.destroyFile
    rw [hexec]
    exact h.quiet hq
  | createIndex fd₀ fd buf filename indexNo colType colLen =>
    obtain ⟨hopen, rfl⟩ := hstep
    obtain ⟨dm, hexec, hcase⟩ :=
      after_createIndex h.files (hopen fd rfl) buf filename indexNo colType colLen
    show (c.follow ((IxManager.createIndex fd₀ fd buf filename indexNo colType colLen).after
      c.bpm)).SessionInv
    rw [hexec]
    rcases hcase with hq | ⟨hthrow, hfd, ho⟩
    · exact h.quiet hq
    · exact h.opened hfd ho (hclean hthrow)
  | openIndex fd buf filename indexNo =>
    obtain ⟨hopen, rfl⟩ := hstep
    obtain ⟨dm, hexec, hcase⟩ := after_open h.files _ (fun i hi hp => (hclean i hi hp).1)
      (after_ixNewHandle fd buf)
    show (c.follow ((IxManager.openIndex fd buf filename indexNo).after c.bpm)).SessionInv
    unfold IxManager.openIndex
    rw [hexec]
    rcases hcase with hq | ⟨i, hi, hp, hfd, ho⟩
    · exact h.quiet hq
    · exact h.opened (hopen fd rfl hfd) ho (hclean i hi hp).2
  | closeIndex fd fileHdr =>
    obtain ⟨-, rfl⟩ := hstep
    exact h.close (by decide) fileHdr.toBytes
  | destroyIndex rc filename indexNo =>
    obtain ⟨-, rfl⟩ := hstep
    obtain ⟨dm, hexec, hq⟩ :=
      after_destroyFile h.files rc (IxManager.getIndexName filename indexNo)
    show (c.follow ((IxManager.destroyIndex rc filename indexNo).after c.bpm)).SessionInv
    unfold IxManager.destroyIndex
    rw [hexec]
    exact h.quiet hq
  | client op =>
    -- a client call touches the page it names and no file
    obtain ⟨hopen, hno, hstep⟩ := hstep
    exact .of_pool h.files (clientStep_served h.pool hopen hstep).1 (clientStep_page h hopen hno hstep)

/-- In a state that satisfies the invariant, open files see their own bytes. -/
theorem PoolClient.SessionInv.ownBytes {c : PoolClient} (h : c.SessionInv) : c.OwnBytes := by
  intro fd hopen
  constructor
  · intro p f b' _ hlast hfetch
    exact (fetchPage_served h.pool hlast hfetch).2.2 f rfl
  · intro f hf hfd hid
    exact h.pool.resident (hfd ▸ hopen) (h.pool.mapped_of_valid hf hid)

/-- A process that has just started on a set of files. -/
def PoolClient.start (poolSize : Nat) (fd₀ : Nat → Int) (os : Os) : PoolClient :=
  ⟨.new poolSize fd₀ (.new os), fun _ => none, fun _ => false⟩

/-- **Open files see their own bytes.**  In every session of a process that starts with no file
open, if every file is opened while it is open nowhere, and under a descriptor for which the pool
holds no foreign page, then in every state reached a fetched page holds its file's bytes and
`FlushAllPages` writes only pages of the file. -/
theorem sessions_own_bytes (poolSize : Nat) (fd₀ : Nat → Int) (os : Os)
    (hlt : ∀ {path i}, os.dir.find path = some i → i < os.nextInode) (hfds : ∀ fd, os.fds fd = none)
    (run : List (SessionOp × PoolClient))
    (hrun : Run SessionStep (.start poolSize fd₀ os) run)
    (hclean : Along (fun c op _ => OpensClean c op) (.start poolSize fd₀ os) run) :
    ∀ e ∈ run, e.2.OwnBytes := by
  have hstart : (PoolClient.start poolSize fd₀ os).SessionInv := by
    have hfiles : FilesOk (.new os) := .new os hlt hfds
    exact ⟨hfiles, PoolInv.new hfiles.distinct (by simp [PoolClient.start])
      (by simp [PoolClient.start]) poolSize fd₀, by simp [PoolClient.start]⟩
  have hall := (hrun.along_of_invariant (Q := fun _ _ _ => True)
    (fun _ _ _ h hstep hC => ⟨sessionStep_inv h hstep hC, trivial⟩) hstart hclean).1
  exact fun e he => (hall e he).ownBytes

/-! ### Descriptors that a call leaves alone -/

/-- All descriptors but one are as they were. -/
def OnlyFd (fd : Int) (b b' : BufferPoolManager DiskManager) : Prop :=
  ∀ fd', fd' ≠ fd → b'.diskManager.os.fds fd' = b.diskManager.os.fds fd'

namespace OnlyFd

variable {b b' b'' : BufferPoolManager DiskManager} {fd : Int}

theorem refl : OnlyFd fd b b := fun _ _ => rfl

theorem trans (h : OnlyFd fd b b') (h' : OnlyFd fd b' b'') : OnlyFd fd b b'' :=
  fun fd' hne => (h' fd' hne).trans (h fd' hne)

theorem onDisk {f : DiskManager → Except RedBaseError DiskManager}
    (h : ∀ dm, f b.diskManager = .ok dm → ∀ fd', fd' ≠ fd → dm.os.fds fd' = b.diskManager.os.fds fd') :
    OnlyFd fd b ((ManagerM.onDisk f).after b) := by
  cases hf : f b.diskManager with
  | ok dm =>
    rw [after_of_ok (onDisk_of_ok hf)]
    exact h dm hf
  | error e =>
    rw [after_of_error (onDisk_of_error hf)]
    exact refl

theorem createFile (fd₀ : Int) (path : String) :
    OnlyFd fd b ((ManagerM.onDisk (·.createFile fd₀ path)).after b) := by
  apply onDisk
  intro dm hc fd' _
  unfold DiskManager.createFile at hc
  split_ifs at hc
  cases hc
  rfl

theorem openFile (path : String) :
    OnlyFd fd b ((ManagerM.onDisk (·.openFile fd path)).after b) := by
  apply onDisk
  intro dm ho fd' hne
  obtain ⟨-, i, -, -, rfl⟩ := openFile_eq_ok ho
  exact Function.update_of_ne hne ..

theorem writePage (pageNo : Int) {n : Nat} (data : Fin n → UInt8) :
    OnlyFd fd b ((ManagerM.writePage fd pageNo data).after b) := by
  intro fd' hne
  cases ho : b.diskManager.os.fds fd with
  | none =>
    have hopen : ¬b.diskManager.IsOpen fd := by simp [DiskManager.IsOpen, ho]
    rw [after_of_error (managerWritePage_of_error (writePage_closed hopen ..))]
  | some o =>
    obtain ⟨pos, hseek⟩ := lseek_eq ho (pageOffset pageNo)
    have hw : ∃ dm, b.diskManager.writePage fd pageNo data = (true, dm) ∧
        dm.os.fds fd' = b.diskManager.os.fds fd' := by
      simp only [DiskManager.writePage, hseek, Os.write, Function.update_self]
      exact ⟨_, rfl, by simp [hne]⟩
    obtain ⟨dm, hw, hfds⟩ := hw
    rw [after_of_ok (managerWritePage_of_ok hw)]
    exact hfds

theorem readPage (pageNo : Int) {n : Nat} (buf : Fin n → UInt8) :
    OnlyFd fd b ((ManagerM.readPage fd pageNo buf).after b) := by
  have hfds : ∀ fd', fd' ≠ fd →
      (b.diskManager.readPage fd pageNo buf).2.2.os.fds fd' = b.diskManager.os.fds fd' := by
    intro fd' hne
    cases ho : b.diskManager.os.fds fd with
    | none => simp [DiskManager.readPage, Os.lseek, Os.read, ho]
    | some o =>
      obtain ⟨pos, hseek⟩ := lseek_eq ho (pageOffset pageNo)
      simp [DiskManager.readPage, hseek, Os.read, hne]
  rcases after_managerReadPage b fd pageNo buf with ⟨a, b', hr, rfl⟩ | ⟨b', hr, rfl⟩
  · rw [after_of_ok hr]
    exact hfds
  · rw [after_of_error hr]
    exact hfds

theorem closeFile : OnlyFd fd b ((modifyDisk (·.closeFile fd)).after b) := fun fd' hne =>
  ((closeFile_fds b.diskManager fd).2 fd').resolve_right fun h => hne h.1

/-- Creating a record file opens and closes one descriptor. -/
theorem rmCreateFile (fd₀ : Int) (filename : String) (recordSize : Int) :
    OnlyFd fd b ((RmManager.createFile fd₀ fd filename recordSize).after b) := by
  unfold RmManager.createFile
  split_ifs
  · exact refl
  · refine after_bind_of_trans (R := OnlyFd fd) (fun _ _ _ => trans) (createFile fd₀ filename) ?_
    intro _ b₁ _
    refine after_bind_of_trans (R := OnlyFd fd) (fun _ _ _ => trans) (openFile filename) ?_
    intro _ b₂ _
    refine after_bind_of_trans (R := OnlyFd fd) (fun _ _ _ => trans) (writePage _ _) ?_
    intro _ b₃ _
    exact closeFile

/-- Opening a record file opens one descriptor. -/
theorem rmOpenFile (buf : Fin RmFileHdr.size → UInt8) (filename : String) :
    OnlyFd fd b ((RmManager.openFile fd buf filename).after b) := by
  unfold RmManager.openFile RmManager.newHandle
  refine after_bind_of_trans (R := OnlyFd fd) (fun _ _ _ => trans) (openFile filename) ?_
  intro _ b₁ _
  refine after_bind_of_trans (R := OnlyFd fd) (fun _ _ _ => trans) (readPage _ _) ?_
  intro _ b₂ _ fd' _
  rfl

end OnlyFd

/-- The header of a file of four-byte records with one record page. -/
def onePage : RmFileHdr := { RmFileHdr.init 4 with numPages := 2 }

/-- Two files are open at once, one gets a page and is closed: every open met an empty pool. -/
theorem sessions_own_bytes_two_files :
    ∃ run : List (SessionOp × PoolClient),
      run.map Prod.fst = [.createFile 3 3 "a" 4, .createFile 3 3 "b" 4,
        .openFile 3 (fun _ => 0) "a", .openFile 4 (fun _ => 0) "b", .client (.newPage 3),
        .client (.unpinPage ⟨3, 1⟩ true), .closeFile ⟨3, onePage⟩] ∧
      Run SessionStep (.start 1 (fun _ => 0) noFiles) run ∧ ∀ e ∈ run, e.2.OwnBytes := by
  have hlt : ∀ {path i}, noFiles.dir.find path = some i → i < noFiles.nextInode := by
    simp [noFiles, Directory.find]
  have hrun : Run SessionStep (.start 1 (fun _ => 0) noFiles)
      [(.createFile 3 3 "a" 4, _), (.createFile 3 3 "b" 4, _), (.openFile 3 (fun _ => 0) "a", _),
        (.openFile 4 (fun _ => 0) "b", _), (.client (.newPage 3), _),
        (.client (.unpinPage ⟨3, 1⟩ true), _), (.closeFile ⟨3, onePage⟩, _)] :=
    .cons ⟨by rintro fd ⟨⟩ _; decide +kernel, rfl⟩
      (.cons ⟨by rintro fd ⟨⟩ _; decide +kernel, rfl⟩
        (.cons ⟨by rintro fd ⟨⟩ _; decide +kernel, rfl⟩
          (.cons ⟨by rintro fd ⟨⟩ _; decide +kernel, rfl⟩
            (.cons ⟨by decide +kernel, by rintro fd ⟨⟩; decide +kernel,
                ⟨⟨by decide +kernel, by decide +kernel⟩, by decide +kernel⟩, some (0, ⟨3, 1⟩), _,
                eq_ok_of_value (by decide +kernel), rfl⟩
              (.cons ⟨by decide +kernel, by rintro fd ⟨⟩, fun _ _ _ => Or.inl rfl, true, _,
                  eq_ok_of_value (by decide +kernel), rfl⟩
                (.cons ⟨by rintro fd ⟨⟩, rfl⟩ (.nil _)))))))
  refine ⟨_, rfl, hrun, sessions_own_bytes 1 (fun _ => 0) noFiles hlt (fun _ => rfl) _ hrun ?_⟩
  -- no descriptor is open when `a` is opened, and descriptor 3 is when `b` is
  have hnone : ∀ {fd}, fd ≠ 3 →
      ((RmManager.createFile 3 3 "b" 4).after ((RmManager.createFile 3 3 "a" 4).after
        (PoolClient.start 1 (fun _ => 0) noFiles).bpm)).diskManager.os.fds fd = none := fun hne =>
    ((OnlyFd.rmCreateFile 3 "a" 4).trans (OnlyFd.rmCreateFile 3 "b" 4)) _ hne
  refine ⟨trivial, trivial, fun i hi _ => ⟨fun fd o ho => ?_, fun p f _ hp => ?_⟩,
    fun i hi _ => ⟨fun fd o ho => ?_, fun p f _ hp => ?_⟩, trivial, trivial, trivial, trivial⟩
  · by_cases hfd : fd = 3
    · subst hfd
      cases ho
    · cases (hnone hfd).symm.trans ho
  · cases hp
  · by_cases hfd : fd = 3
    · subst hfd
      cases ho
      cases hi
      decide
    · cases ((OnlyFd.rmOpenFile (fun _ => 0) "a" fd hfd).trans (hnone hfd)).symm.trans ho
  · cases hp

/-- **A reused descriptor shows another file's page.**  Page 1 of `a` stays in the pool under
descriptor 3; `b`, whose page 1 was written under descriptor 4, is opened under descriptor 3, and
`FetchPage` returns the page of `a`. -/
theorem not_own_bytes_reused_fd :
    ∃ run : List (SessionOp × PoolClient),
      run.map Prod.fst = [.createFile 3 3 "a" 4, .createFile 3 3 "b" 4,
        .openFile 3 (fun _ => 0) "a", .client (.newPage 3), .client (.write ⟨3, 1⟩ fun _ => 7),
        .client (.unpinPage ⟨3, 1⟩ true), .closeFile ⟨3, onePage⟩,
        .openFile 4 (fun _ => 0) "b", .client (.newPage 4), .client (.write ⟨4, 1⟩ fun _ => 9),
        .client (.unpinPage ⟨4, 1⟩ true), .closeFile ⟨4, onePage⟩,
        .openFile 3 (fun _ => 0) "b"] ∧
      Run SessionStep (.start 2 (fun _ => 0) noFiles) run ∧ ¬∀ e ∈ run, e.2.OwnBytes := by
  have hrun : Run SessionStep (.start 2 (fun _ => 0) noFiles)
      [(.createFile 3 3 "a" 4, _), (.createFile 3 3 "b" 4, _),
        (.openFile 3 (fun _ => 0) "a", _), (.client (.newPage 3), _),
        (.client (.write ⟨3, 1⟩ fun _ => 7), _), (.client (.unpinPage ⟨3, 1⟩ true), _),
        (.closeFile ⟨3, onePage⟩, _), (.openFile 4 (fun _ => 0) "b", _),
        (.client (.newPage 4), _), (.client (.write ⟨4, 1⟩ fun _ => 9), _),
        (.client (.unpinPage ⟨4, 1⟩ true), _), (.closeFile ⟨4, onePage⟩, _),
        (.openFile 3 (fun _ => 0) "b", _)] :=
    .cons ⟨by rintro fd ⟨⟩ _; decide +kernel, rfl⟩
      (.cons ⟨by rintro fd ⟨⟩ _; decide +kernel, rfl⟩
        (.cons ⟨by rintro fd ⟨⟩ _; decide +kernel, rfl⟩
          (.cons ⟨by decide +kernel, by rintro fd ⟨⟩; decide +kernel,
              ⟨⟨by decide +kernel, by decide +kernel⟩, by decide +kernel⟩, some (0, ⟨3, 1⟩), _,
              eq_ok_of_value (by decide +kernel), rfl⟩
            (.cons ⟨by decide +kernel, by rintro fd ⟨⟩, 0, by decide +kernel, by decide +kernel, rfl⟩
              (.cons ⟨by decide +kernel, by rintro fd ⟨⟩, fun _ _ _ => Or.inl rfl, true, _,
                  eq_ok_of_value (by decide +kernel), rfl⟩
                (.cons ⟨by rintro fd ⟨⟩, rfl⟩
                  (.cons ⟨by rintro fd ⟨⟩ _; decide +kernel, rfl⟩
                    (.cons ⟨by decide +kernel, by rintro fd ⟨⟩; decide +kernel,
                        ⟨⟨by decide +kernel, by decide +kernel⟩, by decide +kernel⟩,
                        some (1, ⟨4, 1⟩), _, eq_ok_of_value (by decide +kernel), rfl⟩
                      (.cons ⟨by decide +kernel, by rintro fd ⟨⟩, 1, by decide +kernel,
                          by decide +kernel, rfl⟩
                        (.cons ⟨by decide +kernel, by rintro fd ⟨⟩, fun _ _ _ => Or.inl rfl, true,
                            _, eq_ok_of_value (by decide +kernel), rfl⟩
                          (.cons ⟨by rintro fd ⟨⟩, rfl⟩
                            (.cons ⟨by rintro fd ⟨⟩ _; decide +kernel, rfl⟩ (.nil _)))))))))))))
  refine ⟨_, rfl, hrun, fun hall => ?_⟩
  have hown := hall _ (List.getLast_mem (by simp))
  have hfetch := (hown 3 (by decide +kernel)).1 ⟨3, 1⟩ 0 _ rfl (by decide +kernel)
    (eq_ok_of_value (by decide +kernel))
  have hbyte := congrArg (Option.map fun data : PageData => data 0) hfetch
  exact absurd hbyte (by decide +kernel)

end Rucbase
