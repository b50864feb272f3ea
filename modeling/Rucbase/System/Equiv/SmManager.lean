import Rucbase.Lib.Run
import Rucbase.Storage.Equiv.KeptFiles
import Rucbase.System.SmManager
import Mathlib.Data.List.Basic

/-!
# The catalog and the open handles

`create_table`, `create_index` and `drop_index` change the catalog, the two maps of handles, a
column flag and the directory one after another, with calls in between that may throw.  `InStep`
says that the catalog and the handles agree.

`inStep_along` is the condition under which every call keeps them in step and every call that throws
has changed nothing: `drop_index` is called for existing tables only (`db_.tabs_[tab_name]` enters a
table otherwise), and once the file of a table or an index has been created nothing throws any more.
-/

namespace Rucbase

open Std (ExtTreeMap)
open BufferPoolManager EStateM ManagerM

/-! ### Files that come and go -/

namespace DiskManager

variable {dm dm' dm₁ dm₂ : DiskManager} {fd : Int} {path : String}

/-- The files of `dm` and one more, open under `fd`. -/
structure OneMore (dm : DiskManager) (path : String) (fd : Int) (dm' : DiskManager) : Prop where
  filesOk : FilesOk dm'
  dir : ∃ i, dm'.os.dir = dm.os.dir.set path (some i)
  path2fd : dm'.path2fd = Function.update dm.path2fd path (some fd)
  fd2path : dm'.fd2path = Function.update dm.fd2path fd (some path)

/-- A new file of at least `n` bytes, closed again. -/
structure Made (dm : DiskManager) (path : String) (n : Nat) (dm' : DiskManager) : Prop where
  filesOk : FilesOk dm'
  dir : dm'.os.dir = dm.os.dir.set path (some dm.os.nextInode)
  path2fd : dm'.path2fd = dm.path2fd
  fd2path : dm'.fd2path = dm.fd2path
  unopened : dm'.Unopened dm.os.nextInode
  size : n ≤ (dm'.os.file dm.os.nextInode).size

theorem OneMore.trans (h : OneMore dm path fd dm₁) (h' : SameOpen dm₁ dm₂) :
    OneMore dm path fd dm₂ where
  filesOk := h'.filesOk h.filesOk
  dir := by
    obtain ⟨i, hi⟩ := h.dir
    exact ⟨i, h'.dir.trans hi⟩
  path2fd := h'.path2fd.trans h.path2fd
  fd2path := h'.fd2path.trans h.fd2path

/-- A write leaves the file at least as long as it was; a header is there after it was written. -/
theorem writePage_size {o : OpenFile} (ho : dm.os.fds fd = some o) {pageNo : Int} {n : Nat}
    {data : Fin n → UInt8} (h : dm.writePage fd pageNo data = (true, dm')) :
    (dm.os.file o.inode).size ≤ (dm'.os.file o.inode).size ∧
      n ≤ (dm'.os.file o.inode).size := by
  obtain ⟨pos, hseek⟩ := lseek_eq ho (pageOffset pageNo)
  unfold writePage at h
  simp only [hseek, Os.write, Function.update_self, Prod.mk.injEq, true_and] at h
  subst h
  simp only [Function.update_self, ByteFile.write]
  omega

/-- The header of a file that is long enough can be read. -/
theorem readPage_header {o : OpenFile} (ho : dm.os.fds fd = some o) {n : Nat}
    (hn : n ≤ (dm.os.file o.inode).size) (buf : Fin n → UInt8) :
    (dm.readPage fd 0 buf).1 = true := by
  have hoff : pageOffset 0 = 0 := by decide
  simp only [readPage, hoff, Os.lseek, ho, le_refl, if_true, Os.read, Function.update_self,
    Int.toNat_zero, Nat.sub_zero, beq_iff_eq]
  omega

theorem createFile_eq_ok {fd₀ : Int} (hdir : dm.os.dir.find path = none) (hfd₀ : 0 ≤ fd₀) :
    ∃ dm', dm.createFile fd₀ path = .ok dm' := by
  unfold createFile isFile
  rw [hdir, if_neg (by simp), if_neg (by omega)]
  exact ⟨_, rfl⟩

/-- `create_file` refuses a path that names a file, and fails when `open` does. -/
theorem createFile_eq_error {fd₀ : Int} (h : dm.os.dir.find path ≠ none ∨ fd₀ < 0) :
    ∃ e, dm.createFile fd₀ path = .error e := by
  unfold createFile isFile
  by_cases hp : (dm.os.dir.find path).isSome = true
  · rw [if_pos hp]
    exact ⟨_, rfl⟩
  · have hfd : fd₀ < 0 := h.resolve_left fun h => hp (Option.isSome_iff_ne_none.mpr h)
    rw [if_neg hp, if_pos hfd]
    exact ⟨_, rfl⟩

theorem openFile_of_some {i : Nat} (hdir : dm.os.dir.find path = some i) (hp : dm.path2fd path = none)
    (hfd : 0 ≤ fd) : ∃ dm', dm.openFile fd path = .ok dm' := by
  unfold openFile
  rw [hdir, hp]
  simp only
  rw [if_neg (by omega)]
  exact ⟨_, rfl⟩

/-- A descriptor that is not in use is not listed. -/
theorem FilesOk.fd2path_eq_none (h : FilesOk dm) (hfd : ¬dm.IsOpen fd) : dm.fd2path fd = none := by
  cases hp : dm.fd2path fd with
  | none => rfl
  | some q =>
    obtain ⟨o, ho⟩ := h.listed_open hp
    exact absurd (by simp [DiskManager.IsOpen, ho]) hfd

/-- A new file is closed after its header was written. -/
theorem NewFile.made (h : NewFile dm path fd dm₂) (hok : FilesOk dm)
    (hpath : dm.path2fd path = none) (hfd : 0 ≤ fd) (hopen : ¬dm.IsOpen fd) {n : Nat}
    (hn : n ≤ (dm₂.os.file dm.os.nextInode).size) : Made dm path n (dm₂.closeFile fd) := by
  have hclose : dm₂.closeFile fd =
      { dm₂ with
        os := { dm₂.os with fds := Function.update dm₂.os.fds fd none }
        path2fd := Function.update dm₂.path2fd path none
        fd2path := Function.update dm₂.fd2path fd none } := by
    simp [closeFile, h.fd2path, hfd]
  have hquiet := h.close hok hpath hfd hopen
  refine ⟨hquiet.filesOk, ?_, ?_, ?_, hquiet.inodes.unopened hok.unopened_next, ?_⟩
  · rw [hclose]
    exact h.dir
  · rw [hclose, h.path2fd, Function.update_idem]
    exact Function.update_eq_self_iff.mpr hpath.symm
  · rw [hclose, h.fd2path, Function.update_idem]
    exact Function.update_eq_self_iff.mpr (hok.fd2path_eq_none hopen).symm
  · rw [hclose]
    exact hn

/-- The file that was made is opened. -/
theorem Made.open {n : Nat} (h : Made dm path n dm₁) (hpath : dm.path2fd path = none)
    (hfd : 0 ≤ fd) : ∃ dm₂, dm₁.openFile fd path = .ok dm₂ ∧ OneMore dm path fd dm₂ ∧
      ∃ o, dm₂.os.fds fd = some o ∧ n ≤ (dm₂.os.file o.inode).size := by
  have hdir : dm₁.os.dir.find path = some dm.os.nextInode := by simp [h.dir]
  have hnone : dm₁.path2fd path = none := by rw [h.path2fd, hpath]
  obtain ⟨dm₂, ho⟩ := openFile_of_some hdir hnone hfd
  obtain ⟨-, i, hi, -, rfl⟩ := openFile_eq_ok ho
  rw [hdir] at hi
  obtain rfl := Option.some.inj hi
  refine ⟨_, ho, ⟨h.filesOk.open hdir hnone h.unopened, ⟨_, h.dir⟩, ?_, ?_⟩, _,
    Function.update_self .., h.size⟩
  · rw [h.path2fd]
  · rw [h.fd2path]

/-- What is listed after a descriptor was closed was listed before, under another descriptor. -/
theorem closeFile_listed {fd' : Int} (hpath : (dm.closeFile fd).path2fd path = some fd')
    (hlist : dm.fd2path fd' = some path) (hfd' : 0 ≤ fd') :
    fd' ≠ fd ∧ (dm.closeFile fd).fd2path fd' = some path := by
  have hne : fd' ≠ fd := by
    rintro rfl
    simp [closeFile, hlist, hfd'] at hpath
  refine ⟨hne, ?_⟩
  unfold closeFile
  split
  · split_ifs
    · simp [hne, hlist]
    · exact hlist
  · exact hlist

theorem closeFile_path2fd {fd' : Int} (h : (dm.closeFile fd).path2fd path = some fd') :
    dm.path2fd path = some fd' := by
  unfold closeFile at h
  split at h
  · split_ifs at h
    · simp only [Function.update_apply] at h
      split_ifs at h
      exact h
    · exact h
  · exact h

end DiskManager

section Managers

open DiskManager

variable {b : BufferPoolManager DiskManager} {dm : DiskManager} {fd₀ fd fd' : Int}

/-- `RmManager::create_file` succeeds. -/
theorem rmCreateFile_eq_ok (hok : FilesOk b.diskManager) {filename : String} {recordSize : Int}
    (hsize : 1 ≤ recordSize ∧ recordSize ≤ rmMaxRecordSize)
    (hdir : b.diskManager.os.dir.find filename = none) (hpath : b.diskManager.path2fd filename = none)
    (hfd₀ : 0 ≤ fd₀) (hfd : 0 ≤ fd) (hopen : ¬b.diskManager.IsOpen fd) :
    ∃ dm, RmManager.createFile fd₀ fd filename recordSize b = .ok () { b with diskManager := dm } ∧
      Made b.diskManager filename RmFileHdr.size dm := by
  obtain ⟨dm₁, hc⟩ := createFile_eq_ok hdir hfd₀
  have hdir₁ : dm₁.os.dir.find filename = some b.diskManager.os.nextInode ∧
      dm₁.path2fd = b.diskManager.path2fd := by
    unfold DiskManager.createFile at hc
    split_ifs at hc
    cases hc
    exact ⟨Directory.find_set_self, rfl⟩
  obtain ⟨dm₂, ho⟩ := openFile_of_some hdir₁.1 (hdir₁.2 ▸ hpath) hfd
  obtain ⟨hnew, -, -, -, -⟩ := NewFile.create hc ho
  obtain ⟨dm₃, hw, hso, hf⟩ := writePage_open hnew.isOpen rmFileHdrPage
    (RmFileHdr.init recordSize).toBytes
  obtain ⟨o, ho₂, hi⟩ := Option.map_eq_some_iff.mp hnew.self
  have hn := (writePage_size ho₂ hw).2
  rw [hi] at hn
  refine ⟨dm₃.closeFile fd, ?_, (hnew.trans hso hf).made hok hpath hfd hopen hn⟩
  unfold RmManager.createFile
  rw [if_neg (by omega)]
  beta_reduce
  rw [bind_of_ok (onDisk_of_ok hc), bind_of_ok (onDisk_of_ok ho),
    bind_of_ok (managerWritePage_of_ok hw)]
  rfl

/-- `RmManager::create_file` throws before there is a file. -/
theorem rmCreateFile_eq_error {filename : String} {recordSize : Int}
    (h : (recordSize < 1 ∨ recordSize > rmMaxRecordSize) ∨
      b.diskManager.os.dir.find filename ≠ none ∨ fd₀ < 0) :
    ∃ e, RmManager.createFile fd₀ fd filename recordSize b = .error e b := by
  unfold RmManager.createFile
  by_cases hsize : recordSize < 1 ∨ recordSize > rmMaxRecordSize
  · rw [if_pos hsize]
    exact ⟨_, rfl⟩
  · obtain ⟨e, he⟩ := createFile_eq_error (h.resolve_left hsize)
    rw [if_neg hsize]
    exact ⟨e, bind_of_error (onDisk_of_error he)⟩

/-- Reading a header succeeds when the file is long enough. -/
theorem managerReadPage_header {o : OpenFile} (ho : b.diskManager.os.fds fd = some o) {n : Nat}
    (hn : n ≤ (b.diskManager.os.file o.inode).size) (buf : Fin n → UInt8) :
    ∃ a dm, ManagerM.readPage fd 0 buf b = .ok a { b with diskManager := dm } ∧
      SameOpen b.diskManager dm := by
  have hr := readPage_header ho hn buf
  refine ⟨(b.diskManager.readPage fd 0 buf).2.1, (b.diskManager.readPage fd 0 buf).2.2, ?_,
    (readPage_sameOpen b.diskManager fd 0 buf).1⟩
  simp [ManagerM.readPage, hr]

/-- `RmManager::open_file` opens the file that was made. -/
theorem rmOpenFile_eq_ok {filename : String} (hmade : Made dm filename RmFileHdr.size b.diskManager)
    (hpath : dm.path2fd filename = none) (hfd : 0 ≤ fd) (buf : Fin RmFileHdr.size → UInt8) :
    ∃ fileHandle dm', RmManager.openFile fd buf filename b =
      .ok fileHandle { b with diskManager := dm' } ∧ OneMore dm filename fd dm' := by
  obtain ⟨dm₂, ho, hmore, o, ho₂, hn⟩ := hmade.open hpath hfd
  obtain ⟨a, dm₃, hr, hso⟩ := managerReadPage_header (b := { b with diskManager := dm₂ }) ho₂ hn buf
  have hso' : SameOpen dm₂ (dm₃.setFd2pageno fd (RmFileHdr.ofBytes a).numPages) :=
    hso.trans ⟨fun _ => rfl, rfl, rfl, rfl, rfl⟩
  refine ⟨{ fd, fileHdr := .ofBytes a }, _, ?_, hmore.trans hso'⟩
  unfold RmManager.openFile RmManager.newHandle
  rw [bind_of_ok (onDisk_of_ok ho)]
  exact bind_of_ok hr

/-- `IxManager::create_index` succeeds. -/
theorem ixCreateIndex_eq_ok (hok : FilesOk b.diskManager) {filename : String} {indexNo : Int}
    (hno : 0 ≤ indexNo) {colLen : Int} (hlen : colLen ≤ ixMaxColLen)
    (hord : 2 < IxFileHdr.orderOf colLen)
    (hdir : b.diskManager.os.dir.find (IxManager.getIndexName filename indexNo) = none)
    (hpath : b.diskManager.path2fd (IxManager.getIndexName filename indexNo) = none)
    (hfd₀ : 0 ≤ fd₀) (hfd : 0 ≤ fd) (hopen : ¬b.diskManager.IsOpen fd) (buf : PageData)
    (colType : ColType) :
    ∃ dm, IxManager.createIndex fd₀ fd buf filename indexNo colType colLen b =
        .ok () { b with diskManager := dm } ∧
      Made b.diskManager (IxManager.getIndexName filename indexNo) IxFileHdr.size dm := by
  obtain ⟨dm₁, hc⟩ := createFile_eq_ok hdir hfd₀
  have hdir₁ : dm₁.os.dir.find (IxManager.getIndexName filename indexNo) =
        some b.diskManager.os.nextInode ∧ dm₁.path2fd = b.diskManager.path2fd := by
    unfold DiskManager.createFile at hc
    split_ifs at hc
    cases hc
    exact ⟨Directory.find_set_self, rfl⟩
  obtain ⟨dm₂, ho⟩ := openFile_of_some hdir₁.1 (hdir₁.2 ▸ hpath) hfd
  obtain ⟨hnew, -, -, -, -⟩ := NewFile.create hc ho
  -- the three pages that are written: the file stays the new file and only grows
  have hwrite : ∀ {dm₃ n} (pageNo : Int) (data : Fin n → UInt8),
      NewFile b.diskManager (IxManager.getIndexName filename indexNo) fd dm₃ →
      ∃ dm₄, dm₃.writePage fd pageNo data = (true, dm₄) ∧
        NewFile b.diskManager (IxManager.getIndexName filename indexNo) fd dm₄ ∧
        (dm₃.os.file b.diskManager.os.nextInode).size ≤
          (dm₄.os.file b.diskManager.os.nextInode).size ∧
        n ≤ (dm₄.os.file b.diskManager.os.nextInode).size := by
    intro dm₃ n pageNo data hnew₃
    obtain ⟨dm₄, hw, hso, hf⟩ := writePage_open hnew₃.isOpen pageNo data
    obtain ⟨o, ho₃, hi⟩ := Option.map_eq_some_iff.mp hnew₃.self
    exact ⟨dm₄, hw, hnew₃.trans hso hf, hi ▸ writePage_size ho₃ hw⟩
  obtain ⟨dm₃, hw₃, hnew₃, -, hn₃⟩ := hwrite ixFileHdrPage
    (IxFileHdr.init colType colLen).toBytes hnew
  obtain ⟨dm₄, hw₄, hnew₄, hn₄, -⟩ := hwrite ixLeafHeaderPage
    (IxManager.leafPage ixInitRootPage ixInitRootPage buf) hnew₃
  obtain ⟨dm₅, hw₅, hnew₅, hn₅, -⟩ := hwrite ixInitRootPage
    (IxManager.leafPage ixLeafHeaderPage ixLeafHeaderPage
      (IxManager.leafPage ixInitRootPage ixInitRootPage buf)) hnew₄
  have hnew₆ : NewFile b.diskManager (IxManager.getIndexName filename indexNo) fd
      (dm₅.setFd2pageno fd (ixInitNumPages - 1)) :=
    hnew₅.trans ⟨fun _ => rfl, rfl, rfl, rfl, rfl⟩ fun _ _ => rfl
  refine ⟨_, ?_, hnew₆.made hok hpath hfd hopen (hn₃.trans (hn₄.trans hn₅))⟩
  unfold IxManager.createIndex
  simp only [if_neg (not_lt.mpr hno), if_neg (not_lt.mpr hlen), if_neg (not_le.mpr hord)]
  rw [bind_of_ok (onDisk_of_ok hc), bind_of_ok (onDisk_of_ok ho),
    bind_of_ok (managerWritePage_of_ok hw₃), bind_of_ok (managerWritePage_of_ok hw₄),
    bind_of_ok (managerWritePage_of_ok hw₅)]
  rfl

/-- `IxManager::create_index` throws before there is a file. -/
theorem ixCreateIndex_eq_error {filename : String} {indexNo : Int} (hno : 0 ≤ indexNo)
    (h : b.diskManager.os.dir.find (IxManager.getIndexName filename indexNo) ≠ none ∨ fd₀ < 0)
    (buf : PageData) (colType : ColType) (colLen : Int) :
    ∃ e, IxManager.createIndex fd₀ fd buf filename indexNo colType colLen b = .error e b := by
  obtain ⟨e, he⟩ := createFile_eq_error h
  unfold IxManager.createIndex
  simp only [if_neg (not_lt.mpr hno)]
  exact ⟨e, bind_of_error (onDisk_of_error he)⟩

/-- `IxManager::open_index` opens the file that was made. -/
theorem ixOpenIndex_eq_ok {filename : String} {indexNo : Int}
    (hmade : Made dm (IxManager.getIndexName filename indexNo) IxFileHdr.size b.diskManager)
    (hpath : dm.path2fd (IxManager.getIndexName filename indexNo) = none) (hfd : 0 ≤ fd)
    (buf : Fin IxFileHdr.size → UInt8) :
    ∃ fileHdr dm', IxManager.openIndex fd buf filename indexNo b =
      .ok (fd, fileHdr) { b with diskManager := dm' } ∧
        OneMore dm (IxManager.getIndexName filename indexNo) fd dm' := by
  obtain ⟨dm₂, ho, hmore, o, ho₂, hn⟩ := hmade.open hpath hfd
  obtain ⟨a, dm₃, hr, hso⟩ := managerReadPage_header (b := { b with diskManager := dm₂ }) ho₂ hn buf
  have hso' : SameOpen dm₂ (dm₃.setFd2pageno fd (dm₃.fd2pageno fd + 1)) :=
    hso.trans ⟨fun _ => rfl, rfl, rfl, rfl, rfl⟩
  refine ⟨.ofBytes a, _, ?_, hmore.trans hso'⟩
  unfold IxManager.openIndex IxManager.newHandle
  rw [bind_of_ok (onDisk_of_ok ho)]
  exact bind_of_ok hr

/-- `IxManager::close_index` of an open file succeeds and leaves the other files alone. -/
theorem ixCloseIndex_eq_ok (hopen : b.diskManager.IsOpen fd) (fileHdr : IxFileHdr) :
    ∃ (b' : BufferPoolManager DiskManager) (dm : DiskManager), IxManager.closeIndex fd fileHdr b =
      .ok () { b' with diskManager := dm.closeFile fd } ∧ SameOpen b.diskManager dm := by
  obtain ⟨dm₁, hw, hso₁, -⟩ := writePage_open hopen ixFileHdrPage fileHdr.toBytes
  have hopen₁ : dm₁.IsOpen fd := (hso₁.sameInodes.isOpen_iff fd).mpr hopen
  obtain ⟨b₂, hflush, hso₂⟩ := flushAllPages_open
    (show { b with diskManager := dm₁ }.diskManager.IsOpen fd from hopen₁)
  refine ⟨b₂, b₂.diskManager, ?_, hso₁.trans hso₂⟩
  unfold IxManager.closeIndex
  rw [bind_of_ok (managerWritePage_of_ok hw), bind_of_ok hflush]
  rfl

end Managers


/-! ### The names of index files -/

namespace IxManager

theorem toList_repr_natCast (i : Nat) : (Int.repr i).toList = Nat.toDigits 10 i :=
  Nat.toList_repr

theorem toDigits_injective {i i' : Nat} (h : Nat.toDigits 10 i = Nat.toDigits 10 i') : i = i' := by
  have := congrArg (Nat.ofDigitChars 10 · 0) h
  simpa only [Nat.ofDigitChars_toDigits (show 1 < 10 by decide) (show 10 ≤ 10 by decide)] using this

/-- Two columns have different index files. -/
theorem getIndexName_inj {t t' : String} {i i' : Nat}
    (h : getIndexName t i = getIndexName t' i') : t = t' ∧ i = i' := by
  have hdigit : ∀ n : Nat, ∀ c ∈ (Nat.toDigits 10 n).reverse, c.isDigit = true := fun n c hc =>
    Nat.isDigit_of_mem_toDigits (by omega) (by omega) (List.mem_reverse.mp hc)
  -- read from the back: the digits end at the first dot
  have hlist : (Nat.toDigits 10 i).reverse ++ '.' :: t.toList.reverse =
      (Nat.toDigits 10 i').reverse ++ '.' :: t'.toList.reverse := by
    have := congrArg (fun s : String => s.toList.reverse) h
    simpa [getIndexName, String.toList_append, toList_repr_natCast] using this
  have hdot : Char.isDigit '.' = false := by decide
  have hfront := congrArg (List.takeWhile Char.isDigit) hlist
  rw [List.takeWhile_append_of_pos (hdigit i), List.takeWhile_append_of_pos (hdigit i'),
    List.takeWhile_cons_of_neg (by simp [hdot]), List.takeWhile_cons_of_neg (by simp [hdot]),
    List.append_nil, List.append_nil] at hfront
  rw [hfront, List.append_cancel_left_eq, List.cons.injEq] at hlist
  exact ⟨String.toList_injective (List.reverse_injective hlist.2),
    toDigits_injective (List.reverse_injective hfront)⟩

end IxManager


/-! ### Calls of the system manager -/

/-- A call, with what the operating system answers and what the record loop does. -/
inductive SmCall where
  | createTable (env : SmManager.TableEnv) (tabName : String) (colDefs : List ColDef)
  | createIndex (env : SmManager.IndexEnv) (tabName colName : String)
  | dropIndex (rc : Int) (tabName colName : String)

namespace SmCall

def run : SmCall → SmM Unit
  | createTable env tabName colDefs => SmManager.createTable env tabName colDefs
  | createIndex env tabName colName => SmManager.createIndex env tabName colName
  | dropIndex rc tabName colName => SmManager.dropIndex rc tabName colName

/-- The descriptors that `open` chose. -/
def opened : SmCall → List Int
  | createTable env _ _ => [env.fdInit, env.fdOpen]
  | createIndex env _ _ => [env.fdInit, env.fdOpen]
  | dropIndex _ _ _ => []

end SmCall

namespace SmManager

/-- One call, and the exception it ended with.  `open` fails or returns a descriptor that is not in
use; a descriptor that was opened and closed again during the call may come back. -/
def Step (s : SmManager) (e : SmCall × Option SmError) (s' : SmManager) : Prop :=
  (∀ fd ∈ e.1.opened, 0 ≤ fd → ¬s.pool.diskManager.IsOpen fd) ∧
    match e.2 with
    | none => e.1.run s = .ok () s'
    | some error => e.1.run s = .error error s'

/-- Column `i` of table `t` has its index flag set. -/
def Indexed (tabs : ExtTreeMap String TabMeta) (t : String) (i : Nat) : Prop :=
  ∃ tab col, tabs[t]? = some tab ∧ tab.cols[i]? = some col ∧ col.index = true

/-- The catalog and the open handles are in step. -/
structure InStep (s : SmManager) : Prop where
  fhs : ∀ t, t ∈ s.fhs ↔ t ∈ s.db.tabs
  ihs : ∀ name, name ∈ s.ihs ↔ ∃ (t : String) (i : Nat), Indexed s.db.tabs t i ∧
    name = IxManager.getIndexName t i

/-- The catalog, the handles and the set of files are as they were. -/
structure Unchanged (s s' : SmManager) : Prop where
  tabs : s'.db.tabs = s.db.tabs
  fhs : s'.fhs = s.fhs
  ihs : s'.ihs = s.ihs
  files : ∀ path, s'.pool.diskManager.isFile path = s.pool.diskManager.isFile path

/-- A call that throws leaves everything as it was. -/
def Atomic (s : SmManager) (e : SmCall × Option SmError) (s' : SmManager) : Prop :=
  e.2 ≠ none → s.Unchanged s'

/-- `create_table` gets past the point where it has created the file. -/
def CreatesTable (s : SmManager) (env : TableEnv) (tabName : String) (colDefs : List ColDef) :
    Prop :=
  s.db.isTable tabName = false ∧
    (1 ≤ (makeCols tabName colDefs 0).2.toInt ∧
      (makeCols tabName colDefs 0).2.toInt ≤ rmMaxRecordSize) ∧
    s.pool.diskManager.isFile tabName = false ∧ 0 ≤ env.fdCreate

/-- `create_index` on a column gets past the point where it has created the file. -/
def CreatesIndex (s : SmManager) (env : IndexEnv) (tabName : String) (i : Nat) (col : ColMeta) :
    Prop :=
  col.index = false ∧ s.pool.diskManager.isFile (IxManager.getIndexName tabName i) = false ∧
    0 ≤ env.fdCreate

/-- The place of the first column of that name. -/
def findCol (tab : TabMeta) (colName : String) : Option (Nat × ColMeta) :=
  (tab.cols.zipIdx.find? fun entry => entry.1.name = colName).map Prod.swap

/-- The condition on a call, in the state before it: `drop_index` is called for a table that exists,
and nothing fails once a file has been created. -/
def Safe (s : SmManager) : SmCall → Prop
  | .createTable env tabName colDefs =>
    s.CreatesTable env tabName colDefs → 0 ≤ env.fdInit ∧ 0 ≤ env.fdOpen
  | .createIndex env tabName colName => ∀ tab i col, s.db.tabs[tabName]? = some tab →
      findCol tab colName = some (i, col) → s.CreatesIndex env tabName i col →
      0 ≤ env.fdInit ∧ col.len.toInt ≤ ixMaxColLen ∧ 2 < IxFileHdr.orderOf col.len.toInt ∧
        0 ≤ env.fdOpen ∧ env.loop.error = none
  | .dropIndex _ tabName _ => s.db.isTable tabName = true

/-- The path is listed as open, or an index handle has its name. -/
def Known (ihs : ExtTreeMap String IxHandle) (dm : DiskManager) (path : String) : Prop :=
  dm.path2fd path ≠ none ∨ path ∈ ihs

/-- The tables of open files are in order, every known path names a file of its own, and an index file
that is listed is open under the descriptor of its handle.  (It need not be listed: `drop_index` leaves
the handle of a closed file behind when `unlink` fails.) -/
structure HandlesOk (ihs : ExtTreeMap String IxHandle) (dm : DiskManager) : Prop where
  filesOk : DiskManager.FilesOk dm
  isFile : ∀ path, Known ihs dm path → dm.isFile path = true
  spelled : ∀ path path', Known ihs dm path → Known ihs dm path' →
    dm.os.dir.resolve path = dm.os.dir.resolve path' → path = path'
  index : ∀ (name : String) (ih : IxHandle), ihs[name]? = some ih → ∀ fd,
    dm.path2fd name = some fd → fd = ih.1 ∧ dm.fd2path fd = some name ∧ 0 ≤ fd

/-- The invariant. -/
structure Ready (s : SmManager) : Prop extends InStep s where
  handles : HandlesOk s.ihs s.pool.diskManager

/-! ### The catalog and the maps of handles -/

section Maps

variable {s s' : SmManager} {t t' : String} {i i' : Nat} {tab : TabMeta} {col : ColMeta}

theorem index_of_mem_makeCols (tabName : String) : ∀ (colDefs : List ColDef) (currOffset : Int32),
    ∀ col ∈ (makeCols tabName colDefs currOffset).1, col.index = false
  | [], _, _, hcol => by simp [makeCols] at hcol
  | colDef :: colDefs, currOffset, col, hcol => by
    rcases List.mem_cons.mp hcol with rfl | hcol
    · rfl
    · exact index_of_mem_makeCols tabName colDefs _ col hcol

theorem getElem?_of_findCol {colName : String} (h : findCol tab colName = some (i, col)) :
    tab.cols[i]? = some col := by
  unfold findCol at h
  obtain ⟨⟨c, k⟩, hfind, hswap⟩ := Option.map_eq_some_iff.mp h
  obtain ⟨rfl, rfl⟩ := Prod.mk.inj hswap
  exact List.mem_zipIdx_iff_getElem?.mp (List.mem_of_find?_eq_some hfind)

/-- `get_col` finds the column or throws, and changes nothing. -/
theorem getCol_apply (tab : TabMeta) (colName : String) (s : SmManager) :
    tab.getCol colName s = match findCol tab colName with
      | some entry => .ok entry s
      | none => .error (.columnNotFoundError colName) s := by
  unfold TabMeta.getCol findCol
  cases tab.cols.zipIdx.find? fun entry => entry.1.name = colName with
  | none => rfl
  | some entry => rfl

/-- A table without indexes is entered. -/
theorem indexed_insert {tabs : ExtTreeMap String TabMeta} (ht : t ∉ tabs)
    (hcols : ∀ col ∈ tab.cols, col.index = false) :
    Indexed (tabs.insert t tab) t' i' ↔ Indexed tabs t' i' := by
  unfold Indexed
  by_cases he : t = t'
  · subst he
    have hnone : tabs[t]? = none := ExtTreeMap.getElem?_eq_none ht
    constructor
    · rintro ⟨tab', col, htab, hcol, hindex⟩
      rw [ExtTreeMap.getElem?_insert_self] at htab
      obtain rfl := Option.some.inj htab
      rw [hcols col (List.mem_of_getElem? hcol)] at hindex
      cases hindex
    · rintro ⟨tab', col, htab, -⟩
      rw [hnone] at htab
      cases htab
  · simp [ExtTreeMap.getElem?_insert, he]

/-- The flag of one column is set or cleared. -/
theorem indexed_modify {tabs : ExtTreeMap String TabMeta} (htab : tabs[t]? = some tab)
    (hcol : tab.cols[i]? = some col) (index : Bool) :
    Indexed (tabs.modify t (·.setIndex i index)) t' i' ↔
      if t' = t ∧ i' = i then index = true else Indexed tabs t' i' := by
  unfold Indexed
  by_cases ht : t = t'
  · subst ht
    by_cases hi : i = i'
    · subst hi
      simp [TabMeta.setIndex, htab, hcol]
    · simp [TabMeta.setIndex, htab, hi, Ne.symm hi]
  · simp [ExtTreeMap.getElem?_modify, ht, Ne.symm ht]

/-- `create_table` has entered the table and its handle. -/
theorem InStep.createTable (h : s.InStep) (ht : t ∉ s.db.tabs)
    (hcols : ∀ col ∈ tab.cols, col.index = false) {fileHandle : RmFileHandle}
    (htabs : s'.db.tabs = s.db.tabs.insert t tab) (hfhs : s'.fhs = s.fhs.insertIfNew t fileHandle)
    (hihs : s'.ihs = s.ihs) : s'.InStep where
  fhs t' := by
    rw [hfhs, htabs, ExtTreeMap.mem_insertIfNew, ExtTreeMap.mem_insert, h.fhs t']
  ihs name := by
    simp only [hihs, htabs, h.ihs name, indexed_insert ht hcols]

/-- `create_index` has entered the handle and set the flag. -/
theorem InStep.createIndex (h : s.InStep) (htab : s.db.tabs[t]? = some tab)
    (hcol : tab.cols[i]? = some col) {ih : IxHandle}
    (htabs : s'.db.tabs = s.db.tabs.modify t (·.setIndex i true)) (hfhs : s'.fhs = s.fhs)
    (hihs : s'.ihs = s.ihs.insertIfNew (IxManager.getIndexName t i) ih) : s'.InStep where
  fhs t' := by rw [hfhs, htabs, ExtTreeMap.mem_modify, h.fhs t']
  ihs name := by
    simp only [hihs, htabs, ExtTreeMap.mem_insertIfNew, Std.compare_eq_iff_eq, h.ihs name,
      indexed_modify htab hcol]
    constructor
    · rintro (rfl | ⟨t', i', hindexed, rfl⟩)
      · exact ⟨t, i, by simp, rfl⟩
      · exact ⟨t', i', by simp [hindexed], rfl⟩
    · rintro ⟨t', i', hindexed, rfl⟩
      split_ifs at hindexed with he
      · exact .inl (by rw [he.1, he.2])
      · exact .inr ⟨t', i', hindexed, rfl⟩

/-- `drop_index` has removed the handle and cleared the flag. -/
theorem InStep.dropIndex (h : s.InStep) (htab : s.db.tabs[t]? = some tab)
    (hcol : tab.cols[i]? = some col)
    (htabs : s'.db.tabs = s.db.tabs.modify t (·.setIndex i false)) (hfhs : s'.fhs = s.fhs)
    (hihs : s'.ihs = s.ihs.erase (IxManager.getIndexName t i)) : s'.InStep where
  fhs t' := by rw [hfhs, htabs, ExtTreeMap.mem_modify, h.fhs t']
  ihs name := by
    simp only [hihs, htabs, ExtTreeMap.mem_erase, h.ihs name, indexed_modify htab hcol]
    constructor
    · rintro ⟨hne, t', i', hindexed, rfl⟩
      refine ⟨t', i', ?_, rfl⟩
      rw [if_neg]
      · exact hindexed
      · rintro ⟨rfl, rfl⟩
        simp at hne
    · rintro ⟨t', i', hindexed, rfl⟩
      split_ifs at hindexed with he
      refine ⟨fun heq => he ?_, t', i', hindexed, rfl⟩
      obtain ⟨rfl, rfl⟩ := IxManager.getIndexName_inj (Std.compare_eq_iff_eq.mp heq)
      exact ⟨rfl, rfl⟩

end Maps



/-! ### The files of the handles -/

namespace HandlesOk

open DiskManager

variable {ihs ihs' : ExtTreeMap String IxHandle} {dm dm' : DiskManager} {t : String} {fd : Int}

theorem sameOpen (h : HandlesOk ihs dm) (hso : SameOpen dm dm') : HandlesOk ihs dm' where
  filesOk := hso.filesOk h.filesOk
  isFile path hknown := by
    unfold Known at hknown
    rw [hso.path2fd] at hknown
    unfold DiskManager.isFile
    rw [hso.dir]
    exact h.isFile path hknown
  spelled path path' hknown hknown' := by
    unfold Known at hknown hknown'
    rw [hso.path2fd] at hknown hknown'
    rw [hso.dir]
    exact h.spelled path path' hknown hknown'
  index name ih hih fd hpath := by
    rw [hso.fd2path]
    exact h.index name ih hih fd (hso.path2fd ▸ hpath)

/-- A path without a file is not known. -/
theorem not_known (h : HandlesOk ihs dm) (hfile : dm.isFile t = false) : ¬Known ihs dm t := by
  intro hknown
  rw [h.isFile t hknown] at hfile
  cases hfile

theorem path2fd_eq_none (h : HandlesOk ihs dm) (hfile : dm.isFile t = false) :
    dm.path2fd t = none := by
  by_contra hpath
  exact h.not_known hfile (.inl hpath)

/-- **One more file** is open, with an index handle or without. -/
theorem oneMore (h : HandlesOk ihs dm) (hfile : dm.isFile t = false) (hopen : ¬dm.IsOpen fd)
    (hfd : 0 ≤ fd) (hmore : OneMore dm t fd dm')
    (hihs : ∀ (name : String) (ih : IxHandle), ihs'[name]? = some ih →
      ihs[name]? = some ih ∨ name = t ∧ ih.1 = fd) : HandlesOk ihs' dm' := by
  obtain ⟨i, hdir⟩ := hmore.dir
  -- a path that is known afterwards is the new one, or had a file under another name before
  have hcases : ∀ {path}, Known ihs' dm' path → path = t ∨ Known ihs dm path := by
    intro path hknown
    by_cases he : path = t
    · exact .inl he
    · refine .inr ?_
      rcases hknown with hpath | hmem
      · rw [hmore.path2fd, Function.update_of_ne he] at hpath
        exact .inl hpath
      · have hih := hihs path _ (ExtTreeMap.getElem?_eq_some_getElem hmem)
        exact .inr (ExtTreeMap.mem_iff_isSome_getElem?.mpr
          (by rw [hih.resolve_right fun hn => he hn.1]; rfl))
  have hname : ∀ {path}, Known ihs dm path → dm.os.dir.resolve path ≠ dm.os.dir.resolve t := by
    intro path hknown heq
    have hold := h.isFile path hknown
    unfold DiskManager.isFile at hold hfile
    rw [Directory.find_congr heq, hfile] at hold
    cases hold
  refine ⟨hmore.filesOk, fun path hknown => ?_, fun path path' hknown hknown' heq => ?_,
    fun name ih hih fd' hpath => ?_⟩
  · unfold DiskManager.isFile
    rw [hdir]
    rcases hcases hknown with rfl | hknown
    · simp
    · rw [Directory.find_set_of_ne (hname hknown)]
      exact h.isFile path hknown
  · rw [hdir, Directory.resolve_set] at heq
    rcases hcases hknown with rfl | hknown <;> rcases hcases hknown' with rfl | hknown'
    · rfl
    · exact absurd heq.symm (hname hknown')
    · exact absurd heq (hname hknown)
    · exact h.spelled path path' hknown hknown' heq
  · rw [hmore.path2fd] at hpath
    by_cases he : name = t
    · subst he
      rw [Function.update_self] at hpath
      obtain rfl := Option.some.inj hpath
      rw [hmore.fd2path, Function.update_self]
      have hold : ihs[name]? ≠ some ih := fun hold => h.not_known hfile
        (.inr (ExtTreeMap.mem_iff_isSome_getElem?.mpr (by rw [hold]; rfl)))
      exact ⟨((hihs name ih hih).resolve_left hold).2.symm, rfl, hfd⟩
    · rw [Function.update_of_ne he] at hpath
      have hold := (hihs name ih hih).resolve_right fun hn => he hn.1
      obtain ⟨hfd', hlist, hnonneg⟩ := h.index name ih hold fd' hpath
      have hne : fd' ≠ fd := by
        rintro rfl
        rw [h.filesOk.fd2path_eq_none hopen] at hlist
        cases hlist
      rw [hmore.fd2path, Function.update_of_ne hne]
      exact ⟨hfd', hlist, hnonneg⟩

/-- A descriptor is closed, whatever it is open on. -/
theorem close (h : HandlesOk ihs dm) (fd : Int) : HandlesOk ihs (dm.closeFile fd) := by
  have hless : ∀ {path}, Known ihs (dm.closeFile fd) path → Known ihs dm path := by
    rintro path (hpath | hmem)
    · obtain ⟨fd', hfd'⟩ := Option.ne_none_iff_exists'.mp hpath
      exact .inl (by rw [closeFile_path2fd hfd']; simp)
    · exact .inr hmem
  refine ⟨h.filesOk.close fd, fun path hknown => ?_, fun path path' hknown hknown' => ?_,
    fun name ih hih fd' hpath => ?_⟩
  · unfold DiskManager.isFile
    rw [closeFile_dir]
    exact h.isFile path (hless hknown)
  · rw [closeFile_dir]
    exact h.spelled path path' (hless hknown) (hless hknown')
  · obtain ⟨hfd', hlist, hnonneg⟩ := h.index name ih hih fd' (closeFile_path2fd hpath)
    exact ⟨hfd', (closeFile_listed hpath hlist hnonneg).2, hnonneg⟩

/-- Once the descriptor of its handle is closed, an index file is not listed. -/
theorem close_unlisted (h : HandlesOk ihs dm) {ih : IxHandle} (hih : ihs[t]? = some ih) :
    (dm.closeFile ih.1).path2fd t = none := by
  by_contra hpath
  obtain ⟨fd, hfd⟩ := Option.ne_none_iff_exists'.mp hpath
  obtain ⟨he, hlist, hnonneg⟩ := h.index t ih hih fd (closeFile_path2fd hfd)
  exact (closeFile_listed hfd hlist hnonneg).1 he

/-- An index file that is not listed is unlinked, and its handle is forgotten. -/
theorem unlink (h : HandlesOk ihs dm) (hmem : t ∈ ihs) (hpath : dm.path2fd t = none) :
    HandlesOk (ihs.erase t)
      { dm with os := { dm.os with dir := dm.os.dir.set t none } } := by
  have hold : ∀ {path}, Known (ihs.erase t)
      { dm with os := { dm.os with dir := dm.os.dir.set t none } } path →
      path ≠ t ∧ Known ihs dm path := by
    rintro path (hlisted | hmem')
    · refine ⟨?_, .inl hlisted⟩
      rintro rfl
      exact hlisted hpath
    · rw [ExtTreeMap.mem_erase] at hmem'
      refine ⟨?_, .inr hmem'.2⟩
      rintro rfl
      exact hmem'.1 (Std.compare_eq_iff_eq.mpr rfl)
  refine ⟨h.filesOk.unlink t, fun path hknown => ?_, fun path path' hknown hknown' heq => ?_,
    fun name ih hih fd' hlisted => ?_⟩
  · obtain ⟨hne, hknown⟩ := hold hknown
    unfold DiskManager.isFile
    rw [Directory.find_set_of_ne fun heq => hne (h.spelled path t hknown (.inr hmem) heq)]
    exact h.isFile path hknown
  · exact h.spelled path path' (hold hknown).2 (hold hknown').2 heq
  · rw [ExtTreeMap.getElem?_erase] at hih
    split_ifs at hih
    exact h.index name ih hih fd' hlisted

end HandlesOk

/-- The loop over the records opens and closes no file. -/
theorem RecordLoop.sameOpen (loop : RecordLoop) (b : BufferPoolManager DiskManager) :
    DiskManager.SameOpen b.diskManager (loop.pool b).diskManager := by
  have hcall : ∀ (b : BufferPoolManager DiskManager) (call : LoopCall),
      DiskManager.SameOpen b.diskManager (call.exec b).diskManager := by
    intro b call
    cases call with
    | fetchPage pageId => exact fetchPage_keepsOpen pageId b
    | newPage fd => exact newPage_keepsOpen fd b
    | unpinPage pageId isDirty => exact unpinPage_keepsOpen pageId isDirty b
    | store frameId data => exact .refl b.diskManager
  unfold RecordLoop.pool
  induction loop.calls generalizing b with
  | nil => exact .refl b.diskManager
  | cons call calls ih => exact (hcall b call).trans (ih (call.exec b))

/-! ### Calls keep the invariant -/

section Steps

open DiskManager

variable {s s' : SmManager} {t : String} {fd : Int} {dm : DiskManager} {α : Type}

theorem manager_of_ok {x : ManagerM α} {a : α} {b : BufferPoolManager DiskManager}
    (h : x s.pool = .ok a b) : SmM.manager x s = .ok a { s with pool := b } := by
  unfold SmM.manager
  rw [h]

theorem manager_of_error {x : ManagerM α} {e : RedBaseError} {b : BufferPoolManager DiskManager}
    (h : x s.pool = .error e b) : SmM.manager x s = .error (.base e) { s with pool := b } := by
  unfold SmM.manager
  rw [h]

theorem at_of_some {entries : ExtTreeMap String α} {a : α} (h : entries[t]? = some a) :
    SmM.at entries t s = .ok a s := by
  unfold SmM.at
  rw [h]
  rfl

theorem Unchanged.refl (s : SmManager) : s.Unchanged s := ⟨rfl, rfl, rfl, fun _ => rfl⟩

theorem dir_eq_none (h : dm.isFile t = false) : dm.os.dir.find t = none := by
  simpa [DiskManager.isFile] using h

/-- A call that throws and has changed nothing. -/
theorem Step.of_error {e : SmCall × Option SmError} {x : SmError} {s₁ : SmManager}
    (hstep : s.Step e s') (hrun : e.1.run s = .error x s₁) (h : s₁.Ready) (hsame : s.Unchanged s₁) :
    s'.Ready ∧ s.Atomic e s' := by
  obtain ⟨call, error⟩ := e
  have hend := hstep.2
  cases error with
  | none => cases hrun.symm.trans hend
  | some error =>
    cases hrun.symm.trans hend
    exact ⟨h, fun _ => hsame⟩

/-- A call that ends normally. -/
theorem Step.of_ok {e : SmCall × Option SmError} {s₁ : SmManager} (hstep : s.Step e s')
    (hrun : e.1.run s = .ok () s₁) (h : s₁.Ready) : s'.Ready ∧ s.Atomic e s' := by
  obtain ⟨call, error⟩ := e
  have hend := hstep.2
  cases error with
  | none =>
    cases hrun.symm.trans hend
    exact ⟨h, fun hne => absurd rfl hne⟩
  | some error => cases hrun.symm.trans hend

/-- `create_table` throws before there is a file. -/
theorem createTable_eq_error {env : TableEnv} {tabName : String} {colDefs : List ColDef}
    (h : ¬s.CreatesTable env tabName colDefs) :
    ∃ e, SmManager.createTable env tabName colDefs s = .error e s := by
  unfold SmManager.createTable
  by_cases htable : s.db.isTable tabName = true
  · simp only [get_bind_apply, htable, if_true, throw_bind_apply]
    exact ⟨_, rfl⟩
  · have hcreate : ((makeCols tabName colDefs 0).2.toInt < 1 ∨
        (makeCols tabName colDefs 0).2.toInt > rmMaxRecordSize) ∨
        s.pool.diskManager.os.dir.find tabName ≠ none ∨ env.fdCreate < 0 := by
      by_contra hn
      simp only [not_or, not_lt, not_not] at hn
      exact h ⟨by simpa using htable, hn.1, by simp [DiskManager.isFile, hn.2.1], hn.2.2⟩
    obtain ⟨e, he⟩ := rmCreateFile_eq_error hcreate
    simp only [get_bind_apply, htable, Bool.false_eq_true, if_false]
    exact ⟨.base e, bind_of_error (manager_of_error he)⟩

/-- `create_table` ends normally when nothing fails after the file was created. -/
theorem createTable_eq_ok (h : s.Ready) {env : TableEnv} {tabName : String} {colDefs : List ColDef}
    (hcreates : s.CreatesTable env tabName colDefs) (hinit : 0 ≤ env.fdInit) (hfd : 0 ≤ env.fdOpen)
    (hopen : ¬s.pool.diskManager.IsOpen env.fdInit) :
    ∃ fileHandle dm, SmManager.createTable env tabName colDefs s = .ok ()
      { s with
        db.tabs := s.db.tabs.insert tabName
          { name := tabName, cols := (makeCols tabName colDefs 0).1 }
        fhs := s.fhs.insertIfNew tabName fileHandle
        pool.diskManager := dm } ∧
      OneMore s.pool.diskManager tabName env.fdOpen dm := by
  obtain ⟨htable, hsize, hfile, hfd₀⟩ := hcreates
  have hpath := h.handles.path2fd_eq_none hfile
  obtain ⟨dm₁, hcreate, hmade⟩ :=
    rmCreateFile_eq_ok h.handles.filesOk hsize (dir_eq_none hfile) hpath hfd₀ hinit hopen
  obtain ⟨fileHandle, dm₂, hopenFile, hmore⟩ :=
    rmOpenFile_eq_ok (b := { s.pool with diskManager := dm₁ }) hmade hpath hfd env.buf
  refine ⟨fileHandle, dm₂, ?_, hmore⟩
  unfold SmManager.createTable
  simp only [get_bind_apply, htable, Bool.false_eq_true, if_false]
  rw [bind_of_ok (manager_of_ok hcreate), modify_bind_apply, bind_of_ok (manager_of_ok hopenFile)]
  rfl

/-- **`create_table` keeps the invariant.** -/
theorem Ready.createTable (h : s.Ready) {env : TableEnv} {tabName : String} {colDefs : List ColDef}
    {error : Option SmError} (hstep : s.Step (.createTable env tabName colDefs, error) s')
    (hsafe : s.Safe (.createTable env tabName colDefs)) :
    s'.Ready ∧ s.Atomic (.createTable env tabName colDefs, error) s' := by
  by_cases hcreates : s.CreatesTable env tabName colDefs
  · obtain ⟨hinit, hfd⟩ := hsafe hcreates
    obtain ⟨fileHandle, dm, hrun, hmore⟩ :=
      createTable_eq_ok h hcreates hinit hfd (hstep.1 _ (by simp [SmCall.opened]) hinit)
    have hopen := hstep.1 env.fdOpen (by simp [SmCall.opened]) hfd
    have htable : tabName ∉ s.db.tabs := by
      have := hcreates.1
      unfold DbMeta.isTable at this
      rw [ExtTreeMap.mem_iff_contains, this]
      simp
    refine hstep.of_ok hrun ⟨?_, ?_⟩
    · exact h.toInStep.createTable htable (index_of_mem_makeCols tabName colDefs 0) rfl rfl rfl
    · exact h.handles.oneMore hcreates.2.2.1 hopen hfd hmore fun _ _ hih => .inl hih
  · obtain ⟨e, he⟩ := createTable_eq_error hcreates
    exact hstep.of_error he h (.refl s)

/-- `create_index` throws before there is a file. -/
theorem createIndex_eq_error {env : IndexEnv} {tabName colName : String}
    (h : ∀ tab i col, s.db.tabs[tabName]? = some tab → findCol tab colName = some (i, col) →
      ¬s.CreatesIndex env tabName i col) :
    ∃ e, SmManager.createIndex env tabName colName s = .error e s := by
  unfold SmManager.createIndex
  simp only [get_bind_apply]
  cases htab : s.db.tabs[tabName]? with
  | none => exact ⟨_, rfl⟩
  | some tab =>
    have hget := getCol_apply tab colName s
    cases hfind : findCol tab colName with
    | none =>
      rw [hfind] at hget
      exact ⟨_, bind_of_error hget⟩
    | some entry =>
      obtain ⟨i, col⟩ := entry
      rw [hfind] at hget
      simp only [bind_of_ok hget]
      by_cases hindex : col.index = true
      · simp only [hindex, if_true, throw_bind_apply]
        exact ⟨_, rfl⟩
      · have hcreate : s.pool.diskManager.os.dir.find (IxManager.getIndexName tabName i) ≠ none ∨
            env.fdCreate < 0 := by
          by_contra hn
          simp only [not_or, not_lt, not_not] at hn
          exact h tab i col htab hfind
            ⟨by simpa using hindex, by simp [DiskManager.isFile, hn.1], hn.2⟩
        obtain ⟨e, he⟩ := ixCreateIndex_eq_error (Int.natCast_nonneg i) hcreate
          env.pageBuf col.type col.len.toInt
        simp only [hindex, Bool.false_eq_true, if_false]
        exact ⟨.base e, bind_of_error (manager_of_error he)⟩

/-- `create_index` ends normally when nothing fails after the file was created. -/
theorem createIndex_eq_ok (h : s.Ready) {env : IndexEnv} {tabName colName : String} {tab : TabMeta}
    {i : Nat} {col : ColMeta} (htab : s.db.tabs[tabName]? = some tab)
    (hfind : findCol tab colName = some (i, col)) (hcreates : s.CreatesIndex env tabName i col)
    (hinit : 0 ≤ env.fdInit) (hlen : col.len.toInt ≤ ixMaxColLen)
    (hord : 2 < IxFileHdr.orderOf col.len.toInt) (hfd : 0 ≤ env.fdOpen)
    (hloop : env.loop.error = none) (hopen : ¬s.pool.diskManager.IsOpen env.fdInit) :
    ∃ (fileHdr : IxFileHdr) (pool : BufferPoolManager DiskManager),
      SmManager.createIndex env tabName colName s = .ok ()
        { s with
          db.tabs := s.db.tabs.modify tabName (·.setIndex i true)
          ihs := s.ihs.insertIfNew (IxManager.getIndexName tabName i) (env.fdOpen, fileHdr)
          pool := pool } ∧
      OneMore s.pool.diskManager (IxManager.getIndexName tabName i) env.fdOpen
        pool.diskManager := by
  obtain ⟨hindex, hfile, hfd₀⟩ := hcreates
  have hpath := h.handles.path2fd_eq_none hfile
  obtain ⟨dm₁, hcreate, hmade⟩ := ixCreateIndex_eq_ok h.handles.filesOk (Int.natCast_nonneg i) hlen hord
    (dir_eq_none hfile) hpath hfd₀ hinit hopen env.pageBuf col.type
  obtain ⟨fileHdr, dm₂, hopenIndex, hmore⟩ :=
    ixOpenIndex_eq_ok (b := { s.pool with diskManager := dm₁ }) hmade hpath hfd env.buf
  have hso := env.loop.sameOpen { s.pool with diskManager := dm₂ }
  refine ⟨env.loop.fileHdr fileHdr, env.loop.pool { s.pool with diskManager := dm₂ }, ?_,
    hmore.trans hso⟩
  -- the record file is open, and no handle has the name of the index
  have hhandle : ∃ fileHandle, s.fhs[tabName]? = some fileHandle := by
    have hmem : tabName ∈ s.fhs := by
      rw [h.fhs, ExtTreeMap.mem_iff_isSome_getElem?, htab]
      rfl
    exact ⟨_, ExtTreeMap.getElem?_eq_some_getElem hmem⟩
  obtain ⟨fileHandle, hhandle⟩ := hhandle
  have hfresh : s.ihs.contains (IxManager.getIndexName tabName i) = false := by
    rw [← Bool.not_eq_true, ← ExtTreeMap.mem_iff_contains]
    exact fun hmem => h.handles.not_known hfile (.inr hmem)
  have hrecords : ∀ b, indexRecords env.loop (env.fdOpen, fileHdr) b =
      .ok (env.fdOpen, env.loop.fileHdr fileHdr) (env.loop.pool b) := by
    intro b
    unfold indexRecords
    rw [hloop]
    rfl
  have hget := getCol_apply tab colName s
  rw [hfind] at hget
  unfold SmManager.createIndex
  simp only [get_bind_apply, htab, bind_of_ok hget, hindex, Bool.false_eq_true, if_false]
  rw [bind_of_ok (manager_of_ok hcreate), bind_of_ok (manager_of_ok hopenIndex)]
  simp only [get_bind_apply, bind_of_ok (at_of_some hhandle),
    bind_of_ok (manager_of_ok (hrecords _)), hfresh, Bool.false_eq_true, if_false,
    modify_bind_apply, modify_apply]

/-- **`create_index` keeps the invariant.** -/
theorem Ready.createIndex (h : s.Ready) {env : IndexEnv} {tabName colName : String}
    {error : Option SmError} (hstep : s.Step (.createIndex env tabName colName, error) s')
    (hsafe : s.Safe (.createIndex env tabName colName)) :
    s'.Ready ∧ s.Atomic (.createIndex env tabName colName, error) s' := by
  by_cases hcreates : ∃ tab i col, s.db.tabs[tabName]? = some tab ∧
      findCol tab colName = some (i, col) ∧ s.CreatesIndex env tabName i col
  · obtain ⟨tab, i, col, htab, hfind, hcreates⟩ := hcreates
    obtain ⟨hinit, hlen, hord, hfd, hloop⟩ := hsafe tab i col htab hfind hcreates
    obtain ⟨fileHdr, pool, hrun, hmore⟩ := createIndex_eq_ok h htab hfind hcreates hinit hlen hord
      hfd hloop (hstep.1 _ (by simp [SmCall.opened]) hinit)
    have hopen := hstep.1 env.fdOpen (by simp [SmCall.opened]) hfd
    refine hstep.of_ok hrun ⟨?_, ?_⟩
    · exact h.toInStep.createIndex htab (getElem?_of_findCol hfind) rfl rfl rfl
    · refine h.handles.oneMore hcreates.2.1 hopen hfd hmore fun name ih hih => ?_
      rw [ExtTreeMap.getElem?_insertIfNew] at hih
      split_ifs at hih with hname
      · obtain rfl := Option.some.inj hih
        exact .inr ⟨(Std.compare_eq_iff_eq.mp hname.1).symm, rfl⟩
      · exact .inl hih
  · obtain ⟨e, he⟩ := createIndex_eq_error fun tab i col htab hfind hc =>
      hcreates ⟨tab, i, col, htab, hfind, hc⟩
    exact hstep.of_error he h (.refl s)

/-- `db_.tabs_[tab_name]` of a table that exists enters nothing. -/
theorem insertIfNew_tabs {tabName : String} {tab : TabMeta}
    (htab : s.db.tabs[tabName]? = some tab) : s.db.tabs.insertIfNew tabName {} = s.db.tabs := by
  have hmem : tabName ∈ s.db.tabs := by
    rw [ExtTreeMap.mem_iff_isSome_getElem?, htab]
    rfl
  ext name tab'
  simp [ExtTreeMap.getElem?_insertIfNew, hmem]

/-- `drop_index` on a table that exists throws before it has changed anything. -/
theorem dropIndex_eq_error (rc : Int) {tabName : String} (colName : String) {tab : TabMeta}
    (htab : s.db.tabs[tabName]? = some tab)
    (h : ∀ i col, findCol tab colName = some (i, col) → col.index = false) :
    ∃ e, SmManager.dropIndex rc tabName colName s = .error e s := by
  have hget := getCol_apply tab colName s
  unfold SmManager.dropIndex
  simp only [modify_bind_apply, insertIfNew_tabs htab, get_bind_apply, bind_of_ok (at_of_some htab)]
  cases hfind : findCol tab colName with
  | none =>
    rw [hfind] at hget
    exact ⟨_, bind_of_error hget⟩
  | some entry =>
    obtain ⟨i, col⟩ := entry
    rw [hfind] at hget
    simp only [bind_of_ok hget, h i col hfind, Bool.not_false, if_true, throw_bind_apply]
    exact ⟨_, rfl⟩

/-- Where `drop_index` starts on a column with an index: with the handle of the index. -/
theorem dropIndex_eq (h : s.Ready) (rc : Int) {tabName colName : String} {tab : TabMeta} {i : Nat}
    {col : ColMeta} (htab : s.db.tabs[tabName]? = some tab)
    (hfind : findCol tab colName = some (i, col)) (hindex : col.index = true) :
    ∃ ih : IxHandle, s.ihs[IxManager.getIndexName tabName i]? = some ih ∧
      SmManager.dropIndex rc tabName colName s = ((do
        SmM.manager (IxManager.closeIndex ih.1 ih.2)
        SmM.manager (IxManager.destroyIndex rc tabName i)
        modify fun s => { s with ihs := s.ihs.erase (IxManager.getIndexName tabName i) }
        modify fun s => { s with db.tabs := s.db.tabs.modify tabName (·.setIndex i false) } :
          SmM Unit) s) := by
  have hmem : IxManager.getIndexName tabName i ∈ s.ihs :=
    (h.ihs _).mpr ⟨tabName, i, ⟨tab, col, htab, getElem?_of_findCol hfind, hindex⟩, rfl⟩
  obtain ⟨ih, hih⟩ : ∃ ih, s.ihs[IxManager.getIndexName tabName i]? = some ih :=
    ⟨_, ExtTreeMap.getElem?_eq_some_getElem hmem⟩
  refine ⟨ih, hih, ?_⟩
  have hget := getCol_apply tab colName s
  rw [hfind] at hget
  unfold SmManager.dropIndex
  simp only [modify_bind_apply, insertIfNew_tabs htab, get_bind_apply,
    bind_of_ok (at_of_some htab), bind_of_ok hget, hindex, Bool.not_true, Bool.false_eq_true,
    if_false, bind_of_ok (at_of_some hih)]

/-- **`drop_index` keeps the invariant.**  Closing the index throws if its descriptor is not open any
more, and unlinking its file may fail; nothing that throws comes after that. -/
theorem Ready.dropIndex (h : s.Ready) {rc : Int} {tabName colName : String}
    {error : Option SmError} (hstep : s.Step (.dropIndex rc tabName colName, error) s')
    (hsafe : s.Safe (.dropIndex rc tabName colName)) :
    s'.Ready ∧ s.Atomic (.dropIndex rc tabName colName, error) s' := by
  obtain ⟨tab, htab⟩ : ∃ tab, s.db.tabs[tabName]? = some tab :=
    ⟨_, ExtTreeMap.getElem?_eq_some_getElem (ExtTreeMap.mem_iff_contains.mpr hsafe)⟩
  by_cases hindexed : ∃ i col, findCol tab colName = some (i, col) ∧ col.index = true
  · obtain ⟨i, col, hfind, hindex⟩ := hindexed
    obtain ⟨ih, hih, hrun⟩ := dropIndex_eq h rc htab hfind hindex
    have hmem : IxManager.getIndexName tabName i ∈ s.ihs :=
      ExtTreeMap.mem_iff_isSome_getElem?.mpr (by rw [hih]; rfl)
    by_cases hopen : s.pool.diskManager.IsOpen ih.1
    · obtain ⟨b, dm, hclose, hso⟩ := ixCloseIndex_eq_ok hopen ih.2
      have hclosed := (h.handles.sameOpen hso).close ih.1
      have hunlisted := (h.handles.sameOpen hso).close_unlisted hih
      rw [bind_of_ok (manager_of_ok hclose)] at hrun
      cases hdestroy : (dm.closeFile ih.1).destroyFile rc (IxManager.getIndexName tabName i) with
      | error e =>
        -- the file is closed, and the handle stays
        have hthrow : IxManager.destroyIndex rc tabName i
            { b with diskManager := dm.closeFile ih.1 } =
            .error e { b with diskManager := dm.closeFile ih.1 } := onDisk_of_error hdestroy
        rw [bind_of_error (manager_of_error hthrow)] at hrun
        refine hstep.of_error hrun ⟨⟨h.fhs, h.ihs⟩, hclosed⟩ ⟨rfl, rfl, rfl, fun path => ?_⟩
        unfold DiskManager.isFile
        rw [closeFile_dir, hso.dir]
      | ok dm' =>
        have hdone : IxManager.destroyIndex rc tabName i
            { b with diskManager := dm.closeFile ih.1 } =
            .ok () { b with diskManager := dm' } := onDisk_of_ok hdestroy
        rw [bind_of_ok (manager_of_ok hdone)] at hrun
        refine hstep.of_ok hrun ⟨?_, ?_⟩
        · exact h.toInStep.dropIndex htab (getElem?_of_findCol hfind) rfl rfl rfl
        · unfold DiskManager.destroyFile at hdestroy
          split_ifs at hdestroy
          cases hdestroy
          exact hclosed.unlink hmem hunlisted
    · have hthrow : IxManager.closeIndex ih.1 ih.2 s.pool = .error .unixError s.pool :=
        bind_of_error (managerWritePage_of_error (writePage_closed hopen ..))
      rw [bind_of_error (manager_of_error hthrow)] at hrun
      exact hstep.of_error hrun h (.refl s)
  · obtain ⟨e, he⟩ := dropIndex_eq_error rc _ htab fun i col hfind => by
      by_contra hindex
      exact hindexed ⟨i, col, hfind, by simpa using hindex⟩
    exact hstep.of_error he h (.refl s)

end Steps



/-! ### Runs -/

/-- **One call.** -/
theorem Ready.step {s s' : SmManager} {e : SmCall × Option SmError} (h : s.Ready)
    (hstep : s.Step e s') (hsafe : s.Safe e.1) : s'.Ready ∧ s.Atomic e s' := by
  obtain ⟨call, error⟩ := e
  cases call with
  | createTable env tabName colDefs => exact h.createTable hstep hsafe
  | createIndex env tabName colName => exact h.createIndex hstep hsafe
  | dropIndex rc tabName colName => exact h.dropIndex hstep hsafe

/-- **The catalog and the handles stay in step.**  In a run whose calls all meet `Safe`, they are in
step after every call, and every call that throws has left the catalog, the handles and the set of
files as they were. -/
theorem inStep_along {s : SmManager} (h : s.Ready)
    {run : List ((SmCall × Option SmError) × SmManager)} (hrun : Run Step s run)
    (hsafe : Along (fun s e _ => s.Safe e.1) s run) :
    (∀ e ∈ run, e.2.InStep) ∧ Along Atomic s run := by
  obtain ⟨hready, hatomic⟩ :=
    hrun.along_of_invariant (fun s e s' h hstep hsafe => h.step hstep hsafe) h hsafe
  exact ⟨fun e he => (hready e he).toInStep, hatomic⟩

/-- A manager without tables, on the files of an operating system that has none open. -/
def start (os : Os) : SmManager :=
  { db := {}, fhs := ∅, ihs := ∅, pool := .new 1 (fun _ => 0) (.new os) }

theorem start_ready (os : Os) (hlt : ∀ {path i}, os.dir.find path = some i → i < os.nextInode)
    (hfds : ∀ fd, os.fds fd = none) : (start os).Ready where
  fhs t := by simp [start]
  ihs name := by simp [start, Indexed]
  handles := by
    have hnone : ∀ path, ¬Known (start os).ihs (start os).pool.diskManager path := by
      simp [Known, start, BufferPoolManager.new, DiskManager.new]
    exact ⟨.new os hlt hfds, fun path h => absurd h (hnone path),
      fun path _ h => absurd h (hnone path), fun name ih h => by simp [start] at h⟩

/-- `drop_index` ends normally when the handle is open and `unlink` succeeds. -/
theorem dropIndex_eq_ok {s : SmManager} (h : s.Ready) {rc : Int} (hrc : 0 ≤ rc)
    {tabName colName : String} {tab : TabMeta} {i : Nat} {col : ColMeta}
    (htab : s.db.tabs[tabName]? = some tab) (hfind : findCol tab colName = some (i, col))
    (hindex : col.index = true) (fd : Int)
    (hlist : s.pool.diskManager.fd2path fd = some (IxManager.getIndexName tabName i))
    (hpath : s.pool.diskManager.path2fd (IxManager.getIndexName tabName i) = some fd) :
    ∃ s', SmManager.dropIndex rc tabName colName s = .ok () s' ∧
      s'.db.tabs = s.db.tabs.modify tabName (·.setIndex i false) := by
  obtain ⟨ih, hih, hrun⟩ := dropIndex_eq h rc htab hfind hindex
  obtain ⟨rfl, -, -⟩ := h.handles.index _ ih hih fd hpath
  obtain ⟨o, ho⟩ := h.handles.filesOk.listed_open hlist
  have hopen : s.pool.diskManager.IsOpen ih.1 := by simp [DiskManager.IsOpen, ho]
  obtain ⟨b, dm, hclose, hso⟩ := ixCloseIndex_eq_ok hopen ih.2
  have hfile : (dm.closeFile ih.1).isFile (IxManager.getIndexName tabName i) = true := by
    unfold DiskManager.isFile
    rw [DiskManager.closeFile_dir, hso.dir]
    exact h.handles.isFile _ (.inl (by rw [hpath]; simp))
  obtain ⟨dm', hdestroy⟩ : ∃ dm', (dm.closeFile ih.1).destroyFile rc
      (IxManager.getIndexName tabName i) = .ok dm' := by
    unfold DiskManager.destroyFile
    rw [if_pos hfile, if_neg (by omega)]
    exact ⟨_, rfl⟩
  have hdone : IxManager.destroyIndex rc tabName i { b with diskManager := dm.closeFile ih.1 } =
      .ok () { b with diskManager := dm' } := onDisk_of_ok hdestroy
  rw [bind_of_ok (manager_of_ok hclose), bind_of_ok (manager_of_ok hdone)] at hrun
  exact ⟨_, hrun, rfl⟩

/-- The definition of a table with one column. -/
def oneColumn : TabMeta := { name := "t", cols := (makeCols "t" [⟨"a", .int, 4⟩] 0).1 }

/-- What the operating system answers to `create_table` and to `create_index` on a table without
records, whose loop does nothing. -/
def tableEnv : TableEnv := ⟨3, 3, 3, fun _ => 0⟩

def indexEnv : IndexEnv := ⟨4, 4, 4, fun _ => 0, fun _ => 0, ⟨[], id, none⟩⟩

/-- A table is created, and an index on its column; the index is dropped, and dropping it once more
throws and changes nothing. -/
theorem inStep_along_createTable :
    ∃ run : List ((SmCall × Option SmError) × SmManager),
      run.map (·.1.1) = [.createTable tableEnv "t" [⟨"a", .int, 4⟩], .createIndex indexEnv "t" "a",
        .dropIndex 0 "t" "a", .dropIndex 0 "t" "a"] ∧
      run.map (·.1.2.isSome) = [false, false, false, true] ∧
      Run Step (start noFiles) run ∧ (∀ e ∈ run, e.2.InStep) ∧
        Along Atomic (start noFiles) run := by
  have hready : (start noFiles).Ready :=
    start_ready noFiles (by simp [noFiles, Directory.find]) fun _ => rfl
  -- the table
  have hcreates : (start noFiles).CreatesTable tableEnv "t" [⟨"a", .int, 4⟩] :=
    ⟨by simp [start, DbMeta.isTable], by decide, rfl, by decide⟩
  obtain ⟨s₁, hrun₁, htab₁, hfd₁, i, hdir₁⟩ : ∃ s₁,
      SmManager.createTable tableEnv "t" [⟨"a", .int, 4⟩] (start noFiles) = .ok () s₁ ∧
        s₁.db.tabs["t"]? = some oneColumn ∧ s₁.pool.diskManager.fd2path 4 = none ∧
        ∃ i, s₁.pool.diskManager.os.dir = noFiles.dir.set "t" (some i) := by
    obtain ⟨fileHandle, dm, hrun, hmore⟩ :=
      createTable_eq_ok hready hcreates (by decide) (by decide) (by decide)
    refine ⟨_, hrun, ExtTreeMap.getElem?_insert_self, ?_, hmore.dir⟩
    show dm.fd2path 4 = none
    rw [hmore.fd2path]
    rfl
  have hstep₁ : Step (start noFiles) (.createTable tableEnv "t" [⟨"a", .int, 4⟩], none) s₁ :=
    ⟨by decide, hrun₁⟩
  have hready₁ := (hready.step hstep₁ fun _ => by decide).1
  -- the index
  have hclosed : ¬s₁.pool.diskManager.IsOpen 4 := by
    intro hopen
    obtain ⟨o, ho⟩ := Option.isSome_iff_exists.mp hopen
    obtain ⟨q, hq, -⟩ := hready₁.handles.filesOk.open_path ho
    cases hfd₁.symm.trans hq
  have hcol : findCol oneColumn "a" = some (0, oneColumn.cols.head (by decide)) := by
    simp [findCol, oneColumn, makeCols]
  have hcreatesIx : s₁.CreatesIndex indexEnv "t" 0 (oneColumn.cols.head (by decide)) := by
    refine ⟨rfl, ?_, by decide⟩
    unfold DiskManager.isFile
    rw [hdir₁, Directory.find_set_of_ne (by decide)]
    rfl
  obtain ⟨fileHdr, pool, hrun₂, hmore⟩ := createIndex_eq_ok hready₁ htab₁ hcol hcreatesIx
    (by decide) (by decide) (by decide) (by decide) rfl hclosed
  obtain ⟨s₂, hs₂⟩ : ∃ s₂ : SmManager, s₂ =
      { s₁ with
        db.tabs := s₁.db.tabs.modify "t" (·.setIndex 0 true)
        ihs := s₁.ihs.insertIfNew (IxManager.getIndexName "t" 0) (4, fileHdr)
        pool := pool } := ⟨_, rfl⟩
  have hstep₂ : Step s₁ (.createIndex indexEnv "t" "a", none) s₂ := by
    refine ⟨fun fd hfd _ => ?_, hs₂ ▸ hrun₂⟩
    have hfd : fd = 4 := by simpa [SmCall.opened, indexEnv] using hfd
    rw [hfd]
    exact hclosed
  have hsafe₂ : s₁.Safe (.createIndex indexEnv "t" "a") := by
    intro tab i col htab hfind _
    cases htab₁.symm.trans htab
    cases hcol.symm.trans hfind
    exact ⟨by decide, by decide, by decide, by decide, rfl⟩
  have hready₂ := (hready₁.step hstep₂ hsafe₂).1
  have htab₂ : s₂.db.tabs["t"]? = some (oneColumn.setIndex 0 true) := by
    simp [hs₂, htab₁]
  -- the index is dropped
  have hcol₂ : ∃ col, findCol (oneColumn.setIndex 0 true) "a" = some (0, col) ∧
      col.index = true := ⟨_, by simp [findCol, oneColumn, makeCols, TabMeta.setIndex]; rfl, rfl⟩
  obtain ⟨col, hfind₂, hindex₂⟩ := hcol₂
  obtain ⟨s₃, hrun₃, htabs₃⟩ := dropIndex_eq_ok hready₂ (le_refl 0) htab₂ hfind₂ hindex₂ 4
    (by rw [hs₂]; exact (congrFun hmore.fd2path 4).trans (Function.update_self ..))
    (by rw [hs₂]; exact (congrFun hmore.path2fd _).trans (Function.update_self ..))
  have hisTable : ∀ {s : SmManager} {tab : TabMeta}, s.db.tabs["t"]? = some tab →
      s.Safe (.dropIndex 0 "t" "a") := fun htab =>
    ExtTreeMap.mem_iff_contains.mp (ExtTreeMap.mem_iff_isSome_getElem?.mpr (by rw [htab]; rfl))
  have htab₃ : s₃.db.tabs["t"]? = some ((oneColumn.setIndex 0 true).setIndex 0 false) := by
    simp [htabs₃, htab₂]
  obtain ⟨e, hrun₄⟩ := dropIndex_eq_error 0 "a" htab₃ fun i col hfind => by
    simp [findCol, oneColumn, makeCols, TabMeta.setIndex] at hfind
    rw [← hfind.2]
  have hrun : Run Step (start noFiles)
      [((.createTable tableEnv "t" [⟨"a", .int, 4⟩], none), s₁),
        ((.createIndex indexEnv "t" "a", none), s₂), ((.dropIndex 0 "t" "a", none), s₃),
        ((.dropIndex 0 "t" "a", some e), s₃)] :=
    .cons hstep₁ (.cons hstep₂ (.cons ⟨by simp [SmCall.opened], hrun₃⟩
      (.cons ⟨by simp [SmCall.opened], hrun₄⟩ (.nil _))))
  exact ⟨_, rfl, rfl, hrun, inStep_along hready hrun
    ⟨fun _ => by decide, hsafe₂, hisTable htab₂, hisTable htab₃, trivial⟩⟩

/-- **`drop_index` enters a table.**  On a database without tables, `drop_index` throws
`ColumnNotFoundError`, and the catalog then has a table for which there is no handle. -/
theorem not_inStep_dropIndex :
    ∃ s', Run Step (start noFiles)
        [((.dropIndex 0 "t" "c", some (.columnNotFoundError "c")), s')] ∧
      ¬s'.InStep ∧ ¬Along Atomic (start noFiles)
        [((.dropIndex 0 "t" "c", some (.columnNotFoundError "c")), s')] := by
  have hrun : dropIndex 0 "t" "c" (start noFiles) = .error (.columnNotFoundError "c")
      { start noFiles with db.tabs := (start noFiles).db.tabs.insertIfNew "t" {} } := by
    unfold SmManager.dropIndex
    have hat : ((start noFiles).db.tabs.insertIfNew "t" {})["t"]? = some {} := by
      rw [ExtTreeMap.getElem?_insertIfNew]
      simp [start]
    simp only [modify_bind_apply, get_bind_apply, bind_of_ok (at_of_some hat)]
    exact bind_of_error (getCol_apply {} "c" _)
  refine ⟨_, .cons ⟨by simp [SmCall.opened], hrun⟩ (.nil _), fun hin => ?_, fun hat => ?_⟩
  · have := (hin.fhs "t").mpr (by simp)
    simp [start] at this
  · have htabs := (hat.1 (by simp)).tabs
    have : "t" ∈ (start noFiles).db.tabs := by
      rw [← htabs]
      simp
    simp [start] at this

end SmManager

end Rucbase
