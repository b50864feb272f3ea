import Rucbase.Record.Equiv.PooledRmFile

/-!
# Record files survive the process

`RmManager::close_file` writes the header and flushes the pool, and a new process that opens the
file finds what the old one left: the header, every bit of the bitmaps and every byte of the slots,
and the counter of the disk manager continues after the last page (`records_durable`).  Record
pages are never marked dirty, so this rests on the invariant of `PooledRmFile`: none of them can
leave the pool before the file is closed.  It holds for files of at most `2^19` pages.  The offset
of page `2^19` does not fit in an `int`: the page is read at wherever the file happens to be
positioned (`not_durable_many_pages`).
-/

namespace Rucbase

open BufferPoolManager DiskManager EStateM ManagerM RmPageHandle

/-- The files after a process has ended: its descriptors are closed. -/
def Os.endProcess (os : Os) : Os := { os with fds := fun _ => none }

/-- Closing the file and opening it in a new process, with an empty pool, gives back the header,
every answer of `is_record`, every record, and a counter after the last page. -/
def PooledRmFile.Durable (filename : String) (s : PooledRmFile) : Prop :=
  ∃ b, RmManager.closeFile s.handle s.bpm = .ok () b ∧
    ∀ (poolSize : Nat) (fd₀ : Nat → Int) (fd : Int) (buf : Fin RmFileHdr.size → UInt8),
      0 < poolSize → 0 ≤ fd →
      ∃ handle b', RmManager.openFile fd buf filename
          (.new poolSize fd₀ (.new b.diskManager.os.endProcess)) = .ok handle b' ∧
        handle.fileHdr = s.handle.fileHdr ∧
        b'.diskManager.fd2pageno handle.fd = s.handle.fileHdr.numPages ∧
        ∀ rid, s.handle.fileHdr.InRange rid →
          (∃ a t t', PooledRmFile.isRecord rid s = .ok a t ∧
            PooledRmFile.isRecord rid ⟨handle, b'⟩ = .ok a t') ∧
          ∃ r t t', PooledRmFile.getRecord rid s = .ok r t ∧
            PooledRmFile.getRecord rid ⟨handle, b'⟩ = .ok r t'

/-! ### The header on disk -/

section

variable {dm dm' : DiskManager} {fd : Int} {b b' : BufferPoolManager DiskManager}

/-- A header that was written is there. -/
theorem header_writePage_self {m : Nat} {hdr : Fin m → UInt8}
    (hw : dm.writePage fd 0 hdr = (true, dm')) : dm'.header fd m = some hdr := by
  have hoff : pageOffset 0 = 0 := by decide
  unfold DiskManager.writePage at hw
  cases ho : dm.os.fds fd with
  | none => simp [Os.lseek, Os.write, ho] at hw
  | some o =>
    simp only [hoff, Os.lseek, Os.write, ho, le_refl, if_true, Function.update_self, Int.toNat_zero,
      Prod.mk.injEq, true_and, Function.update_idem] at hw
    subst hw
    simp only [DiskManager.header, Function.update_self, Option.bind_some]
    exact ByteFile.read_write_self ..

/-- A header that is there can be read. -/
theorem readPage_of_header {m : Nat} {hdr : Fin m → UInt8} (hh : dm.header fd m = some hdr)
    (buf : Fin m → UInt8) : ∃ dm', dm.readPage fd 0 buf = (true, hdr, dm') := by
  have hoff : pageOffset 0 = 0 := by decide
  obtain ⟨o, ho, hread⟩ := Option.bind_eq_some_iff.mp hh
  obtain ⟨hsize, hbyte⟩ := ByteFile.read_eq_some_iff.mp hread
  refine ⟨_, Prod.ext ?_ (Prod.ext ?_ rfl)⟩
  · simp only [DiskManager.readPage, hoff, Os.lseek, ho, le_refl, if_true, Os.read,
      Function.update_self, Int.toNat_zero, Nat.sub_zero, beq_iff_eq]
    omega
  · funext i
    have hi := i.isLt
    have hlt : i.val < min m ((dm.os.file o.inode).size - 0) := by omega
    simp only [DiskManager.readPage, hoff, Os.lseek, ho, le_refl, if_true, Os.read,
      Function.update_self, Int.toNat_zero, if_pos hlt]
    exact hbyte i

/-- A page that is there can be read. -/
theorem readPage_of_contents {p : PageId} (hp : p.InRange) {data : PageData}
    (hc : dm.contents p = some data) (buf : PageData) :
    ∃ dm', dm.readPage p.fd p.pageNo buf = (true, data, dm') := by
  obtain ⟨o, ho, hread⟩ := Option.bind_eq_some_iff.mp hc
  obtain ⟨hsize, hbyte⟩ := ByteFile.read_eq_some_iff.mp hread
  refine ⟨_, Prod.ext ?_ (Prod.ext ?_ rfl)⟩
  · simp only [DiskManager.readPage, pageOffset_eq hp.1 hp.2, Os.lseek, ho, Int.natCast_nonneg,
      if_true, Os.read, Function.update_self, Int.toNat_natCast, beq_iff_eq]
    omega
  · funext i
    have hi := i.isLt
    have hlt : i.val < min pageSize ((dm.os.file o.inode).size - p.pageNo.toNat * pageSize) := by
      omega
    simp only [DiskManager.readPage, pageOffset_eq hp.1 hp.2, Os.lseek, ho, Int.natCast_nonneg,
      if_true, Os.read, Function.update_self, Int.toNat_natCast, if_pos hlt]
    exact hbyte i

/-- A clean frame is free: a page that is on disk is fetched into it. -/
theorem fetchPage_free {p : PageId} {f : Nat} {rest : List Nat} (hp : b.pageTable p = none)
    (hfree : b.freeList = f :: rest) (hclean : (b.pages f).isDirty = false) {data : PageData}
    (hread : b.diskManager.readPage p.fd p.pageNo (b.pages f).data = (true, data, dm)) :
    ∃ b', fetchPage p b = .ok (some f) b' ∧ (b'.pages f).data = data := by
  have hpage : BufferPoolManager.readPage p f { b with
      freeList := rest
      pages := Function.update b.pages f
        ⟨p, (b.pages f).data, false, (b.pages f).pinCount⟩ } =
      .ok () { b with
        freeList := rest
        pages := Function.update b.pages f ⟨p, data, false, (b.pages f).pinCount⟩
        diskManager := dm } := by
    refine readPage_eq_ok_iff.mpr ⟨data, dm, ?_, ?_⟩
    · simp only [Function.update_self]
      exact hread
    · simp [setPage]
  simp only [fetchPage, get_bind_apply, hp, findVictimPage, hfree, bind_assoc, set_bind_apply,
    pure_bind, hclean, Bool.false_eq_true, if_false, setPage]
  rw [bind_of_ok hpage]
  refine ⟨_, rfl, ?_⟩
  simp

/-- A page that was fetched into a clean free frame was read. -/
theorem fetchPage_free_eq_ok {b b' : BufferPoolManager DiskManager} {p : PageId} {f : Nat}
    {rest : List Nat} (hp : b.pageTable p = none) (hfree : b.freeList = f :: rest)
    (hclean : (b.pages f).isDirty = false) {r : Option Nat} (hrun : fetchPage p b = .ok r b') :
    r = some f ∧ ∃ dm,
      b.diskManager.readPage p.fd p.pageNo (b.pages f).data = (true, (b'.pages f).data, dm) := by
  simp only [fetchPage, get_bind_apply, hp, findVictimPage, hfree, bind_assoc, set_bind_apply,
    pure_bind, hclean, Bool.false_eq_true, if_false, setPage] at hrun
  obtain ⟨u, b₁, hread, hrun⟩ := bind_eq_ok_iff.mp hrun
  obtain ⟨data, dm, hdisk, rfl⟩ := readPage_eq_ok_iff.mp hread
  simp only [Function.update_self] at hdisk
  cases hrun
  refine ⟨rfl, dm, ?_⟩
  simp only [Function.update_self, setPage]
  exact hdisk

/-- Every field of a header that started as `init` is an `int`. -/
theorem ofBytes_toBytes_init {recordSize numPages firstFreePageNo : Int} (h1 : 1 ≤ recordSize)
    (h2 : recordSize ≤ rmMaxRecordSize) (hpages : IsInt numPages) (hfree : IsInt firstFreePageNo) :
    RmFileHdr.ofBytes
        { RmFileHdr.init recordSize with numPages, firstFreePageNo : RmFileHdr }.toBytes =
      { RmFileHdr.init recordSize with numPages, firstFreePageNo } := by
  have hmax : recordSize ≤ 512 := h2
  set per := (32601 : Int) / (1 + recordSize * 8) with hper
  have hper0 : 0 ≤ per := Int.ediv_nonneg (by decide) (by omega)
  have hper1 : per ≤ 32601 := Int.ediv_le_self _ (by decide)
  have hinit : (RmFileHdr.init recordSize).numRecordsPerPage = per ∧
      (RmFileHdr.init recordSize).bitmapSize = (per + 8 - 1) / 8 := ⟨rfl, rfl⟩
  refine RmFileHdr.ofBytes_toBytes ?_ hpages ?_ hfree ?_
  · change IsInt recordSize
    exact ⟨by omega, by omega⟩
  · change IsInt (RmFileHdr.init recordSize).numRecordsPerPage
    rw [hinit.1]
    exact ⟨by omega, by omega⟩
  · change IsInt (RmFileHdr.init recordSize).bitmapSize
    rw [hinit.2]
    exact ⟨by omega, by omega⟩

/-! ### Creating, opening and closing -/

variable {filename : String}

theorem onDisk_eq_ok {f : DiskManager → Except RedBaseError DiskManager} {u : Unit}
    (hrun : onDisk f b = .ok u b') :
    ∃ dm, f b.diskManager = .ok dm ∧ b' = { b with diskManager := dm } := by
  cases hf : f b.diskManager with
  | error e =>
    rw [onDisk_of_error hf] at hrun
    cases hrun
  | ok dm =>
    rw [onDisk_of_ok hf] at hrun
    cases hrun
    exact ⟨dm, rfl, rfl⟩

/-- A header that was read. -/
theorem managerReadPage_eq_ok {pageNo : Int} {n : Nat}
    {buf data : Fin n → UInt8} (hrun : ManagerM.readPage fd pageNo buf b = .ok data b') :
    ∃ dm, b.diskManager.readPage fd pageNo buf = (true, data, dm) ∧
      b' = { b with diskManager := dm } := by
  rcases hr : b.diskManager.readPage fd pageNo buf with ⟨_ | _, data', dm⟩
  · simp [ManagerM.readPage, hr] at hrun
  · simp only [ManagerM.readPage, get_bind_apply, hr, set_bind_apply, if_true, pure_apply,
      Result.ok.injEq] at hrun
    exact ⟨dm, by rw [hrun.1], hrun.2.symm⟩

/-- `create_file` makes a file, opens it, writes the first header and closes it again. -/
theorem rmCreateFile_new {fd₀ recordSize : Int}
    (hrun : RmManager.createFile fd₀ fd filename recordSize b = .ok () b') :
    ∃ dm, b' = { b with diskManager := dm.closeFile fd } ∧ NewFile b.diskManager filename fd dm ∧
      b.diskManager.path2fd filename = none ∧ 0 ≤ fd ∧ 1 ≤ recordSize ∧
      recordSize ≤ rmMaxRecordSize ∧
      dm.header fd RmFileHdr.size = some (RmFileHdr.init recordSize).toBytes := by
  unfold RmManager.createFile at hrun
  split_ifs at hrun with hsize
  · cases hrun
  beta_reduce at hrun
  cases hc : b.diskManager.createFile fd₀ filename with
  | error e =>
    rw [bind_of_error (onDisk_of_error hc)] at hrun
    cases hrun
  | ok dm₁ =>
    rw [bind_of_ok (onDisk_of_ok hc)] at hrun
    cases ho : dm₁.openFile fd filename with
    | error e =>
      rw [bind_of_error (onDisk_of_error ho)] at hrun
      cases hrun
    | ok dm₂ =>
      rw [bind_of_ok (onDisk_of_ok ho)] at hrun
      obtain ⟨hnew, hpath, hfd, -, -⟩ := NewFile.create hc ho
      obtain ⟨dm₃, hw, hso, hf⟩ := writePage_open hnew.isOpen rmFileHdrPage
        (RmFileHdr.init recordSize).toBytes
      rw [bind_of_ok (managerWritePage_of_ok hw)] at hrun
      cases hrun
      exact ⟨dm₃, rfl, hnew.trans hso hf, hpath, hfd, by omega, by omega, header_writePage_self hw⟩

/-- The file is in the directory, and it holds the first header. -/
theorem rmCreateFile_header {fd₀ recordSize : Int}
    (hrun : RmManager.createFile fd₀ fd filename recordSize b = .ok () b') :
    b'.diskManager.os.dir.find filename = some b.diskManager.os.nextInode ∧
      (b'.diskManager.os.file b.diskManager.os.nextInode).read 0 RmFileHdr.size =
        some (RmFileHdr.init recordSize).toBytes := by
  obtain ⟨dm, rfl, hnew, -, -, -, -, hh⟩ := rmCreateFile_new hrun
  obtain ⟨o, ho, hi⟩ := Option.map_eq_some_iff.mp hnew.self
  rw [DiskManager.header, ho, Option.bind_some, hi] at hh
  constructor
  · rw [closeFile_dir, hnew.dir]
    exact Directory.find_set_self
  · rw [(closeFile_fds dm fd).1]
    exact hh

/-- **`create_file`** leaves a file that holds the first header. -/
theorem rmCreateFile_spec {fd₀ recordSize : Int} (hok : FilesOk b.diskManager)
    (hopen : ¬b.diskManager.IsOpen fd)
    (hrun : RmManager.createFile fd₀ fd filename recordSize b = .ok () b') :
    ∃ dm i, b' = { b with diskManager := dm } ∧ FilesOk dm ∧
      1 ≤ recordSize ∧ recordSize ≤ rmMaxRecordSize ∧ dm.os.dir.find filename = some i ∧
      dm.Unopened i ∧
      (dm.os.file i).read 0 RmFileHdr.size = some (RmFileHdr.init recordSize).toBytes := by
  obtain ⟨hdir, hread⟩ := rmCreateFile_header hrun
  obtain ⟨dm, rfl, hnew, hpath, hfd, h1, h2, -⟩ := rmCreateFile_new hrun
  have hquiet := hnew.close hok hpath hfd hopen
  exact ⟨dm.closeFile fd, _, rfl, hquiet.filesOk, h1, h2, hdir,
    hquiet.inodes.unopened hok.unopened_next, hread⟩

/-- **`open_file`** reads the header of the file and sets the counter. -/
theorem rmOpenFile_spec {i : Nat} {hdr : Fin RmFileHdr.size → UInt8}
    (hdir : b.diskManager.os.dir.find filename = some i)
    (hpath : b.diskManager.path2fd filename = none) (hfd : 0 ≤ fd)
    (hread : (b.diskManager.os.file i).read 0 RmFileHdr.size = some hdr)
    (buf : Fin RmFileHdr.size → UInt8) :
    ∃ dm, RmManager.openFile fd buf filename b =
        .ok ⟨fd, .ofBytes hdr⟩ { b with diskManager := dm } ∧
      (FilesOk b.diskManager → b.diskManager.Unopened i → FilesOk dm) ∧
      dm.os.file = b.diskManager.os.file ∧
      (∃ o, dm.os.fds fd = some o ∧ o.inode = i ∧ dm.os.dir.find filename = some i) ∧
      dm.fd2pageno fd = (RmFileHdr.ofBytes hdr).numPages := by
  obtain ⟨dm₁, ho⟩ : ∃ dm₁, b.diskManager.openFile fd filename = .ok dm₁ := by
    unfold DiskManager.openFile
    rw [hdir, hpath]
    simp only
    rw [if_neg (by omega)]
    exact ⟨_, rfl⟩
  obtain ⟨-, j, hj, -, hdm₁⟩ := openFile_eq_ok ho
  obtain rfl : j = i := Option.some.inj (hj.symm.trans hdir)
  have hfds : dm₁.os.fds fd = some ⟨j, 0⟩ := by
    rw [hdm₁]
    exact Function.update_self ..
  have hfile : dm₁.os.file = b.diskManager.os.file := by rw [hdm₁]
  -- the new descriptor stands for the same file, so it reads the same header
  have hh : dm₁.header fd RmFileHdr.size = some hdr := by
    rw [DiskManager.header, hfds, Option.bind_some, hfile]
    exact hread
  obtain ⟨dm₂, hr⟩ := readPage_of_header hh buf
  have hr₂ : dm₂ = (dm₁.readPage fd 0 buf).2.2 := by rw [hr]
  obtain ⟨hso, hfile₂⟩ := readPage_sameOpen dm₁ fd 0 buf
  rw [← hr₂] at hso hfile₂
  have hread₂ : ManagerM.readPage fd rmFileHdrPage buf { b with diskManager := dm₁ } =
      .ok hdr { b with diskManager := dm₂ } := by
    simp [ManagerM.readPage, hr]
  refine ⟨dm₂.setFd2pageno fd (RmFileHdr.ofBytes hdr).numPages, ?_, fun hok hnot => ?_, ?_, ?_, ?_⟩
  · unfold RmManager.openFile RmManager.newHandle
    rw [bind_of_ok (onDisk_of_ok ho), bind_of_ok hread₂]
    rfl
  · obtain ⟨i, hi, -, hopened⟩ := Opened.openFile hok ho
    obtain rfl : j = i := Option.some.inj (hdir.symm.trans hi)
    have hset : SameOpen dm₂ (dm₂.setFd2pageno fd (RmFileHdr.ofBytes hdr).numPages) :=
      ⟨fun _ => rfl, rfl, rfl, rfl, rfl⟩
    exact (hso.trans hset).filesOk (hopened hnot).filesOk
  · exact hfile₂.trans hfile
  · obtain ⟨o, ho₂, hi⟩ := hso.sameInodes.symm.exists_open hfds
    refine ⟨o, ho₂, hi, ?_⟩
    change dm₂.os.dir.find filename = some j
    rw [hso.dir, hdm₁]
    exact hdir
  · exact Function.update_self ..

/-- `open_file` changes neither the directory nor a file. -/
theorem rmOpenFile_keeps {buf : Fin RmFileHdr.size → UInt8} {handle : RmFileHandle}
    (hrun : RmManager.openFile fd buf filename b = .ok handle b') :
    b'.diskManager.os.dir = b.diskManager.os.dir ∧
      b'.diskManager.os.file = b.diskManager.os.file := by
  obtain ⟨_, b₁, hopen, hrun⟩ := bind_eq_ok_iff.mp hrun
  obtain ⟨dm₁, hdisk, rfl⟩ := onDisk_eq_ok hopen
  obtain ⟨-, i, -, -, hdm₁⟩ := openFile_eq_ok hdisk
  obtain ⟨bytes, b₂, hread, hrun⟩ := bind_eq_ok_iff.mp hrun
  obtain ⟨dm₂, hdisk₂, rfl⟩ := managerReadPage_eq_ok hread
  cases hrun
  have hsame := readPage_sameOpen dm₁ fd rmFileHdrPage buf
  rw [hdisk₂] at hsame
  exact ⟨hsame.1.dir.trans (by rw [hdm₁]), hsame.2.trans (by rw [hdm₁])⟩

/-- **`close_file`** leaves header and pages in the file. -/
theorem rmCloseFile_spec {s : PooledRmFile} (h : s.Inv filename)
    (hle : s.handle.fileHdr.numPages ≤ 2 ^ 19) :
    ∃ b i, RmManager.closeFile s.handle s.bpm = .ok () b ∧
      b.diskManager.os.dir.find filename = some i ∧
      (b.diskManager.os.file i).read 0 RmFileHdr.size = some s.handle.fileHdr.toBytes ∧
      ∀ k d, s.bpm.resident ⟨s.handle.fd, k⟩ = some d →
        (b.diskManager.os.file i).read (k.toNat * pageSize) pageSize = some d := by
  obtain ⟨o, ho, hdir⟩ := h.file
  have hopen : s.bpm.diskManager.IsOpen s.handle.fd := by simp [DiskManager.IsOpen, ho]
  obtain ⟨dm₁, hw, hso₁, -⟩ := writePage_open hopen rmFileHdrPage s.handle.fileHdr.toBytes
  have hh₁ := header_writePage_self hw
  -- the header is written behind the pool
  have hpins₁ : PinsFile s.handle.fd s.handle.fileHdr.numPages { s.bpm with diskManager := dm₁ } :=
    h.pins.of_table (h.pins.frames.congr rfl rfl rfl rfl fun _ => ⟨rfl, rfl, id⟩)
      (fun _ _ => Iff.rfl) (fun _ _ hf => (h.pins.mapped hf).2.2) fun _ hf => ⟨hf, rfl⟩
  have hopen₁ : dm₁.IsOpen s.handle.fd := (hso₁.sameInodes.isOpen_iff _).mpr hopen
  obtain ⟨b₂, hflush, -⟩ := flushAllPages_open
    (show { s.bpm with diskManager := dm₁ }.diskManager.IsOpen s.handle.fd from hopen₁)
  obtain ⟨hso₂, hh₂, hpages⟩ := hpins₁.flushAllPages hle (hso₁.distinct h.files.distinct)
    (by decide) hh₁ hflush
  obtain ⟨o₂, ho₂, hi⟩ := (hso₁.trans hso₂).sameInodes.symm.exists_open ho
  refine ⟨{ b₂ with diskManager := b₂.diskManager.closeFile s.handle.fd }, o.inode, ?_, ?_, ?_,
    fun k d hr => ?_⟩
  · unfold RmManager.closeFile
    rw [bind_of_ok (managerWritePage_of_ok hw), bind_of_ok hflush]
    rfl
  · change (b₂.diskManager.closeFile s.handle.fd).os.dir.find filename = some o.inode
    rw [closeFile_dir, (hso₁.trans hso₂).dir]
    exact hdir
  · change ((b₂.diskManager.closeFile s.handle.fd).os.file o.inode).read 0 RmFileHdr.size = _
    rw [DiskManager.header, ho₂, Option.bind_some, hi] at hh₂
    rw [(closeFile_fds b₂.diskManager s.handle.fd).1]
    exact hh₂
  · have hc := hpages k d hr
    rw [DiskManager.contents, ho₂, Option.bind_some, hi] at hc
    change ((b₂.diskManager.closeFile s.handle.fd).os.file o.inode).read _ pageSize = _
    rw [(closeFile_fds b₂.diskManager s.handle.fd).1]
    exact hc

end

namespace PooledRmFile

variable {filename : String} {s : PooledRmFile}

/-- The header of a file in order survives the way to disk and back. -/
theorem Inv.ofBytes_toBytes (h : s.Inv filename) (hle : s.handle.fileHdr.numPages ≤ 2 ^ 19) :
    RmFileHdr.ofBytes s.handle.fileHdr.toBytes = s.handle.fileHdr := by
  obtain ⟨n, m, x, h1, h2, he⟩ := h.hdr
  have hpos := h.pos
  have hfree := h.linked_isInt hle h.free
  rw [he] at hle hpos hfree ⊢
  exact ofBytes_toBytes_init h1 h2 ⟨by simp only at hpos; omega, by simp only at hle; omega⟩ hfree

/-- **A file in order is durable** if it has at most `2^19` pages. -/
theorem Inv.durable (h : s.Inv filename) (hle : s.handle.fileHdr.numPages ≤ 2 ^ 19) :
    s.Durable filename := by
  obtain ⟨b, i, hclose, hdir, hhdr, hpages⟩ := rmCloseFile_spec h hle
  refine ⟨b, hclose, fun poolSize fd₀ fd buf hpool hfd => ?_⟩
  obtain ⟨dm, hopen, -, hfile, ⟨o, ho, hi, -⟩, hcounter⟩ :=
    rmOpenFile_spec (b := .new poolSize fd₀ (.new b.diskManager.os.endProcess)) hdir rfl hfd hhdr
      buf
  rw [h.ofBytes_toBytes hle] at hopen hcounter
  refine ⟨_, .new poolSize fd₀ dm, hopen, rfl, hcounter, fun rid hin => ?_⟩
  -- the page is read from disk into the first frame
  have hfetch : ∀ d, s.bpm.resident ⟨s.handle.fd, rid.pageNo⟩ = some d → ∃ f b',
      PooledRmFile.fetchPageHandle rid.pageNo ⟨⟨fd, s.handle.fileHdr⟩,
        .new poolSize fd₀ dm⟩ = .ok f ⟨⟨fd, s.handle.fileHdr⟩, b'⟩ ∧ (b'.pages f).data = d := by
    intro d hd
    have hlo : 1 ≤ rid.pageNo := hin.1
    have hhi := hin.2.1
    have hc : dm.contents ⟨fd, rid.pageNo⟩ = some d := by
      rw [DiskManager.contents, ho, Option.bind_some, hi, hfile]
      exact hpages rid.pageNo d hd
    obtain ⟨dm', hread⟩ := readPage_of_contents (p := ⟨fd, rid.pageNo⟩)
      ⟨by simp only; omega, by simp only; omega⟩ hc zeroPage
    obtain ⟨rest, hrange⟩ : ∃ rest, List.range poolSize = 0 :: rest := by
      obtain ⟨m, rfl⟩ := Nat.exists_eq_add_of_lt hpool
      exact ⟨_, by rw [Nat.zero_add]; exact List.range_succ_eq_map⟩
    obtain ⟨b', hrun, hdata⟩ := fetchPage_free (p := ⟨fd, rid.pageNo⟩)
      (b := .new poolSize fd₀ dm) rfl hrange rfl hread
    refine ⟨0, b', ?_, hdata⟩
    have hon : onPool (BufferPoolManager.fetchPage ⟨fd, rid.pageNo⟩) ⟨⟨fd, s.handle.fileHdr⟩,
        .new poolSize fd₀ dm⟩ = .ok (some 0) ⟨⟨fd, s.handle.fileHdr⟩, b'⟩ := by
      simp only [onPool, hrun]
    simp only [PooledRmFile.fetchPageHandle, get_bind_apply, bind_of_ok hon, pure_apply]
  constructor
  · obtain ⟨d, t, hd, -, hold⟩ := h.isRecord hin
    obtain ⟨f, b', hrun, rfl⟩ := hfetch d hd
    refine ⟨_, t, ⟨⟨fd, s.handle.fileHdr⟩, b'⟩, hold, ?_⟩
    rw [PooledRmFile.isRecord, bind_of_ok hrun]
    rfl
  · obtain ⟨d, t, hd, -, hold⟩ := h.getRecord hin
    obtain ⟨f, b', hrun, rfl⟩ := hfetch d hd
    refine ⟨_, t, ⟨⟨fd, s.handle.fileHdr⟩, b'⟩, hold, ?_⟩
    rw [PooledRmFile.getRecord, bind_of_ok hrun]
    rfl

end PooledRmFile

/-- A call of the pool that returned. -/
theorem PooledRmFile.onPool_eq_ok {α : Type} {x : PoolM DiskManager α} {a : α} {s' : PooledRmFile}
    (hrun : PooledRmFile.onPool x s = .ok a s') :
    ∃ b, x s.bpm = .ok a b ∧ s' = { s with bpm := b } := by
  unfold PooledRmFile.onPool at hrun
  cases hx : x s.bpm with
  | error e b =>
    rw [hx] at hrun
    cases hrun
  | ok a' b =>
    rw [hx] at hrun
    cases hrun
    exact ⟨b, rfl, rfl⟩

/-! ### Runs -/

/-- The pool holds no page of a file that was open under `fd`. -/
def BufferPoolManager.Unused (b : BufferPoolManager DiskManager) (fd : Int) : Prop :=
  (∀ k, b.pageTable ⟨fd, k⟩ = none) ∧
    ∀ f ∈ b.freeList, (b.pages f).id.fd = fd → (b.pages f).id.pageNo = invalidPageId

/-- A record file that was just created and opened is in order, with the header of a new file. -/
theorem PooledRmFile.inv_create {b b₁ b₂ : BufferPoolManager DiskManager} (hframes : FrameInv b)
    (hfiles : FilesOk b.diskManager) {fd₀ fd₁ fd : Int}
    {filename : String} {recordSize : Int} {buf : Fin RmFileHdr.size → UInt8}
    {handle : RmFileHandle} (hfd₁ : ¬b.diskManager.IsOpen fd₁)
    (hcreate : RmManager.createFile fd₀ fd₁ filename recordSize b = .ok () b₁)
    (hunused : b.Unused fd) (hopen : RmManager.openFile fd buf filename b₁ = .ok handle b₂) :
    PooledRmFile.Inv filename ⟨handle, b₂⟩ ∧ handle.fileHdr = .init recordSize := by
  obtain ⟨dm₁, i, rfl, hfiles₁, h1, h2, hdir, hnot, hread⟩ := rmCreateFile_spec hfiles hfd₁ hcreate
  -- `open_file` got past the tables, or it would not have returned
  obtain ⟨hfd, hpath⟩ : 0 ≤ fd ∧ dm₁.path2fd filename = none := by
    cases ho : dm₁.openFile fd filename with
    | error e =>
      unfold RmManager.openFile at hopen
      rw [bind_of_error (onDisk_of_error ho)] at hopen
      cases hopen
    | ok dm₂ =>
      obtain ⟨hfd, _, -, hp, -⟩ := openFile_eq_ok ho
      exact ⟨hfd, hp⟩
  obtain ⟨dm₂, hopen', hok, -, ⟨o, ho, hi, hdir₂⟩, hcounter⟩ :=
    rmOpenFile_spec (b := { b with diskManager := dm₁ }) hdir hpath hfd hread buf
  rw [hopen'] at hopen
  cases hopen
  have hhdr : RmFileHdr.ofBytes (RmFileHdr.init recordSize).toBytes = .init recordSize :=
    @ofBytes_toBytes_init recordSize 1 rmNoPage h1 h2 ⟨by decide, by decide⟩ ⟨by decide, by decide⟩
  have hnone : ∀ k, b.resident ⟨fd, k⟩ = none := by
    intro k
    rw [resident, hunused.1 k]
    rfl
  refine ⟨?_, hhdr⟩
  exact
    { hdr := ⟨recordSize, 1, rmNoPage, h1, h2, hhdr⟩
      pos := by rw [hhdr]; exact le_refl 1
      pins :=
        { frames := hframes.congr rfl rfl rfl rfl fun _ => ⟨rfl, rfl, id⟩
          mapped := fun {k f} hf => by
            rw [hunused.1 k] at hf
            cases hf
          total := fun {k} hk1 hk2 => by
            rw [hhdr] at hk2
            exact absurd (lt_of_le_of_lt hk1 hk2) (lt_irrefl _)
          free := hunused.2 }
      files := hok hfiles₁ hnot
      file := ⟨o, ho, by rw [hi]; exact hdir₂⟩
      counter := hcounter
      free := Or.inl (by rw [hhdr]; rfl)
      next := fun {k d} hd _ => by
        have := hd.symm.trans (hnone k)
        cases this }

/-- **Record files are durable.**  Take a process whose tables are in order, create and open a
record file under a descriptor that the pool holds no pages for, and run any calls on it, with calls
of other clients on other descriptors in between.  After every call, if the file has at most `2^19`
pages, closing it and opening it in a new process gives back the same header, the same answers and
records for every rid of the file, and a page counter of `num_pages`. -/
theorem records_durable (b b₁ b₂ : BufferPoolManager DiskManager) (hframes : FrameInv b)
    (hfiles : FilesOk b.diskManager) (fd₀ fd₁ fd : Int) (filename : String) (recordSize : Int)
    (buf : Fin RmFileHdr.size → UInt8) (handle : RmFileHandle) (hfd₁ : ¬b.diskManager.IsOpen fd₁)
    (hcreate : RmManager.createFile fd₀ fd₁ filename recordSize b = .ok () b₁)
    (hunused : b.Unused fd) (hopen : RmManager.openFile fd buf filename b₁ = .ok handle b₂)
    (run : List (PooledCall × PooledRmFile)) (hrun : Run PooledCall.Step ⟨handle, b₂⟩ run) :
    PooledRmFile.Durable filename ⟨handle, b₂⟩ ∧
      ∀ e ∈ run, e.2.handle.fileHdr.numPages ≤ 2 ^ 19 → e.2.Durable filename := by
  obtain ⟨hinv, hinit⟩ := PooledRmFile.inv_create hframes hfiles hfd₁ hcreate hunused hopen
  have hone : handle.fileHdr.numPages ≤ 2 ^ 19 := by
    rw [hinit]
    change (1 : Int) ≤ 2 ^ 19
    decide
  refine ⟨hinv.durable hone, fun e he hle => ?_⟩
  -- a file that has few pages had few pages before
  have hall := (hrun.along_of_invariant (C := fun _ _ _ => True) (Q := fun _ _ _ => True)
    (I := fun s => s.handle.fileHdr.numPages ≤ 2 ^ 19 → s.Inv filename)
    (fun s call s' h hstep _ => ⟨fun hle' =>
      have hle := (PooledRmFile.callStep_numPages_le hstep).trans hle'
      PooledRmFile.callStep_inv (h hle) hle hstep, trivial⟩) (fun _ => hinv)
    (.of_forall (fun _ _ _ => trivial) _ _)).1
  exact (hall e he hle).durable hle

/-- A record is inserted, another client creates a page of its own and gives it back, the record is
overwritten and deleted, and a second one takes its slot. -/
theorem records_durable_two_inserts :
    ∃ (b₁ b₂ : BufferPoolManager DiskManager) (run : List (PooledCall × PooledRmFile)),
      RmManager.createFile 3 3 "t" 4 (.new 2 (fun _ => 0) (.new noFiles)) = .ok () b₁ ∧
      RmManager.openFile 3 (fun _ => 0) "t" b₁ = .ok ⟨3, .init 4⟩ b₂ ∧
      run.map Prod.fst = [.insertRecord fun _ => 7, .other (.newPage 9),
        .other (.unpinPage ⟨9, 0⟩ true), .updateRecord ⟨1, 0⟩ fun _ => 8, .deleteRecord ⟨1, 0⟩,
        .insertRecord fun _ => 9] ∧
      Run PooledCall.Step ⟨⟨3, .init 4⟩, b₂⟩ run ∧ ∀ e ∈ run, e.2.Durable "t" := by
  have hfiles : FilesOk (.new noFiles) :=
    .new noFiles (by simp [noFiles, Directory.find]) fun _ => rfl
  have hcreate : RmManager.createFile 3 3 "t" 4 (.new 2 (fun _ => 0) (.new noFiles)) = .ok () _ :=
    eq_ok_of_value (by decide +kernel)
  have hopen : RmManager.openFile 3 (fun _ => 0) "t" _ = .ok ⟨3, .init 4⟩ _ :=
    eq_ok_of_value (s := (RmManager.createFile 3 3 "t" 4).after
      (.new 2 (fun _ => 0) (.new noFiles))) (by decide +kernel)
  have hrun : Run PooledCall.Step ⟨⟨3, .init 4⟩, (RmManager.openFile 3 (fun _ => 0) "t").after
      ((RmManager.createFile 3 3 "t" 4).after (.new 2 (fun _ => 0) (.new noFiles)))⟩
      [(.insertRecord fun _ => 7, _), (.other (.newPage 9), _),
        (.other (.unpinPage ⟨9, 0⟩ true), _), (.updateRecord ⟨1, 0⟩ fun _ => 8, _),
        (.deleteRecord ⟨1, 0⟩, _), (.insertRecord fun _ => 9, _)] :=
    .cons ⟨⟨1, 0⟩, eq_ok_of_value (by decide +kernel), by decide +kernel⟩
      (.cons ⟨by decide, trivial, _, ⟨eq_ok_of_value (by decide +kernel),
          by rintro fd ⟨⟩; unfold FreshAlloc; decide +kernel⟩, rfl⟩
        (.cons ⟨by decide, trivial, _, ⟨eq_ok_of_value (by decide +kernel), by rintro fd ⟨⟩⟩, rfl⟩
          (.cons ⟨by unfold RmFileHdr.InRange; decide +kernel, eq_ok_of_value (by decide +kernel)⟩
            (.cons ⟨by unfold RmFileHdr.InRange; decide +kernel, eq_ok_of_value (by decide +kernel)⟩
              (.cons ⟨⟨1, 0⟩, eq_ok_of_value (by decide +kernel), by decide +kernel⟩ (.nil _))))))
  have hdurable := records_durable _ _ _ (frameInv_new 2 _ _) hfiles 3 3 3 "t" 4
    (fun _ => 0) _ (by decide) hcreate ⟨fun _ => rfl, fun _ _ _ => rfl⟩ hopen _ hrun
  -- one page is all the file gets
  refine ⟨_, _, _, hcreate, hopen, rfl, hrun, fun e he => hdurable.2 e he ?_⟩
  simp only [List.mem_cons, List.not_mem_nil, or_false] at he
  rcases he with rfl | rfl | rfl | rfl | rfl | rfl <;> decide +kernel

/-! ### A file of many pages -/

/-- The disk manager of a process that has created a file of four-byte records and opened it. -/
def createdFile : DiskManager :=
  ((RmManager.openFile 3 (fun _ => 0) "t").after ((RmManager.createFile 3 3 "t" 4).after
    (.new 0 (fun _ => 0) (.new noFiles)))).diskManager

/-- The size of the pool is not looked at. -/
theorem openFile_created (N : Nat) : RmManager.openFile 3 (fun _ => 0) "t"
      ((RmManager.createFile 3 3 "t" 4).after (.new N (fun _ => 0) (.new noFiles))) =
    .ok ⟨3, .init 4⟩ (.new N (fun _ => 0) createdFile) := by
  have hvalue : (RmManager.openFile 3 (fun _ => 0) "t").value
        ((RmManager.createFile 3 3 "t" 4).after (.new N (fun _ => 0) (.new noFiles))) =
      (RmManager.openFile 3 (fun _ => 0) "t").value
        ((RmManager.createFile 3 3 "t" 4).after (.new 0 (fun _ => 0) (.new noFiles))) := rfl
  exact eq_ok_of_value (hvalue.trans (by decide +kernel))

/-- A new page after a record went into its first slot. -/
def recordPage (hdr : RmFileHdr) (buf : Nat → UInt8) : PageData :=
  let d := zeroPage.memcpy (getSlot hdr 0) buf hdr.recordSize.toNat
  let d := setBitmap d (0 : Int).toNat (Bitmap.set (bitmap d) (0 : Int).toNat)
  setNumRecords d (numRecords d + 1)

/-- The first `m` of `N` frames hold the pages `1 .. m` with a record each, and the other frames
have not been used. -/
structure OneEach (N m : Nat) (s : PooledRmFile) : Prop where
  handle : s.handle = ⟨3, { RmFileHdr.init 4 with numPages := m + 1 }⟩
  poolSize : s.bpm.poolSize = N
  freeList : s.bpm.freeList = List.range' m (N - m)
  page : ∀ f < m, (s.bpm.pages f).id = ⟨3, f + 1⟩ ∧
    (s.bpm.pages f).data = recordPage (.init 4) fun _ => 7
  unused : ∀ f, m ≤ f → s.bpm.pages f = ⟨⟨0, invalidPageId⟩, zeroPage, false, 0⟩
  table : ∀ p f, s.bpm.pageTable p = some f ↔ f < m ∧ p = ⟨3, f + 1⟩
  os : s.bpm.diskManager.os = createdFile.os
  counter : s.bpm.diskManager.fd2pageno 3 = m + 1

section

variable {N m : Nat} {s : PooledRmFile}

theorem OneEach.zero (N : Nat) : OneEach N 0 ⟨⟨3, .init 4⟩, .new N (fun _ => 0) createdFile⟩ where
  handle := rfl
  poolSize := rfl
  freeList := List.range_eq_range'
  page f hf := by omega
  unused f _ := rfl
  table p f := by simp [BufferPoolManager.new]
  os := rfl
  counter := by
    change createdFile.fd2pageno 3 = 1
    decide +kernel

/-- A record goes into the first slot of a page that was just created. -/
theorem insertRecord_created {t : PooledRmFile} {f : Nat} {hdr : RmFileHdr} (buf : Nat → UInt8)
    (hcreate : PooledRmFile.createPageHandle s = .ok f t)
    (hdata : (t.bpm.pages f).data = zeroPage) (hhdr : t.handle.fileHdr = hdr)
    (hfirst : Bitmap.firstBit false (bitmap zeroPage) hdr.numRecordsPerPage = 0)
    (hfew : ¬numRecords (recordPage hdr buf) ≥ hdr.numRecordsPerPage) :
    PooledRmFile.insertRecord buf s = .ok ⟨(t.bpm.pages f).id.pageNo, 0⟩
      { t with bpm := t.bpm.setData f (recordPage hdr buf) } := by
  rw [PooledRmFile.insertRecord, bind_of_ok hcreate, get_bind_apply,
    PooledRmFile.getData_bind_apply]
  dsimp only
  rw [PooledRmFile.setData_bind_apply, hdata, hhdr, hfirst]
  exact congrFun (if_neg hfew) _

/-- The page that `NewPage` creates in the first frame that was not used. -/
theorem OneEach.newPage (h : OneEach N m s) (hm : m < N) :
    ∃ b, BufferPoolManager.newPage 3 s.bpm = .ok (some (m, ⟨3, m + 1⟩)) b ∧
      b.poolSize = N ∧ b.freeList = List.range' (m + 1) (N - (m + 1)) ∧
      b.pages = Function.update s.bpm.pages m ⟨⟨3, m + 1⟩, zeroPage, false, 1⟩ ∧
      (∀ p f, b.pageTable p = some f ↔ f < m + 1 ∧ p = ⟨3, f + 1⟩) ∧
      b.diskManager.os = createdFile.os ∧ b.diskManager.fd2pageno 3 = m + 2 := by
  have hfree : s.bpm.freeList = m :: List.range' (m + 1) (N - (m + 1)) := by
    rw [h.freeList, show N - m = (N - (m + 1)) + 1 by omega, List.range'_succ]
  have hframe := h.unused m (le_refl m)
  have hpageNo : (PageDevice.allocatePage s.bpm.diskManager 3).1 = (m : Int) + 1 := h.counter
  -- neither the id left in the frame nor the new id is in the page table
  have hnone : ∀ p : PageId, (∀ f < m, p ≠ ⟨3, f + 1⟩) → s.bpm.pageTable p = none := by
    intro p hp
    by_contra hsome
    obtain ⟨f, hf⟩ := Option.ne_none_iff_exists'.mp hsome
    obtain ⟨hlt, he⟩ := (h.table p f).mp hf
    exact hp f hlt he
  have hzero : s.bpm.pageTable ⟨0, invalidPageId⟩ = none := hnone _ fun f _ he => by
    cases congrArg PageId.fd he
  have hfresh : s.bpm.pageTable ⟨3, m + 1⟩ = none := hnone _ fun f hlt he => by
    have := congrArg PageId.pageNo he
    simp only at this
    omega
  simp only [BufferPoolManager.newPage, findVictimPage, get_bind_apply, hfree, bind_assoc,
    set_bind_apply, pure_bind, updatePage, hframe, Bool.false_eq_true, if_false, setPage,
    Function.update_self, hpageNo]
  refine ⟨_, rfl, h.poolSize, rfl, Function.update_idem .., fun p f => ?_, h.os, ?_⟩
  · dsimp only
    have hinsert : tableInsert s.bpm.pageTable ⟨3, m + 1⟩ m =
        Function.update s.bpm.pageTable ⟨3, m + 1⟩ (some m) := by
      rw [tableInsert, hfresh]
    rw [if_pos (by simp only [invalidPageId]; omega), Function.update_eq_self_iff.mpr hzero.symm,
      hinsert, Function.update_apply]
    split_ifs with hp
    · subst hp
      constructor
      · rintro ⟨⟩
        exact ⟨by omega, rfl⟩
      · rintro ⟨-, he⟩
        have := congrArg PageId.pageNo he
        simp only at this
        rw [Option.some.injEq]
        omega
    · rw [h.table]
      constructor
      · rintro ⟨hlt, he⟩
        exact ⟨by omega, he⟩
      · rintro ⟨hlt, rfl⟩
        refine ⟨?_, rfl⟩
        by_contra hge
        obtain rfl : f = m := by omega
        exact hp rfl
  · change Function.update s.bpm.diskManager.fd2pageno 3 (s.bpm.diskManager.fd2pageno 3 + 1) 3 = _
    rw [Function.update_self, h.counter]
    ring

/-- `first_free_page_no` stays `RM_NO_PAGE`, so every insert creates a page. -/
theorem OneEach.insertRecord (h : OneEach N m s) (hm : m < N) :
    ∃ s', PooledRmFile.insertRecord (fun _ => 7) s = .ok ⟨m + 1, 0⟩ s' ∧ OneEach N (m + 1) s' := by
  obtain ⟨b, hnew, hsize, hrest, hpages, htable, hos, hcounter⟩ := h.newPage hm
  have hneg : s.handle.fileHdr.firstFreePageNo < 0 := by
    rw [h.handle]
    change rmNoPage < 0
    decide
  have hcreate : PooledRmFile.createPageHandle s =
      .ok m ⟨⟨3, { RmFileHdr.init 4 with numPages := (m : Int) + 1 + 1 }⟩, b⟩ := by
    have hpool : PooledRmFile.onPool (BufferPoolManager.newPage s.handle.fd) s =
        .ok (some (m, ⟨3, m + 1⟩)) { s with bpm := b } := by
      simp only [PooledRmFile.onPool, h.handle, hnew]
    rw [PooledRmFile.createPageHandle, get_bind_apply, if_pos hneg,
      PooledRmFile.createNewPageHandle, get_bind_apply, bind_of_ok hpool,
      PooledRmFile.modifyHdr_bind_apply, h.handle]
    rfl
  have hframe : b.pages m = ⟨⟨3, m + 1⟩, zeroPage, false, 1⟩ := by rw [hpages, Function.update_self]
  have hrun := insertRecord_created (fun _ => 7) hcreate (by simp only [hframe]) rfl
    (by show Bitmap.firstBit false _ (RmFileHdr.init 4).numRecordsPerPage = 0; decide +kernel)
    (by
      show ¬numRecords (recordPage (.init 4) _) ≥ (RmFileHdr.init 4).numRecordsPerPage
      decide +kernel)
  simp only [hframe] at hrun
  have hset : (b.setData m (recordPage (.init 4) fun _ => 7)).pages =
      Function.update s.bpm.pages m
        ⟨⟨3, m + 1⟩, recordPage (.init 4) fun _ => 7, false, 1⟩ := by
    rw [setData, setPage, hframe, hpages]
    exact Function.update_idem ..
  refine ⟨_, hrun, ?_⟩
  refine
    { handle := by push_cast; rfl
      poolSize := hsize
      freeList := hrest
      page := fun f hf => ?_
      unused := fun f hf => ?_
      table := htable
      os := hos
      counter := by push_cast; exact hcounter.trans (by ring) }
  · change ((b.setData m (recordPage (.init 4) fun _ => 7)).pages f).id = _ ∧
      ((b.setData m (recordPage (.init 4) fun _ => 7)).pages f).data = _
    rw [hset]
    by_cases hfm : f = m
    · subst hfm
      simp
    · rw [Function.update_of_ne hfm]
      exact h.page f (by omega)
  · change (b.setData m (recordPage (.init 4) fun _ => 7)).pages f = _
    rw [hset, Function.update_of_ne (by omega)]
    exact h.unused f (by omega)

/-- The positions behind the first page, and a zero where the bitmap of a page is read that starts
behind the header. -/
def Behind (dm : DiskManager) : Prop :=
  ∃ pos, dm.os.fds 3 = some ⟨0, pos⟩ ∧ pageSize ≤ pos ∧ (dm.os.file 0).byte 32 = 0

/-- Writing a page leaves the byte alone: pages up to `2^19 - 1` are behind it, and page `2^19` goes
where the file is positioned. -/
theorem behind_writePage {dm dm' : DiskManager} {pos : Nat} {k : Int} {data : PageData}
    (ho : dm.os.fds 3 = some ⟨0, pos⟩) (hbyte : (dm.os.file 0).byte 32 = 0) (h1 : 1 ≤ k)
    (hk : k < 2 ^ 19 ∨ k = 2 ^ 19 ∧ pageSize ≤ pos) (hw : dm.writePage 3 k data = (true, dm')) :
    Behind dm' := by
  -- the position of the write
  obtain ⟨at', hseek, hat⟩ : ∃ at', dm.os.lseek 3 (pageOffset k) =
      { dm.os with fds := Function.update dm.os.fds 3 (some ⟨0, at'⟩) } ∧ pageSize ≤ at' := by
    rcases hk with hk | ⟨rfl, hpos⟩
    · refine ⟨k.toNat * pageSize, ?_, ?_⟩
      · rw [pageOffset_eq (by omega) hk]
        simp only [Os.lseek, ho, Int.natCast_nonneg, if_true, Int.toNat_natCast]
      · calc pageSize = 1 * pageSize := (Nat.one_mul _).symm
          _ ≤ k.toNat * pageSize := Nat.mul_le_mul_right _ (by omega)
    · refine ⟨pos, ?_, hpos⟩
      have hneg : ¬0 ≤ pageOffset (2 ^ 19) := by decide
      simp only [Os.lseek, ho, if_neg hneg]
      rw [← ho, Function.update_eq_self]
  simp only [DiskManager.writePage, hseek, Os.write, Function.update_self, Prod.mk.injEq,
    true_and] at hw
  subst hw
  refine ⟨at' + pageSize, by simp only [Function.update_self], by omega, ?_⟩
  have hsize : pageSize = 4096 := rfl
  simp only [Function.update_self, ByteFile.write]
  rw [dif_neg (by omega)]
  split_ifs
  · exact hbyte
  · rfl

/-- Flushing a file of `2^19` record pages writes page 1 first, and page `2^19` last. -/
theorem OneEach.behind_flushAllPages (h : OneEach N N s) (hN : 1 ≤ N) (hmax : N ≤ 2 ^ 19)
    {b b' : BufferPoolManager DiskManager} {pos : Nat} (hpages : b.pages = s.bpm.pages)
    (hsize : b.poolSize = N) (ho : b.diskManager.os.fds 3 = some ⟨0, pos⟩)
    (hbyte : (b.diskManager.os.file 0).byte 32 = 0) {u : Unit}
    (hrun : flushAllPages 3 b = .ok u b') : Behind b'.diskManager := by
  have hround : ∀ i < N, ∀ {b₁ b₂ : BufferPoolManager DiskManager} {pos : Nat} {u : Unit},
      (∀ f, (b₁.pages f).id = (b.pages f).id) → b₁.diskManager.os.fds 3 = some ⟨0, pos⟩ →
      (b₁.diskManager.os.file 0).byte 32 = 0 → i = 0 ∨ pageSize ≤ pos →
      flushFrame 3 i b₁ = .ok u b₂ →
        Behind b₂.diskManager ∧ ∀ f, (b₂.pages f).id = (b.pages f).id := by
    intro i hi b₁ b₂ pos u hid ho hbyte hpos hflush
    have hid₁ : (b₁.pages i).id = ⟨3, i + 1⟩ := by rw [hid, hpages, (h.page i hi).1]
    rcases flushFrame_cases hflush with ⟨hno, -⟩ | ⟨dm, -, hw, rfl⟩
    · refine absurd ⟨by rw [hid₁], ?_⟩ hno
      rw [hid₁]
      simp only [invalidPageId]
      omega
    · rw [hid₁] at hw
      refine ⟨behind_writePage ho hbyte (by simp only; omega) ?_ hw, fun f => ?_⟩
      · simp only
        omega
      · rw [id_cleanFrame, hid]
  obtain ⟨n, rfl⟩ := Nat.exists_eq_add_of_le hN
  have hrange : List.range (1 + n) = 0 :: (List.range n).map Nat.succ := by
    rw [Nat.add_comm, List.range_succ_eq_map]
  rw [flushAllPages, get_bind_apply, hsize, hrange, forM_cons_apply, bind_eq_ok_iff] at hrun
  obtain ⟨v, b₁, hfirst, hrest⟩ := hrun
  have hb₁ := hround 0 (by omega) (fun _ => rfl) ho hbyte (.inl rfl) hfirst
  refine (forM_induct (I := fun b₁ : BufferPoolManager DiskManager =>
    Behind b₁.diskManager ∧ ∀ f, (b₁.pages f).id = (b.pages f).id) (f := flushFrame 3)
    (fun i hi b₁ b₂ u hb hr => ?_) hrest hb₁).1
  obtain ⟨j, hj, rfl⟩ := List.mem_map.mp hi
  obtain ⟨⟨pos, ho, hpos, hbyte⟩, hid⟩ := hb
  exact hround _ (by have := List.mem_range.mp hj; omega) hid ho hbyte (.inr hpos) hr

/-- Closing the file leaves the byte, and the file where it was. -/
theorem OneEach.closeFile (h : OneEach N N s) (hN : 1 ≤ N) (hmax : N ≤ 2 ^ 19)
    {b : BufferPoolManager DiskManager} (hclose : RmManager.closeFile s.handle s.bpm = .ok () b) :
    b.diskManager.os.dir.find "t" = some 0 ∧ (b.diskManager.os.file 0).byte 32 = 0 := by
  have ho : s.bpm.diskManager.os.fds 3 = some ⟨0, 20⟩ := by
    rw [h.os]
    decide +kernel
  have hopen : s.bpm.diskManager.IsOpen 3 := by simp [DiskManager.IsOpen, ho]
  obtain ⟨dm₁, hw, hso₁, -⟩ := writePage_open hopen rmFileHdrPage s.handle.fileHdr.toBytes
  have hfd : s.handle.fd = 3 := by rw [h.handle]
  obtain ⟨b₂, hflush, hso₂⟩ := flushAllPages_open
    (show { s.bpm with diskManager := dm₁ }.diskManager.IsOpen 3 from
      (hso₁.sameInodes.isOpen_iff _).mpr hopen)
  unfold RmManager.closeFile at hclose
  rw [hfd, bind_of_ok (managerWritePage_of_ok hw), bind_of_ok hflush] at hclose
  cases hclose
  -- the header is written over the first bytes
  obtain ⟨pos, hpos, hbyte⟩ : ∃ pos, dm₁.os.fds 3 = some ⟨0, pos⟩ ∧
      (dm₁.os.file 0).byte 32 = 0 := by
    have hoff : pageOffset rmFileHdrPage = 0 := by decide
    simp only [DiskManager.writePage, hoff, Os.lseek, ho, le_refl, if_true, Os.write,
      Function.update_self, Int.toNat_zero, Prod.mk.injEq, true_and] at hw
    subst hw
    refine ⟨0 + RmFileHdr.size, by simp only [Function.update_self], ?_⟩
    have hzero : (s.bpm.diskManager.os.file 0).byte 32 = 0 := by
      rw [h.os]
      decide +kernel
    simp only [Function.update_self, ByteFile.write]
    rw [dif_neg (by decide)]
    split_ifs
    · exact hzero
    · rfl
  obtain ⟨-, -, -, hbyte₂⟩ := h.behind_flushAllPages (b := { s.bpm with diskManager := dm₁ }) hN
    hmax rfl h.poolSize hpos hbyte hflush
  constructor
  · change (b₂.diskManager.closeFile 3).os.dir.find "t" = some 0
    rw [closeFile_dir, (hso₁.trans hso₂).dir, h.os]
    decide +kernel
  · change ((b₂.diskManager.closeFile 3).os.file 0).byte 32 = 0
    rw [(closeFile_fds b₂.diskManager 3).1]
    exact hbyte₂

/-- In a new process the header leaves the file positioned at byte 20. -/
theorem openFile_reopened {os : Os} (hdir : os.dir.find "t" = some 0) {poolSize : Nat}
    {fd₀ : Nat → Int} {handle : RmFileHandle} {b : BufferPoolManager DiskManager}
    (hopen : RmManager.openFile 3 (fun _ => 0) "t" (.new poolSize fd₀ (.new os)) = .ok handle b) :
    handle.fd = 3 ∧ ∃ dm, b = .new poolSize fd₀ dm ∧ dm.os.fds 3 = some ⟨0, 20⟩ ∧
      dm.os.file = os.file := by
  obtain ⟨dm₁, hopen₁, ho₁, hfile₁⟩ : ∃ dm₁, (DiskManager.new os).openFile 3 "t" = .ok dm₁ ∧
      dm₁.os.fds 3 = some ⟨0, 0⟩ ∧ dm₁.os.file = os.file := by
    simp [DiskManager.openFile, DiskManager.new, hdir]
  rw [RmManager.openFile, bind_of_ok (onDisk_of_ok hopen₁), RmManager.newHandle,
    bind_eq_ok_iff] at hopen
  obtain ⟨bytes, b₁, hread, hopen⟩ := hopen
  obtain ⟨dm₂, hdisk, rfl⟩ := managerReadPage_eq_ok hread
  cases hopen
  refine ⟨rfl, _, rfl, ?_⟩
  -- all 20 bytes of the header were there
  have hoff : pageOffset rmFileHdrPage = 0 := by decide
  simp only [DiskManager.readPage, hoff, Os.lseek, ho₁, le_refl, if_true, Os.read, hfile₁,
    Function.update_self, Int.toNat_zero, Prod.mk.injEq, beq_iff_eq] at hdisk
  obtain ⟨hsize, -, rfl⟩ := hdisk
  refine ⟨?_, rfl⟩
  simp only [DiskManager.setFd2pageno, Function.update_self, hsize]
  rfl

/-- Page `2^19` is read from where the file is positioned. -/
theorem not_isRecord_reopened {dm : DiskManager} (ho : dm.os.fds 3 = some ⟨0, 20⟩)
    (hbyte : (dm.os.file 0).byte 32 = 0) {hdr : RmFileHdr} {fd₀ : Nat → Int} {a : Bool}
    {t : PooledRmFile}
    (hrun : PooledRmFile.isRecord ⟨2 ^ 19, 0⟩ ⟨⟨3, hdr⟩, .new 1 fd₀ dm⟩ = .ok a t) : a = false := by
  obtain ⟨f, t₁, hfetch, hbit⟩ := bind_eq_ok_iff.mp hrun
  rw [PooledRmFile.getData_bind_apply] at hbit
  cases hbit
  rw [PooledRmFile.fetchPageHandle, get_bind_apply] at hfetch
  obtain ⟨r, t₂, hpool, hframe⟩ := bind_eq_ok_iff.mp hfetch
  obtain ⟨b, hpage, rfl⟩ := PooledRmFile.onPool_eq_ok hpool
  obtain ⟨rfl, dm', hread⟩ := fetchPage_free_eq_ok (p := ⟨3, 2 ^ 19⟩) (b := .new 1 fd₀ dm)
    (f := 0) rfl rfl rfl hpage
  cases hframe
  have hneg : ¬0 ≤ pageOffset (2 ^ 19) := by decide
  have hdisk : (BufferPoolManager.new 1 fd₀ dm).diskManager = dm := rfl
  rw [hdisk] at hread
  simp only [DiskManager.readPage, Os.lseek, ho, if_neg hneg, Os.read, Prod.mk.injEq,
    beq_iff_eq] at hread
  obtain ⟨hsize, hdata, -⟩ := hread
  have hfirst : bitmap (b.pages 0).data 0 = 0 := by
    have hlt : bitmapOffset + 0 < pageSize := by decide
    rw [bitmap, PageData.byteAt, dif_pos hlt, ← hdata]
    simp only [hsize, if_pos hlt]
    exact hbyte
  simp [Bitmap.isSet, Bitmap.getBucket, hfirst]

/-- The page that was created last has a record. -/
theorem OneEach.isRecord (h : OneEach N N s) (hN : 1 ≤ N) {a : Bool} {t : PooledRmFile}
    (hrun : PooledRmFile.isRecord ⟨N, 0⟩ s = .ok a t) : a = true := by
  obtain ⟨m, rfl⟩ := Nat.exists_eq_add_of_le' hN
  have htable : s.bpm.pageTable ⟨3, ((m + 1 : Nat) : Int)⟩ = some m :=
    (h.table _ _).mpr ⟨Nat.lt_succ_self m, by push_cast; rfl⟩
  have hfd : s.handle.fd = 3 := by rw [h.handle]
  obtain ⟨f, t₁, hfetch, hbit⟩ := bind_eq_ok_iff.mp hrun
  rw [PooledRmFile.getData_bind_apply] at hbit
  cases hbit
  rw [PooledRmFile.fetchPageHandle, get_bind_apply] at hfetch
  obtain ⟨r, t₂, hpool, hframe⟩ := bind_eq_ok_iff.mp hfetch
  obtain ⟨b, hpage, rfl⟩ := PooledRmFile.onPool_eq_ok hpool
  simp only [hfd, fetchPage, get_bind_apply, htable] at hpage
  cases hpage
  cases hframe
  have hdata : ((s.bpm.pages m).data) = recordPage (.init 4) fun _ => 7 := (h.page m (by omega)).2
  simp [setPage, hdata]
  decide +kernel

/-- Inserting the same record again and again fills one frame after the other. -/
theorem OneEach.inserts (k : Nat) (h : OneEach N m s) (hk : m + k ≤ N) :
    ∃ run, run.map Prod.fst = List.replicate k (.insertRecord fun _ => 7) ∧
      Run PooledCall.Step s run ∧ OneEach N (m + k) (lastState s run) := by
  induction k generalizing m s with
  | zero => exact ⟨[], rfl, .nil s, h⟩
  | succ k ih =>
    obtain ⟨s', hinsert, h'⟩ := h.insertRecord (by omega)
    obtain ⟨run, hcalls, hrun, hlast⟩ := ih h' (by omega)
    have hslot : (0 : Int) < s.handle.fileHdr.numRecordsPerPage := by
      rw [h.handle]
      show (0 : Int) < (RmFileHdr.init 4).numRecordsPerPage
      decide
    refine ⟨(.insertRecord fun _ => 7, s') :: run, ?_, .cons ⟨_, hinsert, hslot⟩ hrun, ?_⟩
    · rw [List.map_cons, hcalls, List.replicate_succ]
    · rw [show m + (k + 1) = m + 1 + k by omega]
      exact hlast

/-- The record of page `2^19` is gone when the file is closed and opened again. -/
theorem OneEach.not_durable (h : OneEach (2 ^ 19) (2 ^ 19) s) : ¬s.Durable "t" := by
  generalize hN : 2 ^ 19 = N at h
  have h1 : 1 ≤ N := by omega
  have hpage : ((2 : Int) ^ 19) = N := by rw [← hN]; norm_num
  rintro ⟨b, hclose, hopens⟩
  obtain ⟨hdir, hbyte⟩ := h.closeFile h1 (by omega) hclose
  obtain ⟨handle, b', hopen, -, -, hrids⟩ :=
    hopens 1 (fun _ => 0) 3 (fun _ => 0) (by decide) (by decide)
  obtain ⟨hfd, dm, rfl, ho, hfile⟩ := openFile_reopened
    (show b.diskManager.os.endProcess.dir.find "t" = some 0 from hdir) hopen
  have hin : s.handle.fileHdr.InRange ⟨2 ^ 19, 0⟩ := by
    rw [h.handle, hpage]
    refine ⟨show (1 : Int) ≤ N by omega, show (N : Int) < N + 1 by omega, le_refl _, ?_⟩
    show (0 : Int) < (RmFileHdr.init 4).numRecordsPerPage
    decide
  obtain ⟨⟨a, t, t', hold, hnew⟩, -⟩ := hrids _ hin
  obtain ⟨fd, hdr⟩ := handle
  obtain rfl : fd = 3 := hfd
  rw [not_isRecord_reopened ho (by rw [hfile]; exact hbyte) hnew, hpage] at hold
  exact absurd (h.isRecord h1 hold) (by decide)

end

/-- A process with `2^19` frames inserts records of four bytes, each on a page of its own
(`first_free_page_no` stays `RM_NO_PAGE`).  After `2^19` of them the file is closed and opened
again: the offset of page `2^19` is negative as an `int`, so the `lseek` fails and the page is read
where the header ends. -/
theorem not_durable_many_pages :
    ∃ (b₁ b₂ : BufferPoolManager DiskManager) (run : List (PooledCall × PooledRmFile)),
      RmManager.createFile 3 3 "t" 4 (.new (2 ^ 19) (fun _ => 0) (.new noFiles)) = .ok () b₁ ∧
      RmManager.openFile 3 (fun _ => 0) "t" b₁ = .ok ⟨3, .init 4⟩ b₂ ∧
      run.map Prod.fst = List.replicate (2 ^ 19) (.insertRecord fun _ => 7) ∧
      Run PooledCall.Step ⟨⟨3, .init 4⟩, b₂⟩ run ∧ ¬∀ e ∈ run, e.2.Durable "t" := by
  have hcreate : RmManager.createFile 3 3 "t" 4 (.new (2 ^ 19) (fun _ => 0) (.new noFiles)) =
      .ok () ((RmManager.createFile 3 3 "t" 4).after
        (.new (2 ^ 19) (fun _ => 0) (.new noFiles))) := rfl
  obtain ⟨run, hcalls, hrun, hlast⟩ := (OneEach.zero (2 ^ 19)).inserts (2 ^ 19) (by omega)
  refine ⟨_, _, run, hcreate, openFile_created _, hcalls, hrun, fun hall => ?_⟩
  have hne : run ≠ [] := by
    rintro rfl
    have := congrArg List.length hcalls
    rw [List.length_replicate] at this
    exact absurd this (by decide)
  obtain ⟨a, hmem⟩ := lastState_mem ⟨⟨3, .init 4⟩, .new (2 ^ 19) (fun _ => 0) createdFile⟩ hne
  rw [Nat.zero_add] at hlast
  exact hlast.not_durable (hall _ hmem)

end Rucbase
