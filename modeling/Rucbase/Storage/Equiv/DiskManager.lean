import Rucbase.Storage.BufferPoolManager
import Mathlib.Tactic.Ring

/-!
# Pages on disk

`DiskManager.contents` is the page that a file holds at a page number, as far as it has been
written.  For page numbers below `2^19` the offset does not wrap (`pageOffset_eq`), and then
`read_page` returns the contents (`readPage_spec`), and `write_page` sets the contents of one page
and of no other (`writePage_spec`), provided no two descriptors are open on one file.
-/

namespace Rucbase

/-- A page number whose byte offset fits in an `int`. -/
def PageId.InRange (p : PageId) : Prop := 0 ≤ p.pageNo ∧ p.pageNo < 2 ^ 19

/-- Below `2^19` pages the `int` product is the true offset. -/
theorem pageOffset_eq {n : Int} (h0 : 0 ≤ n) (h1 : n < 2 ^ 19) :
    pageOffset n = ((n.toNat * pageSize : Nat) : Int) := by
  have hps : ((pageSize : Nat) : Int) = 4096 := rfl
  unfold pageOffset
  have h32 : ((2 ^ 32 : Nat) : Int) = 4294967296 := rfl
  rw [Int.natCast_mul, Int.toNat_of_nonneg h0, hps, Int.bmod_def, h32]
  split_ifs <;> omega

namespace DiskManager

/-- The page a file holds at a page number; `none` if the descriptor is not open or the file is too
short. -/
def contents (dm : DiskManager) (p : PageId) : Option PageData :=
  (dm.os.fds p.fd).bind fun o => (dm.os.file o.inode).read (p.pageNo.toNat * pageSize) pageSize

/-- No two descriptors are open on one file: `open_file` refuses a path that is open already. -/
def DistinctFiles (dm : DiskManager) : Prop :=
  ∀ fd fd' o o', dm.os.fds fd = some o → dm.os.fds fd' = some o' → o.inode = o'.inode → fd = fd'

/-- Two managers agree on which files there are and which of them are open under which descriptors;
the bytes, the positions and the page counters may differ. -/
structure SameOpen (dm dm' : DiskManager) : Prop where
  inode : ∀ fd, (dm.os.fds fd).map OpenFile.inode = (dm'.os.fds fd).map OpenFile.inode
  dir : dm'.os.dir = dm.os.dir
  nextInode : dm'.os.nextInode = dm.os.nextInode
  path2fd : dm'.path2fd = dm.path2fd
  fd2path : dm'.fd2path = dm.fd2path

variable {dm dm' : DiskManager}

theorem SameOpen.refl (dm : DiskManager) : SameOpen dm dm := ⟨fun _ => rfl, rfl, rfl, rfl, rfl⟩

theorem SameOpen.trans {dm'' : DiskManager} (h : SameOpen dm dm') (h' : SameOpen dm' dm'') :
    SameOpen dm dm'' where
  inode fd := (h.inode fd).trans (h'.inode fd)
  dir := h'.dir.trans h.dir
  nextInode := h'.nextInode.trans h.nextInode
  path2fd := h'.path2fd.trans h.path2fd
  fd2path := h'.fd2path.trans h.fd2path

theorem SameOpen.distinct (h : SameOpen dm dm') (hd : dm.DistinctFiles) : dm'.DistinctFiles := by
  intro fd fd' o o' ho ho' he
  have h1 := h.inode fd
  have h2 := h.inode fd'
  rw [ho] at h1
  rw [ho'] at h2
  obtain ⟨q, hq, hqi⟩ := Option.map_eq_some_iff.mp h1
  obtain ⟨q', hq', hqi'⟩ := Option.map_eq_some_iff.mp h2
  exact hd fd fd' q q' hq hq' (by rw [hqi, hqi', he])

/-- The contents depend on the files and on which of them are open, not on the positions. -/
theorem contents_congr (h : SameOpen dm dm') (hf : dm'.os.file = dm.os.file) (p : PageId) :
    dm'.contents p = dm.contents p := by
  have := h.inode p.fd
  unfold contents
  cases ho : dm.os.fds p.fd <;> cases ho' : dm'.os.fds p.fd <;> simp_all

/-- **`read_page`**: a read that succeeds returns the page's contents and changes no file. -/
theorem readPage_spec {p : PageId} (hp : p.InRange) {buf data : PageData}
    (h : dm.readPage p.fd p.pageNo buf = (true, data, dm')) :
    dm.contents p = some data ∧ SameOpen dm dm' ∧ dm'.os.file = dm.os.file ∧
      dm'.fd2pageno = dm.fd2pageno := by
  unfold readPage at h
  rw [pageOffset_eq hp.1 hp.2] at h
  cases ho : dm.os.fds p.fd with
  | none => simp [Os.lseek, Os.read, ho] at h
  | some o =>
    simp only [Os.lseek, Os.read, ho, Int.natCast_nonneg, if_true, Int.toNat_natCast,
      Function.update_self, Prod.mk.injEq, beq_iff_eq, Function.update_idem] at h
    obtain ⟨hlen, hdata, rfl⟩ := h
    refine ⟨?_, ?_, rfl, rfl⟩
    · rw [contents, ho, Option.bind_some, ByteFile.read_eq_some_iff]
      have hps : 0 < pageSize := by decide
      refine ⟨by omega, fun i => ?_⟩
      have hi := i.isLt
      rw [← hdata]
      have : i.val < min pageSize ((dm.os.file o.inode).size - p.pageNo.toNat * pageSize) := by
        omega
      simp [this]
    · refine ⟨fun fd => ?_, rfl, rfl, rfl, rfl⟩
      rcases eq_or_ne fd p.fd with rfl | hne
      · simp [ho]
      · simp [hne]

/-- A write to one page of a file leaves its other pages alone: they do not overlap. -/
theorem read_write_of_ne {f : ByteFile} {m n : Nat} (hne : m ≠ n) {data d : PageData}
    (h : f.read (m * pageSize) pageSize = some d) :
    (f.write (n * pageSize) data).read (m * pageSize) pageSize = some d := by
  apply ByteFile.read_write_disjoint h
  rcases lt_or_gt_of_ne hne with hlt | hlt
  · left
    calc m * pageSize + pageSize = (m + 1) * pageSize := by ring
      _ ≤ n * pageSize := Nat.mul_le_mul_right _ hlt
  · right
    calc n * pageSize + pageSize = (n + 1) * pageSize := by ring
      _ ≤ m * pageSize := Nat.mul_le_mul_right _ hlt

/-- A write to an open file stores the page at its offset. -/
theorem writePage_eq {p : PageId} (hp : p.InRange) {o : OpenFile} (ho : dm.os.fds p.fd = some o)
    (data : PageData) : dm.writePage p.fd p.pageNo data =
      (true, { dm with os := { dm.os with
        file := Function.update dm.os.file o.inode
          ((dm.os.file o.inode).write (p.pageNo.toNat * pageSize) data)
        fds := Function.update dm.os.fds p.fd
          (some ⟨o.inode, p.pageNo.toNat * pageSize + pageSize⟩) } }) := by
  unfold writePage
  rw [pageOffset_eq hp.1 hp.2]
  simp only [Os.lseek, Os.write, ho, Int.natCast_nonneg, if_true, Int.toNat_natCast,
    Function.update_self, Function.update_idem]

/-- **`write_page`**: a write that succeeds sets the contents of its page, and a page that has
contents keeps them unless it is the one written. -/
theorem writePage_spec {p : PageId} (hp : p.InRange) (hd : dm.DistinctFiles) {data : PageData}
    (h : dm.writePage p.fd p.pageNo data = (true, dm')) :
    dm'.contents p = some data ∧ SameOpen dm dm' ∧ dm'.fd2pageno = dm.fd2pageno ∧
      ∀ q, q.InRange → q ≠ p → ∀ d, dm.contents q = some d → dm'.contents q = some d := by
  cases ho : dm.os.fds p.fd with
  | none => simp [writePage, Os.lseek, Os.write, ho] at h
  | some o =>
    rw [writePage_eq hp ho, Prod.mk.injEq] at h
    obtain rfl := h.2
    refine ⟨by simp [contents], ?_, rfl, ?_⟩
    · refine ⟨fun fd => ?_, rfl, rfl, rfl, rfl⟩
      rcases eq_or_ne fd p.fd with rfl | hne
      · simp [ho]
      · simp [hne]
    · intro q hq hqp d hc
      unfold contents at hc ⊢
      rcases eq_or_ne q.fd p.fd with hfd | hfd
      · -- the same file: the pages do not overlap
        have hno : q.pageNo.toNat ≠ p.pageNo.toNat := by
          intro e
          apply hqp
          have h1 := hq.1
          have h2 := hp.1
          cases q
          cases p
          simp only [PageId.mk.injEq] at hfd e h1 h2 ⊢
          exact ⟨hfd, by omega⟩
        rw [hfd, ho] at hc
        simp only [hfd, Function.update_self, Option.bind_some] at hc ⊢
        exact read_write_of_ne hno hc
      · -- another descriptor, hence another file
        rw [Option.bind_eq_some_iff] at hc
        obtain ⟨o', ho', hc⟩ := hc
        have hine : o'.inode ≠ o.inode := fun e => hfd (hd q.fd p.fd o' o ho' ho e)
        simp [hfd, ho', hine, hc]

/-- A page that the file holds can be read. -/
theorem readPage_of_contents {p : PageId} (hp : p.InRange) {data : PageData}
    (hc : dm.contents p = some data) (buf : PageData) :
    (dm.readPage p.fd p.pageNo buf).1 = true := by
  rw [contents, Option.bind_eq_some_iff] at hc
  obtain ⟨o, ho, hread⟩ := hc
  rw [ByteFile.read_eq_some_iff] at hread
  unfold readPage
  rw [pageOffset_eq hp.1 hp.2]
  simp only [Os.lseek, Os.read, ho, Int.natCast_nonneg, if_true, Int.toNat_natCast,
    Function.update_self, beq_iff_eq]
  omega

/-- A write to an open file succeeds. -/
theorem writePage_of_open {p : PageId} (hp : p.InRange) (hopen : (dm.os.fds p.fd).isSome = true)
    (data : PageData) : (dm.writePage p.fd p.pageNo data).1 = true := by
  obtain ⟨o, ho⟩ := Option.isSome_iff_exists.mp hopen
  rw [writePage_eq hp ho]

end DiskManager

end Rucbase
