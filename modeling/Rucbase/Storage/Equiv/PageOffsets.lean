import Rucbase.Storage.Equiv.DiskManager

/-!
# Offsets of pages

`write_page` and `read_page` seek to the `int` product `page_no * PAGE_SIZE`.  For page numbers below
`2 ^ 19` that is the offset of the page, and the pages of a file are independent of each other.  From
`2 ^ 19` on the product wraps around: it is negative, and `lseek` fails, or it is the offset of a page
in front (`keepsPages_iff`).
-/

namespace Rucbase.DiskManager

/-- `read_page` returns the page, whatever the buffer held before. -/
def Reads (dm : DiskManager) (fd pageNo : Int) (data : PageData) : Prop :=
  ∀ buf : PageData, ∃ dm', dm.readPage fd pageNo buf = (true, data, dm')

/-- Two pages of a file: both are sought at their offset, what is written to the first is read back,
and what the second returned it returns after the write, too. -/
structure KeepsPages (dm : DiskManager) (fd p q : Int) : Prop where
  offsets : pageOffset p = 4096 * p ∧ pageOffset q = 4096 * q
  written : ∀ data : PageData, ∃ dm', dm.writePage fd p data = (true, dm') ∧ dm'.Reads fd p data
  unchanged : q ≠ p → ∀ (data : PageData) (dm' : DiskManager) (old : PageData),
    dm.writePage fd p data = (true, dm') → dm.Reads fd q old → dm'.Reads fd q old

variable {dm dm' : DiskManager} {fd : Int}

/-- What `read_page` returns for a page below `2 ^ 19`. -/
theorem reads_iff {p : PageId} (hp : p.InRange) {data : PageData} :
    dm.Reads p.fd p.pageNo data ↔ dm.contents p = some data := by
  constructor
  · intro h
    obtain ⟨dm', hread⟩ := h zeroPage
    exact (readPage_spec hp hread).1
  · intro hc buf
    have hok := readPage_of_contents hp hc buf
    rcases hread : dm.readPage p.fd p.pageNo buf with ⟨ok, data', dm'⟩
    rw [hread] at hok
    obtain rfl : ok = true := hok
    rw [(readPage_spec hp hread).1, Option.some.injEq] at hc
    exact ⟨dm', by rw [hc]⟩

/-- The product is an `int`, so it is no offset of a page from `2 ^ 19` on. -/
theorem pageOffset_eq_iff {n : Int} (h0 : 0 ≤ n) : pageOffset n = 4096 * n ↔ n < 2 ^ 19 := by
  constructor
  · intro h
    have hlt : pageOffset n < 2 ^ 31 := Int.bmod_lt (by decide)
    omega
  · intro h1
    have hps : ((pageSize : Nat) : Int) = 4096 := rfl
    rw [pageOffset_eq h0 h1, Int.natCast_mul, Int.toNat_of_nonneg h0, hps, Int.mul_comm]

/-- What was returned for another page of the file is returned after a write. -/
theorem Reads.writePage {p q : Int} (hp : PageId.InRange ⟨fd, p⟩) (hq : PageId.InRange ⟨fd, q⟩)
    (hne : q ≠ p) {data old : PageData} (hwrite : dm.writePage fd p data = (true, dm'))
    (hold : dm.Reads fd q old) : dm'.Reads fd q old := by
  rw [reads_iff (p := ⟨fd, q⟩) hq] at hold ⊢
  unfold contents at hold ⊢
  rw [Option.bind_eq_some_iff] at hold
  obtain ⟨o, ho, hread⟩ := hold
  have heq := writePage_eq (p := ⟨fd, p⟩) hp ho data
  rw [hwrite, Prod.mk.injEq] at heq
  obtain rfl := heq.2
  have h1 := hp.1
  have h2 := hq.1
  simp only at h1 h2 hread
  have hno : q.toNat ≠ p.toNat := by omega
  simpa using read_write_of_ne hno hread

/-- **Pages of an open file**: `write_page` and `read_page` treat two pages as independent parts of
the file, each at its offset, exactly if both numbers are below `2 ^ 19`. -/
theorem keepsPages_iff {p q : Int} (hopen : (dm.os.fds fd).isSome = true) (hp : 0 ≤ p)
    (hq : 0 ≤ q) : KeepsPages dm fd p q ↔ p < 2 ^ 19 ∧ q < 2 ^ 19 := by
  constructor
  · intro h
    exact ⟨(pageOffset_eq_iff hp).mp h.offsets.1, (pageOffset_eq_iff hq).mp h.offsets.2⟩
  · rintro ⟨hplt, hqlt⟩
    have hpr : PageId.InRange ⟨fd, p⟩ := ⟨hp, hplt⟩
    have hqr : PageId.InRange ⟨fd, q⟩ := ⟨hq, hqlt⟩
    refine ⟨⟨(pageOffset_eq_iff hp).mpr hplt, (pageOffset_eq_iff hq).mpr hqlt⟩, fun data => ?_,
      fun hne data dm' old hwrite hold => hold.writePage hpr hqr hne hwrite⟩
    obtain ⟨o, ho⟩ := Option.isSome_iff_exists.mp hopen
    refine ⟨_, writePage_eq hpr ho data, (reads_iff hpr).mpr ?_⟩
    simp [contents]

/-- A manager with one open file, one page of zeros. -/
def zeroFile : DiskManager where
  os := { dir := ⟨id, fun name => if name = "db" then some 0 else none⟩
          file := fun _ => ⟨pageSize, fun _ => 0⟩
          fds := fun fd => if fd = 3 then some ⟨0, 0⟩ else none
          nextInode := 1 }
  path2fd := fun path => if path = "db" then some 3 else none
  fd2path := fun fd => if fd = 3 then some "db" else none
  fd2pageno := fun _ => 1

theorem keepsPages_zeroFile : KeepsPages zeroFile 3 1 0 :=
  (keepsPages_iff rfl (by decide) (by decide)).mpr ⟨by decide, by decide⟩

theorem reads_zeroFile : zeroFile.Reads 3 0 zeroPage := by
  rw [reads_iff (p := ⟨3, 0⟩) ⟨by decide, by decide⟩]
  rfl

/-- Page `2 ^ 20` is written over page `0`. -/
theorem not_keepsPages_wrapped :
    ¬KeepsPages zeroFile 3 (2 ^ 20) 0 ∧ zeroFile.Reads 3 0 zeroPage ∧
      (zeroFile.writePage 3 (2 ^ 20) (fun _ : Fin pageSize => 1)).2.Reads 3 0 fun _ => 1 := by
  have hoffset : pageOffset (2 ^ 20) = pageOffset 0 := rfl
  have hwrite : ∀ data : PageData, zeroFile.writePage 3 (2 ^ 20) data = zeroFile.writePage 3 0 data :=
    fun data => by simp only [writePage, hoffset]
  have hrange : PageId.InRange ⟨3, 0⟩ := ⟨by decide, by decide⟩
  have hread : (zeroFile.writePage 3 (2 ^ 20) (fun _ : Fin pageSize => 1)).2.Reads 3 0 fun _ => 1 := by
    rw [hwrite, writePage_eq (o := ⟨0, 0⟩) hrange rfl, reads_iff hrange]
    simp [contents]
  refine ⟨fun h => ?_, reads_zeroFile, hread⟩
  obtain ⟨dm', hok, -⟩ := h.written fun _ => 1
  have hzero := h.unchanged (by decide) _ _ _ hok reads_zeroFile
  rw [hok] at hread
  obtain ⟨_, h1⟩ := hread zeroPage
  obtain ⟨_, h2⟩ := hzero zeroPage
  rw [h1, Prod.mk.injEq, Prod.mk.injEq] at h2
  exact absurd (congrFun h2.2.1 ⟨0, by decide⟩) (by decide)

end Rucbase.DiskManager
