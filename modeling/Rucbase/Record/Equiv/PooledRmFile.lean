import Rucbase.Record.Equiv.Bitmap
import Rucbase.Record.Equiv.RmPageHandle
import Rucbase.Storage.Equiv.PinnedFile

/-!
# What a record file keeps in the pool

The operations of a record file fetch and create pages, and unpin none.  `PooledRmFile.Inv` is the
invariant behind the durability of the file: all its pages are in the pool and pinned, the counter
of the disk manager is `num_pages`, and no free chain reaches page 0.  The last part needs an
argument: a new page has `next_free_page_no` 0, which is the header page, so the chain must only
run through pages that were released at least once (`Linked`).

Each call of a run keeps the invariant (`callStep_inv`) as long as the file has no more than `2^19`
pages, and no call takes pages away (`callStep_numPages_le`).
-/

namespace Rucbase

open BufferPoolManager DiskManager EStateM RmPageHandle

/-- A rid in one of the record pages of the file. -/
def RmFileHdr.InRange (hdr : RmFileHdr) (rid : Rid) : Prop :=
  rmFirstRecordPage ≤ rid.pageNo ∧ rid.pageNo < hdr.numPages ∧
    0 ≤ rid.slotNo ∧ rid.slotNo < hdr.numRecordsPerPage

/-! ### Runs -/

/-- What happens to an open record file: its own calls, and pool calls of the clients of other
files. -/
inductive PooledCall where
  | insertRecord (buf : Nat → UInt8)
  | deleteRecord (rid : Rid)
  | updateRecord (rid : Rid) (buf : Nat → UInt8)
  | isRecord (rid : Rid)
  | getRecord (rid : Rid)
  | other (op : PoolOp)

/-- One call that returns.  An insert finds a slot of the page, the other calls are given rids of
the file; other clients use other descriptors and leave the frames in order. -/
def PooledCall.Step (s : PooledRmFile) (call : PooledCall) (s' : PooledRmFile) : Prop :=
  match call with
  | .insertRecord buf => ∃ rid, PooledRmFile.insertRecord buf s = .ok rid s' ∧
      rid.slotNo < s.handle.fileHdr.numRecordsPerPage
  | .deleteRecord rid => s.handle.fileHdr.InRange rid ∧ PooledRmFile.deleteRecord rid s = .ok () s'
  | .updateRecord rid buf => s.handle.fileHdr.InRange rid ∧
      PooledRmFile.updateRecord rid buf s = .ok () s'
  | .isRecord rid => s.handle.fileHdr.InRange rid ∧ ∃ a, PooledRmFile.isRecord rid s = .ok a s'
  | .getRecord rid => s.handle.fileHdr.InRange rid ∧ ∃ r, PooledRmFile.getRecord rid s = .ok r s'
  | .other op => op.fd ≠ s.handle.fd ∧ s.bpm.KeepsFrames op ∧
      ∃ b, PoolStep s.bpm op b ∧ s' = { s with bpm := b }

namespace PooledRmFile

theorem getData_bind_apply {α : Type} (f : Nat) (g : PageData → PooledRmM α) (s : PooledRmFile) :
    (getData f >>= g) s = g (s.bpm.pages f).data s := rfl

theorem setData_bind_apply {α : Type} (f : Nat) (data : PageData) (g : Unit → PooledRmM α)
    (s : PooledRmFile) :
    (setData f data >>= g) s = g () { s with bpm := s.bpm.setData f data } := rfl

theorem setData_apply (f : Nat) (data : PageData) (s : PooledRmFile) :
    setData f data s = .ok () { s with bpm := s.bpm.setData f data } := rfl

theorem modifyHdr_bind_apply {α : Type} (g : RmFileHdr → RmFileHdr) (k : Unit → PooledRmM α)
    (s : PooledRmFile) : (modifyHdr g >>= k) s =
      k () { s with handle := { s.handle with fileHdr := g s.handle.fileHdr } } := rfl

theorem modifyHdr_apply (g : RmFileHdr → RmFileHdr) (s : PooledRmFile) : modifyHdr g s =
    .ok () { s with handle := { s.handle with fileHdr := g s.handle.fileHdr } } := rfl

/-! ### The invariant -/

/-- The bytes of a slot. -/
def slotBytes (hdr : RmFileHdr) (d : PageData) (slotNo : Int) : List UInt8 :=
  (List.range hdr.recordSize.toNat).map fun j => d.byteAt (getSlot hdr slotNo + j)

/-- The end of the free chain, or a page of the file that was released: its link was set then, and
never to page 0. -/
def Linked (s : PooledRmFile) (x : Int) : Prop :=
  x = rmNoPage ∨ ∃ d, s.bpm.resident ⟨s.handle.fd, x⟩ = some d ∧ nextFreePageNo d ≠ 0

structure Inv (filename : String) (s : PooledRmFile) : Prop where
  /-- Only the page count and the free chain of the header change. -/
  hdr : ∃ recordSize numPages firstFreePageNo, 1 ≤ recordSize ∧ recordSize ≤ rmMaxRecordSize ∧
    s.handle.fileHdr = { RmFileHdr.init recordSize with numPages, firstFreePageNo }
  pos : 1 ≤ s.handle.fileHdr.numPages
  pins : PinsFile s.handle.fd s.handle.fileHdr.numPages s.bpm
  files : FilesOk s.bpm.diskManager
  file : ∃ o, s.bpm.diskManager.os.fds s.handle.fd = some o ∧
    s.bpm.diskManager.os.dir.find filename = some o.inode
  counter : s.bpm.diskManager.fd2pageno s.handle.fd = s.handle.fileHdr.numPages
  free : s.Linked s.handle.fileHdr.firstFreePageNo
  next : ∀ {k d}, s.bpm.resident ⟨s.handle.fd, k⟩ = some d → nextFreePageNo d ≠ 0 →
    s.Linked (nextFreePageNo d)

variable {filename : String} {s s' : PooledRmFile} {f : Nat} {k : Int}

namespace Inv

/-- Page numbers of the file. -/
theorem page (h : s.Inv filename) {d : PageData}
    (hr : s.bpm.resident ⟨s.handle.fd, k⟩ = some d) : 1 ≤ k ∧ k < s.handle.fileHdr.numPages := by
  obtain ⟨f, hf, -⟩ := Option.map_eq_some_iff.mp hr
  exact ⟨(h.pins.mapped hf).1, (h.pins.mapped hf).2.1⟩

theorem linked_range (h : s.Inv filename) {x : Int} (hx : s.Linked x) :
    x = -1 ∨ 1 ≤ x ∧ x < s.handle.fileHdr.numPages := by
  rcases hx with hx | ⟨d, hd, -⟩
  · exact Or.inl hx
  · exact Or.inr (h.page hd)

theorem linked_isInt (h : s.Inv filename) (hle : s.handle.fileHdr.numPages ≤ 2 ^ 19) {x : Int}
    (hx : s.Linked x) : IsInt x := by
  rcases h.linked_range hx with rfl | hx
  · exact ⟨by decide, by decide⟩
  · unfold IsInt
    omega

/-- A page of seven records and more, of non-negative sizes. -/
theorem sizes (h : s.Inv filename) : 2 ≤ s.handle.fileHdr.numRecordsPerPage ∧
    0 ≤ s.handle.fileHdr.bitmapSize ∧ 0 ≤ s.handle.fileHdr.recordSize := by
  obtain ⟨n, _, _, h1, h2, he⟩ := h.hdr
  have hper : 2 ≤ (8 * (4096 - 1 - 20) + 1) / (1 + n * 8) := by
    have hmax : n ≤ 512 := h2
    rw [Int.le_ediv_iff_mul_le (by omega)]
    omega
  rw [he]
  refine ⟨hper, ?_, by change 0 ≤ n; omega⟩
  change 0 ≤ ((8 * (4096 - 1 - 20) + 1) / (1 + n * 8) + 8 - 1) / 8
  omega

/-- What a change of the pool has to leave alone. -/
theorem of_pool (h : s.Inv filename) {b : BufferPoolManager DiskManager}
    (hpins : PinsFile s.handle.fd s.handle.fileHdr.numPages b) (hb : Beside s.handle.fd s.bpm b) :
    Inv filename { s with bpm := b } := by
  have hlinked : ∀ {x}, s.Linked x → Linked { s with bpm := b } x := by
    rintro x (hx | ⟨d, hd, hne⟩)
    · exact Or.inl hx
    · exact Or.inr ⟨d, (hb.resident x).trans hd, hne⟩
  refine
    { hdr := h.hdr
      pos := h.pos
      pins := hpins
      files := hb.sameOpen.filesOk h.files
      file := ?_
      counter := hb.counter.trans h.counter
      free := hlinked h.free
      next := fun hd hne => hlinked (h.next ((hb.resident _).symm.trans hd) hne) }
  obtain ⟨o, ho, hdir⟩ := h.file
  obtain ⟨o', ho', hi⟩ := hb.sameOpen.sameInodes.symm.exists_open ho
  exact ⟨o', ho', by rw [hi, hb.sameOpen.dir, hdir]⟩

/-- A write into a page of the file: its link stays, or becomes a link of the chain. -/
theorem setData (h : s.Inv filename) (hf : s.bpm.pageTable ⟨s.handle.fd, k⟩ = some f)
    {data : PageData} (hlink : nextFreePageNo data = nextFreePageNo (s.bpm.pages f).data ∨
      nextFreePageNo data ≠ 0 ∧ s.Linked (nextFreePageNo data)) :
    Inv filename { s with bpm := s.bpm.setData f data } := by
  obtain ⟨hpins, hres⟩ := h.pins.setData hf data
  have hold : s.bpm.resident ⟨s.handle.fd, k⟩ = some (s.bpm.pages f).data := by
    rw [resident, hf]
    rfl
  have hlinked : ∀ {x}, s.Linked x → Linked { s with bpm := s.bpm.setData f data } x := by
    rintro x (hx | ⟨d, hd, hne⟩)
    · exact Or.inl hx
    · by_cases hk : x = k
      · subst hk
        rw [hold] at hd
        obtain rfl := Option.some.inj hd
        refine Or.inr ⟨data, (hres x).trans (if_pos rfl), ?_⟩
        rcases hlink with he | ⟨hne', -⟩
        · rw [he]
          exact hne
        · exact hne'
      · exact Or.inr ⟨d, ((hres x).trans (if_neg hk)).trans hd, hne⟩
  refine
    { hdr := h.hdr, pos := h.pos, pins := hpins, files := h.files, file := h.file
      counter := h.counter
      free := hlinked h.free
      next := fun {j d} hd hne => ?_ }
  rw [show ({ s with bpm := s.bpm.setData f data } : PooledRmFile).bpm.resident
    ⟨s.handle.fd, j⟩ = _ from hres j] at hd
  split_ifs at hd with hj
  · obtain rfl := Option.some.inj hd
    rcases hlink with he | ⟨-, hl⟩
    · rw [he] at hne ⊢
      exact hlinked (h.next hold hne)
    · exact hlinked hl
  · exact hlinked (h.next hd hne)

/-- The free chain starts at another of its links. -/
theorem setFirstFree (h : s.Inv filename) {x : Int} (hx : s.Linked x) :
    Inv filename { s with handle :=
      { s.handle with fileHdr := { s.handle.fileHdr with firstFreePageNo := x } } } := by
  obtain ⟨n, m, _, h1, h2, he⟩ := h.hdr
  exact { h with
    hdr := ⟨n, m, x, h1, h2, by rw [he]⟩
    pos := h.pos
    pins := h.pins
    counter := h.counter
    free := hx }

/-! ### The operations -/

/-- A page of the file is fetched. -/
theorem fetchPageHandle (h : s.Inv filename) (h1 : 1 ≤ k) (h2 : k < s.handle.fileHdr.numPages) :
    ∃ f b, PooledRmFile.fetchPageHandle k s = .ok f { s with bpm := b } ∧
      b.pageTable ⟨s.handle.fd, k⟩ = some f ∧ Inv filename { s with bpm := b } ∧
      Beside s.handle.fd s.bpm b := by
  obtain ⟨f, b, hfetch, hf, hpins, hb⟩ := h.pins.fetchPage h1 h2
  refine ⟨f, b, ?_, hf, h.of_pool hpins hb, hb⟩
  have hpool : onPool (BufferPoolManager.fetchPage ⟨s.handle.fd, k⟩) s =
      .ok (some f) { s with bpm := b } := by
    simp only [onPool, hfetch]
  simp only [PooledRmFile.fetchPageHandle, get_bind_apply, bind_of_ok hpool, pure_apply]

/-- A page is created: the file has one more page, which is zeroed. -/
theorem createNewPageHandle (h : s.Inv filename)
    (hrun : PooledRmFile.createNewPageHandle s = .ok f s') :
    s'.Inv filename ∧ s'.bpm.pageTable ⟨s'.handle.fd, s.handle.fileHdr.numPages⟩ = some f ∧
      (s'.bpm.pages f).data = zeroPage := by
  rw [PooledRmFile.createNewPageHandle, get_bind_apply, bind_eq_ok_iff] at hrun
  obtain ⟨r, s₁, hpool, hrun⟩ := hrun
  obtain ⟨b, hnew, rfl⟩ : ∃ b, BufferPoolManager.newPage s.handle.fd s.bpm = .ok r b ∧
      s₁ = { s with bpm := b } := by
    unfold onPool at hpool
    split at hpool
    · rename_i hx
      cases hpool
      exact ⟨_, hx, rfl⟩
    · cases hpool
  rcases h.pins.newPage h.pos h.counter hnew with ⟨rfl, rfl⟩ |
    ⟨g, rfl, htable, hpins, -, hres, hso, hcounter⟩
  · -- no frame: the null pointer
    simp [modifyHdr_bind_apply] at hrun
  simp only [modifyHdr_bind_apply, pure_apply, Result.ok.injEq] at hrun
  obtain ⟨rfl, rfl⟩ := hrun
  obtain ⟨n, m, x, h1, h2, he⟩ := h.hdr
  have hpos := h.pos
  have hdata : (b.pages g).data = zeroPage := by
    have := hres s.handle.fileHdr.numPages
    rw [if_pos rfl, resident, htable] at this
    exact Option.some.inj this
  -- a link that led to a page before still does
  have hlinked : ∀ {x}, s.Linked x → ∀ hdr : RmFileHdr, Linked ⟨⟨s.handle.fd, hdr⟩, b⟩ x := by
    rintro x (hx | ⟨d, hd, hne⟩) hdr
    · exact Or.inl hx
    · refine Or.inr ⟨d, ?_, hne⟩
      have hlt := (h.page hd).2
      exact ((hres x).trans (if_neg (by omega))).trans hd
  refine ⟨?_, htable, hdata⟩
  refine
    { hdr := ⟨n, m + 1, x, h1, h2, by simp only [he]⟩
      pos := by simp only; omega
      pins := hpins
      files := hso.filesOk h.files
      file := ?_
      counter := hcounter
      free := hlinked h.free _
      next := fun {k d} hd hne => ?_ }
  · obtain ⟨o, ho, hdir⟩ := h.file
    obtain ⟨o', ho', hi⟩ := hso.sameInodes.symm.exists_open ho
    exact ⟨o', ho', by rw [hi, hso.dir, hdir]⟩
  · change b.resident ⟨s.handle.fd, k⟩ = some d at hd
    rw [hres k] at hd
    split_ifs at hd
    · -- the link of the new page is 0
      obtain rfl := Option.some.inj hd
      exact absurd nextFreePageNo_zeroPage hne
    · exact hlinked (h.next hd hne) _

/-- A page is released: it becomes the first of the free chain. -/
theorem releasePageHandle (h : s.Inv filename) (hle : s.handle.fileHdr.numPages ≤ 2 ^ 19)
    (hf : s.bpm.pageTable ⟨s.handle.fd, k⟩ = some f)
    (hrun : PooledRmFile.releasePageHandle f s = .ok () s') : s'.Inv filename := by
  have hid := (h.pins.frames.table hf).2
  simp only [PooledRmFile.releasePageHandle, get_bind_apply, getData_bind_apply, setData_bind_apply,
    modifyHdr_apply, Result.ok.injEq, true_and, hid] at hrun
  subst hrun
  have hfree := h.linked_range h.free
  have hlink :=
    nextFreePageNo_setNextFreePageNo (s.bpm.pages f).data (h.linked_isInt hle h.free)
  have hne : nextFreePageNo (setNextFreePageNo (s.bpm.pages f).data
      s.handle.fileHdr.firstFreePageNo) ≠ 0 := by
    rw [hlink]
    omega
  have hset := h.setData hf (Or.inr ⟨hne, by rw [hlink]; exact h.free⟩)
  refine hset.setFirstFree (Or.inr ⟨_, ?_, hne⟩)
  exact ((h.pins.setData hf _).2 k).trans (if_pos rfl)

/-- **`insert_record`** keeps the invariant. -/
theorem insertRecord (h : s.Inv filename) {buf : Nat → UInt8} {rid : Rid}
    (hrun : PooledRmFile.insertRecord buf s = .ok rid s') : s'.Inv filename := by
  rw [PooledRmFile.insertRecord, bind_eq_ok_iff] at hrun
  obtain ⟨f, t, hcreate, hrun⟩ := hrun
  -- the page: a released one, or a new one, which one record does not fill
  obtain ⟨ht, k, hf, hlinked⟩ : t.Inv filename ∧ ∃ k, t.bpm.pageTable ⟨t.handle.fd, k⟩ = some f ∧
      (nextFreePageNo (t.bpm.pages f).data ≠ 0 ∨ numRecords (t.bpm.pages f).data = 0) := by
    rw [createPageHandle, get_bind_apply] at hcreate
    split_ifs at hcreate with hneg
    · obtain ⟨ht, hf, hdata⟩ := h.createNewPageHandle hcreate
      exact ⟨ht, _, hf, Or.inr (by rw [hdata]; exact numRecords_zeroPage)⟩
    · rcases h.free with hfree | ⟨d, hd, hne⟩
      · rw [hfree] at hneg
        exact absurd (by decide) hneg
      · obtain ⟨h1, h2⟩ := h.page hd
        obtain ⟨g, b, hfetch, hg, hinv, hb⟩ := h.fetchPageHandle h1 h2
        rw [hfetch] at hcreate
        cases hcreate
        refine ⟨hinv, _, hg, Or.inl ?_⟩
        have hres := (hb.resident s.handle.fileHdr.firstFreePageNo).trans hd
        rw [resident, hg, Option.map_some, Option.some.injEq] at hres
        exact hres ▸ hne
  have hold : t.bpm.resident ⟨t.handle.fd, k⟩ = some (t.bpm.pages f).data := by
    rw [resident, hf]
    rfl
  obtain ⟨hper, hbm, hrs⟩ := ht.sizes
  rw [get_bind_apply, getData_bind_apply] at hrun
  dsimp only at hrun
  rw [setData_bind_apply] at hrun
  set i := Bitmap.firstBit false (bitmap (t.bpm.pages f).data)
    t.handle.fileHdr.numRecordsPerPage with hi
  have hslot : 0 ≤ i := by
    rcases Bitmap.isNext_nextBit (bitmap (t.bpm.pages f).data) false
      t.handle.fileHdr.numRecordsPerPage (-1) with ⟨he, -⟩ | ⟨hle, -⟩
    · rw [hi, Bitmap.firstBit, he]
      omega
    · exact hle
  have hoff := bitmapOffset_le_getSlot hbm hrs hslot
  set d := (t.bpm.pages f).data.memcpy (getSlot t.handle.fileHdr i) buf
    t.handle.fileHdr.recordSize.toNat with hd
  set d' := setNumRecords (setBitmap d i.toNat (Bitmap.set (bitmap d) i.toNat))
    (numRecords (setBitmap d i.toNat (Bitmap.set (bitmap d) i.toNat)) + 1) with hd'
  have hnext : nextFreePageNo d' = nextFreePageNo (t.bpm.pages f).data := by
    rw [hd', nextFreePageNo_setNumRecords, nextFreePageNo_setBitmap, hd,
      nextFreePageNo_memcpy _ hoff]
  have hset := ht.setData hf (Or.inl hnext)
  split_ifs at hrun with hfull
  · -- the page is full and leaves the chain
    simp only [modifyHdr_bind_apply, pure_apply, Result.ok.injEq] at hrun
    obtain ⟨-, rfl⟩ := hrun
    have hne : nextFreePageNo (t.bpm.pages f).data ≠ 0 := by
      rcases hlinked with hne | hzero
      · exact hne
      · have hone : numRecords d' = 1 := by
          rw [hd', numRecords_setBitmap, hd, numRecords_memcpy _ hoff, hzero]
          exact numRecords_setNumRecords _ ⟨by decide, by decide⟩
        rw [hone] at hfull
        omega
    have hself := ((ht.pins.setData hf d').2 k).trans (if_pos rfl)
    exact hset.setFirstFree (hset.next hself (by rw [hnext]; exact hne))
  · simp only [pure_apply, Result.ok.injEq] at hrun
    obtain ⟨-, rfl⟩ := hrun
    exact hset

/-- **`delete_record`** keeps the invariant. -/
theorem deleteRecord (h : s.Inv filename) (hle : s.handle.fileHdr.numPages ≤ 2 ^ 19)
    {rid : Rid} (hin : s.handle.fileHdr.InRange rid)
    (hrun : PooledRmFile.deleteRecord rid s = .ok () s') : s'.Inv filename := by
  obtain ⟨f, b, hfetch, hf, hinv, -⟩ := h.fetchPageHandle hin.1 hin.2.1
  rw [PooledRmFile.deleteRecord, bind_of_ok hfetch, getData_bind_apply] at hrun
  dsimp only at hrun
  rw [setData_bind_apply] at hrun
  set d := setNumRecords
    (setBitmap (b.pages f).data rid.slotNo.toNat
      (Bitmap.reset (bitmap (b.pages f).data) rid.slotNo.toNat))
    (numRecords (setBitmap (b.pages f).data rid.slotNo.toNat
      (Bitmap.reset (bitmap (b.pages f).data) rid.slotNo.toNat)) - 1) with hd
  have hnext : nextFreePageNo d = nextFreePageNo (b.pages f).data := by
    rw [hd, nextFreePageNo_setNumRecords, nextFreePageNo_setBitmap]
  have hset := hinv.setData hf (Or.inl hnext)
  split_ifs at hrun
  · exact hset.releasePageHandle hle hf hrun
  · simp only [pure_apply, Result.ok.injEq] at hrun
    obtain ⟨-, rfl⟩ := hrun
    exact hset

/-- **`update_record`** keeps the invariant. -/
theorem updateRecord (h : s.Inv filename) {rid : Rid} {buf : Nat → UInt8}
    (hin : s.handle.fileHdr.InRange rid)
    (hrun : PooledRmFile.updateRecord rid buf s = .ok () s') : s'.Inv filename := by
  obtain ⟨f, b, hfetch, hf, hinv, -⟩ := h.fetchPageHandle hin.1 hin.2.1
  rw [PooledRmFile.updateRecord, bind_of_ok hfetch] at hrun
  simp only [getData_bind_apply] at hrun
  split_ifs at hrun
  · simp only [get_bind_apply, setData_apply, Result.ok.injEq, true_and] at hrun
    subst hrun
    obtain ⟨-, hbm, hrs⟩ := h.sizes
    exact hinv.setData hf (Or.inl
      (nextFreePageNo_memcpy _ (bitmapOffset_le_getSlot hbm hrs hin.2.2.1) _ _))
  · simp only [pure_apply, Result.ok.injEq] at hrun
    obtain ⟨-, rfl⟩ := hrun
    exact hinv

/-- **`is_record`** answers from the bytes of the page and keeps the invariant. -/
theorem isRecord (h : s.Inv filename) {rid : Rid} (hin : s.handle.fileHdr.InRange rid) :
    ∃ d s', s.bpm.resident ⟨s.handle.fd, rid.pageNo⟩ = some d ∧ s'.Inv filename ∧
      PooledRmFile.isRecord rid s = .ok (Bitmap.isSet (bitmap d) rid.slotNo.toNat) s' := by
  obtain ⟨f, b, hfetch, hf, hinv, hb⟩ := h.fetchPageHandle hin.1 hin.2.1
  refine ⟨(b.pages f).data, _, ?_, hinv, ?_⟩
  · rw [← hb.resident, resident, hf]
    rfl
  · rw [PooledRmFile.isRecord, bind_of_ok hfetch]
    rfl

/-- **`get_record`** copies the bytes of the slot and keeps the invariant. -/
theorem getRecord (h : s.Inv filename) {rid : Rid} (hin : s.handle.fileHdr.InRange rid) :
    ∃ d s', s.bpm.resident ⟨s.handle.fd, rid.pageNo⟩ = some d ∧ s'.Inv filename ∧
      PooledRmFile.getRecord rid s = .ok (slotBytes s.handle.fileHdr d rid.slotNo) s' := by
  obtain ⟨f, b, hfetch, hf, hinv, hb⟩ := h.fetchPageHandle hin.1 hin.2.1
  refine ⟨(b.pages f).data, _, ?_, hinv, ?_⟩
  · rw [← hb.resident, resident, hf]
    rfl
  · rw [PooledRmFile.getRecord, bind_of_ok hfetch]
    rfl

end Inv

/-! ### Calls of a run -/

/-- **Every call of a run keeps the invariant**, as long as the file has at most `2^19` pages. -/
theorem callStep_inv (h : s.Inv filename) (hle : s.handle.fileHdr.numPages ≤ 2 ^ 19)
    {call : PooledCall} (hstep : call.Step s s') : s'.Inv filename := by
  cases call with
  | insertRecord buf =>
    obtain ⟨rid, hrun, -⟩ := hstep
    exact h.insertRecord hrun
  | deleteRecord rid => exact h.deleteRecord hle hstep.1 hstep.2
  | updateRecord rid buf => exact h.updateRecord hstep.1 hstep.2
  | isRecord rid =>
    obtain ⟨hin, a, hrun⟩ := hstep
    obtain ⟨d, t, -, ht, hrun'⟩ := h.isRecord hin
    rw [hrun'] at hrun
    cases hrun
    exact ht
  | getRecord rid =>
    obtain ⟨hin, r, hrun⟩ := hstep
    obtain ⟨d, t, -, ht, hrun'⟩ := h.getRecord hin
    rw [hrun'] at hrun
    cases hrun
    exact ht
  | other op =>
    obtain ⟨hfd, hkeeps, b, hpool, rfl⟩ := hstep
    obtain ⟨hpins, hb⟩ := h.pins.poolStep_beside hfd hpool hkeeps
    exact h.of_pool hpins hb

/-- A program takes no pages away from the file, however it ends. -/
def Grows {α : Type} (x : PooledRmM α) : Prop :=
  ∀ s : PooledRmFile, s.handle.fileHdr.numPages ≤ (x.after s).handle.fileHdr.numPages

namespace Grows

variable {α β : Type} {x : PooledRmM α} {g : α → PooledRmM β}

theorem bind (hx : Grows x) (hg : ∀ a, Grows (g a)) : Grows (x >>= g) := fun s =>
  after_bind_of_trans (R := fun s s' : PooledRmFile =>
      s.handle.fileHdr.numPages ≤ s'.handle.fileHdr.numPages)
    (fun _ _ _ h h' => h.trans h') (hx s) fun a s' _ => hg a s'

theorem pure (a : α) : Grows (Pure.pure a) := fun _ => le_refl _

theorem throw (e : RedBaseError) : Grows (MonadExcept.throw e : PooledRmM α) := fun _ => le_refl _

theorem get : Grows MonadState.get := fun _ => le_refl _

theorem onPool (y : PoolM DiskManager α) : Grows (PooledRmFile.onPool y) := by
  intro s
  unfold EStateM.after PooledRmFile.onPool
  cases y s.bpm <;> rfl

theorem getData (f : Nat) : Grows (PooledRmFile.getData f) := fun _ => le_refl _

theorem setData (f : Nat) (data : PageData) : Grows (PooledRmFile.setData f data) :=
  fun _ => le_refl _

theorem modifyHdr {g : RmFileHdr → RmFileHdr} (hg : ∀ hdr, hdr.numPages ≤ (g hdr).numPages) :
    Grows (PooledRmFile.modifyHdr g) := fun s => hg s.handle.fileHdr

theorem fetchPageHandle (k : Int) : Grows (PooledRmFile.fetchPageHandle k) := by
  unfold PooledRmFile.fetchPageHandle
  refine get.bind fun s => (onPool _).bind fun r => ?_
  cases r with
  | none => exact throw _
  | some f => exact pure f

theorem createPageHandle : Grows PooledRmFile.createPageHandle := by
  unfold PooledRmFile.createPageHandle PooledRmFile.createNewPageHandle
  refine get.bind fun s => ?_
  dsimp only
  split_ifs
  · refine get.bind fun s => (onPool _).bind fun r =>
      (modifyHdr fun hdr => by simp only; omega).bind fun _ => ?_
    cases r with
    | none => exact throw _
    | some page => exact pure page.1
  · exact fetchPageHandle _

theorem insertRecord (buf : Nat → UInt8) : Grows (PooledRmFile.insertRecord buf) := by
  unfold PooledRmFile.insertRecord
  refine createPageHandle.bind fun f => get.bind fun s => (getData f).bind fun d => ?_
  dsimp only
  refine (setData f _).bind fun _ => ?_
  split_ifs
  · refine (modifyHdr ?_).bind fun _ => pure _
    exact fun _ => le_refl _
  · exact pure _

theorem deleteRecord (rid : Rid) : Grows (PooledRmFile.deleteRecord rid) := by
  unfold PooledRmFile.deleteRecord PooledRmFile.releasePageHandle
  refine (fetchPageHandle _).bind fun f => (getData f).bind fun d => ?_
  dsimp only
  refine (setData f _).bind fun _ => ?_
  split_ifs
  · exact get.bind fun s => (getData f).bind fun d => (setData f _).bind fun _ =>
      modifyHdr fun _ => le_refl _
  · exact pure _

theorem updateRecord (rid : Rid) (buf : Nat → UInt8) :
    Grows (PooledRmFile.updateRecord rid buf) := by
  unfold PooledRmFile.updateRecord
  refine (fetchPageHandle _).bind fun f => (getData f).bind fun d => ?_
  split_ifs
  · exact get.bind fun s => setData f _
  · exact pure _

theorem isRecord (rid : Rid) : Grows (PooledRmFile.isRecord rid) :=
  (fetchPageHandle _).bind fun f => (getData f).bind fun _ => pure _

theorem getRecord (rid : Rid) : Grows (PooledRmFile.getRecord rid) :=
  (fetchPageHandle _).bind fun f => (getData f).bind fun _ => get.bind fun _ => pure _

theorem numPages_le (hx : Grows x) {a : α} (h : x s = .ok a s') :
    s.handle.fileHdr.numPages ≤ s'.handle.fileHdr.numPages := by
  have := hx s
  rwa [after_of_ok h] at this

end Grows

/-- No call of a run takes pages away. -/
theorem callStep_numPages_le {call : PooledCall} (hstep : call.Step s s') :
    s.handle.fileHdr.numPages ≤ s'.handle.fileHdr.numPages := by
  cases call with
  | insertRecord buf =>
    obtain ⟨rid, hrun, -⟩ := hstep
    exact (Grows.insertRecord buf).numPages_le hrun
  | deleteRecord rid => exact (Grows.deleteRecord rid).numPages_le hstep.2
  | updateRecord rid buf => exact (Grows.updateRecord rid buf).numPages_le hstep.2
  | isRecord rid =>
    obtain ⟨-, a, hrun⟩ := hstep
    exact (Grows.isRecord rid).numPages_le hrun
  | getRecord rid =>
    obtain ⟨-, r, hrun⟩ := hstep
    exact (Grows.getRecord rid).numPages_le hrun
  | other op =>
    obtain ⟨-, -, b, -, rfl⟩ := hstep
    exact le_refl _

end PooledRmFile

end Rucbase
