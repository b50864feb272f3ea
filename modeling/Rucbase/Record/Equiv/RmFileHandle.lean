import Mathlib.Data.Finset.Card
import Mathlib.Order.Interval.Finset.Nat
import Rucbase.Lib.StateExcept
import Rucbase.Record.Equiv.Bitmap
import Rucbase.Storage.Equiv.PageStore

/-!
# What the record operations do

A record file is described by its header and its pages (`RmFile.pages`).  `PagesOk` is the
invariant that all operations keep as long as no record goes to a full page: the pages are numbered
without gaps, the counter of the disk manager continues the numbering, `num_records` counts the
bits of the bitmap, and the padding bits are clear.  For each operation one lemma says which
header and pages it leaves behind.
-/

namespace Rucbase

open EStateM RmFileHandle

variable {n : Nat}

/-! ### Counting records -/

/-- The records of a page among its first `N` slots. -/
def RmPage.count (page : RmPage n) (N : Nat) : Nat :=
  ((Finset.range N).filter fun k => Bitmap.isSet page.bitmap k).card

/-- A record is stored in a slot. -/
def RmPage.insertAt (page : RmPage n) (i : Nat) (buf : Fin n → UInt8) : RmPage n :=
  { page with
    slots := Function.update page.slots i buf
    bitmap := Bitmap.set page.bitmap i
    numRecords := page.numRecords + 1 }

/-- A slot is freed. -/
def RmPage.deleteAt (page : RmPage n) (i : Nat) : RmPage n :=
  { page with bitmap := Bitmap.reset page.bitmap i, numRecords := page.numRecords - 1 }

namespace RmPage

variable {page : RmPage n} {N i : Nat} {buf : Fin n → UInt8}

@[simp]
theorem insertAt_numRecords : (page.insertAt i buf).numRecords = page.numRecords + 1 := rfl

@[simp]
theorem insertAt_nextFreePageNo : (page.insertAt i buf).nextFreePageNo = page.nextFreePageNo := rfl

@[simp]
theorem isSet_insertAt (k : Nat) :
    Bitmap.isSet (page.insertAt i buf).bitmap k = (decide (k = i) || Bitmap.isSet page.bitmap k) :=
  Bitmap.isSet_set page.bitmap i k

@[simp]
theorem deleteAt_numRecords : (page.deleteAt i).numRecords = page.numRecords - 1 := rfl

@[simp]
theorem deleteAt_nextFreePageNo : (page.deleteAt i).nextFreePageNo = page.nextFreePageNo := rfl

@[simp]
theorem deleteAt_slots : (page.deleteAt i).slots = page.slots := rfl

@[simp]
theorem isSet_deleteAt (k : Nat) :
    Bitmap.isSet (page.deleteAt i).bitmap k = (!decide (k = i) && Bitmap.isSet page.bitmap k) :=
  Bitmap.isSet_reset page.bitmap i k

theorem count_le (page : RmPage n) (N : Nat) : page.count N ≤ N := by
  calc page.count N ≤ (Finset.range N).card := Finset.card_filter_le _ _
    _ = N := Finset.card_range N

theorem count_insertAt (hi : i < N) (hclear : Bitmap.isSet page.bitmap i = false) :
    (page.insertAt i buf).count N = page.count N + 1 := by
  have hset : (Finset.range N).filter (fun k => Bitmap.isSet (page.insertAt i buf).bitmap k) =
      insert i ((Finset.range N).filter fun k => Bitmap.isSet page.bitmap k) := by
    ext k
    by_cases hk : k = i
    · simp [hk, hi]
    · simp [hk]
  unfold count
  rw [hset, Finset.card_insert_of_notMem]
  simp [hclear]

theorem count_deleteAt (hi : i < N) (hset : Bitmap.isSet page.bitmap i = true) :
    (page.deleteAt i).count N + 1 = page.count N := by
  have herase : (Finset.range N).filter (fun k => Bitmap.isSet (page.deleteAt i).bitmap k) =
      ((Finset.range N).filter fun k => Bitmap.isSet page.bitmap k).erase i := by
    ext k
    by_cases hk : k = i
    · simp [hk]
    · simp [hk]
  unfold count
  rw [herase]
  exact Finset.card_erase_add_one (by simp [hi, hset])

/-- A page with room has a free slot, and `first_bit` finds one. -/
theorem firstBit_of_count_lt (page : RmPage n) (h : page.count N < N) :
    ∃ i : Nat, i < N ∧ Bitmap.firstBit false page.bitmap N = i ∧
      Bitmap.isSet page.bitmap i = false := by
  rcases Bitmap.isNext_nextBit page.bitmap false N (-1) with ⟨-, hall⟩ | ⟨hlo, hhi, hclear, -⟩
  · -- all slots taken
    exfalso
    have hfull : (Finset.range N).filter (fun k => Bitmap.isSet page.bitmap k) = Finset.range N := by
      refine Finset.filter_true_of_mem fun k hk => ?_
      have := hall k (by omega) (by exact_mod_cast Finset.mem_range.mp hk)
      simpa using this
    unfold count at h
    rw [hfull, Finset.card_range] at h
    omega
  · refine ⟨(Bitmap.nextBit false page.bitmap N (-1)).toNat, by omega, ?_, hclear⟩
    rw [Int.toNat_of_nonneg (by omega)]
    rfl

end RmPage

/-! ### Header and pages -/

namespace RmFile

/-- The page that a fetch returns. -/
def pages (f : RmFile n) (pageNo : Int) : Option (RmPage n) := f.store.view ⟨f.fd, pageNo⟩

/-- The operation turned the file into one with this header and these pages. -/
structure Becomes (f : RmFile n) (hdr : RmFileHdr) (pages : Int → Option (RmPage n))
    (f' : RmFile n) : Prop where
  fd : f'.fd = f.fd
  fileHdr : f'.fileHdr = hdr
  pages : f'.pages = pages
  counter : f'.store.fd2pageno f.fd - hdr.numPages = f.store.fd2pageno f.fd - f.fileHdr.numPages

theorem Becomes.refl (f : RmFile n) : f.Becomes f.fileHdr f.pages f := ⟨rfl, rfl, rfl, rfl⟩

theorem Becomes.trans {f f' f'' : RmFile n} {hdr hdr' : RmFileHdr}
    {pages pages' : Int → Option (RmPage n)} (h : f.Becomes hdr pages f')
    (h' : f'.Becomes hdr' pages' f'') : f.Becomes hdr' pages' f'' where
  fd := h'.fd.trans h.fd
  fileHdr := h'.fileHdr
  pages := h'.pages
  counter := by
    have h1 := h.counter
    have h2 := h'.counter
    rw [h.fd, h.fileHdr] at h2
    omega

end RmFile

variable {f : RmFile n} {pageNo : Int} {page : RmPage n}

theorem fetchPageHandle_eq_ok (h : f.pages pageNo = some page) :
    ∃ f', fetchPageHandle pageNo f = .ok page f' ∧ f.Becomes f.fileHdr f.pages f' := by
  obtain ⟨s, hs, hview, hcount, -⟩ := PageStore.fetchPage_of_view h
  refine ⟨{ f with store := s }, ?_, rfl, rfl, ?_, ?_⟩
  · simp only [fetchPageHandle, get_bind_apply, hs]
    rfl
  · funext q
    exact hview _
  · show s.fd2pageno f.fd - _ = _
    rw [hcount]

theorem writePage_eq_ok (f : RmFile n) (pageNo : Int) (page : RmPage n) :
    ∃ f', RmFileHandle.writePage pageNo page f = .ok () f' ∧
      f.Becomes f.fileHdr (Function.update f.pages pageNo (some page)) f' := by
  refine ⟨_, rfl, rfl, rfl, ?_, rfl⟩
  funext q
  show (f.store.setPage ⟨f.fd, pageNo⟩ page).view ⟨f.fd, q⟩ = _
  rw [PageStore.view_setPage, Function.update_apply]
  simp only [PageId.mk.injEq, true_and]
  rfl

theorem setHdr_eq_ok (f : RmFile n) (no : Int) :
    ∃ f', (modify fun f => { f with fileHdr := { f.fileHdr with firstFreePageNo := no } } :
        RmM n Unit) f = .ok () f' ∧
      f.Becomes { f.fileHdr with firstFreePageNo := no } f.pages f' :=
  ⟨_, rfl, rfl, rfl, rfl, rfl⟩

theorem createNewPageHandle_eq_ok (hcount : f.store.fd2pageno f.fd = f.fileHdr.numPages)
    (hnew : f.pages f.fileHdr.numPages = none) :
    ∃ f', createNewPageHandle f = .ok (f.fileHdr.numPages, .zero n) f' ∧
      f.Becomes { f.fileHdr with numPages := f.fileHdr.numPages + 1 }
        (Function.update f.pages f.fileHdr.numPages (some (.zero n))) f' := by
  have hpool : f.store.pool ⟨f.fd, f.store.fd2pageno f.fd⟩ = none := by
    rw [hcount]
    exact PageStore.pool_eq_none_of_view hnew
  refine ⟨{ f with
    store := f.store.newPage (.zero n) f.fd
    fileHdr := { f.fileHdr with numPages := f.fileHdr.numPages + 1 } }, ?_, rfl, rfl, ?_, ?_⟩
  · simp only [createNewPageHandle, get_bind_apply, hpool]
    rw [hcount]
    rfl
  · funext q
    show (f.store.newPage (.zero n) f.fd).view ⟨f.fd, q⟩ = _
    rw [PageStore.view_newPage, Function.update_apply, hcount]
    simp only [PageId.mk.injEq, true_and]
    rfl
  · show Function.update f.store.fd2pageno f.fd (f.store.fd2pageno f.fd + 1) f.fd - _ = _
    rw [Function.update_self]
    show f.store.fd2pageno f.fd + 1 - (f.fileHdr.numPages + 1) = _
    omega

/-! ### The operations -/

/-- The header after a record went to a page. -/
def RmFileHdr.afterInsert (hdr : RmFileHdr) (page : RmPage n) : RmFileHdr :=
  if page.numRecords + 1 ≥ hdr.numRecordsPerPage then
    { hdr with firstFreePageNo := page.nextFreePageNo }
  else hdr

variable {f₁ : RmFile n} {hdr : RmFileHdr} {pages : Int → Option (RmPage n)} {i : Nat}

/-- **`insert_record`**, once `create_page_handle` has chosen the page. -/
theorem insertRecord_of_createPageHandle (buf : Fin n → UInt8)
    (hc : createPageHandle f = .ok (pageNo, page) f₁) (h : f.Becomes hdr pages f₁)
    (hi : Bitmap.firstBit false page.bitmap hdr.numRecordsPerPage = i) :
    ∃ f', insertRecord buf f = .ok ⟨pageNo, i⟩ f' ∧
      f.Becomes (hdr.afterInsert page)
        (Function.update pages pageNo (some (page.insertAt i buf))) f' := by
  obtain ⟨f₂, hw, h₂⟩ := writePage_eq_ok f₁ pageNo (page.insertAt i buf)
  have hhdr : f₁.fileHdr = hdr := h.fileHdr
  have h12 := h.trans h₂
  rw [hhdr, h.pages] at h12
  have hrun : insertRecord buf f = (do
      if page.numRecords + 1 ≥ hdr.numRecordsPerPage then
        modify fun f =>
          { f with fileHdr := { f.fileHdr with firstFreePageNo := page.nextFreePageNo } }
      return ⟨pageNo, i⟩ : RmM n Rid) f₂ := by
    unfold insertRecord
    rw [bind_of_ok hc]
    simp only [get_bind_apply, hhdr, hi, Int.toNat_natCast]
    exact bind_of_ok hw
  rw [hrun]
  by_cases hfull : page.numRecords + 1 ≥ hdr.numRecordsPerPage
  · obtain ⟨f₃, hs, h₃⟩ := setHdr_eq_ok f₂ page.nextFreePageNo
    refine ⟨f₃, ?_, ?_⟩
    · rw [if_pos hfull, bind_of_ok hs]
      rfl
    · have := h12.trans h₃
      rw [h12.pages, h12.fileHdr] at this
      rwa [RmFileHdr.afterInsert, if_pos hfull]
  · refine ⟨f₂, ?_, ?_⟩
    · rw [if_neg hfull]
      rfl
    · rwa [RmFileHdr.afterInsert, if_neg hfull]

theorem createPageHandle_of_free (hfree : 0 ≤ f.fileHdr.firstFreePageNo)
    (hp : f.pages f.fileHdr.firstFreePageNo = some page) :
    ∃ f', createPageHandle f = .ok (f.fileHdr.firstFreePageNo, page) f' ∧
      f.Becomes f.fileHdr f.pages f' := by
  obtain ⟨f', hf', h⟩ := fetchPageHandle_eq_ok hp
  refine ⟨f', ?_, h⟩
  have : ¬f.fileHdr.firstFreePageNo < 0 := by omega
  simp only [createPageHandle, get_bind_apply, if_neg this, bind_of_ok hf']
  rfl

theorem createPageHandle_of_no_free (hfree : f.fileHdr.firstFreePageNo < 0)
    (hcount : f.store.fd2pageno f.fd = f.fileHdr.numPages)
    (hnew : f.pages f.fileHdr.numPages = none) :
    ∃ f', createPageHandle f = .ok (f.fileHdr.numPages, .zero n) f' ∧
      f.Becomes { f.fileHdr with numPages := f.fileHdr.numPages + 1 }
        (Function.update f.pages f.fileHdr.numPages (some (.zero n))) f' := by
  obtain ⟨f', hf', h⟩ := createNewPageHandle_eq_ok hcount hnew
  refine ⟨f', ?_, h⟩
  simp only [createPageHandle, get_bind_apply, if_pos hfree, hf']

/-- **`delete_record`** on a page that is there. -/
theorem deleteRecord_eq_ok {rid : Rid} (hp : f.pages rid.pageNo = some page) :
    ∃ f', deleteRecord rid f = .ok () f' ∧
      (page.numRecords ≠ 1 ∧ f.Becomes f.fileHdr
          (Function.update f.pages rid.pageNo (some (page.deleteAt rid.slotNo.toNat))) f' ∨
        page.numRecords = 1 ∧ f.Becomes { f.fileHdr with firstFreePageNo := rid.pageNo }
          (Function.update f.pages rid.pageNo (some
            { page.deleteAt rid.slotNo.toNat with
              nextFreePageNo := f.fileHdr.firstFreePageNo })) f') := by
  obtain ⟨f₁, hf, h₁⟩ := fetchPageHandle_eq_ok hp
  obtain ⟨f₂, hw, h₂⟩ := writePage_eq_ok f₁ rid.pageNo (page.deleteAt rid.slotNo.toNat)
  have h12 := h₁.trans h₂
  rw [h₁.pages, h₁.fileHdr] at h12
  have hrun : deleteRecord rid f =
      (if page.numRecords - 1 = 0 then
        releasePageHandle rid.pageNo (page.deleteAt rid.slotNo.toNat) else pure () : RmM n Unit) f₂ := by
    unfold deleteRecord
    rw [bind_of_ok hf]
    exact bind_of_ok hw
  rw [hrun]
  by_cases hone : page.numRecords = 1
  · rw [if_pos (by omega)]
    obtain ⟨f₃, hw₃, h₃⟩ := writePage_eq_ok f₂ rid.pageNo
      { page.deleteAt rid.slotNo.toNat with nextFreePageNo := f₂.fileHdr.firstFreePageNo }
    obtain ⟨f₄, hs, h₄⟩ := setHdr_eq_ok f₃ rid.pageNo
    refine ⟨f₄, ?_, Or.inr ⟨hone, ?_⟩⟩
    · simp only [releasePageHandle, get_bind_apply]
      rw [bind_of_ok hw₃]
      exact hs
    · have h14 := (h12.trans h₃).trans h₄
      rw [h₃.pages, h₃.fileHdr, h12.pages, h12.fileHdr, Function.update_idem] at h14
      exact h14
  · rw [if_neg (by omega)]
    exact ⟨f₂, rfl, Or.inl ⟨hone, h12⟩⟩

/-- **`update_record`** on a page that is there. -/
theorem updateRecord_eq_ok {rid : Rid} (buf : Fin n → UInt8) (hp : f.pages rid.pageNo = some page)
    (hset : Bitmap.isSet page.bitmap rid.slotNo.toNat = true) :
    ∃ f', updateRecord rid buf f = .ok () f' ∧
      f.Becomes f.fileHdr (Function.update f.pages rid.pageNo (some
        { page with slots := Function.update page.slots rid.slotNo.toNat buf })) f' := by
  obtain ⟨f₁, hf, h₁⟩ := fetchPageHandle_eq_ok hp
  obtain ⟨f₂, hw, h₂⟩ := writePage_eq_ok f₁ rid.pageNo
    { page with slots := Function.update page.slots rid.slotNo.toNat buf }
  have h12 := h₁.trans h₂
  rw [h₁.pages, h₁.fileHdr] at h12
  refine ⟨f₂, ?_, h12⟩
  unfold updateRecord
  rw [bind_of_ok hf, if_pos hset]
  exact hw

/-! ### The invariant -/

namespace RmFile

/-- `num_records_per_page` of a file of `n`-byte records. -/
def perPage (n : Nat) : Nat := (RmFileHdr.init n).numRecordsPerPage.toNat

/-- The pages are numbered without gaps, the counter continues the numbering, `num_records` counts
the bits of the bitmap, and the padding bits are clear. -/
structure PagesOk (f : RmFile n) : Prop where
  size_pos : 1 ≤ n
  size_le : n ≤ 512
  perPage_eq : f.fileHdr.numRecordsPerPage = (perPage n : Int)
  bitmapSize_eq : f.fileHdr.bitmapSize = ((perPage n : Int) + 7) / 8
  counter : f.store.fd2pageno f.fd = f.fileHdr.numPages
  numPages_pos : 1 ≤ f.fileHdr.numPages
  exists_page : ∀ q, (∃ page, f.pages q = some page) ↔ 1 ≤ q ∧ q < f.fileHdr.numPages
  count : ∀ {q page}, f.pages q = some page → page.numRecords = page.count (perPage n)
  padding : ∀ {q page k}, f.pages q = some page → perPage n ≤ k →
    Bitmap.isSet page.bitmap k = false

theorem numRecordsPerPage_init (n : Nat) :
    (RmFileHdr.init n).numRecordsPerPage = (perPage n : Int) := by
  have hpos : (0 : Int) ≤ (RmFileHdr.init n).numRecordsPerPage := by
    show (0 : Int) ≤ (8 * (4096 - 1 - 20) + 1) / (1 + (n : Int) * 8)
    exact Int.ediv_nonneg (by decide) (by omega)
  exact (Int.toNat_of_nonneg hpos).symm

/-- Every accepted record size leaves room for several records. -/
theorem seven_le_perPage {n : Nat} (h : n ≤ 512) : 7 ≤ perPage n := by
  have h7 : (7 : Int) ≤ (RmFileHdr.init n).numRecordsPerPage := by
    show (7 : Int) ≤ (8 * (4096 - 1 - 20) + 1) / (1 + (n : Int) * 8)
    exact Int.le_ediv_of_mul_le (by omega) (by omega)
  rw [numRecordsPerPage_init] at h7
  omega

/-- A created file satisfies the invariant if the pool holds no page under its descriptor. -/
theorem pagesOk_create (h1 : 1 ≤ n) (h2 : n ≤ 512) (fd : Int) (pool : PageId → Option (RmPage n))
    (pinCount : PageId → Nat) (fd2pageno : Int → Int) (hpool : ∀ q, pool ⟨fd, q⟩ = none) :
    (RmFile.create n fd pool pinCount fd2pageno).PagesOk := by
  have hnone : ∀ q, (RmFile.create n fd pool pinCount fd2pageno).pages q = none := fun q => by
    show PageStore.view _ _ = none
    simp [PageStore.view, RmFile.create, hpool]
  refine
    { size_pos := h1
      size_le := h2
      perPage_eq := numRecordsPerPage_init n
      bitmapSize_eq := ?_
      counter := by simp [RmFile.create]
      numPages_pos := le_refl _
      exists_page := fun q => ?_
      count := fun h => by simp [hnone] at h
      padding := fun h => by simp [hnone] at h }
  · show ((RmFileHdr.init n).numRecordsPerPage + 8 - 1) / 8 = _
    rw [numRecordsPerPage_init]
    congr 1
    omega
  · simp only [hnone, reduceCtorEq, exists_false, false_iff]
    show ¬(1 ≤ q ∧ q < 1)
    omega

/-- A page is replaced or added. -/
theorem PagesOk.setPage {f f' : RmFile n} {hdr : RmFileHdr} {q : Int} {page : RmPage n}
    (h : f.PagesOk) (hb : f.Becomes hdr (Function.update f.pages q (some page)) f')
    (hper : hdr.numRecordsPerPage = f.fileHdr.numRecordsPerPage)
    (hbm : hdr.bitmapSize = f.fileHdr.bitmapSize) (hq : 1 ≤ q)
    (hnum : q < f.fileHdr.numPages ∧ hdr.numPages = f.fileHdr.numPages ∨
      q = f.fileHdr.numPages ∧ hdr.numPages = f.fileHdr.numPages + 1)
    (hcount : page.numRecords = page.count (perPage n))
    (hpad : ∀ k, perPage n ≤ k → Bitmap.isSet page.bitmap k = false) : f'.PagesOk := by
  -- a page afterwards is the new one or an old one
  have hcases : ∀ {r pg}, f'.pages r = some pg → r = q ∧ pg = page ∨ r ≠ q ∧ f.pages r = some pg := by
    intro r pg hr
    rw [hb.pages, Function.update_apply] at hr
    split_ifs at hr with he
    · exact Or.inl ⟨he, (Option.some.inj hr).symm⟩
    · exact Or.inr ⟨he, hr⟩
  have hpos := h.numPages_pos
  refine
    { size_pos := h.size_pos
      size_le := h.size_le
      perPage_eq := by rw [hb.fileHdr, hper, h.perPage_eq]
      bitmapSize_eq := by rw [hb.fileHdr, hbm, h.bitmapSize_eq]
      counter := ?_
      numPages_pos := ?_
      exists_page := fun r => ?_
      count := fun {r pg} hr => ?_
      padding := fun {r pg k} hr hk => ?_ }
  · have h1 := hb.counter
    have h2 := h.counter
    rw [hb.fd, hb.fileHdr]
    omega
  · rw [hb.fileHdr]
    omega
  · rw [hb.fileHdr, hb.pages, Function.update_apply]
    by_cases he : r = q
    · subst he
      simp only [if_true, Option.some.injEq, exists_eq', true_iff]
      omega
    · rw [if_neg he, h.exists_page r]
      omega
  · rcases hcases hr with ⟨-, rfl⟩ | ⟨-, hr⟩
    · exact hcount
    · exact h.count hr
  · rcases hcases hr with ⟨-, rfl⟩ | ⟨-, hr⟩
    · exact hpad k hk
    · exact h.padding hr hk

/-- There is no page after the last one. -/
theorem PagesOk.pages_numPages {f : RmFile n} (h : f.PagesOk) : f.pages f.fileHdr.numPages = none := by
  cases hp : f.pages f.fileHdr.numPages with
  | none => rfl
  | some page =>
    have := (h.exists_page _).mp ⟨page, hp⟩
    omega

theorem PagesOk.range {f : RmFile n} (h : f.PagesOk) {q : Int} {page : RmPage n}
    (hp : f.pages q = some page) : 1 ≤ q ∧ q < f.fileHdr.numPages :=
  (h.exists_page q).mp ⟨page, hp⟩

theorem PagesOk.numRecords_le {f : RmFile n} (h : f.PagesOk) {q : Int} {page : RmPage n}
    (hp : f.pages q = some page) : page.numRecords ≤ perPage n := by
  rw [h.count hp]
  exact_mod_cast page.count_le _

@[simp]
theorem isSet_zero (n k : Nat) : Bitmap.isSet (RmPage.zero n).bitmap k = false := by
  simp [Bitmap.isSet, RmPage.zero]

theorem count_zero (n N : Nat) : (RmPage.zero n).count N = 0 := by
  unfold RmPage.count
  rw [Finset.card_eq_zero, Finset.filter_eq_empty_iff]
  intro k _
  simp

/-- **A record goes to the first free page** if that page has room. -/
theorem PagesOk.insertRecord_free {f : RmFile n} {page : RmPage n} (h : f.PagesOk)
    (hp : f.pages f.fileHdr.firstFreePageNo = some page) (hroom : page.numRecords < perPage n)
    (buf : Fin n → UInt8) :
    ∃ (i : Nat) (f' : RmFile n), i < perPage n ∧ Bitmap.isSet page.bitmap i = false ∧
      insertRecord buf f = .ok ⟨f.fileHdr.firstFreePageNo, i⟩ f' ∧
      f.Becomes (f.fileHdr.afterInsert page)
        (Function.update f.pages f.fileHdr.firstFreePageNo (some (page.insertAt i buf))) f' ∧
      f'.PagesOk := by
  have hrange := h.range hp
  have hcount := h.count hp
  obtain ⟨f₁, hc, h₁⟩ := createPageHandle_of_free (by omega) hp
  obtain ⟨i, hi, hfirst, hclear⟩ := RmPage.firstBit_of_count_lt (N := perPage n) page (by omega)
  rw [← h.perPage_eq] at hfirst
  obtain ⟨f', hins, hb⟩ := insertRecord_of_createPageHandle buf hc h₁ hfirst
  have hconst : (f.fileHdr.afterInsert page).numRecordsPerPage = f.fileHdr.numRecordsPerPage ∧
      (f.fileHdr.afterInsert page).bitmapSize = f.fileHdr.bitmapSize ∧
      (f.fileHdr.afterInsert page).numPages = f.fileHdr.numPages := by
    unfold RmFileHdr.afterInsert
    split_ifs <;> simp
  refine ⟨i, f', hi, hclear, hins, hb, h.setPage hb hconst.1 hconst.2.1 hrange.1
    (Or.inl ⟨hrange.2, hconst.2.2⟩) ?_ fun k hk => ?_⟩
  · rw [RmPage.count_insertAt hi hclear, RmPage.insertAt_numRecords, hcount]
    omega
  · have hki : k ≠ i := by omega
    simp [hki, h.padding hp hk]

/-- **A record goes to a new page** if there is no free page; the page is not linked. -/
theorem PagesOk.insertRecord_new {f : RmFile n} (h : f.PagesOk)
    (hfree : f.fileHdr.firstFreePageNo < 0) (buf : Fin n → UInt8) :
    ∃ (i : Nat) (f' : RmFile n), i < perPage n ∧
      insertRecord buf f = .ok ⟨f.fileHdr.numPages, i⟩ f' ∧
      f.Becomes { f.fileHdr with numPages := f.fileHdr.numPages + 1 }
        (Function.update f.pages f.fileHdr.numPages (some ((RmPage.zero n).insertAt i buf))) f' ∧
      f'.PagesOk := by
  have hseven := seven_le_perPage h.size_le
  obtain ⟨f₁, hc, h₁⟩ := createPageHandle_of_no_free hfree h.counter h.pages_numPages
  obtain ⟨i, hi, hfirst, hclear⟩ := RmPage.firstBit_of_count_lt (N := perPage n) (.zero n)
    (by rw [count_zero]; omega)
  rw [← h.perPage_eq] at hfirst
  obtain ⟨f', hins, hb⟩ := insertRecord_of_createPageHandle buf hc h₁ hfirst
  have hhdr : RmFileHdr.afterInsert { f.fileHdr with numPages := f.fileHdr.numPages + 1 }
      (RmPage.zero n) = { f.fileHdr with numPages := f.fileHdr.numPages + 1 } := by
    unfold RmFileHdr.afterInsert
    rw [if_neg]
    show ¬(0 + 1 ≥ f.fileHdr.numRecordsPerPage)
    rw [h.perPage_eq]
    omega
  rw [hhdr, Function.update_idem] at hb
  have hpos := h.numPages_pos
  refine ⟨i, f', hi, hins, hb, h.setPage hb rfl rfl (by omega) (Or.inr ⟨rfl, rfl⟩) ?_ fun k hk => ?_⟩
  · rw [RmPage.count_insertAt hi hclear, RmPage.insertAt_numRecords, count_zero]
    rfl
  · have hki : k ≠ i := by omega
    simp [hki]

/-- A slot in range of a page that is there, with its bit set. -/
def Live (f : RmFile n) (rid : Rid) : Prop :=
  ∃ page, f.pages rid.pageNo = some page ∧ 0 ≤ rid.slotNo ∧ rid.slotNo < perPage n ∧
    Bitmap.isSet page.bitmap rid.slotNo.toNat = true

/-- **Deleting a live record** keeps the invariant; the page is released when it becomes empty. -/
theorem PagesOk.deleteRecord {f : RmFile n} (h : f.PagesOk) {rid : Rid} {page : RmPage n}
    (hp : f.pages rid.pageNo = some page) (h0 : 0 ≤ rid.slotNo) (hlt : rid.slotNo < perPage n)
    (hset : Bitmap.isSet page.bitmap rid.slotNo.toNat = true) :
    ∃ (f' : RmFile n) (hdr : RmFileHdr) (next : Int), deleteRecord rid f = .ok () f' ∧
      f.Becomes hdr (Function.update f.pages rid.pageNo
        (some { page.deleteAt rid.slotNo.toNat with nextFreePageNo := next })) f' ∧
      f'.PagesOk ∧
      (page.numRecords ≠ 1 ∧ hdr = f.fileHdr ∧ next = page.nextFreePageNo ∨
        page.numRecords = 1 ∧ hdr = { f.fileHdr with firstFreePageNo := rid.pageNo } ∧
          next = f.fileHdr.firstFreePageNo) := by
  have hrange := h.range hp
  have hslot : rid.slotNo.toNat < perPage n := by omega
  have hcount : (page.deleteAt rid.slotNo.toNat).numRecords =
      (page.deleteAt rid.slotNo.toNat).count (perPage n) := by
    have := RmPage.count_deleteAt hslot hset
    have := h.count hp
    rw [RmPage.deleteAt_numRecords]
    omega
  have hpad : ∀ k, perPage n ≤ k →
      Bitmap.isSet (page.deleteAt rid.slotNo.toNat).bitmap k = false := fun k hk => by
    simp [h.padding hp hk]
  obtain ⟨f', hdel, hcase⟩ := deleteRecord_eq_ok hp
  rcases hcase with ⟨hone, hb⟩ | ⟨hone, hb⟩
  · exact ⟨f', f.fileHdr, page.nextFreePageNo, hdel, hb, h.setPage hb rfl rfl hrange.1
      (Or.inl ⟨hrange.2, rfl⟩) hcount hpad, Or.inl ⟨hone, rfl, rfl⟩⟩
  · exact ⟨f', _, _, hdel, hb, h.setPage hb rfl rfl hrange.1 (Or.inl ⟨hrange.2, rfl⟩) hcount hpad,
      Or.inr ⟨hone, rfl, rfl⟩⟩

end RmFile

end Rucbase
