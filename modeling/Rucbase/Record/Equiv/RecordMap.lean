import Rucbase.Lib.Run
import Rucbase.Record.Equiv.RmFileHandle

/-!
# A record file as a map

`RmFile.records` reads a record file as a partial map from `Rid` to records.  Under the invariants
`PagesOk` and `LinksOk` each operation changes the map as its name says, and reads report it.
-/

namespace Rucbase

open EStateM RmFileHandle

variable {n : Nat}

/-! ### The map of a page and of a file -/

/-- The record in a slot of a page. -/
def RmPage.record (page : RmPage n) (slotNo : Int) : Option (Fin n → UInt8) :=
  if 0 ≤ slotNo ∧ slotNo < RmFile.perPage n ∧ Bitmap.isSet page.bitmap slotNo.toNat then
    some (page.slots slotNo.toNat)
  else none

/-- The records of a file. -/
def RmFile.records (f : RmFile n) (rid : Rid) : Option (Fin n → UInt8) :=
  (f.pages rid.pageNo).bind fun page => page.record rid.slotNo

theorem RmPage.record_insertAt {page : RmPage n} {i : Nat} (hi : i < RmFile.perPage n)
    (buf : Fin n → UInt8) (slotNo : Int) :
    (page.insertAt i buf).record slotNo = if slotNo = i then some buf else page.record slotNo := by
  unfold RmPage.record
  by_cases hs : slotNo = i
  · subst hs
    simp [hi, RmPage.insertAt]
  · rw [if_neg hs]
    by_cases h0 : 0 ≤ slotNo
    · have hne : slotNo.toNat ≠ i := by omega
      simp [hne, RmPage.insertAt, h0]
    · simp [h0]

theorem RmPage.record_deleteAt {page : RmPage n} {i : Nat} (next slotNo : Int) :
    ({ page.deleteAt i with nextFreePageNo := next }).record slotNo =
      if slotNo = i then none else page.record slotNo := by
  unfold RmPage.record
  by_cases hs : slotNo = i
  · subst hs
    have : Bitmap.isSet (page.deleteAt i).bitmap i = false := by simp
    simp [this]
  · rw [if_neg hs]
    by_cases h0 : 0 ≤ slotNo
    · have hne : slotNo.toNat ≠ i := by omega
      simp [hne, RmPage.deleteAt]
    · simp [h0]

theorem RmPage.record_setSlot {page : RmPage n} {i : Nat} (hi : i < RmFile.perPage n)
    (hset : Bitmap.isSet page.bitmap i = true) (buf : Fin n → UInt8) (slotNo : Int) :
    ({ page with slots := Function.update page.slots i buf }).record slotNo =
      if slotNo = i then some buf else page.record slotNo := by
  unfold RmPage.record
  by_cases hs : slotNo = i
  · subst hs
    simp [hi, hset]
  · rw [if_neg hs]
    by_cases h0 : 0 ≤ slotNo
    · have hne : slotNo.toNat ≠ i := by omega
      simp [hne]
    · simp [h0]

namespace RmFile

variable {f f' : RmFile n}

/-- Replacing one page changes the map at that page only. -/
theorem records_of_update {q : Int} {page : RmPage n}
    (h : f'.pages = Function.update f.pages q (some page)) (rid : Rid) :
    f'.records rid = if rid.pageNo = q then page.record rid.slotNo else f.records rid := by
  unfold records
  rw [h]
  by_cases hq : rid.pageNo = q
  · simp [hq]
  · simp [hq]

/-- A record appears, changes or disappears at one rid. -/
theorem records_update {q : Int} {i : Nat} (page : RmPage n) {page' : RmPage n}
    {x : Option (Fin n → UInt8)} (h : f'.pages = Function.update f.pages q (some page'))
    (hold : ∀ s, page.record s = f.records ⟨q, s⟩)
    (hrec : ∀ s, page'.record s = if s = (i : Int) then x else page.record s) :
    f'.records = Function.update f.records ⟨q, i⟩ x := by
  funext rid
  rw [records_of_update h, Function.update_apply]
  by_cases hq : rid.pageNo = q
  · rw [if_pos hq, hrec]
    by_cases hs : rid.slotNo = i
    · rw [if_pos hs, if_pos (by cases rid; simp_all)]
    · rw [if_neg hs, if_neg (by rintro rfl; exact hs rfl), hold]
      subst hq
      rfl
  · rw [if_neg hq, if_neg (by rintro rfl; exact hq rfl)]

theorem record_eq_records {q : Int} {page : RmPage n} (hp : f.pages q = some page) (s : Int) :
    page.record s = f.records ⟨q, s⟩ := by
  simp [records, hp]

/-- A record in the map sits in a slot with its bit set. -/
theorem live_of_records {rid : Rid} {r : Fin n → UInt8} (h : f.records rid = some r) :
    ∃ page, f.pages rid.pageNo = some page ∧ 0 ≤ rid.slotNo ∧ rid.slotNo < perPage n ∧
      Bitmap.isSet page.bitmap rid.slotNo.toNat = true ∧ page.slots rid.slotNo.toNat = r := by
  obtain ⟨page, hp, hr⟩ := Option.bind_eq_some_iff.mp h
  unfold RmPage.record at hr
  split_ifs at hr with hcond
  exact ⟨page, hp, hcond.1, hcond.2.1, hcond.2.2, Option.some.inj hr⟩

/-! ### The links that the operations follow -/

/-- A number that may be followed: `RM_NO_PAGE` or a released page.  A page that was never released
still has the zero that `NewPage` left as its link. -/
def LinkTarget (f : RmFile n) (t : Int) : Prop :=
  t = rmNoPage ∨ ∃ page, f.pages t = some page ∧ page.nextFreePageNo ≠ 0

/-- `first_free_page_no` and the links of released pages can be followed. -/
structure LinksOk (f : RmFile n) : Prop where
  first : f.LinkTarget f.fileHdr.firstFreePageNo
  next : ∀ {q page}, f.pages q = some page → page.nextFreePageNo ≠ 0 →
    f.LinkTarget page.nextFreePageNo

/-- One page is replaced or added; a page that was released keeps a link. -/
theorem LinksOk.setPage {hdr : RmFileHdr} {q : Int} {page : RmPage n} (h : f.LinksOk)
    (hb : f.Becomes hdr (Function.update f.pages q (some page)) f')
    (hkeep : ∀ pg, f.pages q = some pg → pg.nextFreePageNo ≠ 0 → page.nextFreePageNo ≠ 0)
    (hlink : page.nextFreePageNo ≠ 0 → f.LinkTarget page.nextFreePageNo)
    (hfirst : f.LinkTarget hdr.firstFreePageNo ∨
      hdr.firstFreePageNo = q ∧ page.nextFreePageNo ≠ 0) : f'.LinksOk := by
  have hself : f'.pages q = some page := by rw [hb.pages, Function.update_self]
  have htarget : ∀ {t}, f.LinkTarget t → f'.LinkTarget t := by
    rintro t (ht | ⟨pg, hpg, hne⟩)
    · exact Or.inl ht
    · by_cases htq : t = q
      · subst htq
        exact Or.inr ⟨page, hself, hkeep pg hpg hne⟩
      · exact Or.inr ⟨pg, by rw [hb.pages, Function.update_of_ne htq, hpg], hne⟩
  refine ⟨?_, fun {r pg} hr hne => ?_⟩
  · rw [hb.fileHdr]
    rcases hfirst with ht | ⟨rfl, hne⟩
    · exact htarget ht
    · exact Or.inr ⟨page, hself, hne⟩
  · by_cases hrq : r = q
    · subst hrq
      rw [hself] at hr
      obtain rfl := Option.some.inj hr
      exact htarget (hlink hne)
    · rw [hb.pages, Function.update_of_ne hrq] at hr
      exact htarget (h.next hr hne)

/-! ### The operations on the map -/

/-- The invariant of a record file: numbering, counts and links. -/
structure Ok (f : RmFile n) : Prop where
  pages : f.PagesOk
  links : f.LinksOk

theorem ok_create (h1 : 1 ≤ n) (h2 : n ≤ 512) (fd : Int) (pool : PageId → Option (RmPage n))
    (pinCount : PageId → Nat) (fd2pageno : Int → Int) (hpool : ∀ q, pool ⟨fd, q⟩ = none) :
    (RmFile.create n fd pool pinCount fd2pageno).Ok := by
  refine ⟨pagesOk_create h1 h2 fd pool pinCount fd2pageno hpool, Or.inl rfl, fun {q page} hp => ?_⟩
  have hnone : (RmFile.create n fd pool pinCount fd2pageno).pages q = none := by
    show PageStore.view _ _ = none
    simp [PageStore.view, RmFile.create, hpool]
  rw [hnone] at hp
  cases hp

/-- The first free page, if it is one, has room. -/
def HasRoom (f : RmFile n) : Prop :=
  ∀ page, f.pages f.fileHdr.firstFreePageNo = some page →
    page.numRecords < f.fileHdr.numRecordsPerPage

/-- **`insert_record`** returns a free rid in range and binds it. -/
theorem Ok.insertRecord (h : f.Ok) (hroom : f.HasRoom) (buf : Fin n → UInt8) :
    ∃ rid f', RmFileHandle.insertRecord buf f = .ok rid f' ∧ f'.Ok ∧ f.records rid = none ∧
      f'.records = Function.update f.records rid (some buf) ∧
      1 ≤ rid.pageNo ∧ rid.pageNo < f'.fileHdr.numPages ∧
      0 ≤ rid.slotNo ∧ rid.slotNo < f'.fileHdr.numRecordsPerPage := by
  have hper := h.pages.perPage_eq
  rcases h.links.first with hno | ⟨page, hp, hlinked⟩
  · -- no free page: a new one
    have hnew := h.pages.pages_numPages
    obtain ⟨i, f', hi, hins, hb, hok'⟩ := h.pages.insertRecord_new (by rw [hno]; decide) buf
    have hpos := h.pages.numPages_pos
    have hrec : ∀ rid : Rid, rid.pageNo = f.fileHdr.numPages → f.records rid = none := by
      intro rid hr
      simp [records, hr, hnew]
    refine ⟨_, f', hins, ⟨hok', ?_⟩, hrec _ rfl, ?_, ?_⟩
    · refine h.links.setPage hb (fun pg hpg => ?_) (fun hne => absurd rfl hne) (Or.inl (Or.inl hno))
      rw [hnew] at hpg
      cases hpg
    · refine records_update (.zero n) hb.pages (fun s => ?_)
        fun s => RmPage.record_insertAt hi buf s
      rw [hrec _ rfl]
      simp [RmPage.record]
    · rw [hb.fileHdr]
      show 1 ≤ f.fileHdr.numPages ∧ f.fileHdr.numPages < f.fileHdr.numPages + 1 ∧
        (0 : Int) ≤ i ∧ (i : Int) < f.fileHdr.numRecordsPerPage
      omega
  · -- the first free page has a clear bit
    have hlt := hroom page hp
    obtain ⟨i, f', hi, hclear, hins, hb, hok'⟩ := h.pages.insertRecord_free hp (by omega) buf
    have hrange := h.pages.range hp
    have hnext : page.nextFreePageNo ≠ 0 → f.LinkTarget page.nextFreePageNo := h.links.next hp
    have hconst : (f.fileHdr.afterInsert page).numPages = f.fileHdr.numPages ∧
        (f.fileHdr.afterInsert page).numRecordsPerPage = f.fileHdr.numRecordsPerPage := by
      unfold RmFileHdr.afterInsert
      split_ifs <;> simp
    refine ⟨_, f', hins, ⟨hok', ?_⟩, ?_, ?_, ?_⟩
    · refine h.links.setPage hb (fun pg hpg hne => ?_) hnext (Or.inl ?_)
      · rw [hp] at hpg
        rwa [← Option.some.inj hpg] at hne
      · unfold RmFileHdr.afterInsert
        split_ifs
        · exact hnext hlinked
        · exact h.links.first
    · rw [← record_eq_records hp]
      simp [RmPage.record, hclear]
    · exact records_update page hb.pages (record_eq_records hp)
        fun s => RmPage.record_insertAt hi buf s
    · rw [hb.fileHdr, hconst.1, hconst.2]
      show 1 ≤ f.fileHdr.firstFreePageNo ∧ f.fileHdr.firstFreePageNo < f.fileHdr.numPages ∧
        (0 : Int) ≤ i ∧ (i : Int) < f.fileHdr.numRecordsPerPage
      omega

/-- **`delete_record`** on a record of the map removes it. -/
theorem Ok.deleteRecord (h : f.Ok) {rid : Rid} (hlive : f.records rid ≠ none) :
    ∃ f', RmFileHandle.deleteRecord rid f = .ok () f' ∧ f'.Ok ∧
      f'.records = Function.update f.records rid none := by
  obtain ⟨r, hr⟩ := Option.ne_none_iff_exists'.mp hlive
  obtain ⟨page, hp, h0, hlt, hset, -⟩ := live_of_records hr
  obtain ⟨f', hdr, next, hdel, hb, hok', hcase⟩ := h.pages.deleteRecord hp h0 hlt hset
  have hnext : page.nextFreePageNo ≠ 0 → f.LinkTarget page.nextFreePageNo := h.links.next hp
  have hrid : (⟨rid.pageNo, (rid.slotNo.toNat : Int)⟩ : Rid) = rid := by
    rw [Int.toNat_of_nonneg h0]
  refine ⟨f', hdel, ⟨hok', ?_⟩, ?_⟩
  · rcases hcase with ⟨-, rfl, rfl⟩ | ⟨-, rfl, rfl⟩
    · refine h.links.setPage hb (fun pg hpg hne => ?_) hnext (Or.inl h.links.first)
      rw [hp] at hpg
      rwa [← Option.some.inj hpg] at hne
    · -- released: the page links to what was first and becomes first
      have hne : f.fileHdr.firstFreePageNo ≠ 0 := by
        rcases h.links.first with hno | ⟨pg, hpg, -⟩
        · rw [hno]
          decide
        · have := (h.pages.range hpg).1
          omega
      exact h.links.setPage hb (fun _ _ _ => hne) (fun _ => h.links.first) (Or.inr ⟨rfl, hne⟩)
  · rw [← hrid]
    refine records_update page hb.pages (record_eq_records hp) fun s => ?_
    rw [RmPage.record_deleteAt]

/-- **`update_record`** on a record of the map replaces it. -/
theorem Ok.updateRecord (h : f.Ok) {rid : Rid} (hlive : f.records rid ≠ none)
    (buf : Fin n → UInt8) :
    ∃ f', RmFileHandle.updateRecord rid buf f = .ok () f' ∧ f'.Ok ∧
      f'.records = Function.update f.records rid (some buf) := by
  obtain ⟨r, hr⟩ := Option.ne_none_iff_exists'.mp hlive
  obtain ⟨page, hp, h0, hlt, hset, -⟩ := live_of_records hr
  obtain ⟨f', hupd, hb⟩ := updateRecord_eq_ok buf hp hset
  have hnext : page.nextFreePageNo ≠ 0 → f.LinkTarget page.nextFreePageNo := h.links.next hp
  have hcount : page.numRecords = page.count (perPage n) := h.pages.count hp
  have hpad : ∀ k, perPage n ≤ k → Bitmap.isSet page.bitmap k = false :=
    fun k hk => h.pages.padding hp hk
  have hrange := h.pages.range hp
  have hrid : (⟨rid.pageNo, (rid.slotNo.toNat : Int)⟩ : Rid) = rid := by
    rw [Int.toNat_of_nonneg h0]
  refine ⟨f', hupd, ⟨?_, ?_⟩, ?_⟩
  · exact h.pages.setPage hb rfl rfl hrange.1 (Or.inl ⟨hrange.2, rfl⟩) hcount hpad
  · refine h.links.setPage hb (fun pg hpg hne => ?_) hnext (Or.inl h.links.first)
    rw [hp] at hpg
    rwa [← Option.some.inj hpg] at hne
  · rw [← hrid]
    exact records_update page hb.pages (record_eq_records hp)
      fun s => RmPage.record_setSlot (by omega) hset buf s

/-- A file with the same header, pages and counter. -/
theorem Ok.of_becomes (h : f.Ok) (hb : f.Becomes f.fileHdr f.pages f') : f'.Ok := by
  refine ⟨?_, ?_, fun {q page} hp hne => ?_⟩
  · have hcounter := hb.counter
    have hc := h.pages.counter
    refine
      { h.pages with
        perPage_eq := by rw [hb.fileHdr, h.pages.perPage_eq]
        bitmapSize_eq := by rw [hb.fileHdr, h.pages.bitmapSize_eq]
        counter := by rw [hb.fd, hb.fileHdr]; omega
        numPages_pos := by rw [hb.fileHdr]; exact h.pages.numPages_pos
        exists_page := fun q => by rw [hb.pages, hb.fileHdr]; exact h.pages.exists_page q
        count := fun hp => h.pages.count (hb.pages ▸ hp)
        padding := fun hp => h.pages.padding (hb.pages ▸ hp) }
  · rw [LinkTarget, hb.fileHdr, hb.pages]
    exact h.links.first
  · rw [LinkTarget, hb.pages]
    exact h.links.next (hb.pages ▸ hp) hne

theorem records_of_becomes (hb : f.Becomes f.fileHdr f.pages f') : f'.records = f.records := by
  funext rid
  rw [records, hb.pages]
  rfl

/-- **`is_record`** reports the map at every rid in range. -/
theorem Ok.isRecord (h : f.Ok) {rid : Rid} (hp1 : 1 ≤ rid.pageNo)
    (hp2 : rid.pageNo < f.fileHdr.numPages) (hs0 : 0 ≤ rid.slotNo)
    (hs1 : rid.slotNo < f.fileHdr.numRecordsPerPage) :
    ∃ f', RmFileHandle.isRecord rid f = .ok (f.records rid).isSome f' ∧
      f.Becomes f.fileHdr f.pages f' := by
  obtain ⟨page, hp⟩ := (h.pages.exists_page rid.pageNo).mpr ⟨hp1, hp2⟩
  obtain ⟨f', hf, hb⟩ := fetchPageHandle_eq_ok hp
  refine ⟨f', ?_, hb⟩
  rw [RmFileHandle.isRecord, bind_of_ok hf, pure_apply]
  congr 1
  rw [h.pages.perPage_eq] at hs1
  simp [records, hp, RmPage.record, hs0, hs1]
  cases Bitmap.isSet page.bitmap rid.slotNo.toNat <;> rfl

/-- **`get_record`** returns the record of the map. -/
theorem Ok.getRecord {rid : Rid} {r : Fin n → UInt8} (hr : f.records rid = some r) :
    ∃ f', RmFileHandle.getRecord rid f = .ok r f' ∧ f.Becomes f.fileHdr f.pages f' := by
  obtain ⟨page, hp, -, -, -, hslot⟩ := live_of_records hr
  obtain ⟨f', hf, hb⟩ := fetchPageHandle_eq_ok hp
  refine ⟨f', ?_, hb⟩
  rw [RmFileHandle.getRecord, bind_of_ok hf, pure_apply, hslot]

end RmFile

end Rucbase
