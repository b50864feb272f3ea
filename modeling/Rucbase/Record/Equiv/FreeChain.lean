import Rucbase.Lib.Run
import Rucbase.Record.Equiv.RmFileHandle

/-!
# The chain of free pages

`ChainOk` says that the chain from `first_free_page_no` through `next_free_page_no` lists exactly
the pages with room, each once.  The code does not keep it: `create_new_page_handle` does not link
the page it creates, and `delete_record` releases a page when it becomes empty rather than when it
stops being full.  `chainOk_iff_keepsChain` says exactly which calls keep the chain.
-/

namespace Rucbase

open EStateM RmFileHandle

variable {n : Nat}

/-- The chain of pages from `p` on is `l`, and ends at `RM_NO_PAGE`. -/
def FreeChain (pages : Int → Option (RmPage n)) : Int → List Int → Prop
  | p, [] => p = rmNoPage
  | p, q :: l => p = q ∧ ∃ page, pages q = some page ∧ FreeChain pages page.nextFreePageNo l

namespace FreeChain

variable {pages pages' : Int → Option (RmPage n)} {p : Int} {l : List Int}

/-- Only the links of the listed pages matter. -/
theorem congr (h : FreeChain pages p l)
    (hq : ∀ q ∈ l, ∀ page, pages q = some page →
      ∃ page', pages' q = some page' ∧ page'.nextFreePageNo = page.nextFreePageNo) :
    FreeChain pages' p l := by
  induction l generalizing p with
  | nil => exact h
  | cons q l ih =>
    obtain ⟨rfl, page, hp, hl⟩ := h
    obtain ⟨page', hp', hnext⟩ := hq p (by simp) page hp
    exact ⟨rfl, page', hp', hnext ▸ ih hl fun r hr => hq r (by simp [hr])⟩

/-- A chain of pages with numbers from 1 on is determined by its start. -/
theorem unique (hpos : ∀ q page, pages q = some page → 1 ≤ q) {l' : List Int}
    (h : FreeChain pages p l) (h' : FreeChain pages p l') : l = l' := by
  have hend : ∀ {t : List Int} {q : Int}, FreeChain pages rmNoPage (q :: t) → False := by
    rintro t q ⟨rfl, page, hp, -⟩
    exact absurd (hpos _ _ hp) (by decide)
  induction l generalizing p l' with
  | nil =>
    cases l' with
    | nil => rfl
    | cons q t =>
      obtain rfl : p = rmNoPage := h
      exact (hend h').elim
  | cons q l ih =>
    cases l' with
    | nil =>
      obtain rfl : p = rmNoPage := h'
      exact (hend h).elim
    | cons q' t =>
      obtain ⟨rfl, page, hp, hl⟩ := h
      obtain ⟨rfl, page', hp', hl'⟩ := h'
      rw [hp] at hp'
      obtain rfl := Option.some.inj hp'
      rw [ih hl hl']

end FreeChain

/-- **The free chain** lists exactly the pages with room, each once, and ends. -/
def RmFile.ChainOk (f : RmFile n) : Prop :=
  ∃ l, FreeChain f.pages f.fileHdr.firstFreePageNo l ∧ l.Nodup ∧
    ∀ p, p ∈ l ↔ (1 ≤ p ∧ p < f.fileHdr.numPages) ∧
      ∃ page, f.pages p = some page ∧ page.numRecords < f.fileHdr.numRecordsPerPage

/-- The calls of a run. -/
inductive RecordOp (n : Nat) where
  | insert (buf : Fin n → UInt8)
  | delete (rid : Rid)

/-- A call that returns; only live records are deleted. -/
def RecordStep (f : RmFile n) (op : RecordOp n) (f' : RmFile n) : Prop :=
  match op with
  | .insert buf => ∃ rid, insertRecord buf f = .ok rid f'
  | .delete rid => f.Live rid ∧ deleteRecord rid f = .ok () f'

/-- A page is added only when every page is full. -/
def AllocatesWhenFull (f : RmFile n) (op : RecordOp n) (f' : RmFile n) : Prop :=
  match op with
  | .insert _ => f'.fileHdr.numPages ≠ f.fileHdr.numPages → ∀ p page, f.pages p = some page →
      f.fileHdr.numRecordsPerPage ≤ page.numRecords
  | .delete _ => f'.fileHdr.numPages = f.fileHdr.numPages

/-- The condition on a call: a record is inserted only while there is a free page, and deleted only
from a page that is neither full nor about to become empty. -/
def KeepsChain (f : RmFile n) : RecordOp n → Prop
  | .insert _ => f.fileHdr.firstFreePageNo ≠ rmNoPage
  | .delete rid => ∀ page, f.pages rid.pageNo = some page →
      1 < page.numRecords ∧ page.numRecords < f.fileHdr.numRecordsPerPage

section Steps

variable {f f' : RmFile n}

/-- Without a free page, every page is full. -/
theorem RmFile.ChainOk.full_of_no_page (h : f.ChainOk) (hok : f.PagesOk)
    (hfree : f.fileHdr.firstFreePageNo = rmNoPage) {p : Int} {page : RmPage n}
    (hp : f.pages p = some page) : f.fileHdr.numRecordsPerPage ≤ page.numRecords := by
  obtain ⟨l, hchain, -, hmem⟩ := h
  rw [hfree] at hchain
  obtain rfl : l = [] := hchain.unique (fun q page hq => (hok.range hq).1) rfl
  by_contra hlt
  exact List.not_mem_nil ((hmem p).mpr ⟨hok.range hp, page, hp, by omega⟩)

/-- The first free page, if there is one, has room. -/
theorem RmFile.ChainOk.head (h : f.ChainOk) (hfree : f.fileHdr.firstFreePageNo ≠ rmNoPage) :
    ∃ l page, FreeChain f.pages f.fileHdr.firstFreePageNo (f.fileHdr.firstFreePageNo :: l) ∧
      (f.fileHdr.firstFreePageNo :: l).Nodup ∧
      (∀ p, p ∈ f.fileHdr.firstFreePageNo :: l ↔ (1 ≤ p ∧ p < f.fileHdr.numPages) ∧
        ∃ page, f.pages p = some page ∧ page.numRecords < f.fileHdr.numRecordsPerPage) ∧
      f.pages f.fileHdr.firstFreePageNo = some page ∧
      page.numRecords < f.fileHdr.numRecordsPerPage := by
  obtain ⟨l, hchain, hnodup, hmem⟩ := h
  cases l with
  | nil => exact absurd hchain hfree
  | cons q l =>
    obtain ⟨rfl, -⟩ := id hchain
    obtain ⟨-, page, hp, hlt⟩ := (hmem f.fileHdr.firstFreePageNo).mp (by simp)
    exact ⟨l, page, hchain, hnodup, hmem, hp, hlt⟩

/-- **An insert keeps the chain exactly when there is a free page.**  Without one, the new page has
room and is not in the chain. -/
theorem insert_chainOk_iff (hok : f.PagesOk) (h : f.ChainOk) {buf : Fin n → UInt8} {rid : Rid}
    (hins : insertRecord buf f = .ok rid f') :
    f'.PagesOk ∧ (f'.ChainOk ↔ f.fileHdr.firstFreePageNo ≠ rmNoPage) ∧
      (f'.fileHdr.numPages ≠ f.fileHdr.numPages → f.fileHdr.firstFreePageNo = rmNoPage) := by
  have hseven := RmFile.seven_le_perPage hok.size_le
  have hper := hok.perPage_eq
  by_cases hfree : f.fileHdr.firstFreePageNo = rmNoPage
  · obtain ⟨i, g, hi, hins', hb, hok'⟩ := hok.insertRecord_new (by rw [hfree]; decide) buf
    rw [hins] at hins'
    obtain ⟨-, rfl⟩ := Result.ok.inj hins'
    refine ⟨hok', iff_of_false (fun h' => ?_) fun hne => hne hfree, fun _ => hfree⟩
    -- the new page has one record
    have hp : f'.pages f.fileHdr.numPages = some ((RmPage.zero n).insertAt i buf) := by
      rw [hb.pages, Function.update_self]
    have hfull := h'.full_of_no_page hok' (by rw [hb.fileHdr]; exact hfree) hp
    rw [hok'.perPage_eq, RmPage.insertAt_numRecords] at hfull
    change (RmFile.perPage n : Int) ≤ 0 + 1 at hfull
    omega
  · obtain ⟨l, page, hchain, hnodup, hmem, hp, hlt⟩ := h.head hfree
    obtain ⟨i, g, hi, hclear, hins', hb, hok'⟩ := hok.insertRecord_free hp (by omega) buf
    rw [hins] at hins'
    obtain ⟨-, rfl⟩ := Result.ok.inj hins'
    have hnum : f'.fileHdr.numPages = f.fileHdr.numPages := by
      rw [hb.fileHdr, RmFileHdr.afterInsert]
      split_ifs <;> rfl
    refine ⟨hok', iff_of_true ?_ hfree, fun hne => absurd hnum hne⟩
    obtain ⟨-, page', hp', htail⟩ := hchain
    rw [hp] at hp'
    obtain rfl := Option.some.inj hp'
    obtain ⟨hnotin, hnodup'⟩ := List.nodup_cons.mp hnodup
    have hpages : ∀ q, q ≠ f.fileHdr.firstFreePageNo → f'.pages q = f.pages q := fun q hq => by
      rw [hb.pages, Function.update_of_ne hq]
    have hself : f'.pages f.fileHdr.firstFreePageNo = some (page.insertAt i buf) := by
      rw [hb.pages, Function.update_self]
    have htail' : FreeChain f'.pages page.nextFreePageNo l := by
      refine htail.congr fun q hq pg hpg => ⟨pg, ?_, rfl⟩
      rw [hpages q fun e => hnotin (e ▸ hq), hpg]
    have hroom : ∀ q, q ≠ f.fileHdr.firstFreePageNo →
        ((∃ pg, f'.pages q = some pg ∧ pg.numRecords < f'.fileHdr.numRecordsPerPage) ↔
          ∃ pg, f.pages q = some pg ∧ pg.numRecords < f.fileHdr.numRecordsPerPage) := fun q hq => by
      rw [hpages q hq, hok'.perPage_eq, hper]
    by_cases hfull : page.numRecords + 1 ≥ f.fileHdr.numRecordsPerPage
    · -- the page is full now and leaves the chain
      have hfirst : f'.fileHdr.firstFreePageNo = page.nextFreePageNo := by
        rw [hb.fileHdr, RmFileHdr.afterInsert, if_pos hfull]
      refine ⟨l, by rw [hfirst]; exact htail', hnodup', fun q => ?_⟩
      by_cases hq : q = f.fileHdr.firstFreePageNo
      · subst hq
        simp only [hnotin, hself, Option.some.injEq, exists_eq_left', RmPage.insertAt_numRecords,
          false_iff, hok'.perPage_eq]
        omega
      · rw [hnum, hroom q hq, ← hmem q, List.mem_cons]
        simp [hq]
    · -- the page stays at the head
      have hfirst : f'.fileHdr.firstFreePageNo = f.fileHdr.firstFreePageNo := by
        rw [hb.fileHdr, RmFileHdr.afterInsert, if_neg hfull]
      refine ⟨f.fileHdr.firstFreePageNo :: l, ?_, hnodup, fun q => ?_⟩
      · rw [hfirst]
        exact ⟨rfl, _, hself, htail'⟩
      · by_cases hq : q = f.fileHdr.firstFreePageNo
        · subst hq
          have hrange := hok.range hp
          simp only [List.mem_cons, true_or, hself, Option.some.injEq, exists_eq_left',
            RmPage.insertAt_numRecords, true_iff, hok'.perPage_eq, hnum]
          omega
        · rw [hnum, hroom q hq, ← hmem q]

/-- **A delete keeps the chain exactly when the page was neither full nor holds one record.**  A page
that was full is not linked when it gets room, and a page that becomes empty is linked a second
time. -/
theorem delete_chainOk_iff (hok : f.PagesOk) (h : f.ChainOk) {rid : Rid} (hlive : f.Live rid)
    (hdel : deleteRecord rid f = .ok () f') :
    f'.PagesOk ∧ (f'.ChainOk ↔ KeepsChain f (.delete rid)) ∧
      f'.fileHdr.numPages = f.fileHdr.numPages := by
  have hseven := RmFile.seven_le_perPage hok.size_le
  have hper := hok.perPage_eq
  obtain ⟨page, hp, h0, hlt, hset⟩ := hlive
  obtain ⟨g, hdr, next, hdel', hb, hok', hcase⟩ := hok.deleteRecord hp h0 hlt hset
  rw [hdel] at hdel'
  obtain ⟨-, rfl⟩ := Result.ok.inj hdel'
  have hkeeps : KeepsChain f (.delete rid) ↔
      1 < page.numRecords ∧ page.numRecords < f.fileHdr.numRecordsPerPage := by
    constructor
    · exact fun hk => hk page hp
    · intro hk pg hpg
      rw [hp] at hpg
      rwa [← Option.some.inj hpg]
  have hcount : page.numRecords ≤ RmFile.perPage n := hok.numRecords_le hp
  have hpos : 1 ≤ page.numRecords := by
    have := RmPage.count_deleteAt (N := RmFile.perPage n) (by omega) hset
    have := hok.count hp
    omega
  have hnum : f'.fileHdr.numPages = f.fileHdr.numPages := by
    rw [hb.fileHdr]
    rcases hcase with ⟨-, rfl, -⟩ | ⟨-, rfl, -⟩ <;> rfl
  refine ⟨hok', ?_, hnum⟩
  rw [hkeeps]
  obtain ⟨l, hchain, hnodup, hmem⟩ := h
  have hpages : ∀ q, q ≠ rid.pageNo → f'.pages q = f.pages q := fun q hq => by
    rw [hb.pages, Function.update_of_ne hq]
  have hself : f'.pages rid.pageNo =
      some { page.deleteAt rid.slotNo.toNat with nextFreePageNo := next } := by
    rw [hb.pages, Function.update_self]
  have hinl : rid.pageNo ∈ l ↔ page.numRecords < f.fileHdr.numRecordsPerPage := by
    rw [hmem, hp]
    have := hok.range hp
    simp [this]
  have hge : ∀ q pg, f'.pages q = some pg → 1 ≤ q := fun q pg hq => (hok'.range hq).1
  rcases hcase with ⟨hne, hhdr, hnext⟩ | ⟨hone, hhdr, hnext⟩
  · -- not released: the links are as before
    have hchain' : FreeChain f'.pages f'.fileHdr.firstFreePageNo l := by
      rw [hb.fileHdr, hhdr]
      refine hchain.congr fun q hq pg hpg => ?_
      by_cases hqr : q = rid.pageNo
      · subst hqr
        rw [hp] at hpg
        obtain rfl := Option.some.inj hpg
        exact ⟨_, hself, hnext⟩
      · exact ⟨pg, by rw [hpages q hqr, hpg], rfl⟩
    constructor
    · rintro ⟨l', hl', -, hmem'⟩
      obtain rfl := hl'.unique hge hchain'
      have hin : rid.pageNo ∈ l' := by
        rw [hmem', hself, hok'.perPage_eq, hnum]
        have := hok.range hp
        refine ⟨this, _, rfl, ?_⟩
        show page.numRecords - 1 < _
        omega
      exact ⟨by omega, hinl.mp hin⟩
    · rintro ⟨-, hroom⟩
      refine ⟨l, hchain', hnodup, fun q => ?_⟩
      rw [hnum, hok'.perPage_eq]
      by_cases hqr : q = rid.pageNo
      · subst hqr
        have := hok.range hp
        simp only [hinl.mpr hroom, hself, Option.some.injEq, exists_eq_left', true_iff]
        exact ⟨this, by show page.numRecords - 1 < _; omega⟩
      · rw [hpages q hqr, hmem q, hper]
  · -- released, but it was in the chain already
    refine iff_of_false ?_ (by omega)
    rintro ⟨l', hl', hnodup', -⟩
    rw [hb.fileHdr, hhdr] at hl'
    cases l' with
    | nil =>
      have := (hok.range hp).1
      have hno : rid.pageNo = rmNoPage := hl'
      rw [hno] at this
      exact absurd this (by decide)
    | cons q t =>
      obtain ⟨hq, pg, hpg, ht⟩ := hl'
      obtain rfl : rid.pageNo = q := hq
      obtain ⟨hnotin, -⟩ := List.nodup_cons.mp hnodup'
      rw [hself] at hpg
      obtain rfl := Option.some.inj hpg
      -- the rest of the new chain is the old chain, which contains the page
      have ht' : FreeChain f.pages f.fileHdr.firstFreePageNo t := by
        rw [← hnext]
        refine ht.congr fun r hr pg hpg => ⟨pg, ?_, rfl⟩
        rw [← hpages r fun e => hnotin (e ▸ hr), hpg]
      have heq := ht'.unique (fun q pg hq => (hok.range hq).1) hchain
      exact hnotin (heq ▸ hinl.mpr (by omega))

end Steps

/-- **The free chain over runs.**  From any file whose chain is in order, after every call of a run
of inserts and deletions of live records the chain is in order (and pages were added only when all
pages were full) exactly when every insert finds a free page and every delete leaves a page that
was neither full nor down to one record. -/
theorem chainOk_iff_keepsChain {f : RmFile n} (hok : f.PagesOk) (h : f.ChainOk)
    (run : List (RecordOp n × RmFile n)) (hrun : Run RecordStep f run) :
    ((∀ e ∈ run, e.2.ChainOk) ∧ Along AllocatesWhenFull f run) ↔
      Along (fun f op _ => KeepsChain f op) f run := by
  have hstep : ∀ f (op : RecordOp n) f', RmFile.PagesOk f → RmFile.ChainOk f → RecordStep f op f' →
      RmFile.PagesOk f' ∧ (RmFile.ChainOk f' ↔ KeepsChain f op) := by
    intro f op f' hok h hs
    cases op with
    | insert buf =>
      obtain ⟨rid, hins⟩ := hs
      obtain ⟨hok', hiff, -⟩ := insert_chainOk_iff hok h hins
      exact ⟨hok', hiff⟩
    | delete rid =>
      obtain ⟨hok', hiff, -⟩ := delete_chainOk_iff hok h hs.1 hs.2
      exact ⟨hok', hiff⟩
  have hiff := hrun.forall_iff_along hstep hok h
  refine ⟨fun hall => hiff.mp hall.1, fun hkeep => ⟨hiff.mpr hkeep, ?_⟩⟩
  -- a page is added only when the chain is empty
  refine (hrun.along_of_invariant (I := fun f => f.PagesOk ∧ f.ChainOk) ?_ ⟨hok, h⟩ hkeep).2
  rintro f op f' ⟨hok, h⟩ hs hk
  obtain ⟨hok', hiff'⟩ := hstep f op f' hok h hs
  refine ⟨⟨hok', hiff'.mpr hk⟩, ?_⟩
  cases op with
  | insert buf =>
    obtain ⟨rid, hins⟩ := hs
    obtain ⟨-, -, hno⟩ := insert_chainOk_iff hok h hins
    exact fun hne p page hp => h.full_of_no_page hok (hno hne) hp
  | delete rid => exact (delete_chainOk_iff hok h hs.1 hs.2).2.2

/-- A file of four-byte records with one page, which was emptied and released. -/
def emptiedFile : RmFile 4 where
  fd := 3
  fileHdr := { RmFileHdr.init 4 with numPages := 2, firstFreePageNo := 1 }
  diskHdr := .init 4
  store :=
    { pool := fun p =>
        if p = ⟨3, 1⟩ then some { RmPage.zero 4 with nextFreePageNo := rmNoPage } else none
      pinCount := fun _ => 0
      disk := fun _ => none
      fd2pageno := fun _ => 2 }

theorem pages_emptiedFile (q : Int) : emptiedFile.pages q =
    if q = 1 then some { RmPage.zero 4 with nextFreePageNo := rmNoPage } else none := by
  by_cases hq : q = 1 <;> simp [RmFile.pages, PageStore.view, emptiedFile, hq]

theorem pagesOk_emptiedFile : emptiedFile.PagesOk := by
  have hpage : ∀ {q page}, emptiedFile.pages q = some page →
      page = { RmPage.zero 4 with nextFreePageNo := rmNoPage } := by
    intro q page hp
    rw [pages_emptiedFile] at hp
    split_ifs at hp
    exact (Option.some.inj hp).symm
  refine
    { size_pos := by decide
      size_le := by decide
      perPage_eq := RmFile.numRecordsPerPage_init 4
      bitmapSize_eq := by decide
      counter := rfl
      numPages_pos := by decide
      exists_page := fun q => ?_
      count := fun {q page} hp => ?_
      padding := fun {q page k} hp _ => ?_ }
  · rw [pages_emptiedFile]
    show _ ↔ 1 ≤ q ∧ q < 2
    by_cases hq : q = 1
    · simp [hq]
    · simp only [if_neg hq, reduceCtorEq, exists_false, false_iff]
      omega
  · rw [hpage hp]
    show (0 : Int) = (((RmPage.zero 4).count (RmFile.perPage 4) : Nat) : Int)
    rw [RmFile.count_zero]
    rfl
  · rw [hpage hp]
    exact RmFile.isSet_zero 4 k

theorem chainOk_emptiedFile : emptiedFile.ChainOk := by
  have hchain : FreeChain emptiedFile.pages 1 [1] :=
    ⟨rfl, { RmPage.zero 4 with nextFreePageNo := rmNoPage }, pages_emptiedFile 1, rfl⟩
  refine ⟨[1], hchain, by decide, fun p => ?_⟩
  rw [pages_emptiedFile, List.mem_singleton]
  by_cases hp : p = 1
  · subst hp
    simp only [if_true, Option.some.injEq, exists_eq_left', true_iff]
    decide
  · simp [hp]

/-- A record goes to the page that was emptied, and the chain stays in order. -/
theorem chainOk_insert_emptiedFile :
    ∃ run : List (RecordOp 4 × RmFile 4), run.map Prod.fst = [.insert fun _ => 7] ∧
      Run RecordStep emptiedFile run ∧ ∀ e ∈ run, e.2.ChainOk := by
  obtain ⟨i, f', -, -, hins, -⟩ := pagesOk_emptiedFile.insertRecord_free
    (by rw [pages_emptiedFile]; rfl) (by decide) fun _ => 7
  have hrun : Run RecordStep emptiedFile [(.insert fun _ => 7, f')] := .cons ⟨_, hins⟩ (.nil _)
  refine ⟨_, rfl, hrun, ?_⟩
  have hkeeps : KeepsChain emptiedFile (.insert fun _ => 7) := by
    show (1 : Int) ≠ -1
    decide
  exact ((chainOk_iff_keepsChain pagesOk_emptiedFile chainOk_emptiedFile _ hrun).mpr
    ⟨hkeeps, trivial⟩).1

/-- **The first insert breaks the chain.**  The page it creates has room and is in no chain. -/
theorem not_chainOk_first_insert :
    ∃ run : List (RecordOp 4 × RmFile 4), run.map Prod.fst = [.insert fun _ => 7] ∧
      Run RecordStep (.create 4 3 (fun _ => none) (fun _ => 0) fun _ => 0) run ∧
      ¬∀ e ∈ run, e.2.ChainOk := by
  have hok := RmFile.pagesOk_create (n := 4) (by decide) (by decide) 3 (fun _ => none) (fun _ => 0)
    (fun _ => 0) fun _ => rfl
  have hchain : (RmFile.create 4 3 (fun _ => none) (fun _ => 0) fun _ => 0).ChainOk :=
    ⟨[], rfl, by decide, fun p => by simp [RmFile.pages, PageStore.view, RmFile.create]⟩
  obtain ⟨i, f', -, hins, -⟩ := hok.insertRecord_new (by decide) fun _ => 7
  refine ⟨[(_, f')], rfl, .cons ⟨_, hins⟩ (.nil _), fun hall => ?_⟩
  exact (insert_chainOk_iff hok hchain hins).2.1.mp (hall _ (List.mem_singleton_self _)) rfl

end Rucbase
