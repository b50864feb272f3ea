import Rucbase.Record.Equiv.FreeChain
import Rucbase.Record.Equiv.RecordMap

/-!
# Calls at slots that hold no record, and the rollback insert

`delete_record` and `get_record` never look at the bit of their slot, and `update_record` returns
normally when it is clear.  `counts_iff_keepsCounts` says exactly which calls keep `num_records` the
number of bits set and refuse a slot without a record.  The insert at a given rid never undoes a
`delete_record`, since it always creates a page (`rollback_never_restores`); the records do come
back (`rollback_records`).
-/

namespace Rucbase

open EStateM RmFileHandle

variable {n : Nat} {f f' : RmFile n}

/-! ### Slots that hold no record -/

namespace RmFile

/-- A rid in the range of the file. -/
def InRange (f : RmFile n) (rid : Rid) : Prop :=
  1 ≤ rid.pageNo ∧ rid.pageNo < f.fileHdr.numPages ∧
    0 ≤ rid.slotNo ∧ rid.slotNo < f.fileHdr.numRecordsPerPage

/-- `num_records` is the number of bits set, in every page. -/
def CountsAgree (f : RmFile n) : Prop :=
  ∀ q page, f.pages q = some page →
    page.numRecords = page.count f.fileHdr.numRecordsPerPage.toNat

theorem Ok.countsAgree (h : f.Ok) : f.CountsAgree := by
  intro q page hp
  rw [h.pages.perPage_eq, Int.toNat_natCast]
  exact h.pages.count hp

end RmFile

/-- The calls of a client that keeps rids. -/
inductive RidCall (n : Nat) where
  | insertRecord (buf : Fin n → UInt8)
  | deleteRecord (rid : Rid)
  | updateRecord (rid : Rid) (buf : Fin n → UInt8)
  | getRecord (rid : Rid)

namespace RidCall

/-- The rid that the call is given. -/
def rid? : RidCall n → Option Rid
  | .insertRecord _ => none
  | .deleteRecord rid => some rid
  | .updateRecord rid _ => some rid
  | .getRecord rid => some rid

/-- The call, without what it returns. -/
def run : RidCall n → RmM n Unit
  | .insertRecord buf => do let _ ← RmFileHandle.insertRecord buf
  | .deleteRecord rid => RmFileHandle.deleteRecord rid
  | .updateRecord rid buf => RmFileHandle.updateRecord rid buf
  | .getRecord rid => do let _ ← RmFileHandle.getRecord rid

/-- A call, which may throw; the rids are in range, whether or not they hold a record. -/
def Step (f : RmFile n) (c : RidCall n) (f' : RmFile n) : Prop :=
  (∀ rid ∈ c.rid?, f.InRange rid) ∧ f' = c.run.after f

/-- A call at a slot without a record throws and changes neither the pages nor the header. -/
def Refuses (f : RmFile n) (c : RidCall n) (f' : RmFile n) : Prop :=
  ∀ rid ∈ c.rid?, ¬f.Live rid →
    (∃ e f₁, c.run f = .error e f₁) ∧ f'.pages = f.pages ∧ f'.fileHdr = f.fileHdr

/-- The condition on a call: the first free page has room, and the slot holds a record. -/
def KeepsCounts (f : RmFile n) : RidCall n → Prop
  | .insertRecord _ => f.HasRoom
  | .deleteRecord rid => f.Live rid
  | .updateRecord rid _ => f.Live rid
  | .getRecord rid => f.Live rid

end RidCall

namespace RmFile

theorem InRange.exists_page (h : f.Ok) {rid : Rid} (hr : f.InRange rid) :
    ∃ page, f.pages rid.pageNo = some page :=
  (h.pages.exists_page rid.pageNo).mpr ⟨hr.1, hr.2.1⟩

theorem Live.records_ne_none {rid : Rid} (h : f.Live rid) : f.records rid ≠ none := by
  obtain ⟨page, hp, h0, hlt, hset⟩ := h
  rw [records, hp, Option.bind_some, RmPage.record, if_pos ⟨h0, hlt, hset⟩]
  exact Option.some_ne_none _

/-- A bit past the slots is not counted. -/
theorem count_insertAt_of_le {page : RmPage n} {i N : Nat} (hi : N ≤ i) (buf : Fin n → UInt8) :
    (page.insertAt i buf).count N = page.count N := by
  unfold RmPage.count
  congr 1
  refine Finset.filter_congr fun k hk => ?_
  have hne : k ≠ i := by
    rw [Finset.mem_range] at hk
    omega
  simp [hne]

/-- **An insert into a full page** goes to the slot after its last and is counted, though the bit it
sets is none of the page's slots. -/
theorem Ok.insertRecord_full (h : f.Ok) {page : RmPage n}
    (hp : f.pages f.fileHdr.firstFreePageNo = some page)
    (hfull : f.fileHdr.numRecordsPerPage ≤ page.numRecords) (buf : Fin n → UInt8) :
    ∃ rid f', RmFileHandle.insertRecord buf f = .ok rid f' ∧ ¬f'.CountsAgree := by
  have hper := h.pages.perPage_eq
  have hcount := h.pages.count hp
  have hle := page.count_le (perPage n)
  have hpos := (h.pages.range hp).1
  obtain ⟨f₁, hc, h₁⟩ := createPageHandle_of_free (by omega) hp
  -- every slot is taken
  have hfirst : Bitmap.firstBit false page.bitmap f.fileHdr.numRecordsPerPage = perPage n := by
    rw [hper]
    rcases Bitmap.isNext_nextBit page.bitmap false (perPage n) (-1) with
      ⟨hnone, -⟩ | ⟨hlo, hlt, hclear, -⟩
    · exact hnone
    · exfalso
      have hslot : (Bitmap.nextBit false page.bitmap (perPage n) (-1)).toNat < perPage n := by omega
      have hmore : (page.insertAt (Bitmap.nextBit false page.bitmap (perPage n) (-1)).toNat buf).count
          (perPage n) = page.count (perPage n) + 1 := RmPage.count_insertAt hslot hclear
      have := RmPage.count_le (page.insertAt
        (Bitmap.nextBit false page.bitmap (perPage n) (-1)).toNat buf) (perPage n)
      omega
  obtain ⟨f', hins, hb⟩ := insertRecord_of_createPageHandle buf hc h₁ hfirst
  refine ⟨_, f', hins, fun hagree => ?_⟩
  have hpage : f'.pages f.fileHdr.firstFreePageNo = some (page.insertAt (perPage n) buf) := by
    rw [hb.pages, Function.update_self]
  have hper' : f'.fileHdr.numRecordsPerPage = perPage n := by
    rw [hb.fileHdr, ← hper]
    unfold RmFileHdr.afterInsert
    split_ifs <;> rfl
  have hnum := hagree _ _ hpage
  rw [hper', Int.toNat_natCast, count_insertAt_of_le le_rfl, RmPage.insertAt_numRecords] at hnum
  omega

end RmFile

namespace RidCall

variable {c : RidCall n}

theorem discard_of_ok {α : Type} {x : RmM n α} {a : α} (h : x f = .ok a f') :
    (do let _ ← x : RmM n Unit) f = .ok () f' := by
  rw [bind_of_ok h]
  rfl

/-- A call that returns does not refuse its rid. -/
theorem live_of_refuses (hrefuse : Refuses f c f') {rid : Rid} (hrid : rid ∈ c.rid?) {f₁ : RmFile n}
    (hok : c.run f = .ok () f₁) : f.Live rid := by
  by_contra hdead
  obtain ⟨⟨e, f₂, herr⟩, -⟩ := hrefuse rid hrid hdead
  rw [hok] at herr
  cases herr

/-- A call that is given a rid returns, whether or not the slot holds a record. -/
theorem run_eq_ok (h : f.Ok) {rid : Rid} (hrid : rid ∈ c.rid?) (hr : f.InRange rid) :
    ∃ f', c.run f = .ok () f' := by
  obtain ⟨page, hp⟩ := hr.exists_page h
  cases c with
  | insertRecord buf => cases hrid
  | deleteRecord r =>
    obtain rfl := Option.mem_some_iff.mp hrid
    obtain ⟨f', hdel, -⟩ := deleteRecord_eq_ok hp
    exact ⟨f', hdel⟩
  | updateRecord r buf =>
    obtain rfl := Option.mem_some_iff.mp hrid
    by_cases hset : Bitmap.isSet page.bitmap r.slotNo.toNat = true
    · obtain ⟨f', hupd, -⟩ := updateRecord_eq_ok buf hp hset
      exact ⟨f', hupd⟩
    · obtain ⟨f₁, hf, -⟩ := fetchPageHandle_eq_ok hp
      refine ⟨f₁, ?_⟩
      rw [run, RmFileHandle.updateRecord, bind_of_ok hf, if_neg hset]
      rfl
  | getRecord r =>
    obtain rfl := Option.mem_some_iff.mp hrid
    obtain ⟨f₁, hf, -⟩ := fetchPageHandle_eq_ok hp
    have hget : RmFileHandle.getRecord r f = .ok (page.slots r.slotNo.toNat) f₁ := by
      rw [RmFileHandle.getRecord, bind_of_ok hf]
      rfl
    exact ⟨f₁, discard_of_ok hget⟩

/-- A call that meets the condition keeps the invariant. -/
theorem ok_of_keepsCounts (h : f.Ok) (hkeep : KeepsCounts f c) : (c.run.after f).Ok := by
  cases c with
  | insertRecord buf =>
    obtain ⟨rid, f', hins, hok, -⟩ := h.insertRecord hkeep buf
    rwa [after_of_ok (show (RidCall.insertRecord buf).run f = _ from discard_of_ok hins)]
  | deleteRecord rid =>
    obtain ⟨f', hdel, hok, -⟩ := h.deleteRecord hkeep.records_ne_none
    rwa [after_of_ok (show (RidCall.deleteRecord rid).run f = _ from hdel)]
  | updateRecord rid buf =>
    obtain ⟨f', hupd, hok, -⟩ := h.updateRecord hkeep.records_ne_none buf
    rwa [after_of_ok (show (RidCall.updateRecord rid buf).run f = _ from hupd)]
  | getRecord rid =>
    obtain ⟨r, hr⟩ := Option.ne_none_iff_exists'.mp hkeep.records_ne_none
    obtain ⟨f', hget, hb⟩ := RmFile.Ok.getRecord hr
    rw [after_of_ok (show (RidCall.getRecord rid).run f = _ from discard_of_ok hget)]
    exact h.of_becomes hb

/-- **Exactly the calls that meet the condition** keep the counts and refuse free slots. -/
theorem keepsCounts_iff (h : f.Ok) (hs : Step f c f') :
    (f'.CountsAgree ∧ Refuses f c f') ↔ KeepsCounts f c := by
  obtain ⟨hrange, rfl⟩ := hs
  constructor
  · rintro ⟨hagree, hrefuse⟩
    have hlive : ∀ rid ∈ c.rid?, f.Live rid := by
      intro rid hrid
      obtain ⟨f', hrun⟩ := run_eq_ok h hrid (hrange rid hrid)
      exact live_of_refuses hrefuse hrid hrun
    cases c with
    | insertRecord buf =>
      -- an insert into a full page counts one record too many
      by_contra hroom
      obtain ⟨page, hp, hfull⟩ : ∃ page, f.pages f.fileHdr.firstFreePageNo = some page ∧
          f.fileHdr.numRecordsPerPage ≤ page.numRecords := by
        simpa [KeepsCounts, RmFile.HasRoom] using hroom
      obtain ⟨rid, f', hins, hdrift⟩ := h.insertRecord_full hp hfull buf
      rw [after_of_ok (show (RidCall.insertRecord buf).run f = _ from discard_of_ok hins)] at hagree
      exact hdrift hagree
    | deleteRecord rid => exact hlive rid rfl
    | updateRecord rid buf => exact hlive rid rfl
    | getRecord rid => exact hlive rid rfl
  · intro hkeep
    refine ⟨(ok_of_keepsCounts h hkeep).countsAgree, fun rid hrid hdead => absurd ?_ hdead⟩
    cases c with
    | insertRecord buf => cases hrid
    | deleteRecord r => rwa [← Option.mem_some_iff.mp hrid]
    | updateRecord r buf => rwa [← Option.mem_some_iff.mp hrid]
    | getRecord r => rwa [← Option.mem_some_iff.mp hrid]

end RidCall

open RidCall in
/-- **Counters and refusals over runs.**  After every call of a run from a created file
`num_records` is the number of bits set in every page, and every call at a slot without a record is
refused, exactly when every insert finds room in the first free page and no call is at a slot
without a record. -/
theorem counts_iff_keepsCounts (h1 : 1 ≤ n) (h2 : n ≤ 512) (fd : Int)
    (pool : PageId → Option (RmPage n)) (pinCount : PageId → Nat) (fd2pageno : Int → Int)
    (hpool : ∀ q, pool ⟨fd, q⟩ = none) (run : List (RidCall n × RmFile n))
    (hrun : Run Step (.create n fd pool pinCount fd2pageno) run) :
    Along (fun f c f' => f'.CountsAgree ∧ Refuses f c f')
        (.create n fd pool pinCount fd2pageno) run ↔
      Along (fun f c _ => KeepsCounts f c) (.create n fd pool pinCount fd2pageno) run := by
  have hok := RmFile.ok_create h1 h2 fd pool pinCount fd2pageno hpool
  refine hrun.along_iff_along (I := RmFile.Ok) (fun f c f' => keepsCounts_iff) ?_ hok
  rintro f c f' h ⟨-, rfl⟩ hkeep
  exact ok_of_keepsCounts h hkeep

/-- The run of a list of calls. -/
def RidCall.trace (f : RmFile n) : List (RidCall n) → List (RidCall n × RmFile n)
  | [] => []
  | c :: l => (c, c.run.after f) :: trace (c.run.after f) l

/-- A file of four-byte records as it is created. -/
def freshFile : RmFile 4 := .create 4 3 (fun _ => none) (fun _ => 0) fun _ => 0

theorem inRange_first {f : RmFile 4}
    (h : f.fileHdr.numPages = 2 ∧ f.fileHdr.numRecordsPerPage = 987) :
    ∀ rid ∈ some (⟨1, 0⟩ : Rid), f.InRange rid := by
  intro rid hrid
  obtain rfl := Option.mem_some_iff.mp hrid
  rw [RmFile.InRange, h.1, h.2]
  decide

/-- A record is stored, read and deleted. -/
theorem counts_agree_live_calls : Along (fun f c f' => f'.CountsAgree ∧ RidCall.Refuses f c f')
    freshFile (RidCall.trace freshFile
      [.insertRecord fun _ => 7, .updateRecord ⟨1, 0⟩ fun _ => 8, .getRecord ⟨1, 0⟩,
        .deleteRecord ⟨1, 0⟩]) := by
  have hlive : ∀ {f : RmFile 4}, ((f.pages 1).any fun page => Bitmap.isSet page.bitmap 0) = true →
      f.Live ⟨1, 0⟩ := by
    intro f h
    obtain ⟨page, hp, hset⟩ := (Option.any_eq_true _ _).mp h
    exact ⟨page, hp, le_rfl, by decide, hset⟩
  refine (counts_iff_keepsCounts (by decide) (by decide) 3 (fun _ => none) (fun _ => 0)
    (fun _ => 0) (fun _ => rfl) _ ?_).mpr ?_
  · refine .cons ⟨fun rid hrid => (nomatch hrid), rfl⟩ (.cons ⟨inRange_first ?_, rfl⟩
      (.cons ⟨inRange_first ?_, rfl⟩ (.cons ⟨inRange_first ?_, rfl⟩ (.nil _)))) <;> decide +kernel
  · refine ⟨fun page hp => ?_, hlive ?_, hlive ?_, hlive ?_, trivial⟩
    · cases hp
    · decide +kernel
    · decide +kernel
    · decide +kernel

/-- **A record is deleted twice.**  The second call returns, and leaves `num_records` at -1. -/
theorem not_counts_agree_second_delete :
    Run RidCall.Step freshFile (RidCall.trace freshFile
      [.insertRecord fun _ => 7, .deleteRecord ⟨1, 0⟩, .deleteRecord ⟨1, 0⟩]) ∧
    ¬Along (fun f c f' => f'.CountsAgree ∧ RidCall.Refuses f c f') freshFile
      (RidCall.trace freshFile
        [.insertRecord fun _ => 7, .deleteRecord ⟨1, 0⟩, .deleteRecord ⟨1, 0⟩]) := by
  constructor
  · refine .cons ⟨fun rid hrid => (nomatch hrid), rfl⟩ (.cons ⟨inRange_first ?_, rfl⟩
      (.cons ⟨inRange_first ?_, rfl⟩ (.nil _))) <;> decide +kernel
  · rintro ⟨-, -, ⟨hagree, -⟩, -⟩
    have hnum : (((RidCall.deleteRecord ⟨1, 0⟩).run.after ((RidCall.deleteRecord ⟨1, 0⟩).run.after
        ((RidCall.insertRecord fun _ => 7).run.after freshFile))).pages 1).map (·.numRecords) =
          some (-1) := by
      decide +kernel
    obtain ⟨page, hp, hneg⟩ := Option.map_eq_some_iff.mp hnum
    have hcount := hagree 1 page hp
    omega

/-! ### The rollback insert -/

/-- What the insert at a rid has to restore after the `delete_record` that it undoes. -/
structure RmFile.Restored (f f' : RmFile n) : Prop where
  records : f'.records = f.records
  numRecords : ∀ q, (f'.pages q).map (·.numRecords) = (f.pages q).map (·.numRecords)
  numPages : f'.fileHdr.numPages = f.fileHdr.numPages
  counter : f'.store.fd2pageno f'.fd = f.store.fd2pageno f.fd
  freeChain : ∃ l, FreeChain f'.pages f'.fileHdr.firstFreePageNo l ∧
    ∀ p ∈ l, ∃ page, f'.pages p = some page ∧ page.numRecords < f'.fileHdr.numRecordsPerPage

/-- `delete_record` followed by the insert of the same bytes at the same rid. -/
def RmFile.RollbackRestores (f : RmFile n) (rid : Rid) (buf : Fin n → UInt8) : Prop :=
  ∃ f₁ f₂, deleteRecord rid f = .ok () f₁ ∧ insertRecordAt rid buf f₁ = .ok () f₂ ∧ f.Restored f₂

theorem createNewPageHandle_numPages {r : Int × RmPage n} (h : createNewPageHandle f = .ok r f') :
    f'.fileHdr.numPages = f.fileHdr.numPages + 1 := by
  rw [createNewPageHandle, get_bind_apply] at h
  cases hpool : f.store.pool ⟨f.fd, f.store.fd2pageno f.fd⟩ with
  | some page =>
    simp only [hpool] at h
    cases h
  | none =>
    simp only [hpool] at h
    obtain ⟨-, rfl⟩ := Result.ok.inj h
    rfl

theorem fetchPageHandle_fileHdr {q : Int} {page : RmPage n}
    (h : fetchPageHandle q f = .ok page f') : f'.fileHdr = f.fileHdr := by
  rw [fetchPageHandle, get_bind_apply] at h
  cases hfetch : f.store.fetchPage ⟨f.fd, q⟩ with
  | some r =>
    simp only [hfetch] at h
    obtain ⟨-, rfl⟩ := Result.ok.inj h
    rfl
  | none =>
    simp only [hfetch] at h
    cases h

/-- The insert at a rid of a page of the file adds a page, in any state of the file. -/
theorem insertRecordAt_numPages {rid : Rid} {buf : Fin n → UInt8}
    (hlt : rid.pageNo < f.fileHdr.numPages) (h : insertRecordAt rid buf f = .ok () f') :
    f'.fileHdr.numPages = f.fileHdr.numPages + 1 := by
  rw [insertRecordAt, get_bind_apply, if_pos hlt, bind_eq_ok_iff] at h
  obtain ⟨r, f₁, hnew, h⟩ := h
  obtain ⟨page, f₂, hfetch, h⟩ := bind_eq_ok_iff.mp h
  have hnum : f₂.fileHdr.numPages = f.fileHdr.numPages + 1 := by
    rw [fetchPageHandle_fileHdr hfetch]
    exact createNewPageHandle_numPages hnew
  rw [get_bind_apply] at h
  obtain ⟨u, f₃, hwrite, h⟩ := bind_eq_ok_iff.mp h
  obtain ⟨-, rfl⟩ := Result.ok.inj hwrite
  -- what is left changes the first free page and a pin count
  split_ifs at h with hfull
  · obtain ⟨-, rfl⟩ := Result.ok.inj h
    exact hnum
  · obtain ⟨-, rfl⟩ := Result.ok.inj h
    exact hnum

theorem unpin_eq_ok (f : RmFile n) (q : Int) :
    ∃ f', (modify fun f => { f with store := (f.store.unpinPage ⟨f.fd, q⟩).2 } : RmM n Unit) f =
      .ok () f' ∧ f.Becomes f.fileHdr f.pages f' := by
  refine ⟨_, rfl, rfl, rfl, ?_, ?_⟩
  · funext r
    exact PageStore.view_unpinPage f.store _ _
  · show (f.store.unpinPage _).2.fd2pageno f.fd - _ = _
    rw [PageStore.fd2pageno_unpinPage]

/-- **The insert at a rid** whose page is there: a page is added, the record is stored, and when the
page becomes full its link becomes the first free page. -/
theorem insertRecordAt_eq_ok (h : f.PagesOk) {rid : Rid} {page : RmPage n}
    (hp : f.pages rid.pageNo = some page) (buf : Fin n → UInt8) :
    ∃ f' first, insertRecordAt rid buf f = .ok () f' ∧
      f.Becomes { f.fileHdr with numPages := f.fileHdr.numPages + 1, firstFreePageNo := first }
        (Function.update (Function.update f.pages f.fileHdr.numPages (some (.zero n))) rid.pageNo
          (some (page.insertAt rid.slotNo.toNat buf))) f' := by
  have hlt := (h.range hp).2
  obtain ⟨f₁, hnew, hb₁⟩ := createNewPageHandle_eq_ok h.counter h.pages_numPages
  have hp₁ : f₁.pages rid.pageNo = some page := by
    rw [hb₁.pages, Function.update_of_ne (by omega), hp]
  obtain ⟨f₂, hfetch, hb₂⟩ := fetchPageHandle_eq_ok hp₁
  obtain ⟨f₃, hwrite, hb₃⟩ := writePage_eq_ok f₂ rid.pageNo (page.insertAt rid.slotNo.toNat buf)
  have hb := (hb₁.trans hb₂).trans hb₃
  rw [hb₂.fileHdr, hb₁.fileHdr, hb₂.pages, hb₁.pages] at hb
  have hrun : insertRecordAt rid buf f = (do
      if page.numRecords + 1 = f₂.fileHdr.numRecordsPerPage then
        modify fun f =>
          { f with fileHdr := { f.fileHdr with firstFreePageNo := page.nextFreePageNo } }
      modify fun f => { f with store := (f.store.unpinPage ⟨f.fd, rid.pageNo⟩).2 } :
        RmM n Unit) f₃ := by
    rw [insertRecordAt, get_bind_apply, if_pos hlt, bind_of_ok hnew]
    show (fetchPageHandle rid.pageNo >>= _) f₁ = _
    rw [bind_of_ok hfetch, get_bind_apply]
    exact bind_of_ok hwrite
  rw [hrun]
  by_cases hfull : page.numRecords + 1 = f₂.fileHdr.numRecordsPerPage
  · obtain ⟨f₄, hset, hb₄⟩ := setHdr_eq_ok f₃ page.nextFreePageNo
    obtain ⟨f₅, hunpin, hb₅⟩ := unpin_eq_ok f₄ rid.pageNo
    refine ⟨f₅, page.nextFreePageNo, ?_, ?_⟩
    · rw [if_pos hfull, bind_of_ok hset]
      exact hunpin
    · have hall := (hb.trans hb₄).trans hb₅
      rw [hb₄.pages, hb₄.fileHdr, hb.pages, hb.fileHdr] at hall
      exact hall
  · obtain ⟨f₄, hunpin, hb₄⟩ := unpin_eq_ok f₃ rid.pageNo
    refine ⟨f₄, f.fileHdr.firstFreePageNo, ?_, ?_⟩
    · rw [if_neg hfull]
      exact hunpin
    · have hall := hb.trans hb₄
      rw [hb.pages, hb.fileHdr] at hall
      exact hall

/-- The file with one record. -/
def oneRecord : RmFile 4 := (RidCall.insertRecord fun _ => 7).run.after freshFile

theorem records_oneRecord : oneRecord.records ⟨1, 0⟩ = some fun _ => 7 := by
  decide +kernel

theorem ok_oneRecord : oneRecord.Ok := by
  have hfresh : freshFile.Ok :=
    RmFile.ok_create (by decide) (by decide) 3 (fun _ => none) (fun _ => 0) (fun _ => 0) fun _ => rfl
  obtain ⟨rid, f', hins, hok, -⟩ := hfresh.insertRecord (fun page hp => nomatch hp) fun _ => 7
  have hafter : oneRecord = f' := after_bind_of_ok hins
  rw [hafter]
  exact hok

/-- **What does come back**: in a file in order the two calls return and leave the same records, but
in a file with a page more. -/
theorem rollback_records (h : f.Ok) {rid : Rid} {buf : Fin n → UInt8}
    (hrec : f.records rid = some buf) :
    ∃ f₁ f₂, deleteRecord rid f = .ok () f₁ ∧ insertRecordAt rid buf f₁ = .ok () f₂ ∧
      f₂.records = f.records ∧ f₂.fileHdr.numPages = f.fileHdr.numPages + 1 ∧
      f₂.store.fd2pageno f₂.fd = f.store.fd2pageno f.fd + 1 := by
  have hlive : f.records rid ≠ none := by
    rw [hrec]
    exact Option.some_ne_none _
  obtain ⟨page, hp, h0, hlt, hset, -⟩ := RmFile.live_of_records hrec
  have hrange := h.pages.range hp
  have hrid : (⟨rid.pageNo, (rid.slotNo.toNat : Int)⟩ : Rid) = rid := by
    rw [Int.toNat_of_nonneg h0]
  obtain ⟨f₁, hdel, hok₁, hrec₁⟩ := h.deleteRecord hlive
  obtain ⟨g, hdr, next, hdel', hb₁, -, hcase⟩ := h.pages.deleteRecord hp h0 hlt hset
  rw [hdel] at hdel'
  obtain ⟨-, rfl⟩ := Result.ok.inj hdel'
  have hp₁ : f₁.pages rid.pageNo =
      some { page.deleteAt rid.slotNo.toNat with nextFreePageNo := next } := by
    rw [hb₁.pages, Function.update_self]
  have hnum : f₁.fileHdr.numPages = f.fileHdr.numPages := by
    rw [hb₁.fileHdr]
    rcases hcase with ⟨-, rfl, -⟩ | ⟨-, rfl, -⟩
    · rfl
    · rfl
  -- `insert_record(rid, buf)` adds a page whether or not the rid needs one
  obtain ⟨f₂, first, hins, hb₂⟩ := insertRecordAt_eq_ok hok₁.pages hp₁ buf
  refine ⟨f₁, f₂, hdel, hins, ?_, ?_, ?_⟩
  · -- the new page holds no record, and the rid gets its bytes back
    have hmid : ∀ r : Rid, ((Function.update f₁.pages f₁.fileHdr.numPages (some (.zero n)))
        r.pageNo).bind (fun pg => pg.record r.slotNo) = f₁.records r := by
      intro r
      by_cases hr : r.pageNo = f₁.fileHdr.numPages
      · rw [hr, Function.update_self, RmFile.records, hr, hok₁.pages.pages_numPages]
        simp [RmPage.record]
      · rw [Function.update_of_ne hr]
        rfl
    funext r
    rw [RmFile.records, hb₂.pages]
    by_cases hr : r.pageNo = rid.pageNo
    · rw [hr, Function.update_self, Option.bind_some,
        RmPage.record_insertAt (by omega) buf, RmFile.record_eq_records hp₁, hrec₁]
      by_cases hs : r.slotNo = rid.slotNo
      · have hsame : r = rid := by
          cases r
          cases rid
          exact congrArg₂ Rid.mk hr hs
        rw [if_pos (by omega), hsame, hrec]
      · have hne : (⟨rid.pageNo, r.slotNo⟩ : Rid) ≠ rid := by
          intro he
          have hslot := congrArg Rid.slotNo he
          exact hs hslot
        rw [if_neg (by omega), Function.update_of_ne hne, ← hr]
    · have hne : r ≠ rid := fun he => hr (congrArg Rid.pageNo he)
      rw [Function.update_of_ne hr, hmid r, hrec₁, Function.update_of_ne hne]
  · rw [hb₂.fileHdr, ← hnum]
  · have hc₁ := hb₁.counter
    have hc₂ := hb₂.counter
    rw [hb₂.fd, hb₁.fd]
    rw [hb₁.fd] at hc₂
    have hdrNum : hdr.numPages = f.fileHdr.numPages := by
      rw [← hnum, hb₁.fileHdr]
    change _ - (f₁.fileHdr.numPages + 1) = _ at hc₂
    omega

theorem rollback_records_oneRecord : ∃ f₁ f₂, deleteRecord ⟨1, 0⟩ oneRecord = .ok () f₁ ∧
    insertRecordAt ⟨1, 0⟩ (fun _ => 7) f₁ = .ok () f₂ ∧ f₂.records = oneRecord.records ∧
    f₂.fileHdr.numPages = oneRecord.fileHdr.numPages + 1 ∧
    f₂.store.fd2pageno f₂.fd = oneRecord.store.fd2pageno oneRecord.fd + 1 :=
  rollback_records ok_oneRecord records_oneRecord

/-- **The rollback insert never undoes a delete.**  In every state of the file and for every record
in it, the insert creates a page that was not there, so `num_pages` is not restored. -/
theorem rollback_never_restores (f : RmFile n) (rid : Rid) (buf : Fin n → UInt8)
    (hr : f.InRange rid) (hrec : f.records rid = some buf) : ¬f.RollbackRestores rid buf := by
  rintro ⟨f₁, f₂, hdel, hins, hres⟩
  obtain ⟨page, hp, -⟩ := RmFile.live_of_records hrec
  obtain ⟨f', hdel', hcase⟩ := deleteRecord_eq_ok hp
  rw [hdel] at hdel'
  obtain ⟨-, rfl⟩ := Result.ok.inj hdel'
  have hnum : f₁.fileHdr.numPages = f.fileHdr.numPages := by
    rcases hcase with ⟨-, hb⟩ | ⟨-, hb⟩
    · rw [hb.fileHdr]
    · rw [hb.fileHdr]
  have hmore : f₂.fileHdr.numPages = f₁.fileHdr.numPages + 1 := by
    refine insertRecordAt_numPages ?_ hins
    rw [hnum]
    exact hr.2.1
  have hsame := hres.numPages
  omega

theorem rollback_never_restores_oneRecord :
    oneRecord.InRange ⟨1, 0⟩ ∧ ¬oneRecord.RollbackRestores ⟨1, 0⟩ fun _ => 7 := by
  have hin : oneRecord.InRange ⟨1, 0⟩ := inRange_first (by decide +kernel) _ rfl
  exact ⟨hin, rollback_never_restores oneRecord ⟨1, 0⟩ _ hin records_oneRecord⟩

/-- **The only record of a fresh file** is deleted and inserted again; the file then has a page
more. -/
theorem not_rollback_restores_only_record :
    Run RidCall.Step freshFile (RidCall.trace freshFile [.insertRecord fun _ => 7]) ∧
      oneRecord.records ⟨1, 0⟩ = (some fun _ => 7) ∧
      ¬oneRecord.RollbackRestores ⟨1, 0⟩ fun _ => 7 := by
  refine ⟨.cons ⟨fun rid hrid => (nomatch hrid), rfl⟩ (.nil _), records_oneRecord, ?_⟩
  rintro ⟨f₁, f₂, hdel, hins, hres⟩
  have hpages : ((insertRecordAt ⟨1, 0⟩ fun _ => 7).after
      ((deleteRecord ⟨1, 0⟩).after oneRecord)).fileHdr.numPages = 3 := by
    decide +kernel
  rw [after_of_ok hdel, after_of_ok hins, hres.numPages] at hpages
  exact absurd hpages (by decide +kernel)

end Rucbase
