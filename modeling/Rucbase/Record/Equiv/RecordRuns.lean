import Rucbase.Lib.Run
import Rucbase.Record.Equiv.RmScan

/-!
# Record files over whole runs

A session is a record file together with the map that its clients have built: the rids that
`insert_record` returned with the bytes last stored there.  In a run that never inserts into a full
first free page, scans an empty file only from `RM_NO_PAGE`, and reopens only under a descriptor
without foreign pages, the file behaves as the map (`sessions_behave_as_map`).
-/

namespace Rucbase

open EStateM RmFileHandle

variable {n : Nat}

/-! ### Reopening -/

namespace RmFile

variable {f : RmFile n} {fd : Int}

/-- What the pool holds under the descriptor are the pages of the file. -/
def OwnPages (f : RmFile n) (fd : Int) : Prop :=
  ∀ q page, f.store.pool ⟨fd, q⟩ = some page → f.pages q = some page

/-- The file after `close_file` and `open_file`. -/
def reopened (f : RmFile n) (fd : Int) : RmFile n := (reopen fd).after f

theorem ownPages_fd (f : RmFile n) : f.OwnPages f.fd := fun _ _ h => PageStore.view_of_pool h

theorem Ok.pages_reopened (h : f.Ok) (hown : f.OwnPages fd) : (f.reopened fd).pages = f.pages := by
  funext q
  cases hpool : f.store.pool ⟨fd, q⟩ with
  | some page =>
    rw [hown q page hpool]
    exact PageStore.view_of_pool hpool
  | none =>
    have hdisk : (f.reopened fd).pages q = (f.store.flushAllPages f.fd).disk q := by
      show PageStore.view _ _ = _
      unfold PageStore.view
      rw [show (f.reopened fd).store.pool ⟨(f.reopened fd).fd, q⟩ = none from hpool]
      rfl
    rw [hdisk]
    by_cases hq : q = invalidPageId
    · -- there is no such page, and it is not flushed
      have hnone : f.pages q = none := by
        by_contra hsome
        obtain ⟨page, hp⟩ := Option.ne_none_iff_exists'.mp hsome
        have hrange := (h.pages.range hp).1
        rw [hq] at hrange
        exact absurd hrange (by decide)
      rw [hnone]
      exact PageStore.disk_flushAllPages_of_view_none hnone
    · exact PageStore.disk_flushAllPages f.store f.fd hq

theorem Ok.reopened (h : f.Ok) (hown : f.OwnPages fd) :
    (f.reopened fd).Ok ∧ (f.reopened fd).records = f.records := by
  have hpages := h.pages_reopened hown
  have hcounter : (f.reopened fd).store.fd2pageno (f.reopened fd).fd =
      (f.reopened fd).fileHdr.numPages := by
    show Function.update f.store.fd2pageno fd f.fileHdr.numPages fd = f.fileHdr.numPages
    rw [Function.update_self]
  refine ⟨⟨?_, ?_, fun {q page} hp hne => ?_⟩, ?_⟩
  · exact
      { h.pages with
        counter := hcounter
        exists_page := fun q => by rw [hpages]; exact h.pages.exists_page q
        count := fun hp => h.pages.count (hpages ▸ hp)
        padding := fun hp => h.pages.padding (hpages ▸ hp) }
  · rw [LinkTarget, hpages]
    exact h.links.first
  · rw [LinkTarget, hpages]
    exact h.links.next (hpages ▸ hp) hne
  · funext rid
    rw [records, hpages]
    rfl

end RmFile

/-! ### Sessions -/

/-- A record file and the map its clients have built. -/
structure RmSession (n : Nat) where
  file : RmFile n
  map : Rid → Option (Fin n → UInt8)

/-- The calls of a client. -/
inductive RmCall (n : Nat) where
  | insertRecord (buf : Fin n → UInt8)
  | deleteRecord (rid : Rid)
  | updateRecord (rid : Rid) (buf : Fin n → UInt8)
  | isRecord (rid : Rid)
  | getRecord (rid : Rid)
  /-- A scan of `fuel` rounds at most, whose `rid_` is uninitialised memory `rid₀`. -/
  | scan (rid₀ : Rid) (fuel : Nat)
  /-- `close_file` and `open_file`, where `open` returns `fd`. -/
  | reopen (fd : Int)

namespace RmSession

/-- A rid in the range of the file. -/
def InRange (s : RmSession n) (rid : Rid) : Prop :=
  1 ≤ rid.pageNo ∧ rid.pageNo < s.file.fileHdr.numPages ∧
    0 ≤ rid.slotNo ∧ rid.slotNo < s.file.fileHdr.numRecordsPerPage

/-- The session after a call, which may have thrown. -/
def call (s : RmSession n) : RmCall n → RmSession n
  | .insertRecord buf =>
    match insertRecord buf s.file with
    | .ok rid f => ⟨f, Function.update s.map rid (some buf)⟩
    | .error _ f => ⟨f, s.map⟩
  | .deleteRecord rid => ⟨(deleteRecord rid).after s.file, Function.update s.map rid none⟩
  | .updateRecord rid buf =>
    ⟨(updateRecord rid buf).after s.file, Function.update s.map rid (some buf)⟩
  | .isRecord rid => ⟨(isRecord rid).after s.file, s.map⟩
  | .getRecord rid => ⟨(getRecord rid).after s.file, s.map⟩
  | .scan rid₀ fuel => ⟨(RmScan.run rid₀ fuel).after s.file, s.map⟩
  | .reopen fd => ⟨s.file.reopened fd, s.map⟩

/-- The clients delete and update live rids only, and ask for rids in range. -/
def Legal (s : RmSession n) : RmCall n → Prop
  | .deleteRecord rid => s.map rid ≠ none
  | .updateRecord rid _ => s.map rid ≠ none
  | .isRecord rid => s.InRange rid
  | .getRecord rid => s.InRange rid
  | _ => True

/-- The transitions of a session. -/
def Step (s : RmSession n) (c : RmCall n) (s' : RmSession n) : Prop := s.Legal c ∧ s' = s.call c

/-- The call behaves as on a map. -/
def Behaves (s : RmSession n) : RmCall n → Prop
  | .insertRecord buf =>
    ∃ rid f', insertRecord buf s.file = .ok rid f' ∧ s.map rid = none ∧
      (s.call (.insertRecord buf)).InRange rid
  | .deleteRecord rid => ∃ f', deleteRecord rid s.file = .ok () f'
  | .updateRecord rid buf => ∃ f', updateRecord rid buf s.file = .ok () f'
  | .isRecord rid => ∃ f', isRecord rid s.file = .ok (s.map rid).isSome f'
  | .getRecord rid => ∃ r f', s.map rid = some r ∧ getRecord rid s.file = .ok r f'
  | .scan rid₀ _ =>
    ∃ l : List Rid, l.Nodup ∧ (∀ rid, rid ∈ l ↔ (s.map rid).isSome = true) ∧
      ∀ fuel, l.length < fuel → ∃ f', RmScan.run rid₀ fuel s.file = .ok (some l) f'
  | .reopen _ => True

/-- In this state every read reports the map. -/
structure Agrees (s : RmSession n) : Prop where
  isRecord : ∀ rid, s.InRange rid → s.Behaves (.isRecord rid)
  getRecord : ∀ rid, s.map rid ≠ none → s.InRange rid ∧ s.Behaves (.getRecord rid)

/-- The condition on a call. -/
def Condition (s : RmSession n) : RmCall n → Prop
  | .insertRecord _ => s.file.HasRoom
  | .getRecord rid => s.map rid ≠ none
  | .scan rid₀ _ => (∃ rid, s.map rid ≠ none) ∨ rid₀.pageNo = rmNoPage
  | .reopen fd => s.file.OwnPages fd
  | _ => True

/-! ### Runs -/

/-- The file is in order and its records are the map. -/
structure Inv (s : RmSession n) : Prop where
  ok : s.file.Ok
  map : s.file.records = s.map

variable {s : RmSession n}

/-- A read leaves the session in order. -/
theorem Inv.of_becomes (h : s.Inv) {f' : RmFile n}
    (hb : s.file.Becomes s.file.fileHdr s.file.pages f') : Inv ⟨f', s.map⟩ :=
  ⟨h.ok.of_becomes hb, (RmFile.records_of_becomes hb).trans h.map⟩

theorem Inv.inRange_of_live (h : s.Inv) {rid : Rid} (hlive : s.map rid ≠ none) : s.InRange rid := by
  obtain ⟨r, hr⟩ := Option.ne_none_iff_exists'.mp hlive
  rw [← h.map] at hr
  obtain ⟨page, hp, h0, hlt, -⟩ := RmFile.live_of_records hr
  have hrange := h.ok.pages.range hp
  have hper := h.ok.pages.perPage_eq
  exact ⟨hrange.1, hrange.2, h0, by omega⟩

theorem Inv.isRecord (h : s.Inv) {rid : Rid} (hr : s.InRange rid) :
    s.Behaves (.isRecord rid) ∧ (s.call (.isRecord rid)).Inv := by
  obtain ⟨f', hf, hb⟩ := h.ok.isRecord hr.1 hr.2.1 hr.2.2.1 hr.2.2.2
  rw [h.map] at hf
  refine ⟨⟨f', hf⟩, ?_⟩
  rw [call, after_of_ok hf]
  exact h.of_becomes hb

theorem Inv.getRecord (h : s.Inv) {rid : Rid} (hlive : s.map rid ≠ none) :
    s.Behaves (.getRecord rid) ∧ (s.call (.getRecord rid)).Inv := by
  obtain ⟨r, hr⟩ := Option.ne_none_iff_exists'.mp hlive
  rw [← h.map] at hr
  obtain ⟨f', hf, hb⟩ := RmFile.Ok.getRecord hr
  rw [h.map] at hr
  refine ⟨⟨r, f', hr, hf⟩, ?_⟩
  rw [call, after_of_ok hf]
  exact h.of_becomes hb

theorem Inv.agrees (h : s.Inv) : s.Agrees where
  isRecord _ hr := (h.isRecord hr).1
  getRecord _ hlive := ⟨h.inRange_of_live hlive, (h.getRecord hlive).1⟩

theorem Inv.insertRecord (h : s.Inv) (hroom : s.file.HasRoom) (buf : Fin n → UInt8) :
    s.Behaves (.insertRecord buf) ∧ (s.call (.insertRecord buf)).Inv := by
  obtain ⟨rid, f', hins, hok, hfree, hrec, hrange⟩ := h.ok.insertRecord hroom buf
  have hcall : s.call (.insertRecord buf) = ⟨f', Function.update s.map rid (some buf)⟩ := by
    rw [call, hins]
  rw [h.map] at hfree hrec
  refine ⟨⟨rid, f', hins, hfree, ?_⟩, ?_⟩
  · rw [hcall]
    exact hrange
  · rw [hcall]
    exact ⟨hok, hrec⟩

theorem Inv.deleteRecord (h : s.Inv) {rid : Rid} (hlive : s.map rid ≠ none) :
    s.Behaves (.deleteRecord rid) ∧ (s.call (.deleteRecord rid)).Inv := by
  rw [← h.map] at hlive
  obtain ⟨f', hdel, hok, hrec⟩ := h.ok.deleteRecord hlive
  rw [h.map] at hrec
  refine ⟨⟨f', hdel⟩, ?_⟩
  rw [call, after_of_ok hdel]
  exact ⟨hok, hrec⟩

theorem Inv.updateRecord (h : s.Inv) {rid : Rid} (hlive : s.map rid ≠ none)
    (buf : Fin n → UInt8) :
    s.Behaves (.updateRecord rid buf) ∧ (s.call (.updateRecord rid buf)).Inv := by
  rw [← h.map] at hlive
  obtain ⟨f', hupd, hok, hrec⟩ := h.ok.updateRecord hlive buf
  rw [h.map] at hrec
  refine ⟨⟨f', hupd⟩, ?_⟩
  rw [call, after_of_ok hupd]
  exact ⟨hok, hrec⟩

theorem Inv.scan (h : s.Inv) {rid₀ : Rid}
    (hstart : (∃ rid, s.map rid ≠ none) ∨ rid₀.pageNo = rmNoPage) (fuel : Nat) :
    s.Behaves (.scan rid₀ fuel) ∧ (s.call (.scan rid₀ fuel)).Inv := by
  have hrun := RmScan.run_eq_ok (RmScan.scannable_of_ok h.ok) rid₀ <| hstart.imp_left
    fun ⟨rid, hlive⟩ => ⟨rid, (RmScan.mem_records h.ok rid).mpr <| by
      rwa [h.map, Option.isSome_iff_ne_none]⟩
  refine ⟨⟨RmScan.records s.file, RmScan.nodup_records _, fun rid => ?_, fun k hk => ?_⟩, ?_⟩
  · rw [RmScan.mem_records h.ok, h.map]
  · obtain ⟨f', hf, -⟩ := hrun k
    rw [if_pos hk] at hf
    exact ⟨f', hf⟩
  · obtain ⟨f', hf, hb⟩ := hrun fuel
    rw [call, after_of_ok hf]
    exact h.of_becomes hb

/-- **A call that meets the condition** behaves as on a map, and leaves the session in order. -/
theorem Inv.call (h : s.Inv) {c : RmCall n} (hlegal : s.Legal c) (hc : s.Condition c) :
    s.Behaves c ∧ (s.call c).Inv := by
  cases c with
  | insertRecord buf => exact h.insertRecord hc buf
  | deleteRecord rid => exact h.deleteRecord hlegal
  | updateRecord rid buf => exact h.updateRecord hlegal buf
  | isRecord rid => exact h.isRecord hlegal
  | getRecord rid => exact h.getRecord hc
  | scan rid₀ fuel => exact h.scan hc fuel
  | reopen fd =>
    obtain ⟨hok, hrec⟩ := h.ok.reopened hc
    exact ⟨trivial, hok, hrec.trans h.map⟩

/-- A session of a created file. -/
def start (n : Nat) (fd : Int) (pool : PageId → Option (RmPage n)) (pinCount : PageId → Nat)
    (fd2pageno : Int → Int) : RmSession n :=
  ⟨.create n fd pool pinCount fd2pageno, fun _ => none⟩

theorem inv_start (h1 : 1 ≤ n) (h2 : n ≤ 512) (fd : Int) (pool : PageId → Option (RmPage n))
    (pinCount : PageId → Nat) (fd2pageno : Int → Int) (hpool : ∀ q, pool ⟨fd, q⟩ = none) :
    (start n fd pool pinCount fd2pageno).Inv := by
  refine ⟨RmFile.ok_create h1 h2 fd pool pinCount fd2pageno hpool, ?_⟩
  funext rid
  have hnone : (start n fd pool pinCount fd2pageno).file.pages rid.pageNo = none := by
    show PageStore.view _ _ = none
    simp [PageStore.view, start, RmFile.create, hpool]
  rw [RmFile.records, hnone]
  rfl

end RmSession

open RmSession

/-- **A record file behaves as a map.**  In a run of legal calls from a created file, if every call
meets `Condition` in the state before it, every call behaves as on the map of the session, and in
every state reached the reads report it. -/
theorem sessions_behave_as_map (h1 : 1 ≤ n) (h2 : n ≤ 512) (fd : Int)
    (pool : PageId → Option (RmPage n)) (pinCount : PageId → Nat) (fd2pageno : Int → Int)
    (hpool : ∀ q, pool ⟨fd, q⟩ = none) (run : List (RmCall n × RmSession n))
    (hrun : Run RmSession.Step (start n fd pool pinCount fd2pageno) run)
    (hcond : Along (fun s c _ => s.Condition c) (start n fd pool pinCount fd2pageno) run) :
    Along (fun s c _ => s.Behaves c) (start n fd pool pinCount fd2pageno) run ∧
      ∀ e ∈ run, e.2.Agrees := by
  have hstep : ∀ (s : RmSession n) c s', s.Inv → s.Step c s' → s.Condition c →
      s'.Inv ∧ s.Behaves c := by
    rintro s c s' h ⟨hlegal, rfl⟩ hc
    exact (h.call hlegal hc).symm
  obtain ⟨hall, hbehaves⟩ := hrun.along_of_invariant (C := fun s c _ => s.Condition c)
    (Q := fun s c _ => s.Behaves c) hstep (inv_start h1 h2 fd pool pinCount fd2pageno hpool) hcond
  exact ⟨hbehaves, fun e he => (hall e he).agrees⟩

/-- The run of a list of calls. -/
def RmSession.trace (s : RmSession n) : List (RmCall n) → List (RmCall n × RmSession n)
  | [] => []
  | c :: l => (c, s.call c) :: (s.call c).trace l

/-- A record is stored, deleted and stored again, and the file reopened. -/
theorem sessions_behave_as_map_reopen :
    Along (fun s c _ => s.Behaves c) (start 4 3 (fun _ => none) (fun _ => 0) fun _ => 0)
      ((start 4 3 (fun _ => none) (fun _ => 0) fun _ => 0).trace
        [.insertRecord fun _ => 7, .deleteRecord ⟨1, 0⟩, .insertRecord fun _ => 8, .reopen 3,
          .scan ⟨5, 5⟩ 2]) := by
  have hroom : ∀ {f : RmFile 4}, ((f.pages f.fileHdr.firstFreePageNo).all fun page =>
      decide (page.numRecords < f.fileHdr.numRecordsPerPage)) = true → f.HasRoom := by
    intro f h page hp
    rw [hp] at h
    simpa using h
  refine (sessions_behave_as_map (by decide) (by decide) 3 (fun _ => none) (fun _ => 0)
    (fun _ => 0) (fun _ => rfl) _ ?_ ?_).1
  · refine .cons ⟨trivial, rfl⟩ (.cons ⟨?_, rfl⟩ (.cons ⟨trivial, rfl⟩ (.cons ⟨trivial, rfl⟩
      (.cons ⟨trivial, rfl⟩ (.nil _)))))
    exact Option.isSome_iff_ne_none.mp (by decide +kernel)
  · refine ⟨hroom (by decide +kernel), trivial, hroom (by decide +kernel), ?_, Or.inl ⟨⟨1, 0⟩, ?_⟩,
      trivial⟩
    · exact RmFile.ownPages_fd _
    · exact Option.isSome_iff_ne_none.mp (by decide +kernel)

/-- In a run along which all calls behave as on a map, so does the last. -/
theorem RmSession.behaves_last {s : RmSession n} {l : List (RmCall n)} {c : RmCall n}
    (h : Along (fun s c _ => s.Behaves c) s (s.trace (l ++ [c]))) :
    (l.foldl RmSession.call s).Behaves c := by
  induction l generalizing s with
  | nil => exact h.1
  | cons d l ih => exact ih h.2

/-- A page is emptied twice and then filled to its last slot. -/
def refill : List (RmCall 512) :=
  [.insertRecord fun _ => 7, .deleteRecord ⟨1, 0⟩, .insertRecord fun _ => 7, .deleteRecord ⟨1, 0⟩] ++
    List.replicate 7 (.insertRecord fun _ => 7)

/-- **A page that was released twice is linked to itself**, so it stays the first free page when it
is full, and the next record goes to the slot after its last. -/
theorem not_behave_as_map_refill :
    Run RmSession.Step (start 512 3 (fun _ => none) (fun _ => 0) fun _ => 0)
        ((start 512 3 (fun _ => none) (fun _ => 0) fun _ => 0).trace
          (refill ++ [.insertRecord fun _ => 7])) ∧
      ¬Along (fun s c _ => s.Behaves c) (start 512 3 (fun _ => none) (fun _ => 0) fun _ => 0)
        ((start 512 3 (fun _ => none) (fun _ => 0) fun _ => 0).trace
          (refill ++ [.insertRecord fun _ => 7])) := by
  constructor
  · refine .cons ⟨trivial, rfl⟩ (.cons ⟨?_, rfl⟩ (.cons ⟨trivial, rfl⟩ (.cons ⟨?_, rfl⟩ ?_)))
    · exact Option.isSome_iff_ne_none.mp (by decide +kernel)
    · exact Option.isSome_iff_ne_none.mp (by decide +kernel)
    · exact .cons ⟨trivial, rfl⟩ (.cons ⟨trivial, rfl⟩ (.cons ⟨trivial, rfl⟩ (.cons ⟨trivial, rfl⟩
        (.cons ⟨trivial, rfl⟩ (.cons ⟨trivial, rfl⟩ (.cons ⟨trivial, rfl⟩ (.cons ⟨trivial, rfl⟩
          (.nil _))))))))
  · intro hall
    obtain ⟨rid, f', hins, -, -, -, -, hslot⟩ := RmSession.behaves_last hall
    have hvalue : (insertRecord fun _ => 7).value (refill.foldl RmSession.call
        (start 512 3 (fun _ => none) (fun _ => 0) fun _ => 0)).file = some ⟨1, 7⟩ := by
      decide +kernel
    have hper : ((refill.foldl RmSession.call
        (start 512 3 (fun _ => none) (fun _ => 0) fun _ => 0)).call
        (.insertRecord fun _ => 7)).file.fileHdr.numRecordsPerPage = 7 := by
      decide +kernel
    -- slot 7 of a page with seven slots
    rw [value, hins, Option.some.injEq] at hvalue
    rw [hper, hvalue] at hslot
    exact absurd hslot (by decide)

end Rucbase
