import Mathlib.Data.List.Nodup
import Rucbase.Record.Equiv.RecordMap

/-!
# A scan visits the records of the file

The records from a position on, page by page and slot by slot, are `restFrom`.  `RmScan::next`
returns the first of them, the constructor the first of all, so that a scan of a file with a record
visits every record once (`run_eq_ok`).
-/

namespace Rucbase.RmScan

open EStateM RmFileHandle

variable {n : Nat}

/-! ### The slots of a page -/

/-- The slots of a page from `lo` on that hold a record. -/
def slotsFrom (page : RmPage n) (lo : Nat) : List Nat :=
  (List.range' lo (RmFile.perPage n - lo)).filter fun k => Bitmap.isSet page.bitmap k

theorem mem_slotsFrom {page : RmPage n} {lo k : Nat} :
    k ∈ slotsFrom page lo ↔ lo ≤ k ∧ k < RmFile.perPage n ∧ Bitmap.isSet page.bitmap k = true := by
  rw [slotsFrom, List.mem_filter, List.mem_range'_1]
  constructor
  · rintro ⟨h1, h2⟩
    exact ⟨h1.1, by omega, h2⟩
  · rintro ⟨h1, h2, h3⟩
    exact ⟨⟨h1, by omega⟩, h3⟩

theorem pairwise_slotsFrom (page : RmPage n) (lo : Nat) : (slotsFrom page lo).Pairwise (· < ·) :=
  (List.pairwise_lt_range' ..).filter _

theorem slotsFrom_eq_nil {page : RmPage n} {lo : Nat}
    (h : ∀ k, lo ≤ k → k < RmFile.perPage n → Bitmap.isSet page.bitmap k = false) :
    slotsFrom page lo = [] := by
  rw [List.eq_nil_iff_forall_not_mem]
  intro k hk
  obtain ⟨h1, h2, h3⟩ := mem_slotsFrom.mp hk
  rw [h k h1 h2] at h3
  cases h3

/-- The slots from the next record on. -/
theorem slotsFrom_eq_cons {page : RmPage n} {lo r : Nat} (h1 : lo ≤ r) (h2 : r < RmFile.perPage n)
    (hr : Bitmap.isSet page.bitmap r = true)
    (h : ∀ k, lo ≤ k → k < r → Bitmap.isSet page.bitmap k = false) :
    slotsFrom page lo = r :: slotsFrom page (r + 1) := by
  have hsplit : List.range' lo (RmFile.perPage n - lo) =
      List.range' lo (r - lo) ++ r :: List.range' (r + 1) (RmFile.perPage n - (r + 1)) := by
    have hcons : r :: List.range' (r + 1) (RmFile.perPage n - (r + 1)) =
        List.range' r (RmFile.perPage n - r) := by
      rw [show RmFile.perPage n - r = (RmFile.perPage n - (r + 1)) + 1 by omega, List.range'_succ]
    have happ := List.range'_append_1 (s := lo) (m := r - lo) (n := RmFile.perPage n - r)
    rw [show lo + (r - lo) = r by omega] at happ
    rw [hcons, happ]
    congr 1
    omega
  have hnil : (List.range' lo (r - lo)).filter (fun k => Bitmap.isSet page.bitmap k) = [] := by
    rw [List.filter_eq_nil_iff]
    intro k hk
    rw [List.mem_range'_1] at hk
    simp [h k hk.1 (by omega)]
  rw [slotsFrom, hsplit, List.filter_append, hnil, List.nil_append, List.filter_cons_of_pos hr]
  rfl

/-- The first slot is the least. -/
theorem slotsFrom_head {page : RmPage n} {lo r : Nat} {rs : List Nat}
    (hs : slotsFrom page lo = r :: rs) :
    r ∈ slotsFrom page lo ∧ ∀ k, lo ≤ k → k < r → Bitmap.isSet page.bitmap k = false := by
  have hmem : r ∈ slotsFrom page lo := by simp [hs]
  refine ⟨hmem, fun j hj1 hj2 => ?_⟩
  obtain ⟨-, hr, -⟩ := mem_slotsFrom.mp hmem
  by_contra hset
  have hj : j ∈ slotsFrom page lo := mem_slotsFrom.mpr ⟨hj1, by omega, by simpa using hset⟩
  have hsorted := pairwise_slotsFrom page lo
  rw [hs] at hj hsorted
  rcases List.mem_cons.mp hj with rfl | hj
  · omega
  · have := (List.pairwise_cons.mp hsorted).1 j hj
    omega

/-! ### The records of the pages -/

/-- A rid comes before another in the order of pages and slots. -/
def Before (r r' : Rid) : Prop :=
  r.pageNo < r'.pageNo ∨ r.pageNo = r'.pageNo ∧ r.slotNo < r'.slotNo

theorem Before.ne {r r' : Rid} (h : Before r r') : r ≠ r' := by
  rintro rfl
  rcases h with h | ⟨-, h⟩
  · exact lt_irrefl _ h
  · exact lt_irrefl _ h

/-- The records from slot `lo` of page `q` on, in `k` pages. -/
def restFrom (pages : Int → Option (RmPage n)) : Nat → Int → Nat → List Rid
  | 0, _, _ => []
  | k + 1, q, lo =>
    (match pages q with
      | some page => (slotsFrom page lo).map fun s : Nat => (⟨q, (s : Int)⟩ : Rid)
      | none => []) ++ restFrom pages k (q + 1) 0

section Rest

variable {pages : Int → Option (RmPage n)} {k lo : Nat} {q : Int}

theorem pageNo_of_mem_restFrom {rid : Rid} (h : rid ∈ restFrom pages k q lo) :
    q ≤ rid.pageNo ∧ rid.pageNo < q + k := by
  induction k generalizing q lo with
  | zero => cases h
  | succ k ih =>
    rw [restFrom, List.mem_append] at h
    rcases h with h | h
    · split at h
      · obtain ⟨s, -, rfl⟩ := List.mem_map.mp h
        show q ≤ q ∧ q < q + ((k + 1 : Nat) : Int)
        omega
      · cases h
    · have := ih h
      omega

theorem mem_restFrom {rid : Rid} :
    rid ∈ restFrom pages k q 0 ↔ (q ≤ rid.pageNo ∧ rid.pageNo < q + k) ∧
      ((pages rid.pageNo).bind fun page => page.record rid.slotNo).isSome = true := by
  induction k generalizing q with
  | zero =>
    simp only [restFrom, List.not_mem_nil, false_iff, not_and]
    omega
  | succ k ih =>
    rw [restFrom, List.mem_append, ih]
    by_cases hq : rid.pageNo = q
    · -- a record of this page
      have hlater : ¬((q + 1 ≤ rid.pageNo ∧ rid.pageNo < q + 1 + k) ∧
          ((pages rid.pageNo).bind fun page => page.record rid.slotNo).isSome = true) := by
        rintro ⟨⟨h, -⟩, -⟩
        omega
      have hrange : q ≤ rid.pageNo ∧ rid.pageNo < q + ((k + 1 : Nat) : Int) := by omega
      rw [or_iff_left hlater, and_iff_right hrange, hq]
      cases hp : pages q with
      | none => simp
      | some page =>
        simp only [Option.bind_some, List.mem_map, mem_slotsFrom, RmPage.record]
        constructor
        · rintro ⟨s, ⟨-, hs, hset⟩, rfl⟩
          simp [hs, hset]
        · intro h
          split_ifs at h with hcond
          · refine ⟨rid.slotNo.toNat, ⟨Nat.zero_le _, by omega, hcond.2.2⟩, ?_⟩
            rw [Int.toNat_of_nonneg hcond.1, ← hq]
          · cases h
    · have hhere : rid ∉ (match pages q with
          | some page => (slotsFrom page 0).map fun s : Nat => (⟨q, (s : Int)⟩ : Rid)
          | none => []) := by
        split
        · rw [List.mem_map]
          rintro ⟨s, -, rfl⟩
          exact hq rfl
        · exact List.not_mem_nil
      simp only [hhere, false_or]
      have hiff : (q + 1 ≤ rid.pageNo ∧ rid.pageNo < q + 1 + k) ↔
          (q ≤ rid.pageNo ∧ rid.pageNo < q + ((k + 1 : Nat) : Int)) := by omega
      rw [hiff]

/-- The records are in ascending order of page and slot. -/
theorem pairwise_restFrom : (restFrom pages k q lo).Pairwise Before := by
  induction k generalizing q lo with
  | zero => exact List.Pairwise.nil
  | succ k ih =>
    rw [restFrom, List.pairwise_append]
    refine ⟨?_, ih, fun rid h1 rid' h2 => ?_⟩
    · split
      · rw [List.pairwise_map]
        exact (pairwise_slotsFrom _ lo).imp fun hlt => .inr ⟨rfl, Int.ofNat_lt.mpr hlt⟩
      · exact List.Pairwise.nil
    · -- a record of this page, and one of a later page
      have hlater := (pageNo_of_mem_restFrom h2).1
      left
      split at h1
      · obtain ⟨s, -, rfl⟩ := List.mem_map.mp h1
        show q < rid'.pageNo
        omega
      · cases h1

theorem nodup_restFrom : (restFrom pages k q lo).Nodup :=
  pairwise_restFrom.imp Before.ne

/-- What follows the first record. -/
theorem restFrom_tail {rid : Rid} {t : List Rid} (h : restFrom pages k q lo = rid :: t) :
    q ≤ rid.pageNo ∧ 0 ≤ rid.slotNo ∧
      restFrom pages (q + k - rid.pageNo).toNat rid.pageNo (rid.slotNo.toNat + 1) = t := by
  induction k generalizing q lo with
  | zero => cases h
  | succ k ih =>
    have hlater : ∀ {lo'}, restFrom pages k (q + 1) lo' = rid :: t →
        q ≤ rid.pageNo ∧ 0 ≤ rid.slotNo ∧
          restFrom pages (q + ((k + 1 : Nat) : Int) - rid.pageNo).toNat rid.pageNo
            (rid.slotNo.toNat + 1) = t := by
      intro lo' h'
      obtain ⟨h1, h2, h3⟩ := ih h'
      refine ⟨by omega, h2, ?_⟩
      rw [← h3]
      congr 2
      omega
    rw [restFrom] at h
    cases hp : pages q with
    | none =>
      rw [hp] at h
      exact hlater h
    | some page =>
      rw [hp] at h
      simp only at h
      cases hs : slotsFrom page lo with
      | nil =>
        rw [hs] at h
        exact hlater h
      | cons r rs =>
        -- the record is in this page, and the slots after it follow
        obtain ⟨hmem, hlt⟩ := slotsFrom_head hs
        obtain ⟨h1, h2, h3⟩ := mem_slotsFrom.mp hmem
        have hfirst := slotsFrom_eq_cons h1 h2 h3 hlt
        rw [hs] at hfirst
        rw [hs, List.map_cons, List.cons_append, List.cons.injEq] at h
        obtain ⟨rfl, rfl⟩ := h
        have hk : (q + ((k + 1 : Nat) : Int) - q).toNat = k + 1 := by omega
        refine ⟨le_refl _, Int.natCast_nonneg r, ?_⟩
        show restFrom pages (q + ((k + 1 : Nat) : Int) - q).toNat q (((r : Nat) : Int).toNat + 1) = _
        rw [hk, Int.toNat_natCast, restFrom, hp, List.cons.inj hfirst |>.2]

end Rest

/-! ### The two searches -/

theorem findSome?_range_eq_some {β : Type} {g : Nat → Option β} {N r : Nat} {b : β} (hr : r < N)
    (hb : g r = some b) (hlt : ∀ k, k < r → g k = none) : (List.range N).findSome? g = some b := by
  rw [List.findSome?_eq_some_iff]
  refine ⟨List.range r, r, List.range' (r + 1) (N - (r + 1)), ?_, hb, fun k hk => ?_⟩
  · have happ := List.range'_append_1 (s := 0) (m := r) (n := N - r)
    have hcons := @List.range'_succ r (N - (r + 1)) 1
    rw [show N - (r + 1) + 1 = N - r by omega] at hcons
    rw [List.range_eq_range', List.range_eq_range', ← hcons]
    simpa [show r + (N - r) = N by omega] using happ.symm
  · exact hlt k (List.mem_range.mp hk)

/-- The constructor's search in a page finds its first slot with a record. -/
theorem firstStored_eq (page : RmPage n)
    (hpad : ∀ k, RmFile.perPage n ≤ k → (k : Int) < 8 * (((RmFile.perPage n : Int) + 7) / 8) →
      Bitmap.isSet page.bitmap k = false) :
    firstStored page.bitmap (((RmFile.perPage n : Int) + 7) / 8) =
      (slotsFrom page 0).head?.map fun k : Nat => (k : Int) := by
  have hbit : ∀ {byteN bitN : Nat}, bitN < 8 →
      Bitmap.isSet page.bitmap (byteN * 8 + bitN) = false →
      (if isStored page.bitmap byteN bitN then some ((byteN : Int) * 8 + bitN) else none) = none := by
    intro byteN bitN h8 hclear
    rw [Bitmap.isStored_eq _ h8, hclear]
    rfl
  cases hs : slotsFrom page 0 with
  | nil =>
    have hclear : ∀ k : Nat, (k : Int) < 8 * (((RmFile.perPage n : Int) + 7) / 8) →
        Bitmap.isSet page.bitmap k = false := by
      intro k hlast
      by_cases hk : k < RmFile.perPage n
      · by_contra hset
        have hmem : k ∈ slotsFrom page 0 :=
          mem_slotsFrom.mpr ⟨Nat.zero_le k, hk, by simpa using hset⟩
        rw [hs] at hmem
        cases hmem
      · exact hpad k (by omega) hlast
    show firstStored _ _ = none
    rw [firstStored, List.findSome?_eq_none_iff]
    intro byteN hbyteN
    rw [List.findSome?_eq_none_iff]
    intro bitN hbitN
    rw [List.mem_range] at hbyteN hbitN
    exact hbit hbitN (hclear _ (by omega))
  | cons r rs =>
    obtain ⟨hr, hlt⟩ := slotsFrom_head hs
    obtain ⟨-, hper, hset⟩ := mem_slotsFrom.mp hr
    -- the byte and the bit of the position `r`
    have hsplit : r / 8 * 8 + r % 8 = r := by omega
    refine findSome?_range_eq_some (r := r / 8) (by omega) ?_ fun byteN hbyte => ?_
    · refine findSome?_range_eq_some (r := r % 8) (by omega) ?_ fun bitN hbitN => ?_
      · rw [Bitmap.isStored_eq _ (by omega), hsplit, hset]
        show some (((r / 8 : Nat) : Int) * 8 + (r % 8 : Nat)) = some (r : Int)
        congr 1
        omega
      · exact hbit (by omega) (hlt _ (Nat.zero_le _) (by omega))
    · rw [List.findSome?_eq_none_iff]
      intro bitN hbitN
      have h8 := List.mem_range.mp hbitN
      exact hbit h8 (hlt _ (Nat.zero_le _) (by omega))

/-! ### Fetching page after page -/

variable {f f' : RmFile n}

/-- The pages from `q` on, `k` of them, exist. -/
def HasPages (f : RmFile n) (k : Nat) (q : Int) : Prop :=
  ∀ r, q ≤ r → r < q + k → ∃ page, f.pages r = some page

theorem HasPages.succ {k : Nat} {q : Int} (h : HasPages f (k + 1) q)
    (hpages : f'.pages = f.pages) : HasPages f' k (q + 1) := by
  intro r h1 h2
  rw [hpages]
  exact h r (by omega) (by omega)

/-- What a scan relies on: the sizes in the header are those of the record size, the pages can be
fetched, and the padding bits of their bitmaps are clear.  The bitmaps are arbitrary otherwise. -/
structure Scannable (f : RmFile n) : Prop where
  perPage_eq : f.fileHdr.numRecordsPerPage = (RmFile.perPage n : Int)
  bitmapSize_eq : f.fileHdr.bitmapSize = ((RmFile.perPage n : Int) + 7) / 8
  exists_page : ∀ q, 1 ≤ q → q < f.fileHdr.numPages → ∃ page, f.pages q = some page
  padding : ∀ {q page} {k : Nat}, 1 ≤ q → q < f.fileHdr.numPages → f.pages q = some page →
    RmFile.perPage n ≤ k → (k : Int) < 8 * f.fileHdr.bitmapSize →
    Bitmap.isSet page.bitmap k = false

theorem scannable_of_ok (h : f.Ok) : Scannable f where
  perPage_eq := h.pages.perPage_eq
  bitmapSize_eq := h.pages.bitmapSize_eq
  exists_page := fun q h1 h2 => (h.pages.exists_page q).mpr ⟨h1, h2⟩
  padding := fun _ _ hp hk _ => h.pages.padding hp hk

theorem Scannable.of_becomes (h : Scannable f) (hb : f.Becomes f.fileHdr f.pages f') :
    Scannable f' := by
  constructor
  · rw [hb.fileHdr]
    exact h.perPage_eq
  · rw [hb.fileHdr]
    exact h.bitmapSize_eq
  · rw [hb.fileHdr, hb.pages]
    exact h.exists_page
  · rw [hb.fileHdr, hb.pages]
    exact h.padding

theorem Scannable.hasPages (h : Scannable f) {q : Int} (hq : 1 ≤ q) :
    HasPages f (f.fileHdr.numPages - q).toNat q := by
  intro r h1 h2
  exact h.exists_page r (by omega) (by omega)

theorem newFrom_eq_ok (rid₀ : Rid) (h : Scannable f) {k : Nat} {q : Int} (hq : 1 ≤ q)
    (hk : q + k ≤ f.fileHdr.numPages) :
    ∃ f', newFrom rid₀ k q f = .ok ((restFrom f.pages k q 0).headD rid₀) f' ∧
      f.Becomes f.fileHdr f.pages f' := by
  induction k generalizing q f with
  | zero => exact ⟨f, rfl, .refl f⟩
  | succ k ih =>
    have hlt : q < f.fileHdr.numPages := by omega
    obtain ⟨page, hp⟩ := h.exists_page q hq hlt
    obtain ⟨f₁, hfetch, hb⟩ := fetchPageHandle_eq_ok hp
    have hk₁ : q + 1 + k ≤ f₁.fileHdr.numPages := by
      rw [hb.fileHdr]
      omega
    obtain ⟨f₂, hrest, hb'⟩ := ih (h.of_becomes hb) (by omega) hk₁
    have hpad : ∀ j, RmFile.perPage n ≤ j → (j : Int) < 8 * (((RmFile.perPage n : Int) + 7) / 8) →
        Bitmap.isSet page.bitmap j = false := by
      rw [← h.bitmapSize_eq]
      exact fun j => h.padding hq hlt hp
    rw [newFrom, bind_of_ok hfetch, get_bind_apply, hb.fileHdr, h.bitmapSize_eq,
      firstStored_eq page hpad, restFrom, hp]
    cases hs : slotsFrom page 0 with
    | nil =>
      refine ⟨f₂, ?_, ?_⟩
      · simp only [hs, List.map_nil, List.nil_append]
        rw [← hb.pages]
        exact hrest
      · rw [hb.fileHdr, hb.pages] at hb'
        exact hb.trans hb'
    | cons r rs =>
      refine ⟨f₁, ?_, hb⟩
      simp only [hs, List.map_cons, List.cons_append, List.headD_cons]
      rfl

theorem nextFrom_eq_ok (h : Scannable f) {k lo : Nat} {q slotNo : Int} (hlo : slotNo + 1 = lo)
    (hp : HasPages f k q) :
    ∃ f', nextFrom k q slotNo f = .ok ((restFrom f.pages k q lo).headD ⟨-1, -1⟩) f' ∧
      f.Becomes f.fileHdr f.pages f' := by
  induction k generalizing q f lo slotNo with
  | zero => exact ⟨f, rfl, .refl f⟩
  | succ k ih =>
    obtain ⟨page, hq⟩ := hp q (le_refl q) (by omega)
    obtain ⟨f₁, hfetch, hb⟩ := fetchPageHandle_eq_ok hq
    have hzero : (-1 : Int) + 1 = ((0 : Nat) : Int) := rfl
    obtain ⟨f₂, hrest, hb'⟩ := ih (h.of_becomes hb) hzero (hp.succ hb.pages)
    rw [nextFrom, bind_of_ok hfetch, get_bind_apply, hb.fileHdr, h.perPage_eq, restFrom, hq]
    have hnext := Bitmap.isNext_nextBit page.bitmap true (RmFile.perPage n) slotNo
    rw [hlo] at hnext
    rcases hnext with ⟨hnone, hclear⟩ | ⟨h1, h2, hset, hclear⟩
    · -- no record left in this page
      have hnil : slotsFrom page lo = [] := by
        refine slotsFrom_eq_nil fun j hj1 hj2 => ?_
        simpa using hclear j (by omega) (by omega)
      refine ⟨f₂, ?_, ?_⟩
      · simp only [hnone, if_true, hnil, List.map_nil, List.nil_append]
        rw [← hb.pages]
        exact hrest
      · rw [hb.fileHdr, hb.pages] at hb'
        exact hb.trans hb'
    · obtain ⟨r, hr⟩ := Int.eq_ofNat_of_zero_le (show 0 ≤ Bitmap.nextBit true page.bitmap
        (RmFile.perPage n) slotNo by omega)
      rw [hr] at h1 h2 hset hclear ⊢
      have hcons := slotsFrom_eq_cons (show lo ≤ r by omega) (by omega) hset
        fun j hj1 hj2 => by simpa using hclear j (by omega) (by omega)
      refine ⟨f₁, ?_, hb⟩
      simp only [hcons, List.map_cons, List.cons_append, List.headD_cons]
      rw [if_neg (by omega)]
      rfl

/-! ### The scan -/

/-- The records of the file in scan order. -/
def records (f : RmFile n) : List Rid :=
  restFrom f.pages (f.fileHdr.numPages - rmFirstRecordPage).toNat rmFirstRecordPage 0

theorem mem_records (h : f.Ok) (rid : Rid) : rid ∈ records f ↔ (f.records rid).isSome = true := by
  have hpos := h.pages.numPages_pos
  rw [records, mem_restFrom]
  refine and_iff_right_of_imp fun hsome => ?_
  obtain ⟨r, hr⟩ := Option.isSome_iff_exists.mp hsome
  obtain ⟨page, hp, -⟩ := RmFile.live_of_records hr
  have hrange := h.pages.range hp
  have hfirst : rmFirstRecordPage = 1 := rfl
  omega

/-- The loop of a client visits what is left, if it runs long enough. -/
theorem collect_eq_ok (h : Scannable f) {q : Int} (hq : 1 ≤ q) {lo : Nat} {rest : List Rid}
    (hrest : restFrom f.pages (f.fileHdr.numPages - q).toNat q lo = rest) (fuel : Nat) :
    ∃ f', collect fuel (rest.headD ⟨-1, -1⟩) f =
        .ok (if rest.length < fuel then some rest else none) f' ∧
      f.Becomes f.fileHdr f.pages f' := by
  induction fuel generalizing f q lo rest with
  | zero => exact ⟨f, rfl, .refl f⟩
  | succ fuel ih =>
    cases rest with
    | nil => exact ⟨f, rfl, .refl f⟩
    | cons rid t =>
      obtain ⟨h1, h2, htail⟩ := restFrom_tail hrest
      have hpage : 1 ≤ rid.pageNo := by omega
      have hlt := (pageNo_of_mem_restFrom (hrest ▸ List.mem_cons_self : rid ∈ restFrom _ _ _ _)).2
      rw [show (q + ((f.fileHdr.numPages - q).toNat : Int) - rid.pageNo).toNat =
        (f.fileHdr.numPages - rid.pageNo).toNat by omega] at htail
      have hslot : rid.slotNo + 1 = ((rid.slotNo.toNat + 1 : Nat) : Int) := by omega
      -- one step of the scan leads from the head of the rest to its tail
      obtain ⟨f₁, hnext, hb⟩ := nextFrom_eq_ok h hslot (h.hasPages hpage)
      rw [htail] at hnext
      have htail' : restFrom f₁.pages (f₁.fileHdr.numPages - rid.pageNo).toNat rid.pageNo
          (rid.slotNo.toNat + 1) = t := by
        rw [hb.pages, hb.fileHdr, htail]
      obtain ⟨f₂, hcollect, hb'⟩ := ih (h.of_becomes hb) hpage htail'
      have hend : isEnd rid = false := by
        have : rid.pageNo ≠ rmNoPage := by
          have hno : rmNoPage = -1 := rfl
          omega
        simpa [isEnd] using this
      refine ⟨f₂, ?_, ?_⟩
      · show collect (fuel + 1) rid f = _
        rw [collect, hend, if_neg (by decide), bind_of_ok (show next rid f = _ from hnext),
          bind_of_ok hcollect, pure_apply, List.length_cons]
        by_cases hfuel : t.length < fuel
        · rw [if_pos hfuel, if_pos (by omega)]
          rfl
        · rw [if_neg hfuel, if_neg (by omega)]
          rfl
      · rw [hb.fileHdr, hb.pages] at hb'
        exact hb.trans hb'

/-- **A scan** of a file with a record, or one whose `rid_` happens to start at the end, visits
every record once and stops. -/
theorem run_eq_ok (h : Scannable f) (rid₀ : Rid)
    (hstart : (∃ rid, rid ∈ records f) ∨ rid₀.pageNo = rmNoPage) (fuel : Nat) :
    ∃ f', run rid₀ fuel f = .ok (if (records f).length < fuel then some (records f) else none) f' ∧
      f.Becomes f.fileHdr f.pages f' := by
  have hnew' : ∃ f₁, new rid₀ f = .ok ((records f).headD rid₀) f₁ ∧
      f.Becomes f.fileHdr f.pages f₁ := by
    by_cases hpos : rmFirstRecordPage ≤ f.fileHdr.numPages
    · exact newFrom_eq_ok rid₀ h (le_refl rmFirstRecordPage) (by omega)
    · -- there is no page to look at
      have hnone : (f.fileHdr.numPages - rmFirstRecordPage).toNat = 0 := by omega
      rw [records, hnone]
      refine ⟨f, ?_, .refl f⟩
      rw [new, get_bind_apply, hnone]
      rfl
  obtain ⟨f₁, hnew, hb⟩ := hnew'
  have hrec : restFrom f₁.pages (f₁.fileHdr.numPages - rmFirstRecordPage).toNat
      rmFirstRecordPage 0 = records f := by
    rw [hb.pages, hb.fileHdr]
    rfl
  obtain ⟨f₂, hcollect, hb'⟩ := collect_eq_ok (h.of_becomes hb) (le_refl rmFirstRecordPage) hrec fuel
  have hboth : f.Becomes f.fileHdr f.pages f₂ := by
    rw [hb.fileHdr, hb.pages] at hb'
    exact hb.trans hb'
  rw [run, bind_of_ok hnew]
  cases hr : records f with
  | cons rid t =>
    rw [hr] at hcollect
    exact ⟨f₂, hcollect, hboth⟩
  | nil =>
    -- nothing was found, so `rid_` is what it was
    have hend : rid₀.pageNo = rmNoPage := by
      rcases hstart with ⟨rid, hmem⟩ | hend
      · rw [hr] at hmem
        cases hmem
      · exact hend
    cases fuel with
    | zero => exact ⟨f₁, rfl, hb⟩
    | succ fuel =>
      refine ⟨f₁, ?_, hb⟩
      show collect (fuel + 1) rid₀ f₁ = _
      rw [collect, if_pos (by simpa [isEnd] using hend)]
      rfl

theorem nodup_records (f : RmFile n) : (records f).Nodup := nodup_restFrom

/-- A slot of the file whose bit is set. -/
def SlotSet (f : RmFile n) (rid : Rid) : Prop :=
  1 ≤ rid.pageNo ∧ rid.pageNo < f.fileHdr.numPages ∧
    0 ≤ rid.slotNo ∧ rid.slotNo < f.fileHdr.numRecordsPerPage ∧
    ∃ page, f.pages rid.pageNo = some page ∧ Bitmap.isSet page.bitmap rid.slotNo.toNat = true

theorem Scannable.mem_records (h : Scannable f) (rid : Rid) : rid ∈ records f ↔ SlotSet f rid := by
  have hfirst : rmFirstRecordPage = 1 := rfl
  rw [records, mem_restFrom, SlotSet, h.perPage_eq]
  constructor
  · rintro ⟨hrange, hsome⟩
    obtain ⟨r, hr⟩ := Option.isSome_iff_exists.mp hsome
    obtain ⟨page, hp, hr⟩ := Option.bind_eq_some_iff.mp hr
    rw [RmPage.record] at hr
    split_ifs at hr with hcond
    exact ⟨by omega, by omega, hcond.1, hcond.2.1, page, hp, hcond.2.2⟩
  · rintro ⟨h1, h2, h3, h4, page, hp, hset⟩
    refine ⟨by omega, ?_⟩
    rw [hp, Option.bind_some, RmPage.record, if_pos ⟨h3, h4, hset⟩]
    rfl

/-- **A scan over arbitrary bitmaps** with a bit set and clear padding: from construction to
`is_end` it visits the slots whose bit is set, each once and in ascending order.  The constructor's
test of a bit is `Bitmap::is_set`, for a signed and for an unsigned `char` too. -/
theorem scan_visits_set_bits (h : Scannable f) (hset : ∃ rid, SlotSet f rid) (rid₀ : Rid) :
    (∃ visited : List Rid, (∀ rid, rid ∈ visited ↔ SlotSet f rid) ∧ visited.Pairwise Before ∧
      ∀ fuel, visited.length < fuel →
        ∃ f', run rid₀ fuel f = .ok (some visited) f' ∧ f'.pages = f.pages) ∧
    (∀ (bm : Nat → UInt8) (byteN bitN : Nat), bitN < 8 →
      isStored bm byteN bitN = Bitmap.isSet bm (byteN * 8 + bitN)) ∧
    ∀ (signed : Bool) (bm : Nat → BitVec 8) (byteN bitN : Nat), bitN < 8 →
      isStoredChar signed bm byteN bitN = CharBitmap.isSet signed bm (byteN * 8 + bitN) := by
  refine ⟨?_, fun bm byteN bitN hbit => Bitmap.isStored_eq bm hbit byteN,
    fun signed bm byteN bitN hbit => CharBitmap.isStoredChar_eq signed bm hbit byteN⟩
  obtain ⟨rid, hrid⟩ := hset
  have hstart : ∃ rid, rid ∈ records f := ⟨rid, (h.mem_records rid).mpr hrid⟩
  refine ⟨records f, h.mem_records, pairwise_restFrom, fun fuel hfuel => ?_⟩
  obtain ⟨f', hrun, hb⟩ := run_eq_ok h rid₀ (.inl hstart) fuel
  rw [if_pos hfuel] at hrun
  exact ⟨f', hrun, hb.pages⟩

/-- A file of 512-byte records whose first page is empty and whose second holds the slots 1 and 6. -/
def gapFile : RmFile 512 where
  fd := 3
  fileHdr := { RmFileHdr.init 512 with numPages := 3 }
  diskHdr := .init 512
  store :=
    { pool := fun p =>
        if p = ⟨3, 1⟩ then some (.zero 512)
        else if p = ⟨3, 2⟩ then some { RmPage.zero 512 with bitmap := fun _ => 0x42, numRecords := 2 }
        else none
      pinCount := fun _ => 0
      disk := fun _ => none
      fd2pageno := fun _ => 3 }

theorem scannable_gapFile : Scannable gapFile where
  perPage_eq := by decide
  bitmapSize_eq := by decide
  exists_page := by
    intro q h1 h2
    change q < 3 at h2
    obtain rfl | rfl : q = 1 ∨ q = 2 := by omega
    · exact ⟨_, rfl⟩
    · exact ⟨_, rfl⟩
  padding := by
    intro q page k h1 h2 hp h3 h4
    change q < 3 at h2
    change 7 ≤ k at h3
    change (k : Int) < 8 * 1 at h4
    obtain rfl : k = 7 := by omega
    obtain rfl | rfl : q = 1 ∨ q = 2 := by omega
    · cases hp
      decide
    · cases hp
      decide

theorem scan_visits_gapFile : (∃ rid, SlotSet gapFile rid) ∧
    ∃ visited : List Rid, (∀ rid, rid ∈ visited ↔ SlotSet gapFile rid) ∧ visited.Pairwise Before ∧
      ∀ fuel, visited.length < fuel →
        ∃ f', run ⟨0, 0⟩ fuel gapFile = .ok (some visited) f' ∧ f'.pages = gapFile.pages := by
  have hset : ∃ rid, SlotSet gapFile rid :=
    ⟨⟨2, 6⟩, by decide, by decide, by decide, by decide, _, rfl, by decide⟩
  exact ⟨hset, (scan_visits_set_bits scannable_gapFile hset ⟨0, 0⟩).1⟩

end Rucbase.RmScan
