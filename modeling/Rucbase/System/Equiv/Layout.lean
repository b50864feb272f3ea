import Mathlib.Algebra.Order.BigOperators.Group.List
import Rucbase.Lib.Intervals
import Rucbase.Record.Equiv.Durability
import Rucbase.System.Equiv.SmManager

/-!
# The layout of a table

`create_table` puts the columns of a table one after another and adds up their lengths in an `int`.
Only the final sum is checked, against the largest record size, and names are not checked at all.
The columns are distinct, disjoint parts of the record exactly if the names are distinct, no length
is negative and the lengths add up to no more than that size (`createTable_laidOut_iff`): otherwise
the checked sum is one that negative lengths or an overflow have brought back into range.
-/

namespace Rucbase

open EStateM Intervals Std

/-- The bytes of a record that belong to a column. -/
def ColMeta.range (col : ColMeta) : Set Int :=
  Set.Ico col.offset.toInt (col.offset.toInt + col.len.toInt)

/-- The columns of a table lie in a record of the size, apart from each other and under different
names, and offsets and size are the sums of the lengths. -/
structure TabMeta.LaidOut (tab : TabMeta) (recordSize : Int) : Prop where
  inside : ∀ col ∈ tab.cols, col.range ⊆ Set.Ico 0 recordSize
  disjoint : tab.cols.Pairwise fun col col' => Disjoint col.range col'.range
  names : (tab.cols.map (·.name)).Nodup
  offset : ∀ i col, tab.cols[i]? = some col →
    col.offset.toInt = ((tab.cols.take i).map (·.len.toInt)).sum
  size : recordSize = (tab.cols.map (·.len.toInt)).sum

namespace SmManager

/-- The `record_size` that `create_table` hands to `create_file`. -/
def recordSize (tabName : String) (colDefs : List ColDef) : Int32 :=
  (makeCols tabName colDefs 0).2

/-- The header of the file of a table, as it is on disk. -/
def fileHdr (s : SmManager) (tabName : String) : Option RmFileHdr :=
  (s.pool.diskManager.os.dir.find tabName).bind fun i =>
    ((s.pool.diskManager.os.file i).read 0 RmFileHdr.size).map RmFileHdr.ofBytes

/-! ### Adding up the lengths -/

section Cols

variable (tabName : String)

theorem map_name_makeCols (colDefs : List ColDef) (currOffset : Int32) :
    (makeCols tabName colDefs currOffset).1.map (·.name) = colDefs.map (·.name) := by
  induction colDefs generalizing currOffset with
  | nil => rfl
  | cons colDef colDefs ih => exact congrArg (colDef.name :: ·) (ih _)

theorem map_len_makeCols (colDefs : List ColDef) (currOffset : Int32) :
    (makeCols tabName colDefs currOffset).1.map (·.len.toInt) = colDefs.map (·.len.toInt) := by
  induction colDefs generalizing currOffset with
  | nil => rfl
  | cons colDef colDefs ih => exact congrArg (colDef.len.toInt :: ·) (ih _)

theorem sum_lens_nonneg {colDefs : List ColDef} (hlen : ∀ d ∈ colDefs, 0 ≤ d.len.toInt) :
    0 ≤ (colDefs.map (·.len.toInt)).sum := by
  apply List.sum_nonneg
  intro x hx
  obtain ⟨d, hd, rfl⟩ := List.mem_map.mp hx
  exact hlen d hd

/-- Without negative lengths and up to the largest record size, the offsets are exact and the
columns lie one after another. -/
theorem makeCols_exact {colDefs : List ColDef} (hlen : ∀ d ∈ colDefs, 0 ≤ d.len.toInt)
    {currOffset : Int32} (hoffset : 0 ≤ currOffset.toInt)
    (hsize : currOffset.toInt + (colDefs.map (·.len.toInt)).sum ≤ rmMaxRecordSize) :
    (makeCols tabName colDefs currOffset).2.toInt =
        currOffset.toInt + (colDefs.map (·.len.toInt)).sum ∧
      (∀ i col, (makeCols tabName colDefs currOffset).1[i]? = some col →
        col.offset.toInt = currOffset.toInt +
          (((makeCols tabName colDefs currOffset).1.take i).map (·.len.toInt)).sum) ∧
      (∀ col ∈ (makeCols tabName colDefs currOffset).1, currOffset.toInt ≤ col.offset.toInt ∧
        col.offset.toInt + col.len.toInt ≤
          currOffset.toInt + (colDefs.map (·.len.toInt)).sum) ∧
      (makeCols tabName colDefs currOffset).1.Pairwise fun col col' =>
        col.offset.toInt + col.len.toInt ≤ col'.offset.toInt := by
  induction colDefs generalizing currOffset with
  | nil => simp [makeCols]
  | cons colDef colDefs ih =>
    have hfirst := hlen colDef List.mem_cons_self
    have hrest : ∀ d ∈ colDefs, 0 ≤ d.len.toInt := fun d hd => hlen d (List.mem_cons_of_mem _ hd)
    have hsum := sum_lens_nonneg hrest
    have hmax : (rmMaxRecordSize : Int) = 512 := rfl
    rw [List.map_cons, List.sum_cons] at hsize ⊢
    have hadd : (currOffset + colDef.len).toInt = currOffset.toInt + colDef.len.toInt := by
      rw [Int32.toInt_add, Int.bmod_eq_of_le] <;> omega
    obtain ⟨hend, hoffsets, hin, hpair⟩ := ih hrest
      (show 0 ≤ (currOffset + colDef.len).toInt by omega) (by omega)
    simp only [makeCols]
    refine ⟨by omega, fun i col hcol => ?_, fun col hcol => ?_,
      List.pairwise_cons.mpr ⟨fun col hcol => ?_, hpair⟩⟩
    · cases i with
      | zero =>
        obtain rfl := Option.some.inj hcol
        simp
      | succ i =>
        have := hoffsets i col hcol
        simp only [List.take_succ_cons, List.map_cons, List.sum_cons]
        omega
    · rcases List.mem_cons.mp hcol with rfl | hcol
      · exact ⟨Int.le_refl _, by simp only; omega⟩
      · have := hin col hcol
        omega
    · have := hin col hcol
      simp only
      omega

end Cols

/-! ### What `create_table` checks -/

theorem manager_eq_ok {α : Type} {x : ManagerM α} {a : α} {s s' : SmManager}
    (h : SmM.manager x s = .ok a s') : ∃ pool, x s.pool = .ok a pool ∧ s' = { s with pool } := by
  unfold SmM.manager at h
  split at h
  · rename_i a' pool hx
    cases h
    exact ⟨pool, hx, rfl⟩
  · cases h

/-- `create_table` that ended normally has entered the table, and the file holds the sum of the
lengths, which passed the check of `create_file`. -/
theorem createTable_ok {env : TableEnv} {tabName : String} {colDefs : List ColDef}
    {s s' : SmManager} (h : createTable env tabName colDefs s = .ok () s') :
    s'.db.tabs[tabName]? = some { name := tabName, cols := (makeCols tabName colDefs 0).1 } ∧
      s'.fileHdr tabName = some (.init (recordSize tabName colDefs).toInt) ∧
      1 ≤ (recordSize tabName colDefs).toInt ∧
      (recordSize tabName colDefs).toInt ≤ rmMaxRecordSize := by
  have hcreates : s.CreatesTable env tabName colDefs := by
    by_contra hn
    obtain ⟨e, he⟩ := createTable_eq_error hn
    cases he.symm.trans h
  unfold createTable at h
  simp only [get_bind_apply, hcreates.1, Bool.false_eq_true, if_false] at h
  obtain ⟨_, s₁, hcreate, h⟩ := bind_eq_ok_iff.mp h
  rw [modify_bind_apply] at h
  obtain ⟨fileHandle, s₂, hopen, h⟩ := bind_eq_ok_iff.mp h
  obtain ⟨-, rfl⟩ := Result.ok.inj h
  -- both calls go to the record manager, and opening the file does not touch the catalog
  obtain ⟨pool₁, hcreateFile, rfl⟩ := manager_eq_ok hcreate
  obtain ⟨pool₂, hopenFile, rfl⟩ := manager_eq_ok hopen
  refine ⟨ExtTreeMap.getElem?_insert_self, ?_, hcreates.2.1⟩
  obtain ⟨hdir, hread⟩ := rmCreateFile_header hcreateFile
  obtain ⟨hdir₂, hfile₂⟩ := rmOpenFile_keeps hopenFile
  have hhdr : RmFileHdr.ofBytes (RmFileHdr.init (recordSize tabName colDefs).toInt).toBytes =
      .init (recordSize tabName colDefs).toInt :=
    @ofBytes_toBytes_init _ 1 rmNoPage hcreates.2.1.1 hcreates.2.1.2 ⟨by decide, by decide⟩
      ⟨by decide, by decide⟩
  change (pool₂.diskManager.os.dir.find tabName).bind _ = _
  rw [hdir₂, hdir, Option.bind_some, hfile₂]
  exact (congrArg _ hread).trans (congrArg some hhdr)

/-- The condition on the definitions of the columns. -/
structure GoodDefs (colDefs : List ColDef) : Prop where
  names : (colDefs.map (·.name)).Nodup
  lens : ∀ d ∈ colDefs, 0 ≤ d.len.toInt
  size : (colDefs.map (·.len.toInt)).sum ≤ rmMaxRecordSize

variable {tabName : String} {colDefs : List ColDef}

/-- Good definitions give a good layout. -/
theorem GoodDefs.laidOut (h : GoodDefs colDefs) :
    TabMeta.LaidOut { name := tabName, cols := (makeCols tabName colDefs 0).1 }
      (recordSize tabName colDefs).toInt := by
  have hzero : (0 : Int32).toInt = 0 := rfl
  obtain ⟨hend, hoffsets, hin, hpair⟩ :=
    makeCols_exact tabName h.lens (show 0 ≤ (0 : Int32).toInt by decide) (by simpa using h.size)
  simp only [hzero, zero_add] at hend hoffsets hin
  refine ⟨fun col hcol b hb => ?_, hpair.imp fun {col col'} hle => ?_, ?_, hoffsets, ?_⟩
  · have hcol' := hin col hcol
    rw [ColMeta.range, Set.mem_Ico] at hb
    rw [Set.mem_Ico, recordSize, hend]
    omega
  · rw [Set.disjoint_left]
    intro b hb hb'
    rw [ColMeta.range, Set.mem_Ico] at hb hb'
    omega
  · rw [map_name_makeCols]
    exact h.names
  · rw [recordSize, hend, map_len_makeCols]

/-- A good layout comes from good definitions: disjoint ranges in the record are no longer than it,
so that no negative length can have been added. -/
theorem goodDefs_of_laidOut (hmin : 1 ≤ (recordSize tabName colDefs).toInt)
    (hmax : (recordSize tabName colDefs).toInt ≤ rmMaxRecordSize)
    (h : TabMeta.LaidOut { name := tabName, cols := (makeCols tabName colDefs 0).1 }
      (recordSize tabName colDefs).toInt) : GoodDefs colDefs := by
  obtain ⟨hin, hdisj, hnames, -, hsize⟩ := h
  have hle := sum_length_le (fun col : ColMeta => col.offset.toInt)
    (fun col => col.offset.toInt + col.len.toInt) hin hdisj
  simp only [add_sub_cancel_left, Int.sub_zero] at hle
  obtain ⟨hsum, hnonneg⟩ :=
    sum_le_sum_toNat (fun col : ColMeta => col.len.toInt) (makeCols tabName colDefs 0).1
  rw [← hsize] at hsum hnonneg
  have hlens := hnonneg (by omega)
  refine ⟨?_, fun d hd => ?_, ?_⟩
  · rwa [map_name_makeCols] at hnames
  · have hmem : d.len.toInt ∈ (makeCols tabName colDefs 0).1.map (·.len.toInt) := by
      rw [map_len_makeCols]
      exact List.mem_map_of_mem hd
    obtain ⟨col, hcol, heq⟩ := List.mem_map.mp hmem
    rw [← heq]
    exact hlens col hcol
  · rw [← map_len_makeCols tabName colDefs 0, ← hsize]
    exact hmax

/-- **The layout of a table.**  The table that `create_table` has entered is laid out well in the
records of the file it has created, exactly if the names are distinct, no length is negative and the
lengths add up to at most the largest record size. -/
theorem createTable_laidOut_iff (env : TableEnv) (tabName : String) (colDefs : List ColDef)
    (s s' : SmManager) (hok : createTable env tabName colDefs s = .ok () s') :
    (∃ tab hdr, s'.db.tabs[tabName]? = some tab ∧ s'.fileHdr tabName = some hdr ∧
      tab.LaidOut hdr.recordSize) ↔
      (colDefs.map (·.name)).Nodup ∧ (∀ d ∈ colDefs, 0 ≤ d.len.toInt) ∧
        (colDefs.map (·.len.toInt)).sum ≤ rmMaxRecordSize := by
  obtain ⟨htab, hhdr, hmin, hmax⟩ := createTable_ok hok
  constructor
  · rintro ⟨tab, hdr, hget, hfile, hlaid⟩
    obtain rfl := Option.some.inj (hget.symm.trans htab)
    obtain rfl := Option.some.inj (hfile.symm.trans hhdr)
    obtain ⟨hnames, hlens, hsize⟩ := goodDefs_of_laidOut hmin hmax hlaid
    exact ⟨hnames, hlens, hsize⟩
  · rintro ⟨hnames, hlens, hsize⟩
    exact ⟨_, _, htab, hhdr, GoodDefs.laidOut ⟨hnames, hlens, hsize⟩⟩

/-- `create_table` on a database without tables and files. -/
theorem createTable_start (colDefs : List ColDef) (h1 : 1 ≤ (recordSize "t" colDefs).toInt)
    (h2 : (recordSize "t" colDefs).toInt ≤ rmMaxRecordSize) :
    ∃ s', createTable ⟨3, 3, 3, fun _ => 0⟩ "t" colDefs (start noFiles) = .ok () s' := by
  have hready : (start noFiles).Ready :=
    start_ready noFiles (by simp [noFiles, Directory.find]) fun _ => rfl
  have hcreates : (start noFiles).CreatesTable ⟨3, 3, 3, fun _ => 0⟩ "t" colDefs :=
    ⟨by simp [start, DbMeta.isTable], ⟨h1, h2⟩, rfl, by decide⟩
  obtain ⟨fileHandle, dm, hrun, -⟩ :=
    createTable_eq_ok hready hcreates (by decide) (by decide) (by decide)
  exact ⟨_, hrun⟩

theorem createTable_laidOut_two : ∃ s' tab hdr,
    createTable ⟨3, 3, 3, fun _ => 0⟩ "t" [⟨"a", .int, 4⟩, ⟨"b", .string, 10⟩] (start noFiles) =
      .ok () s' ∧
    s'.db.tabs["t"]? = some tab ∧ s'.fileHdr "t" = some hdr ∧ tab.LaidOut hdr.recordSize := by
  obtain ⟨s', hrun⟩ := createTable_start [⟨"a", .int, 4⟩, ⟨"b", .string, 10⟩] (by decide) (by decide)
  obtain ⟨tab, hdr, hlaid⟩ := (createTable_laidOut_iff _ _ _ _ _ hrun).mpr (by decide)
  exact ⟨s', tab, hdr, hrun, hlaid⟩

/-- **A negative length.**  `create_table` accepts `CHAR(600)` and `CHAR(-100)`, for a record of 500
bytes, in which the first column does not fit. -/
theorem not_laidOut_negative : ∃ s',
    createTable ⟨3, 3, 3, fun _ => 0⟩ "t" [⟨"a", .string, 600⟩, ⟨"b", .string, -100⟩]
      (start noFiles) = .ok () s' ∧
    ¬∃ tab hdr, s'.db.tabs["t"]? = some tab ∧ s'.fileHdr "t" = some hdr ∧
      tab.LaidOut hdr.recordSize := by
  obtain ⟨s', hrun⟩ := createTable_start [⟨"a", .string, 600⟩, ⟨"b", .string, -100⟩] (by decide)
    (by decide)
  refine ⟨s', hrun, ?_⟩
  rintro ⟨tab, hdr, htab, hhdr, hlaid⟩
  obtain rfl := Option.some.inj (htab.symm.trans (createTable_ok hrun).1)
  obtain rfl := Option.some.inj (hhdr.symm.trans (createTable_ok hrun).2.1)
  -- byte 599 of the first column is beyond the record
  have hin := hlaid.inside ⟨"t", "a", .string, 600, 0, false⟩ (List.mem_cons_self ..)
  have hlast : (599 : Int) ∈ Set.Ico 0 (recordSize "t"
      [⟨"a", .string, 600⟩, ⟨"b", .string, -100⟩]).toInt := hin ⟨by decide, by decide⟩
  exact absurd hlast.2 (by decide)

end SmManager

end Rucbase
