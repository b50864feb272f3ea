import Rucbase.Execution.Equiv.WhereClause
import Rucbase.Execution.SelectFrom
import Rucbase.Lib.Output

/-!
# Responses and their buffer

A separator or a record of `k` columns takes `19 * k + 2` bytes, whatever the cells hold
(`printSeparator_prints`, `printRecord_prints`).  So `show_tables`, `desc_table` and `select_from`
print an amount that depends on the numbers of rows and columns only, and nothing keeps it below the
size of the response buffer (`staysInside_iff`).
-/

namespace Rucbase

open Output RecordPrinter

/-- The program prints `n` bytes and returns `a`, or runs over the end of the response. -/
abbrev Prints {α : Type} (m : PrintM α) (n : Nat) (a : α) : Prop :=
  Appends (fun context : Context => context.offset.toInt) bufferLength PrintError.outOfBounds m n a

/-! ### Rows -/

theorem append_prints (str : List UInt8) : Prints (append str) str.length () := by
  intro context h0 _
  have hcap : ((bufferLength : Nat) : Int) = 8192 := rfl
  simp only at h0 ⊢
  unfold append
  by_cases hroom : context.offset.toInt + str.length ≤ bufferLength
  · rw [if_pos hroom, EStateM.get_bind_apply, if_pos ⟨h0, hroom⟩]
    refine ⟨_, rfl, ?_⟩
    have hlength : (Int32.ofNat str.length).toInt = str.length :=
      Int32.toInt_ofNat_of_lt (by omega)
    show (context.offset + Int32.ofNat str.length).toInt = _
    rw [Int32.toInt_add, hlength, Int.bmod_eq_of_le] <;> omega
  · rw [if_neg hroom, EStateM.get_bind_apply, if_neg (by omega)]
    exact ⟨context, rfl⟩

/-- A cell has its width whatever its text is. -/
theorem length_cell (col : List UInt8) : (cell col).length = 19 := by
  have h1 : (bytes "| ").length = 2 := by decide
  have h2 : (bytes "...").length = 3 := by decide
  have h3 : (bytes " ").length = 1 := by decide
  unfold cell setw
  simp only [List.length_append, List.length_replicate, h1, h3, colWidth]
  by_cases hlong : 16 < col.length
  · simp only [hlong, if_true, List.length_append, List.length_take, h2]
    omega
  · simp only [hlong, if_false]
    omega

theorem printSeparator_prints (printer : RecordPrinter) :
    Prints printer.printSeparator (19 * printer.numCols + 2) () := by
  have hcell := append_prints (bytes "+" ++ List.replicate (colWidth + 2) 45)
  have hend := append_prints (bytes "+\n")
  have hloop := Appends.forM (l := List.range printer.numCols) fun _ _ => hcell
  rw [List.length_range, Nat.mul_comm] at hloop
  exact hloop.seq hend

theorem printRecord_prints {printer : RecordPrinter} {recStr : List (List UInt8)}
    (h : recStr.length = printer.numCols) :
    Prints (printer.printRecord recStr) (19 * printer.numCols + 2) () := by
  have hcell : ∀ col ∈ recStr, Prints (append (cell col)) 19 () := by
    intro col _
    rw [← length_cell col]
    exact append_prints (cell col)
  have hend := append_prints (bytes "|\n")
  have hloop := Appends.forM hcell
  rw [h, Nat.mul_comm] at hloop
  unfold printRecord
  rw [if_neg (by simpa using h)]
  exact hloop.seq hend

theorem printRecordCount_prints (numRec : Nat) :
    Prints (printRecordCount numRec) (18 + (Nat.toDigits 10 numRec).length) () := by
  have hlength : (bytes "Total record(s): " ++ toStringInt numRec ++ bytes "\n").length =
      18 + (Nat.toDigits 10 numRec).length := by
    have h1 : (bytes "Total record(s): ").length = 17 := by decide
    have h2 : (bytes "\n").length = 1 := by decide
    have hneg : ¬(numRec : Int) < 0 := by omega
    simp only [List.length_append, h1, h2, toStringInt, TextStream.integer, if_neg hneg,
      List.length_map, Int.natAbs_natCast]
    omega
  rw [← hlength]
  exact append_prints _

theorem new_prints {numCols : Nat} (h : 0 < numCols) :
    Prints (RecordPrinter.new numCols) 0 ⟨numCols⟩ := by
  unfold RecordPrinter.new
  rw [if_pos h]
  exact Appends.pure _

/-! ### Responses -/

/-- A table with a caption, and rows of its width. -/
theorem table_prints {β : Type} {k : Nat} (captions : List (List UInt8))
    (hcaptions : captions.length = k) {rows : List β} {row : β → PrintM Unit}
    (hrow : ∀ r ∈ rows, Prints (row r) (19 * k + 2) ()) :
    Prints (do
      printSeparator ⟨k⟩
      printRecord ⟨k⟩ captions
      printSeparator ⟨k⟩
      rows.forM row
      printSeparator ⟨k⟩) ((4 + rows.length) * (19 * k + 2)) () := by
  have hsep := printSeparator_prints ⟨k⟩
  have hhead : Prints (printRecord ⟨k⟩ captions) (19 * k + 2) () := printRecord_prints hcaptions
  have hall := hsep.seq (hhead.seq (hsep.seq ((Appends.forM hrow).seq hsep)))
  have hsum : (4 + rows.length) * (19 * k + 2) = 19 * k + 2 + (19 * k + 2 + (19 * k + 2 +
      (rows.length * (19 * k + 2) + (19 * k + 2)))) := by ring
  rw [hsum]
  exact hall

theorem showTables_prints (db : DbMeta) :
    Prints db.showTables ((4 + db.tabs.size) * 21) () := by
  have hrow : ∀ entry ∈ db.tabs.toList,
      Prints (printRecord ⟨1⟩ [bytes entry.2.name]) (19 * 1 + 2) () :=
    fun entry _ => printRecord_prints rfl
  have htable := table_prints [bytes "Tables"] rfl hrow
  rw [Std.ExtTreeMap.length_toList] at htable
  exact htable

theorem descTable_prints {db : DbMeta} {tabName : String} {tab : TabMeta}
    (htab : db.tabs[tabName]? = some tab) :
    Prints (db.descTable tabName) ((4 + tab.cols.length) * 59) () := by
  have hrow : ∀ col ∈ tab.cols, Prints (printRecord ⟨3⟩ [bytes col.name,
      bytes (coltype2str col.type), bytes (if col.index then "YES" else "NO")]) (19 * 3 + 2) () :=
    fun col _ => printRecord_prints rfl
  have htable := table_prints [bytes "Field", bytes "Type", bytes "Index"] rfl hrow
  unfold DbMeta.descTable DbMeta.getTable
  rw [htab]
  exact htable

/-- The columns of a tuple can be printed. -/
theorem colStr_eq_ok {col : ColMeta} {tuple : List UInt8} (h : col.In tuple) :
    ∃ str, colStr col tuple = .ok str := by
  obtain ⟨hoffset, hlen, hend, htype⟩ := h
  have hadvance : advance tuple col.offset = .ok (tuple.drop col.offset.toInt.toNat) :=
    if_pos ⟨hoffset, by omega⟩
  have hrest : col.len.toInt ≤ (tuple.drop col.offset.toInt.toNat).length := by
    rw [List.length_drop]
    omega
  -- the word of an `int` or a `float` is inside the tuple
  have hword : col.type ≠ .string → ∃ word, loadWord (tuple.drop col.offset.toInt.toNat) = .ok word :=
    fun hne => ⟨_, loadWord_eq (by have := htype.resolve_left hne; omega)⟩
  unfold colStr
  rw [hadvance]
  cases hcol : col.type with
  | int =>
    obtain ⟨word, hload⟩ := hword (by simp [hcol])
    exact ⟨toStringInt word.toInt32.toInt, by simp only [bind, Except.bind, hload]; rfl⟩
  | float =>
    obtain ⟨word, hload⟩ := hword (by simp [hcol])
    exact ⟨toStringFloat word, by simp only [bind, Except.bind, hload]; rfl⟩
  | string => exact ⟨_, if_pos ⟨hlen, hrest⟩⟩

/-- One round of the printing loop. -/
theorem round_prints (result : ResultSet) (numRec : Nat) {tuple : List UInt8}
    (htuple : tuple ∈ result.tuples) :
    Prints (do
      let columns ← PrintM.read (result.cols.mapM fun col => colStr col tuple)
      printRecord ⟨result.selCols.length⟩ columns
      return numRec + 1) (19 * result.selCols.length + 2) (numRec + 1) := by
  have hmap : result.cols.mapM (fun col => colStr col tuple) =
      .ok (result.cols.map fun col => (colStr col tuple).toOption.getD []) := by
    apply Except.mapM_eq_ok
    intro col hcol
    obtain ⟨str, hstr⟩ := colStr_eq_ok (result.cols_in tuple htuple col hcol)
    rw [hstr]
    rfl
  rw [hmap]
  refine (printRecord_prints ?_).seq (Appends.pure _)
  rw [List.length_map, result.length_cols]

/-- What the loop counts. -/
theorem foldl_count (tuples : List (List UInt8)) (numRec : Nat) :
    tuples.foldl (fun numRec _ => numRec + 1) numRec = numRec + tuples.length := by
  induction tuples generalizing numRec with
  | nil => rfl
  | cons tuple tuples ih =>
    rw [List.foldl_cons, ih, List.length_cons]
    omega

theorem print_prints (result : ResultSet) :
    Prints result.print ((4 + result.tuples.length) * (19 * result.selCols.length + 2) +
      (18 + (Nat.toDigits 10 result.tuples.length).length)) () := by
  have hnew : Prints (RecordPrinter.new result.selCols.length) 0 ⟨result.selCols.length⟩ :=
    new_prints (List.length_pos_of_ne_nil result.selCols_ne)
  have hsep := printSeparator_prints ⟨result.selCols.length⟩
  have hhead : Prints (printRecord ⟨result.selCols.length⟩
      (result.selCols.map fun selCol => bytes selCol.colName)) (19 * result.selCols.length + 2) () :=
    printRecord_prints (List.length_map _)
  have hloop := Appends.foldlM (fun numRec _ => round_prints result numRec) 0
  rw [foldl_count, Nat.zero_add] at hloop
  have hcount := printRecordCount_prints result.tuples.length
  generalize 19 * result.selCols.length + 2 = w at *
  generalize 18 + (Nat.toDigits 10 result.tuples.length).length = c at *
  have hsum : (4 + result.tuples.length) * w + c =
      0 + (w + (w + (w + (result.tuples.length * w + (w + c))))) := by ring
  rw [hsum]
  unfold ResultSet.print
  exact hnew.bind (hsep.seq (hhead.seq (hsep.seq (hloop.bind (hsep.seq hcount)))))

/-! ### The buffer -/

/-- A response that starts at the front of the buffer stays inside, with the byte behind it that is
sent, too. -/
def Inside (m : PrintM Unit) : Prop :=
  ∀ context : Context, context.offset = 0 →
    match m context with
    | .ok _ context' => context'.offset.toInt ≤ 8191
    | .error e context' => e ≠ .outOfBounds ∧ context'.offset.toInt ≤ 8191

theorem inside_iff {m : PrintM Unit} {n : Nat} (h : Prints m n ()) : Inside m ↔ n ≤ 8191 := by
  have hcap : ((bufferLength : Nat) : Int) = 8192 := rfl
  have hzero : (0 : Int32).toInt = 0 := rfl
  constructor
  · intro hinside
    have hrun := h ⟨fun _ => 0, 0⟩ (by simp) (by simp)
    have hstays := hinside ⟨fun _ => 0, 0⟩ rfl
    split at hrun
    · obtain ⟨context', hok, hpos⟩ := hrun
      rw [hok] at hstays
      simp only [hzero] at hpos hstays
      omega
    · obtain ⟨context', herror⟩ := hrun
      rw [herror] at hstays
      exact absurd rfl hstays.1
  · intro hn context hstart
    have hrun := h context (by simp [hstart]) (by simp [hstart])
    simp only [hstart, hzero] at hrun
    rw [if_pos (by omega)] at hrun
    obtain ⟨context', hok, hpos⟩ := hrun
    rw [hok]
    show context'.offset.toInt ≤ 8191
    omega

/-- What a client can ask the server to print. -/
inductive Request where
  | showTables
  | descTable (tabName : String)
  | selectFrom (result : ResultSet)

namespace Request

def print (db : DbMeta) : Request → PrintM Unit
  | showTables => db.showTables
  | descTable tabName => db.descTable tabName
  | selectFrom result => result.print

/-- The numbers of rows and columns are small enough for the buffer. -/
def Fits (db : DbMeta) : Request → Prop
  | showTables => (4 + db.tabs.size) * 21 ≤ 8191
  | descTable tabName => ∀ tab, db.tabs[tabName]? = some tab → (4 + tab.cols.length) * 59 ≤ 8191
  | selectFrom result => (4 + result.tuples.length) * (19 * result.selCols.length + 2) +
      (18 + (Nat.toDigits 10 result.tuples.length).length) ≤ 8191

/-- The response stays inside its buffer, and all its rows have their width. -/
structure StaysInside (db : DbMeta) (request : Request) : Prop where
  inside : Inside (request.print db)
  separator : ∀ printer : RecordPrinter,
    Prints printer.printSeparator (19 * printer.numCols + 2) ()
  record : ∀ (printer : RecordPrinter) (recStr : List (List UInt8)),
    recStr.length = printer.numCols →
      Prints (printer.printRecord recStr) (19 * printer.numCols + 2) ()

/-- **Responses**: whatever names and cells there are, a response stays inside the buffer exactly if
it has not too many rows for its columns. -/
theorem staysInside_iff (db : DbMeta) (request : Request) :
    StaysInside db request ↔ request.Fits db := by
  have hinside : Inside (request.print db) ↔ request.Fits db := by
    cases request with
    | showTables => exact inside_iff (showTables_prints db)
    | descTable tabName =>
      rcases htab : db.tabs[tabName]? with _ | tab
      · -- nothing is printed
        refine iff_of_true (fun context hstart => ?_) (by simp [Fits, htab])
        simp [print, DbMeta.descTable, DbMeta.getTable, htab, hstart]
      · show Inside (db.descTable tabName) ↔ _
        rw [inside_iff (descTable_prints htab)]
        simp [Fits, htab]
    | selectFrom result => exact inside_iff (print_prints result)
  rw [← hinside]
  constructor
  · intro h
    exact h.inside
  · intro h
    exact ⟨h, printSeparator_prints, fun _ _ => printRecord_prints⟩

/-- Two rows of a number and a name. -/
def twoRows : ResultSet where
  selCols := [⟨"t", "id"⟩, ⟨"t", "name"⟩]
  cols := [⟨"t", "id", .int, 4, 0, false⟩, ⟨"t", "name", .string, 4, 4, false⟩]
  tuples := [[1, 0, 0, 0, 97, 0, 0, 0], [2, 0, 0, 0, 98, 98, 0, 0]]
  selCols_ne := by simp
  length_cols := rfl
  cols_in := by
    unfold ColMeta.In
    decide

theorem staysInside_twoRows : StaysInside { tabs := ∅ } (.selectFrom twoRows) :=
  (staysInside_iff _ _).mpr
    (show (4 + 2) * (19 * 2 + 2) + (18 + (Nat.toDigits 10 2).length) ≤ 8191 by decide)

/-- A table with 135 columns of one byte each. -/
def wideTable : TabMeta where
  name := "t"
  cols := (List.range 135).map fun i => ⟨"t", toString i, .string, 1, Int32.ofNat i, false⟩

/-- Its description has 139 rows of 59 bytes. -/
theorem not_staysInside_wideTable :
    ¬StaysInside { tabs := (∅ : Std.ExtTreeMap String TabMeta).insert "t" wideTable }
      (.descTable "t") := by
  intro h
  have htab : ((∅ : Std.ExtTreeMap String TabMeta).insert "t" wideTable)["t"]? = some wideTable :=
    Std.ExtTreeMap.getElem?_insert_self
  have hroom := (inside_iff (descTable_prints htab)).mp h.inside
  simp [wideTable] at hroom

end Request

end Rucbase
