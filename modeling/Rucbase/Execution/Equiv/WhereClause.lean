import Rucbase.Execution.SeqScanExecutor
import Rucbase.System.SmManager
import Mathlib.Data.List.Nodup

/-!
# The meaning of a where clause

A where clause is judged on one record of each table.  `Condition.holds` is what a condition means:
its two sides stand for data (`Datum`), and strings are compared as if they were filled up with zero
bytes.  `Condition.Checked` is what `check_where_clause` has made sure of.  `create_table` accepts
lengths that leave a column outside of the record, so whether a column can be read is a question of
its own (`ColMeta.Inside`): `rec2dict` gets through a record exactly if all columns can be read and
have different names (`rec2dict_eq_ok`, `feedable_of_rec2dict`), and its dictionary has the values of
the columns.
-/

namespace Rucbase

open ByteString SeqScanExecutor AbstractExecutor

/-! ### What a where clause means -/

/-- Where a column starts in a record. -/
def ColMeta.start (col : ColMeta) : Nat := col.offset.toInt.toNat

/-- The declared length of a column; none when it is negative. -/
def ColMeta.size (col : ColMeta) : Nat := col.len.toInt.toNat

/-- The length of the records of a table: `len_`, where its last column ends. -/
def TabMeta.tupleLen (tab : TabMeta) : Nat :=
  match tab.cols.getLast? with
  | some col => (col.offset + col.len).toInt.toNat
  | none => 0

/-- A table that `create_table` made of definitions of columns; the grammar gives a number four
bytes, and a string any length. -/
def TabMeta.Created (tab : TabMeta) : Prop :=
  ∃ colDefs : List ColDef, (∀ colDef ∈ colDefs, colDef.type ≠ .string → colDef.len = 4) ∧
    tab.cols = (SmManager.makeCols tab.name colDefs 0).1

theorem mem_makeCols (tabName : String) {colDefs : List ColDef}
    (hdefs : ∀ colDef ∈ colDefs, colDef.type ≠ .string → colDef.len = 4) {currOffset : Int32}
    {col : ColMeta} (hcol : col ∈ (SmManager.makeCols tabName colDefs currOffset).1) :
    col.tabName = tabName ∧ (col.type ≠ .string → col.len = 4) := by
  induction colDefs generalizing currOffset with
  | nil => cases hcol
  | cons colDef colDefs ih =>
    rcases List.mem_cons.mp hcol with rfl | hcol
    · exact ⟨rfl, hdefs colDef List.mem_cons_self⟩
    · exact ih (fun d hd => hdefs d (List.mem_cons_of_mem _ hd)) hcol

/-- The column can be read: its bytes lie in a record of length `n`. -/
structure ColMeta.Inside (col : ColMeta) (n : Nat) : Prop where
  offset : 0 ≤ col.offset.toInt
  len : 0 ≤ col.len.toInt
  fits : col.start + col.size ≤ n

instance (col : ColMeta) (n : Nat) : Decidable (col.Inside n) :=
  decidable_of_iff
    (0 ≤ col.offset.toInt ∧ 0 ≤ col.len.toInt ∧ col.start + col.size ≤ n)
    ⟨fun h => ⟨h.1, h.2.1, h.2.2⟩, fun h => ⟨h.1, h.2, h.3⟩⟩

/-- The number of bytes of the column that a record of length `n` has. -/
def ColMeta.width (col : ColMeta) (n : Nat) : Nat := min col.size (n - col.start)

/-- A table whose records `rec2dict` gets through. -/
structure TabMeta.Feedable (tab : TabMeta) : Prop where
  names : (tab.cols.map ColMeta.name).Nodup
  inside : ∀ col ∈ tab.cols, col.Inside tab.tupleLen

/-- A table and the record chosen from it. -/
abbrev Row := TabMeta × List UInt8

/-- A string fills its column up with zero bytes. -/
def ZeroPadded (s : List UInt8) : Prop := s = pad s.length (s.takeWhile (· ≠ 0))

/-- The bytes of a column in a record. -/
def ColMeta.slice (col : ColMeta) (data : List UInt8) : List UInt8 :=
  (data.drop col.start).take col.size

/-- A record of the table: `init_raw` has padded its strings. -/
structure Row.Valid (row : Row) : Prop where
  length : row.2.length = row.1.tupleLen
  padded : ∀ col ∈ row.1.cols, col.type = .string → ZeroPadded (col.slice row.2)

/-- What a column or a literal stands for. -/
inductive Datum where
  | int (bits : UInt32)
  | float (bits : UInt32)
  | string (s : List UInt8)

/-- The order of two data; strings are compared as if they were filled up with zero bytes. -/
def Datum.compare : Datum → Datum → Int
  | .int a, .int b => compareInt a b
  | .float a, .float b => compareFloat a b
  | .string a, .string b => padCompare a b
  | _, _ => 0

/-- The number in the first four bytes. -/
def wordOf (buf : List UInt8) : UInt32 :=
  match loadWord buf with
  | .ok word => word
  | .error _ => 0

def Datum.make (type : ColType) (num : UInt32) (s : List UInt8) : Datum :=
  match type with
  | .int => .int num
  | .float => .float num
  | .string => .string s

/-- The datum of a column in a record. -/
def ColMeta.datum (col : ColMeta) (data : List UInt8) : Datum :=
  .make col.type (wordOf (data.drop col.start)) (col.slice data)

/-- The datum of a literal. -/
def Value.datum (val : Value) : Datum := .make val.type val.num val.strVal

/-- The column that a name stands for. -/
def findTabCol (tables : List TabMeta) (target : TabCol) : Option (TabMeta × ColMeta) := do
  let tab ← tables.find? (·.name = target.tabName)
  let col ← tab.cols.find? (·.name = target.colName)
  return (tab, col)

/-- The datum that a column name stands for. -/
def field (rows : List Row) (target : TabCol) : Option Datum := do
  let row ← rows.find? (·.1.name = target.tabName)
  let col ← row.1.cols.find? (·.name = target.colName)
  return col.datum row.2

namespace Condition

/-- The condition is true of the chosen records. -/
def holds (rows : List Row) (cond : Condition) : Bool :=
  match field rows cond.lhsCol,
      if cond.isRhsVal then some cond.rhsVal.datum else field rows cond.rhsCol with
  | some lhs, some rhs => cond.op.test (lhs.compare rhs)
  | _, _ => false

/-- What `check_where_clause` has made sure of: the columns exist, both sides have one type, and a
literal has been given the length of the column. -/
def Checked (tables : List TabMeta) (cond : Condition) : Prop :=
  ∃ tab col, findTabCol tables cond.lhsCol = some (tab, col) ∧
    if cond.isRhsVal then
      ∃ val : Value, val.raw = none ∧ val.type = col.type ∧ val.initRaw col.len = .ok cond.rhsVal
    else ∃ tab' col', findTabCol tables cond.rhsCol = some (tab', col') ∧ col'.type = col.type

/-- The later of the two tables of a condition: it is the one that evaluates the condition. -/
def owner (tables : List TabMeta) (cond : Condition) : String :=
  if !cond.isRhsVal ∧ (tables.map (·.name)).idxOf cond.lhsCol.tabName <
      (tables.map (·.name)).idxOf cond.rhsCol.tabName
  then cond.rhsCol.tabName else cond.lhsCol.tabName

/-- The condition with the column of a table on its left side. -/
def turned (tabName : String) (cond : Condition) : Condition :=
  if cond.lhsCol.tabName = tabName then cond
  else { cond with lhsCol := cond.rhsCol, rhsCol := cond.lhsCol, op := cond.op.swap }

/-- The lengths of two strings do no harm, the condition having its own column on the left: they are
equal; or the left one is shorter and the operator does not tell "equal" from "less"; or the right
one is shorter but starts where the left one does (`aligned`), and the operator does not tell "equal"
from "greater". -/
def LensAgree (op : CompOp) (m n : Nat) (aligned : Prop) : Prop :=
  m = n ∨ m < n ∧ op ∈ [.gt, .le] ∨ n < m ∧ aligned ∧ op ∈ [.lt, .ge]

/-- What a condition asks of its columns, the one of the later table on the left: that one lies in
the record, of a right one in the same record there are as many bytes, and the lengths of strings
agree. -/
def Fits (tables : List TabMeta) (cond : Condition) : Prop :=
  ∀ tab lhs, findTabCol tables (cond.turned (cond.owner tables)).lhsCol = some (tab, lhs) →
    lhs.Inside tab.tupleLen ∧ (cond.isRhsVal = true ∨ ∀ tab' rhs,
      findTabCol tables (cond.turned (cond.owner tables)).rhsCol = some (tab', rhs) →
        (tab'.name = tab.name →
          0 ≤ rhs.offset.toInt ∧ rhs.start + lhs.size ≤ tab.tupleLen) ∧
        (lhs.type = .string → LensAgree (cond.turned (cond.owner tables)).op lhs.size
          (rhs.width tab'.tupleLen) (tab'.name = tab.name ∧ lhs.start = rhs.start)))

end Condition

/-! ### Columns of a record -/

theorem find?_congr {α : Type} {p q : α → Bool} {l : List α} (h : ∀ a ∈ l, p a = q a) :
    l.find? p = l.find? q := by
  induction l with
  | nil => rfl
  | cons a l ih =>
    rw [List.find?_cons, List.find?_cons, h a (by simp), ih fun b hb => h b (by simp [hb])]

section Columns

variable {tab : TabMeta} {col col' : ColMeta} {data : List UInt8}

theorem TabMeta.Created.tabName (h : tab.Created) (hcol : col ∈ tab.cols) :
    col.tabName = tab.name := by
  obtain ⟨colDefs, hdefs, hcols⟩ := h
  rw [hcols] at hcol
  exact (mem_makeCols tab.name hdefs hcol).1

theorem TabMeta.Created.number (h : tab.Created) (hcol : col ∈ tab.cols)
    (htype : col.type ≠ .string) : col.len = 4 := by
  obtain ⟨colDefs, hdefs, hcols⟩ := h
  rw [hcols] at hcol
  exact (mem_makeCols tab.name hdefs hcol).2 htype

theorem ColMeta.size_of_number (hlen : col.len = 4) : col.size = 4 := by
  unfold ColMeta.size
  rw [hlen]
  rfl

theorem advance_eq_ok_iff {offset : Int32} {buf : List UInt8} : advance data offset = .ok buf ↔
    (0 ≤ offset.toInt ∧ offset.toInt.toNat ≤ data.length) ∧ data.drop offset.toInt.toNat = buf := by
  unfold advance
  split_ifs with h
  · have hin : 0 ≤ offset.toInt ∧ offset.toInt.toNat ≤ data.length := ⟨h.1, by omega⟩
    rw [and_iff_right hin]
    exact ⟨Except.ok.inj, congrArg _⟩
  · constructor
    · rintro ⟨⟩
    · rintro ⟨⟨h1, h2⟩, -⟩
      exact absurd ⟨h1, by omega⟩ h

theorem ColMeta.Inside.advance_eq (h : col.Inside data.length) :
    advance data col.offset = .ok (data.drop col.start) := by
  have hfits := h.fits
  exact advance_eq_ok_iff.mpr ⟨⟨h.offset, by unfold ColMeta.start at hfits; omega⟩, rfl⟩

theorem ColMeta.Inside.length_drop (h : col.Inside data.length) :
    col.size ≤ (data.drop col.start).length := by
  have hfits := h.fits
  rw [List.length_drop]
  omega

theorem ColMeta.length_slice (col : ColMeta) (data : List UInt8) :
    (col.slice data).length = col.width data.length := by
  unfold ColMeta.slice ColMeta.width
  rw [List.length_take, List.length_drop]

theorem ColMeta.Inside.length_slice (h : col.Inside data.length) :
    (col.slice data).length = col.size := by
  have := h.length_drop
  unfold ColMeta.slice
  rw [List.length_take]
  omega

/-- `get_col` on the columns of a table. -/
theorem TabMeta.Created.getCol_eq (h : tab.Created) {target : TabCol}
    (hname : tab.name = target.tabName)
    (hfind : tab.cols.find? (·.name = target.colName) = some col) :
    AbstractExecutor.getCol tab.cols target = .ok col := by
  have hsame : tab.cols.find? (fun c => c.tabName = target.tabName ∧ c.name = target.colName) =
      some col := by
    rw [← hfind]
    refine find?_congr fun c hc => ?_
    simp [h.tabName hc, hname]
  unfold AbstractExecutor.getCol
  rw [hsame]
  rfl

theorem length_of_loadWord {buf : List UInt8} {word : UInt32} (h : loadWord buf = .ok word) :
    4 ≤ buf.length := by
  unfold loadWord at h
  split at h
  · simp
  · cases h

theorem loadWord_eq {buf : List UInt8} (h : 4 ≤ buf.length) : loadWord buf = .ok (wordOf buf) := by
  match buf, h with
  | _ :: _ :: _ :: _ :: _, _ => rfl

theorem wordOf_storeWord (word : UInt32) : wordOf (storeWord word) = word := by
  have hlt := word.toNat_lt
  apply UInt32.toNat_inj.mp
  simp only [storeWord, List.range_succ, List.range_zero, wordOf, loadWord, List.nil_append,
    List.cons_append, List.map_cons, List.map_nil, pure, Except.pure, UInt8.toNat_ofNat',
    UInt32.toNat_ofNat']
  omega

end Columns

/-! ### The dictionary -/

/-- The dictionary with the values of the records of these tables. -/
def feedDict (rows : List Row) : QlM (List (TabCol × Value)) :=
  rows.foldlM (fun dict row => do return dict ++ (← rec2dict row.1.cols row.2)) []

section Dictionary

variable {tab : TabMeta} {col : ColMeta} {data : List UInt8} {row : Row} {rows : List Row}
  {dict : List (TabCol × Value)}

/-- The value of a column in the dictionary. -/
def fedValue (col : ColMeta) (data : List UInt8) : Value :=
  match col.type with
  | .int => { Value.setInt (wordOf (data.drop col.start)) with
      raw := storeWord (wordOf (data.drop col.start)) }
  | .float => { Value.setFloat (wordOf (data.drop col.start)) with
      raw := storeWord (wordOf (data.drop col.start)) }
  | .string => { Value.setStr ((col.slice data).takeWhile (· ≠ 0)) with raw := col.slice data }

/-- The key of a column. -/
def ColMeta.key (col : ColMeta) : TabCol := ⟨col.tabName, col.name⟩

theorem initRaw_of_number {val : Value} (hraw : val.raw = none) (htype : val.type ≠ .string) :
    val.initRaw 4 = .ok { val with raw := storeWord val.num } := by
  unfold Value.initRaw
  rw [if_neg (by simp [hraw]), if_neg (by decide)]
  cases ht : val.type with
  | int => rfl
  | float => rfl
  | string => exact absurd ht htype

theorem initRaw_of_string {val : Value} {len : Int32} (hraw : val.raw = none)
    (htype : val.type = .string) (hlen : val.strVal.length ≤ len.toInt) :
    val.initRaw len = .ok { val with raw := pad len.toInt.toNat val.strVal } := by
  have hshort : ¬len < Int32.ofNat val.strVal.length := by
    rw [Int32.lt_iff_toInt_lt, Int32.toInt_ofNat_of_lt (by have := len.toInt_lt; omega)]
    exact not_lt.mpr hlen
  unfold Value.initRaw
  rw [if_neg (by simp [hraw]), if_neg (by omega)]
  simp only [htype, if_neg hshort, if_neg (not_lt.mpr hlen)]
  rfl

/-- A string that `init_raw` gets into the buffer fits. -/
theorem length_le_of_initRaw {val val' : Value} {len : Int32} (htype : val.type = .string)
    (h : val.initRaw len = .ok val') : val.strVal.length ≤ len.toInt := by
  by_contra hlong
  unfold Value.initRaw at h
  simp only [htype, if_pos (not_le.mp hlong)] at h
  split_ifs at h <;> cases h

theorem length_takeWhile_le {α : Type} (p : α → Bool) (l : List α) :
    (l.takeWhile p).length ≤ l.length := (List.takeWhile_sublist p).length_le

/-- `rec2dict` makes the value of a column that can be read, and gives it its bytes back. -/
theorem colValue_initRaw (h : row.1.Created) (hv : row.Valid) (hcol : col ∈ row.1.cols)
    (hin : col.Inside row.2.length) :
    ∃ val, colValue col row.2 = .ok val ∧ val.initRaw col.len = .ok (fedValue col row.2) := by
  have hdrop := hin.length_drop
  have hslice := hin.length_slice
  unfold colValue fedValue
  rw [hin.advance_eq]
  cases htype : col.type with
  | int =>
    have hnumber := h.number hcol (by simp [htype])
    have hfour := ColMeta.size_of_number hnumber
    refine ⟨.setInt (wordOf (row.2.drop col.start)), ?_, ?_⟩
    · show (do return Value.setInt (← loadWord _)) = _
      rw [loadWord_eq (by omega)]
      rfl
    · rw [hnumber]
      exact initRaw_of_number rfl (by simp [Value.setInt])
  | float =>
    have hnumber := h.number hcol (by simp [htype])
    have hfour := ColMeta.size_of_number hnumber
    refine ⟨.setFloat (wordOf (row.2.drop col.start)), ?_, ?_⟩
    · show (do return Value.setFloat (← loadWord _)) = _
      rw [loadWord_eq (by omega)]
      rfl
    · rw [hnumber]
      exact initRaw_of_number rfl (by simp [Value.setFloat])
  | string =>
    refine ⟨.setStr ((col.slice row.2).takeWhile (· ≠ 0)), ?_, ?_⟩
    · show (if 0 ≤ col.len.toInt ∧ col.len.toInt ≤ (row.2.drop col.start).length then _ else _) = _
      rw [if_pos ⟨hin.len, by unfold ColMeta.size at hdrop; omega⟩]
      rfl
    · -- the string that `strlen` cut off is padded to the bytes of the record
      have hpad := hv.padded col hcol htype
      have hlen := hin.len
      unfold ZeroPadded at hpad
      rw [hslice] at hpad
      have hcut := length_takeWhile_le (fun b : UInt8 => decide (b ≠ 0)) (col.slice row.2)
      rw [hslice] at hcut
      unfold ColMeta.size at hcut
      rw [initRaw_of_string rfl rfl (by simp only [Value.setStr]; omega)]
      simp only [Value.setStr, Except.ok.injEq, Value.mk.injEq, true_and, Option.some.injEq]
      exact hpad.symm

/-- A column whose value `rec2dict` made could be read. -/
theorem inside_of_colValue (hnumber : col.type ≠ .string → col.len = 4) {val : Value}
    (hrun : colValue col data = .ok val) : col.Inside data.length := by
  unfold colValue at hrun
  obtain ⟨buf, hadvance, hrun⟩ := Except.bind_eq_ok_iff.mp hrun
  obtain ⟨⟨hoffset, hle⟩, rfl⟩ := advance_eq_ok_iff.mp hadvance
  have hstart : col.start = col.offset.toInt.toNat := rfl
  have hword : ∀ {word : UInt32}, loadWord (data.drop col.offset.toInt.toNat) = .ok word →
      col.offset.toInt.toNat + 4 ≤ data.length := by
    intro word hload
    have := length_of_loadWord hload
    rw [List.length_drop] at this
    omega
  cases htype : col.type with
  | int =>
    rw [htype] at hrun
    obtain ⟨word, hload, -⟩ := Except.bind_eq_ok_iff.mp hrun
    have hlen := hnumber (by simp [htype])
    exact ⟨hoffset, by rw [hlen]; decide, by rw [ColMeta.size_of_number hlen]; exact hword hload⟩
  | float =>
    rw [htype] at hrun
    obtain ⟨word, hload, -⟩ := Except.bind_eq_ok_iff.mp hrun
    have hlen := hnumber (by simp [htype])
    exact ⟨hoffset, by rw [hlen]; decide, by rw [ColMeta.size_of_number hlen]; exact hword hload⟩
  | string =>
    rw [htype] at hrun
    simp only [List.length_drop] at hrun
    split_ifs at hrun with hfits
    exact ⟨hoffset, hfits.1, by unfold ColMeta.size; omega⟩

/-- The entries that `rec2dict` makes of a record. -/
def entries (row : Row) : List (TabCol × Value) :=
  row.1.cols.map fun col => (col.key, fedValue col row.2)

/-- One round of `rec2dict`: the column can be read and its key is not there yet, or it throws. -/
theorem addCol_eq_ok (h : row.1.Created) (hv : row.Valid) (hcol : col ∈ row.1.cols)
    (hin : col.Inside row.2.length) (hnew : dict.lookup col.key = none) :
    addCol row.2 dict col = .ok (dict ++ [(col.key, fedValue col row.2)]) := by
  obtain ⟨val, hval, hraw⟩ := colValue_initRaw h hv hcol hin
  have hnew' : dict.lookup (⟨col.tabName, col.name⟩ : TabCol) = none := hnew
  unfold addCol
  simp only [hval, hnew', bind, Except.bind, Option.isSome_none, Bool.false_eq_true, if_false, hraw]
  rfl

theorem of_addCol_eq_ok (h : row.1.Created) (hcol : col ∈ row.1.cols)
    {dict' : List (TabCol × Value)} (hrun : addCol row.2 dict col = .ok dict') :
    col.Inside row.2.length ∧ dict.lookup col.key = none := by
  unfold addCol at hrun
  obtain ⟨val, hval, hrun⟩ := Except.bind_eq_ok_iff.mp hrun
  refine ⟨inside_of_colValue (h.number hcol) hval, ?_⟩
  by_contra hold
  have hold' : (dict.lookup (⟨col.tabName, col.name⟩ : TabCol)).isSome = true :=
    Option.isSome_iff_ne_none.mpr hold
  rw [if_pos hold'] at hrun
  cases hrun

theorem lookup_append_key {key : TabCol} : (dict ++ [(col.key, fedValue col data)]).lookup key =
    none ↔ dict.lookup key = none ∧ key ≠ col.key := by
  rw [List.lookup_append, Option.or_eq_none_iff, List.lookup_cons, List.lookup_nil]
  by_cases he : key = col.key
  · simp [he]
  · simp [beq_false_of_ne he, he]

/-- The loop of `rec2dict` over some of the columns. -/
theorem addCols_eq_ok (h : row.1.Created) (hv : row.Valid) {cols : List ColMeta}
    (hcols : ∀ col ∈ cols, col ∈ row.1.cols) (hin : ∀ col ∈ cols, col.Inside row.2.length)
    (hnodup : (cols.map ColMeta.key).Nodup) (hnew : ∀ col ∈ cols, dict.lookup col.key = none) :
    cols.foldlM (addCol row.2) dict =
      .ok (dict ++ cols.map fun col => (col.key, fedValue col row.2)) := by
  induction cols generalizing dict with
  | nil => simp [pure, Except.pure]
  | cons col cols ih =>
    rw [List.map_cons, List.nodup_cons] at hnodup
    rw [List.foldlM_cons, addCol_eq_ok h hv (hcols col List.mem_cons_self)
      (hin col List.mem_cons_self) (hnew col List.mem_cons_self)]
    refine (ih (fun c hc => hcols c (List.mem_cons_of_mem _ hc))
      (fun c hc => hin c (List.mem_cons_of_mem _ hc)) hnodup.2 fun c hc => ?_).trans ?_
    · refine lookup_append_key.mpr ⟨hnew c (List.mem_cons_of_mem _ hc), fun he => hnodup.1 ?_⟩
      exact List.mem_map.mpr ⟨c, hc, he⟩
    · simp

theorem of_addCols_eq_ok (h : row.1.Created) (hv : row.Valid) {cols : List ColMeta}
    (hcols : ∀ col ∈ cols, col ∈ row.1.cols) {dict' : List (TabCol × Value)}
    (hrun : cols.foldlM (addCol row.2) dict = .ok dict') :
    (∀ col ∈ cols, col.Inside row.2.length) ∧ (cols.map ColMeta.key).Nodup ∧
      ∀ col ∈ cols, dict.lookup col.key = none := by
  induction cols generalizing dict with
  | nil => simp
  | cons col cols ih =>
    rw [List.foldlM_cons] at hrun
    obtain ⟨dict₁, hfirst, hrest⟩ := Except.bind_eq_ok_iff.mp hrun
    have hcol := hcols col List.mem_cons_self
    obtain ⟨hin, hnew⟩ := of_addCol_eq_ok h hcol hfirst
    rw [addCol_eq_ok h hv hcol hin hnew] at hfirst
    obtain rfl := Except.ok.inj hfirst
    obtain ⟨hall, hnodup, hnews⟩ := ih (fun c hc => hcols c (List.mem_cons_of_mem _ hc)) hrest
    -- the columns that follow have other keys than the one just entered
    refine ⟨List.forall_mem_cons.mpr ⟨hin, hall⟩, ?_, List.forall_mem_cons.mpr ⟨hnew, fun c hc =>
      (lookup_append_key.mp (hnews c hc)).1⟩⟩
    rw [List.map_cons, List.nodup_cons]
    refine ⟨fun hmem => ?_, hnodup⟩
    obtain ⟨c, hc, he⟩ := List.mem_map.mp hmem
    exact (lookup_append_key.mp (hnews c hc)).2 he

theorem nodup_key_iff (h : tab.Created) :
    (tab.cols.map ColMeta.key).Nodup ↔ (tab.cols.map ColMeta.name).Nodup := by
  have hkey : tab.cols.map ColMeta.key = (tab.cols.map ColMeta.name).map (TabCol.mk tab.name) := by
    rw [List.map_map]
    refine List.map_congr_left fun col hcol => ?_
    simp [ColMeta.key, h.tabName hcol]
  rw [hkey]
  exact List.nodup_map_iff fun a b hab => (TabCol.mk.inj hab).2

/-- **`rec2dict`** on a table whose columns can be read and have different names. -/
theorem rec2dict_eq_ok (h : row.1.Created) (hv : row.Valid) (hfeed : row.1.Feedable) :
    rec2dict row.1.cols row.2 = .ok (entries row) :=
  addCols_eq_ok h hv (fun _ hc => hc) (fun col hc => hv.length.symm ▸ hfeed.inside col hc)
    ((nodup_key_iff h).mpr hfeed.names) fun _ _ => rfl

/-- It gets through the records of no other tables. -/
theorem feedable_of_rec2dict (h : row.1.Created) (hv : row.Valid)
    (hrun : rec2dict row.1.cols row.2 = .ok dict) : row.1.Feedable := by
  obtain ⟨hin, hnodup, -⟩ := of_addCols_eq_ok h hv (fun _ hc => hc) hrun
  exact ⟨(nodup_key_iff h).mp hnodup, fun col hc => hv.length ▸ hin col hc⟩

/-- The dictionary of the records of several tables. -/
theorem feedDict_eq_ok (h : ∀ row ∈ rows, row.1.Created ∧ row.Valid ∧ row.1.Feedable) :
    feedDict rows = .ok (rows.flatMap entries) := by
  have hloop : ∀ dict : List (TabCol × Value),
      rows.foldlM (fun dict row => do return dict ++ (← rec2dict row.1.cols row.2)) dict =
        (.ok (dict ++ rows.flatMap entries) : QlM _) := by
    induction rows with
    | nil => simp [pure, Except.pure]
    | cons row rows ih =>
      intro dict
      obtain ⟨hcreated, hvalid, hfeed⟩ := h row (by simp)
      rw [List.foldlM_cons, rec2dict_eq_ok hcreated hvalid hfeed]
      refine (ih (fun r hr => h r (by simp [hr])) (dict ++ entries row)).trans ?_
      simp
  exact hloop []

theorem feedable_of_feedDict (h : ∀ row ∈ rows, row.1.Created ∧ row.Valid)
    (hrun : feedDict rows = .ok dict) : ∀ row ∈ rows, row.1.Feedable := by
  have hloop : ∀ dict₀ : List (TabCol × Value),
      rows.foldlM (fun dict row => do return dict ++ (← rec2dict row.1.cols row.2)) dict₀ =
        (.ok dict : QlM _) → ∀ row ∈ rows, row.1.Feedable := by
    clear hrun
    induction rows with
    | nil => simp
    | cons row rows ih =>
      intro dict₀ hrun
      obtain ⟨hcreated, hvalid⟩ := h row List.mem_cons_self
      rw [List.foldlM_cons] at hrun
      obtain ⟨dict₁, hfirst, hrest⟩ := Except.bind_eq_ok_iff.mp hrun
      obtain ⟨dict₂, hrec, -⟩ := Except.bind_eq_ok_iff.mp hfirst
      exact List.forall_mem_cons.mpr ⟨feedable_of_rec2dict hcreated hvalid hrec,
        ih (fun r hr => h r (List.mem_cons_of_mem _ hr)) dict₁ hrest⟩
  exact hloop [] hrun

/-- The dictionary has the values of the columns. -/
theorem lookup_entries (h : row.1.Created) {target : TabCol} :
    (entries row).lookup target =
      if row.1.name = target.tabName
      then (row.1.cols.find? (·.name = target.colName)).map (fedValue · row.2) else none := by
  unfold entries
  have hkeys : ∀ col ∈ row.1.cols, col.tabName = row.1.name := fun _ => h.tabName
  generalize row.1.cols = cols at hkeys ⊢
  induction cols with
  | nil => simp
  | cons col cols ih =>
    have htab := hkeys col (by simp)
    rw [List.map_cons, List.lookup_cons, ih fun c hc => hkeys c (by simp [hc]), List.find?_cons]
    by_cases hkey : target = col.key
    · simp [hkey, ColMeta.key, htab]
    · rw [beq_false_of_ne hkey]
      by_cases hname : row.1.name = target.tabName
      · have hcol : col.name ≠ target.colName := by
          intro hcol
          apply hkey
          cases target
          simp_all [ColMeta.key]
        simp [hname, hcol]
      · simp [hname]

theorem lookup_flatMap_entries (hcreated : ∀ row ∈ rows, row.1.Created) {target : TabCol}
    (hrow : rows.find? (·.1.name = target.tabName) = some row)
    (hcol : row.1.cols.find? (·.name = target.colName) = some col) :
    (rows.flatMap entries).lookup target = some (fedValue col row.2) := by
  induction rows with
  | nil => cases hrow
  | cons row' rows ih =>
    rw [List.flatMap_cons, List.lookup_append, lookup_entries (hcreated row' (by simp))]
    rw [List.find?_cons] at hrow
    by_cases hname : row'.1.name = target.tabName
    · simp only [hname, decide_true] at hrow
      obtain rfl := Option.some.inj hrow
      simp [hname, hcol]
    · simp only [hname, decide_false] at hrow
      simp only [hname, if_false, Option.none_or]
      exact ih (fun r hr => hcreated r (by simp [hr])) hrow

end Dictionary

end Rucbase
