import Rucbase.Execution.Equiv.WhereClause
import Rucbase.Lib.StateExcept

/-!
# Predicate push-down

The conditions of a where clause are handed out to the tables, each scan turns its conditions so
that the left side is its own column, and columns of tables before it are replaced by their values.
`PushedDown` says that this keeps the meaning of the where clause for one choice of records.

Strings of different declared lengths go wrong: `eval_cond` compares as many bytes as the left
column has, so a longer right side is cut off and beyond a shorter one other bytes are read.
`pushedDown_iff` is the exact condition.
-/

namespace Rucbase

open ByteString SeqScanExecutor AbstractExecutor

/-! ### What the code does -/

/-- The scan of table `i`: construct it with its conditions, feed it the records of the tables
before it, and evaluate its conditions on its record. -/
def scan (rows : List Row) (conds : List Condition) (i : Nat) : QlM Bool := do
  match rows[i]? with
  | some (tab, data) =>
    let executor ← SeqScanExecutor.new tab
      ((assignConds (rows.map (·.1.name)) conds).1.getD i [])
    let executor ← executor.feed (← feedDict (rows.take i))
    evalConds executor.cols executor.fedConds data
  | none => throw .outOfRange

/-- Push-down keeps the meaning of the where clause: every condition is assigned exactly once, no
assertion fails, and the scans accept the records exactly when every condition is true of them. -/
structure PushedDown (rows : List Row) (conds : List Condition) : Prop where
  none_left : (assignConds (rows.map (·.1.name)) conds).2 = []
  each_once : (assignConds (rows.map (·.1.name)) conds).1.flatten.Perm conds
  ends : ∀ i < rows.length, ∃ accepted, scan rows conds i = .ok accepted
  meaning : (∀ i < rows.length, scan rows conds i = .ok true) ↔ ∀ cond ∈ conds, cond.holds rows

/-! ### Handing out the conditions -/

section Assign

variable {tabNames : List String} {conds : List Condition}

theorem solvedBy_mono {names names' : List String} (h : names ⊆ names') {cond : Condition}
    (hs : cond.solvedBy names = true) : cond.solvedBy names' = true := by
  unfold Condition.solvedBy at hs ⊢
  simp only [Bool.and_eq_true, Bool.or_eq_true, List.contains_iff_mem] at hs ⊢
  exact ⟨h hs.1, hs.2.imp id (@h _)⟩

/-- The conditions that table `i` is the first to solve. -/
def assigned (tabNames : List String) (conds : List Condition) (i : Nat) : List Condition :=
  conds.filter fun cond => cond.solvedBy (tabNames.take (i + 1)) && !cond.solvedBy (tabNames.take i)

/-- After `k` tables the conditions that they solve are gone. -/
theorem assignConds_loop (tabNames : List String) (conds : List Condition) (k : Nat) :
    (List.range k).foldl
      (fun state i =>
        let (currConds, conds) := popConds state.2 (tabNames.take (i + 1))
        (state.1 ++ [currConds], conds))
      (([] : List (List Condition)), conds) =
    ((List.range k).map (assigned tabNames conds),
      conds.filter fun cond => !cond.solvedBy (tabNames.take k)) := by
  induction k with
  | zero => simp [Condition.solvedBy]
  | succ k ih =>
    rw [List.range_succ, List.foldl_append, ih]
    simp only [popConds, List.partition_eq_filter_filter, List.foldl_cons, List.foldl_nil,
      List.map_append, List.map_cons, List.map_nil, List.filter_filter, assigned]
    refine Prod.ext rfl (List.filter_congr fun cond _ => ?_)
    -- what is not solved by one more table is not solved by these
    have hmono : cond.solvedBy (tabNames.take k) = true →
        cond.solvedBy (tabNames.take (k + 1)) = true :=
      solvedBy_mono (List.take_subset_take_left _ (by omega))
    cases h : cond.solvedBy (tabNames.take k) <;> simp_all

theorem assignConds_eq : assignConds tabNames conds =
    ((List.range tabNames.length).map (assigned tabNames conds),
      conds.filter fun cond => !cond.solvedBy tabNames) := by
  have h := assignConds_loop tabNames conds tabNames.length
  rw [List.take_length] at h
  exact h

/-- The conditions of the first `k` tables and those that are left are all the conditions. -/
theorem assigned_perm (tabNames : List String) (conds : List Condition) (k : Nat) :
    (((List.range k).map (assigned tabNames conds)).flatten ++
      conds.filter fun cond => !cond.solvedBy (tabNames.take k)).Perm conds := by
  induction k with
  | zero => simp [Condition.solvedBy]
  | succ k ih =>
    have hleft : (conds.filter fun cond => !cond.solvedBy (tabNames.take (k + 1))) =
        (conds.filter fun cond => !cond.solvedBy (tabNames.take k)).filter
          fun cond => !cond.solvedBy (tabNames.take (k + 1)) := by
      rw [List.filter_filter]
      refine List.filter_congr fun cond _ => ?_
      have hmono : cond.solvedBy (tabNames.take k) = true →
          cond.solvedBy (tabNames.take (k + 1)) = true :=
        solvedBy_mono (List.take_subset_take_left _ (by omega))
      cases h : cond.solvedBy (tabNames.take k) <;> simp_all
    have hcurr : assigned tabNames conds k =
        (conds.filter fun cond => !cond.solvedBy (tabNames.take k)).filter
          fun cond => cond.solvedBy (tabNames.take (k + 1)) := by
      rw [List.filter_filter]
      rfl
    rw [List.range_succ, List.map_append, List.flatten_append, List.append_assoc, hleft]
    simp only [List.map_cons, List.map_nil, List.flatten_cons, List.flatten_nil, List.append_nil]
    rw [hcurr]
    refine ((List.Perm.append_left _ ?_).trans ih)
    exact List.filter_append_perm _ _

end Assign

/-! ### Loops that do not throw -/

theorem evalConds_map_eq_ok {cols : List ColMeta} {data : List UInt8} {f : Condition → Condition}
    {g : Condition → Bool} {conds : List Condition}
    (h : ∀ cond ∈ conds, evalCond cols (f cond) data = .ok (g cond)) :
    evalConds cols (conds.map f) data = .ok (conds.all g) := by
  induction conds with
  | nil => rfl
  | cons cond conds ih =>
    rw [List.map_cons]
    unfold evalConds
    rw [h cond (by simp), ih fun c hc => h c (by simp [hc])]
    cases hg : g cond with
    | false => simp [hg, bind, Except.bind, pure, Except.pure]
    | true => simp [hg, bind, Except.bind]

/-! ### Turning a condition round -/

section Turn

theorem threeWay_swap {lt gt : Bool} (h : ¬(lt = true ∧ gt = true)) :
    threeWay gt lt = -threeWay lt gt := by
  unfold threeWay
  cases lt <;> cases gt <;> simp_all

theorem compareInt_swap (a b : UInt32) : compareInt b a = -compareInt a b := by
  refine threeWay_swap fun h => ?_
  simp only [decide_eq_true_eq] at h
  exact absurd h.2 (Int32.lt_asymm h.1)

theorem compareFloat_swap (a b : UInt32) : compareFloat b a = -compareFloat a b := by
  refine threeWay_swap fun h => ?_
  simp only [floatLt, Bool.and_eq_true, decide_eq_true_eq] at h
  omega

theorem Datum.compare_swap (x y : Datum) : y.compare x = -x.compare y := by
  cases x with
  | int a => cases y <;> simp [Datum.compare, compareInt_swap a]
  | float a => cases y <;> simp [Datum.compare, compareFloat_swap a]
  | string a => cases y <;> simp [Datum.compare, padCompare_swap a]

theorem CompOp.swap_test (op : CompOp) (cmp : Int) : op.swap.test (-cmp) = op.test cmp := by
  cases op <;> simp [CompOp.swap, CompOp.test]

/-- Turning a condition round does not change its meaning. -/
theorem Condition.holds_turned {cond : Condition} (hval : cond.isRhsVal = false) (tabName : String)
    (rows : List Row) : (cond.turned tabName).holds rows = cond.holds rows := by
  unfold Condition.turned
  split_ifs
  · rfl
  · unfold Condition.holds
    simp only [hval, Bool.false_eq_true, if_false]
    cases field rows cond.lhsCol with
    | none => cases field rows cond.rhsCol <;> rfl
    | some x =>
      cases field rows cond.rhsCol with
      | none => rfl
      | some y => simp only [x.compare_swap y, CompOp.swap_test]

end Turn

/-! ### Evaluating one condition -/

section Eval

variable {tab : TabMeta} {lhs rhs : ColMeta} {data data' buf : List UInt8} {cond : Condition}

/-- What `ix_compare` finds when both sides have bytes enough. -/
def compareBuf (lhs : ColMeta) (data buf : List UInt8) : Int :=
  match lhs.type with
  | .int => compareInt (wordOf (data.drop lhs.start)) (wordOf buf)
  | .float => compareFloat (wordOf (data.drop lhs.start)) (wordOf buf)
  | .string => memcmp (lhs.slice data) buf lhs.size

theorem loadWord_eq_error {buf : List UInt8} (h : ¬4 ≤ buf.length) :
    loadWord buf = .error .outOfBounds := by
  unfold loadWord
  split
  · exact absurd (by simp) h
  · rfl

theorem loadWords_eq (f : UInt32 → UInt32 → Int) (a b : List UInt8) :
    (do return f (← loadWord a) (← loadWord b) : QlM Int) =
      if 4 ≤ a.length ∧ 4 ≤ b.length then .ok (f (wordOf a) (wordOf b))
      else .error .outOfBounds := by
  by_cases ha : 4 ≤ a.length
  · by_cases hb : 4 ≤ b.length
    · rw [loadWord_eq ha, loadWord_eq hb, if_pos ⟨ha, hb⟩]
      rfl
    · rw [loadWord_eq ha, loadWord_eq_error hb, if_neg fun h => hb h.2]
      rfl
  · rw [loadWord_eq_error ha, if_neg fun h => ha h.1]
    rfl

theorem advance_eq_error {offset : Int32}
    (h : ¬(0 ≤ offset.toInt ∧ offset.toInt.toNat ≤ data.length)) :
    advance data offset = .error .outOfBounds := by
  unfold advance
  exact if_neg fun hall => h ⟨hall.1, by omega⟩

/-- **`ix_compare`** on a column and a buffer. -/
theorem ixCompareBytes_eq (data : List UInt8) (hnumber : lhs.type ≠ .string → lhs.len = 4)
    (buf : List UInt8) :
    (do ixCompareBytes (← advance data lhs.offset) buf lhs.type lhs.len) =
      if lhs.Inside data.length ∧ lhs.size ≤ buf.length then .ok (compareBuf lhs data buf)
      else .error .outOfBounds := by
  by_cases hoffset : 0 ≤ lhs.offset.toInt ∧ lhs.offset.toInt.toNat ≤ data.length
  · rw [advance_eq_ok_iff.mpr ⟨hoffset, rfl⟩]
    change ixCompareBytes (data.drop lhs.start) buf lhs.type lhs.len = _
    have hstart : lhs.start ≤ data.length := hoffset.2
    have hdrop : (data.drop lhs.start).length = data.length - lhs.start := List.length_drop
    -- a number is four bytes long
    have hword : lhs.type ≠ .string → (lhs.Inside data.length ∧ lhs.size ≤ buf.length ↔
        4 ≤ (data.drop lhs.start).length ∧ 4 ≤ buf.length) := by
      intro htype
      have hsize := ColMeta.size_of_number (hnumber htype)
      constructor
      · rintro ⟨hin, hbuf⟩
        have := hin.fits
        omega
      · rintro ⟨h1, h2⟩
        exact ⟨⟨hoffset.1, by rw [hnumber htype]; decide, by omega⟩, by omega⟩
    unfold ixCompareBytes compareBuf
    cases htype : lhs.type with
    | int => simp only [loadWords_eq, hword (by simp [htype])]
    | float => simp only [loadWords_eq, hword (by simp [htype])]
    | string =>
      simp only
      by_cases hall : lhs.Inside data.length ∧ lhs.size ≤ buf.length
      · have hfits := hall.1.fits
        have hbuf := hall.2
        have hlen := hall.1.len
        unfold ColMeta.size at hfits hbuf
        rw [if_pos ⟨hlen, by omega, by omega⟩, if_pos hall, ColMeta.slice, take_memcmp]
        rfl
      · rw [if_neg hall, if_neg]
        · rfl
        · rintro ⟨h1, h2, h3⟩
          refine hall ⟨⟨hoffset.1, h1, ?_⟩, ?_⟩
          · unfold ColMeta.size
            omega
          · unfold ColMeta.size
            omega
  · rw [advance_eq_error hoffset, if_neg]
    · rfl
    · rintro ⟨hin, -⟩
      have hfits := hin.fits
      unfold ColMeta.start at hfits
      exact hoffset ⟨hin.offset, by omega⟩

/-- `eval_cond` once its right side is a buffer. -/
theorem evalCond_of_val (h : tab.Created) (hlhs : lhs ∈ tab.cols)
    (hget : getCol tab.cols cond.lhsCol = .ok lhs) (hval : cond.isRhsVal = true)
    (hraw : cond.rhsVal.raw = some buf) (htype : cond.rhsVal.type = lhs.type) :
    evalCond tab.cols cond data =
      if lhs.Inside data.length ∧ lhs.size ≤ buf.length
      then .ok (cond.op.test (compareBuf lhs data buf)) else .error .outOfBounds := by
  have hcompare := ixCompareBytes_eq data (h.number hlhs) buf
  unfold evalCond
  simp only [hget, hval, if_true, hraw, htype, bind, Except.bind, pure, Except.pure, ne_eq,
    not_true_eq_false, if_false] at hcompare ⊢
  cases hadvance : advance data lhs.offset with
  | error e =>
    have hnot : ¬lhs.Inside data.length := fun hin => by
      rw [hin.advance_eq] at hadvance
      cases hadvance
    rw [hadvance, if_neg fun hall => hnot hall.1] at hcompare
    rw [if_neg fun hall => hnot hall.1]
    exact congrArg _ (Except.error.inj hcompare)
  | ok a =>
    rw [hadvance] at hcompare
    simp only at hcompare ⊢
    rw [hcompare]
    split_ifs <;> rfl

theorem evalCond_of_col (h : tab.Created) (hlhs : lhs ∈ tab.cols)
    (hget : getCol tab.cols cond.lhsCol = .ok lhs) (hval : cond.isRhsVal = false)
    (hget' : getCol tab.cols cond.rhsCol = .ok rhs) (htype : rhs.type = lhs.type) :
    evalCond tab.cols cond data =
      if lhs.Inside data.length ∧ 0 ≤ rhs.offset.toInt ∧ rhs.start + lhs.size ≤ data.length
      then .ok (cond.op.test (compareBuf lhs data (data.drop rhs.start)))
      else .error .outOfBounds := by
  have hcompare := ixCompareBytes_eq data (h.number hlhs) (data.drop rhs.start)
  rw [List.length_drop] at hcompare
  unfold evalCond
  simp only [hget, hval, Bool.false_eq_true, if_false, hget', htype, bind, Except.bind, pure,
    Except.pure, ne_eq, not_true_eq_false] at hcompare ⊢
  cases hadvance : advance data lhs.offset with
  | error e =>
    have hnot : ¬lhs.Inside data.length := fun hin => by
      rw [hin.advance_eq] at hadvance
      cases hadvance
    rw [hadvance, if_neg fun hall => hnot hall.1] at hcompare
    rw [if_neg fun hall => hnot hall.1]
    exact congrArg _ (Except.error.inj hcompare)
  | ok a =>
    rw [hadvance] at hcompare
    simp only at hcompare ⊢
    by_cases hoffset : 0 ≤ rhs.offset.toInt ∧ rhs.start ≤ data.length
    · have hiff : lhs.Inside data.length ∧ lhs.size ≤ data.length - rhs.start ↔
          lhs.Inside data.length ∧ 0 ≤ rhs.offset.toInt ∧
            rhs.start + lhs.size ≤ data.length :=
        and_congr_right fun _ => ⟨fun hle => ⟨hoffset.1, by omega⟩, fun hle => by omega⟩
      have hdrop : data.drop rhs.offset.toInt.toNat = data.drop rhs.start := rfl
      simp only [advance_eq_ok_iff.mpr ⟨hoffset, hdrop⟩, hcompare, hiff]
      split_ifs <;> rfl
    · rw [advance_eq_error hoffset, if_neg fun hall => hoffset ⟨hall.2.1, by omega⟩]

/-- A buffer that starts with the bytes of a column. -/
def Carries (buf : List UInt8) (rhs : ColMeta) (data : List UInt8) : Prop :=
  if rhs.type = .string then rhs.slice data <+: buf else wordOf buf = wordOf (data.drop rhs.start)

/-- **Comparing with a buffer** gives the order of the data. -/
theorem test_compareBuf (hin : lhs.Inside data.length) (hbuf : lhs.size ≤ buf.length)
    (htype : rhs.type = lhs.type) (hcarries : Carries buf rhs data') {op : CompOp}
    (hagree : lhs.type = .string → Condition.LensAgree op lhs.size (rhs.slice data').length
      (buf = data.drop lhs.start ∧ rhs.slice data' = (lhs.slice data).take rhs.size)) :
    op.test (compareBuf lhs data buf) = op.test ((lhs.datum data).compare (rhs.datum data')) := by
  unfold Carries at hcarries
  by_cases hstring : lhs.type = .string
  · have hlen := hin.length_slice
    rw [if_pos (htype.trans hstring)] at hcarries
    obtain ⟨rest, rfl⟩ := hcarries
    have hcompare : (lhs.datum data).compare (rhs.datum data') =
        padCompare (lhs.slice data) (rhs.slice data') := by
      simp [ColMeta.datum, Datum.make, htype, hstring, Datum.compare]
    have hcode : compareBuf lhs data (rhs.slice data' ++ rest) =
        memcmp (lhs.slice data) (rhs.slice data' ++ rest) lhs.size := by
      unfold compareBuf
      rw [hstring]
    rw [hcompare, hcode]
    -- equal lengths; or a shorter left side, and an operator that does not ask for equality
    rcases hagree hstring with heq | ⟨hlt, hop⟩ | ⟨-, ⟨hsame, htake⟩, hop⟩
    · rw [padCompare_of_length_eq (by omega), hlen, heq, ← memcmp_take, List.take_left]
    · -- the bytes that are compared are the first bytes of both
      have hfirst : memcmp (lhs.slice data) (rhs.slice data' ++ rest) lhs.size =
          memcmp (lhs.slice data) (rhs.slice data') lhs.size := by
        rw [← memcmp_take, List.take_append_of_le_length hlt.le, memcmp_take]
      have hshort := memcmp_short (show (lhs.slice data).length ≤ (rhs.slice data').length by omega)
      rw [hlen] at hshort
      rw [hfirst]
      simp only [List.mem_cons, List.not_mem_nil, or_false] at hop
      rcases hop with rfl | rfl
      · simp [CompOp.test, hshort]
      · have : memcmp (lhs.slice data) (rhs.slice data') lhs.size ≤ 0 ↔
            padCompare (lhs.slice data) (rhs.slice data') ≤ 0 := by omega
        simp [CompOp.test, this]
    · -- the column is compared with itself
      have hself : memcmp (lhs.slice data) (data.drop lhs.start) lhs.size = 0 := by
        unfold ColMeta.slice
        rw [take_memcmp, memcmp_self]
      have hnonneg := padCompare_take_nonneg (lhs.slice data) rhs.size
      rw [hsame, hself, htake]
      simp only [List.mem_cons, List.not_mem_nil, or_false] at hop
      rcases hop with rfl | rfl
      · simp [CompOp.test, hnonneg]
      · simp [CompOp.test, hnonneg]
  · rw [if_neg (by rwa [htype])] at hcarries
    unfold compareBuf ColMeta.datum
    rw [hcarries, htype]
    cases ht : lhs.type with
    | int => rfl
    | float => rfl
    | string => exact absurd ht hstring

end Eval

/-! ### The conditions of one table -/

section Table

variable {rows : List Row} {row row' : Row} {i : Nat} {cond : Condition} {tab : TabMeta}
  {col : ColMeta} {target : TabCol}

/-- Tables with different names, and a record of each. -/
structure Rows (rows : List Row) : Prop where
  names : (rows.map (·.1.name)).Nodup
  created : ∀ row ∈ rows, row.1.Created
  valid : ∀ row ∈ rows, row.Valid

theorem Rows.find?_eq (h : Rows rows) (hrow : rows[i]? = some row) :
    rows.find? (·.1.name = row.1.name) = some row := by
  have hmem : row ∈ rows := List.mem_of_getElem? hrow
  cases hfind : rows.find? (·.1.name = row.1.name) with
  | none => simpa using List.find?_eq_none.mp hfind row hmem
  | some row' =>
    have hname : row'.1.name = row.1.name := by simpa using List.find?_some hfind
    rw [List.inj_on_of_nodup_map h.names (List.mem_of_find?_eq_some hfind) hmem hname]

/-- A column name is the name of a column of a row. -/
theorem findTabCol_eq_some (h : findTabCol (rows.map Prod.fst) target = some (tab, col)) :
    ∃ row, rows.find? (·.1.name = target.tabName) = some row ∧ row.1 = tab ∧
      tab.cols.find? (·.name = target.colName) = some col := by
  unfold findTabCol at h
  obtain ⟨tab', htab, h⟩ := Option.bind_eq_some_iff.mp h
  obtain ⟨col', hcol, h⟩ := Option.bind_eq_some_iff.mp h
  obtain ⟨rfl, rfl⟩ := Prod.mk.inj (Option.some.inj h)
  rw [List.find?_map] at htab
  obtain ⟨row, hrow, rfl⟩ := Option.map_eq_some_iff.mp htab
  exact ⟨row, hrow, rfl, hcol⟩

theorem field_eq (hrow : rows.find? (·.1.name = target.tabName) = some row)
    (hcol : row.1.cols.find? (·.name = target.colName) = some col) :
    field rows target = some (col.datum row.2) := by
  unfold field
  rw [hrow]
  simp [hcol]

/-- The first tables know a name that is one of theirs. -/
theorem find?_take (hmem : target.tabName ∈ (rows.map (·.1.name)).take i) :
    (rows.take i).find? (·.1.name = target.tabName) = rows.find? (·.1.name = target.tabName) := by
  rw [← List.map_take] at hmem
  obtain ⟨row, hrow, hname⟩ := List.mem_map.mp hmem
  conv_rhs => rw [← List.take_append_drop i rows, List.find?_append]
  cases hfind : (rows.take i).find? (·.1.name = target.tabName) with
  | some row' => rfl
  | none => simpa [hname] using List.find?_eq_none.mp hfind row hrow

/-- Which tables the conditions of table `i` are about. -/
theorem mem_assigned (hi : (rows.map (·.1.name))[i]? = some tab.name) {conds : List Condition}
    (hcond : cond ∈ assigned (rows.map (·.1.name)) conds i) :
    cond.lhsCol.tabName = tab.name ∧ (cond.isRhsVal = true ∨ cond.rhsCol.tabName = tab.name ∨
        cond.rhsCol.tabName ∈ (rows.map (·.1.name)).take i) ∨
      cond.isRhsVal = false ∧ cond.rhsCol.tabName = tab.name ∧
        cond.lhsCol.tabName ∈ (rows.map (·.1.name)).take i := by
  have htake : ∀ name, name ∈ (rows.map (·.1.name)).take (i + 1) ↔
      name ∈ (rows.map (·.1.name)).take i ∨ name = tab.name := by
    intro name
    rw [List.take_add_one, hi]
    simp
  unfold assigned Condition.solvedBy at hcond
  simp only [List.mem_filter, Bool.and_eq_true, Bool.or_eq_true, Bool.not_eq_true',
    List.contains_iff_mem, Bool.and_eq_false_iff, Bool.or_eq_false_iff, htake] at hcond
  simp only [← Bool.not_eq_true, List.contains_iff_mem] at hcond ⊢
  tauto

/-- The condition of a table after the constructor and `feed`. -/
def fedCond (dict : List (TabCol × Value)) (tabName : String) (cond : Condition) : Condition :=
  match cond.isRhsVal || (cond.turned tabName).rhsCol.tabName = tabName,
      dict.lookup (cond.turned tabName).rhsCol with
  | false, some rhsVal => { cond.turned tabName with isRhsVal := true, rhsVal }
  | _, _ => cond.turned tabName

@[simp]
theorem turned_isRhsVal (cond : Condition) (tabName : String) :
    (cond.turned tabName).isRhsVal = cond.isRhsVal := by
  unfold Condition.turned
  split_ifs <;> rfl

/-- The two sides of a condition of table `i`, turned: its own column, and a literal, a column of
its own or a column of a table before it. -/
theorem turned_of_assigned (hi : (rows.map (·.1.name))[i]? = some tab.name) {conds : List Condition}
    (hcond : cond ∈ assigned (rows.map (·.1.name)) conds i) :
    (cond.turned tab.name).lhsCol.tabName = tab.name ∧
      (cond.isRhsVal = true ∨ (cond.turned tab.name).rhsCol.tabName = tab.name ∨
        (cond.turned tab.name).rhsCol.tabName ∈ (rows.map (·.1.name)).take i) := by
  unfold Condition.turned
  rcases mem_assigned hi hcond with ⟨hl, hr⟩ | ⟨-, hr, hl⟩
  · rw [if_pos hl]
    exact ⟨hl, hr⟩
  · split_ifs with he
    · exact ⟨he, .inr (.inl hr)⟩
    · exact ⟨hr, .inr (.inr hl)⟩

/-- The constructor's assertion holds. -/
theorem orient_eq_ok (hi : (rows.map (·.1.name))[i]? = some tab.name) {conds : List Condition}
    (hcond : cond ∈ assigned (rows.map (·.1.name)) conds i) :
    orient tab.name cond = .ok (cond.turned tab.name) := by
  unfold orient Condition.turned
  by_cases hl : cond.lhsCol.tabName = tab.name
  · rw [if_neg (not_not.mpr hl), if_pos hl]
    rfl
  · rcases mem_assigned hi hcond with ⟨hl', -⟩ | ⟨hval, hr, -⟩
    · exact absurd hl' hl
    · rw [if_pos hl, if_neg hl, if_pos ⟨by simp [hval], hr⟩]
      rfl

/-- `Checked` for the turned condition. -/
theorem Condition.Checked.turned {tables : List TabMeta} (h : cond.Checked tables)
    (hval : cond.isRhsVal = false) (tabName : String) :
    ∃ tab col tab' col', findTabCol tables (cond.turned tabName).lhsCol = some (tab, col) ∧
      findTabCol tables (cond.turned tabName).rhsCol = some (tab', col') ∧
        col'.type = col.type := by
  obtain ⟨tab, col, hl, h⟩ := h
  simp only [hval, Bool.false_eq_true, if_false] at h
  obtain ⟨tab', col', hr, htype⟩ := h
  unfold Condition.turned
  split_ifs
  · exact ⟨tab, col, tab', col', hl, hr, htype⟩
  · exact ⟨tab', col', tab, col, hr, hl, htype.symm⟩

/-- `feed` finds the value of every column of an earlier table. -/
theorem feedCond_eq_ok (h : Rows rows) (hi : (rows.map (·.1.name))[i]? = some tab.name)
    {conds : List Condition} (hcond : cond ∈ assigned (rows.map (·.1.name)) conds i)
    (hchecked : cond.Checked (rows.map Prod.fst)) :
    feedCond tab.name ((rows.take i).flatMap entries) (cond.turned tab.name) =
      .ok (fedCond ((rows.take i).flatMap entries) tab.name cond) := by
  obtain ⟨hl, hr⟩ := turned_of_assigned hi hcond
  unfold feedCond fedCond
  rw [turned_isRhsVal]
  cases hval : cond.isRhsVal with
  | true => simp [pure, Except.pure]
  | false =>
    by_cases hown : (cond.turned tab.name).rhsCol.tabName = tab.name
    · simp [hown, pure, Except.pure]
    · have hmem : (cond.turned tab.name).rhsCol.tabName ∈ (rows.map (·.1.name)).take i := by
        rcases hr with hr | hr | hr
        · rw [hval] at hr
          cases hr
        · exact absurd hr hown
        · exact hr
      obtain ⟨-, -, tab', col', -, hfind, -⟩ := hchecked.turned hval tab.name
      obtain ⟨row', hrow', rfl, hcol'⟩ := findTabCol_eq_some hfind
      rw [← find?_take hmem] at hrow'
      have hlookup := lookup_flatMap_entries
        (fun r hr => h.created r (List.mem_of_mem_take hr)) hrow' hcol'
      simp [hown, hlookup, pure, Except.pure]

/-- `check_runtime_conds` holds of a fed condition. -/
theorem fedCond_runtime (h : Rows rows) (hi : (rows.map (·.1.name))[i]? = some tab.name)
    {conds : List Condition} (hcond : cond ∈ assigned (rows.map (·.1.name)) conds i)
    (hchecked : cond.Checked (rows.map Prod.fst)) :
    (fedCond ((rows.take i).flatMap entries) tab.name cond).lhsCol.tabName = tab.name ∧
      ((fedCond ((rows.take i).flatMap entries) tab.name cond).isRhsVal = true ∨
        (fedCond ((rows.take i).flatMap entries) tab.name cond).rhsCol.tabName = tab.name) := by
  have hfeed := feedCond_eq_ok h hi hcond hchecked
  obtain ⟨hl, -⟩ := turned_of_assigned hi hcond
  unfold feedCond at hfeed
  split_ifs at hfeed with hforeign
  · split at hfeed
    · obtain hfed := Except.ok.inj hfeed
      rw [← hfed]
      exact ⟨hl, .inl rfl⟩
    · cases hfeed
  · obtain hfed := Except.ok.inj hfeed
    rw [← hfed]
    refine ⟨hl, ?_⟩
    by_contra hn
    simp only [not_or] at hn
    exact hforeign ⟨by simpa using hn.1, hn.2⟩

/-- **The scan of table `i`** evaluates its fed conditions. -/
theorem scan_eq (h : Rows rows) (hrow : rows[i]? = some row)
    (hfeed : ∀ row ∈ rows.take i, row.1.Feedable) {conds : List Condition}
    (hchecked : ∀ cond ∈ conds, cond.Checked (rows.map Prod.fst)) :
    scan rows conds i = evalConds row.1.cols
      ((assigned (rows.map (·.1.name)) conds i).map
        (fedCond ((rows.take i).flatMap entries) row.1.name)) row.2 := by
  have hi : (rows.map (·.1.name))[i]? = some row.1.name := by rw [List.getElem?_map, hrow]; rfl
  have hlt : i < rows.length := (List.getElem?_eq_some_iff.mp hrow).1
  have hconds : (assignConds (rows.map (·.1.name)) conds).1.getD i [] =
      assigned (rows.map (·.1.name)) conds i := by
    rw [assignConds_eq]
    simp [hlt]
  have hcheck : ∀ cond ∈ assigned (rows.map (·.1.name)) conds i,
      cond.Checked (rows.map Prod.fst) := fun cond hc => hchecked cond (List.mem_of_mem_filter hc)
  -- none of the steps before the first tuple can fail
  have horient : (assigned (rows.map (·.1.name)) conds i).mapM (orient row.1.name) =
      .ok ((assigned (rows.map (·.1.name)) conds i).map (·.turned row.1.name)) :=
    Except.mapM_eq_ok fun cond hc => orient_eq_ok hi hc
  have hdict : feedDict (rows.take i) = .ok ((rows.take i).flatMap entries) :=
    feedDict_eq_ok fun r hr =>
      ⟨h.created r (List.mem_of_mem_take hr), h.valid r (List.mem_of_mem_take hr), hfeed r hr⟩
  have hfed : ((assigned (rows.map (·.1.name)) conds i).map (·.turned row.1.name)).mapM
      (feedCond row.1.name ((rows.take i).flatMap entries)) =
        .ok ((assigned (rows.map (·.1.name)) conds i).map
          (fedCond ((rows.take i).flatMap entries) row.1.name)) := by
    rw [List.mapM_map]
    exact Except.mapM_eq_ok fun cond hc => feedCond_eq_ok h hi hc (hcheck cond hc)
  have hruntime : ∀ cols conds', checkRuntimeConds
      { tabName := row.1.name, conds := conds', cols, fedConds :=
        (assigned (rows.map (·.1.name)) conds i).map
          (fedCond ((rows.take i).flatMap entries) row.1.name) } = .ok () := by
    intro cols conds'
    refine Except.forM_eq_ok fun cond hc => ?_
    obtain ⟨cond', hc', rfl⟩ := List.mem_map.mp hc
    obtain ⟨hl, hr⟩ := fedCond_runtime h hi hc' (hcheck cond' hc')
    rw [if_neg (not_not.mpr hl)]
    rcases hr with hr | hr <;> simp [hr, pure, Except.pure]
  unfold scan SeqScanExecutor.new SeqScanExecutor.feed
  simp only [hrow, hconds, horient, hdict, hfed, hruntime, bind, Except.bind, pure, Except.pure]

/-- A condition with a literal means what it says, if its column can be read. -/
theorem evalCond_literal (h : Rows rows) (hrow : rows[i]? = some row) {conds : List Condition}
    (hcond : cond ∈ assigned (rows.map (·.1.name)) conds i)
    (hchecked : cond.Checked (rows.map Prod.fst)) (hval : cond.isRhsVal = true)
    (dict : List (TabCol × Value)) :
    ∃ lhs, findTabCol (rows.map Prod.fst) (cond.turned row.1.name).lhsCol = some (row.1, lhs) ∧
      evalCond row.1.cols (fedCond dict row.1.name cond) row.2 =
        if lhs.Inside row.2.length then .ok (cond.holds rows) else .error .outOfBounds := by
  have hmem : row ∈ rows := List.mem_of_getElem? hrow
  have hi : (rows.map (·.1.name))[i]? = some row.1.name := by rw [List.getElem?_map, hrow]; rfl
  have hl : cond.lhsCol.tabName = row.1.name := by
    rcases mem_assigned hi hcond with ⟨hl, -⟩ | ⟨hval', -⟩
    · exact hl
    · rw [hval] at hval'
      cases hval'
  -- a literal is not replaced when the condition is fed
  have hturned : cond.turned row.1.name = cond := by
    unfold Condition.turned
    rw [if_pos hl]
  have hfed : fedCond dict row.1.name cond = cond := by
    unfold fedCond
    simp [hval, hturned]
  obtain ⟨tab, lhs, hfind, hlit⟩ := hchecked
  obtain ⟨row', hrow', rfl, hcol⟩ := findTabCol_eq_some hfind
  have hown := h.find?_eq hrow
  rw [hl, hown] at hrow'
  obtain rfl := Option.some.inj hrow'
  simp only [hval, if_true] at hlit
  obtain ⟨val, hraw, htype, hinit⟩ := hlit
  have hlhs : lhs ∈ row.1.cols := List.mem_of_find?_eq_some hcol
  have hcreated := h.created row hmem
  have hget := hcreated.getCol_eq hl.symm hcol
  refine ⟨lhs, by rw [hturned]; exact hfind, ?_⟩
  -- the specification compares the same column with the value of the literal
  have hholds : cond.holds rows = cond.op.test ((lhs.datum row.2).compare cond.rhsVal.datum) := by
    unfold Condition.holds
    rw [field_eq (by rw [hl]; exact hown) hcol]
    simp [hval]
  rw [hfed, hholds]
  by_cases hstring : lhs.type = .string
  · -- the literal was padded to the length of the column
    have hlen := length_le_of_initRaw (htype.trans hstring) hinit
    rw [initRaw_of_string hraw (htype.trans hstring) hlen] at hinit
    obtain hcv := Except.ok.inj hinit
    have hsize : val.strVal.length ≤ lhs.size := by
      unfold ColMeta.size
      omega
    have hpad := length_pad hsize
    have hbuf : cond.rhsVal.raw = some (pad lhs.size val.strVal) := by
      rw [← hcv]
      rfl
    rw [evalCond_of_val hcreated hlhs hget hval hbuf (by rw [← hcv]; exact htype), hpad]
    simp only [le_refl, and_true]
    split_ifs with hin
    · have hslice := hin.length_slice
      have hcompare : (lhs.datum row.2).compare cond.rhsVal.datum =
          memcmp (lhs.slice row.2) (pad lhs.size val.strVal) lhs.size := by
        rw [← hcv]
        simp only [ColMeta.datum, Value.datum, Datum.make, hstring, htype, Datum.compare,
          padCompare, hslice, Nat.max_eq_left hsize]
        congr 1
        simp [pad, hslice]
      unfold compareBuf
      rw [hcompare, hstring]
    · rfl
  · rw [hcreated.number hlhs hstring, initRaw_of_number hraw (by rwa [htype])] at hinit
    obtain hcv := Except.ok.inj hinit
    have hfour := ColMeta.size_of_number (hcreated.number hlhs hstring)
    have hlength : (storeWord val.num).length = 4 := by simp [storeWord]
    have hbuf : cond.rhsVal.raw = some (storeWord val.num) := by rw [← hcv]
    rw [evalCond_of_val hcreated hlhs hget hval hbuf (by rw [← hcv]; exact htype), hfour, hlength]
    simp only [le_refl, and_true]
    have hcompare : compareBuf lhs row.2 (storeWord val.num) =
        (lhs.datum row.2).compare cond.rhsVal.datum := by
      rw [← hcv]
      unfold compareBuf ColMeta.datum Value.datum
      rw [wordOf_storeWord, htype]
      cases ht : lhs.type with
      | int => rfl
      | float => rfl
      | string => exact absurd ht hstring
    rw [hcompare]

/-- What a condition between two columns compares: the column `lhs` of the table with a buffer that
holds the column `rhs` of `row'`, a record of the same table or of one before it. -/
structure Comparison (rows : List Row) (i : Nat) (row row' : Row) (cond : Condition)
    (lhs rhs : ColMeta) (buf : List UInt8) : Prop where
  lhs_find : findTabCol (rows.map Prod.fst) cond.lhsCol = some (row.1, lhs)
  rhs_find : findTabCol (rows.map Prod.fst) cond.rhsCol = some (row'.1, rhs)
  lhs_mem : lhs ∈ row.1.cols
  rhs_mem : rhs ∈ row'.1.cols
  type : rhs.type = lhs.type
  buf : row' = row ∧ buf = row.2.drop rhs.start ∨
    row'.1.name ≠ row.1.name ∧ row' ∈ rows.take i ∧ (fedValue rhs row'.2).raw = some buf
  holds : cond.holds rows = cond.op.test ((lhs.datum row.2).compare (rhs.datum row'.2))

/-- The bytes that the comparison reads are there. -/
def Readable (row row' : Row) (lhs rhs : ColMeta) (buf : List UInt8) : Prop :=
  lhs.Inside row.2.length ∧ lhs.size ≤ buf.length ∧
    (row'.1.name = row.1.name → 0 ≤ rhs.offset.toInt ∧ rhs.start + lhs.size ≤ row.2.length)

instance (row row' : Row) (lhs rhs : ColMeta) (buf : List UInt8) :
    Decidable (Readable row row' lhs rhs buf) := by
  unfold Readable
  infer_instance

/-- A condition between two columns, turned and fed, compares the columns. -/
theorem evalCond_columns (h : Rows rows) (hrow : rows[i]? = some row) {conds : List Condition}
    (hcond : cond ∈ assigned (rows.map (·.1.name)) conds i)
    (hchecked : cond.Checked (rows.map Prod.fst)) (hval : cond.isRhsVal = false) :
    ∃ row' lhs rhs buf, Comparison rows i row row' (cond.turned row.1.name) lhs rhs buf ∧
      evalCond row.1.cols (fedCond ((rows.take i).flatMap entries) row.1.name cond) row.2 =
        if Readable row row' lhs rhs buf
        then .ok ((cond.turned row.1.name).op.test (compareBuf lhs row.2 buf))
        else .error .outOfBounds := by
  have hmem : row ∈ rows := List.mem_of_getElem? hrow
  have hi : (rows.map (·.1.name))[i]? = some row.1.name := by rw [List.getElem?_map, hrow]; rfl
  obtain ⟨hl, hr⟩ := turned_of_assigned hi hcond
  obtain ⟨tab, lhs, tab', rhs, hfind, hfind', htype⟩ := hchecked.turned hval row.1.name
  obtain ⟨row₁, hrow₁, rfl, hcol⟩ := findTabCol_eq_some hfind
  obtain ⟨row', hrow', rfl, hcol'⟩ := findTabCol_eq_some hfind'
  have hown := h.find?_eq hrow
  have hrow₁' := hrow₁
  rw [hl, hown] at hrow₁
  obtain rfl := Option.some.inj hrow₁
  have hlhs : lhs ∈ row.1.cols := List.mem_of_find?_eq_some hcol
  have hrhs : rhs ∈ row'.1.cols := List.mem_of_find?_eq_some hcol'
  have hcreated := h.created row hmem
  have hname' : row'.1.name = (cond.turned row.1.name).rhsCol.tabName := by
    simpa using List.find?_some hrow'
  -- the specification compares the two columns, turned or not
  have hholds : (cond.turned row.1.name).holds rows = (cond.turned row.1.name).op.test
      ((lhs.datum row.2).compare (rhs.datum row'.2)) := by
    unfold Condition.holds
    rw [field_eq hrow₁' hcol, field_eq hrow' hcol']
    simp [hval]
  have hget := hcreated.getCol_eq hl.symm hcol
  by_cases hforeign : (cond.turned row.1.name).rhsCol.tabName = row.1.name
  · -- both columns are in this table
    have hsame : row' = row := by
      rw [hforeign, hown] at hrow'
      exact (Option.some.inj hrow').symm
    subst hsame
    have hfed : fedCond ((rows.take i).flatMap entries) row'.1.name cond =
        cond.turned row'.1.name := by
      unfold fedCond
      simp [hforeign]
    refine ⟨row', lhs, rhs, row'.2.drop rhs.start, ⟨hfind, hfind', hlhs, hrhs, htype,
      .inl ⟨rfl, rfl⟩, hholds⟩, ?_⟩
    have hiff : Readable row' row' lhs rhs (row'.2.drop rhs.start) ↔ lhs.Inside row'.2.length ∧
        0 ≤ rhs.offset.toInt ∧ rhs.start + lhs.size ≤ row'.2.length := by
      unfold Readable
      rw [List.length_drop]
      constructor
      · rintro ⟨hin, -, hall⟩
        exact ⟨hin, hall rfl⟩
      · rintro ⟨hin, h1, h2⟩
        exact ⟨hin, by omega, fun _ => ⟨h1, h2⟩⟩
    rw [hfed, evalCond_of_col hcreated hlhs hget (by simpa using hval)
      (hcreated.getCol_eq hforeign.symm hcol') htype]
    simp only [hiff]
  · -- the right side is fed
    have hbefore : (cond.turned row.1.name).rhsCol.tabName ∈ (rows.map (·.1.name)).take i := by
      rcases hr with hr | hr | hr
      · rw [hval] at hr
        cases hr
      · exact absurd hr hforeign
      · exact hr
    have hfound : (rows.take i).find? (·.1.name = (cond.turned row.1.name).rhsCol.tabName) =
        some row' := by
      rw [find?_take hbefore]
      exact hrow'
    -- the dictionary was filled from the tables before this one
    have hlookup : ((rows.take i).flatMap entries).lookup (cond.turned row.1.name).rhsCol =
        some (fedValue rhs row'.2) :=
      lookup_flatMap_entries (fun r hr => h.created r (List.mem_of_mem_take hr)) hfound hcol'
    have hfed : fedCond ((rows.take i).flatMap entries) row.1.name cond =
        { cond.turned row.1.name with isRhsVal := true, rhsVal := fedValue rhs row'.2 } := by
      unfold fedCond
      rw [hlookup]
      simp [hval, hforeign]
    obtain ⟨buf, hbuf⟩ : ∃ buf, (fedValue rhs row'.2).raw = some buf := by
      unfold fedValue
      split <;> exact ⟨_, rfl⟩
    have hne : row'.1.name ≠ row.1.name := by
      rw [hname']
      exact hforeign
    refine ⟨row', lhs, rhs, buf, ⟨hfind, hfind', hlhs, hrhs, htype,
      .inr ⟨hne, List.mem_of_find?_eq_some hfound, hbuf⟩, hholds⟩, ?_⟩
    have hfedType : (fedValue rhs row'.2).type = lhs.type := by
      rw [← htype]
      unfold fedValue
      cases ht : rhs.type <;> rfl
    have hiff : Readable row row' lhs rhs buf ↔
        lhs.Inside row.2.length ∧ lhs.size ≤ buf.length := by
      unfold Readable
      exact ⟨fun hall => ⟨hall.1, hall.2.1⟩, fun hall => ⟨hall.1, hall.2, fun he => absurd he hne⟩⟩
    have heval := @evalCond_of_val row.1 lhs row.2 buf
      { cond.turned row.1.name with isRhsVal := true, rhsVal := fedValue rhs row'.2 } hcreated hlhs
      hget rfl hbuf hfedType
    rw [hfed, heval]
    simp only [hiff]

section Comparisons

variable {lhs rhs : ColMeta} {buf : List UInt8}

/-- The buffer holds the column of the right side. -/
theorem Comparison.carries (hc : Comparison rows i row row' cond lhs rhs buf) :
    Carries buf rhs row'.2 := by
  unfold Carries
  rcases hc.buf with ⟨rfl, rfl⟩ | ⟨-, -, hbuf⟩
  · split_ifs with htype
    · exact List.take_prefix ..
    · rfl
  · unfold fedValue at hbuf
    cases htype : rhs.type with
    | int =>
      rw [htype] at hbuf
      obtain rfl := Option.some.inj hbuf
      rw [if_neg (by simp)]
      exact wordOf_storeWord _
    | float =>
      rw [htype] at hbuf
      obtain rfl := Option.some.inj hbuf
      rw [if_neg (by simp)]
      exact wordOf_storeWord _
    | string =>
      rw [htype] at hbuf
      obtain rfl := Option.some.inj hbuf
      exact (if_pos rfl).mpr List.prefix_rfl

/-- The fed value of a string is its bytes. -/
theorem Comparison.buf_of_string (hc : Comparison rows i row row' cond lhs rhs buf)
    (hstring : lhs.type = .string) (hne : row'.1.name ≠ row.1.name) : buf = rhs.slice row'.2 := by
  rcases hc.buf with ⟨rfl, -⟩ | ⟨-, -, hbuf⟩
  · exact absurd rfl hne
  · unfold fedValue at hbuf
    rw [hc.type, hstring] at hbuf
    exact (Option.some.inj hbuf).symm

theorem Comparison.length_of_number (hc : Comparison rows i row row' cond lhs rhs buf)
    (hnumber : lhs.type ≠ .string) (hne : row'.1.name ≠ row.1.name) : buf.length = 4 := by
  rcases hc.buf with ⟨rfl, -⟩ | ⟨-, -, hbuf⟩
  · exact absurd rfl hne
  · unfold fedValue at hbuf
    rw [hc.type] at hbuf
    cases htype : lhs.type with
    | int =>
      rw [htype] at hbuf
      obtain rfl := Option.some.inj hbuf
      simp [storeWord]
    | float =>
      rw [htype] at hbuf
      obtain rfl := Option.some.inj hbuf
      simp [storeWord]
    | string => exact absurd htype hnumber

end Comparisons

/-- The table that evaluates a condition is its owner. -/
theorem owner_eq (h : Rows rows) (hrow : rows[i]? = some row) {conds : List Condition}
    (hcond : cond ∈ assigned (rows.map (·.1.name)) conds i) :
    cond.owner (rows.map Prod.fst) = row.1.name := by
  have hi : (rows.map (·.1.name))[i]? = some row.1.name := by rw [List.getElem?_map, hrow]; rfl
  have hnames : (rows.map Prod.fst).map (·.name) = rows.map (·.1.name) := by simp
  obtain ⟨hlt, hget⟩ := List.getElem?_eq_some_iff.mp hi
  have hidx : (rows.map (·.1.name)).idxOf row.1.name = i := by
    rw [← hget]
    exact h.names.idxOf_getElem i hlt
  have hbefore : ∀ name, name ∈ (rows.map (·.1.name)).take i →
      (rows.map (·.1.name)).idxOf name < i := by
    intro name hname
    obtain ⟨j, hj, hjname⟩ := List.mem_iff_getElem.mp hname
    rw [List.length_take] at hj
    rw [List.getElem_take] at hjname
    rw [← hjname, h.names.idxOf_getElem]
    omega
  unfold Condition.owner
  rw [hnames]
  rcases mem_assigned hi hcond with ⟨hl, hr⟩ | ⟨hval, hr, hl⟩
  · rw [if_neg]
    · exact hl
    · rintro ⟨hval, hless⟩
      rw [hl, hidx] at hless
      rcases hr with hr | hr | hr
      · simp [hr] at hval
      · rw [hr, hidx] at hless
        omega
      · have := hbefore _ hr
        omega
  · rw [if_pos ⟨by simp [hval], by rw [hr, hidx]; exact hbefore _ hl⟩]
    exact hr

/-- **A condition whose columns fit means what it says.** -/
theorem evalCond_fed (h : Rows rows) (hrow : rows[i]? = some row) {conds : List Condition}
    (hcond : cond ∈ assigned (rows.map (·.1.name)) conds i)
    (hchecked : cond.Checked (rows.map Prod.fst)) (hfits : cond.Fits (rows.map Prod.fst)) :
    evalCond row.1.cols (fedCond ((rows.take i).flatMap entries) row.1.name cond) row.2 =
      .ok (cond.holds rows) := by
  have hlength := (h.valid row (List.mem_of_getElem? hrow)).length
  unfold Condition.Fits at hfits
  rw [owner_eq h hrow hcond] at hfits
  by_cases hval : cond.isRhsVal = true
  · obtain ⟨lhs, hfind, heval⟩ := evalCond_literal h hrow hcond hchecked hval
      ((rows.take i).flatMap entries)
    rw [heval, if_pos (by rw [hlength]; exact (hfits _ _ hfind).1)]
  · have hval' : cond.isRhsVal = false := by simpa using hval
    obtain ⟨row', lhs, rhs, buf, hc, heval⟩ := evalCond_columns h hrow hcond hchecked hval'
    obtain ⟨hin, hrhs⟩ := hfits _ _ hc.lhs_find
    obtain ⟨hown, hagree⟩ := (hrhs.resolve_left hval) _ _ hc.rhs_find
    rw [← hlength] at hin hown
    have hwidth : (rhs.slice row'.2).length = rhs.width row'.1.tupleLen := by
      have hvalid : row'.Valid := by
        rcases hc.buf with ⟨rfl, -⟩ | ⟨-, hmem, -⟩
        · exact h.valid _ (List.mem_of_getElem? hrow)
        · exact h.valid _ (List.mem_of_mem_take hmem)
      rw [ColMeta.length_slice, hvalid.length]
    have hbuf : lhs.size ≤ buf.length := by
      by_cases hname : row'.1.name = row.1.name
      · rcases hc.buf with ⟨rfl, rfl⟩ | ⟨hne, -⟩
        · have := (hown rfl).2
          rw [List.length_drop]
          omega
        · exact absurd hname hne
      · by_cases hstring : lhs.type = .string
        · rw [hc.buf_of_string hstring hname, hwidth]
          rcases hagree hstring with heq | ⟨hlt, -⟩ | ⟨-, ⟨hsame, -⟩, -⟩
          · exact heq.le
          · exact hlt.le
          · exact absurd hsame hname
        · rw [hc.length_of_number hstring hname, ColMeta.size_of_number
            ((h.created row (List.mem_of_getElem? hrow)).number hc.lhs_mem hstring)]
    rw [heval, if_pos ⟨hin, hbuf, hown⟩, ← Condition.holds_turned hval' row.1.name, hc.holds]
    refine congrArg _ (test_compareBuf hin hbuf hc.type hc.carries fun hstring => ?_)
    rw [hwidth]
    rcases hagree hstring with heq | hlt | ⟨hgt, ⟨hname, hstart⟩, hop⟩
    · exact .inl heq
    · exact .inr (.inl hlt)
    · refine .inr (.inr ⟨hgt, ?_, hop⟩)
      rcases hc.buf with ⟨rfl, rfl⟩ | ⟨hne, -⟩
      · refine ⟨by rw [hstart], ?_⟩
        have hshort : rhs.size ≤ lhs.size := by
          have := hin.fits
          unfold ColMeta.width at hgt
          rw [← hlength] at hgt
          omega
        unfold ColMeta.slice
        rw [hstart, List.take_take, Nat.min_eq_left hshort]
      · exact absurd hname hne

end Table

/-! ### Push-down keeps the meaning -/

section PushDown

variable {rows : List Row} {conds : List Condition}

theorem Condition.Checked.solvedBy {cond : Condition} (h : cond.Checked (rows.map Prod.fst)) :
    cond.solvedBy (rows.map (·.1.name)) = true := by
  have hname : ∀ {target tab col}, findTabCol (rows.map Prod.fst) target = some (tab, col) →
      target.tabName ∈ rows.map (·.1.name) := by
    intro target tab col hfind
    obtain ⟨row, hrow, -, -⟩ := findTabCol_eq_some hfind
    have hn : row.1.name = target.tabName := by simpa using List.find?_some hrow
    exact List.mem_map.mpr ⟨row, List.mem_of_find?_eq_some hrow, hn⟩
  obtain ⟨tab, col, hl, hr⟩ := h
  unfold Condition.solvedBy
  simp only [Bool.and_eq_true, Bool.or_eq_true, List.contains_iff_mem]
  refine ⟨hname hl, ?_⟩
  split_ifs at hr with hval
  · exact .inl hval
  · obtain ⟨tab', col', hr, -⟩ := hr
    exact .inr (hname hr)

theorem mem_dropLast_of_take {i : Nat} (hi : i < rows.length) {row : Row}
    (hrow : row ∈ rows.take i) : row ∈ rows.dropLast := by
  refine List.mem_of_mem_take (i := i) ?_
  rw [List.dropLast_eq_take, List.take_take, Nat.min_eq_left (by omega)]
  exact hrow

/-- **Every condition is assigned exactly once**, whatever its columns. -/
theorem assign_all (hchecked : ∀ cond ∈ conds, cond.Checked (rows.map Prod.fst)) :
    (assignConds (rows.map (·.1.name)) conds).2 = [] ∧
      (assignConds (rows.map (·.1.name)) conds).1.flatten.Perm conds := by
  have hleft : (conds.filter fun cond => !cond.solvedBy (rows.map (·.1.name))) = [] := by
    rw [List.filter_eq_nil_iff]
    intro cond hcond
    simp [(hchecked cond hcond).solvedBy]
  have hperm := assigned_perm (rows.map (·.1.name)) conds (rows.map (·.1.name)).length
  rw [List.take_length, hleft, List.append_nil] at hperm
  rw [assignConds_eq]
  exact ⟨hleft, hperm⟩

/-- **Push-down keeps the meaning** when the records of all tables but the last can be fed and the
columns of every condition fit. -/
theorem pushedDown_of_fits (h : Rows rows) (hfeed : ∀ row ∈ rows.dropLast, row.1.Feedable)
    (hchecked : ∀ cond ∈ conds, cond.Checked (rows.map Prod.fst))
    (hfits : ∀ cond ∈ conds, cond.Fits (rows.map Prod.fst)) : PushedDown rows conds := by
  obtain ⟨hnone, honce⟩ := assign_all hchecked
  have hscan : ∀ i < rows.length, scan rows conds i =
      .ok ((assigned (rows.map (·.1.name)) conds i).all fun cond => cond.holds rows) := by
    intro i hi
    have hrow : rows[i]? = some rows[i] := List.getElem?_eq_getElem hi
    rw [scan_eq h hrow (fun row hr => hfeed row (mem_dropLast_of_take hi hr)) hchecked]
    have heval : ∀ cond ∈ assigned (rows.map (·.1.name)) conds i,
        evalCond rows[i].1.cols (fedCond ((rows.take i).flatMap entries) rows[i].1.name cond)
          rows[i].2 = .ok (cond.holds rows) := by
      intro cond hc
      have hmem := List.mem_of_mem_filter hc
      exact evalCond_fed h hrow hc (hchecked cond hmem) (hfits cond hmem)
    exact evalConds_map_eq_ok heval
  refine ⟨hnone, honce, fun i hi => ⟨_, hscan i hi⟩, ?_⟩
  have hmem : ∀ cond, cond ∈ conds ↔
      ∃ i < rows.length, cond ∈ assigned (rows.map (·.1.name)) conds i := by
    intro cond
    rw [← honce.mem_iff, assignConds_eq]
    simp
  constructor
  · intro hall cond hcond
    obtain ⟨i, hi, hc⟩ := (hmem cond).mp hcond
    have := (hscan i hi).symm.trans (hall i hi)
    exact List.all_eq_true.mp (Except.ok.inj this) cond hc
  · intro hall i hi
    rw [hscan i hi]
    exact congrArg _ (List.all_eq_true.mpr fun cond hc => hall cond ((hmem cond).mpr ⟨i, hi, hc⟩))

/-! ### Records on which the lengths matter -/

/-- A record of a table, byte by byte. -/
def recordOf (tab : TabMeta) (f : Nat → UInt8) : List UInt8 := (List.range tab.tupleLen).map f

theorem drop_recordOf (tab : TabMeta) (f : Nat → UInt8) (n : Nat) :
    (recordOf tab f).drop n = (List.range (tab.tupleLen - n)).map fun k => f (n + k) := by
  refine List.ext_getElem (by simp [recordOf]) fun k h1 h2 => ?_
  simp [recordOf]

theorem slice_recordOf {tab : TabMeta} {col : ColMeta} (f : Nat → UInt8) :
    col.slice (recordOf tab f) =
      (List.range (col.width tab.tupleLen)).map fun k => f (col.start + k) := by
  unfold ColMeta.slice ColMeta.width
  rw [drop_recordOf, ← List.map_take, List.take_range]

theorem map_range_of_forall {f : Nat → UInt8} {n : Nat} {x : UInt8} (h : ∀ k < n, f k = x) :
    (List.range n).map f = .replicate n x := by
  refine List.eq_replicate_iff.mpr ⟨by simp, fun b hb => ?_⟩
  obtain ⟨k, hk, rfl⟩ := List.mem_map.mp hb
  exact h k (List.mem_range.mp hk)

/-- A record without zero bytes: its strings are padded, wherever the columns lie. -/
theorem valid_recordOf (tab : TabMeta) {f : Nat → UInt8} (hf : ∀ k, f k ≠ 0) :
    Row.Valid (tab, recordOf tab f) where
  length := by simp [recordOf]
  padded col _ _ := by
    have hzero : 0 ∉ col.slice (recordOf tab f) := by
      rw [slice_recordOf]
      intro hmem
      obtain ⟨k, -, hk⟩ := List.mem_map.mp hmem
      exact hf _ hk
    have htake := takeWhile_pad hzero (col.slice (recordOf tab f)).length
    have hpad : pad (col.slice (recordOf tab f)).length (col.slice (recordOf tab f)) =
        col.slice (recordOf tab f) := by simp [pad]
    rw [hpad] at htake
    rw [ZeroPadded, htake, hpad]

theorem memcmp_ones {m n k : Nat} (hm : k ≤ m) (hn : k ≤ n) :
    memcmp (.replicate m 1) (.replicate n 1) k = 0 := by
  rw [← memcmp_take, ← take_memcmp, List.take_replicate, List.take_replicate, Nat.min_eq_left hm,
    Nat.min_eq_left hn, memcmp_self]

theorem padCompare_ones {m n : Nat} (h : m < n) :
    padCompare (.replicate m 1) (.replicate n 1) = -1 := by
  obtain ⟨k, rfl⟩ := Nat.exists_eq_add_of_lt h
  have hsplit : List.replicate (m + k + 1) (1 : UInt8) =
      .replicate m 1 ++ 1 :: .replicate k 1 := by
    rw [Nat.add_assoc, List.replicate_add, List.replicate_succ]
  rw [padCompare_swap, hsplit, padCompare_append_cons (by decide)]

/-- A run of bytes up to a place, the byte there, and the rest. -/
theorem map_range_split {f : Nat → UInt8} {n r : Nat} {x : UInt8} (hr : r < n)
    (h : ∀ k < r, f k = x) : ∃ rest, (List.range n).map f = .replicate r x ++ f r :: rest := by
  obtain ⟨m, rfl⟩ := Nat.exists_eq_add_of_lt hr
  rw [Nat.add_assoc, List.range_add, List.map_append, map_range_of_forall h, List.map_map,
    List.range_succ_eq_map, List.map_cons]
  exact ⟨_, rfl⟩

/-- Two columns that do not start at one place: in some record the bytes of the right one, which is
shorter, are repeated at the left one, which goes on with a smaller byte. -/
theorem exists_peak {m n : Nat} (hne : m ≠ n) (r : Nat) :
    ∃ (f : Nat → UInt8) (v x y : UInt8), (∀ k, f k ≠ 0) ∧ 0 < x ∧ x < y ∧
      (∀ k < r, f (m + k) = v) ∧ (∀ k < r, f (n + k) = v) ∧ f (m + r) = x ∧ f (n + r) = y := by
  rcases Nat.lt_or_gt_of_ne hne with hlt | hgt
  · refine ⟨fun k => if k = n + r then 2 else 1, 1, 1, 2, fun k => ?_, by decide, by decide,
      fun k hk => if_neg (by omega), fun k hk => if_neg (by omega), if_neg (by omega), if_pos rfl⟩
    simp only
    split_ifs <;> decide
  · refine ⟨fun k => if k = m + r then 1 else 2, 2, 1, 2, fun k => ?_, by decide, by decide,
      fun k hk => if_neg (by omega), fun k hk => if_neg (by omega), if_pos rfl, if_neg (by omega)⟩
    simp only
    split_ifs <;> decide

/-! ### The condition is needed -/

/-- The last scan is fed the records of all tables before it. -/
theorem feedable_of_pushedDown (h : Rows rows) (hpushed : PushedDown rows []) :
    ∀ row ∈ rows.dropLast, row.1.Feedable := by
  intro row hrow
  have hne : rows ≠ [] := by
    rintro rfl
    cases hrow
  have hlast : rows.length - 1 < rows.length :=
    Nat.sub_lt (List.length_pos_of_ne_nil hne) (by omega)
  rw [List.dropLast_eq_take] at hrow
  obtain ⟨accepted, hscan⟩ := hpushed.ends (rows.length - 1) hlast
  unfold scan at hscan
  rw [List.getElem?_eq_getElem hlast] at hscan
  cases hdict : feedDict (rows.take (rows.length - 1)) with
  | error e =>
    have hassign : (assignConds (rows.map (·.1.name)) []).1.getD (rows.length - 1) [] = [] := by
      rw [assignConds_eq]
      simp [assigned, hlast]
    simp only [hassign, hdict, SeqScanExecutor.new, List.mapM_nil, bind, Except.bind, pure,
      Except.pure, reduceCtorEq] at hscan
  | ok dict =>
    exact feedable_of_feedDict (fun r hr => ⟨h.created r (List.mem_of_mem_take hr),
      h.valid r (List.mem_of_mem_take hr)⟩) hdict row hrow

/-- Only one table evaluates a condition. -/
theorem assigned_unique {tabNames : List String} {cond : Condition} {i j : Nat}
    (hi : cond ∈ assigned tabNames conds i) (hj : cond ∈ assigned tabNames conds j) : i = j := by
  have hlt : ∀ {i j}, cond ∈ assigned tabNames conds i → cond ∈ assigned tabNames conds j →
      ¬i < j := by
    intro i j hi hj hlt
    unfold assigned at hi hj
    simp only [List.mem_filter, Bool.and_eq_true, Bool.not_eq_true'] at hi hj
    have := solvedBy_mono (List.take_subset_take_left tabNames (show i + 1 ≤ j by omega)) hi.2.1
    rw [hj.2.2] at this
    cases this
  have h1 := hlt hi hj
  have h2 := hlt hj hi
  omega

/-- If push-down keeps the meaning of a single condition, its evaluation gives its meaning. -/
theorem evalCond_of_pushedDown (h : Rows rows) {cond : Condition} (hpushed : PushedDown rows [cond])
    (hfeed : ∀ row ∈ rows.dropLast, row.1.Feedable)
    (hchecked : cond.Checked (rows.map Prod.fst)) :
    ∃ i row, rows[i]? = some row ∧ cond ∈ assigned (rows.map (·.1.name)) [cond] i ∧
      evalCond row.1.cols (fedCond ((rows.take i).flatMap entries) row.1.name cond) row.2 =
        .ok (cond.holds rows) := by
  have hone : ∀ c ∈ [cond], c.Checked (rows.map Prod.fst) := by simpa using hchecked
  obtain ⟨i, hi, hmem⟩ : ∃ i < rows.length, cond ∈ assigned (rows.map (·.1.name)) [cond] i := by
    have hmem : cond ∈ (assignConds (rows.map (·.1.name)) [cond]).1.flatten :=
      hpushed.each_once.mem_iff.mpr (by simp)
    rw [assignConds_eq] at hmem
    simpa using hmem
  have hscan : ∀ j (hj : j < rows.length), scan rows [cond] j = evalConds rows[j].1.cols
      ((assigned (rows.map (·.1.name)) [cond] j).map
        (fedCond ((rows.take j).flatMap entries) rows[j].1.name)) rows[j].2 := by
    intro j hj
    exact scan_eq h (List.getElem?_eq_getElem hj)
      (fun row hr => hfeed row (mem_dropLast_of_take hj hr)) hone
  have hself : assigned (rows.map (·.1.name)) [cond] i = [cond] := by
    unfold assigned at hmem ⊢
    simpa [List.filter_cons] using hmem
  -- the other tables have no condition
  have hother : ∀ j < rows.length, j ≠ i → scan rows [cond] j = .ok true := by
    intro j hj hne
    have hnil : assigned (rows.map (·.1.name)) [cond] j = [] := by
      refine List.eq_nil_iff_forall_not_mem.mpr fun c hc => ?_
      obtain rfl := List.mem_singleton.mp (List.mem_of_mem_filter hc)
      exact hne (assigned_unique hc hmem)
    rw [hscan j hj, hnil]
    rfl
  refine ⟨i, rows[i], List.getElem?_eq_getElem hi, hmem, ?_⟩
  have hrun := hscan i hi
  rw [hself, List.map_cons, List.map_nil] at hrun
  unfold evalConds at hrun
  obtain ⟨accepted, haccepted⟩ := hpushed.ends i hi
  cases heval : evalCond rows[i].1.cols
      (fedCond ((rows.take i).flatMap entries) rows[i].1.name cond) rows[i].2 with
  | error e =>
    rw [heval, haccepted] at hrun
    cases hrun
  | ok b =>
    have hb : scan rows [cond] i = .ok b := by
      rw [hrun, heval]
      cases b <;> rfl
    have hiff : b = true ↔ cond.holds rows = true := by
      have hmeaning := hpushed.meaning
      simp only [List.mem_singleton, forall_eq] at hmeaning
      rw [← hmeaning]
      constructor
      · intro hb' j hj
        by_cases hne : j = i
        · subst hne
          rw [hb, hb']
        · exact hother j hj hne
      · intro hall
        exact Except.ok.inj (hb.symm.trans (hall i hi))
    exact congrArg _ (Bool.eq_iff_iff.mpr hiff)

/-- A record for every table. -/
def choose (tables : List TabMeta) (record : TabMeta → List UInt8) : List Row :=
  tables.map fun tab => (tab, record tab)

theorem rows_choose {tables : List TabMeta} (hnames : (tables.map (·.name)).Nodup)
    (hcreated : ∀ tab ∈ tables, tab.Created) {record : TabMeta → List UInt8}
    (hvalid : ∀ tab ∈ tables, Row.Valid (tab, record tab)) : Rows (choose tables record) where
  names := by simpa [choose, Function.comp_def] using hnames
  created row hrow := by
    obtain ⟨tab, htab, rfl⟩ := List.mem_map.mp hrow
    exact hcreated tab htab
  valid row hrow := by
    obtain ⟨tab, htab, rfl⟩ := List.mem_map.mp hrow
    exact hvalid tab htab

theorem map_fst_choose (tables : List TabMeta) (record : TabMeta → List UInt8) :
    (choose tables record).map Prod.fst = tables := by
  simp [choose, Function.comp_def]

theorem eq_of_mem_choose {tables : List TabMeta} {record : TabMeta → List UInt8} {row : Row}
    (hrow : row ∈ choose tables record) : row.2 = record row.1 := by
  obtain ⟨tab, -, rfl⟩ := List.mem_map.mp hrow
  rfl

/-- What a where clause of checked conditions means is kept for every choice of records. -/
def KeepsMeaning (tables : List TabMeta) (conds : List Condition) : Prop :=
  ∀ rows, rows.map Prod.fst = tables → (∀ row ∈ rows, row.Valid) → PushedDown rows conds

section Needed

variable {tables : List TabMeta} {cond : Condition}

/-- What push-down of a condition says about a record without zero bytes in every table: the bytes
can be read, and strings are compared rightly. -/
theorem compared_of_keepsMeaning (hnames : (tables.map (·.name)).Nodup)
    (hcreated : ∀ tab ∈ tables, tab.Created) (hfeed : ∀ tab ∈ tables.dropLast, tab.Feedable)
    (hchecked : cond.Checked tables) (hkeeps : KeepsMeaning tables [cond]) {f : Nat → UInt8}
    (hf : ∀ k, f k ≠ 0) {tab : TabMeta} {lhs : ColMeta}
    (hlhs : findTabCol tables (cond.turned (cond.owner tables)).lhsCol = some (tab, lhs)) :
    lhs.Inside tab.tupleLen ∧ (cond.isRhsVal = true ∨ ∀ tab' rhs,
      findTabCol tables (cond.turned (cond.owner tables)).rhsCol = some (tab', rhs) →
        (tab'.name = tab.name → 0 ≤ rhs.offset.toInt ∧ rhs.start + lhs.size ≤ tab.tupleLen) ∧
        (lhs.type = .string → ∃ buf, lhs.size ≤ buf.length ∧
          (tab'.name = tab.name → buf = (recordOf tab f).drop rhs.start) ∧
          (tab'.name ≠ tab.name → buf = rhs.slice (recordOf tab' f)) ∧
          (cond.turned (cond.owner tables)).op.test
              (memcmp (lhs.slice (recordOf tab f)) buf lhs.size) =
            (cond.turned (cond.owner tables)).op.test
              (padCompare (lhs.slice (recordOf tab f)) (rhs.slice (recordOf tab' f))))) := by
  have hrows : Rows (choose tables fun tab => recordOf tab f) :=
    rows_choose hnames hcreated fun tab _ => valid_recordOf tab hf
  have hfst := map_fst_choose tables fun tab => recordOf tab f
  have hpushed := hkeeps _ hfst hrows.valid
  have hfeed' : ∀ row ∈ (choose tables fun tab => recordOf tab f).dropLast, row.1.Feedable := by
    intro row hrow
    refine hfeed row.1 ?_
    rw [← hfst, ← List.map_dropLast]
    exact List.mem_map_of_mem hrow
  rw [← hfst] at hchecked
  obtain ⟨i, row, hrow, hmem, heval⟩ := evalCond_of_pushedDown hrows hpushed hfeed' hchecked
  have howner := owner_eq hrows hrow hmem
  rw [hfst] at howner
  rw [howner] at hlhs ⊢
  have hrecord := eq_of_mem_choose (List.mem_of_getElem? hrow)
  have hlength : row.2.length = row.1.tupleLen :=
    (hrows.valid row (List.mem_of_getElem? hrow)).length
  by_cases hval : cond.isRhsVal = true
  · obtain ⟨lhs', hfind, heval'⟩ := evalCond_literal hrows hrow hmem hchecked hval
      (((choose tables fun tab => recordOf tab f).take i).flatMap entries)
    rw [hfst] at hfind
    obtain ⟨rfl, rfl⟩ := Prod.mk.inj (Option.some.inj (hlhs.symm.trans hfind))
    rw [heval'] at heval
    split_ifs at heval with hin
    exact ⟨by rw [← hlength]; exact hin, .inl hval⟩
  · have hval' : cond.isRhsVal = false := by simpa using hval
    obtain ⟨row', lhs', rhs', buf, hc, heval'⟩ := evalCond_columns hrows hrow hmem hchecked hval'
    have hfind := hc.lhs_find
    rw [hfst] at hfind
    obtain ⟨rfl, rfl⟩ := Prod.mk.inj (Option.some.inj (hlhs.symm.trans hfind))
    rw [heval', ← Condition.holds_turned hval' row.1.name, hc.holds] at heval
    split_ifs at heval with hread
    obtain ⟨hin, hbuf, hown⟩ := hread
    rw [hlength] at hin hown
    refine ⟨hin, .inr fun tab' rhs hrhs => ?_⟩
    have hfind' := hc.rhs_find
    rw [hfst] at hfind'
    obtain ⟨rfl, rfl⟩ := Prod.mk.inj (Option.some.inj (hrhs.symm.trans hfind'))
    refine ⟨hown, fun hstring => ⟨buf, hbuf, fun he => ?_, fun hne => ?_, ?_⟩⟩
    · rcases hc.buf with ⟨-, hdrop⟩ | ⟨hne, -⟩
      · rw [hdrop, hrecord]
      · exact absurd he hne
    · rcases hc.buf with ⟨rfl, -⟩ | ⟨-, hmem', -⟩
      · exact absurd rfl hne
      · rw [hc.buf_of_string hstring hne, eq_of_mem_choose (List.mem_of_mem_take hmem')]
    · have hrecord' : row'.2 = recordOf row'.1 f := by
        rcases hc.buf with ⟨rfl, -⟩ | ⟨-, hmem', -⟩
        · exact hrecord
        · exact eq_of_mem_choose (List.mem_of_mem_take hmem')
      have hcompare : (lhs.datum row.2).compare (rhs.datum row'.2) =
          padCompare (lhs.slice row.2) (rhs.slice row'.2) := by
        simp [ColMeta.datum, Datum.make, hc.type, hstring, Datum.compare]
      have hcode : compareBuf lhs row.2 buf = memcmp (lhs.slice row.2) buf lhs.size := by
        unfold compareBuf
        rw [hstring]
      rw [hcompare, hcode, hrecord, hrecord'] at heval
      exact Except.ok.inj heval

/-- If push-down keeps the meaning of a condition for every choice of records, its columns fit. -/
theorem fits_of_keepsMeaning (hnames : (tables.map (·.name)).Nodup)
    (hcreated : ∀ tab ∈ tables, tab.Created) (hfeed : ∀ tab ∈ tables.dropLast, tab.Feedable)
    (hchecked : cond.Checked tables) (hkeeps : KeepsMeaning tables [cond]) : cond.Fits tables := by
  intro tab lhs hlhs
  have hcompared := fun {f : Nat → UInt8} (hf : ∀ k, f k ≠ 0) =>
    compared_of_keepsMeaning hnames hcreated hfeed hchecked hkeeps hf hlhs
  obtain ⟨hin, hcases⟩ := hcompared (f := fun _ => 1) fun _ => by decide
  by_cases hval : cond.isRhsVal = true
  · exact ⟨hin, .inl hval⟩
  refine ⟨hin, .inr fun tab' rhs hrhs => ?_⟩
  obtain ⟨hown, htest⟩ := (hcases.resolve_left hval) tab' rhs hrhs
  refine ⟨hown, fun hstring => ?_⟩
  obtain ⟨buf, hbuf, hsame, hother, htest⟩ := htest hstring
  have hwidth : lhs.width tab.tupleLen = lhs.size := by
    have := hin.fits
    unfold ColMeta.width
    omega
  -- on ones the bytes that are compared are equal, and the longer string is greater
  have hones : ∃ n, buf = .replicate n 1 := by
    by_cases hname : tab'.name = tab.name
    · rw [hsame hname, drop_recordOf]
      exact ⟨_, map_range_of_forall fun _ _ => rfl⟩
    · rw [hother hname, slice_recordOf]
      exact ⟨_, map_range_of_forall fun _ _ => rfl⟩
  obtain ⟨n, rfl⟩ := hones
  rw [List.length_replicate] at hbuf
  rw [slice_recordOf, slice_recordOf, map_range_of_forall fun _ _ => rfl,
    map_range_of_forall fun _ _ => rfl, hwidth, memcmp_ones (le_refl _) hbuf] at htest
  rcases lt_trichotomy lhs.size (rhs.width tab'.tupleLen) with hlt | heq | hgt
  · rw [padCompare_ones hlt] at htest
    refine .inr (.inl ⟨hlt, ?_⟩)
    cases hop : (cond.turned (cond.owner tables)).op <;> simp [hop, CompOp.test] at htest ⊢
  · exact .inl heq
  · rw [padCompare_swap, padCompare_ones hgt] at htest
    have hop : (cond.turned (cond.owner tables)).op ∈ [CompOp.lt, .ge] := by
      cases hop : (cond.turned (cond.owner tables)).op <;> simp [hop, CompOp.test] at htest ⊢
    have hname : tab'.name = tab.name := by
      by_contra hne
      have hlength := congrArg List.length (hother hne)
      rw [List.length_replicate, ColMeta.length_slice] at hlength
      simp only [recordOf, List.length_map, List.length_range] at hlength
      omega
    refine .inr (.inr ⟨hgt, ⟨hname, ?_⟩, hop⟩)
    by_contra hne
    -- the two columns repeat one byte, and then the left one has a smaller byte
    obtain ⟨f, v, x, y, hf, hx, hxy, hleft, hright, hfx, hfy⟩ :=
      exists_peak hne (rhs.width tab'.tupleLen)
    obtain ⟨-, hcases⟩ := hcompared hf
    obtain ⟨⟨-, hreach⟩, htest⟩ :=
      ((hcases.resolve_left hval) tab' rhs hrhs).imp_left fun h => h hname
    obtain ⟨buf, -, hsame, -, htest⟩ := htest hstring
    have hspace : rhs.width tab'.tupleLen < tab.tupleLen - rhs.start := by omega
    obtain ⟨l, hl⟩ := map_range_split (n := lhs.size) hgt hleft
    obtain ⟨b, hb⟩ := map_range_split hspace hright
    rw [hfx] at hl
    rw [hfy] at hb
    rw [hsame hname, slice_recordOf, slice_recordOf, drop_recordOf, hwidth, hl, hb,
      map_range_of_forall hright, memcmp_append_cons hxy _ _ _ (by simpa using hgt),
      padCompare_append_cons hx] at htest
    rcases List.mem_pair.mp hop with h | h <;> simp [h, CompOp.test] at htest

end Needed

/-- **The exact condition for push-down.**  Take tables with different names, made by
`create_table`, and any kind of conditions.  All where clauses made of checked conditions of that
kind keep their meaning for every choice of records, exactly when the records of all tables but the
last can be fed and the columns of every condition of that kind fit. -/
theorem pushedDown_iff {tables : List TabMeta} (hnames : (tables.map (·.name)).Nodup)
    (hcreated : ∀ tab ∈ tables, tab.Created) (kind : Condition → Prop) :
    (∀ conds, (∀ cond ∈ conds, kind cond ∧ cond.Checked tables) → KeepsMeaning tables conds) ↔
      (∀ tab ∈ tables.dropLast, tab.Feedable) ∧
        ∀ cond, kind cond → cond.Checked tables → cond.Fits tables := by
  constructor
  · intro hall
    have hfeed : ∀ tab ∈ tables.dropLast, tab.Feedable := by
      have hrows : Rows (choose tables fun tab => recordOf tab fun _ => 1) :=
        rows_choose hnames hcreated fun tab _ => valid_recordOf tab fun _ => by decide
      have hfst := map_fst_choose tables fun tab => recordOf tab fun _ => 1
      have hpushed := hall [] (by simp) _ hfst hrows.valid
      intro tab htab
      rw [← hfst, ← List.map_dropLast] at htab
      obtain ⟨row, hrow, rfl⟩ := List.mem_map.mp htab
      exact feedable_of_pushedDown hrows hpushed row hrow
    refine ⟨hfeed, fun cond hkind hchecked => ?_⟩
    exact fits_of_keepsMeaning hnames hcreated hfeed hchecked
      (hall [cond] (by simpa using ⟨hkind, hchecked⟩))
  · rintro ⟨hfeed, hfits⟩ conds hconds rows rfl hvalid
    have hrows : Rows rows :=
      ⟨by simpa [Function.comp_def] using hnames,
        fun row hr => hcreated row.1 (List.mem_map.mpr ⟨row, hr, rfl⟩), hvalid⟩
    refine pushedDown_of_fits hrows (fun row hr => hfeed row.1 ?_)
      (fun cond hc => (hconds cond hc).2)
      fun cond hc => hfits cond (hconds cond hc).1 (hconds cond hc).2
    rw [← List.map_dropLast]
    exact List.mem_map.mpr ⟨row, hr, rfl⟩

/-! ### Two tables and one -/

/-- `create table t (a char(3))`. -/
def sampleT : TabMeta :=
  { name := "t", cols := (SmManager.makeCols "t" [⟨"a", .string, 3⟩] 0).1 }

/-- `create table u (b char(2), c int)`. -/
def sampleU : TabMeta :=
  { name := "u", cols := (SmManager.makeCols "u" [⟨"b", .string, 2⟩, ⟨"c", .int, 4⟩] 0).1 }

/-- `t.a < u.b`. -/
def sampleLess : Condition := ⟨⟨"t", "a"⟩, .lt, false, ⟨"u", "b"⟩, { type := .int }⟩

/-- `u.c = 5`. -/
def sampleFive : Condition :=
  ⟨⟨"u", "c"⟩, .eq, true, ⟨"", ""⟩, { Value.setInt 5 with raw := some [5, 0, 0, 0] }⟩

/-- Both conditions are for the scan of `u`, which turns the first into `u.b > t.a` and gets `a` fed:
the two bytes of `b` are enough to tell whether it is greater. -/
theorem pushedDown_iff_greater :
    KeepsMeaning [sampleT, sampleU] [sampleLess, sampleFive] ∧
      scan [(sampleT, [120, 120, 121]), (sampleU, [120, 121, 5, 0, 0, 0])]
        [sampleLess, sampleFive] 1 = .ok true ∧
      scan [(sampleT, [120, 120, 121]), (sampleU, [120, 120, 5, 0, 0, 0])]
        [sampleLess, sampleFive] 1 = .ok false := by
  have hcreated : ∀ tab ∈ [sampleT, sampleU], tab.Created := by
    simp only [List.forall_mem_cons, List.not_mem_nil, false_imp_iff, implies_true, and_true]
    exact ⟨⟨[⟨"a", .string, 3⟩], by decide, rfl⟩,
      ⟨[⟨"b", .string, 2⟩, ⟨"c", .int, 4⟩], by decide, rfl⟩⟩
  have hiff := pushedDown_iff (show ([sampleT, sampleU].map (·.name)).Nodup by decide) hcreated
    (· ∈ [sampleLess, sampleFive])
  refine ⟨hiff.mpr ⟨?_, ?_⟩ _ ?_, by rfl, by rfl⟩
  · simp only [List.dropLast_cons_cons, List.dropLast_singleton, List.forall_mem_singleton]
    exact ⟨by decide, by decide⟩
  · simp only [List.forall_mem_cons, List.not_mem_nil, false_imp_iff, implies_true, and_true]
    constructor
    · intro _ tab lhs hlhs
      cases hlhs
      refine ⟨by decide, .inr fun tab' rhs hrhs => ?_⟩
      cases hrhs
      exact ⟨by decide, fun _ => .inr (.inl (by decide))⟩
    · intro _ tab lhs hlhs
      cases hlhs
      exact ⟨by decide, .inl rfl⟩
  · simp only [List.forall_mem_cons, List.not_mem_nil, false_imp_iff, implies_true, and_true]
    exact ⟨⟨by simp, sampleT, _, rfl, sampleU, _, rfl, rfl⟩,
      ⟨by simp, sampleU, _, rfl, Value.setInt 5, rfl, rfl, rfl⟩⟩

/-- `create table t (a char(1), b char(2))`. -/
def sampleShort : TabMeta :=
  { name := "t", cols := (SmManager.makeCols "t" [⟨"a", .string, 1⟩, ⟨"b", .string, 2⟩] 0).1 }

/-- **A longer string is cut off.**  For the record `("x", "xy")` the scan accepts `a = b`. -/
theorem not_pushedDown_equal :
    ¬PushedDown [(sampleShort, [120, 120, 121])]
      [⟨⟨"t", "a"⟩, .eq, false, ⟨"t", "b"⟩, { type := .int }⟩] := by
  intro h
  have hscan : ∀ i < 1, scan [(sampleShort, [120, 120, 121])]
      [⟨⟨"t", "a"⟩, .eq, false, ⟨"t", "b"⟩, { type := .int }⟩] i = .ok true := by
    intro i hi
    obtain rfl : i = 0 := by omega
    rfl
  have hholds := h.meaning.mp hscan _ (List.mem_singleton.mpr rfl)
  exact absurd hholds (by decide)

end PushDown

end Rucbase
