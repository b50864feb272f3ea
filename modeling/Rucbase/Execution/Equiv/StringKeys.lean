import Rucbase.Execution.Equiv.WhereClause

/-!
# Strings in records and keys

A string value becomes a buffer of the length of its column, filled up with zero bytes
(`Value::init_raw`), is compared there with `ix_compare` and read back with `rec2dict`.  On strings
without zero bytes that keeps both order and content (`initRaw_order`, `lookup_rec2dict`).

A string that does not fit is refused, but only for a column length that is not negative, since the
buffer is allocated first, and only if the length of the string is above that of the column when it
is read as an `int` (`keepsStrings_iff`).
-/

namespace Rucbase

open ByteString AbstractExecutor

variable {len : Int32} {s t : List UInt8}

/-- A string value with its buffer. -/
def rawString (len : Int32) (s : List UInt8) : Value :=
  { Value.setStr s with raw := pad len.toInt.toNat s }

theorem initRaw_setStr (hs : s.length ≤ len.toInt) :
    (Value.setStr s).initRaw len = .ok (rawString len s) :=
  initRaw_of_string rfl rfl hs

/-! ### Order -/

theorem ixCompareBytes_pad (hs : s.length ≤ len.toInt) (ht : t.length ≤ len.toInt) :
    ixCompareBytes (pad len.toInt.toNat s) (pad len.toInt.toNat t) .string len =
      .ok (memcmp (pad len.toInt.toNat s) (pad len.toInt.toNat t) len.toInt.toNat) := by
  unfold ixCompareBytes
  rw [length_pad (by omega), length_pad (by omega), if_pos (by omega)]
  rfl

/-- The comparison of two buffers is that of the strings. -/
theorem memcmp_pad (hs : s.length ≤ len.toInt) (ht : t.length ≤ len.toInt) (hs0 : 0 ∉ s)
    (ht0 : 0 ∉ t) :
    memcmp (pad len.toInt.toNat s) (pad len.toInt.toNat t) len.toInt.toNat < 0 ↔ s < t := by
  rw [memcmp_neg_iff (length_pad (by omega)) (length_pad (by omega)),
    pad_lt_pad_iff (by omega) (by omega) hs0 ht0]

theorem initRaw_order (hs : s.length ≤ len.toInt) (ht : t.length ≤ len.toInt) (hs0 : 0 ∉ s)
    (ht0 : 0 ∉ t) :
    ∃ c, ixCompareBytes (pad len.toInt.toNat s) (pad len.toInt.toNat t) .string len = .ok c ∧
      (c < 0 ↔ s < t) ∧ (0 < c ↔ t < s) ∧ (c = 0 ↔ s = t) := by
  have hlt := memcmp_pad hs ht hs0 ht0
  have hgt := memcmp_pad ht hs ht0 hs0
  rw [memcmp_swap, Int.neg_lt_zero_iff] at hgt
  refine ⟨_, ixCompareBytes_pad hs ht, hlt, hgt, fun hc => ?_, ?_⟩
  · -- neither string comes first
    rw [hc] at hlt hgt
    exact List.le_antisymm (List.not_lt.mp fun h => absurd (hgt.mpr h) (by decide))
      (List.not_lt.mp fun h => absurd (hlt.mpr h) (by decide))
  · rintro rfl
    exact memcmp_self _ _

/-! ### Content -/

/-- The record holds the buffer where the column is. -/
structure HoldsString (col : ColMeta) (len : Int32) (s data : List UInt8) : Prop where
  type : col.type = .string
  len_eq : col.len = len
  bytes : ∃ front back, data = front ++ pad len.toInt.toNat s ++ back ∧
    col.offset.toInt = front.length

/-- The column's value is the string again. -/
theorem HoldsString.colValue {col : ColMeta} {data : List UInt8} (h : HoldsString col len s data)
    (hs : s.length ≤ len.toInt) (hs0 : 0 ∉ s) : colValue col data = .ok (.setStr s) := by
  obtain ⟨front, back, rfl, hoffset⟩ := h.bytes
  have hpad : (pad len.toInt.toNat s).length = len.toInt.toNat := length_pad (by omega)
  have hdrop : (front ++ pad len.toInt.toNat s ++ back).drop front.length =
      pad len.toInt.toNat s ++ back := by
    rw [List.append_assoc, List.drop_left]
  have hadvance : advance (front ++ pad len.toInt.toNat s ++ back) col.offset =
      .ok (pad len.toInt.toNat s ++ back) := by
    unfold advance
    rw [hoffset, Int.toNat_natCast, hdrop, if_pos (by simp only [List.length_append]; omega)]
    rfl
  unfold AbstractExecutor.colValue
  rw [hadvance, h.type, h.len_eq]
  show (if 0 ≤ len.toInt ∧ len.toInt ≤ (pad len.toInt.toNat s ++ back).length then _ else _) = _
  rw [if_pos (by rw [List.length_append, hpad]; omega), List.take_left' hpad, takeWhile_pad hs0]
  rfl

/-- One round of `rec2dict`. -/
theorem addCol_ok {data : List UInt8} {dict dict' : List (TabCol × Value)} {col : ColMeta}
    (h : addCol data dict col = .ok dict') :
    ∃ val v, AbstractExecutor.colValue col data = .ok val ∧ val.initRaw col.len = .ok v ∧
      dict.lookup ⟨col.tabName, col.name⟩ = none ∧
      dict' = dict ++ [(⟨col.tabName, col.name⟩, v)] := by
  unfold addCol at h
  cases hval : AbstractExecutor.colValue col data with
  | error e =>
    simp only [hval, bind, Except.bind] at h
    cases h
  | ok val =>
    cases hold : dict.lookup (⟨col.tabName, col.name⟩ : TabCol) with
    | some v =>
      simp only [hval, hold, bind, Except.bind] at h
      cases h
    | none =>
      cases hraw : val.initRaw col.len with
      | error e =>
        simp only [hval, hold, hraw, bind, Except.bind] at h
        cases h
      | ok v =>
        simp only [hval, hold, hraw, bind, Except.bind] at h
        exact ⟨val, v, rfl, hraw, rfl, (Except.ok.inj h).symm⟩

/-- The dictionary has the value of every column. -/
theorem lookup_foldlM_addCol {data : List UInt8} {cols : List ColMeta}
    {dict dict' : List (TabCol × Value)} (h : cols.foldlM (addCol data) dict = .ok dict') :
    (∀ key v, dict.lookup key = some v → dict'.lookup key = some v) ∧
      ∀ col ∈ cols, ∃ val v, AbstractExecutor.colValue col data = .ok val ∧
        val.initRaw col.len = .ok v ∧ dict'.lookup ⟨col.tabName, col.name⟩ = some v := by
  induction cols generalizing dict with
  | nil =>
    obtain rfl := Except.ok.inj h
    exact ⟨fun key v hkey => hkey, fun col hcol => by cases hcol⟩
  | cons col cols ih =>
    rw [List.foldlM_cons] at h
    cases hadd : addCol data dict col with
    | error e =>
      rw [hadd] at h
      cases h
    | ok dict₁ =>
      rw [hadd] at h
      obtain ⟨val, v, hval, hraw, hnew, rfl⟩ := addCol_ok hadd
      obtain ⟨hkept, hcols⟩ := ih h
      refine ⟨fun key w hkey => hkept key w ?_, fun col' hcol' => ?_⟩
      · rw [List.lookup_append, hkey]
        rfl
      · rcases List.mem_cons.mp hcol' with rfl | hcol'
        · refine ⟨val, v, hval, hraw, hkept _ v ?_⟩
          rw [List.lookup_append, hnew]
          simp
        · exact hcols col' hcol'

/-- `rec2dict` gives a string back, with its bytes. -/
theorem lookup_rec2dict {col : ColMeta} {cols : List ColMeta} {data : List UInt8}
    {dict : List (TabCol × Value)} (h : HoldsString col len s data) (hs : s.length ≤ len.toInt)
    (hs0 : 0 ∉ s) (hcol : col ∈ cols) (hdict : rec2dict cols data = .ok dict) :
    dict.lookup ⟨col.tabName, col.name⟩ = some (rawString len s) := by
  obtain ⟨val, v, hval, hraw, hlookup⟩ := (lookup_foldlM_addCol hdict).2 col hcol
  rw [h.colValue hs hs0] at hval
  obtain rfl := Except.ok.inj hval
  rw [h.len_eq, initRaw_setStr hs] at hraw
  rw [hlookup, Except.ok.inj hraw]

/-- On that column alone `rec2dict` succeeds. -/
theorem rec2dict_singleton {col : ColMeta} {data : List UInt8} (h : HoldsString col len s data)
    (hs : s.length ≤ len.toInt) (hs0 : 0 ∉ s) :
    rec2dict [col] data = .ok [(⟨col.tabName, col.name⟩, rawString len s)] := by
  have hraw : (Value.setStr s).initRaw col.len = .ok (rawString len s) := by
    rw [h.len_eq, initRaw_setStr hs]
  have hadd : addCol data [] col = .ok [(⟨col.tabName, col.name⟩, rawString len s)] := by
    unfold addCol
    rw [h.colValue hs hs0]
    show (do return [] ++ [(_, ← (Value.setStr s).initRaw col.len)]) = _
    rw [hraw]
    rfl
  show ([col].foldlM (addCol data) [] : QlM _) = _
  rw [List.foldlM_cons, hadd]
  rfl

/-! ### Strings that do not fit -/

/-- `init_raw` on a string that is longer than the column. -/
theorem initRaw_long (hlong : len.toInt < s.length) :
    (Value.setStr s).initRaw len = .error .stringOverflowError ↔
      0 ≤ len.toInt ∧ len < Int32.ofNat s.length := by
  have hraw : ¬(Value.setStr s).raw ≠ none := fun h => h rfl
  unfold Value.initRaw
  rw [if_neg hraw]
  by_cases hneg : len.toInt < 0
  · rw [if_pos hneg]
    refine iff_of_false (fun h => ?_) (fun h => by omega)
    cases h
  · rw [if_neg hneg]
    show (if len < Int32.ofNat s.length then Except.error QlError.stringOverflowError else
      if len.toInt < s.length then Except.error QlError.outOfBounds else _) = _ ↔ _
    by_cases hcheck : len < Int32.ofNat s.length
    · rw [if_pos hcheck]
      exact iff_of_true rfl ⟨not_lt.mp hneg, hcheck⟩
    · rw [if_neg hcheck, if_pos hlong]
      refine iff_of_false (fun h => ?_) (fun h => hcheck h.2)
      cases h

/-! ### Order and content -/

/-- Strings in columns of length `len`: what fits keeps its order and its content, and what does not
fit is refused. -/
structure KeepsStrings (len : Int32) (s t : List UInt8) : Prop where
  order : 0 ∉ s → 0 ∉ t → s.length ≤ len.toInt → t.length ≤ len.toInt →
    ∃ rawS rawT c,
      (Value.setStr s).initRaw len = .ok { Value.setStr s with raw := some rawS } ∧
      (Value.setStr t).initRaw len = .ok { Value.setStr t with raw := some rawT } ∧
      ixCompareBytes rawS rawT .string len = .ok c ∧
      (c < 0 ↔ s < t) ∧ (0 < c ↔ t < s) ∧ (c = 0 ↔ s = t)
  content : 0 ∉ s → s.length ≤ len.toInt → ∀ (rawS : List UInt8) (col : ColMeta)
      (front back : List UInt8),
    (Value.setStr s).initRaw len = .ok { Value.setStr s with raw := some rawS } →
    col.type = .string → col.len = len → col.offset.toInt = front.length →
    rec2dict [col] (front ++ rawS ++ back) =
      .ok [(⟨col.tabName, col.name⟩, { Value.setStr s with raw := some rawS })] ∧
    ∀ cols dict, col ∈ cols → rec2dict cols (front ++ rawS ++ back) = .ok dict →
      dict.lookup ⟨col.tabName, col.name⟩ = some { Value.setStr s with raw := some rawS }
  overflow : len.toInt < s.length → (Value.setStr s).initRaw len = .error .stringOverflowError

/-- **Strings in records and keys.**  Order and content are kept for every column length.  A string
that is too long is refused exactly for the column lengths and string lengths that do not defeat the
check: the column length is not negative, and the string's length as an `int` is above it. -/
theorem keepsStrings_iff (len : Int32) (s t : List UInt8) :
    KeepsStrings len s t ↔
      s.length ≤ len.toInt ∨ 0 ≤ len.toInt ∧ len < Int32.ofNat s.length := by
  constructor
  · intro h
    by_cases hfits : s.length ≤ len.toInt
    · exact Or.inl hfits
    · exact Or.inr ((initRaw_long (not_le.mp hfits)).mp (h.overflow (not_le.mp hfits)))
  · intro hcond
    refine ⟨fun hs0 ht0 hs ht => ?_, fun hs0 hs rawS col front back hraw htype hlen hoffset => ?_,
      fun hlong => ?_⟩
    · obtain ⟨c, hc⟩ := initRaw_order hs ht hs0 ht0
      exact ⟨_, _, c, initRaw_setStr hs, initRaw_setStr ht, hc⟩
    · rw [initRaw_setStr hs] at hraw
      obtain rfl : pad len.toInt.toNat s = rawS :=
        Option.some.inj (congrArg Value.raw (Except.ok.inj hraw))
      have hholds : HoldsString col len s (front ++ pad len.toInt.toNat s ++ back) :=
        ⟨htype, hlen, front, back, rfl, hoffset⟩
      exact ⟨rec2dict_singleton hholds hs hs0,
        fun cols dict hcol hdict => lookup_rec2dict hholds hs hs0 hcol hdict⟩
    · rcases hcond with hfits | hcheck
      · omega
      · exact (initRaw_long hlong).mpr hcheck

/-- In a column of length `-1` the empty string does not fit, and the allocation fails before the
check is reached. -/
theorem not_keepsStrings_negative : ¬KeepsStrings (-1) [] [] := by
  intro h
  have hoverflow := h.overflow (by decide)
  rw [initRaw_long (by decide)] at hoverflow
  exact absurd hoverflow.1 (by decide)

end Rucbase
