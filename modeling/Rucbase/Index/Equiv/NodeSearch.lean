import Mathlib.Data.List.Lex
import Mathlib.Order.Bounds.Defs
import Rucbase.Lib.Halving
import Rucbase.Index.Equiv.Slots
import Rucbase.Execution.Equiv.WhereClause

/-!
# The binary searches on the bytes of a node

`lower_bound` and `upper_bound` as loops over the key slots of a page, each slot a buffer that
`ix_compare` reads: a signed `int`, or `col_len` bytes for `memcmp`.  `BoundRun` is a run of the loop
with the slots it reads; it is a binary search (`BoundRun.halving`) for the place where the keys
stop to be below the target, so that it ends, reads live slots only, and counts the keys below
(`nodeSearch`).

The loop of `IxPage.boundLoop` on decoded keys is the same search (`boundRun_boundLoop`).
-/

namespace Rucbase

open ByteString

/-! ### The loop -/

/-- The body of the loop: the new bounds. -/
def boundStep (op : Bool) (compareRes left mid right : Int) : Int × Int :=
  if compareRes ≥ 0 then
    if op ∧ compareRes = 0 then (left, mid) else (mid + 1, right)
  else (left, mid)

/-- A run of the loop of `lower_bound` (with `op = 1`) and `upper_bound` (with `op = 0`) from some
bounds, with the slots whose keys it reads and the `left` it returns; `compareTo` compares the target
with the key in a slot. -/
inductive BoundRun (op : Bool) (compareTo : Int → QlM Int) : Int → Int → List Int → Int → Prop
  | done {left right : Int} (h : ¬left < right) : BoundRun op compareTo left right [] left
  | round {left right compareRes r : Int} {reads : List Int} (h : left < right)
      (hcompare : compareTo ((left + right) / 2) = .ok compareRes)
      (rest : BoundRun op compareTo
        (boundStep op compareRes left ((left + right) / 2) right).1
        (boundStep op compareRes left ((left + right) / 2) right).2 reads r) :
      BoundRun op compareTo left right ((left + right) / 2 :: reads) r

/-- The search goes on to the right of the slot. -/
def ToRight (op : Bool) (compareTo : Int → QlM Int) (i : Int) : Prop :=
  ∃ compareRes, compareTo i = .ok compareRes ∧ compareRes ≥ 0 ∧ ¬(op = true ∧ compareRes = 0)

section Loop

variable {op : Bool} {compareTo : Int → QlM Int} {left right r : Int} {reads : List Int}

theorem boundStep_of_right {compareRes mid : Int}
    (h : compareRes ≥ 0 ∧ ¬(op = true ∧ compareRes = 0)) :
    boundStep op compareRes left mid right = (mid + 1, right) := by
  rw [boundStep, if_pos h.1, if_neg h.2]

theorem boundStep_of_left {compareRes mid : Int}
    (h : ¬(compareRes ≥ 0 ∧ ¬(op = true ∧ compareRes = 0))) :
    boundStep op compareRes left mid right = (left, mid) := by
  unfold boundStep
  by_cases hge : compareRes ≥ 0
  · rw [if_pos hge, if_pos (not_not.mp fun htie => h ⟨hge, htie⟩)]
  · rw [if_neg hge]

/-- Where the comparison has a result, the result decides. -/
theorem toRight_iff {i compareRes : Int} (h : compareTo i = .ok compareRes) :
    ToRight op compareTo i ↔ compareRes ≥ 0 ∧ ¬(op = true ∧ compareRes = 0) := by
  constructor
  · rintro ⟨c, hc, hright⟩
    obtain rfl := Except.ok.inj (hc.symm.trans h)
    exact hright
  · intro hright
    exact ⟨compareRes, h, hright⟩

/-- The loop is a binary search. -/
theorem BoundRun.halving (h : BoundRun op compareTo left right reads r) :
    Halving (ToRight op compareTo) left right reads r := by
  induction h with
  | done h => exact .done h
  | @round left right compareRes r reads h hcompare rest ih =>
    by_cases hright : compareRes ≥ 0 ∧ ¬(op = true ∧ compareRes = 0)
    · rw [boundStep_of_right hright] at ih
      exact .up h ((toRight_iff hcompare).mpr hright) ih
    · rw [boundStep_of_left hright] at ih
      exact .down h (fun hgo => hright ((toRight_iff hcompare).mp hgo)) ih

/-- Where every comparison has a result, a binary search is a run of the loop. -/
theorem boundRun_of_halving (h : Halving (ToRight op compareTo) left right reads r)
    (hok : ∀ i, left ≤ i → i < right → ∃ c, compareTo i = .ok c) :
    BoundRun op compareTo left right reads r := by
  induction h with
  | done h => exact .done h
  | @up left right r reads h hp rest ih =>
    obtain ⟨c, hc⟩ := hok ((left + right) / 2) (by omega) (by omega)
    refine .round h hc ?_
    rw [boundStep_of_right ((toRight_iff hc).mp hp)]
    exact ih fun i h1 h2 => hok i (by omega) h2
  | @down left right r reads h hp rest ih =>
    obtain ⟨c, hc⟩ := hok ((left + right) / 2) (by omega) (by omega)
    refine .round h hc ?_
    rw [boundStep_of_left fun hright => hp ((toRight_iff hc).mpr hright)]
    exact ih fun i h1 h2 => hok i h1 (by omega)

/-- The loop of the model runs as the loop of the source does. -/
theorem boundRun_boundLoop {κ : Type} [LinearOrder κ] (keys : Nat → κ) (target : κ) (rounds : Nat)
    (left right : Int) (hrounds : right - left ≤ rounds) :
    ∃ reads, BoundRun op (fun mid => .ok (ixCompare target (keys mid.toNat))) left right reads
      (IxPage.boundLoop op keys target rounds left right) := by
  induction rounds generalizing left right with
  | zero => exact ⟨[], .done (by omega)⟩
  | succ rounds ih =>
    by_cases hlt : left < right
    · have hstep : IxPage.boundLoop op keys target (rounds + 1) left right =
          IxPage.boundLoop op keys target rounds
            (boundStep op (ixCompare target (keys ((left + right) / 2).toNat)) left
              ((left + right) / 2) right).1
            (boundStep op (ixCompare target (keys ((left + right) / 2).toNat)) left
              ((left + right) / 2) right).2 := by
        rw [IxPage.boundLoop, if_pos hlt]
        unfold boundStep
        simp only []
        split_ifs <;> rfl
      have hshorter : (boundStep op (ixCompare target (keys ((left + right) / 2).toNat)) left
            ((left + right) / 2) right).2 -
          (boundStep op (ixCompare target (keys ((left + right) / 2).toNat)) left
            ((left + right) / 2) right).1 ≤ rounds := by
        unfold boundStep
        split_ifs <;> simp only <;> omega
      obtain ⟨reads, hrun⟩ := ih _ _ hshorter
      rw [hstep]
      exact ⟨_, .round hlt rfl hrun⟩
    · rw [IxPage.boundLoop, if_neg hlt]
      exact ⟨[], .done hlt⟩

end Loop

/-! ### Keys as buffers -/

/-- The buffer holds a key: four bytes of an `int`, or the bytes of a string. -/
def IsKey (type : ColType) (colLen : Int32) (buf : List UInt8) : Prop :=
  match type with
  | .int => 4 ≤ buf.length
  | .float => False
  | .string => 0 ≤ colLen.toInt ∧ colLen.toInt ≤ buf.length

/-- `ix_compare` compares what the buffers stand for. -/
def Decodes {κ : Type} [LinearOrder κ] (type : ColType) (colLen : Int32)
    (decode : List UInt8 → κ) : Prop :=
  ∀ a b, IsKey type colLen a → IsKey type colLen b →
    ixCompareBytes a b type colLen = .ok (ixCompare (decode a) (decode b))

/-- `TYPE_INT` keys are signed integers. -/
theorem decodes_int (colLen : Int32) :
    Decodes .int colLen fun buf => (wordOf buf).toInt32.toInt := by
  intro a b ha hb
  show (do return compareInt (← loadWord a) (← loadWord b)) = _
  rw [loadWord_eq ha, loadWord_eq hb]
  show Except.ok (compareInt (wordOf a) (wordOf b)) = _
  simp only [compareInt, threeWay, ixCompare_eq, Int32.lt_iff_toInt_lt, decide_eq_true_eq]

theorem map_toNat_lt_iff (a b : List UInt8) :
    a.map UInt8.toNat < b.map UInt8.toNat ↔ a < b := by
  induction a generalizing b with
  | nil => cases b <;> simp
  | cons x a ih =>
    cases b with
    | nil => simp
    | cons y b =>
      simp only [List.map_cons, List.cons_lt_cons_iff, ih, UInt8.lt_iff_toNat_lt,
        ← UInt8.toNat_inj]

/-- `TYPE_STRING` keys are strings of `col_len` bytes in lexicographic order. -/
theorem decodes_string (colLen : Int32) :
    Decodes .string colLen fun buf => (buf.take colLen.toInt.toNat).map UInt8.toNat := by
  intro a b ha hb
  have hlen : ∀ {c : List UInt8}, IsKey .string colLen c →
      (c.take colLen.toInt.toNat).length = colLen.toInt.toNat := by
    intro c hc
    have := hc.2
    rw [List.length_take]
    omega
  have hmemcmp : memcmp a b colLen.toInt.toNat =
      memcmp (a.take colLen.toInt.toNat) (b.take colLen.toInt.toNat) colLen.toInt.toNat := by
    rw [take_memcmp, memcmp_take]
  have hlt := memcmp_neg_iff (hlen ha) (hlen hb)
  have hgt := memcmp_neg_iff (hlen hb) (hlen ha)
  rw [memcmp_swap, Int.neg_lt_zero_iff] at hgt
  show (if 0 ≤ colLen.toInt ∧ colLen.toInt ≤ a.length ∧ colLen.toInt ≤ b.length then
    Except.ok (memcmp a b colLen.toInt.toNat) else Except.error QlError.outOfBounds) = _
  rw [if_pos ⟨ha.1, ha.2, hb.2⟩, hmemcmp]
  simp only [ixCompare_eq, map_toNat_lt_iff, ← hlt, ← hgt]
  -- `memcmp` is one of the three values
  rcases memcmp_sign (a.take colLen.toInt.toNat) (b.take colLen.toInt.toNat) colLen.toInt.toNat with
    h | h | h <;> (rw [h]; rfl)

section Node

variable {κ : Type} [LinearOrder κ] {type : ColType} {colLen : Int32} {page : IxPage (List UInt8)}
  {target : List UInt8} {decode : List UInt8 → κ} {op : Bool} {r : Int} {reads : List Int}

/-- `ix_compare(target, get_key(mid))`. -/
def IxPage.compareTo (page : IxPage (List UInt8)) (target : List UInt8) (type : ColType)
    (colLen : Int32) : Int → QlM Int :=
  fun mid => ixCompareBytes target (page.keys mid.toNat) type colLen

/-- The live slots hold keys that strictly increase under `ix_compare`. -/
structure IxPage.Increasing (page : IxPage (List UInt8)) (type : ColType) (colLen : Int32) :
    Prop where
  nonneg : 0 ≤ page.numKey
  isKey : ∀ i : Nat, i < page.numKey → IsKey type colLen (page.keys i)
  lt : ∀ i j : Nat, i < j → j < page.numKey →
    ∃ c < 0, ixCompareBytes (page.keys i) (page.keys j) type colLen = .ok c

/-- The test of `ix_compare(a, b)`. -/
def ixTest (type : ColType) (colLen : Int32) (test : Int → Bool) (a b : List UInt8) : Bool :=
  (ixCompareBytes a b type colLen).toOption.any test

theorem Decodes.ixTest_lt (hd : Decodes type colLen decode) {a b : List UInt8}
    (ha : IsKey type colLen a) (hb : IsKey type colLen b) :
    ixTest type colLen (· < 0) a b = true ↔ decode a < decode b := by
  rw [ixTest, hd a b ha hb, ← ixCompare_neg_iff]
  exact decide_eq_true_iff

theorem Decodes.ixTest_le (hd : Decodes type colLen decode) {a b : List UInt8}
    (ha : IsKey type colLen a) (hb : IsKey type colLen b) :
    ixTest type colLen (· ≤ 0) a b = true ↔ decode a ≤ decode b := by
  rw [ixTest, hd a b ha hb, ← ixCompare_nonpos_iff]
  exact decide_eq_true_iff

/-- The keys that the slots stand for increase. -/
theorem IxPage.Increasing.decode_le (hp : page.Increasing type colLen)
    (hd : Decodes type colLen decode) {i j : Nat} (hij : i ≤ j) (hj : j < page.numKey) :
    decode (page.keys i) ≤ decode (page.keys j) := by
  rcases Nat.eq_or_lt_of_le hij with rfl | hlt
  · exact le_refl _
  · obtain ⟨c, hc, hcompare⟩ := hp.lt i j hlt hj
    rw [hd _ _ (hp.isKey i (by omega)) (hp.isKey j hj)] at hcompare
    rw [← Except.ok.inj hcompare, ixCompare_neg_iff] at hc
    exact hc.le

/-- The search goes to the right of the keys below the target. -/
theorem IxPage.Increasing.toRight_iff (hp : page.Increasing type colLen)
    (hd : Decodes type colLen decode) (htarget : IsKey type colLen target) {i : Int}
    (h0 : 0 ≤ i) (hi : i < page.numKey) :
    ToRight op (page.compareTo target type colLen) i ↔
      GoesRight op (decode target) (decode (page.keys i.toNat)) := by
  rw [goesRight_iff]
  exact Rucbase.toRight_iff (hd target _ htarget (hp.isKey i.toNat (by omega)))

/-- The loop ends, reads live slots and returns the number of keys on its left. -/
theorem IxPage.Increasing.boundRun (hp : page.Increasing type colLen)
    (hd : Decodes type colLen decode) (htarget : IsKey type colLen target) (op : Bool) :
    (∃ reads r, BoundRun op (page.compareTo target type colLen) 0 page.numKey reads r) ∧
      ∀ reads r, BoundRun op (page.compareTo target type colLen) 0 page.numKey reads r →
        (0 ≤ r ∧ r ≤ page.numKey) ∧ (∀ i ∈ reads, 0 ≤ i ∧ i < page.numKey) ∧
        (∀ i : Nat, i < r → GoesRight op (decode target) (decode (page.keys i))) ∧
        ∀ i : Nat, r ≤ i → i < page.numKey →
          ¬GoesRight op (decode target) (decode (page.keys i)) := by
  constructor
  · obtain ⟨reads, r, hrun⟩ :=
      exists_halving (ToRight op (page.compareTo target type colLen)) 0 page.numKey
    refine ⟨reads, r, boundRun_of_halving hrun fun i h0 hi => ?_⟩
    exact ⟨_, hd target _ htarget (hp.isKey i.toNat (by omega))⟩
  · intro reads r hrun
    obtain ⟨hr, hreads⟩ := hrun.halving.bounds hp.nonneg
    have hmono : ∀ i j, 0 ≤ i → i ≤ j → j < page.numKey →
        ToRight op (page.compareTo target type colLen) j →
        ToRight op (page.compareTo target type colLen) i := by
      intro i j h0 hij hj
      rw [hp.toRight_iff hd htarget h0 (by omega), hp.toRight_iff hd htarget (by omega) hj]
      intro hgo
      exact hgo.of_le (hp.decode_le hd (by omega) (by omega))
    obtain ⟨hleft, hright⟩ := hrun.halving.cut hmono hp.nonneg (le_refl 0) (le_refl _)
      (fun i h1 h2 => by omega) (fun i h1 h2 => by omega)
    refine ⟨hr, hreads, fun i hi => ?_, fun i hi hlt => ?_⟩
    · exact (hp.toRight_iff hd htarget (by omega) (by omega)).mp (hleft i (by omega) hi)
    · exact fun hgo => hright i hi hlt ((hp.toRight_iff hd htarget (by omega) hlt).mpr hgo)

/-- What one of the two searches does: the loop ends, and every run reads live slots only and
returns the number of keys that pass the test against the target. -/
structure IxPage.Counts (page : IxPage (List UInt8)) (target : List UInt8) (type : ColType)
    (colLen : Int32) (op : Bool) (test : Int → Bool) : Prop where
  ends : ∃ reads r, BoundRun op (page.compareTo target type colLen) 0 page.numKey reads r
  reads : ∀ reads r, BoundRun op (page.compareTo target type colLen) 0 page.numKey reads r →
    ∀ i ∈ reads, 0 ≤ i ∧ i < page.numKey
  result : ∀ reads r, BoundRun op (page.compareTo target type colLen) 0 page.numKey reads r →
    r = ((List.range page.numKey.toNat).countP fun i =>
      ixTest type colLen test (page.keys i) target : Nat)

theorem IxPage.Increasing.counts {test : Int → Bool} (hp : page.Increasing type colLen)
    (hd : Decodes type colLen decode) (htarget : IsKey type colLen target)
    (htest : ∀ i : Nat, i < page.numKey →
      (ixTest type colLen test (page.keys i) target = true ↔
        GoesRight op (decode target) (decode (page.keys i)))) :
    page.Counts target type colLen op test := by
  obtain ⟨hends, hruns⟩ := hp.boundRun hd htarget op
  refine ⟨hends, fun reads r hrun => (hruns reads r hrun).2.1, fun reads r hrun => ?_⟩
  obtain ⟨hr, -, hleft, hright⟩ := hruns reads r hrun
  have hcount : ((List.range page.numKey.toNat).countP fun i =>
      ixTest type colLen test (page.keys i) target) = r.toNat := by
    refine countP_range_of_cut (by omega) (fun i hi => ?_) (fun i hi hlt => ?_)
    · exact (htest i (by omega)).mpr (hleft i (by omega))
    · rw [← Bool.not_eq_true, htest i (by omega)]
      exact hright i (by omega) (by omega)
  rw [hcount, Int.toNat_of_nonneg hr.1]

/-- `IxNodeHandle::InternalLookup`, as a run of `upper_bound`. -/
def IxPage.InternalLookupRun (page : IxPage (List UInt8)) (target : List UInt8) (type : ColType)
    (colLen : Int32) (r child : Int) : Prop :=
  (∃ reads, BoundRun false (page.compareTo target type colLen) 0 page.numKey reads r) ∧
    child = (page.rids (if r ≠ 0 then r - 1 else r).toNat).pageNo

/-- The index that `InternalLookup` takes. -/
theorem IxPage.Increasing.lookup (hp : page.Increasing type colLen)
    (hd : Decodes type colLen decode) (htarget : IsKey type colLen target) {child : Int}
    (h : page.InternalLookupRun target type colLen r child) :
    child = (page.rids (max (r - 1) 0).toNat).pageNo ∧
      ((∃ i : Nat, i < page.numKey ∧ decode (page.keys i) ≤ decode target) →
        IsGreatest {i : Nat | i < page.numKey ∧ decode (page.keys i) ≤ decode target}
          (max (r - 1) 0).toNat) := by
  obtain ⟨⟨reads, hrun⟩, rfl⟩ := h
  obtain ⟨hr, -, hleft, hright⟩ := (hp.boundRun hd htarget false).2 reads r hrun
  have hindex : (if r ≠ 0 then r - 1 else r) = max (r - 1) 0 := by
    split_ifs <;> omega
  refine ⟨by rw [hindex], fun ⟨i, hi, hle⟩ => ?_⟩
  -- some key is not above the target, so the search passed it
  have hpos : (i : Int) < r := by
    by_contra hge
    exact hright i (by omega) hi hle
  refine ⟨⟨by omega, hleft _ (by omega)⟩, fun j hj => ?_⟩
  by_contra hlt
  exact hright j (by omega) hj.1 hj.2

end Node

/-- The searches of a node, for keys that some linear order describes. -/
theorem IxPage.Increasing.search {κ : Type} [LinearOrder κ] {type : ColType} {colLen : Int32}
    {page : IxPage (List UInt8)} {target : List UInt8} {decode : List UInt8 → κ}
    (hp : page.Increasing type colLen) (hd : Decodes type colLen decode)
    (htarget : IsKey type colLen target) :
    page.Counts target type colLen true (· < 0) ∧ page.Counts target type colLen false (· ≤ 0) ∧
      (∃ r child, page.InternalLookupRun target type colLen r child) ∧
      ∀ r child, page.InternalLookupRun target type colLen r child →
        child = (page.rids (max (r - 1) 0).toNat).pageNo ∧
        ((∃ i : Nat, i < page.numKey ∧
            ixTest type colLen (· ≤ 0) (page.keys i) target = true) →
          IsGreatest {i : Nat | i < page.numKey ∧
            ixTest type colLen (· ≤ 0) (page.keys i) target = true} (max (r - 1) 0).toNat) := by
  have hle : ∀ i : Nat, i < page.numKey →
      (ixTest type colLen (· ≤ 0) (page.keys i) target = true ↔
        decode (page.keys i) ≤ decode target) :=
    fun i hi => hd.ixTest_le (hp.isKey i hi) htarget
  have hset : {i : Nat | i < page.numKey ∧ ixTest type colLen (· ≤ 0) (page.keys i) target = true} =
      {i : Nat | i < page.numKey ∧ decode (page.keys i) ≤ decode target} := by
    ext i
    exact and_congr_right fun hi => hle i hi
  refine ⟨hp.counts hd htarget fun i hi => hd.ixTest_lt (hp.isKey i hi) htarget,
    hp.counts hd htarget hle, ?_, fun r child hrun => ?_⟩
  · obtain ⟨reads, r, hrun⟩ := (hp.boundRun hd htarget false).1
    exact ⟨r, _, ⟨reads, hrun⟩, rfl⟩
  · obtain ⟨hchild, hgreatest⟩ := hp.lookup hd htarget hrun
    refine ⟨hchild, fun ⟨i, hi, htest⟩ => ?_⟩
    rw [hset]
    exact hgreatest ⟨i, hi, (hle i hi).mp htest⟩

/-- **The searches of a node.**  On keys that strictly increase under `ix_compare`, `lower_bound`
and `upper_bound` end, read live slots only and return the number of keys below the target and of
keys not above it.  `InternalLookup` returns the child in front of that place, or the first one:
the last child whose key is not above the target, if there is one. -/
theorem nodeSearch (page : IxPage (List UInt8)) (target : List UInt8) (type : ColType)
    (colLen : Int32) (hp : page.Increasing type colLen) (htarget : IsKey type colLen target) :
    page.Counts target type colLen true (· < 0) ∧ page.Counts target type colLen false (· ≤ 0) ∧
      (∃ r child, page.InternalLookupRun target type colLen r child) ∧
      ∀ r child, page.InternalLookupRun target type colLen r child →
        child = (page.rids (max (r - 1) 0).toNat).pageNo ∧
        ((∃ i : Nat, i < page.numKey ∧
            ixTest type colLen (· ≤ 0) (page.keys i) target = true) →
          IsGreatest {i : Nat | i < page.numKey ∧
            ixTest type colLen (· ≤ 0) (page.keys i) target = true} (max (r - 1) 0).toNat) := by
  cases type with
  | int => exact hp.search (decodes_int colLen) htarget
  | float => exact htarget.elim
  | string => exact hp.search (decodes_string colLen) htarget

/-- A node with the `int` keys 0, 1 and 2. -/
def threeKeys : IxPage (List UInt8) where
  parent := -1
  numKey := 3
  isLeaf := false
  prevLeaf := 0
  nextLeaf := 0
  keys := fun i => [.ofNat i, 0, 0, 0]
  rids := fun i => ⟨10 + i, 0⟩

theorem increasing_threeKeys : threeKeys.Increasing .int 4 := by
  refine ⟨by decide, fun i _ => ?_, fun i j hij hj => ?_⟩
  · exact le_refl 4
  · have hcases : i = 0 ∧ j = 1 ∨ i = 0 ∧ j = 2 ∨ i = 1 ∧ j = 2 := by
      have : threeKeys.numKey = 3 := rfl
      omega
    rcases hcases with ⟨rfl, rfl⟩ | ⟨rfl, rfl⟩ | ⟨rfl, rfl⟩ <;> exact ⟨-1, by decide, rfl⟩

theorem nodeSearch_threeKeys :
    threeKeys.Counts [1, 0, 0, 0] .int 4 true (· < 0) ∧
      threeKeys.Counts [1, 0, 0, 0] .int 4 false (· ≤ 0) := by
  have h := nodeSearch threeKeys [1, 0, 0, 0] .int 4 increasing_threeKeys (le_refl 4)
  exact ⟨h.1, h.2.1⟩

end Rucbase
