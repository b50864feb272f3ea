import Mathlib.Data.List.InsertIdx
import Mathlib.Order.Lattice
import Rucbase.Index.IxIndexHandle
import Rucbase.Index.Slots

/-!
# Nodes and their slots

The binary searches of `IxNodeHandle` in a node whose keys increase from slot 1 on
(`isBound_boundLoop`: the first key of an internal node is never read to any effect except at the
very left), and the operations of `IxNodeHandle` as operations on lists (`IxPage.Shows`).
-/

namespace Rucbase

variable {κ α β : Type}

/-! ### Binary search -/

/-- The search ends between its bounds, however the keys compare. -/
theorem boundLoop_range [IxKey κ] (op : Bool) (keys : Nat → κ) (target : κ) (rounds : Nat) :
    ∀ {left right : Nat}, left ≤ right →
      ∃ r : Nat, IxPage.boundLoop op keys target rounds left right = r ∧ left ≤ r ∧ r ≤ right := by
  induction rounds with
  | zero =>
    intro left right hle
    exact ⟨left, rfl, le_refl _, hle⟩
  | succ rounds ih =>
    intro left right hle
    have hmid : ((left : Int) + right) / 2 = ((left + right) / 2 : Nat) := by omega
    have hnext : (((left + right) / 2 : Nat) : Int) + 1 = ((left + right) / 2 + 1 : Nat) := rfl
    simp only [IxPage.boundLoop, hmid, hnext]
    by_cases hlt : left < right
    · rw [if_pos (by omega)]
      have hdown := ih (show left ≤ (left + right) / 2 by omega)
      have hup := ih (show (left + right) / 2 + 1 ≤ right by omega)
      split_ifs
      · exact hdown.imp fun r hr => ⟨hr.1, hr.2.1, by omega⟩
      · exact hup.imp fun r hr => ⟨hr.1, by omega, hr.2.2⟩
      · exact hdown.imp fun r hr => ⟨hr.1, hr.2.1, by omega⟩
    · rw [if_neg (by omega)]
      exact ⟨left, rfl, le_refl _, hle⟩

section Search

variable [LinearOrder κ]

theorem ixCompare_nonneg_iff {a b : κ} : ixCompare a b ≥ 0 ↔ b ≤ a := by
  rw [ixCompare_eq]
  by_cases h : a < b
  · simp [h]
  · rw [if_neg h]
    by_cases h' : b < a
    · simp [h', h'.le]
    · simp [h', not_lt.mp h]

@[simp]
theorem ixCompare_eq_zero_iff {a b : κ} : ixCompare a b = 0 ↔ a = b := by
  rw [ixCompare_eq]
  rcases lt_trichotomy a b with h | h | h
  · simp [h, h.ne]
  · simp [h]
  · simp [h, h.ne', h.not_gt]

@[simp]
theorem ixCompare_neg_iff {a b : κ} : ixCompare a b < 0 ↔ a < b := by
  rw [← not_iff_not, not_lt, not_lt]
  exact ixCompare_nonneg_iff

@[simp]
theorem ixCompare_nonpos_iff {a b : κ} : ixCompare a b ≤ 0 ↔ a ≤ b := by
  rw [le_iff_lt_or_eq, ixCompare_neg_iff, ixCompare_eq_zero_iff, le_iff_lt_or_eq]

/-- The comparison that sends the search to the right. -/
def GoesRight (op : Bool) (target key : κ) : Prop := if op then key < target else key ≤ target

theorem goesRight_iff {op : Bool} {target key : κ} :
    GoesRight op target key ↔
      ixCompare target key ≥ 0 ∧ ¬(op = true ∧ ixCompare target key = 0) := by
  rw [ixCompare_nonneg_iff, ixCompare_eq_zero_iff]
  cases op with
  | true =>
    show key < target ↔ _
    constructor
    · intro h
      exact ⟨h.le, fun h' => h.ne h'.2.symm⟩
    · rintro ⟨h1, h2⟩
      exact lt_of_le_of_ne h1 fun h => h2 ⟨rfl, h.symm⟩
  | false =>
    show key ≤ target ↔ _
    simp

theorem GoesRight.of_le {op : Bool} {target a b : κ} (h : GoesRight op target b) (hab : a ≤ b) :
    GoesRight op target a := by
  cases op with
  | true => exact lt_of_le_of_lt hab h
  | false => exact le_trans hab h

/-- One round of the search. -/
theorem boundLoop_succ (op : Bool) (keys : Nat → κ) (target : κ) (rounds left right : Nat) :
    (left < right →
      (GoesRight op target (keys ((left + right) / 2)) →
        IxPage.boundLoop op keys target (rounds + 1) left right =
          IxPage.boundLoop op keys target rounds ((left + right) / 2 + 1 : Nat) right) ∧
      (¬GoesRight op target (keys ((left + right) / 2)) →
        IxPage.boundLoop op keys target (rounds + 1) left right =
          IxPage.boundLoop op keys target rounds left ((left + right) / 2 : Nat))) ∧
    (¬left < right → IxPage.boundLoop op keys target (rounds + 1) left right = left) := by
  have hmid : ((left : Int) + right) / 2 = ((left + right) / 2 : Nat) := by omega
  have htoNat : (((left + right) / 2 : Nat) : Int).toNat = (left + right) / 2 := Int.toNat_natCast _
  refine ⟨fun hlt => ⟨fun hgo => ?_, fun hgo => ?_⟩, fun hge => ?_⟩
  · rw [goesRight_iff] at hgo
    simp only [IxPage.boundLoop, hmid, htoNat]
    rw [if_pos (by omega), if_pos hgo.1, if_neg hgo.2]
    rfl
  · rw [goesRight_iff] at hgo
    simp only [IxPage.boundLoop, hmid, htoNat]
    rw [if_pos (by omega)]
    by_cases h : ixCompare target (keys ((left + right) / 2)) ≥ 0
    · rw [if_pos h, if_pos (by tauto)]
    · rw [if_neg h]
  · rw [IxPage.boundLoop, if_neg (by omega)]

/-- Where the search ends in `n` slots whose keys increase from slot 1 on: it has all smaller keys
on its left, and slot 0 counts only if no other slot does. -/
structure IsBound (op : Bool) (keys : Nat → κ) (target : κ) (n r : Nat) : Prop where
  le : r ≤ n
  left : ∀ i, 1 ≤ i → i < r → GoesRight op target (keys i)
  right : ∀ i, 1 ≤ i → r ≤ i → i < n → ¬GoesRight op target (keys i)
  first : r = 1 → GoesRight op target (keys 0)
  zero : r = 0 → 1 ≤ n → ¬GoesRight op target (keys 0)

/-- **The binary search.** -/
theorem isBound_boundLoop {op : Bool} {keys : Nat → κ} {target : κ} {n : Nat}
    (hmono : ∀ i j, 1 ≤ i → i ≤ j → j < n → keys i ≤ keys j) :
    ∀ (rounds : Nat) {left right : Nat}, left ≤ right → right ≤ n → right - left ≤ rounds →
      (∀ i, 1 ≤ i → i < left → GoesRight op target (keys i)) →
      (∀ i, 1 ≤ i → right ≤ i → i < n → ¬GoesRight op target (keys i)) →
      (left = 1 → GoesRight op target (keys 0)) →
      (right = 0 → 1 ≤ n → ¬GoesRight op target (keys 0)) →
      IsBound op keys target n (IxPage.boundLoop op keys target rounds left right).toNat := by
  intro rounds
  induction rounds with
  | zero =>
    intro left right hle hn hrounds hl hr hfirst hzero
    have heq : left = right := by omega
    subst heq
    exact ⟨hn, hl, hr, hfirst, hzero⟩
  | succ rounds ih =>
    intro left right hle hn hrounds hl hr hfirst hzero
    obtain ⟨hround, hend⟩ := boundLoop_succ op keys target rounds left right
    by_cases hlt : left < right
    · by_cases hgo : GoesRight op target (keys ((left + right) / 2))
      · -- everything up to the middle goes right
        rw [(hround hlt).1 hgo]
        refine ih (by omega) hn (by omega) (fun i h1 h2 => ?_) hr (fun hone => ?_) hzero
        · exact hgo.of_le (hmono i _ h1 (by omega) (by omega))
        · have hmid : (left + right) / 2 = 0 := by omega
          rwa [hmid] at hgo
      · rw [(hround hlt).2 hgo]
        refine ih (by omega) (by omega) (by omega) hl (fun i h1 h2 h3 hi => ?_) hfirst
          (fun hmid _ => ?_)
        · by_cases hmid : 1 ≤ (left + right) / 2
          · exact hgo (hi.of_le (hmono _ i hmid h2 h3))
          · -- the middle is slot 0, and slot 1 is not to the left of `right`
            exact hr i h1 (by omega) h3 hi
        · rwa [hmid] at hgo
    · rw [hend hlt]
      have heq : left = right := by omega
      subst heq
      exact ⟨hn, hl, hr, hfirst, hzero⟩

end Search

/-! ### Keys of slots -/

namespace Slots

variable {s : Slots κ α} {i j : Nat} {k : κ} {v : α}

theorem keyAt_eq_elim (s : Slots κ α) (i : Nat) :
    s.keyAt i = s.entries[i]?.elim (s.stale (i - s.size)) Prod.fst := by
  rw [keyAt]
  cases s.entries[i]? with
  | none => rfl
  | some e => rfl

theorem keyAt_of_getElem? {e : κ × α} (h : s.entries[i]? = some e) : s.keyAt i = e.1 := by
  rw [keyAt, h]

theorem keyAt_of_ge (h : s.size ≤ i) : s.keyAt i = s.stale (i - s.size) := by
  rw [keyAt, List.getElem?_eq_none h]

@[simp]
theorem size_map (f : α → β) : (s.map f).size = s.size := List.length_map _

@[simp]
theorem keyAt_map (f : α → β) : (s.map f).keyAt = s.keyAt := by
  ext i
  simp only [keyAt_eq_elim]
  show ((s.entries.map fun e => (e.1, f e.2))[i]?).elim (s.stale (i - (s.map f).size)) Prod.fst = _
  rw [size_map, List.getElem?_map]
  cases s.entries[i]? with
  | none => rfl
  | some e => rfl

@[simp]
theorem size_insertAt (h : i ≤ s.size) : (s.insertAt i k v).size = s.size + 1 :=
  List.length_insertIdx_of_le_length h _

theorem keyAt_insertAt (h : i ≤ s.size) (j : Nat) :
    (s.insertAt i k v).keyAt j =
      if j < i then s.keyAt j else if j < i + 1 then k
      else if j < s.size + 1 then s.keyAt (j - 1) else s.keyAt j := by
  have hget := @List.getElem?_insertIdx _ s.entries (k, v) i j
  simp only [keyAt_eq_elim]
  rw [size_insertAt h]
  show ((s.entries.insertIdx i (k, v))[j]?).elim (s.stale (j - (s.size + 1) + 1)) Prod.fst = _
  rw [hget]
  by_cases h1 : j < i
  · simp only [if_pos h1, Option.elim_some, List.getElem?_eq_getElem (show j < s.entries.length by
      have : i ≤ s.entries.length := h
      omega)]
  · rw [if_neg h1, if_neg h1]
    by_cases h2 : j = i
    · subst h2
      rw [if_pos rfl, if_pos (show j ≤ s.entries.length from h), if_pos (by omega), Option.elim_some]
    · rw [if_neg h2, if_neg (by omega)]
      by_cases h3 : j < s.size + 1
      · -- an entry behind the position
        have hlt : j - 1 < s.entries.length := by
          have : s.size = s.entries.length := rfl
          omega
        rw [if_pos h3, List.getElem?_eq_getElem hlt, Option.elim_some, Option.elim_some]
      · have hge : s.entries.length ≤ j - 1 := by
          have : s.size = s.entries.length := rfl
          omega
        rw [if_neg h3, List.getElem?_eq_none hge, List.getElem?_eq_none (by omega)]
        show s.stale _ = s.stale _
        congr 1
        omega

@[simp]
theorem size_eraseAt (h : i < s.size) : (s.eraseAt i).size = s.size - 1 :=
  List.length_eraseIdx_of_lt h

theorem keyAt_eraseAt (h : i < s.size) (j : Nat) :
    (s.eraseAt i).keyAt j = if i ≤ j ∧ j < s.size then s.keyAt (j + 1) else s.keyAt j := by
  have hsize : s.size = s.entries.length := rfl
  have hget := @List.getElem?_eraseIdx _ s.entries i j
  simp only [keyAt_eq_elim]
  rw [size_eraseAt h]
  show ((s.entries.eraseIdx i)[j]?).elim (s.stale (j - (s.size - 1) - 1)) Prod.fst = _
  rw [hget]
  by_cases h1 : j < i
  · simp only [if_pos h1, if_neg (show ¬(i ≤ j ∧ j < s.size) by omega), Option.elim_some,
      List.getElem?_eq_getElem (show j < s.entries.length by omega)]
  · rw [if_neg h1]
    by_cases h2 : j < s.size
    · rw [if_pos ⟨by omega, h2⟩]
      by_cases h3 : j + 1 < s.size
      · rw [List.getElem?_eq_getElem (show j + 1 < s.entries.length by omega), Option.elim_some,
          Option.elim_some]
      · -- the last slot takes the key of the first stale one
        rw [List.getElem?_eq_none (show s.entries.length ≤ j + 1 by omega)]
        show s.stale _ = s.stale _
        congr 1
        omega
    · rw [if_neg (by omega), List.getElem?_eq_none (show s.entries.length ≤ j + 1 by omega),
        List.getElem?_eq_none (show s.entries.length ≤ j by omega)]
      show s.stale _ = s.stale _
      congr 1
      omega

@[simp]
theorem size_append (s t : Slots κ α) : (s.append t).size = s.size + t.size := List.length_append

theorem keyAt_append (s t : Slots κ α) (j : Nat) :
    (s.append t).keyAt j =
      if j < s.size then s.keyAt j
      else if j < s.size + t.size then t.keyAt (j - s.size) else s.keyAt j := by
  have hs : s.size = s.entries.length := rfl
  have ht : t.size = t.entries.length := rfl
  simp only [keyAt_eq_elim]
  rw [size_append]
  show ((s.entries ++ t.entries)[j]?).elim (s.stale (t.size + (j - (s.size + t.size)))) Prod.fst = _
  by_cases h1 : j < s.size
  · rw [if_pos h1, List.getElem?_append_left (by omega), List.getElem?_eq_getElem (by omega),
      Option.elim_some, Option.elim_some]
  · rw [if_neg h1, List.getElem?_append_right (by omega)]
    by_cases h2 : j < s.size + t.size
    · rw [if_pos h2, ← hs, List.getElem?_eq_getElem (by omega), Option.elim_some, Option.elim_some]
    · rw [if_neg h2, List.getElem?_eq_none (by omega), List.getElem?_eq_none (by omega)]
      show s.stale _ = s.stale _
      congr 1
      omega

@[simp]
theorem size_setKey : (s.setKey i k).size = s.size := List.length_modify _ _ _

theorem keyAt_setKey (h : i < s.size) : (s.setKey i k).keyAt = Function.update s.keyAt i k := by
  ext j
  simp only [keyAt_eq_elim]
  rw [size_setKey]
  show ((s.entries.modify i fun e => (k, e.2))[j]?).elim (s.stale (j - s.size)) Prod.fst = _
  rw [List.getElem?_modify]
  by_cases hj : j = i
  · subst hj
    rw [Function.update_self, List.getElem?_eq_getElem h]
    simp
  · rw [Function.update_of_ne hj, keyAt_eq_elim]
    cases s.entries[j]? with
    | none => rfl
    | some e => simp [Ne.symm hj]

@[simp]
theorem size_leftHalf : s.leftHalf.size = s.size / 2 := by
  have hs : s.size = s.entries.length := rfl
  show (s.entries.take (s.size / 2)).length = _
  rw [List.length_take]
  omega

/-- The slots of the node stay as they are when it is split. -/
@[simp]
theorem keyAt_leftHalf : s.leftHalf.keyAt = s.keyAt := by
  ext j
  by_cases h : j < s.size / 2
  · have hget : s.leftHalf.entries[j]? = s.entries[j]? := by
      show (s.entries.take (s.size / 2))[j]? = _
      rw [List.getElem?_take_of_lt h]
    have hs : s.size = s.entries.length := rfl
    simp only [keyAt_eq_elim]
    rw [hget, List.getElem?_eq_getElem (show j < s.entries.length by omega), Option.elim_some,
      Option.elim_some]
  · rw [keyAt_of_ge (by rw [size_leftHalf]; omega)]
    show s.keyAt _ = _
    congr 1
    rw [size_leftHalf]
    omega

@[simp]
theorem size_rightHalf [Inhabited κ] : s.rightHalf.size = s.size - s.size / 2 := List.length_drop

theorem keyAt_rightHalf [Inhabited κ] (j : Nat) :
    s.rightHalf.keyAt j = if j < s.size - s.size / 2 then s.keyAt (s.size / 2 + j) else default := by
  have hs : s.size = s.entries.length := rfl
  simp only [keyAt_eq_elim]
  show ((s.entries.drop (s.size / 2))[j]?).elim default Prod.fst = _
  rw [List.getElem?_drop]
  by_cases h : j < s.size - s.size / 2
  · rw [if_pos h, List.getElem?_eq_getElem (by omega), Option.elim_some, Option.elim_some]
  · rw [if_neg h, List.getElem?_eq_none (by omega), Option.elim_none]

/-! ### Values do not matter to the keys -/

section Map

variable (f : α → β)

theorem map_insertAt : (s.insertAt i k v).map f = (s.map f).insertAt i k (f v) := by
  show Slots.mk ((s.entries.insertIdx i (k, v)).map _) _ = Slots.mk _ _
  rw [List.map_insertIdx]
  rfl

theorem map_eraseAt : (s.eraseAt i).map f = (s.map f).eraseAt i := by
  show Slots.mk ((s.entries.eraseIdx i).map _) _ = Slots.mk _ _
  rw [← List.eraseIdx_map]
  rfl

theorem map_leftHalf : s.leftHalf.map f = (s.map f).leftHalf := by
  show Slots.mk ((s.entries.take (s.size / 2)).map _) _ = Slots.mk _ _
  rw [List.map_take, size_map, keyAt_map]
  rfl

theorem map_rightHalf [Inhabited κ] : s.rightHalf.map f = (s.map f).rightHalf := by
  show Slots.mk ((s.entries.drop (s.size / 2)).map _) _ = Slots.mk _ _
  rw [List.map_drop, size_map]
  rfl

variable [LinearOrder κ]

@[simp]
theorem lowerBound_map (t : κ) : (s.map f).lowerBound t = s.lowerBound t := by
  simp [lowerBound]

@[simp]
theorem upperBound_map (t : κ) : (s.map f).upperBound t = s.upperBound t := by
  simp [upperBound]

@[simp]
theorem lookupIndex_map (t : κ) : (s.map f).lookupIndex t = s.lookupIndex t := by
  simp [lookupIndex]

theorem map_insert : (s.insert k v).map f = (s.map f).insert k (f v) := by
  unfold insert
  rw [lowerBound_map, keyAt_map]
  split_ifs
  · rfl
  · exact map_insertAt f

end Map

section Bounds

variable [LinearOrder κ]

theorem boundLoop_lowerBound (s : Slots κ α) (t : κ) :
    IxPage.boundLoop true s.keyAt t s.size 0 s.size = s.lowerBound t ∧ s.lowerBound t ≤ s.size := by
  obtain ⟨r, hr, -, hle⟩ := boundLoop_range true s.keyAt t s.size (Nat.zero_le s.size)
  have hr' : IxPage.boundLoop true s.keyAt t s.size 0 s.size = r := hr
  rw [lowerBound, hr', Int.toNat_natCast]
  exact ⟨rfl, hle⟩

theorem boundLoop_upperBound (s : Slots κ α) (t : κ) :
    IxPage.boundLoop false s.keyAt t s.size 0 s.size = s.upperBound t ∧ s.upperBound t ≤ s.size := by
  obtain ⟨r, hr, -, hle⟩ := boundLoop_range false s.keyAt t s.size (Nat.zero_le s.size)
  have hr' : IxPage.boundLoop false s.keyAt t s.size 0 s.size = r := hr
  rw [upperBound, hr', Int.toNat_natCast]
  exact ⟨rfl, hle⟩

theorem lowerBound_le (s : Slots κ α) (t : κ) : s.lowerBound t ≤ s.size :=
  (boundLoop_lowerBound s t).2

theorem lookupIndex_lt {s : Slots κ α} (h : s.size ≠ 0) (t : κ) : s.lookupIndex t < s.size := by
  have := (boundLoop_upperBound s t).2
  unfold lookupIndex
  omega

theorem insert_of_eq {s : Slots κ α} (hk : s.keyAt (s.lowerBound k) = k) (v : α) :
    s.insert k v = s := if_pos hk

theorem insert_of_ne {s : Slots κ α} (hk : s.keyAt (s.lowerBound k) ≠ k) (v : α) :
    s.insert k v = s.insertAt (s.lowerBound k) k v := if_neg hk

theorem size_insert (s : Slots κ α) (k : κ) (v : α) :
    (s.insert k v).size =
      if s.keyAt (s.lowerBound k) = k then s.size else s.size + 1 := by
  unfold insert
  split_ifs
  · rfl
  · exact size_insertAt (lowerBound_le s k)

end Bounds

end Slots

/-! ### Pages -/

/-- The live entries of a page. -/
def IxPage.live (page : IxPage κ) : List (κ × Rid) :=
  (List.range page.numKey.toNat).map fun i => (page.keys i, page.rids i)

/-- The slots of a page. -/
def IxPage.slots (page : IxPage κ) : Slots κ Rid where
  entries := page.live
  stale := fun i => page.keys (page.numKey.toNat + i)

/-- The page shows these slots. -/
structure IxPage.Shows (page : IxPage κ) (s : Slots κ Rid) : Prop where
  numKey : page.numKey = s.size
  keys : page.keys = s.keyAt
  rids : ∀ {i e}, s.entries[i]? = some e → page.rids i = e.2

namespace IxPage.Shows

variable {page page' : IxPage κ} {s t : Slots κ Rid} {i : Nat} {k : κ} {v : Rid}

theorem toNat_numKey (h : page.Shows s) : page.numKey.toNat = s.size := by
  rw [h.numKey, Int.toNat_natCast]

/-- The live entries of the page. -/
theorem live (h : page.Shows s) : page.live = s.entries := by
  have hs : s.size = s.entries.length := rfl
  ext i e
  rw [IxPage.live, h.toNat_numKey, List.getElem?_map]
  by_cases hi : i < s.size
  · have hget := List.getElem?_eq_getElem (show i < s.entries.length from hi)
    rw [List.getElem?_range hi, Option.map_some, hget, h.keys, Slots.keyAt_of_getElem? hget,
      h.rids hget]
  · rw [List.getElem?_eq_none (by rw [List.length_range]; omega),
      List.getElem?_eq_none (by omega)]
    rfl

/-- `insert_pair`. -/
theorem insertPair (h : page.Shows s) (hi : i ≤ s.size) :
    (page.insertPair i k v).Shows (s.insertAt i k v) := by
  have hnum := h.numKey
  have hdef : page.insertPair i k v = { page with
      keys := fun j => if (j : Int) < i then page.keys j
        else if (j : Int) < i + 1 then k
        else if (j : Int) < page.numKey + 1 then page.keys (j - 1) else page.keys j
      rids := fun j => if (j : Int) < i then page.rids j
        else if (j : Int) < i + 1 then v
        else if (j : Int) < page.numKey + 1 then page.rids (j - 1) else page.rids j
      numKey := page.numKey + 1 } := by
    rw [IxPage.insertPair, IxPage.insertPairs, if_pos (by omega)]
    rfl
  rw [hdef]
  refine ⟨?_, ?_, fun {j e} he => ?_⟩
  · show page.numKey + 1 = _
    rw [Slots.size_insertAt hi]
    omega
  · ext j
    rw [Slots.keyAt_insertAt hi]
    show (if (j : Int) < i then page.keys j else if (j : Int) < i + 1 then k
      else if (j : Int) < page.numKey + 1 then page.keys (j - 1) else page.keys j) = _
    rw [h.keys, hnum]
    norm_cast
  · show (if (j : Int) < i then page.rids j else if (j : Int) < i + 1 then v
      else if (j : Int) < page.numKey + 1 then page.rids (j - 1) else page.rids j) = e.2
    have hget : (s.entries.insertIdx i (k, v))[j]? = some e := he
    rw [List.getElem?_insertIdx] at hget
    by_cases h1 : j < i
    · rw [if_pos h1] at hget
      rw [if_pos (by omega), h.rids hget]
    · rw [if_neg h1] at hget
      rw [if_neg (by omega)]
      by_cases h2 : j = i
      · rw [if_pos h2, if_pos (by rw [h2]; exact hi), Option.some.injEq] at hget
        rw [if_pos (by omega), ← hget]
      · rw [if_neg h2] at hget
        have hlt := (List.getElem?_eq_some_iff.mp hget).1
        have hs : s.size = s.entries.length := rfl
        rw [if_neg (by omega), if_pos (by omega), h.rids hget]

/-- `erase_pair`. -/
theorem erasePair (h : page.Shows s) (hi : i < s.size) :
    (page.erasePair i).Shows (s.eraseAt i) := by
  have hnum := h.numKey
  refine ⟨?_, ?_, fun {j e} he => ?_⟩
  · show page.numKey - 1 = _
    rw [Slots.size_eraseAt hi]
    omega
  · ext j
    rw [Slots.keyAt_eraseAt hi]
    show (if (i : Int) ≤ j ∧ (j : Int) < page.numKey then page.keys (j + 1) else page.keys j) = _
    rw [h.keys, hnum]
    norm_cast
  · show (if (i : Int) ≤ j ∧ (j : Int) < page.numKey then page.rids (j + 1) else page.rids j) = e.2
    have hget : (s.entries.eraseIdx i)[j]? = some e := he
    rw [List.getElem?_eraseIdx] at hget
    by_cases h1 : j < i
    · rw [if_pos h1] at hget
      rw [if_neg (by omega), h.rids hget]
    · rw [if_neg h1] at hget
      have hlt := (List.getElem?_eq_some_iff.mp hget).1
      have hs : s.size = s.entries.length := rfl
      rw [if_pos (by omega), h.rids hget]

/-- Every page shows its own slots. -/
theorem of_nonneg (hnum : 0 ≤ page.numKey) : page.Shows page.slots := by
  have hsize : page.slots.size = page.numKey.toNat := by
    show page.live.length = _
    rw [IxPage.live, List.length_map, List.length_range]
  have hget : ∀ {i e}, page.slots.entries[i]? = some e → e = (page.keys i, page.rids i) := by
    intro i e he
    obtain ⟨j, hj, rfl⟩ := Option.map_eq_some_iff.mp (List.getElem?_map ▸ he)
    obtain ⟨-, rfl⟩ := List.getElem?_eq_some_iff.mp hj
    rw [List.getElem_range]
  constructor
  · rw [hsize, Int.toNat_of_nonneg hnum]
  · ext i
    by_cases hi : i < page.slots.size
    · have he := List.getElem?_eq_getElem (show i < page.slots.entries.length from hi)
      rw [Slots.keyAt_of_getElem? he, hget he]
    · rw [Slots.keyAt_of_ge (by omega)]
      show _ = page.keys _
      rw [hsize] at hi ⊢
      congr 1
      omega
  · intro i e he
    rw [hget he]

/-- `insert_pairs` of all entries of another node, at the end. -/
theorem insertPairs (h : page.Shows s) (h' : page'.Shows t) :
    (page.insertPairs page.numKey page'.keys page'.rids page'.numKey).Shows (s.append t) := by
  have hnum := h.numKey
  have hnum' := h'.numKey
  rw [IxPage.insertPairs, if_pos (by omega)]
  refine ⟨?_, ?_, fun {j e} he => ?_⟩
  · show page.numKey + page'.numKey = _
    rw [Slots.size_append]
    omega
  · ext j
    rw [Slots.keyAt_append]
    show (if (j : Int) < page.numKey then page.keys j
      else if (j : Int) < page.numKey + page'.numKey then page'.keys (j - page.numKey.toNat)
      else if (j : Int) < page.numKey + page'.numKey then page.keys (j - page'.numKey.toNat)
      else page.keys j) = _
    rw [h.keys, h'.keys, hnum, hnum', Int.toNat_natCast, Int.toNat_natCast]
    norm_cast
    split_ifs <;> rfl
  · show (if (j : Int) < page.numKey then page.rids j
      else if (j : Int) < page.numKey + page'.numKey then page'.rids (j - page.numKey.toNat)
      else if (j : Int) < page.numKey + page'.numKey then page.rids (j - page'.numKey.toNat)
      else page.rids j) = e.2
    have hs : s.size = s.entries.length := rfl
    have ht : t.size = t.entries.length := rfl
    have hget : (s.entries ++ t.entries)[j]? = some e := he
    by_cases h1 : j < s.size
    · rw [List.getElem?_append_left (by omega)] at hget
      rw [if_pos (by omega), h.rids hget]
    · rw [List.getElem?_append_right (by omega)] at hget
      have hlt := (List.getElem?_eq_some_iff.mp hget).1
      rw [if_neg (by omega), if_pos (by omega), h.toNat_numKey, hs, h'.rids hget]

/-- `set_key`. -/
theorem setKey (h : page.Shows s) (hi : i < s.size) : (page.setKey i k).Shows (s.setKey i k) := by
  refine ⟨?_, ?_, fun {j e} he => ?_⟩
  · rw [Slots.size_setKey]
    exact h.numKey
  · rw [Slots.keyAt_setKey hi, ← h.keys]
    rfl
  · have hget : (s.entries.modify i fun e => (k, e.2))[j]? = some e := he
    rw [List.getElem?_modify] at hget
    obtain ⟨e', he', rfl⟩ := Option.map_eq_some_iff.mp hget
    rw [show (page.setKey i k).rids = page.rids from rfl, h.rids he']
    split_ifs
    · rfl
    · rfl

/-- `evenlyDistributePairs`. -/
theorem evenlyDistributePairs [Inhabited κ] (h : page.Shows s)
    (hnew : page'.keys = fun _ => default) :
    (IxIndexHandle.evenlyDistributePairs page' page).1.Shows s.rightHalf ∧
      (IxIndexHandle.evenlyDistributePairs page' page).2.Shows s.leftHalf := by
  have hnum := h.numKey
  have hs : s.size = s.entries.length := rfl
  have hhalf : page.numKey / 2 = (s.size / 2 : Nat) := by omega
  have hmoved : page.numKey - page.numKey / 2 = (s.size - s.size / 2 : Nat) := by omega
  refine ⟨⟨?_, ?_, fun {j e} he => ?_⟩, ⟨?_, ?_, fun {j e} he => ?_⟩⟩
  · show page.numKey - page.numKey / 2 = _
    rw [Slots.size_rightHalf, hmoved]
  · ext j
    rw [Slots.keyAt_rightHalf]
    show (if (j : Int) < page.numKey - page.numKey / 2 then
      page.keys ((page.numKey / 2).toNat + j) else page'.keys j) = _
    rw [hmoved, hhalf, h.keys, hnew, Int.toNat_natCast]
    norm_cast
  · have hget : (s.entries.drop (s.size / 2))[j]? = some e := he
    rw [List.getElem?_drop] at hget
    have hlt := (List.getElem?_eq_some_iff.mp hget).1
    show (if (j : Int) < page.numKey - page.numKey / 2 then
      page.rids ((page.numKey / 2).toNat + j) else page'.rids j) = e.2
    rw [hmoved, if_pos (by omega), hhalf, Int.toNat_natCast, h.rids hget]
  · show page.numKey / 2 = _
    rw [Slots.size_leftHalf, hhalf]
  · show page.keys = _
    rw [Slots.keyAt_leftHalf, h.keys]
  · have hget : (s.entries.take (s.size / 2))[j]? = some e := he
    rw [List.getElem?_take] at hget
    split_ifs at hget
    exact h.rids hget

/-- `find_child` finds the first entry that points to the page. -/
theorem findChild (h : page.Shows s) {e : κ × Rid} (he : s.entries[i]? = some e)
    (hfirst : ∀ j e', j < i → s.entries[j]? = some e' → e'.2.pageNo ≠ e.2.pageNo) :
    page.findChild e.2.pageNo = some (i : Int) := by
  have hlt := (List.getElem?_eq_some_iff.mp he).1
  have hs : s.size = s.entries.length := rfl
  have hfind : (List.range page.numKey.toNat).find? (fun j => (page.rids j).pageNo = e.2.pageNo) =
      some i := by
    rw [h.toNat_numKey, List.find?_range_eq_some]
    refine ⟨by simp [h.rids he], List.mem_range.mpr (by omega), fun j hj => ?_⟩
    have hj' := List.getElem?_eq_getElem (show j < s.entries.length by omega)
    simpa [h.rids hj'] using hfirst j _ hj hj'
  rw [IxPage.findChild, hfind]
  rfl

section Search

variable [LinearOrder κ]

theorem lowerBound (h : page.Shows s) (k : κ) : page.lowerBound k = s.lowerBound k := by
  rw [IxPage.lowerBound, h.keys, h.numKey, Int.toNat_natCast]
  exact (s.boundLoop_lowerBound k).1

theorem upperBound (h : page.Shows s) (k : κ) : page.upperBound k = s.upperBound k := by
  rw [IxPage.upperBound, h.keys, h.numKey, Int.toNat_natCast]
  exact (s.boundLoop_upperBound k).1

/-- `Insert`. -/
theorem insert (h : page.Shows s) (k : κ) (v : Rid) : (page.insert k v).Shows (s.insert k v) := by
  unfold IxPage.insert Slots.insert
  simp only [h.lowerBound k, Int.toNat_natCast, h.keys, ixCompare_eq_zero_iff]
  by_cases heq : s.keyAt (s.lowerBound k) = k
  · rw [if_pos heq, if_pos heq.symm]
    exact h
  · rw [if_neg heq, if_neg fun h' => heq h'.symm]
    exact h.insertPair (s.lowerBound_le k)

/-- `Remove` of a live key. -/
theorem remove (h : page.Shows s) (hlt : s.lowerBound k < s.size)
    (hk : s.keyAt (s.lowerBound k) = k) : (page.remove k).Shows (s.eraseAt (s.lowerBound k)) := by
  unfold IxPage.remove
  simp only [h.lowerBound k, Int.toNat_natCast, h.keys, ixCompare_eq_zero_iff]
  rw [if_pos hk.symm]
  exact h.erasePair hlt

theorem remove_of_ne (h : page.Shows s) (hk : s.keyAt (s.lowerBound k) ≠ k) :
    page.remove k = page := by
  unfold IxPage.remove
  simp only [h.lowerBound k, Int.toNat_natCast, h.keys, ixCompare_eq_zero_iff]
  rw [if_neg hk.symm]

/-- `InternalLookup`. -/
theorem internalLookup (h : page.Shows s) {e : κ × Rid}
    (he : s.entries[s.lookupIndex k]? = some e) : page.internalLookup k = e.2.pageNo := by
  have hub : page.upperBound k = s.upperBound k := by
    rw [IxPage.upperBound, h.keys, h.numKey, Int.toNat_natCast]
    exact (s.boundLoop_upperBound k).1
  have hidx : (if page.upperBound k ≠ 0 then page.upperBound k - 1 else page.upperBound k).toNat =
      s.lookupIndex k := by
    rw [hub]
    unfold Slots.lookupIndex
    split_ifs <;> omega
  show (page.rids _).pageNo = _
  rw [hidx, h.rids he]

theorem locateKeyIndex (h : page.Shows s) (k : κ) :
    page.locateKeyIndex k =
      if s.lowerBound k ≠ s.size ∧ s.keyAt (s.lowerBound k) = k then (s.lowerBound k : Int)
      else -1 := by
  unfold IxPage.locateKeyIndex
  simp only [h.lowerBound k, Int.toNat_natCast, h.keys, h.numKey, ixCompare_eq_zero_iff, ne_eq,
    Int.natCast_inj, eq_comm (a := k)]

/-- `LeafLookup`. -/
theorem leafLookup (h : page.Shows s) (k : κ) : page.leafLookup k = s.leafLookup k := by
  have hs : s.size = s.entries.length := rfl
  have hle := s.lowerBound_le k
  unfold IxPage.leafLookup Slots.leafLookup
  simp only [h.locateKeyIndex k]
  by_cases hend : s.lowerBound k = s.size
  · rw [List.getElem?_eq_none (by omega)]
    simp [hend]
  · have hget := List.getElem?_eq_getElem (show s.lowerBound k < s.entries.length by omega)
    have hkey := Slots.keyAt_of_getElem? hget
    by_cases heq : s.keyAt (s.lowerBound k) = k
    · have hidx : (if s.lowerBound k ≠ s.size ∧ s.keyAt (s.lowerBound k) = k then
          (s.lowerBound k : Int) else -1) = (s.lowerBound k : Int) := if_pos ⟨hend, heq⟩
      rw [hidx, if_pos (by omega), Int.toNat_natCast, h.rids hget, hget]
      exact (if_pos (hkey.symm.trans heq)).symm
    · have hidx : (if s.lowerBound k ≠ s.size ∧ s.keyAt (s.lowerBound k) = k then
          (s.lowerBound k : Int) else -1) = -1 := if_neg fun h' => heq h'.2
      rw [hidx, if_neg (by omega), hget]
      exact (if_neg fun h' => heq (hkey.trans h')).symm

end Search

end IxPage.Shows

end Rucbase
