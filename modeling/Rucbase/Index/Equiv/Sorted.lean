import Rucbase.Index.Equiv.Slots

/-!
# Sorted nodes

`SortedFrom n` is a node whose keys increase from slot `n` on.  Leaves are sorted from slot 0.  The
first key of an inner node is only a copy that may be out of date, so what the search in an inner
node needs is `SortedFrom 1`; the searches then end where they should (`lowerBound_spec`,
`upperBound_spec`), and every operation on a node keeps it sorted.
-/

namespace Rucbase.Slots

variable {κ α : Type} [LinearOrder κ] {s : Slots κ α} {n i : Nat} {k : κ} {v : α}

/-- The keys increase from slot `n` on. -/
def SortedFrom (n : Nat) (s : Slots κ α) : Prop :=
  ∀ i j, n ≤ i → i < j → j < s.size → s.keyAt i < s.keyAt j

theorem SortedFrom.mono {m : Nat} (hs : s.SortedFrom n) (hle : n ≤ m) : s.SortedFrom m :=
  fun i j hi hij hj => hs i j (hle.trans hi) hij hj

theorem SortedFrom.le (hs : s.SortedFrom n) {i j : Nat} (hi : n ≤ i) (hij : i ≤ j)
    (hj : j < s.size) : s.keyAt i ≤ s.keyAt j := by
  rcases Nat.eq_or_lt_of_le hij with rfl | hlt
  · exact le_refl _
  · exact (hs i j hi hlt hj).le

/-! ### Searching -/

/-- Both searches in a node that is sorted from slot 0 or 1 on. -/
theorem SortedFrom.isBound (hs : s.SortedFrom n) (hn : n ≤ 1) (op : Bool) (k : κ) :
    IsBound op s.keyAt k s.size (IxPage.boundLoop op s.keyAt k s.size 0 s.size).toNat := by
  refine isBound_boundLoop (fun i j h1 hij hj => hs.le (hn.trans h1) hij hj) s.size
    (Nat.zero_le _) (le_refl _) (by omega) (fun i h1 h0 => ?_) (fun i _ hi hi' => ?_) (fun h => ?_)
    (fun h h1 => ?_)
  · exact absurd h0 (Nat.not_lt_zero i)
  · omega
  · exact absurd h (Nat.zero_ne_one)
  · omega

/-- In a node that is sorted from slot 0 the first key counts as well. -/
theorem IsBound.spec {op : Bool} {r : Nat} (hb : IsBound op s.keyAt k s.size r)
    (hs : s.SortedFrom n) :
    (∀ i, n ≤ i → i < r → GoesRight op k (s.keyAt i)) ∧
      ∀ i, n ≤ i → r ≤ i → i < s.size → ¬GoesRight op k (s.keyAt i) := by
  constructor
  · intro i hi hir
    rcases Nat.eq_zero_or_pos i with rfl | hpos
    · -- slot 0: by itself, or below slot 1
      by_cases hone : r = 1
      · exact hb.first hone
      · have hlt := hs 0 1 hi (by omega) (lt_of_lt_of_le (by omega) hb.le)
        exact (hb.left 1 (le_refl _) (by omega)).of_le hlt.le
    · exact hb.left i hpos hir
  · intro i hi hri hlt
    rcases Nat.eq_zero_or_pos i with rfl | hpos
    · exact hb.zero (by omega) (by omega)
    · exact hb.right i hpos hri hlt

/-- `lower_bound` in a sorted node. -/
theorem SortedFrom.lowerBound_spec (hs : s.SortedFrom n) (hn : n ≤ 1) (k : κ) :
    (∀ i, n ≤ i → i < s.lowerBound k → s.keyAt i < k) ∧
      ∀ i, n ≤ i → s.lowerBound k ≤ i → i < s.size → k ≤ s.keyAt i := by
  obtain ⟨hleft, hright⟩ := IsBound.spec (hs.isBound hn true k) hs
  refine ⟨fun i hi hlt => hleft i hi hlt, fun i hi hle hlt => ?_⟩
  exact not_lt.mp (hright i hi hle hlt)

/-- `upper_bound` in a sorted node. -/
theorem SortedFrom.upperBound_spec (hs : s.SortedFrom n) (hn : n ≤ 1) (k : κ) :
    (∀ i, n ≤ i → i < s.upperBound k → s.keyAt i ≤ k) ∧
      ∀ i, n ≤ i → s.upperBound k ≤ i → i < s.size → k < s.keyAt i := by
  obtain ⟨hleft, hright⟩ := IsBound.spec (hs.isBound hn false k) hs
  refine ⟨fun i hi hlt => hleft i hi hlt, fun i hi hle hlt => ?_⟩
  exact not_le.mp (hright i hi hle hlt)

omit [LinearOrder κ] in
/-- The entries on both sides of a slot. -/
theorem forall_take_drop (P Q : κ → Prop) {r : Nat} (hP : ∀ i, i < r → P (s.keyAt i))
    (hQ : ∀ i, r ≤ i → i < s.size → Q (s.keyAt i)) :
    (∀ e ∈ s.entries.take r, P e.1) ∧ ∀ e ∈ s.entries.drop r, Q e.1 := by
  constructor
  · intro e he
    obtain ⟨i, hi⟩ := List.getElem?_of_mem he
    rw [List.getElem?_take] at hi
    split_ifs at hi with hlt
    rw [← keyAt_of_getElem? hi]
    exact hP i hlt
  · intro e he
    obtain ⟨i, hi⟩ := List.getElem?_of_mem he
    rw [List.getElem?_drop] at hi
    rw [← keyAt_of_getElem? hi]
    exact hQ _ (Nat.le_add_right r i) (List.getElem?_eq_some_iff.mp hi).1

/-- `lower_bound` divides the entries of a sorted node. -/
theorem SortedFrom.lowerBound_entries (hs : s.SortedFrom 0) (k : κ) :
    (∀ e ∈ s.entries.take (s.lowerBound k), e.1 < k) ∧
      ∀ e ∈ s.entries.drop (s.lowerBound k), k ≤ e.1 := by
  obtain ⟨hleft, hright⟩ := hs.lowerBound_spec (Nat.zero_le 1) k
  exact forall_take_drop (· < k) (k ≤ ·) (fun i hi => hleft i (Nat.zero_le i) hi)
    fun i hi hlt => hright i (Nat.zero_le i) hi hlt

/-- `upper_bound` divides the entries of a sorted node. -/
theorem SortedFrom.upperBound_entries (hs : s.SortedFrom 0) (k : κ) :
    (∀ e ∈ s.entries.take (s.upperBound k), e.1 ≤ k) ∧
      ∀ e ∈ s.entries.drop (s.upperBound k), k < e.1 := by
  obtain ⟨hleft, hright⟩ := hs.upperBound_spec (Nat.zero_le 1) k
  exact forall_take_drop (· ≤ k) (k < ·) (fun i hi => hleft i (Nat.zero_le i) hi)
    fun i hi hlt => hright i (Nat.zero_le i) hi hlt

/-! ### Operations -/

/-- A key goes in between smaller and larger ones. -/
theorem SortedFrom.insertAt (hs : s.SortedFrom n) (hi : i ≤ s.size) (hni : n ≤ i)
    (hleft : ∀ j, n ≤ j → j < i → s.keyAt j < k) (hright : ∀ j, i ≤ j → j < s.size → k < s.keyAt j) :
    (s.insertAt i k v).SortedFrom n := by
  intro a b ha hab hb
  rw [size_insertAt hi] at hb
  rw [keyAt_insertAt hi, keyAt_insertAt hi]
  rcases Nat.lt_trichotomy a i with h1 | rfl | h1
  · rw [if_pos h1]
    rcases Nat.lt_trichotomy b i with h2 | rfl | h2
    · rw [if_pos h2]
      exact hs a b ha hab (by omega)
    · rw [if_neg (by omega), if_pos (by omega)]
      exact hleft a ha h1
    · rw [if_neg (by omega), if_neg (by omega), if_pos hb]
      exact (hleft a ha h1).trans (hright (b - 1) (by omega) (by omega))
  · rw [if_neg (by omega), if_pos (by omega), if_neg (by omega), if_neg (by omega), if_pos hb]
    exact hright (b - 1) (by omega) (by omega)
  · rw [if_neg (by omega), if_neg (by omega), if_pos (by omega), if_neg (by omega),
      if_neg (by omega), if_pos hb]
    exact hs (a - 1) (b - 1) (by omega) (by omega) (by omega)

/-- `Insert` keeps a node sorted, whatever the key. -/
theorem SortedFrom.insert (hs : s.SortedFrom 0) (k : κ) (v : α) : (s.insert k v).SortedFrom 0 := by
  by_cases hk : s.keyAt (s.lowerBound k) = k
  · rwa [insert_of_eq hk]
  · obtain ⟨hleft, hright⟩ := hs.lowerBound_spec (Nat.zero_le _) k
    rw [insert_of_ne hk]
    refine hs.insertAt (s.lowerBound_le k) (Nat.zero_le _) hleft fun j hj hlt => ?_
    -- the key at the position is larger, so all that follow are
    have hge := hright _ (Nat.zero_le _) (le_refl (s.lowerBound k)) (lt_of_le_of_lt hj hlt)
    exact (lt_of_le_of_ne hge (Ne.symm hk)).trans_le (hs.le (Nat.zero_le _) hj hlt)

theorem SortedFrom.leftHalf (hs : s.SortedFrom n) : s.leftHalf.SortedFrom n := by
  intro i j hi hij hj
  rw [size_leftHalf] at hj
  rw [keyAt_leftHalf]
  exact hs i j hi hij (by omega)

theorem SortedFrom.rightHalf [Inhabited κ] (hs : s.SortedFrom n) (hn : n ≤ s.size / 2) :
    s.rightHalf.SortedFrom 0 := by
  intro i j _ hij hj
  rw [size_rightHalf] at hj
  rw [keyAt_rightHalf, keyAt_rightHalf, if_pos (by omega), if_pos (by omega)]
  exact hs _ _ (by omega) (by omega) (by omega)

end Rucbase.Slots
