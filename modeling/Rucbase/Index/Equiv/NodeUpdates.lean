import Rucbase.Index.Equiv.Sorted

/-!
# Updates of a node and the slots behind its entries

`Insert` and `Remove` compare the key with the slot where `lower_bound` ends.  When the key is above
all entries that slot is the first one behind them, and holds whatever was left there.  The updates
depend on the live entries alone exactly when it does not hold the key by chance (`nodeUpdates_iff`).
-/

namespace Rucbase

variable {κ : Type} [LinearOrder κ]

namespace Slots

variable {α : Type} {s : Slots κ α} {k : κ}

/-- `lower_bound` of a key of the node ends at its entry. -/
theorem SortedFrom.lowerBound_of_mem (hs : s.SortedFrom 0) {j : Nat} {e : κ × α}
    (hj : s.entries[j]? = some e) : s.lowerBound e.1 = j := by
  obtain ⟨hleft, hright⟩ := hs.lowerBound_spec (Nat.zero_le 1) e.1
  have hkey := keyAt_of_getElem? hj
  have hlt := (List.getElem?_eq_some_iff.mp hj).1
  rcases Nat.lt_trichotomy j (s.lowerBound e.1) with h | h | h
  · exact absurd hkey (hleft j (Nat.zero_le j) h).ne
  · exact h.symm
  · -- a smaller key would be on its right
    have hlow := hright _ (Nat.zero_le _) (le_refl (s.lowerBound e.1)) (h.trans hlt)
    have hless := hs _ j (Nat.zero_le _) h hlt
    rw [hkey] at hless
    exact absurd hless (not_lt.mpr hlow)

/-- `LeafLookup` in a sorted node. -/
theorem SortedFrom.leafLookup_eq_some_iff (hs : s.SortedFrom 0) {v : α} :
    s.leafLookup k = some v ↔ (k, v) ∈ s.entries := by
  constructor
  · intro h
    unfold leafLookup at h
    split at h
    · next e he =>
      split_ifs at h with hkey
      obtain rfl := hkey
      obtain rfl := Option.some.inj h
      exact List.mem_of_getElem? he
    · cases h
  · intro hmem
    obtain ⟨j, hj⟩ := List.getElem?_of_mem hmem
    have hlow : s.lowerBound k = j := hs.lowerBound_of_mem hj
    rw [leafLookup, hlow, hj]
    exact if_pos rfl

/-- The key at the position where `lower_bound` ends: that of an entry, or the one that was left in
the first slot behind them. -/
theorem SortedFrom.keyAt_lowerBound_iff (hs : s.SortedFrom 0) :
    s.keyAt (s.lowerBound k) = k ↔
      (∃ e ∈ s.entries, e.1 = k) ∨ (∀ e ∈ s.entries, e.1 < k) ∧ s.stale 0 = k := by
  have hsize : s.size = s.entries.length := rfl
  obtain ⟨hleft, hright⟩ := hs.lowerBound_spec (Nat.zero_le 1) k
  rcases Nat.lt_or_ge (s.lowerBound k) s.size with hlt | hge
  · have hget := List.getElem?_eq_getElem (show s.lowerBound k < s.entries.length from hlt)
    have hkey := keyAt_of_getElem? hget
    constructor
    · intro heq
      exact .inl ⟨_, List.mem_of_getElem? hget, hkey.symm.trans heq⟩
    · rintro (⟨e, he, rfl⟩ | ⟨hall, -⟩)
      · obtain ⟨j, hj⟩ := List.getElem?_of_mem he
        rw [hs.lowerBound_of_mem hj]
        exact keyAt_of_getElem? hj
      · -- `lower_bound` has only larger keys on its right
        have hlow := hright _ (Nat.zero_le _) (le_refl (s.lowerBound k)) hlt
        rw [hkey] at hlow
        exact absurd (hall _ (List.mem_of_getElem? hget)) (not_lt.mpr hlow)
  · have hend : s.lowerBound k = s.size := le_antisymm (s.lowerBound_le k) hge
    have hall : ∀ e ∈ s.entries, e.1 < k := by
      intro e he
      obtain ⟨j, hj⟩ := List.getElem?_of_mem he
      have hlt := (List.getElem?_eq_some_iff.mp hj).1
      rw [← keyAt_of_getElem? hj]
      exact hleft j (Nat.zero_le j) (by omega)
    rw [hend, keyAt_of_ge (le_refl s.size), Nat.sub_self]
    constructor
    · exact fun heq => .inr ⟨hall, heq⟩
    · rintro (⟨e, he, rfl⟩ | ⟨-, heq⟩)
      · exact absurd (hall e he) (lt_irrefl _)
      · exact heq

omit [LinearOrder κ] in
theorem entries_insertAt {i : Nat} (hi : i ≤ s.size) (k : κ) (v : α) :
    (s.insertAt i k v).entries = s.entries.take i ++ (k, v) :: s.entries.drop i := by
  show s.entries.insertIdx i (k, v) = _
  have hlen : (s.entries.take i).length = i := List.length_take_of_le hi
  ext j e
  rw [List.getElem?_insertIdx]
  rcases Nat.lt_trichotomy j i with hj | rfl | hj
  · rw [if_pos hj, List.getElem?_append_left (by omega), List.getElem?_take_of_lt hj]
  · rw [if_neg (lt_irrefl j), if_pos rfl, if_pos (show j ≤ s.entries.length from hi),
      List.getElem?_append_right hlen.le, hlen,
      Nat.sub_self, List.getElem?_cons_zero]
  · obtain ⟨d, rfl⟩ := Nat.exists_eq_add_of_lt hj
    rw [if_neg (by omega), if_neg (by omega), List.getElem?_append_right (by omega), hlen,
      show i + d + 1 - i = d + 1 by omega, List.getElem?_cons_succ, List.getElem?_drop]
    rfl

end Slots

namespace IxPage

/-- The live keys of the page ascend. -/
structure LiveSorted (page : IxPage κ) : Prop where
  numKey : 0 ≤ page.numKey
  sorted : page.live.Pairwise fun e e' => e.1 < e'.1

/-- The pages differ in their slots and the number of entries only. -/
structure SameHeader (page page' : IxPage κ) : Prop where
  parent : page'.parent = page.parent
  isLeaf : page'.isLeaf = page.isLeaf
  prevLeaf : page'.prevLeaf = page.prevLeaf
  nextLeaf : page'.nextLeaf = page.nextLeaf

/-- `Insert` adds the entry at its place when the key is not live, changes nothing when it is, and
the size that it returns tells which. -/
structure InsertOk (page : IxPage κ) (k : κ) (v : Rid) : Prop where
  present : (∃ e ∈ page.live, e.1 = k) → page.insert k v = page
  absent : (∀ e ∈ page.live, e.1 ≠ k) →
    page.SameHeader (page.insert k v) ∧
      ∃ l r, page.live = l ++ r ∧ (∀ e ∈ l, e.1 < k) ∧ (∀ e ∈ r, k < e.1) ∧
        (page.insert k v).live = l ++ (k, v) :: r
  size : (page.insert k v).numKey = page.numKey + 1 ↔ ∀ e ∈ page.live, e.1 ≠ k

/-- `Remove` deletes exactly the entry of the key when it is live, changes nothing when it is not,
and the size that it returns tells which. -/
structure RemoveOk (page : IxPage κ) (k : κ) : Prop where
  present : (∃ e ∈ page.live, e.1 = k) →
    page.SameHeader (page.remove k) ∧
      ∃ l e r, page.live = l ++ e :: r ∧ e.1 = k ∧ (page.remove k).live = l ++ r
  absent : (∀ e ∈ page.live, e.1 ≠ k) → page.remove k = page
  size : (page.remove k).numKey = page.numKey - 1 ↔ ∃ e ∈ page.live, e.1 = k

/-- The key is above all entries, and was left in the first slot behind them. -/
def LeftBehind (page : IxPage κ) (k : κ) : Prop :=
  (∀ e ∈ page.live, e.1 < k) ∧ page.keys page.numKey.toNat = k

variable {page : IxPage κ} {k : κ} {v : Rid}

theorem LiveSorted.slots (h : page.LiveSorted) : page.slots.SortedFrom 0 := by
  intro i j _ hij hj
  have hi := List.getElem?_eq_getElem (show i < page.slots.entries.length from hij.trans hj)
  have hj' := List.getElem?_eq_getElem (show j < page.slots.entries.length from hj)
  rw [Slots.keyAt_of_getElem? hi, Slots.keyAt_of_getElem? hj']
  exact List.pairwise_iff_getElem.mp h.sorted i j _ _ hij

/-- `LeafLookup` finds the live entry of the key. -/
theorem LiveSorted.leafLookup_eq_some_iff (h : page.LiveSorted) :
    page.leafLookup k = some v ↔ (k, v) ∈ page.live := by
  rw [(Shows.of_nonneg h.numKey).leafLookup, h.slots.leafLookup_eq_some_iff]
  rfl

/-- The slot where `lower_bound` ends holds the key. -/
theorem LiveSorted.keyAt_iff (h : page.LiveSorted) :
    page.slots.keyAt (page.slots.lowerBound k) = k ↔
      (∃ e ∈ page.live, e.1 = k) ∨ page.LeftBehind k := by
  rw [h.slots.keyAt_lowerBound_iff]
  rfl

/-- `Insert` where the slot holds another key. -/
theorem LiveSorted.insert_of_ne (h : page.LiveSorted)
    (hne : page.slots.keyAt (page.slots.lowerBound k) ≠ k) :
    page.SameHeader (page.insert k v) ∧ (page.insert k v).numKey = page.numKey + 1 ∧
      (page.insert k v).live = page.live.take (page.slots.lowerBound k) ++
        (k, v) :: page.live.drop (page.slots.lowerBound k) := by
  have hshows := Shows.of_nonneg h.numKey
  have hle := page.slots.lowerBound_le k
  have hnum := hshows.numKey
  have hlive := (hshows.insert k v).live
  rw [Slots.insert_of_ne hne, Slots.entries_insertAt hle] at hlive
  have hpos : page.numKey - page.lowerBound k ≥ 0 := by
    rw [hshows.lowerBound k]
    omega
  have hcmp : ¬ixCompare k (page.keys (page.lowerBound k).toNat) = 0 := by
    rw [ixCompare_eq_zero_iff, hshows.lowerBound k, Int.toNat_natCast, hshows.keys]
    exact fun heq => hne heq.symm
  have hins : page.insert k v = page.insertPair (page.lowerBound k) k v := if_neg hcmp
  refine ⟨?_, ?_, hlive⟩
  · rw [hins, insertPair, insertPairs, if_pos hpos]
    exact ⟨rfl, rfl, rfl, rfl⟩
  · rw [hins, insertPair, insertPairs, if_pos hpos]

theorem LiveSorted.insert_of_eq (h : page.LiveSorted)
    (heq : page.slots.keyAt (page.slots.lowerBound k) = k) : page.insert k v = page := by
  have hshows := Shows.of_nonneg h.numKey
  have hcmp : ixCompare k (page.keys (page.lowerBound k).toNat) = 0 := by
    rw [ixCompare_eq_zero_iff, hshows.lowerBound k, Int.toNat_natCast, hshows.keys]
    exact heq.symm
  exact if_pos hcmp

/-- `Remove` where the slot holds the key. -/
theorem LiveSorted.remove_of_eq (h : page.LiveSorted)
    (heq : page.slots.keyAt (page.slots.lowerBound k) = k) :
    page.remove k = page.erasePair (page.slots.lowerBound k) := by
  have hshows := Shows.of_nonneg h.numKey
  have hcmp : ixCompare k (page.keys (page.lowerBound k).toNat) = 0 := by
    rw [ixCompare_eq_zero_iff, hshows.lowerBound k, Int.toNat_natCast, hshows.keys]
    exact heq.symm
  rw [← hshows.lowerBound k]
  exact if_pos hcmp

/-- **`Insert` depends on the live entries alone** exactly when the key was not left behind them. -/
theorem LiveSorted.insertOk_iff (h : page.LiveSorted) : page.InsertOk k v ↔ ¬page.LeftBehind k := by
  constructor
  · -- otherwise the key is taken to be there
    intro hok hleft
    have habsent : ∀ e ∈ page.live, e.1 ≠ k := fun e he => (hleft.1 e he).ne
    have hsame := h.insert_of_eq (v := v) (h.keyAt_iff.mpr (.inr hleft))
    have hsize := hok.size.mpr habsent
    rw [hsame] at hsize
    omega
  · intro hnot
    have hiff : page.slots.keyAt (page.slots.lowerBound k) = k ↔ ∃ e ∈ page.live, e.1 = k := by
      rw [h.keyAt_iff, or_iff_left hnot]
    constructor
    · intro hpresent
      exact h.insert_of_eq (hiff.mpr hpresent)
    · intro habsent
      have hne : page.slots.keyAt (page.slots.lowerBound k) ≠ k := by
        rw [Ne, hiff]
        rintro ⟨e, he, heq⟩
        exact habsent e he heq
      obtain ⟨hhdr, -, hlive⟩ := h.insert_of_ne hne
      obtain ⟨hl, hr⟩ := h.slots.lowerBound_entries k
      refine ⟨hhdr, _, _, (List.take_append_drop _ _).symm, hl, fun e he => ?_, hlive⟩
      exact lt_of_le_of_ne (hr e he) (habsent e (List.mem_of_mem_drop he)).symm
    · by_cases hkey : page.slots.keyAt (page.slots.lowerBound k) = k
      · obtain ⟨e, he, heq⟩ := hiff.mp hkey
        rw [h.insert_of_eq hkey]
        exact iff_of_false (by omega) fun habsent => habsent e he heq
      · refine iff_of_true (h.insert_of_ne hkey).2.1 fun e he heq => ?_
        exact hkey (hiff.mpr ⟨e, he, heq⟩)

/-- **`Remove` depends on the live entries alone** exactly when the key was not left behind them. -/
theorem LiveSorted.removeOk_iff (h : page.LiveSorted) : page.RemoveOk k ↔ ¬page.LeftBehind k := by
  have hshows := Shows.of_nonneg h.numKey
  constructor
  · -- otherwise the last entry is dropped
    intro hok hleft
    have hsame := hok.absent fun e he => (hleft.1 e he).ne
    have hnum := congrArg IxPage.numKey hsame
    rw [h.remove_of_eq (h.keyAt_iff.mpr (.inr hleft))] at hnum
    change page.numKey - 1 = page.numKey at hnum
    omega
  · intro hnot
    have hiff : page.slots.keyAt (page.slots.lowerBound k) = k ↔ ∃ e ∈ page.live, e.1 = k := by
      rw [h.keyAt_iff, or_iff_left hnot]
    constructor
    · intro hpresent
      have hkey := hiff.mpr hpresent
      -- the entry is live, not behind the others
      have hlt : page.slots.lowerBound k < page.slots.size := by
        by_contra hge
        have hend : page.slots.lowerBound k = page.slots.size :=
          le_antisymm (page.slots.lowerBound_le k) (not_lt.mp hge)
        obtain ⟨e, he, rfl⟩ := hpresent
        have htake := (h.slots.lowerBound_entries e.1).1
        rw [hend] at htake
        have hall : e ∈ page.slots.entries.take page.slots.size := by
          rwa [Slots.size, List.take_length]
        exact lt_irrefl _ (htake e hall)
      have hlive := (hshows.remove hlt hkey).live
      have hget := List.getElem?_eq_getElem (show page.slots.lowerBound k <
        page.slots.entries.length from hlt)
      refine ⟨?_, page.live.take (page.slots.lowerBound k), _,
        page.live.drop (page.slots.lowerBound k + 1), ?_,
        (Slots.keyAt_of_getElem? hget).symm.trans hkey, ?_⟩
      · rw [h.remove_of_eq hkey]
        exact ⟨rfl, rfl, rfl, rfl⟩
      · calc page.live = page.live.take (page.slots.lowerBound k) ++
              page.live.drop (page.slots.lowerBound k) := (List.take_append_drop ..).symm
          _ = _ := congrArg _ (List.drop_eq_getElem_cons hlt)
      · rw [hlive]
        exact List.eraseIdx_eq_take_drop_succ ..
    · intro habsent
      refine hshows.remove_of_ne fun hkey => ?_
      obtain ⟨e, he, heq⟩ := hiff.mp hkey
      exact habsent e he heq
    · rw [← hiff]
      by_cases hkey : page.slots.keyAt (page.slots.lowerBound k) = k
      · rw [h.remove_of_eq hkey]
        exact iff_of_true rfl hkey
      · rw [hshows.remove_of_ne hkey]
        exact iff_of_false (by omega) hkey

end IxPage

/-- **The updates of a node** whose live keys ascend, with arbitrary slots behind them.  `Insert` and
`Remove` each do what they should exactly when it is not the case that the key is above all live
keys and stands in the first slot behind them. -/
theorem nodeUpdates_iff (page : IxPage κ) (h : page.LiveSorted) (k : κ) (v : Rid) :
    (page.InsertOk k v ↔ ¬page.LeftBehind k) ∧ (page.RemoveOk k ↔ ¬page.LeftBehind k) :=
  ⟨h.insertOk_iff, h.removeOk_iff⟩

/-- A leaf with the keys 1 and 2, and a 3 that a split left behind them. -/
def splitLeaf : IxPage Int where
  parent := -1
  numKey := 2
  isLeaf := true
  prevLeaf := 1
  nextLeaf := 1
  keys := fun i => i + 1
  rids := fun i => ⟨i + 1, 0⟩

theorem liveSorted_splitLeaf : splitLeaf.LiveSorted := ⟨by decide, by decide⟩

theorem nodeUpdates_splitLeaf : splitLeaf.InsertOk 5 ⟨5, 0⟩ ∧ splitLeaf.RemoveOk 2 := by
  constructor
  · refine (nodeUpdates_iff splitLeaf liveSorted_splitLeaf 5 ⟨5, 0⟩).1.mpr ?_
    rintro ⟨-, hkey⟩
    exact absurd hkey (by decide)
  · refine (nodeUpdates_iff splitLeaf liveSorted_splitLeaf 2 ⟨2, 0⟩).2.mpr ?_
    rintro ⟨-, hkey⟩
    exact absurd hkey (by decide)

/-- **The key that was left behind** is not inserted, and removing it drops the last entry. -/
theorem not_nodeUpdates_splitLeaf : splitLeaf.LiveSorted ∧ (∀ e ∈ splitLeaf.live, e.1 ≠ 3) ∧
    ¬splitLeaf.InsertOk 3 ⟨3, 0⟩ ∧ ¬splitLeaf.RemoveOk 3 := by
  have habsent : ∀ e ∈ splitLeaf.live, e.1 ≠ 3 := by decide
  refine ⟨liveSorted_splitLeaf, habsent, fun hok => ?_, fun hok => ?_⟩
  · have hsize := hok.size.mpr habsent
    exact absurd hsize (by decide)
  · have hnum := congrArg IxPage.numKey (hok.absent habsent)
    exact absurd hnum (by decide)

end Rucbase
