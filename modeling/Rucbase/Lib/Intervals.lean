import Mathlib

/-!
# Disjoint intervals

Intervals of integers that are disjoint and lie in one interval are together no longer than it
(`sum_length_le`).  Intervals that end before they start are empty and count as nothing, so a list of
signed lengths with a negative one adds up to less than its intervals cover.
-/

namespace Intervals

variable {ι : Type}

/-- The union of disjoint intervals has the sum of their lengths. -/
theorem exists_union (lo hi : ι → Int) {l : List ι}
    (hdisj : l.Pairwise fun x y => Disjoint (Set.Ico (lo x) (hi x)) (Set.Ico (lo y) (hi y))) :
    ∃ U : Finset Int, U.card = (l.map fun x => (hi x - lo x).toNat).sum ∧
      ∀ z, z ∈ U ↔ ∃ x ∈ l, z ∈ Set.Ico (lo x) (hi x) := by
  induction l with
  | nil => exact ⟨∅, rfl, fun z => by simp⟩
  | cons x l ih =>
    obtain ⟨hx, hl⟩ := List.pairwise_cons.mp hdisj
    obtain ⟨U, hcard, hmem⟩ := ih hl
    have hd : Disjoint (Finset.Ico (lo x) (hi x)) U := by
      rw [Finset.disjoint_left]
      intro z hz hU
      obtain ⟨y, hy, hzy⟩ := (hmem z).mp hU
      exact Set.disjoint_left.mp (hx y hy) (Finset.mem_Ico.mp hz) hzy
    refine ⟨Finset.Ico (lo x) (hi x) ∪ U, ?_, fun z => ?_⟩
    · rw [Finset.card_union_of_disjoint hd, Int.card_Ico, hcard, List.map_cons, List.sum_cons]
    · rw [Finset.mem_union, Finset.mem_Ico, hmem]
      simp

/-- **Disjoint intervals** in `[a, b)` are together no longer than it. -/
theorem sum_length_le (lo hi : ι → Int) {l : List ι} {a b : Int}
    (hin : ∀ x ∈ l, Set.Ico (lo x) (hi x) ⊆ Set.Ico a b)
    (hdisj : l.Pairwise fun x y => Disjoint (Set.Ico (lo x) (hi x)) (Set.Ico (lo y) (hi y))) :
    (l.map fun x => (hi x - lo x).toNat).sum ≤ (b - a).toNat := by
  obtain ⟨U, hcard, hmem⟩ := exists_union lo hi hdisj
  have hsub : U ⊆ Finset.Ico a b := by
    intro z hz
    obtain ⟨x, hx, hzx⟩ := (hmem z).mp hz
    exact Finset.mem_Ico.mpr (hin x hx hzx)
  calc (l.map fun x => (hi x - lo x).toNat).sum = U.card := hcard.symm
    _ ≤ (Finset.Ico a b).card := Finset.card_le_card hsub
    _ = (b - a).toNat := Int.card_Ico a b

/-- Signed lengths are at most the lengths of the intervals, and less if one is negative. -/
theorem sum_le_sum_toNat (len : ι → Int) (l : List ι) :
    (l.map len).sum ≤ ((l.map fun x => (len x).toNat).sum : Nat) ∧
      ((l.map len).sum = ((l.map fun x => (len x).toNat).sum : Nat) → ∀ x ∈ l, 0 ≤ len x) := by
  induction l with
  | nil => simp
  | cons x l ih =>
    obtain ⟨hle, heq⟩ := ih
    simp only [List.map_cons, List.sum_cons, Nat.cast_add]
    refine ⟨by omega, fun hsum y hy => ?_⟩
    rcases List.mem_cons.mp hy with rfl | hy
    · omega
    · exact heq (by omega) y hy

end Intervals
