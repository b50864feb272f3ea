import Mathlib.Data.List.Basic

/-!
# Binary search

The loop that halves an interval `[left, right)`: the middle is tested, and one half is kept.
`Halving p` relates the bounds it starts from, the positions it tests and where it ends.  The loop
ends (`exists_halving`), tests positions of the interval only (`Halving.bounds`), and ends where the
test changes if it holds on an initial part of the interval (`Halving.cut`).  That is the number of
positions that pass the test (`countP_range_of_cut`).
-/

/-- A run of the loop: the bounds, the positions that are tested, and the left bound at the end. -/
inductive Halving (p : Int → Prop) : Int → Int → List Int → Int → Prop
  | done {left right : Int} (h : ¬left < right) : Halving p left right [] left
  | up {left right r : Int} {reads : List Int} (h : left < right) (hp : p ((left + right) / 2))
      (rest : Halving p ((left + right) / 2 + 1) right reads r) :
      Halving p left right ((left + right) / 2 :: reads) r
  | down {left right r : Int} {reads : List Int} (h : left < right) (hp : ¬p ((left + right) / 2))
      (rest : Halving p left ((left + right) / 2) reads r) :
      Halving p left right ((left + right) / 2 :: reads) r

variable {p : Int → Prop} {left right r : Int} {reads : List Int}

/-- Every round makes the interval shorter. -/
theorem exists_halving (p : Int → Prop) (left right : Int) :
    ∃ reads r, Halving p left right reads r := by
  -- on the length of the interval
  induction hn : (right - left).toNat using Nat.strongRecOn generalizing left right with
  | ind n ih =>
    by_cases hlt : left < right
    · by_cases hp : p ((left + right) / 2)
      · obtain ⟨reads, r, hrun⟩ := ih _ (by omega) ((left + right) / 2 + 1) right rfl
        exact ⟨_, r, .up hlt hp hrun⟩
      · obtain ⟨reads, r, hrun⟩ := ih _ (by omega) left ((left + right) / 2) rfl
        exact ⟨_, r, .down hlt hp hrun⟩
    · exact ⟨[], left, .done hlt⟩

/-- The loop stays inside its bounds. -/
theorem Halving.bounds (h : Halving p left right reads r) (hle : left ≤ right) :
    (left ≤ r ∧ r ≤ right) ∧ ∀ i ∈ reads, left ≤ i ∧ i < right := by
  induction h with
  | done h =>
    refine ⟨⟨Int.le_refl _, hle⟩, fun i hi => ?_⟩
    cases hi
  | @up left right r reads h hp rest ih =>
    obtain ⟨hr, hreads⟩ := ih (by omega)
    refine ⟨by omega, fun i hi => ?_⟩
    rcases List.mem_cons.mp hi with rfl | hi
    · omega
    · have := hreads i hi
      omega
  | @down left right r reads h hp rest ih =>
    obtain ⟨hr, hreads⟩ := ih (by omega)
    refine ⟨by omega, fun i hi => ?_⟩
    rcases List.mem_cons.mp hi with rfl | hi
    · omega
    · have := hreads i hi
      omega

/-- If the test holds on an initial part of `[lo, hi)`, the loop ends where it changes. -/
theorem Halving.cut {lo hi : Int} (h : Halving p left right reads r)
    (hmono : ∀ i j, lo ≤ i → i ≤ j → j < hi → p j → p i) (hle : left ≤ right) (hlo : lo ≤ left)
    (hhi : right ≤ hi) (hleft : ∀ i, lo ≤ i → i < left → p i)
    (hright : ∀ i, right ≤ i → i < hi → ¬p i) :
    (∀ i, lo ≤ i → i < r → p i) ∧ ∀ i, r ≤ i → i < hi → ¬p i := by
  induction h with
  | done h =>
    refine ⟨hleft, fun i h1 h2 => ?_⟩
    exact hright i (by omega) h2
  | up h hp rest ih =>
    -- what is up to the middle passes the test as the middle does
    refine ih (by omega) (by omega) hhi (fun i h1 h2 => ?_) hright
    exact hmono i _ h1 (by omega) (by omega) hp
  | down h hp rest ih =>
    refine ih (by omega) hlo (by omega) hleft (fun i h1 h2 hi => ?_)
    exact hp (hmono _ i (by omega) h1 h2 hi)

/-- The number of positions before the change. -/
theorem countP_range_of_cut {q : Nat → Bool} {m n : Nat} (hmn : m ≤ n) (hq : ∀ i < m, q i = true)
    (hq' : ∀ i, m ≤ i → i < n → q i = false) : (List.range n).countP q = m := by
  obtain ⟨k, rfl⟩ := Nat.exists_eq_add_of_le hmn
  have hbefore : (List.range m).countP q = m := by
    rw [List.countP_eq_length.mpr fun i hi => hq i (List.mem_range.mp hi), List.length_range]
  have hafter : ((List.range k).map (m + ·)).countP q = 0 := by
    rw [List.countP_eq_zero]
    intro i hi
    obtain ⟨j, hj, rfl⟩ := List.mem_map.mp hi
    rw [hq' (m + j) (Nat.le_add_right m j) (Nat.add_lt_add_left (List.mem_range.mp hj) m)]
    exact Bool.false_ne_true
  rw [List.range_add, List.countP_append, hbefore, hafter, Nat.add_zero]
