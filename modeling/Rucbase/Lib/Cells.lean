import Mathlib.Logic.Function.Basic
import Rucbase.Lib.Memory

/-!
# Arrays in memory

An array at an address is a row of cells of the same width; `cell` reads one of them.  A block of
bytes that is copied to a cell overwrites as many cells as it is long (`cell_store`), and a block that
is read from a cell holds the cells from there on (`chunk_load`).  What is stored beside some bytes
leaves them alone (`load_store_of_disjoint`, `cell_store_of_disjoint`).
-/

/-! ### Rows -/

section Overwrite

variable {α β : Type} {f g g' : Nat → α} {p n : Nat}

/-- A row with `n` entries from `p` on replaced. -/
def overwrite (f : Nat → α) (p n : Nat) (g : Nat → α) : Nat → α :=
  fun i => if p ≤ i ∧ i < p + n then g (i - p) else f i

theorem overwrite_congr (h : ∀ j < n, g j = g' j) : overwrite f p n g = overwrite f p n g' := by
  ext i
  unfold overwrite
  split_ifs with hi
  · exact h _ (by omega)
  · rfl

theorem overwrite_one (f g : Nat → α) (p : Nat) : overwrite f p 1 g = Function.update f p (g 0) := by
  ext i
  rw [Function.update_apply]
  unfold overwrite
  split_ifs with h1 h2 h2
  · rw [h2, Nat.sub_self]
  · omega
  · omega
  · rfl

theorem overwrite_zero (f g : Nat → α) (p : Nat) : overwrite f p 0 g = f := by
  ext i
  exact if_neg (by omega)

/-- The first entry is replaced before the others. -/
theorem overwrite_succ (f g : Nat → α) (p n : Nat) :
    overwrite (Function.update f p (g 0)) (p + 1) n (fun j => g (j + 1)) =
      overwrite f p (n + 1) g := by
  ext i
  unfold overwrite
  by_cases h1 : i = p
  · rw [if_neg (by omega), if_pos (by omega), h1, Function.update_self, Nat.sub_self]
  · rw [Function.update_of_ne h1]
    by_cases h2 : p + 1 ≤ i ∧ i < p + 1 + n
    · rw [if_pos h2, if_pos (by omega)]
      exact congrArg g (by omega)
    · rw [if_neg h2, if_neg (by omega)]

/-- Entries are inserted: the `r` entries from `p` on move up, and the new ones take their places. -/
theorem overwrite_insert (f g : Nat → α) (p n r : Nat) :
    overwrite (overwrite f (p + n) r fun j => f (p + j)) p n g = fun i =>
      if i < p then f i else if i < p + n then g (i - p) else if i < p + r + n then f (i - n)
      else f i := by
  ext i
  unfold overwrite
  by_cases h1 : i < p
  · rw [if_neg (by omega), if_neg (by omega), if_pos h1]
  · rw [if_neg h1]
    by_cases h2 : i < p + n
    · rw [if_pos (by omega), if_pos h2]
    · rw [if_neg (by omega), if_neg h2]
      by_cases h3 : i < p + r + n
      · have hfrom : p + (i - (p + n)) = i - n := by omega
        rw [if_pos (by omega), if_pos h3]
        exact congrArg f hfrom
      · rw [if_neg (by omega), if_neg h3]

end Overwrite

/-! ### Cells -/

namespace Memory

variable {mem : Int → UInt8} {addr addr' base : Int} {bytes : List UInt8} {w n : Nat}

/-- Bytes beside the ones that are written stay. -/
theorem load_store_of_disjoint (h : addr' + n ≤ addr ∨ addr + bytes.length ≤ addr') :
    load (store mem addr bytes) addr' n = load mem addr' n := by
  apply load_congr
  intro i h1 h2
  unfold store
  rcases h with h | h
  · rw [if_neg (by omega)]
  · rw [if_pos (by omega), List.getElem?_eq_none (by omega), Option.getD_none]

/-- A part of a block of memory. -/
theorem take_drop_load {a b m : Nat} (h : a + b ≤ m) :
    ((load mem addr m).drop a).take b = load mem (addr + a) b := by
  apply List.ext_getElem
  · simp only [List.length_take, List.length_drop, length_load]
    omega
  · intro i h1 h2
    simp only [load, List.getElem_take, List.getElem_drop, List.getElem_map, List.getElem_range]
    congr 1
    omega

theorem take_load {b m : Nat} (h : b ≤ m) : (load mem addr m).take b = load mem addr b := by
  have hpart : ((load mem addr m).drop 0).take b = load mem (addr + (0 : Nat)) b :=
    take_drop_load (by omega)
  rwa [List.drop_zero, Int.natCast_zero, Int.add_zero] at hpart

/-- A part of the bytes that were stored. -/
theorem load_store_part {a b : Nat} (h : a + b ≤ bytes.length) :
    load (store mem addr bytes) (addr + a) b = (bytes.drop a).take b := by
  rw [← take_drop_load h, load_store_self]

/-- Cell `i` of the array at `base` whose cells have `w` bytes. -/
def cell (mem : Int → UInt8) (base : Int) (w i : Nat) : List UInt8 := load mem (base + i * w) w

/-- The `j`-th piece of `w` bytes. -/
def chunk (bytes : List UInt8) (w j : Nat) : List UInt8 := (bytes.drop (j * w)).take w

@[simp]
theorem length_cell (mem : Int → UInt8) (base : Int) (w i : Nat) :
    (cell mem base w i).length = w := length_load

theorem mul_add_le {i p : Nat} (h : i < p) : i * w + w ≤ p * w := by
  have hmul : (i + 1) * w ≤ p * w := Nat.mul_le_mul_right w h
  rwa [Nat.add_mul, Nat.one_mul] at hmul

theorem cast_mul_add_le {i p : Nat} (h : i < p) : (i : Int) * w + w ≤ p * w := by
  exact_mod_cast mul_add_le (w := w) h

/-- **Cells are overwritten.** -/
theorem cell_store {p : Nat} (hlen : bytes.length = n * w) :
    cell (store mem (base + p * w) bytes) base w =
      overwrite (cell mem base w) p n (chunk bytes w) := by
  funext i
  unfold overwrite
  split_ifs with h
  · have haddr : base + (i : Int) * w = base + p * w + ((i - p) * w : Nat) := by
      have hsub : ((i - p : Nat) : Int) = i - p := by omega
      rw [Int.natCast_mul, hsub, Int.sub_mul]
      omega
    have hin : (i - p) * w + w ≤ bytes.length := by
      rw [hlen]
      exact mul_add_le (by omega)
    unfold cell
    rw [haddr, load_store_part hin, chunk]
  · apply load_store_of_disjoint
    by_cases hip : i < p
    · left
      have := cast_mul_add_le (w := w) hip
      omega
    · right
      have hmul : (p + n) * w ≤ i * w := Nat.mul_le_mul_right w (by omega)
      rw [Nat.add_mul] at hmul
      rw [hlen]
      have hcast : ((p * w + n * w : Nat) : Int) ≤ (i * w : Nat) := by exact_mod_cast hmul
      push_cast at hcast
      push_cast
      omega

/-- What is stored beside an array leaves its cells alone. -/
theorem cell_store_of_disjoint {N i : Nat}
    (h : base + N * w ≤ addr ∨ addr + bytes.length ≤ base) (hi : i < N) :
    cell (store mem addr bytes) base w i = cell mem base w i := by
  apply load_store_of_disjoint
  have hfit := cast_mul_add_le (w := w) hi
  have hnonneg : (0 : Int) ≤ i * w := Int.mul_nonneg (by omega) (by omega)
  rcases h with h | h
  · left
    omega
  · right
    omega

/-- The pieces of a block that is read from an array are its cells. -/
theorem chunk_load {p j : Nat} (hj : j < n) :
    chunk (load mem (base + p * w) (n * w)) w j = cell mem base w (p + j) := by
  have hin := mul_add_le (w := w) hj
  unfold chunk cell
  rw [take_drop_load hin]
  congr 1
  push_cast
  rw [Int.add_mul]
  omega

theorem chunk_take {j : Nat} (hj : j < n) : chunk (bytes.take (n * w)) w j = chunk bytes w j := by
  have hin := mul_add_le (w := w) hj
  unfold chunk
  rw [List.drop_take, List.take_take, Nat.min_eq_left (by omega)]

end Memory
