import Mathlib.Tactic.Common

/-!
# Bytes in memory

`store` copies a list of bytes to an address, `load` reads some bytes from one.  What was stored can
be read back (`load_store_self`), and bytes below the address stay (`store_of_lt`).
-/

namespace Memory

/-- `memcpy(mem + addr, bytes, bytes.length)`. -/
def store (mem : Int → UInt8) (addr : Int) (bytes : List UInt8) : Int → UInt8 := fun i =>
  if addr ≤ i then (bytes[(i - addr).toNat]?).getD (mem i) else mem i

/-- The `n` bytes from an address on. -/
def load (mem : Int → UInt8) (addr : Int) (n : Nat) : List UInt8 :=
  (List.range n).map fun i : Nat => mem (addr + i)

variable {mem mem' : Int → UInt8} {addr addr' : Int} {bytes : List UInt8} {n : Nat}

@[simp]
theorem length_load : (load mem addr n).length = n := by
  simp [load]

/-- What is read depends on the bytes there only. -/
theorem load_congr (h : ∀ i, addr ≤ i → i < addr + n → mem i = mem' i) :
    load mem addr n = load mem' addr n := by
  unfold load
  apply List.map_congr_left
  intro i hi
  rw [List.mem_range] at hi
  exact h _ (by omega) (by omega)

theorem store_add (mem : Int → UInt8) (addr : Int) {j : Nat} (hj : j < bytes.length) :
    store mem addr bytes (addr + j) = bytes[j] := by
  have hsub : (addr + (j : Int) - addr).toNat = j := by omega
  unfold store
  rw [if_pos (by omega), hsub, List.getElem?_eq_getElem hj, Option.getD_some]

theorem load_store_self (mem : Int → UInt8) (addr : Int) (bytes : List UInt8) :
    load (store mem addr bytes) addr bytes.length = bytes := by
  apply List.ext_getElem
  · simp
  · intro i hi hi'
    simp only [load, List.getElem_map, List.getElem_range]
    exact store_add mem addr hi'

/-- Bytes below the address stay. -/
theorem store_of_lt {i : Int} (h : i < addr) : store mem addr bytes i = mem i :=
  if_neg (by omega)

end Memory
