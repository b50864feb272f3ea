import Mathlib.Tactic.Common

/-!
# Byte files

A file as an operating system presents it: a size and a byte at each offset below the size.
`ByteFile.write` stores bytes at an offset, growing the file (a hole reads as zeros), and
`ByteFile.read` returns a range if the file reaches that far.  `read_write_self` and
`read_write_disjoint` are the two laws clients use.
-/

/-- A file of `size` bytes; `byte` matters below `size` only. -/
structure ByteFile where
  size : Nat
  byte : Nat → UInt8

namespace ByteFile

/-- The file that has just been created. -/
def empty : ByteFile := ⟨0, fun _ => 0⟩

/-- Store `data` at offset `off`. -/
def write (f : ByteFile) (off : Nat) {n : Nat} (data : Fin n → UInt8) : ByteFile where
  size := max f.size (off + n)
  byte i :=
    if h : off ≤ i ∧ i < off + n then data ⟨i - off, by omega⟩
    else if i < f.size then f.byte i else 0

/-- The `n` bytes at offset `off`, if the file is long enough. -/
def read (f : ByteFile) (off n : Nat) : Option (Fin n → UInt8) :=
  if off + n ≤ f.size then some (fun i => f.byte (off + i)) else none

theorem read_eq_some_iff {f : ByteFile} {off n : Nat} {d : Fin n → UInt8} :
    f.read off n = some d ↔ off + n ≤ f.size ∧ ∀ i : Fin n, f.byte (off + i) = d i := by
  unfold read
  split_ifs with h
  · simp [h, funext_iff]
  · simp [h]

/-- Reading back what was written. -/
@[simp]
theorem read_write_self (f : ByteFile) (off : Nat) {n : Nat} (data : Fin n → UInt8) :
    (f.write off data).read off n = some data := by
  rw [read_eq_some_iff]
  refine ⟨Nat.le_max_right _ _, fun i => ?_⟩
  have h : off ≤ off + i.val ∧ off + i.val < off + n := by omega
  simp [write, h]

/-- A range that a write does not touch keeps its bytes. -/
theorem read_write_disjoint {f : ByteFile} {off off' n m : Nat} {data : Fin n → UInt8}
    {d : Fin m → UInt8} (hd : f.read off' m = some d) (h : off' + m ≤ off ∨ off + n ≤ off') :
    (f.write off data).read off' m = some d := by
  rw [read_eq_some_iff] at hd ⊢
  refine ⟨Nat.le_trans hd.1 (Nat.le_max_left _ _), fun i => ?_⟩
  have hi := i.isLt
  have h1 : ¬(off ≤ off' + i.val ∧ off' + i.val < off + n) := by omega
  have h2 : off' + i.val < f.size := by omega
  simp [write, h1, h2, hd.2 i]

end ByteFile
