import Mathlib.Order.Bounds.Defs
import Rucbase.Record.RmScan

/-!
# Bitmaps as sets of positions

`set` and `reset` change one position (`isSet_set`, `isSet_reset`), `next_bit` finds the least
position with the wanted bit (`nextBit_cases`), and the bit test of the scan's constructor agrees
with `is_set` (`isStored_eq`).  The `char` arithmetic of the source computes the same bytes, for a
signed and for an unsigned `char` (`CharBitmap.set_eq` and the lemmas beside it).
-/

namespace Rucbase.Bitmap

/-! ### One byte -/

/-- The mask of a position in the byte. -/
theorem mask_and_mask (i j : Fin 8) :
    (0x80 >>> UInt8.ofNat i : UInt8) &&& 0x80 >>> UInt8.ofNat j =
      if j = i then 0x80 >>> UInt8.ofNat i else 0 := by
  revert i j
  decide +kernel

theorem not_mask_and_mask (i j : Fin 8) :
    ~~~(0x80 >>> UInt8.ofNat i : UInt8) &&& 0x80 >>> UInt8.ofNat j =
      if j = i then (0 : UInt8) else 0x80 >>> UInt8.ofNat j := by
  revert i j
  decide +kernel

theorem mask_ne_zero (i : Fin 8) : (0x80 >>> UInt8.ofNat i : UInt8) ≠ 0 := by
  revert i
  decide +kernel

theorem and_or_getBit (b : UInt8) (i j : Fin 8) :
    ((b ||| 0x80 >>> UInt8.ofNat i) &&& 0x80 >>> UInt8.ofNat j != 0) =
      (decide (j = i) || (b &&& 0x80 >>> UInt8.ofNat j != 0)) := by
  have hdistrib : (b ||| 0x80 >>> UInt8.ofNat i) &&& 0x80 >>> UInt8.ofNat j =
      b &&& 0x80 >>> UInt8.ofNat j ||| 0x80 >>> UInt8.ofNat i &&& 0x80 >>> UInt8.ofNat j :=
    UInt8.toBitVec_inj.mp BitVec.and_or_distrib_right
  rw [hdistrib, mask_and_mask]
  by_cases h : j = i
  · simp [h, UInt8.or_eq_zero_iff, mask_ne_zero]
  · simp [h]

theorem and_and_not_getBit (b : UInt8) (i j : Fin 8) :
    ((b &&& ~~~(0x80 >>> UInt8.ofNat i)) &&& 0x80 >>> UInt8.ofNat j != 0) =
      (!decide (j = i) && (b &&& 0x80 >>> UInt8.ofNat j != 0)) := by
  rw [UInt8.and_assoc, not_mask_and_mask]
  by_cases h : j = i
  · simp [h]
  · simp [h]

theorem shiftRight_and_one (b : UInt8) (i : Fin 8) :
    ((b >>> UInt8.ofNat (7 - i)) &&& 1 != 0) = (b &&& 0x80 >>> UInt8.ofNat i != 0) := by
  cases b with
  | ofBitVec b =>
    cases b with
    | ofFin b =>
      revert b i
      decide +kernel

/-! ### Positions -/

variable (bm : Nat → UInt8) {i j : Nat}

theorem isSet_update (i : Nat) (b : UInt8) (j : Nat) :
    isSet (Function.update bm (getBucket i) b) j =
      if getBucket j = getBucket i then b &&& getBit j != 0 else isSet bm j := by
  unfold isSet
  by_cases h : getBucket j = getBucket i
  · rw [if_pos h, h, Function.update_self]
  · rw [if_neg h, Function.update_of_ne h]

/-- Two positions are equal when byte and bit agree. -/
theorem eq_iff_getBucket (i j : Nat) : j = i ↔ getBucket j = getBucket i ∧ j % 8 = i % 8 := by
  unfold getBucket
  omega

@[simp]
theorem isSet_set (i j : Nat) : isSet (set bm i) j = (decide (j = i) || isSet bm j) := by
  rw [set, isSet_update]
  by_cases h : getBucket j = getBucket i
  · have := and_or_getBit (bm (getBucket i)) ⟨i % 8, Nat.mod_lt _ (by decide)⟩
      ⟨j % 8, Nat.mod_lt _ (by decide)⟩
    simp only [Fin.mk.injEq] at this
    rw [if_pos h, getBit, getBit, this, isSet, h, getBit]
    simp [eq_iff_getBucket i j, h]
  · simp [h, eq_iff_getBucket i j]

@[simp]
theorem isSet_reset (i j : Nat) : isSet (reset bm i) j = (!decide (j = i) && isSet bm j) := by
  rw [reset, isSet_update]
  by_cases h : getBucket j = getBucket i
  · have := and_and_not_getBit (bm (getBucket i)) ⟨i % 8, Nat.mod_lt _ (by decide)⟩
      ⟨j % 8, Nat.mod_lt _ (by decide)⟩
    simp only [Fin.mk.injEq] at this
    rw [if_pos h, getBit, getBit, this, isSet, h, getBit]
    simp [eq_iff_getBucket i j, h]
  · simp [h, eq_iff_getBucket i j]

theorem isStored_eq {bitN : Nat} (h : bitN < 8) (byteN : Nat) :
    RmScan.isStored bm byteN bitN = isSet bm (byteN * 8 + bitN) := by
  have hb : getBucket (byteN * 8 + bitN) = byteN := by
    unfold getBucket
    omega
  have hm : (byteN * 8 + bitN) % 8 = bitN := by omega
  rw [RmScan.isStored, isSet, hb, getBit, hm]
  exact shiftRight_and_one (bm byteN) ⟨bitN, h⟩

/-! ### Searching -/

variable (bit : Bool) (maxN : Int)

/-- The position is the least one after `lo` and below `maxN` that holds the bit, or there is none
and it is `maxN`. -/
def IsNext (lo r : Int) : Prop :=
  (r = maxN ∧ ∀ k, lo ≤ k → k < maxN → isSet bm k.toNat ≠ bit) ∨
    lo ≤ r ∧ r < maxN ∧ isSet bm r.toNat = bit ∧ ∀ k, lo ≤ k → k < r → isSet bm k.toNat ≠ bit

theorem isNext_nextBitFrom : ∀ (n : Nat) (i : Int), (maxN - i).toNat = n →
    IsNext bm bit maxN i (nextBitFrom bit bm maxN n i) := by
  intro n
  induction n with
  | zero =>
    intro i hi
    refine Or.inl ⟨rfl, fun k h1 h2 => ?_⟩
    omega
  | succ n ih =>
    intro i hi
    unfold nextBitFrom
    by_cases hb : isSet bm i.toNat = bit
    · rw [if_pos hb]
      exact Or.inr ⟨Int.le_refl i, by omega, hb, fun k h1 h2 => by omega⟩
    · rw [if_neg hb]
      -- position `i` is not the one, so the rest of the loop decides
      have hskip : ∀ {k : Int}, i ≤ k → k = i ∨ i + 1 ≤ k := fun hk => by omega
      rcases ih (i + 1) (by omega) with ⟨hr, hall⟩ | ⟨hlo, hhi, hr, hall⟩
      · refine Or.inl ⟨hr, fun k h1 h2 => ?_⟩
        rcases hskip h1 with rfl | h1
        · exact hb
        · exact hall k h1 h2
      · refine Or.inr ⟨by omega, hhi, hr, fun k h1 h2 => ?_⟩
        rcases hskip h1 with rfl | h1
        · exact hb
        · exact hall k h1 h2

/-- **`next_bit`** returns the least position after `curr` with the wanted bit, or the bound. -/
theorem isNext_nextBit (curr : Int) : IsNext bm bit maxN (curr + 1) (nextBit bit bm maxN curr) :=
  isNext_nextBitFrom bm bit maxN _ _ rfl

end Rucbase.Bitmap

namespace Rucbase.CharBitmap

open Promote

variable (signed : Bool) (bm : Nat → BitVec 8) (i : Nat)

/-- The bitmap read as bytes. -/
def bytes : Nat → UInt8 := fun n => ⟨bm n⟩

/-- The mask of every position fits into the `char`, whose sign bit is position `0`. -/
theorem getBit_eq : getBit signed i = (Bitmap.getBit i).toBitVec := by
  have hmask : ∀ k : Fin 8, (0x80#32 >>> promote signed 32 (BitVec.ofNat 8 k)).setWidth 8 =
      (0x80 >>> UInt8.ofNat k : UInt8).toBitVec := by
    cases signed <;> decide +kernel
  exact hmask ⟨i % 8, Nat.mod_lt _ (by decide)⟩

theorem bytes_update (n : Nat) (b : BitVec 8) :
    bytes (Function.update bm n b) = Function.update (bytes bm) n ⟨b⟩ := by
  ext k
  by_cases h : k = n
  · simp [bytes, h]
  · simp [bytes, h]

theorem bytes_set : bytes (set signed bm i) = Bitmap.set (bytes bm) i := by
  rw [set, bytes_update, setWidth_promote_or signed _ _ (by decide), getBit_eq]
  rfl

theorem bytes_reset : bytes (reset signed bm i) = Bitmap.reset (bytes bm) i := by
  rw [reset, bytes_update, setWidth_promote_and signed _ _ (by decide),
    setWidth_promote_not signed _ (by decide), getBit_eq]
  rfl

theorem isSet_eq : isSet signed bm i = Bitmap.isSet (bytes bm) i := by
  rw [Bool.eq_iff_iff, isSet, Bitmap.isSet, bne_iff_ne, bne_iff_ne, ne_eq, ne_eq,
    promote_and_eq_zero_iff signed _ _ (by decide), getBit_eq, ← UInt8.toBitVec_inj]
  rfl

theorem isStoredChar_eq {bitN : Nat} (h : bitN < 8) (byteN : Nat) :
    RmScan.isStoredChar signed bm byteN bitN = isSet signed bm (byteN * 8 + bitN) := by
  have hshift : ∀ (c : Fin 256) (k : Fin 8),
      ((promote signed 32 (BitVec.ofFin (w := 8) c)).sshiftRight (7 - k) &&& 1#32 != 0#32) =
        ((⟨BitVec.ofFin (w := 8) c⟩ : UInt8) >>> UInt8.ofNat (7 - k) &&& 1 != 0) := by
    cases signed <;> decide +kernel
  rw [isSet_eq, ← Bitmap.isStored_eq (bytes bm) h]
  exact hshift (bm byteN).toFin ⟨bitN, h⟩

theorem nextBitFrom_eq (bit : Bool) (maxN : Int) : ∀ (n : Nat) (i : Int),
    nextBitFrom signed bit bm maxN n i = Bitmap.nextBitFrom bit (bytes bm) maxN n i := by
  intro n
  induction n with
  | zero =>
    intro i
    rfl
  | succ n ih =>
    intro i
    rw [nextBitFrom, Bitmap.nextBitFrom, isSet_eq, ih]

theorem isNext_nextBit (bit : Bool) (maxN curr : Int) :
    Bitmap.IsNext (bytes bm) bit maxN (curr + 1) (nextBit signed bit bm maxN curr) := by
  rw [nextBit, nextBitFrom_eq]
  exact Bitmap.isNext_nextBitFrom (bytes bm) bit maxN _ _ rfl

/-- **The bitmap operations.**  For a signed and for an unsigned `char`: `set` and `reset` change
the bit at their position and nothing else, no other byte included, and `next_bit` is the least
position after `curr` and below the bound with the wanted bit, or the bound. -/
theorem charBitmap_spec (bit : Bool) (maxN curr : Int) :
    (isSet signed (set signed bm i) i = true ∧
      ∀ j, j ≠ i → isSet signed (set signed bm i) j = isSet signed bm j) ∧
    (isSet signed (reset signed bm i) i = false ∧
      ∀ j, j ≠ i → isSet signed (reset signed bm i) j = isSet signed bm j) ∧
    (∀ n, n ≠ i / 8 → set signed bm i n = bm n ∧ reset signed bm i n = bm n) ∧
    (IsLeast {k | curr < k ∧ k < maxN ∧ isSet signed bm k.toNat = bit}
        (nextBit signed bit bm maxN curr) ∨
      nextBit signed bit bm maxN curr = maxN ∧
        ∀ k, curr < k → k < maxN → isSet signed bm k.toNat ≠ bit) := by
  refine ⟨⟨?_, fun j hj => ?_⟩, ⟨?_, fun j hj => ?_⟩, fun n hn => ⟨?_, ?_⟩, ?_⟩
  · rw [isSet_eq, bytes_set, Bitmap.isSet_set]
    simp
  · rw [isSet_eq, bytes_set, Bitmap.isSet_set, isSet_eq]
    simp [hj]
  · rw [isSet_eq, bytes_reset, Bitmap.isSet_reset]
    simp
  · rw [isSet_eq, bytes_reset, Bitmap.isSet_reset, isSet_eq]
    simp [hj]
  · exact Function.update_of_ne hn _ _
  · exact Function.update_of_ne hn _ _
  · rcases isNext_nextBit signed bm bit maxN curr with ⟨hr, hall⟩ | ⟨hlo, hhi, hr, hall⟩
    · right
      refine ⟨hr, fun k hk hm => ?_⟩
      rw [isSet_eq]
      exact hall k (by omega) hm
    · left
      refine ⟨⟨by omega, hhi, by rw [isSet_eq]; exact hr⟩, ?_⟩
      -- a smaller position would have stopped the loop
      rintro k ⟨hk, -, hbit⟩
      by_contra hlt
      rw [isSet_eq] at hbit
      exact hall k (by omega) (by omega) hbit

end Rucbase.CharBitmap
