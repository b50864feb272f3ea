import Rucbase.Record.RmPageHandle

/-!
# Integers and fields in the bytes of a page

An `int` written to memory is read back (`bytesInt_intBytes`), so the file header survives the way
to page 0 and back (`RmFileHdr.ofBytes_toBytes`).  In a record page `next_free_page_no` is not
touched by writes to the count, the bitmap or the slots, which lie behind it.
-/

namespace Rucbase

/-- The values of an `int`. -/
def IsInt (x : Int) : Prop := -2 ^ 31 ≤ x ∧ x < 2 ^ 31

/-- An `int` is read back from its bytes. -/
theorem bytesInt_intBytes {x : Int} (hx : IsInt x) {b : Nat → UInt8}
    (hb : ∀ j < 4, b j = intBytes x j) : bytesInt b = x := by
  obtain ⟨h1, h2⟩ := hx
  set u := (x % 2 ^ 32).toNat with hu
  have hbyte : ∀ j < 4, (b j).toNat = u / 256 ^ j % 256 := by
    intro j hj
    rw [hb j hj, intBytes, UInt8.toNat_ofNat']
  -- the four bytes are the digits of `u` to the base 256
  have hsum : u % 256 + 256 * (u / 256 % 256) + 65536 * (u / 65536 % 256) +
      16777216 * (u / 16777216 % 256) = u := by omega
  unfold bytesInt
  rw [hbyte 0 (by omega), hbyte 1 (by omega), hbyte 2 (by omega), hbyte 3 (by omega)]
  have hpow : (256 : Nat) ^ 0 = 1 ∧ (256 : Nat) ^ 1 = 256 ∧ (256 : Nat) ^ 2 = 65536 ∧
      (256 : Nat) ^ 3 = 16777216 := by decide
  rw [hpow.1, hpow.2.1, hpow.2.2.1, hpow.2.2.2, Nat.div_one, hsum, Int.bmod_def]
  split_ifs <;> omega

/-- A field of a struct is read back from the struct's bytes. -/
theorem structField_structBytes {n k : Nat} {fields : List Int} (hk : 4 * k + 4 ≤ n)
    (hx : IsInt (fields.getD k 0)) : structField (structBytes n fields) k = fields.getD k 0 := by
  refine bytesInt_intBytes hx fun j hj => ?_
  have hlt : 4 * k + j < n := by omega
  have hdiv : (4 * k + j) / 4 = k := by omega
  have hmod : (4 * k + j) % 4 = j := by omega
  simp only [hlt, dif_pos, structBytes, hdiv, hmod]

/-- **The file header survives the way to disk and back.** -/
theorem RmFileHdr.ofBytes_toBytes {hdr : RmFileHdr} (h1 : IsInt hdr.recordSize)
    (h2 : IsInt hdr.numPages) (h3 : IsInt hdr.numRecordsPerPage) (h4 : IsInt hdr.firstFreePageNo)
    (h5 : IsInt hdr.bitmapSize) : RmFileHdr.ofBytes hdr.toBytes = hdr := by
  cases hdr
  simp only [RmFileHdr.ofBytes, RmFileHdr.toBytes, RmFileHdr.mk.injEq]
  refine ⟨structField_structBytes (by decide) h1, structField_structBytes (by decide) h2,
    structField_structBytes (by decide) h3, structField_structBytes (by decide) h4,
    structField_structBytes (by decide) h5⟩

namespace PageData

theorem byteAt_memcpy {d : PageData} {off n i : Nat} {buf : Nat → UInt8} (hi : i < pageSize) :
    (d.memcpy off buf n).byteAt i = if off ≤ i ∧ i < off + n then buf (i - off) else d.byteAt i := by
  simp only [byteAt, memcpy, hi, dif_pos]

/-- An `int` that lies beside the bytes that were copied. -/
theorem intAt_memcpy {d : PageData} {off n i : Nat} {buf : Nat → UInt8} (hi : i + 4 ≤ off)
    (hp : i + 4 ≤ pageSize) : (d.memcpy off buf n).intAt i = d.intAt i := by
  have hbyte : ∀ j < 4, (d.memcpy off buf n).byteAt (i + j) = d.byteAt (i + j) := by
    intro j hj
    rw [byteAt_memcpy (by omega), if_neg (by omega)]
  unfold intAt bytesInt
  beta_reduce
  rw [hbyte 0 (by omega), hbyte 1 (by omega), hbyte 2 (by omega), hbyte 3 (by omega)]

theorem intAt_setIntAt {d : PageData} {off : Nat} {x : Int} (hx : IsInt x)
    (hp : off + 4 ≤ pageSize) : (d.setIntAt off x).intAt off = x := by
  refine bytesInt_intBytes hx fun j hj => ?_
  rw [setIntAt, byteAt_memcpy (by omega), if_pos (by omega), Nat.add_sub_cancel_left]

end PageData

namespace RmPageHandle

variable (d : PageData)

@[simp] theorem nextFreePageNo_zeroPage : nextFreePageNo zeroPage = 0 := by decide

@[simp] theorem numRecords_zeroPage : numRecords zeroPage = 0 := by decide

@[simp] theorem nextFreePageNo_setNextFreePageNo {x : Int} (hx : IsInt x) :
    nextFreePageNo (setNextFreePageNo d x) = x := PageData.intAt_setIntAt hx (by decide)

@[simp] theorem numRecords_setNumRecords {x : Int} (hx : IsInt x) :
    numRecords (setNumRecords d x) = x := PageData.intAt_setIntAt hx (by decide)

@[simp] theorem nextFreePageNo_setNumRecords (x : Int) :
    nextFreePageNo (setNumRecords d x) = nextFreePageNo d :=
  PageData.intAt_memcpy (by decide) (by decide)

@[simp] theorem nextFreePageNo_setBitmap (pos : Nat) (bm : Nat → UInt8) :
    nextFreePageNo (setBitmap d pos bm) = nextFreePageNo d :=
  PageData.intAt_memcpy (by unfold bitmapOffset; omega) (by decide)

@[simp] theorem numRecords_setBitmap (pos : Nat) (bm : Nat → UInt8) :
    numRecords (setBitmap d pos bm) = numRecords d :=
  PageData.intAt_memcpy (by unfold bitmapOffset; omega) (by decide)

/-- The slots lie behind the page header. -/
theorem bitmapOffset_le_getSlot {fileHdr : RmFileHdr} (hbm : 0 ≤ fileHdr.bitmapSize)
    (hsize : 0 ≤ fileHdr.recordSize) {slotNo : Int} (hslot : 0 ≤ slotNo) :
    bitmapOffset ≤ getSlot fileHdr slotNo := by
  have := Int.mul_nonneg hslot hsize
  unfold getSlot
  omega

theorem nextFreePageNo_memcpy {off : Nat} (hoff : bitmapOffset ≤ off) (buf : Nat → UInt8)
    (n : Nat) : nextFreePageNo (d.memcpy off buf n) = nextFreePageNo d :=
  PageData.intAt_memcpy (Nat.le_trans (by decide) hoff) (by decide)

theorem numRecords_memcpy {off : Nat} (hoff : bitmapOffset ≤ off) (buf : Nat → UInt8) (n : Nat) :
    numRecords (d.memcpy off buf n) = numRecords d :=
  PageData.intAt_memcpy (Nat.le_trans (by decide) hoff) (by decide)

end RmPageHandle

end Rucbase
