import Rucbase.Lib.Promote

/-!
# Bitmaps

`Bitmap` (`record/bitmap.h`): the occupancy bits of a record page, most significant bit of a byte
first.  A bitmap is the bytes from its start address on.

`Bitmap` computes with the bytes as such.  The source computes with `char`s, which are promoted to
`int` in every operation and narrowed when stored: `CharBitmap` follows it there, for a signed and
for an unsigned `char`.
-/

namespace Rucbase.Bitmap

/-- `Bitmap::get_bucket`. -/
def getBucket (pos : Nat) : Nat := pos / 8

/-- `Bitmap::get_bit`: `BITMAP_HIGHEST_BIT` shifted to the position in the byte. -/
def getBit (pos : Nat) : UInt8 := 0x80 >>> UInt8.ofNat (pos % 8)

/-- `Bitmap::set`. -/
def set (bm : Nat → UInt8) (pos : Nat) : Nat → UInt8 :=
  Function.update bm (getBucket pos) (bm (getBucket pos) ||| getBit pos)

/-- `Bitmap::reset`. -/
def reset (bm : Nat → UInt8) (pos : Nat) : Nat → UInt8 :=
  Function.update bm (getBucket pos) (bm (getBucket pos) &&& ~~~getBit pos)

/-- `Bitmap::is_set`. -/
def isSet (bm : Nat → UInt8) (pos : Nat) : Bool := bm (getBucket pos) &&& getBit pos != 0

/-- The loop of `Bitmap::next_bit`, with `n` positions left from `i` on. -/
def nextBitFrom (bit : Bool) (bm : Nat → UInt8) (maxN : Int) : Nat → Int → Int
  | 0, _ => maxN
  | n + 1, i => if isSet bm i.toNat = bit then i else nextBitFrom bit bm maxN n (i + 1)

/-- `Bitmap::next_bit`: the next position after `curr` and below `maxN` that holds `bit`, or
`maxN`. -/
def nextBit (bit : Bool) (bm : Nat → UInt8) (maxN curr : Int) : Int :=
  nextBitFrom bit bm maxN (maxN - (curr + 1)).toNat (curr + 1)

/-- `Bitmap::first_bit`. -/
def firstBit (bit : Bool) (bm : Nat → UInt8) (maxN : Int) : Int := nextBit bit bm maxN (-1)

end Rucbase.Bitmap

namespace Rucbase.CharBitmap

open Promote

variable (signed : Bool)

/-- `Bitmap::get_bit`: the unsigned mask is shifted by a promoted `char` and narrowed. -/
def getBit (pos : Nat) : BitVec 8 :=
  (0x80#32 >>> promote signed 32 (BitVec.ofNat 8 (pos % 8))).setWidth 8

/-- `Bitmap::set`: `|=` on a `char`. -/
def set (bm : Nat → BitVec 8) (pos : Nat) : Nat → BitVec 8 :=
  Function.update bm (Bitmap.getBucket pos)
    ((promote signed 32 (bm (Bitmap.getBucket pos)) |||
      promote signed 32 (getBit signed pos)).setWidth 8)

/-- `Bitmap::reset`: `&=` on a `char`, with the complement taken of the promoted mask and
narrowed. -/
def reset (bm : Nat → BitVec 8) (pos : Nat) : Nat → BitVec 8 :=
  Function.update bm (Bitmap.getBucket pos)
    ((promote signed 32 (bm (Bitmap.getBucket pos)) &&&
      promote signed 32 ((~~~promote signed 32 (getBit signed pos)).setWidth 8)).setWidth 8)

/-- `Bitmap::is_set`. -/
def isSet (bm : Nat → BitVec 8) (pos : Nat) : Bool :=
  promote signed 32 (bm (Bitmap.getBucket pos)) &&& promote signed 32 (getBit signed pos) != 0#32

/-- The loop of `Bitmap::next_bit`, with `n` positions left from `i` on. -/
def nextBitFrom (bit : Bool) (bm : Nat → BitVec 8) (maxN : Int) : Nat → Int → Int
  | 0, _ => maxN
  | n + 1, i => if isSet signed bm i.toNat = bit then i else nextBitFrom bit bm maxN n (i + 1)

/-- `Bitmap::next_bit`. -/
def nextBit (bit : Bool) (bm : Nat → BitVec 8) (maxN curr : Int) : Int :=
  nextBitFrom signed bit bm maxN (maxN - (curr + 1)).toNat (curr + 1)

end Rucbase.CharBitmap
