import Mathlib.Tactic.Common

/-!
# Integer promotion

A narrow machine integer takes part in arithmetic at a wider type: it is widened by its sign or by
zeros, as its type is signed or not, and the result of a compound assignment is narrowed again.  No
bitwise operation depends on how the operands were widened (`setWidth_promote_and` and the lemmas
beside it), nor does a test against zero (`promote_and_eq_zero_iff`).
-/

namespace Promote

variable {w v : Nat}

/-- An integer of width `w` widened to width `v`, by its sign bit when its type is signed. -/
def promote (signed : Bool) (v : Nat) (c : BitVec w) : BitVec v :=
  if signed then c.signExtend v else c.setWidth v

variable (signed : Bool) (a b : BitVec w)

@[simp]
theorem setWidth_promote (h : w ≤ v) : (promote signed v a).setWidth w = a := by
  apply BitVec.eq_of_getLsbD_eq
  intro i hi
  have hv : i < v := by omega
  cases signed with
  | false => simp [promote, hi, hv]
  | true =>
    rw [promote, if_pos rfl, BitVec.getLsbD_setWidth, BitVec.getLsbD_signExtend, if_pos hi]
    simp [hi, hv]

theorem promote_and : promote signed v a &&& promote signed v b = promote signed v (a &&& b) := by
  cases signed with
  | false => exact BitVec.setWidth_and.symm
  | true => exact BitVec.signExtend_and.symm

@[simp]
theorem setWidth_promote_or (h : w ≤ v) :
    (promote signed v a ||| promote signed v b).setWidth w = a ||| b := by
  rw [BitVec.setWidth_or, setWidth_promote signed a h, setWidth_promote signed b h]

@[simp]
theorem setWidth_promote_and (h : w ≤ v) :
    (promote signed v a &&& promote signed v b).setWidth w = a &&& b := by
  rw [BitVec.setWidth_and, setWidth_promote signed a h, setWidth_promote signed b h]

@[simp]
theorem setWidth_promote_not (h : w ≤ v) : (~~~promote signed v a).setWidth w = ~~~a := by
  rw [BitVec.setWidth_not h, setWidth_promote signed a h]

theorem promote_eq_zero_iff (h : w ≤ v) : promote signed v a = 0#v ↔ a = 0#w := by
  constructor
  · intro ha
    rw [← setWidth_promote signed a h, ha, BitVec.setWidth_zero]
  · rintro rfl
    cases signed with
    | false => exact BitVec.setWidth_zero v w
    | true =>
      rw [promote, if_pos rfl, BitVec.signExtend_eq_setWidth_of_msb_false (by simp)]
      exact BitVec.setWidth_zero v w

theorem promote_and_eq_zero_iff (h : w ≤ v) :
    promote signed v a &&& promote signed v b = 0#v ↔ a &&& b = 0#w := by
  rw [promote_and, promote_eq_zero_iff signed _ h]

end Promote
