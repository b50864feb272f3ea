import Rucbase.Execution.SeqScanExecutor
import Rucbase.System.RecordPrinter

/-!
# Printing the result of a query

The part of `QlManager::select_from` (`execution/execution_manager.cpp`) that runs the query plan and
prints what it returns.  The plan is given by what is asked of it: the columns of its tuples and the
tuples (`ResultSet`).
-/

namespace Rucbase

/-- `n / d`, rounded to the nearest integer, and to the even one in the middle. -/
def roundDiv (n d : Nat) : Nat :=
  if 2 * (n % d) < d then n / d
  else if d < 2 * (n % d) then n / d + 1
  else n / d + n / d % 2

/-- `std::to_string` for a `float`: `%f` prints the exact value, rounded to six digits after the
point. -/
def toStringFloat (word : UInt32) : List UInt8 :=
  let sign := if word.toNat < 2 ^ 31 then [] else bytes "-"
  let exponent := word.toNat / 2 ^ 23 % 2 ^ 8
  let fraction := word.toNat % 2 ^ 23
  if exponent = 255 then sign ++ if fraction = 0 then bytes "inf" else bytes "nan"
  else
    -- the value is `significand * 2 ^ (exponent - 150)`, with exponent 1 for a subnormal number
    let significand := if exponent = 0 then 2 * fraction else 2 ^ 23 + fraction
    let millionths := roundDiv (significand * 2 ^ exponent * 10 ^ 6) (2 ^ 150)
    let digits := toStringInt (millionths % 10 ^ 6 : Nat)
    sign ++ toStringInt (millionths / 10 ^ 6 : Nat) ++ bytes "." ++
      List.replicate (6 - digits.length) 48 ++ digits

/-- The text of a column of a tuple. -/
def colStr (col : ColMeta) (tuple : List UInt8) : QlM (List UInt8) := do
  let recBuf ← advance tuple col.offset
  match col.type with
  | .int => return toStringInt (← loadWord recBuf).toInt32.toInt
  | .float => return toStringFloat (← loadWord recBuf)
  | .string =>
    if 0 ≤ col.len.toInt ∧ col.len.toInt ≤ recBuf.length then
      return (recBuf.take col.len.toInt.toNat).takeWhile (· ≠ 0)
    else throw .outOfBounds

/-- Reading a tuple while printing. -/
def PrintM.read {α : Type} (x : QlM α) : PrintM α :=
  match x with
  | .ok a => return a
  | .error _ => throw .badTuple

/-- The column is inside the tuple, and large enough for its type. -/
def ColMeta.In (col : ColMeta) (tuple : List UInt8) : Prop :=
  0 ≤ col.offset.toInt ∧ 0 ≤ col.len.toInt ∧
    col.offset.toInt + col.len.toInt ≤ tuple.length ∧ (col.type = .string ∨ 4 ≤ col.len.toInt)

/-- The result of a query for at least one column: the columns asked for, those of the plan's tuples,
and the tuples. -/
structure ResultSet where
  selCols : List TabCol
  cols : List ColMeta
  tuples : List (List UInt8)
  selCols_ne : selCols ≠ []
  length_cols : cols.length = selCols.length
  cols_in : ∀ tuple ∈ tuples, ∀ col ∈ cols, col.In tuple

/-- The printing of `QlManager::select_from`. -/
def ResultSet.print (result : ResultSet) : PrintM Unit := do
  let captions := result.selCols.map fun selCol => bytes selCol.colName
  let recPrinter ← RecordPrinter.new result.selCols.length
  recPrinter.printSeparator
  recPrinter.printRecord captions
  recPrinter.printSeparator
  let numRec ← result.tuples.foldlM (fun numRec tuple => do
    let columns ← PrintM.read (result.cols.mapM fun col => colStr col tuple)
    recPrinter.printRecord columns
    return numRec + 1) 0
  recPrinter.printSeparator
  RecordPrinter.printRecordCount numRec

end Rucbase
