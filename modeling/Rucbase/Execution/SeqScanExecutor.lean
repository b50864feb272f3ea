import Rucbase.Execution.ExecutionManager

/-!
# The sequential scan

`AbstractExecutor::get_col` and `rec2dict` (`execution/executor_abstract.h`), and of
`SeqScanExecutor` (`execution/executor_seq_scan.h`) the constructor, `feed`, `check_runtime_conds` and
`eval_conds`.  A pointer into a buffer is the rest of the buffer from there.

`float` values are compared by their bits: sign and magnitude, with every comparison that involves a
NaN false.
-/

namespace Rucbase

/-- `data + offset`. -/
def advance (data : List UInt8) (offset : Int32) : QlM (List UInt8) :=
  if 0 ≤ offset.toInt ∧ offset.toInt ≤ data.length then pure (data.drop offset.toInt.toNat)
  else throw .outOfBounds

/-- Without its sign bit, a `float` is the larger the larger its bits are. -/
def floatMagnitude (bits : UInt32) : Nat := bits.toNat % 2 ^ 31

def floatIsNaN (bits : UInt32) : Bool := 0x7f800000 < floatMagnitude bits

/-- A number that is ordered as the `float` is; both zeros get 0. -/
def floatKey (bits : UInt32) : Int :=
  if bits.toNat < 2 ^ 31 then floatMagnitude bits else -floatMagnitude bits

/-- `<` on `float`s. -/
def floatLt (a b : UInt32) : Bool :=
  !floatIsNaN a && !floatIsNaN b && decide (floatKey a < floatKey b)

/-- `(a < b) ? -1 : ((a > b) ? 1 : 0)`. -/
def threeWay (lt gt : Bool) : Int := if lt then -1 else if gt then 1 else 0

/-- The order of two `int`s. -/
def compareInt (a b : UInt32) : Int := threeWay (a.toInt32 < b.toInt32) (b.toInt32 < a.toInt32)

/-- The order of two `float`s. -/
def compareFloat (a b : UInt32) : Int := threeWay (floatLt a b) (floatLt b a)

/-- `ix_compare` on buffers. -/
def ixCompareBytes (a b : List UInt8) (type : ColType) (colLen : Int32) : QlM Int :=
  match type with
  | .int => do return compareInt (← loadWord a) (← loadWord b)
  | .float => do return compareFloat (← loadWord a) (← loadWord b)
  | .string =>
    if 0 ≤ colLen.toInt ∧ colLen.toInt ≤ a.length ∧ colLen.toInt ≤ b.length then
      pure (ByteString.memcmp a b colLen.toInt.toNat)
    else throw .outOfBounds

namespace AbstractExecutor

/-- `AbstractExecutor::get_col`. -/
def getCol (recCols : List ColMeta) (target : TabCol) : QlM ColMeta :=
  match recCols.find? fun col => col.tabName = target.tabName ∧ col.name = target.colName with
  | some col => pure col
  | none => throw (.columnNotFoundError target.tabName target.colName)

/-- The value of one column, as `rec2dict` makes it: a string ends at its first zero byte. -/
def colValue (col : ColMeta) (data : List UInt8) : QlM Value := do
  let valBuf ← advance data col.offset
  match col.type with
  | .int => return .setInt (← loadWord valBuf)
  | .float => return .setFloat (← loadWord valBuf)
  | .string =>
    if 0 ≤ col.len.toInt ∧ col.len.toInt ≤ valBuf.length then
      return .setStr ((valBuf.take col.len.toInt.toNat).takeWhile (· ≠ 0))
    else throw .outOfBounds

/-- One round of `rec2dict`.  A dictionary is the list of its entries. -/
def addCol (data : List UInt8) (recDict : List (TabCol × Value)) (col : ColMeta) :
    QlM (List (TabCol × Value)) := do
  let key : TabCol := ⟨col.tabName, col.name⟩
  let val ← colValue col data
  if (recDict.lookup key).isSome then throw .assertionFailure
  return recDict ++ [(key, ← val.initRaw col.len)]

/-- `AbstractExecutor::rec2dict`. -/
def rec2dict (cols : List ColMeta) (data : List UInt8) : QlM (List (TabCol × Value)) :=
  cols.foldlM (addCol data) []

end AbstractExecutor

/-- The `swap_op` of the constructor. -/
def CompOp.swap : CompOp → CompOp
  | .eq => .eq
  | .ne => .ne
  | .lt => .gt
  | .gt => .lt
  | .le => .ge
  | .ge => .le

/-- `SeqScanExecutor`, as far as its conditions go. -/
structure SeqScanExecutor where
  tabName : String
  conds : List Condition
  cols : List ColMeta
  fedConds : List Condition

namespace SeqScanExecutor

open AbstractExecutor

/-- What the constructor makes of a condition. -/
def orient (tabName : String) (cond : Condition) : QlM Condition :=
  if cond.lhsCol.tabName ≠ tabName then
    if !cond.isRhsVal ∧ cond.rhsCol.tabName = tabName then
      pure { cond with lhsCol := cond.rhsCol, rhsCol := cond.lhsCol, op := cond.op.swap }
    else throw .assertionFailure
  else pure cond

/-- `SeqScanExecutor::SeqScanExecutor`. -/
def new (tab : TabMeta) (conds : List Condition) : QlM SeqScanExecutor := do
  let conds ← conds.mapM (orient tab.name)
  return { tabName := tab.name, conds, cols := tab.cols, fedConds := conds }

/-- `SeqScanExecutor::check_runtime_conds`. -/
def checkRuntimeConds (executor : SeqScanExecutor) : QlM Unit :=
  executor.fedConds.forM fun cond => do
    if cond.lhsCol.tabName ≠ executor.tabName then throw .assertionFailure
    if !cond.isRhsVal ∧ cond.rhsCol.tabName ≠ executor.tabName then throw .assertionFailure

/-- What `feed` makes of a condition. -/
def feedCond (tabName : String) (feedDict : List (TabCol × Value)) (cond : Condition) :
    QlM Condition :=
  if !cond.isRhsVal ∧ cond.rhsCol.tabName ≠ tabName then
    match feedDict.lookup cond.rhsCol with
    | some rhsVal => pure { cond with isRhsVal := true, rhsVal }
    | none => throw .outOfRange
  else pure cond

/-- `SeqScanExecutor::feed`. -/
def feed (executor : SeqScanExecutor) (feedDict : List (TabCol × Value)) : QlM SeqScanExecutor := do
  let fedConds ← executor.conds.mapM (feedCond executor.tabName feedDict)
  let executor := { executor with fedConds }
  executor.checkRuntimeConds
  return executor

/-- `SeqScanExecutor::eval_cond`. -/
def evalCond (recCols : List ColMeta) (cond : Condition) (data : List UInt8) : QlM Bool := do
  let lhsCol ← getCol recCols cond.lhsCol
  let lhs ← advance data lhsCol.offset
  let (rhsType, rhs) ←
    if cond.isRhsVal then
      match cond.rhsVal.raw with
      | some raw => pure (cond.rhsVal.type, raw)
      | none => throw .outOfBounds
    else do
      let rhsCol ← getCol recCols cond.rhsCol
      pure (rhsCol.type, ← advance data rhsCol.offset)
  if rhsType ≠ lhsCol.type then throw .assertionFailure
  let cmp ← ixCompareBytes lhs rhs rhsType lhsCol.len
  return cond.op.test cmp

/-- `SeqScanExecutor::eval_conds`; `std::all_of` stops at the first condition that is false. -/
def evalConds (recCols : List ColMeta) : List Condition → List UInt8 → QlM Bool
  | [], _ => pure true
  | cond :: conds, data => do
    if ← evalCond recCols cond data then evalConds recCols conds data else return false

end SeqScanExecutor

end Rucbase
