import Rucbase.Lib.ByteString
import Rucbase.System.SmMeta

/-!
# Conditions and their distribution over tables

`TabCol`, `Value` and `Condition` of `execution/execution_manager.h`, and `pop_conds` with the loop of
`QlManager::select_from` that hands the conditions of a where clause out to the tables
(`execution/execution_manager.cpp`).  Buffers and `std::string`s are lists of bytes.
-/

namespace Rucbase

/-- The ways the modelled functions of the execution layer stop.  `allocationError` is what `new`
throws for a negative length, and `outOfBounds` stands for undefined behaviour: an access beyond the
end of a buffer. -/
inductive QlError where
  | assertionFailure
  | columnNotFoundError (tabName colName : String)
  | stringOverflowError
  | allocationError
  | outOfRange
  | outOfBounds
deriving DecidableEq

/-- A call of the execution layer that may throw. -/
abbrev QlM := Except QlError

/-- `TabCol`. -/
structure TabCol where
  tabName : String
  colName : String
deriving DecidableEq

/-- `*(int *)buf` or `*(float *)buf`, as bits: low byte first. -/
def loadWord (buf : List UInt8) : QlM UInt32 :=
  match buf with
  | b₀ :: b₁ :: b₂ :: b₃ :: _ =>
    pure (.ofNat (b₀.toNat + 256 * b₁.toNat + 256 ^ 2 * b₂.toNat + 256 ^ 3 * b₃.toNat))
  | _ => throw .outOfBounds

/-- The bytes of an `int` or a `float`. -/
def storeWord (word : UInt32) : List UInt8 :=
  (List.range 4).map fun i => .ofNat (word.toNat / 256 ^ i)

/-- `Value`; `num` holds the bits of the union of `int_val` and `float_val`. -/
structure Value where
  type : ColType
  num : UInt32 := 0
  strVal : List UInt8 := []
  raw : Option (List UInt8) := none
deriving DecidableEq

namespace Value

/-- `Value::set_int`. -/
def setInt (intVal : UInt32) : Value := { type := .int, num := intVal }

/-- `Value::set_float`. -/
def setFloat (floatVal : UInt32) : Value := { type := .float, num := floatVal }

/-- `Value::set_str`. -/
def setStr (strVal : List UInt8) : Value := { type := .string, strVal }

/-- `Value::init_raw`.  The buffer is allocated before the length of the string is checked, and the
check narrows that length to `int`. -/
def initRaw (val : Value) (len : Int32) : QlM Value := do
  if val.raw ≠ none then throw .assertionFailure
  if len.toInt < 0 then throw .allocationError
  match val.type with
  | .int | .float =>
    if len ≠ 4 then throw .assertionFailure
    return { val with raw := storeWord val.num }
  | .string =>
    if len < Int32.ofNat val.strVal.length then throw .stringOverflowError
    if len.toInt < val.strVal.length then throw .outOfBounds
    return { val with raw := ByteString.pad len.toInt.toNat val.strVal }

end Value

/-- `CompOp`. -/
inductive CompOp where
  | eq | ne | lt | gt | le | ge
deriving DecidableEq

/-- What `eval_cond` makes of a comparison. -/
def CompOp.test : CompOp → Int → Bool
  | .eq, cmp => cmp = 0
  | .ne, cmp => cmp ≠ 0
  | .lt, cmp => cmp < 0
  | .gt, cmp => 0 < cmp
  | .le, cmp => cmp ≤ 0
  | .ge, cmp => 0 ≤ cmp

/-- `Condition`. -/
structure Condition where
  lhsCol : TabCol
  op : CompOp
  isRhsVal : Bool
  rhsCol : TabCol
  rhsVal : Value
deriving DecidableEq

/-- The test of `pop_conds`: both sides are known once these tables are. -/
def Condition.solvedBy (tabNames : List String) (cond : Condition) : Bool :=
  tabNames.contains cond.lhsCol.tabName &&
    (cond.isRhsVal || tabNames.contains cond.rhsCol.tabName)

/-- `pop_conds`: the solved conditions, and those that stay in `conds`. -/
def popConds (conds : List Condition) (tabNames : List String) :
    List Condition × List Condition :=
  conds.partition (·.solvedBy tabNames)

/-- The loop of `select_from` over the tables: the conditions of each table, and what is left. -/
def assignConds (tabNames : List String) (conds : List Condition) :
    List (List Condition) × List Condition :=
  (List.range tabNames.length).foldl
    (fun state i =>
      let (currConds, conds) := popConds state.2 (tabNames.take (i + 1))
      (state.1 ++ [currConds], conds))
    ([], conds)

end Rucbase
