import Mathlib.Tactic.Common

/-!
# Syntax trees

The tree nodes and the semantic value of `parser/ast.h`.  A `std::shared_ptr` is an `Option`: a null
pointer is `none`.  `φ` is the type of `float` values, which the parser only passes on.
-/

namespace Rucbase

namespace Ast

/-- `SvType`. -/
inductive SvType where
  | int
  | float
  | string
deriving DecidableEq, Repr

/-- `SvCompOp`. -/
inductive SvCompOp where
  | eq
  | ne
  | lt
  | gt
  | le
  | ge
deriving DecidableEq, Repr

/-- `TypeLen`. -/
structure TypeLen where
  type : SvType
  len : Int32
deriving DecidableEq

/-- `ColDef`, the one kind of `Field`. -/
structure ColDef where
  colName : String
  typeLen : Option TypeLen
deriving DecidableEq

/-- `Col`. -/
structure Col where
  tabName : String
  colName : String
deriving DecidableEq

/-- `Value`: `IntLit`, `FloatLit` or `StringLit`. -/
inductive Value (φ : Type) where
  | intLit (val : Int32)
  | floatLit (val : φ)
  | stringLit (val : String)
deriving DecidableEq

/-- `Expr`: a `Value` or a `Col`. -/
inductive Expr (φ : Type) where
  | value (val : Value φ)
  | col (col : Col)
deriving DecidableEq

/-- `SetClause`. -/
structure SetClause (φ : Type) where
  colName : String
  val : Option (Value φ)
deriving DecidableEq

/-- `BinaryExpr`. -/
structure BinaryExpr (φ : Type) where
  lhs : Option Col
  op : SvCompOp
  rhs : Option (Expr φ)
deriving DecidableEq

/-- `TreeNode`, as far as it is a statement. -/
inductive TreeNode (φ : Type) where
  | help
  | showTables
  | txnBegin
  | txnCommit
  | txnAbort
  | txnRollback
  | createTable (tabName : String) (fields : List (Option ColDef))
  | dropTable (tabName : String)
  | descTable (tabName : String)
  | createIndex (tabName colName : String)
  | dropIndex (tabName colName : String)
  | insertStmt (tabName : String) (vals : List (Option (Value φ)))
  | deleteStmt (tabName : String) (conds : List (Option (BinaryExpr φ)))
  | updateStmt (tabName : String) (setClauses : List (Option (SetClause φ)))
      (conds : List (Option (BinaryExpr φ)))
  | selectStmt (cols : List (Option Col)) (tabs : List String) (conds : List (Option (BinaryExpr φ)))
deriving DecidableEq

/-- `SemValue`: one record for all symbols, each of which uses one of its fields. -/
structure SemValue (φ : Type) [Inhabited φ] where
  svInt : Int32 := 0
  svFloat : φ := default
  svStr : String := ""
  svStrs : List String := []
  svNode : Option (TreeNode φ) := none
  svCompOp : SvCompOp := .eq
  svTypeLen : Option TypeLen := none
  svField : Option ColDef := none
  svFields : List (Option ColDef) := []
  svExpr : Option (Expr φ) := none
  svVal : Option (Value φ) := none
  svVals : List (Option (Value φ)) := []
  svCol : Option Col := none
  svCols : List (Option Col) := []
  svSetClause : Option (SetClause φ) := none
  svSetClauses : List (Option (SetClause φ)) := []
  svCond : Option (BinaryExpr φ) := none
  svConds : List (Option (BinaryExpr φ)) := []

instance {φ : Type} [Inhabited φ] : Inhabited (SemValue φ) := ⟨{}⟩

end Ast

end Rucbase
