import Mathlib.Data.List.Induction
import Rucbase.Parser.Yacc

/-!
# The statement language

Which sequences of tokens are a statement, and of which tree: one relation for each kind of symbol of
the grammar of `yacc.y`, with the tree that is meant instead of the action.
-/

namespace Rucbase

open Ast

variable {φ : Type}

/-- A list of one or more, in source order, with a separator between any two. -/
inductive ListSpelling {α : Type} (Sep : Token φ → Prop) (Spelling : α → List (Token φ) → Prop) :
    List α → List (Token φ) → Prop where
  | one {a w} : Spelling a w → ListSpelling Sep Spelling [a] w
  | more {l w sep a w'} : ListSpelling Sep Spelling l w → Sep sep → Spelling a w' →
      ListSpelling Sep Spelling (l ++ [a]) (w ++ sep :: w')

/-- `type`. -/
inductive TypeSpelling : TypeLen → List (Token φ) → Prop where
  | int : TypeSpelling ⟨.int, 4⟩ [.word .INT]
  | char (len) :
      TypeSpelling ⟨.string, len⟩ [.word .CHAR, .word .lparen, .valueInt len, .word .rparen]
  | float : TypeSpelling ⟨.float, 4⟩ [.word .FLOAT]

/-- `field`. -/
inductive FieldSpelling : Option ColDef → List (Token φ) → Prop where
  | field (x) {type w} : TypeSpelling type w →
      FieldSpelling (some ⟨x, some type⟩) (.identifier x :: w)

/-- `value`. -/
inductive ValueSpelling : Value φ → List (Token φ) → Prop where
  | int (val) : ValueSpelling (.intLit val) [.valueInt val]
  | float (val) : ValueSpelling (.floatLit val) [.valueFloat val]
  | string (val) : ValueSpelling (.stringLit val) [.valueString val]

/-- `col`. -/
inductive ColSpelling : Col → List (Token φ) → Prop where
  | qualified (x y) : ColSpelling ⟨x, y⟩ [.identifier x, .word .dot, .identifier y]
  | plain (y) : ColSpelling ⟨"", y⟩ [.identifier y]

/-- `op`. -/
inductive OpSpelling : SvCompOp → Word → Prop where
  | eq : OpSpelling .eq .equals
  | lt : OpSpelling .lt .less
  | gt : OpSpelling .gt .greater
  | ne : OpSpelling .ne .NEQ
  | le : OpSpelling .le .LEQ
  | ge : OpSpelling .ge .GEQ

/-- `expr`. -/
inductive ExprSpelling : Expr φ → List (Token φ) → Prop where
  | value {val w} : ValueSpelling val w → ExprSpelling (.value val) w
  | col {col w} : ColSpelling col w → ExprSpelling (.col col) w

/-- `condition`. -/
inductive ConditionSpelling : Option (BinaryExpr φ) → List (Token φ) → Prop where
  | condition {lhs op rhs w t w'} : ColSpelling lhs w → OpSpelling op t → ExprSpelling rhs w' →
      ConditionSpelling (some ⟨some lhs, op, some rhs⟩) (w ++ .word t :: w')

/-- `setClause`. -/
inductive SetClauseSpelling : Option (SetClause φ) → List (Token φ) → Prop where
  | setClause (x) {val w} : ValueSpelling val w →
      SetClauseSpelling (some ⟨x, some val⟩) (.identifier x :: .word .equals :: w)

/-- `whereClause`. -/
abbrev WhereSpelling : List (Option (BinaryExpr φ)) → List (Token φ) → Prop :=
  ListSpelling (· = .word .AND) ConditionSpelling

/-- `optWhereClause`: no conditions when it is absent. -/
inductive OptWhereSpelling : List (Option (BinaryExpr φ)) → List (Token φ) → Prop where
  | none : OptWhereSpelling [] []
  | some {conds w} : WhereSpelling conds w → OptWhereSpelling conds (.word .WHERE :: w)

/-- `fieldList`. -/
abbrev FieldListSpelling : List (Option ColDef) → List (Token φ) → Prop :=
  ListSpelling (· = .word .comma) FieldSpelling

/-- `valueList`. -/
abbrev ValueListSpelling : List (Option (Value φ)) → List (Token φ) → Prop :=
  ListSpelling (· = .word .comma) fun val w => ∃ v, val = some v ∧ ValueSpelling v w

/-- `setClauses`. -/
abbrev SetClausesSpelling : List (Option (SetClause φ)) → List (Token φ) → Prop :=
  ListSpelling (· = .word .comma) SetClauseSpelling

/-- `colList`. -/
abbrev ColListSpelling : List (Option Col) → List (Token φ) → Prop :=
  ListSpelling (· = .word .comma) fun col w => ∃ c, col = some c ∧ ColSpelling c w

/-- `tableList`: the names may be separated by commas or by `JOIN`. -/
abbrev TableListSpelling : List String → List (Token φ) → Prop :=
  ListSpelling (fun sep => sep = .word .comma ∨ sep = .word .JOIN) fun x w => w = [.identifier x]

/-- `selector`: `*` is the empty list. -/
inductive SelectorSpelling : List (Option Col) → List (Token φ) → Prop where
  | all : SelectorSpelling [] [.word .star]
  | cols {cols w} : ColListSpelling cols w → SelectorSpelling cols w

open Word in
/-- `stmt`. -/
inductive StmtSpelling : Ast.TreeNode φ → List (Token φ) → Prop where
  | showTables : StmtSpelling .showTables [SHOW, TABLES]
  | txnBegin : StmtSpelling .txnBegin [TXN_BEGIN]
  | txnCommit : StmtSpelling .txnCommit [TXN_COMMIT]
  | txnAbort : StmtSpelling .txnAbort [TXN_ABORT]
  | txnRollback : StmtSpelling .txnRollback [TXN_ROLLBACK]
  | createTable (x) {fields w} : FieldListSpelling fields w →
      StmtSpelling (.createTable x fields)
        ([.word CREATE, .word TABLE, .identifier x, .word lparen] ++ w ++ [.word rparen])
  | dropTable (x) : StmtSpelling (.dropTable x) [DROP, TABLE, .identifier x]
  | descTable (x) : StmtSpelling (.descTable x) [DESC, .identifier x]
  | createIndex (x y) :
      StmtSpelling (.createIndex x y) [CREATE, INDEX, .identifier x, lparen, .identifier y, rparen]
  | dropIndex (x y) :
      StmtSpelling (.dropIndex x y) [DROP, INDEX, .identifier x, lparen, .identifier y, rparen]
  | insertStmt (x) {vals w} : ValueListSpelling vals w →
      StmtSpelling (.insertStmt x vals)
        ([.word INSERT, .word INTO, .identifier x, .word VALUES, .word lparen] ++ w ++
          [.word rparen])
  | deleteStmt (x) {conds w} : OptWhereSpelling conds w →
      StmtSpelling (.deleteStmt x conds) ([.word DELETE, .word FROM, .identifier x] ++ w)
  | updateStmt (x) {sets w conds w'} : SetClausesSpelling sets w → OptWhereSpelling conds w' →
      StmtSpelling (.updateStmt x sets conds)
        ([.word UPDATE, .identifier x, .word SET] ++ w ++ w')
  | selectStmt {cols w tabs w' conds w''} : SelectorSpelling cols w → TableListSpelling tabs w' →
      OptWhereSpelling conds w'' →
      StmtSpelling (.selectStmt cols tabs conds) ([.word SELECT] ++ w ++ [.word FROM] ++ w' ++ w'')

/-- A statement with its semicolon, or a call for help. -/
inductive Spelling : Ast.TreeNode φ → List (Token φ) → Prop where
  | stmt {tree w} : StmtSpelling tree w → Spelling tree (w ++ [.word .semicolon])
  | help : Spelling .help [.word .HELP]

/-! ### The trees of the grammar -/

/-- A column definition: its pointers are not null, and only `CHAR` has a length of its own. -/
def ColDef.Complete (field : Option ColDef) : Prop :=
  ∃ x type, field = some ⟨x, some type⟩ ∧ (type.type = .string ∨ type.len = 4)

/-- A condition without null pointers. -/
def BinaryExpr.Complete (cond : Option (BinaryExpr φ)) : Prop :=
  ∃ lhs op rhs, cond = some ⟨some lhs, op, some rhs⟩

/-- A clause without null pointers. -/
def SetClause.Complete (set : Option (SetClause φ)) : Prop := ∃ x val, set = some ⟨x, some val⟩

/-- The trees the grammar can produce: no null pointers, and no empty list where the grammar asks for
one element. -/
def TreeNode.WellFormed : Ast.TreeNode φ → Prop
  | .createTable _ fields => fields ≠ [] ∧ ∀ field ∈ fields, ColDef.Complete field
  | .insertStmt _ vals => vals ≠ [] ∧ ∀ val ∈ vals, val.isSome
  | .deleteStmt _ conds => ∀ cond ∈ conds, BinaryExpr.Complete cond
  | .updateStmt _ sets conds =>
    (sets ≠ [] ∧ ∀ set ∈ sets, SetClause.Complete set) ∧ ∀ cond ∈ conds, BinaryExpr.Complete cond
  | .selectStmt cols tabs conds =>
    (∀ col ∈ cols, col.isSome) ∧ tabs ≠ [] ∧ ∀ cond ∈ conds, BinaryExpr.Complete cond
  | _ => True

theorem ListSpelling.exists_of_forall {α : Type} {Sep : Token φ → Prop}
    {S : α → List (Token φ) → Prop} (sep : Token φ) (hsep : Sep sep) (l : List α) (hne : l ≠ [])
    (h : ∀ a ∈ l, ∃ w, S a w) : ∃ w, ListSpelling Sep S l w := by
  induction l using List.reverseRecOn with
  | nil => exact absurd rfl hne
  | append_singleton l a ih =>
    obtain ⟨w', hw'⟩ := h a (List.mem_append_right l List.mem_cons_self)
    by_cases hl : l = []
    · rw [hl]
      exact ⟨w', .one hw'⟩
    · obtain ⟨w, hw⟩ := ih hl fun b hb => h b (List.mem_append_left _ hb)
      exact ⟨w ++ sep :: w', .more hw hsep hw'⟩

theorem ValueSpelling.exists (val : Value φ) : ∃ w, ValueSpelling val w := by
  cases val with
  | intLit val => exact ⟨_, .int val⟩
  | floatLit val => exact ⟨_, .float val⟩
  | stringLit val => exact ⟨_, .string val⟩

theorem ColSpelling.exists (c : Col) : ∃ w : List (Token φ), ColSpelling c w := by
  obtain ⟨x, y⟩ := c
  by_cases hx : x = ""
  · rw [hx]
    exact ⟨_, .plain y⟩
  · exact ⟨_, .qualified x y⟩

theorem FieldSpelling.exists {field : Option ColDef} (h : ColDef.Complete field) :
    ∃ w : List (Token φ), FieldSpelling field w := by
  obtain ⟨x, ⟨type, len⟩, rfl, hlen⟩ := h
  cases type with
  | int =>
    obtain rfl : len = 4 := by simpa using hlen
    exact ⟨_, .field x .int⟩
  | float =>
    obtain rfl : len = 4 := by simpa using hlen
    exact ⟨_, .field x .float⟩
  | string => exact ⟨_, .field x (.char len)⟩

theorem ConditionSpelling.exists {cond : Option (BinaryExpr φ)} (h : BinaryExpr.Complete cond) :
    ∃ w, ConditionSpelling cond w := by
  obtain ⟨lhs, op, rhs, rfl⟩ := h
  have hop : ∃ t, OpSpelling op t := by
    cases op
    exacts [⟨_, .eq⟩, ⟨_, .ne⟩, ⟨_, .lt⟩, ⟨_, .gt⟩, ⟨_, .le⟩, ⟨_, .ge⟩]
  have hrhs : ∃ w, ExprSpelling rhs w := by
    cases rhs with
    | value val =>
      obtain ⟨w, hw⟩ := ValueSpelling.exists val
      exact ⟨w, .value hw⟩
    | col col =>
      obtain ⟨w, hw⟩ := ColSpelling.exists (φ := φ) col
      exact ⟨w, .col hw⟩
  obtain ⟨w, hw⟩ := ColSpelling.exists (φ := φ) lhs
  obtain ⟨t, ht⟩ := hop
  obtain ⟨w', hw'⟩ := hrhs
  exact ⟨_, .condition hw ht hw'⟩

theorem OptWhereSpelling.exists {conds : List (Option (BinaryExpr φ))}
    (h : ∀ cond ∈ conds, BinaryExpr.Complete cond) : ∃ w, OptWhereSpelling conds w := by
  by_cases hconds : conds = []
  · rw [hconds]
    exact ⟨[], .none⟩
  · obtain ⟨w, hw⟩ : ∃ w, WhereSpelling conds w :=
      ListSpelling.exists_of_forall (.word .AND) (by rfl) conds hconds fun cond hcond =>
        ConditionSpelling.exists (h cond hcond)
    exact ⟨_, .some hw⟩

/-- Every tree of the grammar is spelled by some sequence of tokens. -/
theorem StmtSpelling.exists {tree : Ast.TreeNode φ} (h : TreeNode.WellFormed tree)
    (hhelp : tree ≠ .help) : ∃ w, StmtSpelling tree w := by
  cases tree with
  | help => exact absurd rfl hhelp
  | showTables => exact ⟨_, .showTables⟩
  | txnBegin => exact ⟨_, .txnBegin⟩
  | txnCommit => exact ⟨_, .txnCommit⟩
  | txnAbort => exact ⟨_, .txnAbort⟩
  | txnRollback => exact ⟨_, .txnRollback⟩
  | dropTable x => exact ⟨_, .dropTable x⟩
  | descTable x => exact ⟨_, .descTable x⟩
  | createIndex x y => exact ⟨_, .createIndex x y⟩
  | dropIndex x y => exact ⟨_, .dropIndex x y⟩
  | createTable x fields =>
    obtain ⟨w, hw⟩ : ∃ w : List (Token φ), FieldListSpelling fields w :=
      ListSpelling.exists_of_forall (.word .comma) (by rfl) fields h.1 fun field hfield =>
        FieldSpelling.exists (h.2 field hfield)
    exact ⟨_, .createTable x hw⟩
  | insertStmt x vals =>
    obtain ⟨w, hw⟩ : ∃ w, ValueListSpelling vals w :=
      ListSpelling.exists_of_forall (.word .comma) (by rfl) vals h.1 fun val hval => by
        obtain ⟨v, rfl⟩ := Option.isSome_iff_exists.mp (h.2 val hval)
        obtain ⟨w, hw⟩ := ValueSpelling.exists v
        exact ⟨w, v, rfl, hw⟩
    exact ⟨_, .insertStmt x hw⟩
  | deleteStmt x conds =>
    obtain ⟨w, hw⟩ := OptWhereSpelling.exists h
    exact ⟨_, .deleteStmt x hw⟩
  | updateStmt x sets conds =>
    obtain ⟨w, hw⟩ : ∃ w, SetClausesSpelling sets w :=
      ListSpelling.exists_of_forall (.word .comma) (by rfl) sets h.1.1 fun set hset => by
        obtain ⟨y, val, rfl⟩ := h.1.2 set hset
        obtain ⟨w, hw⟩ := ValueSpelling.exists val
        exact ⟨_, .setClause y hw⟩
    obtain ⟨w', hw'⟩ := OptWhereSpelling.exists h.2
    exact ⟨_, .updateStmt x hw hw'⟩
  | selectStmt cols tabs conds =>
    obtain ⟨hcols, htabs, hconds⟩ := h
    obtain ⟨w, hw⟩ : ∃ w : List (Token φ), SelectorSpelling cols w := by
      by_cases hne : cols = []
      · rw [hne]
        exact ⟨_, .all⟩
      · obtain ⟨w, hw⟩ : ∃ w : List (Token φ), ColListSpelling cols w :=
          ListSpelling.exists_of_forall (.word .comma) (by rfl) cols hne fun col hcol => by
            obtain ⟨c, rfl⟩ := Option.isSome_iff_exists.mp (hcols col hcol)
            obtain ⟨w, hw⟩ := ColSpelling.exists (φ := φ) c
            exact ⟨w, c, rfl, hw⟩
        exact ⟨w, .cols hw⟩
    obtain ⟨w', hw'⟩ : ∃ w' : List (Token φ), TableListSpelling tabs w' :=
      ListSpelling.exists_of_forall (.word .comma) (.inl rfl) tabs htabs fun x _ =>
        ⟨[.identifier x], rfl⟩
    obtain ⟨w'', hw''⟩ := OptWhereSpelling.exists hconds
    exact ⟨_, .selectStmt hw hw' hw''⟩

theorem Spelling.exists {tree : Ast.TreeNode φ} (h : TreeNode.WellFormed tree) :
    ∃ w, Spelling tree w := by
  by_cases hhelp : tree = .help
  · rw [hhelp]
    exact ⟨_, .help⟩
  · obtain ⟨w, hw⟩ := StmtSpelling.exists h hhelp
    exact ⟨_, .stmt hw⟩

end Rucbase
