import Rucbase.Lib.ShiftReduce
import Rucbase.Parser.Ast

/-!
# The parser

The grammar of `parser/yacc.y` with its actions, and the parser that `bison` makes of it: the driver
of `Lib.ShiftReduce` with the LALR(1) table of the grammar.  `yacc.tab.c` in the repository has the
table of an earlier grammar, without `txnStmt`; the build makes it again from `yacc.y`.
-/

namespace Rucbase

open Ast ShiftReduce

/-- The tokens without a value: keywords, operators, and the end of the text. -/
inductive Word where
  | SHOW | TABLES | CREATE | TABLE | DROP | DESC | INSERT | INTO | VALUES | DELETE | FROM | WHERE
  | UPDATE | SET | SELECT | INT | CHAR | FLOAT | INDEX | AND | JOIN | EXIT | HELP | TXN_BEGIN
  | TXN_COMMIT | TXN_ABORT | TXN_ROLLBACK | LEQ | NEQ | GEQ | T_EOF | semicolon | lparen | rparen
  | comma | dot | equals | less | greater | star
deriving DecidableEq, Repr

/-- The kinds of tokens. -/
inductive Terminal where
  | word (w : Word)
  | IDENTIFIER
  | VALUE_STRING
  | VALUE_INT
  | VALUE_FLOAT
deriving DecidableEq, Repr

instance : Coe Word Terminal := ⟨.word⟩

/-- What `yylex` returns: the kind of a token, and the value it leaves in `yylval`. -/
inductive Token (φ : Type) where
  | word (w : Word)
  | identifier (str : String)
  | valueString (str : String)
  | valueInt (val : Int32)
  | valueFloat (val : φ)
deriving DecidableEq

instance {φ : Type} : Coe Word (Token φ) := ⟨.word⟩

def Token.terminal {φ : Type} : Token φ → Terminal
  | .word w => w
  | .identifier _ => .IDENTIFIER
  | .valueString _ => .VALUE_STRING
  | .valueInt _ => .VALUE_INT
  | .valueFloat _ => .VALUE_FLOAT

inductive Nonterminal where
  | start | stmt | txnStmt | dbStmt | ddl | dml | fieldList | field | type | valueList | value
  | condition | optWhereClause | whereClause | col | colList | op | expr | setClauses | setClause
  | selector | tableList | tbName | colName
deriving DecidableEq, Repr

inductive Symbol where
  | t (t : Terminal)
  | n (n : Nonterminal)
deriving DecidableEq, Repr

/-- The rules, in the order of the source. -/
inductive Rule where
  | startStmt | startHelp | startExit | startEof | stmtDbStmt | stmtDdl | stmtDml | stmtTxnStmt
  | txnBegin | txnCommit | txnAbort | txnRollback | showTables | createTable | dropTable | descTable
  | createIndex | dropIndex | insertInto | deleteFrom | update | select | fieldListOne
  | fieldListMore | field | typeInt | typeChar | typeFloat | valueListOne | valueListMore | valueInt
  | valueFloat | valueString | condition | optWhereClauseNone | optWhereClauseSome | whereClauseOne
  | whereClauseMore | colQualified | colPlain | colListOne | colListMore | opEq | opLt | opGt
  | opNeq | opLeq | opGeq | exprValue | exprCol | setClausesOne | setClausesMore | setClause
  | selectorAll | selectorCols | tableListOne | tableListComma | tableListJoin | tbName | colName
deriving DecidableEq, Repr

structure Production where
  lhs : Nonterminal
  rhs : List Symbol

open Word Terminal in
def Rule.production : Rule → Production
  | .startStmt => ⟨.start, [.n .stmt, .t semicolon]⟩
  | .startHelp => ⟨.start, [.t HELP]⟩
  | .startExit => ⟨.start, [.t EXIT]⟩
  | .startEof => ⟨.start, [.t T_EOF]⟩
  | .stmtDbStmt => ⟨.stmt, [.n .dbStmt]⟩
  | .stmtDdl => ⟨.stmt, [.n .ddl]⟩
  | .stmtDml => ⟨.stmt, [.n .dml]⟩
  | .stmtTxnStmt => ⟨.stmt, [.n .txnStmt]⟩
  | .txnBegin => ⟨.txnStmt, [.t TXN_BEGIN]⟩
  | .txnCommit => ⟨.txnStmt, [.t TXN_COMMIT]⟩
  | .txnAbort => ⟨.txnStmt, [.t TXN_ABORT]⟩
  | .txnRollback => ⟨.txnStmt, [.t TXN_ROLLBACK]⟩
  | .showTables => ⟨.dbStmt, [.t SHOW, .t TABLES]⟩
  | .createTable => ⟨.ddl, [.t CREATE, .t TABLE, .n .tbName, .t lparen, .n .fieldList, .t rparen]⟩
  | .dropTable => ⟨.ddl, [.t DROP, .t TABLE, .n .tbName]⟩
  | .descTable => ⟨.ddl, [.t DESC, .n .tbName]⟩
  | .createIndex => ⟨.ddl, [.t CREATE, .t INDEX, .n .tbName, .t lparen, .n .colName, .t rparen]⟩
  | .dropIndex => ⟨.ddl, [.t DROP, .t INDEX, .n .tbName, .t lparen, .n .colName, .t rparen]⟩
  | .insertInto =>
    ⟨.dml, [.t INSERT, .t INTO, .n .tbName, .t VALUES, .t lparen, .n .valueList, .t rparen]⟩
  | .deleteFrom => ⟨.dml, [.t DELETE, .t FROM, .n .tbName, .n .optWhereClause]⟩
  | .update => ⟨.dml, [.t UPDATE, .n .tbName, .t SET, .n .setClauses, .n .optWhereClause]⟩
  | .select => ⟨.dml, [.t SELECT, .n .selector, .t FROM, .n .tableList, .n .optWhereClause]⟩
  | .fieldListOne => ⟨.fieldList, [.n .field]⟩
  | .fieldListMore => ⟨.fieldList, [.n .fieldList, .t comma, .n .field]⟩
  | .field => ⟨.field, [.n .colName, .n .type]⟩
  | .typeInt => ⟨.type, [.t INT]⟩
  | .typeChar => ⟨.type, [.t CHAR, .t lparen, .t VALUE_INT, .t rparen]⟩
  | .typeFloat => ⟨.type, [.t FLOAT]⟩
  | .valueListOne => ⟨.valueList, [.n .value]⟩
  | .valueListMore => ⟨.valueList, [.n .valueList, .t comma, .n .value]⟩
  | .valueInt => ⟨.value, [.t VALUE_INT]⟩
  | .valueFloat => ⟨.value, [.t VALUE_FLOAT]⟩
  | .valueString => ⟨.value, [.t VALUE_STRING]⟩
  | .condition => ⟨.condition, [.n .col, .n .op, .n .expr]⟩
  | .optWhereClauseNone => ⟨.optWhereClause, []⟩
  | .optWhereClauseSome => ⟨.optWhereClause, [.t WHERE, .n .whereClause]⟩
  | .whereClauseOne => ⟨.whereClause, [.n .condition]⟩
  | .whereClauseMore => ⟨.whereClause, [.n .whereClause, .t AND, .n .condition]⟩
  | .colQualified => ⟨.col, [.n .tbName, .t dot, .n .colName]⟩
  | .colPlain => ⟨.col, [.n .colName]⟩
  | .colListOne => ⟨.colList, [.n .col]⟩
  | .colListMore => ⟨.colList, [.n .colList, .t comma, .n .col]⟩
  | .opEq => ⟨.op, [.t equals]⟩
  | .opLt => ⟨.op, [.t less]⟩
  | .opGt => ⟨.op, [.t greater]⟩
  | .opNeq => ⟨.op, [.t NEQ]⟩
  | .opLeq => ⟨.op, [.t LEQ]⟩
  | .opGeq => ⟨.op, [.t GEQ]⟩
  | .exprValue => ⟨.expr, [.n .value]⟩
  | .exprCol => ⟨.expr, [.n .col]⟩
  | .setClausesOne => ⟨.setClauses, [.n .setClause]⟩
  | .setClausesMore => ⟨.setClauses, [.n .setClauses, .t comma, .n .setClause]⟩
  | .setClause => ⟨.setClause, [.n .colName, .t equals, .n .value]⟩
  | .selectorAll => ⟨.selector, [.t star]⟩
  | .selectorCols => ⟨.selector, [.n .colList]⟩
  | .tableListOne => ⟨.tableList, [.n .tbName]⟩
  | .tableListComma => ⟨.tableList, [.n .tableList, .t comma, .n .tbName]⟩
  | .tableListJoin => ⟨.tableList, [.n .tableList, .t JOIN, .n .tbName]⟩
  | .tbName => ⟨.tbName, [.t IDENTIFIER]⟩
  | .colName => ⟨.colName, [.t IDENTIFIER]⟩

variable {φ : Type} [Inhabited φ]

/-- The action of a rule: `arg i` is `$i`, `val` is what `$$` holds before it.  The rules of `start`
accept with the tree they leave in `parse_tree`. -/
def Rule.act (r : Rule) (arg : Nat → SemValue φ) (val : SemValue φ) :
    SemValue φ ⊕ Option (Ast.TreeNode φ) :=
  match r with
  | .startStmt => .inr (arg 1).svNode
  | .startHelp => .inr (some .help)
  | .startExit | .startEof => .inr none
  | .stmtDbStmt | .stmtDdl | .stmtDml | .stmtTxnStmt => .inl val
  | .txnBegin => .inl { val with svNode := some .txnBegin }
  | .txnCommit => .inl { val with svNode := some .txnCommit }
  | .txnAbort => .inl { val with svNode := some .txnAbort }
  | .txnRollback => .inl { val with svNode := some .txnRollback }
  | .showTables => .inl { val with svNode := some .showTables }
  | .createTable => .inl { val with svNode := some (.createTable (arg 3).svStr (arg 5).svFields) }
  | .dropTable => .inl { val with svNode := some (.dropTable (arg 3).svStr) }
  | .descTable => .inl { val with svNode := some (.descTable (arg 2).svStr) }
  | .createIndex => .inl { val with svNode := some (.createIndex (arg 3).svStr (arg 5).svStr) }
  | .dropIndex => .inl { val with svNode := some (.dropIndex (arg 3).svStr (arg 5).svStr) }
  | .insertInto => .inl { val with svNode := some (.insertStmt (arg 3).svStr (arg 6).svVals) }
  | .deleteFrom => .inl { val with svNode := some (.deleteStmt (arg 3).svStr (arg 4).svConds) }
  | .update =>
    .inl { val with
      svNode := some (.updateStmt (arg 2).svStr (arg 4).svSetClauses (arg 5).svConds) }
  | .select =>
    .inl { val with svNode := some (.selectStmt (arg 2).svCols (arg 4).svStrs (arg 5).svConds) }
  | .fieldListOne => .inl { val with svFields := [(arg 1).svField] }
  | .fieldListMore => .inl { val with svFields := val.svFields ++ [(arg 3).svField] }
  | .field => .inl { val with svField := some ⟨(arg 1).svStr, (arg 2).svTypeLen⟩ }
  | .typeInt => .inl { val with svTypeLen := some ⟨.int, 4⟩ }
  | .typeChar => .inl { val with svTypeLen := some ⟨.string, (arg 3).svInt⟩ }
  | .typeFloat => .inl { val with svTypeLen := some ⟨.float, 4⟩ }
  | .valueListOne => .inl { val with svVals := [(arg 1).svVal] }
  | .valueListMore => .inl { val with svVals := val.svVals ++ [(arg 3).svVal] }
  | .valueInt => .inl { val with svVal := some (.intLit (arg 1).svInt) }
  | .valueFloat => .inl { val with svVal := some (.floatLit (arg 1).svFloat) }
  | .valueString => .inl { val with svVal := some (.stringLit (arg 1).svStr) }
  | .condition =>
    .inl { val with svCond := some ⟨(arg 1).svCol, (arg 2).svCompOp, (arg 3).svExpr⟩ }
  -- `/* ignore */`: the value stays what the slot above the stack held.
  | .optWhereClauseNone => .inl val
  | .optWhereClauseSome => .inl { val with svConds := (arg 2).svConds }
  | .whereClauseOne => .inl { val with svConds := [(arg 1).svCond] }
  | .whereClauseMore => .inl { val with svConds := val.svConds ++ [(arg 3).svCond] }
  | .colQualified => .inl { val with svCol := some ⟨(arg 1).svStr, (arg 3).svStr⟩ }
  | .colPlain => .inl { val with svCol := some ⟨"", (arg 1).svStr⟩ }
  | .colListOne => .inl { val with svCols := [(arg 1).svCol] }
  | .colListMore => .inl { val with svCols := val.svCols ++ [(arg 3).svCol] }
  | .opEq => .inl { val with svCompOp := .eq }
  | .opLt => .inl { val with svCompOp := .lt }
  | .opGt => .inl { val with svCompOp := .gt }
  | .opNeq => .inl { val with svCompOp := .ne }
  | .opLeq => .inl { val with svCompOp := .le }
  | .opGeq => .inl { val with svCompOp := .ge }
  | .exprValue => .inl { val with svExpr := (arg 1).svVal.map .value }
  | .exprCol => .inl { val with svExpr := (arg 1).svCol.map .col }
  | .setClausesOne => .inl { val with svSetClauses := [(arg 1).svSetClause] }
  | .setClausesMore => .inl { val with svSetClauses := val.svSetClauses ++ [(arg 3).svSetClause] }
  | .setClause => .inl { val with svSetClause := some ⟨(arg 1).svStr, (arg 3).svVal⟩ }
  | .selectorAll => .inl { val with svCols := [] }
  | .selectorCols => .inl val
  | .tableListOne => .inl { val with svStrs := [(arg 1).svStr] }
  | .tableListComma | .tableListJoin => .inl { val with svStrs := val.svStrs ++ [(arg 3).svStr] }
  | .tbName | .colName => .inl val

open Word Terminal in
/-- The LALR(1) table: the actions of each state.  The states 16 and 39, after `start`, are not
reached, as its rules accept. -/
def yytable : List (Row Terminal Nonterminal Rule) := [
  /- 0 -/ { shift := [(SHOW, 1), (CREATE, 2), (DROP, 3), (DESC, 4), (INSERT, 5), (DELETE, 6),
              (UPDATE, 7), (SELECT, 8), (EXIT, 9), (HELP, 10), (TXN_BEGIN, 11), (TXN_COMMIT, 12),
              (TXN_ABORT, 13), (TXN_ROLLBACK, 14), (T_EOF, 15)], goto := [(.start, 16),
              (.stmt, 17), (.txnStmt, 18), (.dbStmt, 19), (.ddl, 20), (.dml, 21)] },
  /- 1 -/ { shift := [(TABLES, 22)] },
  /- 2 -/ { shift := [(TABLE, 23), (INDEX, 24)] },
  /- 3 -/ { shift := [(TABLE, 25), (INDEX, 26)] },
  /- 4 -/ { shift := [(IDENTIFIER, 27)], goto := [(.tbName, 28)] },
  /- 5 -/ { shift := [(INTO, 29)] },
  /- 6 -/ { shift := [(FROM, 30)] },
  /- 7 -/ { shift := [(IDENTIFIER, 27)], goto := [(.tbName, 31)] },
  /- 8 -/ { shift := [(IDENTIFIER, 32), (star, 33)], goto := [(.col, 34), (.colList, 35),
              (.selector, 36), (.tbName, 37), (.colName, 38)] },
  /- 9 -/ { default := some .startExit },
  /- 10 -/ { default := some .startHelp },
  /- 11 -/ { default := some .txnBegin },
  /- 12 -/ { default := some .txnCommit },
  /- 13 -/ { default := some .txnAbort },
  /- 14 -/ { default := some .txnRollback },
  /- 15 -/ { default := some .startEof },
  /- 16 -/ {},
  /- 17 -/ { shift := [(semicolon, 40)] },
  /- 18 -/ { default := some .stmtTxnStmt },
  /- 19 -/ { default := some .stmtDbStmt },
  /- 20 -/ { default := some .stmtDdl },
  /- 21 -/ { default := some .stmtDml },
  /- 22 -/ { default := some .showTables },
  /- 23 -/ { shift := [(IDENTIFIER, 27)], goto := [(.tbName, 41)] },
  /- 24 -/ { shift := [(IDENTIFIER, 27)], goto := [(.tbName, 42)] },
  /- 25 -/ { shift := [(IDENTIFIER, 27)], goto := [(.tbName, 43)] },
  /- 26 -/ { shift := [(IDENTIFIER, 27)], goto := [(.tbName, 44)] },
  /- 27 -/ { default := some .tbName },
  /- 28 -/ { default := some .descTable },
  /- 29 -/ { shift := [(IDENTIFIER, 27)], goto := [(.tbName, 45)] },
  /- 30 -/ { shift := [(IDENTIFIER, 27)], goto := [(.tbName, 46)] },
  /- 31 -/ { shift := [(SET, 47)] },
  /- 32 -/ { reduce := [(dot, .tbName)], default := some .colName },
  /- 33 -/ { default := some .selectorAll },
  /- 34 -/ { default := some .colListOne },
  /- 35 -/ { shift := [(comma, 48)], default := some .selectorCols },
  /- 36 -/ { shift := [(FROM, 49)] },
  /- 37 -/ { shift := [(dot, 50)] },
  /- 38 -/ { default := some .colPlain },
  /- 39 -/ {},
  /- 40 -/ { default := some .startStmt },
  /- 41 -/ { shift := [(lparen, 51)] },
  /- 42 -/ { shift := [(lparen, 52)] },
  /- 43 -/ { default := some .dropTable },
  /- 44 -/ { shift := [(lparen, 53)] },
  /- 45 -/ { shift := [(VALUES, 54)] },
  /- 46 -/ { shift := [(WHERE, 55)], default := some .optWhereClauseNone,
             goto := [(.optWhereClause, 56)] },
  /- 47 -/ { shift := [(IDENTIFIER, 57)], goto := [(.setClauses, 58), (.setClause, 59),
               (.colName, 60)] },
  /- 48 -/ { shift := [(IDENTIFIER, 32)], goto := [(.col, 61), (.tbName, 37), (.colName, 38)] },
  /- 49 -/ { shift := [(IDENTIFIER, 27)], goto := [(.tableList, 62), (.tbName, 63)] },
  /- 50 -/ { shift := [(IDENTIFIER, 57)], goto := [(.colName, 64)] },
  /- 51 -/ { shift := [(IDENTIFIER, 57)], goto := [(.fieldList, 65), (.field, 66),
               (.colName, 67)] },
  /- 52 -/ { shift := [(IDENTIFIER, 57)], goto := [(.colName, 68)] },
  /- 53 -/ { shift := [(IDENTIFIER, 57)], goto := [(.colName, 69)] },
  /- 54 -/ { shift := [(lparen, 70)] },
  /- 55 -/ { shift := [(IDENTIFIER, 32)], goto := [(.condition, 71), (.whereClause, 72),
               (.col, 73), (.tbName, 37), (.colName, 38)] },
  /- 56 -/ { default := some .deleteFrom },
  /- 57 -/ { default := some .colName },
  /- 58 -/ { shift := [(WHERE, 55), (comma, 74)], default := some .optWhereClauseNone,
             goto := [(.optWhereClause, 75)] },
  /- 59 -/ { default := some .setClausesOne },
  /- 60 -/ { shift := [(equals, 76)] },
  /- 61 -/ { default := some .colListMore },
  /- 62 -/ { shift := [(WHERE, 55), (JOIN, 77), (comma, 78)],
             default := some .optWhereClauseNone, goto := [(.optWhereClause, 79)] },
  /- 63 -/ { default := some .tableListOne },
  /- 64 -/ { default := some .colQualified },
  /- 65 -/ { shift := [(rparen, 80), (comma, 81)] },
  /- 66 -/ { default := some .fieldListOne },
  /- 67 -/ { shift := [(INT, 82), (CHAR, 83), (FLOAT, 84)], goto := [(.type, 85)] },
  /- 68 -/ { shift := [(rparen, 86)] },
  /- 69 -/ { shift := [(rparen, 87)] },
  /- 70 -/ { shift := [(VALUE_STRING, 88), (VALUE_INT, 89), (VALUE_FLOAT, 90)],
             goto := [(.valueList, 91), (.value, 92)] },
  /- 71 -/ { default := some .whereClauseOne },
  /- 72 -/ { shift := [(AND, 93)], default := some .optWhereClauseSome },
  /- 73 -/ { shift := [(LEQ, 94), (NEQ, 95), (GEQ, 96), (equals, 97), (less, 98), (greater, 99)],
             goto := [(.op, 100)] },
  /- 74 -/ { shift := [(IDENTIFIER, 57)], goto := [(.setClause, 101), (.colName, 60)] },
  /- 75 -/ { default := some .update },
  /- 76 -/ { shift := [(VALUE_STRING, 88), (VALUE_INT, 89), (VALUE_FLOAT, 90)],
             goto := [(.value, 102)] },
  /- 77 -/ { shift := [(IDENTIFIER, 27)], goto := [(.tbName, 103)] },
  /- 78 -/ { shift := [(IDENTIFIER, 27)], goto := [(.tbName, 104)] },
  /- 79 -/ { default := some .select },
  /- 80 -/ { default := some .createTable },
  /- 81 -/ { shift := [(IDENTIFIER, 57)], goto := [(.field, 105), (.colName, 67)] },
  /- 82 -/ { default := some .typeInt },
  /- 83 -/ { shift := [(lparen, 106)] },
  /- 84 -/ { default := some .typeFloat },
  /- 85 -/ { default := some .field },
  /- 86 -/ { default := some .createIndex },
  /- 87 -/ { default := some .dropIndex },
  /- 88 -/ { default := some .valueString },
  /- 89 -/ { default := some .valueInt },
  /- 90 -/ { default := some .valueFloat },
  /- 91 -/ { shift := [(rparen, 107), (comma, 108)] },
  /- 92 -/ { default := some .valueListOne },
  /- 93 -/ { shift := [(IDENTIFIER, 32)], goto := [(.condition, 109), (.col, 73), (.tbName, 37),
               (.colName, 38)] },
  /- 94 -/ { default := some .opLeq },
  /- 95 -/ { default := some .opNeq },
  /- 96 -/ { default := some .opGeq },
  /- 97 -/ { default := some .opEq },
  /- 98 -/ { default := some .opLt },
  /- 99 -/ { default := some .opGt },
  /- 100 -/ { shift := [(IDENTIFIER, 32), (VALUE_STRING, 88), (VALUE_INT, 89),
                (VALUE_FLOAT, 90)], goto := [(.value, 110), (.col, 111), (.expr, 112),
                (.tbName, 37), (.colName, 38)] },
  /- 101 -/ { default := some .setClausesMore },
  /- 102 -/ { default := some .setClause },
  /- 103 -/ { default := some .tableListJoin },
  /- 104 -/ { default := some .tableListComma },
  /- 105 -/ { default := some .fieldListMore },
  /- 106 -/ { shift := [(VALUE_INT, 113)] },
  /- 107 -/ { default := some .insertInto },
  /- 108 -/ { shift := [(VALUE_STRING, 88), (VALUE_INT, 89), (VALUE_FLOAT, 90)],
              goto := [(.value, 114)] },
  /- 109 -/ { default := some .whereClauseMore },
  /- 110 -/ { default := some .exprValue },
  /- 111 -/ { default := some .exprCol },
  /- 112 -/ { default := some .condition },
  /- 113 -/ { shift := [(rparen, 115)] },
  /- 114 -/ { default := some .valueListMore },
  /- 115 -/ { default := some .typeChar }]

/-- The parser of `yacc.y`. -/
def yacc : Grammar Terminal Nonterminal Rule (SemValue φ) (Option (Ast.TreeNode φ)) where
  row state := yytable.getD state {}
  lhs r := r.production.lhs
  len r := r.production.rhs.length
  act := Rule.act
  slack := 8

/-- `yyparse` between two calls of `yylex`. -/
structure Yyparse (φ : Type) [Inhabited φ] where
  status : Status (SemValue φ) (Option (Ast.TreeNode φ)) := .wants ⟨[0], [default], []⟩
  yylval : SemValue φ := {}

/-- What `yylex` leaves in `yylval`. -/
def Token.setValue (yylval : SemValue φ) : Token φ → SemValue φ
  | .word _ => yylval
  | .identifier str => { yylval with svStr := str }
  | .valueString str => { yylval with svStr := str }
  | .valueInt val => { yylval with svInt := val }
  | .valueFloat val => { yylval with svFloat := val }

namespace Yyparse

/-- Take in one token. -/
def read (p : Yyparse φ) (token : Token φ) : Yyparse φ :=
  match p.status with
  | .wants s =>
    let yylval := token.setValue p.yylval
    { status := yacc.feed token.terminal yylval s, yylval }
  | _ => p

/-- `yyparse` on a sequence of tokens.  No token is read after it has accepted or found an error. -/
def parse (p : Yyparse φ) (tokens : List (Token φ)) : Yyparse φ := tokens.foldl read p

end Yyparse

end Rucbase
