import Mathlib.Data.List.Forall2
import Rucbase.Parser.Equiv.States
import Rucbase.Parser.Equiv.Yacc

/-!
# What the parser accepts

Every sequence of tokens that `yyparse` accepts begins with a spelling of the tree it leaves in
`parse_tree` (`yyparse_accepts_iff`).  The values on the stack mean what their symbols were made of,
and a value with conditions belongs to a `where` clause only, so that a statement without one gets
no conditions from a slot above the stack.
-/

namespace Rucbase

open Ast ShiftReduce

variable {φ : Type} [Inhabited φ]

/-! ### What the values mean -/

/-- The value that `yylex` has left with a token. -/
def Token.CarriedBy (v : SemValue φ) : Token φ → Prop
  | .word _ => True
  | .identifier str => v.svStr = str
  | .valueString str => v.svStr = str
  | .valueInt val => v.svInt = val
  | .valueFloat val => v.svFloat = val

/-- The value of a symbol is that of the tokens it was made of. -/
def Means : Terminal ⊕ Nonterminal → List (Token φ) → SemValue φ → Prop
  | .inl t, w, v => ∃ token, w = [token] ∧ token.terminal = t ∧ token.CarriedBy v
  | .inr .start, _, _ => False
  | .inr .stmt, w, v | .inr .txnStmt, w, v | .inr .dbStmt, w, v | .inr .ddl, w, v
  | .inr .dml, w, v => ∃ tree, v.svNode = some tree ∧ StmtSpelling tree w
  | .inr .fieldList, w, v => FieldListSpelling v.svFields w
  | .inr .field, w, v => FieldSpelling v.svField w
  | .inr .type, w, v => ∃ type, v.svTypeLen = some type ∧ TypeSpelling type w
  | .inr .valueList, w, v => ValueListSpelling v.svVals w
  | .inr .value, w, v => ∃ val, v.svVal = some val ∧ ValueSpelling val w
  | .inr .condition, w, v => ConditionSpelling v.svCond w
  | .inr .optWhereClause, w, v => OptWhereSpelling v.svConds w
  | .inr .whereClause, w, v => WhereSpelling v.svConds w
  | .inr .col, w, v => ∃ c, v.svCol = some c ∧ ColSpelling c w
  | .inr .colList, w, v => ColListSpelling v.svCols w
  | .inr .op, w, v => ∃ t, w = [.word t] ∧ OpSpelling v.svCompOp t
  | .inr .expr, w, v => ∃ e, v.svExpr = some e ∧ ExprSpelling e w
  | .inr .setClauses, w, v => SetClausesSpelling v.svSetClauses w
  | .inr .setClause, w, v => SetClauseSpelling v.svSetClause w
  | .inr .selector, w, v => SelectorSpelling v.svCols w
  | .inr .tableList, w, v => TableListSpelling v.svStrs w
  | .inr .tbName, w, v | .inr .colName, w, v => w = [.identifier v.svStr]

/-- The symbols whose values have conditions. -/
def HasConds (x : Terminal ⊕ Nonterminal) : Prop := x = .inr .whereClause ∨ x = .inr .optWhereClause

/-- An entry of the stack. -/
abbrev YyFrame (φ : Type) [Inhabited φ] := Frame Terminal Nonterminal (SemValue φ) (Token φ)

/-- What holds of an entry. -/
def Sound (f : YyFrame φ) : Prop :=
  ∀ x ∈ f.sym, Means x f.word f.val ∧ (¬HasConds x → f.val.svConds = [])

/-- What holds of the stack: there is one entry at the bottom without a symbol, and as long as no
`where` clause has begun no slot above the stack has conditions. -/
structure StackOk (fs : List (YyFrame φ)) (above : List (SemValue φ)) : Prop where
  sound : ∀ f ∈ fs, Sound f
  bottom : ∃ pushed base, fs = pushed ++ [base] ∧ base.sym = none ∧ base.word = [] ∧
    ∀ f ∈ pushed, f.sym ≠ none
  clean : (∀ f ∈ fs, ∀ x ∈ f.sym, x ∉ fromWhere) → ∀ v ∈ above, v.svConds = []

/-- What is known of an answer: a tree is spelled by the tokens up to it. -/
def Accepts (answer : Option (Ast.TreeNode φ)) (w : List (Token φ)) : Prop :=
  match answer with
  | some tree => Spelling tree w
  | none => w = [.word .EXIT] ∨ w = [.word .T_EOF]

/-- A token with the value that goes on the stack. -/
def ReadsToken (token : Token φ) (t : Terminal) (v : SemValue φ) : Prop :=
  token.terminal = t ∧ token.CarriedBy v ∧ v.svConds = []

instance : DecidablePred HasConds := fun _ => inferInstanceAs (Decidable (_ ∨ _))

/-- A symbol of a right-hand side with its entry. -/
def Fits (x : Symbol) (f : YyFrame φ) : Prop :=
  Means x.sum f.word f.val ∧ (¬HasConds x.sum → f.val.svConds = [])

section Fits

variable {f : YyFrame φ}

theorem Fits.word {t : Word} (h : Fits (.t t) f) : f.word = [.word t] := by
  obtain ⟨token, hword, hterminal, -⟩ := h.1
  cases token with
  | word t' => rw [hword, Terminal.word.inj hterminal]
  | _ => cases hterminal

theorem Fits.identifier (h : Fits (.t .IDENTIFIER) f) : f.word = [.identifier f.val.svStr] := by
  obtain ⟨token, hword, hterminal, hval⟩ := h.1
  cases token with
  | identifier str => rw [hword, show f.val.svStr = str from hval]
  | _ => cases hterminal

theorem Fits.valueInt (h : Fits (.t .VALUE_INT) f) : f.word = [.valueInt f.val.svInt] := by
  obtain ⟨token, hword, hterminal, hval⟩ := h.1
  cases token with
  | valueInt val => rw [hword, show f.val.svInt = val from hval]
  | _ => cases hterminal

theorem Fits.valueFloat (h : Fits (.t .VALUE_FLOAT) f) : f.word = [.valueFloat f.val.svFloat] := by
  obtain ⟨token, hword, hterminal, hval⟩ := h.1
  cases token with
  | valueFloat val => rw [hword, show f.val.svFloat = val from hval]
  | _ => cases hterminal

theorem Fits.valueString (h : Fits (.t .VALUE_STRING) f) : f.word = [.valueString f.val.svStr] := by
  obtain ⟨token, hword, hterminal, hval⟩ := h.1
  cases token with
  | valueString str => rw [hword, show f.val.svStr = str from hval]
  | _ => cases hterminal

theorem Fits.tbName (h : Fits (.n .tbName) f) : f.word = [.identifier f.val.svStr] := h.1

theorem Fits.colName (h : Fits (.n .colName) f) : f.word = [.identifier f.val.svStr] := h.1

end Fits

/-- What an action may leave. -/
def Result (r : Rule) (w : List (Token φ)) : SemValue φ ⊕ Option (Ast.TreeNode φ) → Prop
  | .inl v => Means (.inr r.production.lhs) w v ∧
      (¬HasConds (.inr r.production.lhs) → v.svConds = [])
  | .inr answer => r.production.lhs = .start ∧ Accepts answer w

/-- **The actions of the rules.** -/
theorem act_sound {r : Rule} {gs : List (YyFrame φ)} (rest : List (YyFrame φ))
    {above : List (SemValue φ)} (hgs : List.Forall₂ Fits r.production.rhs gs)
    (habove : r = .optWhereClauseNone → (above.headD default).svConds = []) :
    Result r (gs.flatMap Frame.word) (yacc.actOn r (gs.reverse ++ rest) above) := by
  cases r
  all_goals
    simp only [Rule.production, List.forall₂_cons_left_iff, List.forall₂_nil_left_iff] at hgs
  case startStmt =>
    obtain ⟨f₁, _, ⟨⟨tree, hnode, htree⟩, -⟩, ⟨f₂, _, h₂, rfl, rfl⟩, rfl⟩ := hgs
    refine ⟨rfl, ?_⟩
    show Accepts f₁.val.svNode _
    simp only [List.flatMap_cons, List.flatMap_nil, List.append_nil, h₂.word, hnode]
    exact .stmt htree
  case startHelp =>
    obtain ⟨f₁, _, h₁, rfl, rfl⟩ := hgs
    refine ⟨rfl, ?_⟩
    simp only [List.flatMap_cons, List.flatMap_nil, List.append_nil, h₁.word]
    exact .help
  case startExit =>
    obtain ⟨f₁, _, h₁, rfl, rfl⟩ := hgs
    refine ⟨rfl, Or.inl ?_⟩
    simp only [List.flatMap_cons, List.flatMap_nil, List.append_nil, h₁.word]
  case startEof =>
    obtain ⟨f₁, _, h₁, rfl, rfl⟩ := hgs
    refine ⟨rfl, Or.inr ?_⟩
    simp only [List.flatMap_cons, List.flatMap_nil, List.append_nil, h₁.word]
  case stmtDbStmt | stmtDdl | stmtDml | stmtTxnStmt =>
    obtain ⟨f₁, _, ⟨⟨tree, hnode, htree⟩, hconds⟩, rfl, rfl⟩ := hgs
    refine ⟨⟨tree, hnode, ?_⟩, fun _ => hconds (by decide)⟩
    simpa only [List.flatMap_cons, List.flatMap_nil, List.append_nil] using htree
  case txnBegin | txnCommit | txnAbort | txnRollback =>
    obtain ⟨f₁, _, h₁, rfl, rfl⟩ := hgs
    refine ⟨⟨_, rfl, ?_⟩, fun _ => h₁.2 (by decide)⟩
    simp only [List.flatMap_cons, List.flatMap_nil, List.append_nil, h₁.word]
    constructor
  case showTables =>
    obtain ⟨f₁, _, h₁, ⟨f₂, _, h₂, rfl, rfl⟩, rfl⟩ := hgs
    refine ⟨⟨_, rfl, ?_⟩, fun _ => h₁.2 (by decide)⟩
    simp only [List.flatMap_cons, List.flatMap_nil, List.append_nil, h₁.word, h₂.word]
    exact .showTables
  case createTable =>
    obtain ⟨f₁, _, h₁, ⟨f₂, _, h₂, ⟨f₃, _, h₃, ⟨f₄, _, h₄, ⟨f₅, _, h₅, ⟨f₆, _, h₆, rfl, rfl⟩, rfl⟩,
      rfl⟩, rfl⟩, rfl⟩, rfl⟩ := hgs
    refine ⟨⟨_, rfl, ?_⟩, fun _ => h₁.2 (by decide)⟩
    simp only [List.flatMap_cons, List.flatMap_nil, List.append_nil, h₁.word, h₂.word, h₃.tbName,
      h₄.word, h₆.word]
    exact .createTable f₃.val.svStr h₅.1
  case dropTable =>
    obtain ⟨f₁, _, h₁, ⟨f₂, _, h₂, ⟨f₃, _, h₃, rfl, rfl⟩, rfl⟩, rfl⟩ := hgs
    refine ⟨⟨_, rfl, ?_⟩, fun _ => h₁.2 (by decide)⟩
    simp only [List.flatMap_cons, List.flatMap_nil, List.append_nil, h₁.word, h₂.word, h₃.tbName]
    exact .dropTable f₃.val.svStr
  case descTable =>
    obtain ⟨f₁, _, h₁, ⟨f₂, _, h₂, rfl, rfl⟩, rfl⟩ := hgs
    refine ⟨⟨_, rfl, ?_⟩, fun _ => h₁.2 (by decide)⟩
    simp only [List.flatMap_cons, List.flatMap_nil, List.append_nil, h₁.word, h₂.tbName]
    exact .descTable f₂.val.svStr
  case createIndex | dropIndex =>
    obtain ⟨f₁, _, h₁, ⟨f₂, _, h₂, ⟨f₃, _, h₃, ⟨f₄, _, h₄, ⟨f₅, _, h₅, ⟨f₆, _, h₆, rfl, rfl⟩, rfl⟩,
      rfl⟩, rfl⟩, rfl⟩, rfl⟩ := hgs
    refine ⟨⟨_, rfl, ?_⟩, fun _ => h₁.2 (by decide)⟩
    simp only [List.flatMap_cons, List.flatMap_nil, List.append_nil, h₁.word, h₂.word, h₃.tbName,
      h₄.word, h₅.colName, h₆.word]
    constructor
  case insertInto =>
    obtain ⟨f₁, _, h₁, ⟨f₂, _, h₂, ⟨f₃, _, h₃, ⟨f₄, _, h₄, ⟨f₅, _, h₅, ⟨f₆, _, h₆, ⟨f₇, _, h₇, rfl,
      rfl⟩, rfl⟩, rfl⟩, rfl⟩, rfl⟩, rfl⟩, rfl⟩ := hgs
    refine ⟨⟨_, rfl, ?_⟩, fun _ => h₁.2 (by decide)⟩
    simp only [List.flatMap_cons, List.flatMap_nil, List.append_nil, h₁.word, h₂.word, h₃.tbName,
      h₄.word, h₅.word, h₇.word]
    exact .insertStmt f₃.val.svStr h₆.1
  case deleteFrom =>
    obtain ⟨f₁, _, h₁, ⟨f₂, _, h₂, ⟨f₃, _, h₃, ⟨f₄, _, h₄, rfl, rfl⟩, rfl⟩, rfl⟩, rfl⟩ := hgs
    refine ⟨⟨_, rfl, ?_⟩, fun _ => h₁.2 (by decide)⟩
    simp only [List.flatMap_cons, List.flatMap_nil, List.append_nil, h₁.word, h₂.word, h₃.tbName]
    exact .deleteStmt f₃.val.svStr h₄.1
  case update =>
    obtain ⟨f₁, _, h₁, ⟨f₂, _, h₂, ⟨f₃, _, h₃, ⟨f₄, _, h₄, ⟨f₅, _, h₅, rfl, rfl⟩, rfl⟩, rfl⟩, rfl⟩,
      rfl⟩ := hgs
    refine ⟨⟨_, rfl, ?_⟩, fun _ => h₁.2 (by decide)⟩
    simp only [List.flatMap_cons, List.flatMap_nil, List.append_nil, h₁.word, h₂.tbName, h₃.word]
    have htree := StmtSpelling.updateStmt f₂.val.svStr h₄.1 h₅.1
    rw [List.append_assoc] at htree
    exact htree
  case select =>
    obtain ⟨f₁, _, h₁, ⟨f₂, _, h₂, ⟨f₃, _, h₃, ⟨f₄, _, h₄, ⟨f₅, _, h₅, rfl, rfl⟩, rfl⟩, rfl⟩, rfl⟩,
      rfl⟩ := hgs
    refine ⟨⟨_, rfl, ?_⟩, fun _ => h₁.2 (by decide)⟩
    simp only [List.flatMap_cons, List.flatMap_nil, List.append_nil, h₁.word, h₃.word]
    have htree := StmtSpelling.selectStmt h₂.1 h₄.1 h₅.1
    simp only [List.append_assoc] at htree
    exact htree
  -- lists
  case fieldListOne | setClausesOne | tableListOne | valueListOne | colListOne =>
    obtain ⟨f₁, _, h₁, rfl, rfl⟩ := hgs
    refine ⟨?_, fun _ => h₁.2 (by decide)⟩
    simp only [List.flatMap_cons, List.flatMap_nil, List.append_nil]
    exact .one h₁.1
  case whereClauseOne =>
    obtain ⟨f₁, _, h₁, rfl, rfl⟩ := hgs
    refine ⟨?_, fun h => absurd (Or.inl rfl) h⟩
    simp only [List.flatMap_cons, List.flatMap_nil, List.append_nil]
    exact .one h₁.1
  case fieldListMore | setClausesMore | valueListMore | colListMore =>
    obtain ⟨f₁, _, h₁, ⟨f₂, _, h₂, ⟨f₃, _, h₃, rfl, rfl⟩, rfl⟩, rfl⟩ := hgs
    refine ⟨?_, fun _ => h₁.2 (by decide)⟩
    simp only [List.flatMap_cons, List.flatMap_nil, List.append_nil, h₂.word]
    exact .more h₁.1 rfl h₃.1
  case whereClauseMore =>
    obtain ⟨f₁, _, h₁, ⟨f₂, _, h₂, ⟨f₃, _, h₃, rfl, rfl⟩, rfl⟩, rfl⟩ := hgs
    refine ⟨?_, fun h => absurd (Or.inl rfl) h⟩
    simp only [List.flatMap_cons, List.flatMap_nil, List.append_nil, h₂.word]
    exact .more h₁.1 rfl h₃.1
  case tableListComma =>
    obtain ⟨f₁, _, h₁, ⟨f₂, _, h₂, ⟨f₃, _, h₃, rfl, rfl⟩, rfl⟩, rfl⟩ := hgs
    refine ⟨?_, fun _ => h₁.2 (by decide)⟩
    simp only [List.flatMap_cons, List.flatMap_nil, List.append_nil, h₂.word]
    exact .more h₁.1 (Or.inl rfl) h₃.1
  case tableListJoin =>
    obtain ⟨f₁, _, h₁, ⟨f₂, _, h₂, ⟨f₃, _, h₃, rfl, rfl⟩, rfl⟩, rfl⟩ := hgs
    refine ⟨?_, fun _ => h₁.2 (by decide)⟩
    simp only [List.flatMap_cons, List.flatMap_nil, List.append_nil, h₂.word]
    exact .more h₁.1 (Or.inr rfl) h₃.1
  -- the parts of the lists
  case field =>
    obtain ⟨f₁, _, h₁, ⟨f₂, _, ⟨⟨type, htype, h₂⟩, -⟩, rfl, rfl⟩, rfl⟩ := hgs
    refine ⟨?_, fun _ => h₁.2 (by decide)⟩
    simp only [List.flatMap_cons, List.flatMap_nil, List.append_nil, h₁.colName]
    show FieldSpelling (some ⟨f₁.val.svStr, f₂.val.svTypeLen⟩) _
    rw [htype]
    exact .field f₁.val.svStr h₂
  case typeInt | typeFloat =>
    obtain ⟨f₁, _, h₁, rfl, rfl⟩ := hgs
    refine ⟨⟨_, rfl, ?_⟩, fun _ => h₁.2 (by decide)⟩
    simp only [List.flatMap_cons, List.flatMap_nil, List.append_nil, h₁.word]
    constructor
  case typeChar =>
    obtain ⟨f₁, _, h₁, ⟨f₂, _, h₂, ⟨f₃, _, h₃, ⟨f₄, _, h₄, rfl, rfl⟩, rfl⟩, rfl⟩, rfl⟩ := hgs
    refine ⟨⟨_, rfl, ?_⟩, fun _ => h₁.2 (by decide)⟩
    simp only [List.flatMap_cons, List.flatMap_nil, List.append_nil, h₁.word, h₂.word, h₃.valueInt,
      h₄.word]
    exact .char f₃.val.svInt
  case valueInt =>
    obtain ⟨f₁, _, h₁, rfl, rfl⟩ := hgs
    refine ⟨⟨_, rfl, ?_⟩, fun _ => h₁.2 (by decide)⟩
    simp only [List.flatMap_cons, List.flatMap_nil, List.append_nil, h₁.valueInt]
    exact .int f₁.val.svInt
  case valueFloat =>
    obtain ⟨f₁, _, h₁, rfl, rfl⟩ := hgs
    refine ⟨⟨_, rfl, ?_⟩, fun _ => h₁.2 (by decide)⟩
    simp only [List.flatMap_cons, List.flatMap_nil, List.append_nil, h₁.valueFloat]
    exact .float f₁.val.svFloat
  case valueString =>
    obtain ⟨f₁, _, h₁, rfl, rfl⟩ := hgs
    refine ⟨⟨_, rfl, ?_⟩, fun _ => h₁.2 (by decide)⟩
    simp only [List.flatMap_cons, List.flatMap_nil, List.append_nil, h₁.valueString]
    exact .string f₁.val.svStr
  case condition =>
    obtain ⟨f₁, _, h₁, ⟨f₂, _, ⟨⟨t, ht, hop⟩, -⟩, ⟨f₃, _, ⟨⟨e, he, h₃⟩, -⟩, rfl, rfl⟩, rfl⟩, rfl⟩ :=
      hgs
    obtain ⟨c, hc, hcol⟩ := h₁.1
    refine ⟨?_, fun _ => h₁.2 (by decide)⟩
    simp only [List.flatMap_cons, List.flatMap_nil, List.append_nil, ht]
    show ConditionSpelling (some ⟨f₁.val.svCol, f₂.val.svCompOp, f₃.val.svExpr⟩) _
    rw [hc, he]
    exact .condition hcol hop h₃
  case optWhereClauseNone =>
    subst hgs
    refine ⟨?_, fun h => absurd (Or.inr rfl) h⟩
    show OptWhereSpelling (above.headD default).svConds []
    rw [habove rfl]
    exact .none
  case optWhereClauseSome =>
    obtain ⟨f₁, _, h₁, ⟨f₂, _, h₂, rfl, rfl⟩, rfl⟩ := hgs
    refine ⟨?_, fun h => absurd (Or.inr rfl) h⟩
    simp only [List.flatMap_cons, List.flatMap_nil, List.append_nil, h₁.word]
    exact .some h₂.1
  case colQualified =>
    obtain ⟨f₁, _, h₁, ⟨f₂, _, h₂, ⟨f₃, _, h₃, rfl, rfl⟩, rfl⟩, rfl⟩ := hgs
    refine ⟨⟨_, rfl, ?_⟩, fun _ => h₁.2 (by decide)⟩
    simp only [List.flatMap_cons, List.flatMap_nil, List.append_nil, h₁.tbName, h₂.word, h₃.colName]
    exact .qualified f₁.val.svStr f₃.val.svStr
  case colPlain =>
    obtain ⟨f₁, _, h₁, rfl, rfl⟩ := hgs
    refine ⟨⟨_, rfl, ?_⟩, fun _ => h₁.2 (by decide)⟩
    simp only [List.flatMap_cons, List.flatMap_nil, List.append_nil, h₁.colName]
    exact .plain f₁.val.svStr
  case opEq | opLt | opGt | opNeq | opLeq | opGeq =>
    obtain ⟨f₁, _, h₁, rfl, rfl⟩ := hgs
    refine ⟨⟨_, (List.append_nil _).trans h₁.word, ?_⟩, fun _ => h₁.2 (by decide)⟩
    constructor
  case exprValue =>
    obtain ⟨f₁, _, ⟨⟨val, hval, h₁⟩, hconds⟩, rfl, rfl⟩ := hgs
    refine ⟨⟨.value val, ?_, ?_⟩, fun _ => hconds (by decide)⟩
    · show f₁.val.svVal.map Expr.value = _
      rw [hval, Option.map_some]
    · simp only [List.flatMap_cons, List.flatMap_nil, List.append_nil]
      exact .value h₁
  case exprCol =>
    obtain ⟨f₁, _, ⟨⟨c, hc, h₁⟩, hconds⟩, rfl, rfl⟩ := hgs
    refine ⟨⟨.col c, ?_, ?_⟩, fun _ => hconds (by decide)⟩
    · show f₁.val.svCol.map Expr.col = _
      rw [hc, Option.map_some]
    · simp only [List.flatMap_cons, List.flatMap_nil, List.append_nil]
      exact .col h₁
  case setClause =>
    obtain ⟨f₁, _, h₁, ⟨f₂, _, h₂, ⟨f₃, _, ⟨⟨val, hval, h₃⟩, -⟩, rfl, rfl⟩, rfl⟩, rfl⟩ := hgs
    refine ⟨?_, fun _ => h₁.2 (by decide)⟩
    simp only [List.flatMap_cons, List.flatMap_nil, List.append_nil, h₁.colName, h₂.word]
    show SetClauseSpelling (some ⟨f₁.val.svStr, f₃.val.svVal⟩) _
    rw [hval]
    exact .setClause f₁.val.svStr h₃
  case selectorAll =>
    obtain ⟨f₁, _, h₁, rfl, rfl⟩ := hgs
    refine ⟨?_, fun _ => h₁.2 (by decide)⟩
    simp only [List.flatMap_cons, List.flatMap_nil, List.append_nil, h₁.word]
    exact .all
  case selectorCols =>
    obtain ⟨f₁, _, h₁, rfl, rfl⟩ := hgs
    refine ⟨?_, fun _ => h₁.2 (by decide)⟩
    simp only [List.flatMap_cons, List.flatMap_nil, List.append_nil]
    exact .cols h₁.1
  case tbName | colName =>
    obtain ⟨f₁, _, h₁, rfl, rfl⟩ := hgs
    refine ⟨?_, fun _ => h₁.2 (by decide)⟩
    simp only [List.flatMap_cons, List.flatMap_nil, List.append_nil]
    exact h₁.identifier

/-! ### The stack -/

theorem fits_of_map {xs : List Symbol} {gs : List (YyFrame φ)}
    (h : xs.map (fun x => some x.sum) = gs.map Frame.sym) (hs : ∀ f ∈ gs, Sound f) :
    List.Forall₂ Fits xs gs := by
  induction xs generalizing gs with
  | nil =>
    rw [List.map_eq_nil_iff.mp h.symm]
    exact .nil
  | cons x xs ih =>
    cases gs with
    | nil => cases h
    | cons f gs =>
      obtain ⟨hsym, htail⟩ := List.cons.inj h
      refine .cons (hs f List.mem_cons_self x.sum hsym.symm) (ih htail ?_)
      exact fun g hg => hs g (List.mem_cons_of_mem f hg)

theorem words_eq_flatMap (fs : List (YyFrame φ)) : words fs = fs.reverse.flatMap Frame.word := by
  rw [words, List.flatMap_def, List.map_reverse]

theorem mem_fromWhere_of_hasConds {x : Terminal ⊕ Nonterminal} (h : HasConds x) :
    x ∈ fromWhere := by
  rcases h with rfl | rfl
  · simp [fromWhere]
  · simp [fromWhere]

/-- A rule that does not belong to a `where` clause uses no symbol that does. -/
theorem Rule.rhs_before_where (r : Rule) (h : .inr r.production.lhs ∉ fromWhere) :
    ∀ x ∈ r.production.rhs, x.sum ∉ fromWhere := by
  cases r <;> simp_all [Rule.production, fromWhere, Symbol.sum]

namespace StackOk

variable {fs rest : List (YyFrame φ)} {above : List (SemValue φ)}

/-- What is known down to the bottom is the whole stack. -/
theorem eq_of_getLast (h : StackOk fs above) {top : List (Option (Terminal ⊕ Nonterminal))}
    (htop : top <+: fs.map Frame.sym) (hlast : top.getLast? = some none) :
    top = fs.map Frame.sym := by
  obtain ⟨pushed, base, rfl, hbase, -, hpushed⟩ := h.bottom
  rw [List.map_append, List.map_singleton] at htop ⊢
  rcases List.prefix_concat_iff.mp htop with heq | hstart
  · exact heq
  · obtain ⟨f, hf, hsym⟩ := List.mem_map.mp (hstart.subset (List.mem_of_getLast? hlast))
    exact absurd hsym (hpushed f hf)

/-- A slot above the stack before a `where` clause. -/
theorem headD_conds (h : StackOk fs above) (hfs : ∀ f ∈ fs, ∀ x ∈ f.sym, x ∉ fromWhere) :
    (above.headD default).svConds = [] := by
  cases above with
  | nil => rfl
  | cons v above => exact h.clean hfs v List.mem_cons_self

theorem bottom_of_append (h : StackOk (fs ++ rest) above) (hne : rest ≠ []) :
    ∃ pushed base, rest = pushed ++ [base] ∧ base.sym = none ∧ base.word = [] ∧
      ∀ f ∈ pushed, f.sym ≠ none := by
  obtain ⟨pushed, base, heq, hbase, hword, hpushed⟩ := h.bottom
  rw [← List.dropLast_append_getLast hne, ← List.append_assoc] at heq
  obtain ⟨hinit, hlast⟩ := List.append_inj' heq rfl
  refine ⟨rest.dropLast, base, ?_, hbase, hword, ?_⟩
  · rw [← hlast, List.dropLast_append_getLast hne]
  · intro f hf
    apply hpushed
    rw [← hinit]
    exact List.mem_append_right _ hf

theorem popped_eq {r : Rule} (hn : fs.length = r.production.rhs.length)
    (hstart : r.popped <+: (fs ++ rest).map Frame.sym) :
    r.production.rhs.map (fun x => some x.sum) = fs.reverse.map Frame.sym := by
  obtain ⟨more, hmore⟩ := hstart
  rw [Rule.popped, List.append_assoc, List.map_append] at hmore
  have hleft := List.append_inj_left hmore (by simp [hn])
  rw [List.map_reverse, ← hleft, List.reverse_reverse]

/-- **A rule used on the stack.** -/
theorem act {r : Rule} (h : StackOk (fs ++ rest) above) (hn : fs.length = r.production.rhs.length)
    (hview : Grammar.Sees Rule.View r (fs ++ rest)) :
    Result r (words fs) (yacc.actOn r (fs ++ rest) above) := by
  obtain ⟨top, ⟨hpopped, hnone⟩, htop⟩ := hview
  have hgs : List.Forall₂ Fits r.production.rhs fs.reverse := by
    refine fits_of_map (popped_eq hn (hpopped.trans htop)) fun f hf => h.sound f ?_
    exact List.mem_append_left _ (List.mem_reverse.mp hf)
  have habove : r = .optWhereClauseNone → (above.headD default).svConds = [] := by
    intro hr
    obtain ⟨hlast, hbefore⟩ := hnone hr
    rw [h.eq_of_getLast htop hlast] at hbefore
    refine h.headD_conds fun f hf x hx hmem => ?_
    exact hbefore f.sym (List.mem_map_of_mem hf) x hmem hx
  have hresult := act_sound rest hgs habove
  rwa [List.reverse_reverse, ← words_eq_flatMap] at hresult

/-- **A token** on the stack. -/
theorem shift {token : Token φ} {t : Terminal} {v : SemValue φ} (ht : ReadsToken token t v)
    (h : StackOk fs above) : StackOk (⟨some (.inl t), [token], v⟩ :: fs) above.tail where
  sound f hf := by
    rcases List.mem_cons.mp hf with rfl | hf
    · rintro x ⟨⟩
      exact ⟨⟨token, rfl, ht.1, ht.2.1⟩, fun _ => ht.2.2⟩
    · exact h.sound f hf
  bottom := by
    obtain ⟨pushed, base, rfl, hbase, hword, hpushed⟩ := h.bottom
    refine ⟨_ :: pushed, base, rfl, hbase, hword, ?_⟩
    intro f hf
    rcases List.mem_cons.mp hf with rfl | hf
    · exact Option.some_ne_none _
    · exact hpushed f hf
  clean hfs v hv :=
    h.clean (fun f hf => hfs f (List.mem_cons_of_mem _ hf)) v (List.mem_of_mem_tail hv)

/-- **A reduction.** -/
theorem reduce {r : Rule} {v : SemValue φ} (h : StackOk (fs ++ rest) above) (hne : rest ≠ [])
    (hn : fs.length = r.production.rhs.length) (hview : Grammar.Sees Rule.View r (fs ++ rest))
    (hact : yacc.actOn r (fs ++ rest) above = .inl v) :
    StackOk (⟨some (.inr r.production.lhs), words fs, v⟩ :: rest)
      ((fs.map Frame.val).reverse ++ above).tail := by
  have hresult := h.act hn hview
  rw [hact] at hresult
  constructor
  case sound =>
    intro f hf
    rcases List.mem_cons.mp hf with rfl | hf
    · rintro x ⟨⟩
      exact hresult
    · exact h.sound f (List.mem_append_right _ hf)
  case bottom =>
    obtain ⟨pushed, base, rfl, hbase, hword, hpushed⟩ := h.bottom_of_append hne
    refine ⟨_ :: pushed, base, rfl, hbase, hword, ?_⟩
    intro f hf
    rcases List.mem_cons.mp hf with rfl | hf
    · exact Option.some_ne_none _
    · exact hpushed f hf
  case clean =>
    intro hfs
    obtain ⟨top, ⟨hpopped, -⟩, htop⟩ := hview
    have hsym : ∀ f ∈ fs, ∃ x ∈ r.production.rhs, some x.sum = f.sym := by
      intro f hf
      have hmem : f.sym ∈ fs.reverse.map Frame.sym :=
        List.mem_map_of_mem (List.mem_reverse.mpr hf)
      rwa [← popped_eq hn (hpopped.trans htop), List.mem_map] at hmem
    -- there was no `where` clause before the reduction either
    have hrhs := r.rhs_before_where (hfs _ List.mem_cons_self _ rfl)
    have hbefore : ∀ f ∈ fs ++ rest, ∀ x ∈ f.sym, x ∉ fromWhere := by
      intro f hf x hx
      rcases List.mem_append.mp hf with hf | hf
      · obtain ⟨y, hy, hsym⟩ := hsym f hf
        obtain rfl : y.sum = x := Option.some.inj (hsym.trans hx)
        exact hrhs y hy
      · exact hfs f (List.mem_cons_of_mem _ hf) x hx
    intro v hv
    rcases List.mem_append.mp (List.mem_of_mem_tail hv) with hv | hv
    · obtain ⟨f, hf, rfl⟩ := List.mem_map.mp (List.mem_reverse.mp hv)
      obtain ⟨x, hx, hsym⟩ := hsym f hf
      refine (h.sound f (List.mem_append_left rest hf) x.sum hsym.symm).2 fun hconds => ?_
      exact hrhs x hx (mem_fromWhere_of_hasConds hconds)
    · exact h.clean hbefore v hv

/-- **An answer**: a rule of `start` takes the whole stack. -/
theorem accept {r : Rule} {answer : Option (Ast.TreeNode φ)} (h : StackOk (fs ++ rest) above)
    (hne : rest ≠ []) (hn : fs.length = r.production.rhs.length)
    (hview : Grammar.Sees Rule.View r (fs ++ rest))
    (hact : yacc.actOn r (fs ++ rest) above = .inr answer) :
    Accepts answer (words (fs ++ rest)) := by
  have hresult := h.act hn hview
  rw [hact] at hresult
  obtain ⟨hlhs, haccepts⟩ := hresult
  obtain ⟨top, ⟨hpopped, -⟩, htop⟩ := hview
  have hwhole : r.popped = (fs ++ rest).map Frame.sym := by
    refine h.eq_of_getLast (hpopped.trans htop) ?_
    rw [Rule.popped, if_pos hlhs, List.getLast?_append_cons, List.getLast?_singleton]
  obtain ⟨pushed, base, rfl, -, hword, -⟩ := h.bottom_of_append hne
  have hpushed : pushed.length = 0 := by
    have := congrArg List.length hwhole
    simp only [Rule.popped, if_pos hlhs, List.length_append, List.length_reverse, List.length_map,
      List.length_singleton] at this
    omega
  rw [List.eq_nil_of_length_eq_zero hpushed, words_append, List.nil_append, words_cons, hword]
  exact haccepts

end StackOk

theorem yacc_invariant : (yacc (φ := φ)).Invariant Rule.View ReadsToken StackOk Accepts where
  shift _ _ _ _ _ ht h := h.shift ht
  reduce _ _ _ _ _ h hne hn hview hact := h.reduce hne hn hview hact
  accept _ _ _ _ _ h hne hn hview hact := h.accept hne hn hview hact

/-! ### The parser -/

namespace Yyparse

/-- What is known of the parser when it has been given `tokens`. -/
def Follows (p : Yyparse φ) (tokens : List (Token φ)) : Prop :=
  p.yylval.svConds = [] ∧
  match p.status with
  | .wants s => Grammar.Made pastOf StackOk s tokens
  | .accepted answer => ∃ w rest, tokens = w ++ rest ∧ Accepts answer w
  | _ => True

theorem follows_init : Follows (φ := φ) {} [] := by
  refine ⟨rfl, [⟨none, [], default⟩], ?_, List.cons_ne_nil _ _, rfl, ?_, rfl⟩
  · exact ⟨List.prefix_rfl, trivial⟩
  · constructor
    case sound =>
      intro f hf x hx
      rw [List.mem_singleton.mp hf] at hx
      cases hx
    case bottom => exact ⟨[], _, rfl, rfl, rfl, by simp⟩
    case clean => simp

theorem setValue_conds (yylval : SemValue φ) (token : Token φ) :
    (token.setValue yylval).svConds = yylval.svConds := by
  cases token with
  | _ => rfl

theorem carriedBy_setValue (yylval : SemValue φ) (token : Token φ) :
    token.CarriedBy (token.setValue yylval) := by
  cases token with
  | word t => trivial
  | _ => rfl

theorem Follows.read {p : Yyparse φ} {tokens : List (Token φ)} (h : p.Follows tokens)
    (token : Token φ) : (p.read token).Follows (tokens ++ [token]) := by
  obtain ⟨hconds, hstatus⟩ := h
  cases hp : p.status with
  | wants s =>
    rw [hp] at hstatus
    have hreads : ReadsToken token token.terminal (token.setValue p.yylval) :=
      ⟨rfl, carriedBy_setValue _ _, (setValue_conds _ _).trans hconds⟩
    have hread : p.read token =
        ⟨yacc.feed token.terminal (token.setValue p.yylval) s, token.setValue p.yylval⟩ := by
      rw [Yyparse.read, hp]
    rw [hread]
    refine ⟨hreads.2.2, ?_⟩
    rcases Grammar.Invariant.feed yacc_valid yacc_invariant hreads hstatus with hafter | hanswer
    · cases hfeed : yacc.feed token.terminal (token.setValue p.yylval) s with
      | wants s' =>
        rw [hfeed] at hafter
        exact hafter
      | accepted answer =>
        rw [hfeed] at hafter
        exact ⟨_, [], (List.append_nil _).symm, hafter⟩
      | _ => trivial
    · obtain ⟨answer, hfeed, haccepts⟩ := hanswer
      simp only [hfeed]
      exact ⟨tokens, [token], rfl, haccepts⟩
  | accepted answer =>
    rw [hp] at hstatus
    obtain ⟨w, rest, rfl, haccepts⟩ := hstatus
    have hread : p.read token = p := by rw [Yyparse.read, hp]
    rw [hread]
    refine ⟨hconds, ?_⟩
    rw [hp]
    exact ⟨w, rest ++ [token], List.append_assoc _ _ _, haccepts⟩
  | _ =>
    have hread : p.read token = p := by rw [Yyparse.read, hp]
    rw [hread]
    refine ⟨hconds, ?_⟩
    rw [hp]
    trivial

theorem Follows.parse {p : Yyparse φ} {before : List (Token φ)} (h : p.Follows before)
    (tokens : List (Token φ)) : (p.parse tokens).Follows (before ++ tokens) := by
  induction tokens generalizing p before with
  | nil => rwa [List.append_nil]
  | cons token tokens ih =>
    have := ih (h.read token)
    rwa [List.append_assoc] at this

/-- What has been accepted is spelled by the first tokens. -/
theorem accepts_of_parse {tokens : List (Token φ)} {answer : Option (Ast.TreeNode φ)}
    (h : (parse {} tokens).status = .accepted answer) :
    ∃ w rest, tokens = w ++ rest ∧ Accepts answer w := by
  have hfollows := (follows_init.parse tokens).2
  rwa [h] at hfollows

theorem parse_exit {t : Word} (ht : t = .EXIT ∨ t = .T_EOF) (rest : List (Token φ)) :
    (parse {} (.word t :: rest)).status = .accepted none := by
  have haccept : (parse (φ := φ) {} [.word t]).status = .accepted none := by
    rcases ht with rfl | rfl
    · rfl
    · rfl
  have hstopped : (parse (φ := φ) {} [.word t]).Stopped := by
    intro s hs
    rw [haccept] at hs
    cases hs
  show (parse {} ([.word t] ++ rest)).status = _
  rw [parse_append, hstopped.parse, haccept]

end Yyparse

/-- **What the parser accepts.**  `yyparse` accepts a sequence of tokens with a tree exactly if it
begins with a spelling of that tree, and without a tree exactly if it begins with `exit` or the end
of the text. -/
theorem yyparse_accepts_iff (tokens : List (Token φ)) :
    (∀ tree, (Yyparse.parse {} tokens).status = .accepted (some tree) ↔
      ∃ w rest, tokens = w ++ rest ∧ Spelling tree w) ∧
    ((Yyparse.parse {} tokens).status = .accepted none ↔
      ∃ t rest, tokens = .word t :: rest ∧ (t = .EXIT ∨ t = .T_EOF)) := by
  refine ⟨fun tree => ⟨Yyparse.accepts_of_parse, ?_⟩, ⟨fun h => ?_, ?_⟩⟩
  · rintro ⟨w, rest, rfl, hw⟩
    exact Yyparse.parse_spelling hw rest
  · obtain ⟨w, rest, rfl, hexit | heof⟩ := Yyparse.accepts_of_parse h
    · exact ⟨.EXIT, rest, by rw [hexit]; rfl, Or.inl rfl⟩
    · exact ⟨.T_EOF, rest, by rw [heof]; rfl, Or.inr rfl⟩
  · rintro ⟨t, rest, rfl, ht⟩
    exact Yyparse.parse_exit ht rest

end Rucbase
