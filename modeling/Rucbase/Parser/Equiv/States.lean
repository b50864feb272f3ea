import Mathlib.Data.List.GetD
import Rucbase.Lib.ValidTable
import Rucbase.Parser.Yacc

/-!
# The states of the parser

The table of the parser is valid (`yacc_valid`): `yypast` lists for each state the symbols that are
on top of the stack whenever the parser is in it.
-/

namespace Rucbase

open Ast ShiftReduce

def Symbol.sum : Symbol → Terminal ⊕ Nonterminal
  | .t x => .inl x
  | .n x => .inr x

open Word Terminal in
/-- For each state the symbols that are on top of the stack, the top first. -/
def yypast : List (List Symbol) := [
  /- 0 -/ [], /- 1 -/ [.t SHOW], /- 2 -/ [.t CREATE], /- 3 -/ [.t DROP], /- 4 -/ [.t DESC],
  /- 5 -/ [.t INSERT], /- 6 -/ [.t DELETE], /- 7 -/ [.t UPDATE], /- 8 -/ [.t SELECT],
  /- 9 -/ [.t EXIT], /- 10 -/ [.t HELP], /- 11 -/ [.t TXN_BEGIN], /- 12 -/ [.t TXN_COMMIT],
  /- 13 -/ [.t TXN_ABORT], /- 14 -/ [.t TXN_ROLLBACK], /- 15 -/ [.t T_EOF], /- 16 -/ [],
  /- 17 -/ [.n .stmt], /- 18 -/ [.n .txnStmt], /- 19 -/ [.n .dbStmt], /- 20 -/ [.n .ddl],
  /- 21 -/ [.n .dml], /- 22 -/ [.t TABLES, .t SHOW], /- 23 -/ [.t TABLE, .t CREATE],
  /- 24 -/ [.t INDEX, .t CREATE], /- 25 -/ [.t TABLE, .t DROP], /- 26 -/ [.t INDEX, .t DROP],
  /- 27 -/ [.t IDENTIFIER], /- 28 -/ [.n .tbName, .t DESC], /- 29 -/ [.t INTO, .t INSERT],
  /- 30 -/ [.t FROM, .t DELETE], /- 31 -/ [.n .tbName, .t UPDATE], /- 32 -/ [.t IDENTIFIER],
  /- 33 -/ [.t star], /- 34 -/ [.n .col], /- 35 -/ [.n .colList],
  /- 36 -/ [.n .selector, .t SELECT], /- 37 -/ [.n .tbName], /- 38 -/ [.n .colName], /- 39 -/ [],
  /- 40 -/ [.t semicolon, .n .stmt], /- 41 -/ [.n .tbName, .t TABLE, .t CREATE],
  /- 42 -/ [.n .tbName, .t INDEX, .t CREATE], /- 43 -/ [.n .tbName, .t TABLE, .t DROP],
  /- 44 -/ [.n .tbName, .t INDEX, .t DROP], /- 45 -/ [.n .tbName, .t INTO, .t INSERT],
  /- 46 -/ [.n .tbName, .t FROM, .t DELETE], /- 47 -/ [.t SET, .n .tbName, .t UPDATE],
  /- 48 -/ [.t comma, .n .colList], /- 49 -/ [.t FROM, .n .selector, .t SELECT],
  /- 50 -/ [.t dot, .n .tbName], /- 51 -/ [.t lparen, .n .tbName, .t TABLE, .t CREATE],
  /- 52 -/ [.t lparen, .n .tbName, .t INDEX, .t CREATE],
  /- 53 -/ [.t lparen, .n .tbName, .t INDEX, .t DROP],
  /- 54 -/ [.t VALUES, .n .tbName, .t INTO, .t INSERT], /- 55 -/ [.t WHERE],
  /- 56 -/ [.n .optWhereClause, .n .tbName, .t FROM, .t DELETE], /- 57 -/ [.t IDENTIFIER],
  /- 58 -/ [.n .setClauses, .t SET, .n .tbName, .t UPDATE], /- 59 -/ [.n .setClause],
  /- 60 -/ [.n .colName], /- 61 -/ [.n .col, .t comma, .n .colList],
  /- 62 -/ [.n .tableList, .t FROM, .n .selector, .t SELECT], /- 63 -/ [.n .tbName],
  /- 64 -/ [.n .colName, .t dot, .n .tbName],
  /- 65 -/ [.n .fieldList, .t lparen, .n .tbName, .t TABLE, .t CREATE], /- 66 -/ [.n .field],
  /- 67 -/ [.n .colName], /- 68 -/ [.n .colName, .t lparen, .n .tbName, .t INDEX, .t CREATE],
  /- 69 -/ [.n .colName, .t lparen, .n .tbName, .t INDEX, .t DROP],
  /- 70 -/ [.t lparen, .t VALUES, .n .tbName, .t INTO, .t INSERT], /- 71 -/ [.n .condition],
  /- 72 -/ [.n .whereClause, .t WHERE], /- 73 -/ [.n .col], /- 74 -/ [.t comma, .n .setClauses],
  /- 75 -/ [.n .optWhereClause, .n .setClauses, .t SET, .n .tbName, .t UPDATE],
  /- 76 -/ [.t equals, .n .colName], /- 77 -/ [.t JOIN, .n .tableList],
  /- 78 -/ [.t comma, .n .tableList],
  /- 79 -/ [.n .optWhereClause, .n .tableList, .t FROM, .n .selector, .t SELECT],
  /- 80 -/ [.t rparen, .n .fieldList, .t lparen, .n .tbName, .t TABLE, .t CREATE],
  /- 81 -/ [.t comma, .n .fieldList], /- 82 -/ [.t INT], /- 83 -/ [.t CHAR], /- 84 -/ [.t FLOAT],
  /- 85 -/ [.n .type, .n .colName],
  /- 86 -/ [.t rparen, .n .colName, .t lparen, .n .tbName, .t INDEX, .t CREATE],
  /- 87 -/ [.t rparen, .n .colName, .t lparen, .n .tbName, .t INDEX, .t DROP],
  /- 88 -/ [.t VALUE_STRING], /- 89 -/ [.t VALUE_INT], /- 90 -/ [.t VALUE_FLOAT],
  /- 91 -/ [.n .valueList, .t lparen, .t VALUES, .n .tbName, .t INTO, .t INSERT],
  /- 92 -/ [.n .value], /- 93 -/ [.t AND, .n .whereClause], /- 94 -/ [.t LEQ], /- 95 -/ [.t NEQ],
  /- 96 -/ [.t GEQ], /- 97 -/ [.t equals], /- 98 -/ [.t less], /- 99 -/ [.t greater],
  /- 100 -/ [.n .op, .n .col], /- 101 -/ [.n .setClause, .t comma, .n .setClauses],
  /- 102 -/ [.n .value, .t equals, .n .colName], /- 103 -/ [.n .tbName, .t JOIN, .n .tableList],
  /- 104 -/ [.n .tbName, .t comma, .n .tableList],
  /- 105 -/ [.n .field, .t comma, .n .fieldList], /- 106 -/ [.t lparen, .t CHAR],
  /- 107 -/ [.t rparen, .n .valueList, .t lparen, .t VALUES, .n .tbName, .t INTO, .t INSERT],
  /- 108 -/ [.t comma, .n .valueList], /- 109 -/ [.n .condition, .t AND, .n .whereClause],
  /- 110 -/ [.n .value], /- 111 -/ [.n .col], /- 112 -/ [.n .expr, .n .op, .n .col],
  /- 113 -/ [.t VALUE_INT, .t lparen, .t CHAR], /- 114 -/ [.n .value, .t comma, .n .valueList],
  /- 115 -/ [.t rparen, .t VALUE_INT, .t lparen, .t CHAR]]

/-- The states with nothing below these symbols. -/
def yybottom : List Nat := [0, 6, 7, 8, 9, 10, 15, 17, 30, 31, 36, 40, 46, 47, 49, 58, 62]

/-- The top of the stack in a state, down to the bottom in the states that know it. -/
def pastOf (q : Nat) : List (Option (Terminal ⊕ Nonterminal)) :=
  (yypast.getD q []).map (fun x => some x.sum) ++ if q ∈ yybottom then [none] else []

/-- The symbols from the `where` clause on. -/
def fromWhere : List (Terminal ⊕ Nonterminal) :=
  [.inl (.word .WHERE), .inr .condition, .inr .whereClause, .inr .optWhereClause, .inr .dml,
    .inr .stmt, .inr .start]

/-- The right-hand side of a rule as it is on the stack; the rules of `start` take all of it. -/
def Rule.popped (r : Rule) : List (Option (Terminal ⊕ Nonterminal)) :=
  (r.production.rhs.map fun x => some x.sum).reverse ++
    if r.production.lhs = .start then [none] else []

/-- The top of the stack where a rule is used.  Where a statement has no `where` clause, the whole
stack is known. -/
def Rule.View (r : Rule) (top : List (Option (Terminal ⊕ Nonterminal))) : Prop :=
  r.popped <+: top ∧
    (r = .optWhereClauseNone → top.getLast? = some none ∧ ∀ y ∈ top, ∀ x ∈ fromWhere, y ≠ some x)

instance (r : Rule) : DecidablePred r.View := fun _ => inferInstanceAs (Decidable (_ ∧ _))

theorem mem_of_lookup {α β : Type} [DecidableEq α] {l : List (α × β)} {a : α} {b : β}
    (h : l.lookup a = some b) : (a, b) ∈ l := by
  obtain ⟨l₁, l₂, rfl, -⟩ := List.lookup_eq_some_iff.mp h
  exact List.mem_append_right _ List.mem_cons_self

variable {φ : Type} [Inhabited φ]

/-- **The table is valid.** -/
theorem yacc_valid : (yacc (φ := φ)).Valid Rule.View pastOf := by
  have hshift : ∀ q < yytable.length, ∀ e ∈ (yytable.getD q {}).shift,
      pastOf e.2 <+: some (.inl e.1) :: pastOf q := by decide +kernel
  have hgoto : ∀ q < yytable.length, ∀ e ∈ (yytable.getD q {}).goto,
      pastOf e.2 <+: some (.inr e.1) :: pastOf q := by decide +kernel
  have hreduce : ∀ q < yytable.length, ∀ e ∈ (yytable.getD q {}).reduce,
      e.2.View (pastOf q) := by decide +kernel
  have hdefault : ∀ q < yytable.length, ∀ r ∈ (yytable.getD q {}).default,
      r.View (pastOf q) := by decide +kernel
  -- the other states have empty rows
  have hrow : ∀ q, ¬q < yytable.length → yytable.getD q {} = {} := by
    intro q hq
    exact List.getD_eq_default _ _ (Nat.not_lt.mp hq)
  constructor
  · intro q t q' h
    have h : (yytable.getD q {}).shift.lookup t = some q' := h
    by_cases hq : q < yytable.length
    · exact hshift q hq (t, q') (mem_of_lookup h)
    · rw [hrow q hq] at h
      cases h
  · intro q n q' h
    have h : (yytable.getD q {}).goto.lookup n = some q' := h
    by_cases hq : q < yytable.length
    · exact hgoto q hq (n, q') (mem_of_lookup h)
    · rw [hrow q hq] at h
      cases h
  · intro q t r h
    have h : (yytable.getD q {}).reduce.lookup t = some r := h
    by_cases hq : q < yytable.length
    · exact hreduce q hq (t, r) (mem_of_lookup h)
    · rw [hrow q hq] at h
      cases h
  · intro q r h
    have h : (yytable.getD q {}).default = some r := h
    by_cases hq : q < yytable.length
    · exact hdefault q hq r h
    · rw [hrow q hq] at h
      cases h

end Rucbase
