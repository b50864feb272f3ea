import Mathlib.Data.List.GetD
import Rucbase.Parser.Syntax

/-!
# The parser rebuilds the tree

`yyparse` on the tokens of a statement, symbol by symbol: reading what spells a symbol takes the
parser to a stack with the state of that symbol on top and a slot that holds its value.  Where the
last reduction waits for the next token, this is said of the parser after that token.

A `where` clause that is absent takes what the slot above the stack holds, so `Tidy` is carried
along: before the keyword `WHERE` no slot above the stack has conditions.
-/

namespace Rucbase

open Ast ShiftReduce

variable {φ : Type} [Inhabited φ]

/-! ### The reductions come to an end -/

/-- How many unit reductions may follow in a state. -/
def yyweight : List Nat :=
  [1, 1, 1, 1, 1, 1, 1, 1, 1, 2, 2, 3, 3, 3, 3, 2, 1, 1, 2, 2, 2, 2, 2, 1, 1, 1, 1, 5, 2, 1, 1, 1, 5,
    2, 3, 2, 1, 1, 4, 1, 1, 1, 1, 1, 1, 1, 3, 1, 1, 1, 1, 1, 1, 1, 1, 1, 1, 5, 3, 4, 1, 1, 3, 4, 2, 1,
    2, 1, 1, 1, 1, 2, 1, 1, 1, 1, 1, 1, 1, 1, 1, 1, 3, 1, 3, 2, 1, 1, 4, 4, 4, 1, 2, 1, 2, 2, 2, 2, 2,
    2, 1, 2, 3, 2, 2, 1, 1, 1, 1, 1, 2, 2, 1, 1, 1, 1]

/-- The rules of a row of the table. -/
def rowRules (row : Row Terminal Nonterminal Rule) : List Rule :=
  row.default.toList ++ row.reduce.map Prod.snd

/-- A reduction of `n` symbols takes `n - 1` states from the stack, or more from the weight. -/
theorem yyweight_lt : ∀ state < yytable.length, ∀ r ∈ rowRules (yytable.getD state {}),
    ∀ row ∈ yytable, ∀ state' ∈ row.goto.lookup r.production.lhs,
      yyweight.getD state' 0 + 2 ≤ yyweight.getD state 0 + r.production.rhs.length := by
  decide +kernel

/-- The measure that the reductions of the parser make smaller. -/
def yymeasure (s : Stack (SemValue φ)) : Nat := s.states.length + yyweight.getD s.top 0

/-- A reduction with a rule of the state on top. -/
theorem yymeasure_reduce {s s' : Stack (SemValue φ)} {r : Rule}
    (hr : r ∈ rowRules (yytable.getD s.top {})) (h : yacc.reduce s r = .inl s') :
    yymeasure s' < yymeasure s := by
  have htop : s.top < yytable.length := by
    by_contra hge
    rw [List.getD_eq_default _ _ (by omega)] at hr
    cases hr
  rw [Grammar.reduce] at h
  simp only at h
  split at h
  case isTrue => cases h
  case isFalse hlen =>
    split at h
    case h_1 => cases h
    case h_2 v hv =>
      split at h
      case h_1 => cases h
      case h_2 state hgoto =>
        obtain rfl := Sum.inl.inj h
        set below := s.pop (yacc (φ := φ).len r) with hbelow
        have hmem : yytable.getD below.top {} ∈ yytable := by
          rcases Nat.lt_or_ge below.top yytable.length with hlt | hge
          · rw [List.getD_eq_getElem _ _ hlt]
            exact List.getElem_mem hlt
          · have hgoto : ((yytable.getD below.top {}).goto.lookup r.production.lhs) = some state :=
              hgoto
            rw [List.getD_eq_default _ _ hge] at hgoto
            cases hgoto
        have hweight := yyweight_lt s.top htop r hr _ hmem state hgoto
        have hstates : below.states.length = s.states.length - r.production.rhs.length := by
          rw [hbelow, Stack.pop, List.length_drop]
          rfl
        have hlt : r.production.rhs.length < s.states.length := by
          have hlen : ¬s.states.length ≤ r.production.rhs.length := hlen
          omega
        show below.states.length + 1 + yyweight.getD state 0 < s.states.length + yyweight.getD s.top 0
        omega

theorem yacc_bounded : (yacc (φ := φ)).Bounded yymeasure where
  lt_fuel s := by
    have hle : ∀ state, yyweight.getD state 0 ≤ 5 := by
      intro state
      rcases Nat.lt_or_ge state yyweight.length with hlt | hge
      · rw [List.getD_eq_getElem _ _ hlt]
        exact (by decide : ∀ w ∈ yyweight, w ≤ 5) _ (List.getElem_mem hlt)
      · rw [List.getD_eq_default _ _ hge]
        omega
    have := hle s.top
    show s.states.length + _ < s.states.length + 8
    omega
  reduce_default s r s' hr h := by
    refine yymeasure_reduce ?_ h
    have hr : (yytable.getD s.top {}).default = some r := hr
    rw [rowRules, hr]
    exact List.mem_append_left _ List.mem_cons_self
  reduce_on s t r s' hr h := by
    refine yymeasure_reduce ?_ h
    have hr : ((yytable.getD s.top {}).reduce.lookup t <|> (yytable.getD s.top {}).default) =
      some r := hr
    rw [rowRules]
    cases hlookup : (yytable.getD s.top {}).reduce.lookup t with
    | none =>
      rw [hlookup] at hr
      have hr : (yytable.getD s.top {}).default = some r := hr
      rw [hr]
      exact List.mem_append_left _ List.mem_cons_self
    | some r' =>
      rw [hlookup] at hr
      obtain rfl := Option.some.inj hr
      obtain ⟨l₁, l₂, hsplit, -⟩ := List.lookup_eq_some_iff.mp hlookup
      refine List.mem_append_right _ (List.mem_map.mpr ⟨(t, r'), ?_, rfl⟩)
      rw [hsplit]
      exact List.mem_append_right _ List.mem_cons_self

/-! ### Reading tokens -/

namespace Yyparse

variable {base : List Nat} {vals above : List (SemValue φ)} {yylval : SemValue φ}

/-- The parser between two tokens, with the states and values on its stack. -/
abbrev on (states : List Nat) (vals above : List (SemValue φ)) (yylval : SemValue φ) : Yyparse φ :=
  ⟨.wants ⟨states, vals, above⟩, yylval⟩

theorem parse_append (p : Yyparse φ) (w w' : List (Token φ)) :
    p.parse (w ++ w') = (p.parse w).parse w' :=
  List.foldl_append

/-- The parser is done. -/
def Stopped (p : Yyparse φ) : Prop := ∀ s, p.status ≠ .wants s

/-- When the parser is done it reads nothing. -/
theorem Stopped.parse {p : Yyparse φ} (h : p.Stopped) (tokens : List (Token φ)) :
    p.parse tokens = p := by
  induction tokens with
  | nil => rfl
  | cons token tokens ih =>
    have hread : p.read token = p := by
      rw [read]
      split
      case h_1 s hs => exact absurd hs (h s)
      case h_2 => rfl
    show (p.read token).parse tokens = p
    rw [hread, ih]

/-- A reduction before the next token is shifted. -/
theorem read_reduce {s s' : Stack (SemValue φ)} {t : Token φ} {r : Rule}
    (hshift : (yytable.getD s.top {}).shift.lookup t.terminal = none)
    (hr : ((yytable.getD s.top {}).reduce.lookup t.terminal <|> (yytable.getD s.top {}).default) =
      some r)
    (hs : yacc.reduce s r = .inl s') :
    (⟨.wants s, yylval⟩ : Yyparse φ).read t = (⟨.wants s', yylval⟩ : Yyparse φ).read t := by
  show (⟨yacc.feed _ _ s, _⟩ : Yyparse φ) = ⟨yacc.feed _ _ s', _⟩
  rw [yacc_bounded.feed_reduce hshift hr hs]

/-- No slot above the stack has conditions, nor has the token that is read next. -/
def Tidy (above : List (SemValue φ)) (yylval : SemValue φ) : Prop :=
  (∀ v ∈ above, v.svConds = []) ∧ yylval.svConds = []

theorem Tidy.tail (h : Tidy above yylval) : Tidy above.tail yylval :=
  ⟨fun v hv => h.1 v (List.mem_of_mem_tail hv), h.2⟩

/-- Slots that were filled with tokens. -/
theorem Tidy.cons {v yylval' : SemValue φ} (h : Tidy above yylval) (hv : v.svConds = yylval.svConds)
    (hval : yylval'.svConds = yylval.svConds) : Tidy (v :: above) yylval' := by
  refine ⟨List.forall_mem_cons.mpr ⟨?_, h.1⟩, ?_⟩
  · rw [hv, h.2]
  · rw [hval, h.2]

/-! ### Lists that no `where` clause follows -/

theorem parse_valueList {l : List (Option (Value φ))} {w : List (Token φ)}
    (h : ValueListSpelling l w) :
    ∃ v above' yylval', (on (70 :: base) vals above yylval).parse w =
      on (91 :: 70 :: base) (v :: vals) above' yylval' ∧ v.svVals = l := by
  induction h with
  | one h =>
    obtain ⟨val, rfl, h⟩ := h
    cases h <;> exact ⟨_, _, _, rfl, rfl⟩
  | more _ hsep h ih =>
    obtain ⟨v, above', yylval', hparse, rfl⟩ := ih
    obtain ⟨val, rfl, h⟩ := h
    rw [parse_append, hparse, hsep]
    cases h <;> exact ⟨_, _, _, rfl, rfl⟩

theorem parse_fieldList {l : List (Option ColDef)} {w : List (Token φ)}
    (h : FieldListSpelling l w) :
    ∃ v above' yylval', (on (51 :: base) vals above yylval).parse w =
      on (65 :: 51 :: base) (v :: vals) above' yylval' ∧ v.svFields = l := by
  induction h with
  | one h =>
    obtain ⟨x, htype⟩ := h
    cases htype <;> exact ⟨_, _, _, rfl, rfl⟩
  | more _ hsep h ih =>
    obtain ⟨v, above', yylval', hparse, rfl⟩ := ih
    obtain ⟨x, htype⟩ := h
    rw [parse_append, hparse, hsep]
    cases htype <;> exact ⟨_, _, _, rfl, rfl⟩

/-! ### Lists that a `where` clause may follow -/

theorem parse_setClauses {l : List (Option (SetClause φ))} {w : List (Token φ)}
    (h : SetClausesSpelling l w) (htidy : Tidy above yylval) :
    ∃ v above' yylval', (on (47 :: base) vals above yylval).parse w =
      on (58 :: 47 :: base) (v :: vals) above' yylval' ∧ v.svSetClauses = l ∧
        Tidy above' yylval' := by
  induction h with
  | one h =>
    obtain ⟨x, hval⟩ := h
    have htidy' := htidy.tail.tail.tail
    cases hval <;> refine ⟨_, _, _, rfl, rfl, ?_⟩ <;>
      exact Tidy.cons (Tidy.cons htidy' rfl rfl) rfl rfl
  | more _ hsep h ih =>
    obtain ⟨v, above', yylval', hparse, rfl, htidy'⟩ := ih
    obtain ⟨x, hval⟩ := h
    rw [parse_append, hparse, hsep]
    have htidy := htidy'.tail.tail.tail.tail
    cases hval <;> refine ⟨_, _, _, rfl, rfl, ?_⟩ <;>
      exact Tidy.cons (Tidy.cons (Tidy.cons (Tidy.cons htidy rfl rfl) rfl rfl) rfl rfl) rfl rfl

theorem parse_tableList {l : List String} {w : List (Token φ)} (h : TableListSpelling l w)
    (htidy : Tidy above yylval) :
    ∃ v above' yylval', (on (49 :: base) vals above yylval).parse w =
      on (62 :: 49 :: base) (v :: vals) above' yylval' ∧ v.svStrs = l ∧ Tidy above' yylval' := by
  induction h with
  | one h =>
    obtain rfl := h
    exact ⟨_, _, _, rfl, rfl, htidy.tail⟩
  | more _ hsep h ih =>
    obtain ⟨v, above', yylval', hparse, rfl, htidy'⟩ := ih
    obtain rfl := h
    rw [parse_append, hparse]
    rcases hsep with rfl | rfl
    · refine ⟨_, _, _, rfl, rfl, ?_⟩
      exact Tidy.cons (Tidy.cons htidy'.tail.tail rfl rfl) rfl rfl
    · refine ⟨_, _, _, rfl, rfl, ?_⟩
      exact Tidy.cons (Tidy.cons htidy'.tail.tail rfl rfl) rfl rfl

/-! ### Columns

The parser cannot tell the name of a column from that of a table before it has seen the next token.
-/

/-- The reduction of a state that needs no token, done when the next token is there already. -/
theorem read_default {s s' : Stack (SemValue φ)} {r : Rule}
    (hrow : yytable.getD s.top {} = { default := some r }) (hs : yacc.reduce s r = .inl s')
    (t : Token φ) :
    (⟨.wants s, yylval⟩ : Yyparse φ).read t = (⟨.wants s', yylval⟩ : Yyparse φ).read t := by
  refine read_reduce ?_ ?_ hs
  · rw [hrow]
    rfl
  · rw [hrow]
    rfl

/-- In front of anything but a dot, an identifier is the name of a column. -/
theorem read_identifier {s s' : Stack (SemValue φ)} (htop : s.top = 32)
    (hs : yacc.reduce s .colName = .inl s') {t : Token φ} (ht : t.terminal ≠ .word .dot) :
    (⟨.wants s, yylval⟩ : Yyparse φ).read t = (⟨.wants s', yylval⟩ : Yyparse φ).read t := by
  have hrow : yytable.getD s.top {} =
      { reduce := [(.word .dot, .tbName)], default := some .colName } := by
    rw [htop]
    rfl
  refine read_reduce ?_ ?_ hs
  · rw [hrow]
    rfl
  · rw [hrow]
    show (List.lookup t.terminal [(.word .dot, .tbName)] <|> some Rule.colName) = some .colName
    rw [List.lookup_cons, beq_eq_false_iff_ne.mpr ht]
    rfl

variable (base vals above yylval)

omit [Inhabited φ] in
theorem terminal_ne_dot {t : Word} (h : t ≠ .dot) :
    (Token.word t : Token φ).terminal ≠ .word .dot :=
  fun h' => h (Terminal.word.inj h')

theorem read_colList {l : List (Option Col)} {w : List (Token φ)} (h : ColListSpelling l w)
    (htidy : Tidy above yylval) :
    ∃ v above' yylval', (∀ t : Token φ, t.terminal ≠ .word .dot →
      ((on (8 :: base) vals above yylval).parse w).read t =
        (on (35 :: 8 :: base) (v :: vals) above' yylval').read t) ∧ v.svCols = l ∧
          Tidy above' yylval' := by
  induction h with
  | one h =>
    obtain ⟨c, rfl, h⟩ := h
    cases h with
    | qualified x y =>
      refine ⟨_, _, _, fun t _ => rfl, rfl, ?_⟩
      exact Tidy.cons (Tidy.cons htidy.tail.tail.tail rfl rfl) rfl rfl
    | plain y =>
      refine ⟨_, _, _, fun t ht => (read_identifier rfl rfl ht).trans <|
        (read_default rfl rfl t).trans (read_default rfl rfl t), rfl, ?_⟩
      exact ⟨htidy.tail.1, htidy.2⟩
  | more _ hsep h ih =>
    obtain ⟨v, above', yylval', hparse, rfl, htidy'⟩ := ih
    obtain ⟨c, rfl, h⟩ := h
    obtain rfl := hsep
    have hcomma : (Token.word .comma : Token φ).terminal ≠ .word .dot := terminal_ne_dot (by decide)
    simp only [parse_append]
    cases h with
    | qualified x y =>
      refine ⟨_, _, _, fun t _ => congrArg (fun p => (parse p _).read t) (hparse _ hcomma), rfl, ?_⟩
      exact Tidy.cons (Tidy.cons (Tidy.cons (Tidy.cons htidy'.tail.tail.tail.tail rfl rfl)
        rfl rfl) rfl rfl) rfl rfl
    | plain y =>
      refine ⟨_, _, _, fun t ht =>
        (congrArg (fun p => (parse p _).read t) (hparse _ hcomma)).trans <|
          (read_identifier rfl rfl ht).trans <| (read_default rfl rfl t).trans <|
            (read_default rfl rfl t), rfl, ?_⟩
      exact Tidy.cons (Tidy.cons htidy'.tail.tail rfl rfl) rfl rfl

theorem parse_selector {l : List (Option Col)} {w : List (Token φ)} (h : SelectorSpelling l w)
    (htidy : Tidy above yylval) :
    ∃ v v' above' yylval', (on (8 :: base) vals above yylval).parse (w ++ [.word .FROM]) =
      on (49 :: 36 :: 8 :: base) (v' :: v :: vals) above' yylval' ∧ v.svCols = l ∧
        Tidy above' yylval' := by
  cases h with
  | all =>
    refine ⟨_, _, _, _, rfl, rfl, ?_⟩
    exact ⟨htidy.tail.tail.1, htidy.2⟩
  | cols h =>
    obtain ⟨v, above', yylval', hparse, rfl, htidy'⟩ :=
      read_colList base vals above yylval h htidy
    rw [parse_append]
    refine ⟨_, _, _, _, hparse (.word .FROM) (terminal_ne_dot (by decide)), rfl, ?_⟩
    exact ⟨htidy'.tail.1, htidy'.2⟩

/-! ### The `where` clause -/

/-- The left side of a condition and its operator. -/
theorem parse_lhs {c : Col} {op : SvCompOp} {w : List (Token φ)} {t : Word} {s : Nat}
    (hs : s = 55 ∨ s = 93) (hc : ColSpelling c w) (hop : OpSpelling op t) :
    ∃ v v' above' yylval', (on (s :: base) vals above yylval).parse (w ++ [.word t]) =
      on (100 :: 73 :: s :: base) (v' :: v :: vals) above' yylval' ∧ v.svCol = some c ∧
        v'.svCompOp = op := by
  rcases hs with rfl | rfl
  all_goals
    cases hc with
    | qualified x y => cases hop <;> exact ⟨_, _, _, _, rfl, rfl, rfl⟩
    | plain y =>
      have hdot : (Token.word t : Token φ).terminal ≠ .word .dot :=
        terminal_ne_dot (by cases hop <;> decide)
      cases hop <;> refine ⟨_, _, _, _, (read_identifier rfl rfl hdot).trans <|
        (read_default rfl rfl _).trans rfl, ?_, ?_⟩ <;> rfl

/-- The right side of a condition.  The condition is then complete, and joins those before it. -/
theorem read_rhs {e : Expr φ} {w : List (Token φ)} (h : ExprSpelling e w) (v v' : SemValue φ) :
    ∃ v'' above' yylval', (∀ t : Token φ, t.terminal ≠ .word .dot →
      ((on (100 :: 73 :: 55 :: base) (v' :: v :: vals) above yylval).parse w).read t =
        (on (72 :: 55 :: base) (v'' :: vals) above' yylval').read t) ∧
          v''.svConds = [some ⟨v.svCol, v'.svCompOp, some e⟩] := by
  cases h with
  | value h => cases h <;> exact ⟨_, _, _, fun t _ => rfl, rfl⟩
  | col h =>
    cases h with
    | qualified x y => exact ⟨_, _, _, fun t _ => rfl, rfl⟩
    | plain y =>
      exact ⟨_, _, _, fun t ht => (read_identifier rfl rfl ht).trans <|
        (read_default rfl rfl t).trans <| (read_default rfl rfl t).trans <|
          (read_default rfl rfl t).trans (read_default rfl rfl t), rfl⟩

theorem read_rhs_more {e : Expr φ} {w : List (Token φ)} (h : ExprSpelling e w)
    (v v' sep conds : SemValue φ) :
    ∃ v'' above' yylval', (∀ t : Token φ, t.terminal ≠ .word .dot →
      ((on (100 :: 73 :: 93 :: 72 :: 55 :: base) (v' :: v :: sep :: conds :: vals) above
        yylval).parse w).read t =
        (on (72 :: 55 :: base) (v'' :: vals) above' yylval').read t) ∧
          v''.svConds = conds.svConds ++ [some ⟨v.svCol, v'.svCompOp, some e⟩] := by
  cases h with
  | value h => cases h <;> exact ⟨_, _, _, fun t _ => rfl, rfl⟩
  | col h =>
    cases h with
    | qualified x y => exact ⟨_, _, _, fun t _ => rfl, rfl⟩
    | plain y =>
      exact ⟨_, _, _, fun t ht => (read_identifier rfl rfl ht).trans <|
        (read_default rfl rfl t).trans <| (read_default rfl rfl t).trans <|
          (read_default rfl rfl t).trans (read_default rfl rfl t), rfl⟩

theorem read_whereClause {l : List (Option (BinaryExpr φ))} {w : List (Token φ)}
    (h : WhereSpelling l w) :
    ∃ v above' yylval', (∀ t : Token φ, t.terminal ≠ .word .dot →
      ((on (55 :: base) vals above yylval).parse w).read t =
        (on (72 :: 55 :: base) (v :: vals) above' yylval').read t) ∧ v.svConds = l := by
  induction h with
  | one h =>
    obtain ⟨hc, hop, he⟩ := h
    rw [List.append_cons]
    obtain ⟨v, v', above', yylval', hlhs, hv, hv'⟩ :=
      parse_lhs base vals above yylval (.inl rfl) hc hop
    obtain ⟨v'', above'', yylval'', hrhs, hconds⟩ :=
      read_rhs base vals above' yylval' he v v'
    refine ⟨v'', above'', yylval'', fun t ht => ?_, ?_⟩
    · rw [parse_append, hlhs, hrhs t ht]
    · rw [hconds, hv, hv']
  | more _ hsep h ih =>
    obtain ⟨conds, above₀, yylval₀, hconds, rfl⟩ := ih
    obtain ⟨hc, hop, he⟩ := h
    obtain rfl := hsep
    rw [List.append_cons]
    obtain ⟨v, v', above', yylval', hlhs, hv, hv'⟩ :=
      parse_lhs (72 :: 55 :: base) (yylval₀ :: conds :: vals) above₀.tail yylval₀ (.inr rfl) hc hop
    obtain ⟨v'', above'', yylval'', hrhs, hl⟩ :=
      read_rhs_more base vals above' yylval' he v v' yylval₀ conds
    refine ⟨v'', above'', yylval'', fun t ht => ?_, ?_⟩
    · have hsep : (on (72 :: 55 :: base) (conds :: vals) above₀ yylval₀).read (.word .AND) =
          on (93 :: 72 :: 55 :: base) (yylval₀ :: conds :: vals) above₀.tail yylval₀ := rfl
      rw [← hrhs t ht, ← hlhs, ← hsep, ← hconds _ (terminal_ne_dot (by decide))]
      simp only [parse_append]
      rfl
    · rw [hl, hv, hv']

/-- The states in which a `where` clause may come next, and those after it. -/
inductive WhereState : Nat → Nat → Prop where
  | delete : WhereState 46 56
  | update : WhereState 58 75
  | select : WhereState 62 79

/-- A `where` clause, or none, in front of the semicolon. -/
theorem parse_optWhere {s g : Nat} (hs : WhereState s g) {conds : List (Option (BinaryExpr φ))}
    {w : List (Token φ)} (h : OptWhereSpelling conds w) (htidy : Tidy above yylval) :
    ∃ v above' yylval', (on (s :: base) vals above yylval).parse (w ++ [.word .semicolon]) =
      (on (g :: s :: base) (v :: vals) above' yylval').read (.word .semicolon) ∧
        v.svConds = conds := by
  cases h with
  | none =>
    -- The value of the absent clause is what the slot above the stack holds.
    have habove : (above.headD default).svConds = [] := by
      cases above with
      | nil => rfl
      | cons v above => exact htidy.1 v List.mem_cons_self
    cases hs <;> exact ⟨above.headD default, _, _, read_reduce rfl rfl rfl, habove⟩
  | @some _ w h =>
    obtain ⟨v, above', yylval', hparse, rfl⟩ :=
      read_whereClause (s :: base) (yylval :: vals) above.tail yylval h
    have hwhere : (on (s :: base) vals above yylval).read (.word .WHERE) =
        on (55 :: s :: base) (yylval :: vals) above.tail yylval := by
      cases hs <;> rfl
    have hread : (on (s :: base) vals above yylval).parse (.word .WHERE :: w ++ [.word .semicolon]) =
        (on (72 :: 55 :: s :: base) (v :: yylval :: vals) above' yylval').read (.word .semicolon) := by
      rw [parse_append, ← hparse _ (terminal_ne_dot (by decide)), ← hwhere]
      rfl
    cases hs <;> exact ⟨_, _, _, hread.trans (read_reduce rfl rfl rfl), rfl⟩

/-! ### Statements -/

theorem tidy_nil (h : yylval.svConds = []) : Tidy [] yylval :=
  ⟨fun _ hv => absurd hv List.not_mem_nil, h⟩

theorem parse_stmt {tree : Ast.TreeNode φ} {w : List (Token φ)} (h : StmtSpelling tree w) :
    (parse {} (w ++ [.word .semicolon])).status = .accepted (some tree) := by
  cases h with
  | showTables => rfl
  | txnBegin => rfl
  | txnCommit => rfl
  | txnAbort => rfl
  | txnRollback => rfl
  | dropTable => rfl
  | descTable => rfl
  | createIndex => rfl
  | dropIndex => rfl
  | createTable x h =>
    -- the words in front leave a fixed stack, on which the list that follows is read
    have hstart : (parse {} [.word .CREATE, .word .TABLE, .identifier x, .word .lparen]) =
        on (φ := φ) [51, 41, 23, 2, 0] [{ svStr := x }, { svStr := x }, {}, {}, {}] []
          { svStr := x } := rfl
    obtain ⟨v, above', yylval', hparse, rfl⟩ := parse_fieldList (φ := φ) h
    rw [parse_append, parse_append, parse_append, hstart, hparse]
    rfl
  | insertStmt x h =>
    have hstart : (parse {} [.word .INSERT, .word .INTO, .identifier x, .word .VALUES,
        .word .lparen]) =
        on (φ := φ) [70, 54, 45, 29, 5, 0]
          [{ svStr := x }, { svStr := x }, { svStr := x }, {}, {}, {}] [] { svStr := x } := rfl
    obtain ⟨v, above', yylval', hparse, rfl⟩ := parse_valueList h
    rw [parse_append, parse_append, parse_append, hstart, hparse]
    rfl
  | deleteStmt x hconds =>
    have hstart : (parse {} [.word .DELETE, .word .FROM, .identifier x]) =
        on (φ := φ) [46, 30, 6, 0] [{ svStr := x }, {}, {}, {}] [] { svStr := x } := rfl
    obtain ⟨v, above', yylval', hparse, rfl⟩ :=
      parse_optWhere _ _ _ _ .delete hconds (tidy_nil { svStr := x } rfl)
    rw [List.append_assoc, parse_append, hstart, hparse]
    rfl
  | updateStmt x hsets hconds =>
    have hstart : (parse {} [.word .UPDATE, .identifier x, .word .SET]) =
        on (φ := φ) [47, 31, 7, 0] [{ svStr := x }, { svStr := x }, {}, {}] [] { svStr := x } := rfl
    obtain ⟨v, above', yylval', hparse, rfl, htidy⟩ :=
      parse_setClauses hsets (tidy_nil { svStr := x } rfl)
    obtain ⟨v', above', yylval', hparse', rfl⟩ := parse_optWhere _ _ _ _ .update hconds htidy
    rw [List.append_assoc, List.append_assoc, parse_append, hstart, parse_append, hparse, hparse']
    rfl
  | @selectStmt _ w _ w' _ w'' hcols htabs hconds =>
    have hw : [.word .SELECT] ++ w ++ [.word .FROM] ++ w' ++ w'' ++ [.word .semicolon] =
        [.word .SELECT] ++ (w ++ [.word .FROM] ++ (w' ++ (w'' ++ [.word .semicolon]))) := by
      simp only [List.append_assoc]
    have hstart : (parse {} [.word .SELECT]) = on (φ := φ) [8, 0] [{}, {}] [] {} := rfl
    obtain ⟨v, v', above', yylval', hparse, rfl, htidy⟩ :=
      parse_selector _ _ _ _ hcols (tidy_nil {} rfl)
    obtain ⟨v'', above', yylval', hparse', rfl, htidy'⟩ := parse_tableList htabs htidy
    obtain ⟨v', above', yylval', hparse'', rfl⟩ := parse_optWhere _ _ _ _ .select hconds htidy'
    rw [hw, parse_append, hstart, parse_append, hparse, parse_append, hparse', hparse'']
    rfl

/-- The parser on a statement: it accepts with the tree, and the rest of the text is not read. -/
theorem parse_spelling {tree : Ast.TreeNode φ} {w : List (Token φ)} (h : Spelling tree w)
    (rest : List (Token φ)) : (parse {} (w ++ rest)).status = .accepted (some tree) := by
  have haccept : (parse {} w).status = .accepted (some tree) := by
    cases h with
    | stmt h => exact parse_stmt h
    | help => rfl
  have hstopped : (parse {} w).Stopped := by
    intro s hs
    rw [haccept] at hs
    cases hs
  rw [parse_append, hstopped.parse, haccept]

end Yyparse

/-- **The parser is faithful.**  Every tree of the grammar is spelled by some tokens; on any tokens
that spell it `yyparse` accepts and leaves exactly that tree in `parse_tree`; and no sequence of tokens
spells two trees. -/
theorem yyparse_spelling :
    (∀ tree : Ast.TreeNode φ, TreeNode.WellFormed tree → ∃ w, Spelling tree w) ∧
    (∀ (tree : Ast.TreeNode φ) (w rest : List (Token φ)), Spelling tree w →
      (Yyparse.parse {} (w ++ rest)).status = .accepted (some tree)) ∧
    ∀ (tree tree' : Ast.TreeNode φ) (w : List (Token φ)), Spelling tree w → Spelling tree' w →
      tree = tree' := by
  refine ⟨fun tree h => Spelling.exists h, fun tree w rest h => Yyparse.parse_spelling h rest,
    fun tree tree' w h h' => ?_⟩
  have heq := (Yyparse.parse_spelling h []).symm.trans (Yyparse.parse_spelling h' [])
  exact Option.some.inj (Status.accepted.inj heq)

/-- `UPDATE t SET a = 1, b = 'x';` -/
theorem yyparse_spelling_update :
    (Yyparse.parse {} ([.word .UPDATE, .identifier "t", .word .SET, .identifier "a", .word .equals,
      .valueInt 1, .word .comma, .identifier "b", .word .equals, .valueString "x",
      .word .semicolon] ++ [] : List (Token Float32))).status =
    .accepted (some (.updateStmt "t"
      [some ⟨"a", some (.intLit 1)⟩, some ⟨"b", some (.stringLit "x")⟩] [])) := by
  apply yyparse_spelling.2.1
  exact .stmt (.updateStmt "t"
    (.more (.one (.setClause "a" (.int 1))) rfl (.setClause "b" (.string "x"))) .none)

end Rucbase
