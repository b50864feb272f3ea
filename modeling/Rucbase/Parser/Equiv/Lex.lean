import Mathlib.Data.List.TakeWhile
import Rucbase.Parser.Lex
import Rucbase.Parser.Equiv.Yacc

/-!
# Requests and the start condition

A request reads the start condition that the request before it left, and leaves one itself.  A token
is returned in the condition `INITIAL` only, so a parser that stops in the middle of a text leaves
`INITIAL`; what is left at the end of the text is `STATE_COMMENT` when a comment is still open there
(`LeavesComment`).  The parser stops at the end of the text in any case.
-/

namespace Rucbase

open Ast ShiftReduce

variable {φ : Type} (atof : List Char → φ)

/-! ### Comments -/

/-- The text behind the end of the comment in which a text starts. -/
def afterComment : List Char → Option (List Char)
  | '*' :: '/' :: s => some s
  | _ :: s => afterComment s
  | [] => none

/-- A comment ends where `*/` stands for the first time. -/
theorem afterComment_eq_none {s : List Char} :
    afterComment s = none ↔ ¬['*', '/'] <:+: s := by
  fun_induction afterComment s with
  | case1 s =>
    have h : ['*', '/'] <:+: '*' :: '/' :: s := (List.prefix_append ['*', '/'] s).isInfix
    simp [h]
  | case2 c s hne ih =>
    rw [ih, List.infix_cons_iff, not_or]
    refine ⟨fun h => ⟨?_, h⟩, fun h => h.2⟩
    rintro ⟨t, ht⟩
    obtain ⟨rfl, hs⟩ := List.cons.inj ht
    exact hne t rfl hs.symm
  | case3 => simp

theorem afterComment_suffix {s s' : List Char} (h : afterComment s = some s') : s' <:+ s := by
  fun_induction afterComment s with
  | case1 s =>
    obtain rfl := Option.some.inj h
    exact (List.suffix_cons '/' _).trans (List.suffix_cons '*' _)
  | case2 c s hne ih => exact (ih h).trans (List.suffix_cons c s)
  | case3 => cases h

/-- The match in front of a comment. -/
theorem longestMatch_comment (s : List Char) :
    longestMatch ('/' :: '*' :: s) (lexRules atof .INITIAL) = (2, .begin .STATE_COMMENT) := by
  simp [longestMatch, lexRules, keywords, operators, literal, keyword, lineComment, whiteSpace,
    newLine, identifier, valueInt, valueFloat, valueString, runLength, oneOf, signLength]

theorem longestMatch_semicolon :
    longestMatch [';'] (lexRules atof .INITIAL) = (1, .ret (.word .semicolon)) := by
  simp [longestMatch, lexRules, keywords, operators, literal, keyword, lineComment, whiteSpace,
    newLine, identifier, valueInt, valueFloat, valueString, runLength, oneOf, signLength]

theorem yylex_skip (condition : StartCondition) (k : Nat) (s : List Char) :
    yylex atof condition k s = yylex atof condition 0 (s.drop k) := by
  induction s generalizing k with
  | nil =>
    rw [List.drop_nil]
    rfl
  | cons c s ih =>
    cases k with
    | zero => rfl
    | succ k => exact ih k

/-- Inside a comment all is ignored up to its end. -/
theorem yylex_comment (s : List Char) :
    yylex atof .STATE_COMMENT 0 s =
      match afterComment s with
      | some s => yylex atof .INITIAL 0 s
      | none => (.word .T_EOF, .STATE_COMMENT, []) := by
  fun_induction afterComment s with
  | case1 s => exact yylex_skip atof .INITIAL 1 _
  | case2 c s hne ih =>
    rw [← ih, yylex]
    have hliteral : literal ['*', '/'] (c :: s) = 0 := by
      refine if_neg fun h => ?_
      obtain ⟨t, ht⟩ := List.isPrefixOf_iff_prefix.mp h
      obtain ⟨rfl, hs⟩ := List.cons.inj ht
      exact hne t rfl hs.symm
    by_cases hc : c = '*'
    · subst hc
      simp [longestMatch, lexRules, hliteral, oneOf]
    · simp [longestMatch, lexRules, hliteral, oneOf, hc]
  | case3 => rfl

/-! ### Matches -/

/-- A match is one of some rule, unless there is none. -/
theorem longestMatch_cases {s : List Char} {rules : List (LexRule φ)} {n : Nat} {action : LexAction φ}
    (h : longestMatch s rules = (n, action)) :
    (n = 0 ∧ action = .ignore) ∨
      ∃ rule ∈ rules, n = rule.pattern s ∧ 0 < n ∧ action = rule.action (s.take n) := by
  induction rules with
  | nil =>
    obtain ⟨rfl, rfl⟩ := Prod.mk.inj h
    exact .inl ⟨rfl, rfl⟩
  | cons rule rules ih =>
    rw [longestMatch] at h
    split at h
    case isTrue =>
      rcases ih h with h | ⟨rule', hmem, h⟩
      · exact .inl h
      · exact .inr ⟨rule', List.mem_cons_of_mem rule hmem, h⟩
    case isFalse hn =>
      obtain ⟨rfl, rfl⟩ := Prod.mk.inj h
      exact .inr ⟨rule, List.mem_cons_self, rfl, by omega, rfl⟩

/-- Only `/*` starts a comment. -/
theorem longestMatch_begin {s : List Char} {n : Nat} {condition : StartCondition}
    (h : longestMatch s (lexRules atof .INITIAL) = (n, .begin condition)) :
    ∃ v, s = '/' :: '*' :: v := by
  rcases longestMatch_cases h with ⟨-, h⟩ | ⟨rule, hmem, hn, hpos, haction⟩
  · cases h
  · simp only [lexRules, List.mem_append, List.mem_cons, List.mem_map, List.not_mem_nil,
      or_false] at hmem
    rcases hmem with (((rfl | rfl | rfl | rfl) | ⟨_, _, rfl⟩) | ⟨_, _, rfl⟩) | rfl | rfl | rfl | rfl | rfl
    · have hn : n = literal ['/', '*'] s := hn
      have hprefix : ['/', '*'].isPrefixOf s := by
        by_contra hne
        have hzero : literal ['/', '*'] s = 0 := if_neg hne
        omega
      obtain ⟨v, hv⟩ := List.isPrefixOf_iff_prefix.mp hprefix
      exact ⟨v, hv.symm⟩
    all_goals cases haction

/-- The text that a token is made of is not empty. -/
theorem longestMatch_ret {s : List Char} {rules : List (LexRule φ)} {n : Nat} {token : Token φ}
    (h : longestMatch s rules = (n, .ret token)) : 0 < n := by
  rcases longestMatch_cases h with ⟨-, h⟩ | ⟨_, _, _, hpos, _⟩
  · cases h
  · exact hpos

/-- What the scanner does first, by the match at the start of a text. -/
theorem yylex_ignore {c : Char} {s : List Char} {n : Nat}
    (h : longestMatch (c :: s) (lexRules atof .INITIAL) = (n, .ignore)) :
    yylex atof .INITIAL 0 (c :: s) = yylex atof .INITIAL 0 (s.drop (n - 1)) := by
  rw [yylex, h, ← yylex_skip]

theorem yylex_begin (v : List Char) :
    yylex atof .INITIAL 0 ('/' :: '*' :: v) = yylex atof .STATE_COMMENT 0 v := by
  rw [yylex, longestMatch_comment]
  exact yylex_skip atof .STATE_COMMENT 1 _

/-- A comment that ends is passed over. -/
theorem yylex_of_afterComment {v s : List Char} (h : afterComment v = some s) :
    yylex atof .INITIAL 0 ('/' :: '*' :: v) = yylex atof .INITIAL 0 s := by
  rw [yylex_begin, yylex_comment, h]

/-! ### Scanning a text -/

/-- The scanner goes from one point of a text to a later one, both outside of comments, and returns
tokens on the way. -/
inductive Scans : List Char → List (Token φ) → List Char → Prop where
  | refl (s) : Scans s [] s
  | ignore {c s n tokens rest} :
      longestMatch (c :: s) (lexRules atof .INITIAL) = (n, .ignore) →
      Scans (s.drop (n - 1)) tokens rest → Scans (c :: s) tokens rest
  | token {c s n token tokens rest} :
      longestMatch (c :: s) (lexRules atof .INITIAL) = (n, .ret token) →
      Scans ((c :: s).drop n) tokens rest → Scans (c :: s) (token :: tokens) rest
  | comment {v s tokens rest} : afterComment v = some s → Scans s tokens rest →
      Scans ('/' :: '*' :: v) tokens rest

theorem Scans.suffix {s rest : List Char} {tokens : List (Token φ)} (h : Scans atof s tokens rest) :
    rest <:+ s := by
  induction h with
  | refl s => exact List.suffix_refl s
  | ignore _ _ ih => exact (ih.trans (List.drop_suffix _ _)).trans (List.suffix_cons _ _)
  | token _ _ ih => exact ih.trans (List.drop_suffix _ _)
  | comment hafter _ ih =>
    have hv := ih.trans (afterComment_suffix hafter)
    exact (hv.trans (List.suffix_cons '*' _)).trans (List.suffix_cons '/' _)

variable [Inhabited φ]

/-- The request leaves a comment open: the parser still asks for tokens where a comment starts, and
the comment does not end. -/
def LeavesComment (data : List Char) : Prop :=
  ∃ tokens v s, Scans atof data tokens ('/' :: '*' :: v) ∧
    (Yyparse.parse {} tokens).status = .wants s ∧ ¬['*', '/'] <:+: v

/-! ### The parser at the end of a text -/

/-- Only before any other token can the end of the text be shifted. -/
theorem shift_T_EOF : ∀ row ∈ yytable, ∀ state ∈ row.shift.lookup (.word .T_EOF), state = 15 := by
  decide

theorem settle_T_EOF (s s' : Stack (SemValue φ)) (v : SemValue φ) :
    yacc.settle (s.push v 15) ≠ .wants s' := by
  obtain ⟨states, vals, above⟩ := s
  cases states with
  | nil => nofun
  | cons state states => nofun

theorem reduce_ne_wants {s : Stack (SemValue φ)} {r : Rule}
    {status : Status (SemValue φ) (Option (Ast.TreeNode φ))} (h : yacc.reduce s r = .inr status)
    (s' : Stack (SemValue φ)) : status ≠ .wants s' := by
  rintro rfl
  rw [Grammar.reduce] at h
  simp only at h
  repeat' split at h
  all_goals cases h

theorem feed_T_EOF (n : Nat) (s s' : Stack (SemValue φ)) (v : SemValue φ) :
    yacc.feedRounds (.word .T_EOF) v n s ≠ .wants s' := by
  induction n generalizing s with
  | zero =>
    intro h
    cases h
  | succ n ih =>
    rw [Grammar.feedRounds]
    cases hshift : (yacc (φ := φ).row s.top).shift.lookup (.word .T_EOF) with
    | some state =>
      have hstate : state = 15 := by
        have hshift : (yytable.getD s.top {}).shift.lookup (.word .T_EOF) = some state := hshift
        rcases Nat.lt_or_ge s.top yytable.length with hlt | hge
        · rw [List.getD_eq_getElem _ _ hlt] at hshift
          exact shift_T_EOF _ (List.getElem_mem hlt) state hshift
        · rw [List.getD_eq_default _ _ hge] at hshift
          cases hshift
      rw [hstate]
      exact settle_T_EOF s s' v
    | none =>
      cases hr : yacc (φ := φ).ruleOn s (.word .T_EOF) with
      | none =>
        intro h
        cases h
      | some r =>
        cases hs : yacc.reduce s r with
        | inr status => simpa only [hs] using reduce_ne_wants hs s'
        | inl s₁ => simpa only [hs] using ih s₁

/-- **The parser stops at the end of the text.** -/
theorem read_T_EOF (p : Yyparse φ) : (p.read (.word .T_EOF)).Stopped := by
  intro s'
  rw [Yyparse.read]
  split
  case h_1 s hs => exact feed_T_EOF _ s s' _
  case h_2 h => exact h s'

/-! ### Requests -/

theorem yyparse_of_stopped {p : Yyparse φ} (h : p.Stopped) (n : Nat) (condition : StartCondition)
    (s : List Char) : yyparse atof n p condition s = (⟨[], p.status⟩, condition) := by
  cases n with
  | zero => rfl
  | succ n =>
    rw [yyparse]
    split
    case h_1 s hs => exact absurd hs (h s)
    case h_2 => rfl

/-- The parser sees of a text what the scanner returns. -/
theorem yyparse_congr (n : Nat) (p : Yyparse φ) {s s' : List Char}
    (h : yylex atof .INITIAL 0 s = yylex atof .INITIAL 0 s') :
    yyparse atof n p .INITIAL s = yyparse atof n p .INITIAL s' := by
  cases n with
  | zero => rfl
  | succ n => rw [yyparse, yyparse, h]

/-- One token. -/
theorem yyparse_wants {n : Nat} {p : Yyparse φ} {st : Stack (SemValue φ)} (hp : p.status = .wants st)
    {s rest : List Char} {token : Token φ} {condition condition' : StartCondition}
    (h : yylex atof condition 0 s = (token, condition', rest)) :
    (yyparse atof (n + 1) p condition s).2 =
      (yyparse atof n (p.read token) condition' rest).2 := by
  rw [yyparse, hp, h]

/-- A comment that does not end is left open, once the parser comes to it. -/
theorem condition_of_scans {s rest : List Char} {tokens : List (Token φ)}
    (h : Scans atof s tokens rest) {v : List Char} (hrest : rest = '/' :: '*' :: v)
    (hv : ¬['*', '/'] <:+: v) {n : Nat} (hn : s.length ≤ n) {p : Yyparse φ} {st : Stack (SemValue φ)}
    (hst : (p.parse tokens).status = .wants st) :
    (yyparse atof (n + 1) p .INITIAL s).2 = .STATE_COMMENT := by
  induction h generalizing n p with
  | refl s =>
    subst hrest
    have hst : p.status = .wants st := hst
    have hlex : yylex atof .INITIAL 0 ('/' :: '*' :: v) = (.word .T_EOF, .STATE_COMMENT, []) := by
      rw [yylex_begin, yylex_comment, afterComment_eq_none.mpr hv]
    rw [yyparse_wants atof hst hlex, yyparse_of_stopped atof (read_T_EOF p)]
  | ignore hmatch _ ih =>
    rw [yyparse_congr atof (n + 1) p (yylex_ignore atof hmatch)]
    refine ih hrest ?_ hst
    rw [List.length_drop]
    rw [List.length_cons] at hn
    omega
  | @token c s k token tokens rest hmatch _ ih =>
    -- The parser asks for this token, or it would not ask for one behind it.
    obtain ⟨st', hp⟩ : ∃ st', p.status = .wants st' := by
      by_contra hnone
      have hstopped : p.Stopped := fun st' hst' => hnone ⟨st', hst'⟩
      rw [hstopped.parse] at hst
      exact hstopped st hst
    have hlex : yylex atof .INITIAL 0 (c :: s) = (token, .INITIAL, (c :: s).drop k) := by
      rw [yylex, hmatch]
    have hk := longestMatch_ret hmatch
    rw [yyparse_wants atof hp hlex]
    rw [List.length_cons] at hn
    obtain ⟨m, rfl⟩ : ∃ m, n = m + 1 := ⟨n - 1, by omega⟩
    refine ih hrest ?_ hst
    rw [List.length_drop, List.length_cons]
    omega
  | @comment v' s tokens rest hafter _ ih =>
    rw [yyparse_congr atof (n + 1) p (yylex_of_afterComment atof hafter)]
    refine ih hrest ?_ hst
    have hle := (afterComment_suffix hafter).length_le
    rw [List.length_cons, List.length_cons] at hn
    omega

/-- The parser that leaves a comment open has come to it. -/
theorem scans_of_condition {s : List Char} {n : Nat} (hn : s.length ≤ n) {p : Yyparse φ}
    (h : (yyparse atof (n + 1) p .INITIAL s).2 = .STATE_COMMENT) :
    ∃ tokens v st, Scans atof s tokens ('/' :: '*' :: v) ∧
      (p.parse tokens).status = .wants st ∧ ¬['*', '/'] <:+: v := by
  induction hlen : s.length using Nat.strongRecOn generalizing s n p with
  | ind len ih =>
    subst hlen
    by_cases hstopped : p.Stopped
    · rw [yyparse_of_stopped atof hstopped] at h
      cases h
    obtain ⟨st, hp⟩ : ∃ st, p.status = .wants st := by
      simpa [Yyparse.Stopped] using hstopped
    cases s with
    | nil =>
      have hlex : yylex atof .INITIAL 0 [] = (.word .T_EOF, .INITIAL, []) := rfl
      rw [yyparse_wants atof hp hlex, yyparse_of_stopped atof (read_T_EOF p)] at h
      cases h
    | cons c s =>
      rw [List.length_cons] at hn
      rcases hmatch : longestMatch (c :: s) (lexRules atof .INITIAL) with ⟨k, action⟩
      -- white space, a token, or a comment: what is left of the text is shorter in each case
      cases action with
      | ignore =>
        rw [yyparse_congr atof (n + 1) p (yylex_ignore atof hmatch)] at h
        have hlt : (s.drop (k - 1)).length ≤ s.length := by
          rw [List.length_drop]
          omega
        obtain ⟨tokens, v, st, hscans, hst, hv⟩ := ih _ (Nat.lt_succ_of_le hlt) (by omega) h rfl
        exact ⟨tokens, v, st, .ignore hmatch hscans, hst, hv⟩
      | ret token =>
        have hlex : yylex atof .INITIAL 0 (c :: s) = (token, .INITIAL, (c :: s).drop k) := by
          rw [yylex, hmatch]
        have hk := longestMatch_ret hmatch
        rw [yyparse_wants atof hp hlex] at h
        have hlt : ((c :: s).drop k).length ≤ s.length := by
          rw [List.length_drop, List.length_cons]
          omega
        obtain ⟨m, rfl⟩ : ∃ m, n = m + 1 := ⟨n - 1, by omega⟩
        obtain ⟨tokens, v, st, hscans, hst, hv⟩ := ih _ (Nat.lt_succ_of_le hlt) (by omega) h rfl
        exact ⟨token :: tokens, v, st, .token hmatch hscans, hst, hv⟩
      | begin condition =>
        obtain ⟨v, hv⟩ := longestMatch_begin atof hmatch
        obtain ⟨rfl, rfl⟩ := List.cons.inj hv
        cases hafter : afterComment v with
        | none => exact ⟨[], v, st, .refl _, hp, afterComment_eq_none.mp hafter⟩
        | some s =>
          have hlt : s.length < ('*' :: v).length :=
            Nat.lt_succ_of_le (afterComment_suffix hafter).length_le
          rw [yyparse_congr atof (n + 1) p (yylex_of_afterComment atof hafter)] at h
          obtain ⟨tokens, v', st, hscans, hst, hv'⟩ := ih _ (Nat.lt_succ_of_lt hlt) (by omega) h rfl
          exact ⟨tokens, v', st, .comment hafter hscans, hst, hv'⟩

/-- **What a request leaves.**  The scanner is left inside a comment exactly when the parser, still
asking for tokens, comes to a comment that does not end. -/
theorem yyparse_condition (data : List Char) :
    (yyparse atof (data.length + 1) {} .INITIAL data).2 = .STATE_COMMENT ↔ LeavesComment atof data := by
  constructor
  · exact scans_of_condition atof (Nat.le_refl _)
  · rintro ⟨tokens, v, st, hscans, hst, hv⟩
    exact condition_of_scans atof hscans rfl hv (Nat.le_refl _) hst

/-- The request `exit` has no comment. -/
theorem not_leavesComment_exit : ¬LeavesComment atof ['e', 'x', 'i', 't'] := by
  rintro ⟨tokens, v, st, hscans, -⟩
  have hmem : '/' ∈ ['e', 'x', 'i', 't'] := hscans.suffix.subset List.mem_cons_self
  revert hmem
  decide

/-! ### Requests -/

/-- The null character cuts a request that fills the buffer. -/
theorem ClientRequest.length_dataRecv_lt (request : ClientRequest) :
    request.dataRecv.length < bufferLength := by
  have hle : request.dataRecv.length ≤ request.received.length :=
    (List.takeWhile_prefix _).length_le
  rcases request.ends with hlt | hnull
  · exact Nat.lt_of_le_of_lt hle hlt
  · have hne : request.dataRecv.length ≠ request.received.length := by
      intro heq
      have hall := (List.takeWhile_prefix _).eq_of_length heq
      rw [← hall] at hnull
      simpa using List.mem_takeWhile_imp hnull
    exact Nat.lt_of_lt_of_le (Nat.lt_of_le_of_ne hle hne) request.fits

theorem ClientRequest.dataRecv_char (request : ClientRequest) {c : Char}
    (h : c ∈ request.dataRecv) : c ≠ '\x00' ∧ c.toNat < 256 := by
  have hne := List.mem_takeWhile_imp h
  exact ⟨by simpa using hne, request.byte c ((List.takeWhile_prefix _).subset h)⟩

/-- Every string of bytes that is shorter than the buffer can be received. -/
theorem exists_request {data : List Char} (hchar : ∀ c ∈ data, c ≠ '\x00' ∧ c.toNat < 256)
    (hlength : data.length < bufferLength) :
    ∃ request : ClientRequest, request.dataRecv = data := by
  have hbyte : ∀ c ∈ data ++ ['\x00'], c.toNat < 256 := by
    simp only [List.forall_mem_append, List.forall_mem_singleton]
    exact ⟨fun c hc => (hchar c hc).2, by decide⟩
  have hfits : (data ++ ['\x00']).length ≤ bufferLength := by
    rw [List.length_append, List.length_singleton]
    exact hlength
  refine ⟨⟨data ++ ['\x00'], by simp, hbyte, hfits, .inr (by simp)⟩, ?_⟩
  rw [ClientRequest.dataRecv, List.takeWhile_append_of_pos]
  · simp
  · intro c hc
    simpa using (hchar c hc).1

/-- A request that is handled outside of comments. -/
theorem clientHandler_condition (request : ClientRequest) :
    (clientHandler atof .INITIAL request).2 = .INITIAL ↔ ¬LeavesComment atof request.dataRecv := by
  have hcases (condition : StartCondition) : condition = .INITIAL ↔ condition ≠ .STATE_COMMENT := by
    cases condition <;> simp
  rw [clientHandler]
  split
  case isTrue hexit =>
    rw [hexit]
    exact iff_of_true rfl (not_leavesComment_exit atof)
  case isFalse => rw [← yyparse_condition, hcases]

theorem conditionAfter_append (history : List ClientRequest) (request : ClientRequest) :
    conditionAfter atof (history ++ [request]) =
      (clientHandler atof (conditionAfter atof history) request).2 := by
  rw [conditionAfter, List.foldl_append]
  rfl

theorem conditionAfter_eq_initial {history : List ClientRequest} :
    (∀ before, before <+: history → conditionAfter atof before = .INITIAL) ↔
      ∀ request ∈ history, ¬LeavesComment atof request.dataRecv := by
  induction history using List.reverseRecOn with
  | nil =>
    refine iff_of_true (fun before hbefore => ?_) (fun _ h => absurd h List.not_mem_nil)
    rw [List.prefix_nil.mp hbefore]
    rfl
  | append_singleton history request ih =>
    simp only [List.prefix_concat_iff, List.mem_append, List.mem_singleton]
    constructor
    · intro h request' hrequest
      have hbefore := h history (.inr (List.prefix_refl history))
      rcases hrequest with hrequest | rfl
      · exact ih.mp (fun before hb => h before (.inr hb)) request' hrequest
      · have hafter := h _ (.inl rfl)
        rw [conditionAfter_append, hbefore] at hafter
        exact (clientHandler_condition atof request').mp hafter
    · rintro h before (rfl | hbefore)
      · have hinit := ih.mpr (fun request' hr => h request' (.inl hr)) history (List.prefix_refl _)
        rw [conditionAfter_append, hinit]
        exact (clientHandler_condition atof request).mpr (h request (.inr rfl))
      · exact ih.mpr (fun request' hr => h request' (.inl hr)) before hbefore

/-- The first token of a request. -/
theorem clientHandler_head (condition : StartCondition) {request : ClientRequest}
    (hexit : request.dataRecv ≠ ['e', 'x', 'i', 't']) :
    (clientHandler atof condition request).1.bind (fun response => response.tokens.head?) =
      some (yylex atof condition 0 request.dataRecv).1 := by
  rw [clientHandler, if_neg hexit, yyparse]
  rfl

/-- The request `;`. -/
def semicolon : ClientRequest where
  received := [';']
  nonempty := by decide
  byte := by simp
  fits := by decide
  ends := by decide

/-- Inside a comment a semicolon is not a token. -/
theorem clientHandler_semicolon :
    (clientHandler atof .STATE_COMMENT semicolon).1 ≠
      (clientHandler atof .INITIAL semicolon).1 := by
  intro h
  have hdata : semicolon.dataRecv = [';'] := by decide
  have hexit : semicolon.dataRecv ≠ ['e', 'x', 'i', 't'] := by decide
  have hcomment := clientHandler_head atof .STATE_COMMENT hexit
  have hinitial := clientHandler_head atof .INITIAL hexit
  rw [h, hinitial, hdata] at hcomment
  have hlex : (yylex atof .INITIAL 0 [';']).1 = .word .semicolon := by
    rw [yylex, longestMatch_semicolon]
  rw [hlex] at hcomment
  cases hcomment

/-- **Requests and histories.**  What comes of a request is the same after any two histories, and
after the requests up to any point of them, if and only if no request of the two leaves a comment
open. -/
theorem respond_eq_iff (history history' : List ClientRequest) :
    (∀ before before', before <+: history → before' <+: history' →
      ∀ request, respond atof before request = respond atof before' request) ↔
    ∀ request ∈ history ++ history', ¬LeavesComment atof request.dataRecv := by
  have hinit (before : List ClientRequest) :
      (∀ request, respond atof before request = respond atof [] request) →
        conditionAfter atof before = .INITIAL := by
    intro h
    by_contra hcomment
    have hcomment : conditionAfter atof before = .STATE_COMMENT := by
      cases hc : conditionAfter atof before with
      | INITIAL => exact absurd hc hcomment
      | STATE_COMMENT => rfl
    have hsemicolon := h semicolon
    rw [respond, hcomment] at hsemicolon
    exact clientHandler_semicolon atof hsemicolon
  constructor
  · intro h request hrequest
    rcases List.mem_append.mp hrequest with hrequest | hrequest
    · refine (conditionAfter_eq_initial atof).mp (fun before hb => hinit before ?_) request hrequest
      exact h before [] hb List.nil_prefix
    · refine (conditionAfter_eq_initial atof).mp (fun before hb => hinit before ?_) request hrequest
      exact fun request => (h [] before List.nil_prefix hb request).symm
  · intro h before before' hbefore hbefore' request
    have h1 := (conditionAfter_eq_initial atof).mpr
      (fun request hr => h request (List.mem_append_left _ hr)) before hbefore
    have h2 := (conditionAfter_eq_initial atof).mpr
      (fun request hr => h request (List.mem_append_right _ hr)) before' hbefore'
    rw [respond, respond, h1, h2]

/-- The request `/*`. -/
def openComment : ClientRequest where
  received := ['/', '*']
  nonempty := by decide
  byte := by simp
  fits := by decide
  ends := by decide

/-- A request with an open comment takes the next one with it. -/
theorem not_respond_eq : ¬∀ (history history' : List ClientRequest) (request : ClientRequest),
    respond (fun _ => (0 : Float32)) history request =
      respond (fun _ => (0 : Float32)) history' request := by
  intro h
  have hdata : openComment.dataRecv = ['/', '*'] := by decide
  have hopen : LeavesComment (fun _ => (0 : Float32)) openComment.dataRecv := by
    rw [hdata]
    exact ⟨[], [], _, .refl _, rfl, by decide⟩
  have hcondition : conditionAfter (fun _ => (0 : Float32)) ([] ++ [openComment]) =
      .STATE_COMMENT := by
    rw [conditionAfter_append]
    cases hleft : (clientHandler (fun _ => (0 : Float32)) .INITIAL openComment).2 with
    | INITIAL => exact absurd hopen ((clientHandler_condition _ _).mp hleft)
    | STATE_COMMENT => exact hleft
  have hsemicolon := h ([] ++ [openComment]) [] semicolon
  rw [respond, hcondition] at hsemicolon
  exact clientHandler_semicolon _ hsemicolon

end Rucbase
