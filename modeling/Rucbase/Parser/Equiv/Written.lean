import Mathlib.Tactic.Linarith
import Rucbase.Parser.Equiv.Text

/-!
# Which trees come of requests

What the scanner returns for a text is written there: each token stands in it as one of its lexemes
(`lexeme_of_yylex`), and with blanks for all the rest of the text it is written out from its tokens
(`text_of_yyparse`).  So the trees that a request can lead to are those with a spelling that is
written out in some request (`respond_accepts_iff`), and a request that is written out from its
tokens leads to the tree they spell (`respond_text`).
-/

namespace Rucbase

open Ast ShiftReduce

variable {φ : Type} (atof : List Char → φ)

/-! ### Longest matches -/

theorem le_longestMatch {s : List Char} {rules : List (LexRule φ)} {rule : LexRule φ}
    (h : rule ∈ rules) : rule.pattern s ≤ (longestMatch s rules).1 := by
  induction rules with
  | nil => exact absurd h List.not_mem_nil
  | cons r rules ih =>
    rw [longestMatch]
    rcases List.mem_cons.mp h with rfl | h
    · split
      case isTrue hlt => omega
      case isFalse => exact Nat.le_refl _
    · have hle := ih h
      split
      case isTrue => exact hle
      case isFalse hge => exact hle.trans (by omega)

/-- A run of characters, up to its end. -/
theorem runLength_split (p : Char → Bool) (s : List Char) :
    ∃ w rest, s = w ++ rest ∧ runLength p s = w.length ∧ (∀ c ∈ w, p c) ∧ NotAhead p rest := by
  induction s with
  | nil =>
    refine ⟨[], [], rfl, rfl, by simp, ?_⟩
    rintro c ⟨⟩
  | cons c s ih =>
    by_cases hc : p c
    · obtain ⟨w, rest, rfl, hlength, hw, hrest⟩ := ih
      refine ⟨c :: w, rest, rfl, ?_, ?_, hrest⟩
      · rw [runLength, List.takeWhile_cons, if_pos hc]
        exact congrArg (· + 1) hlength
      · simp only [List.forall_mem_cons]
        exact ⟨hc, hw⟩
    · refine ⟨[], c :: s, rfl, ?_, by simp, ?_⟩
      · rw [runLength, List.takeWhile_cons, if_neg hc]
      · rintro d ⟨⟩
        simpa using hc

theorem identifier_split {s : List Char} (h : 0 < identifier s) :
    ∃ w rest, s = w ++ rest ∧ identifier s = w.length ∧ IsName w ∧ NotAhead wordChar rest := by
  cases s with
  | nil => exact absurd h (Nat.lt_irrefl 0)
  | cons c s =>
    by_cases hc : c.isAlpha
    · obtain ⟨w, rest, rfl, hlength, hw, hrest⟩ := runLength_split wordChar s
      refine ⟨c :: w, rest, rfl, ?_, ⟨c, w, rfl, hc, hw⟩, hrest⟩
      rw [identifier, if_pos hc, List.length_cons, ← hlength, Nat.add_comm]
      rfl
    · rw [identifier_of_head (by simpa using hc)] at h
      exact absurd h (Nat.lt_irrefl 0)

/-- A name goes on as long as there are characters of names. -/
theorem lt_identifier {w : List Char} {c : Char} (hw : IsName w) (hc : wordChar c)
    (rest : List Char) :
    w.length < identifier (w ++ c :: rest) := by
  obtain ⟨d, s, rfl, hd, hs⟩ := hw
  have hrun : s.length < runLength wordChar (s ++ c :: rest) := by
    rw [runLength, List.takeWhile_append_of_pos hs, List.takeWhile_cons, if_pos hc,
      List.length_append, List.length_cons]
    omega
  rw [List.cons_append, identifier, if_pos hd, List.length_cons, Nat.add_comm 1]
  exact Nat.succ_lt_succ hrun

theorem valueInt_split {s : List Char} (h : 0 < valueInt s) :
    ∃ w rest, s = w ++ rest ∧ valueInt s = w.length ∧ IsNumber w ∧
      NotAhead Char.isDigit rest := by
  have hsign : ∃ sign t, s = sign ++ t ∧ signLength s = sign.length ∧
      (sign = [] ∨ sign = ['+'] ∨ sign = ['-']) := by
    cases s with
    | nil => exact ⟨[], [], rfl, rfl, Or.inl rfl⟩
    | cons c s =>
      by_cases hplus : c = '+'
      · subst hplus
        exact ⟨['+'], s, rfl, rfl, Or.inr (Or.inl rfl)⟩
      by_cases hminus : c = '-'
      · subst hminus
        exact ⟨['-'], s, rfl, rfl, Or.inr (Or.inr rfl)⟩
      refine ⟨[], c :: s, rfl, ?_, Or.inl rfl⟩
      simp [signLength, oneOf, hplus, hminus]
  obtain ⟨sign, t, rfl, hlength, hsign⟩ := hsign
  obtain ⟨digits, rest, rfl, hdigits, hall, hrest⟩ := runLength_split Char.isDigit t
  simp only [valueInt, hlength, List.drop_left, hdigits] at h ⊢
  by_cases hzero : digits.length = 0
  · rw [if_pos hzero] at h
    exact absurd h (Nat.lt_irrefl 0)
  · refine ⟨sign ++ digits, rest, (List.append_assoc _ _ _).symm, ?_,
      ⟨sign, digits, rfl, hsign, ?_, hall⟩, hrest⟩
    · rw [if_neg hzero, List.length_append]
    · rintro rfl
      exact hzero rfl

theorem valueFloat_split {s : List Char} (h : 0 < valueFloat s) :
    ∃ w digits rest, s = w ++ '.' :: digits ++ rest ∧
      valueFloat s = (w ++ '.' :: digits).length ∧ IsNumber w ∧ (∀ c ∈ digits, c.isDigit) ∧
        NotAhead Char.isDigit rest := by
  have hpos : 0 < valueInt s := by
    refine Nat.pos_of_ne_zero fun hzero => ?_
    rw [valueFloat_of_valueInt hzero] at h
    exact Nat.lt_irrefl 0 h
  obtain ⟨w, t, rfl, hlength, hw, -⟩ := valueInt_split hpos
  rw [hlength] at hpos
  rw [valueFloat, hlength, List.drop_left] at h ⊢
  cases t with
  | nil => exact absurd h (Nat.lt_irrefl 0)
  | cons c t =>
    by_cases hc : c = '.'
    · subst hc
      obtain ⟨digits, rest, rfl, hdigits, hall, hrest⟩ := runLength_split Char.isDigit t
      refine ⟨w, digits, rest, by simp, ?_, hw, hall, hrest⟩
      simp only [if_neg hpos.ne', hdigits, List.length_append, List.length_cons]
      omega
    · exact absurd h (by simp [hc])

theorem valueString_split {s : List Char} (h : 0 < valueString s) :
    ∃ w rest, s = '\'' :: (w ++ ['\'']) ++ rest ∧ valueString s = w.length + 2 ∧ '\'' ∉ w := by
  cases s with
  | nil => exact absurd h (Nat.lt_irrefl 0)
  | cons c s =>
    by_cases hc : c = '\''
    · subst hc
      obtain ⟨w, rest, rfl, hlength, hw, hrest⟩ := runLength_split (· ≠ '\'') s
      simp only [valueString, hlength] at h ⊢
      cases rest with
      | nil => exact absurd h (by simp)
      | cons d rest =>
        obtain rfl : d = '\'' := by simpa using hrest d rfl
        refine ⟨w, rest, by simp, if_pos (by simp), fun hmem => ?_⟩
        exact absurd (hw _ hmem) (by simp)
    · rw [valueString_of_head hc] at h
      exact absurd h (Nat.lt_irrefl 0)

/-! ### Matches are lexemes -/

section Matches

variable {s : List Char} {n : Nat}

theorem lexeme_of_keyword {k : String × Word} (hk : k ∈ keywords) (hn : n = keyword k.1 s)
    (hpos : 0 < n) (hidentifier : identifier s ≤ n) :
    ∃ w rest, s = w ++ rest ∧ n = w.length ∧ Lexeme atof (.word k.2) w rest := by
  have hstart : k.1.toList <+: s.map Char.toUpper := by
    by_contra hnot
    rw [keyword, literal_eq_zero hnot] at hn
    omega
  obtain ⟨more, hmore⟩ := hstart
  rw [keyword, ← hmore, literal_append] at hn
  have hlength : n ≤ s.length := by
    have := congrArg List.length hmore
    rw [List.length_append, List.length_map] at this
    omega
  have hw : (s.take n).map Char.toUpper = k.1.toList := by
    rw [List.map_take, ← hmore, hn, List.take_left]
  refine ⟨s.take n, s.drop n, (List.take_append_drop n s).symm,
    (List.length_take_of_le hlength).symm, .keyword hk hw fun c hc => ?_⟩
  -- a name would be the longer match
  by_contra hword
  obtain ⟨rest, hrest⟩ := List.head?_eq_some_iff.mp hc
  have hlt := lt_identifier (isName_of_keyword hk hw) (by simpa using hword) rest
  rw [← hrest, List.take_append_drop, List.length_take_of_le hlength] at hlt
  omega

theorem lexeme_of_operator {op : List Char × Word} (hop : op ∈ operators) (hn : n = literal op.1 s)
    (hpos : 0 < n) (hle : ∀ op ∈ operators, literal op.1 s ≤ n) :
    ∃ w rest, s = w ++ rest ∧ n = w.length ∧ Lexeme atof (.word op.2) w rest := by
  have hstart : op.1 <+: s := by
    by_contra hnot
    rw [literal_eq_zero hnot] at hn
    omega
  obtain ⟨rest, rfl⟩ := hstart
  rw [literal_append] at hn
  refine ⟨op.1, rest, rfl, hn, .operator hop fun op' hop' hstart' => ?_⟩
  obtain ⟨more, hmore⟩ := hstart'
  have hlonger := hle op' hop'
  rwa [← hmore, literal_append, hn] at hlonger

theorem lexeme_of_identifier (hn : n = identifier s) (hpos : 0 < n)
    (h : longestMatch s (lexRules atof .INITIAL) =
      (n, .ret (.identifier (String.ofList (s.take n))))) :
    ∃ w rest, s = w ++ rest ∧ n = w.length ∧
      Lexeme atof (.identifier (String.ofList (s.take n))) w rest := by
  obtain ⟨w, rest, rfl, hlength, hw, hrest⟩ := identifier_split (hn ▸ hpos)
  refine ⟨w, rest, rfl, hn.trans hlength, ?_⟩
  rw [hn, hlength, List.take_left]
  refine .identifier hw (fun k hk heq => ?_) hrest
  -- the keyword would have come first
  rw [longestMatch_keyword atof hk heq hrest] at h
  cases LexAction.ret.inj (Prod.mk.inj h).2

theorem lexeme_of_valueInt (hn : n = valueInt s) (hpos : 0 < n) (hfloat : valueFloat s ≤ n) :
    ∃ w rest, s = w ++ rest ∧ n = w.length ∧ Lexeme atof (.valueInt (atoi (s.take n))) w rest := by
  obtain ⟨w, rest, rfl, hlength, hw, hrest⟩ := valueInt_split (hn ▸ hpos)
  refine ⟨w, rest, rfl, hn.trans hlength, ?_⟩
  rw [hn, hlength, List.take_left]
  refine .valueInt hw fun c hc => ?_
  refine Bool.or_eq_false_iff.mpr ⟨decide_eq_false ?_, hrest c hc⟩
  rintro rfl
  -- the number with the point would be the longer match
  obtain ⟨digits, rfl⟩ := List.head?_eq_some_iff.mp hc
  have hw0 := hw.length_pos
  rw [valueFloat, hlength, List.drop_left] at hfloat
  simp only at hfloat
  rw [if_neg (by omega)] at hfloat
  omega

theorem lexeme_of_valueFloat (hn : n = valueFloat s) (hpos : 0 < n) :
    ∃ w rest, s = w ++ rest ∧ n = w.length ∧
      Lexeme atof (.valueFloat (atof (s.take n))) w rest := by
  obtain ⟨w, digits, rest, rfl, hlength, hw, hdigits, hrest⟩ := valueFloat_split (hn ▸ hpos)
  refine ⟨w ++ '.' :: digits, rest, rfl, hn.trans hlength, ?_⟩
  rw [hn, hlength, List.take_left]
  exact .valueFloat hw hdigits hrest

theorem lexeme_of_valueString (hn : n = valueString s) (hpos : 0 < n) :
    ∃ w rest, s = w ++ rest ∧ n = w.length ∧
      Lexeme atof (.valueString (String.ofList (s.take n).tail.dropLast)) w rest := by
  obtain ⟨w, rest, rfl, hlength, hw⟩ := valueString_split (hn ▸ hpos)
  have hlength' : ('\'' :: (w ++ ['\''])).length = w.length + 2 := by simp
  refine ⟨'\'' :: (w ++ ['\'']), rest, rfl, by rw [hn, hlength, hlength'], ?_⟩
  rw [hn, hlength, ← hlength', List.take_left, List.tail_cons, List.dropLast_concat]
  exact .valueString hw

/-- **What the scanner takes for a token is one of its lexemes**, up to the end of the match. -/
theorem lexeme_of_longestMatch {token : Token φ}
    (h : longestMatch s (lexRules atof .INITIAL) = (n, .ret token)) :
    ∃ w rest, s = w ++ rest ∧ n = w.length ∧ Lexeme atof token w rest := by
  have hle : ∀ rule ∈ lexRules atof .INITIAL, rule.pattern s ≤ n := fun rule hmem =>
    (le_longestMatch hmem).trans_eq (congrArg Prod.fst h)
  rcases longestMatch_cases h with ⟨-, h⟩ | ⟨rule, hmem, hn, hpos, haction⟩
  · cases h
  rw [lexRules_initial] at hmem hle
  simp only [List.forall_mem_append, List.forall_mem_map, List.forall_mem_cons] at hle
  obtain ⟨⟨-, hoperators⟩, hidentifier, -, hfloat, -⟩ := hle
  simp only [skipRules, List.mem_append, List.mem_cons, List.mem_map, List.not_mem_nil,
    or_false] at hmem
  rcases hmem with (((rfl | rfl | rfl | rfl) | ⟨k, hk, rfl⟩) | ⟨op, hop, rfl⟩) | rfl | rfl | rfl |
    rfl | rfl
  iterate 4 cases haction
  all_goals try obtain rfl := LexAction.ret.inj haction
  · exact lexeme_of_keyword atof hk hn hpos hidentifier
  · exact lexeme_of_operator atof hop hn hpos hoperators
  · exact lexeme_of_identifier atof hn hpos h
  · exact lexeme_of_valueInt atof hn hpos hfloat
  · exact lexeme_of_valueFloat atof hn hpos
  · exact lexeme_of_valueString atof hn hpos
  · cases haction

end Matches

/-- The scanner passes over a part of the text and returns the token behind it. -/
theorem lexeme_of_yylex {condition condition' : StartCondition} {k : Nat} {s rest : List Char}
    {token : Token φ} (h : yylex atof condition k s = (token, condition', rest)) :
    token = .word .T_EOF ∨ condition' = .INITIAL ∧
      ∃ skipped w, s = skipped ++ (w ++ rest) ∧ Lexeme atof token w rest := by
  have hskip {c : Char} {s : List Char}
      (ih : token = .word .T_EOF ∨ condition' = .INITIAL ∧
        ∃ skipped w, s = skipped ++ (w ++ rest) ∧ Lexeme atof token w rest) :
      token = .word .T_EOF ∨ condition' = .INITIAL ∧
        ∃ skipped w, c :: s = skipped ++ (w ++ rest) ∧ Lexeme atof token w rest := by
    refine ih.imp_right ?_
    rintro ⟨hcondition, skipped, w, rfl, hw⟩
    exact ⟨hcondition, c :: skipped, w, rfl, hw⟩
  induction s generalizing condition k with
  | nil => exact .inl (Prod.mk.inj h).1.symm
  | cons c s ih =>
    cases k with
    | succ k => exact hskip (ih h)
    | zero =>
      rw [yylex] at h
      split at h
      case h_1 n t hmatch =>
        cases condition with
        | INITIAL =>
          obtain ⟨w, rest', hs, rfl, hw⟩ := lexeme_of_longestMatch atof hmatch
          rw [hs, List.drop_left] at h
          cases h
          exact .inr ⟨rfl, [], w, hs, hw⟩
        | STATE_COMMENT =>
          -- no rule returns a token inside a comment
          rcases longestMatch_cases hmatch with ⟨-, h⟩ | ⟨rule, hmem, -, -, haction⟩
          · cases h
          · simp only [lexRules, List.mem_cons, List.not_mem_nil, or_false] at hmem
            rcases hmem with rfl | rfl | rfl
            all_goals cases haction
      case h_2 => exact hskip (ih h)
      case h_3 => exact hskip (ih h)

/-! ### Blanks -/

/-- A text with blanks for some of its characters. -/
def Blanked (s s' : List Char) : Prop := List.Forall₂ (fun c c' => c' = c ∨ c' = ' ') s s'

theorem Blanked.append_left {rest rest' : List Char} (h : Blanked rest rest') (w : List Char) :
    Blanked (w ++ rest) (w ++ rest') := by
  induction w with
  | nil => exact h
  | cons c w ih => exact .cons (.inl rfl) ih

/-- With blanks for a part of the text in front. -/
theorem Blanked.blanks_append {rest rest' : List Char} (h : Blanked rest rest')
    (skipped : List Char) :
    Blanked (skipped ++ rest) (List.replicate skipped.length ' ' ++ rest') := by
  induction skipped with
  | nil => exact h
  | cons c skipped ih => exact .cons (.inr rfl) ih

theorem Blanked.mem {s s' : List Char} (h : Blanked s s') {c : Char} (hc : c ∈ s') :
    c ∈ s ∨ c = ' ' := by
  induction h with
  | nil => exact absurd hc List.not_mem_nil
  | cons hhead _ ih =>
    rcases List.mem_cons.mp hc with rfl | hc
    · rcases hhead with rfl | rfl
      · exact .inl List.mem_cons_self
      · exact .inr rfl
    · exact (ih hc).imp_left (List.mem_cons_of_mem _)

/-- A word without blanks stood there before. -/
theorem Blanked.isPrefix {s s' v : List Char} (h : Blanked s s') (hv : ' ' ∉ v)
    (hstart : v <+: s') : v <+: s := by
  induction h generalizing v with
  | nil => exact hstart
  | cons hhead _ ih =>
    cases v with
    | nil => exact List.nil_prefix
    | cons d v =>
      obtain ⟨rfl, hrest⟩ := List.cons_prefix_cons.mp hstart
      rw [List.mem_cons, not_or] at hv
      rcases hhead with rfl | rfl
      · exact List.cons_prefix_cons.mpr ⟨rfl, ih hv.2 hrest⟩
      · exact absurd rfl hv.1

theorem NotAhead.blanked {p : Char → Bool} {s s' : List Char} (h : NotAhead p s)
    (hp : p ' ' = false) (hblanked : Blanked s s') : NotAhead p s' := by
  cases hblanked with
  | nil => exact h
  | cons hhead _ =>
    rintro c ⟨⟩
    rcases hhead with rfl | rfl
    · exact h _ rfl
    · exact hp

theorem operator_no_blank : ∀ op ∈ operators, ' ' ∉ op.1 := by decide

/-- A token stays what it is when blanks are put behind it. -/
theorem Lexeme.blanked {token : Token φ} {w rest rest' : List Char} (h : Lexeme atof token w rest)
    (hblanked : Blanked rest rest') : Lexeme atof token w rest' := by
  cases h with
  | keyword hk hw hrest => exact .keyword hk hw (hrest.blanked (by decide) hblanked)
  | operator hop hlongest =>
    refine .operator hop fun op hmem hstart => hlongest op hmem ?_
    exact (hblanked.append_left w).isPrefix (operator_no_blank op hmem) hstart
  | identifier hw hkeyword hrest =>
    exact .identifier hw hkeyword (hrest.blanked (by decide) hblanked)
  | valueInt hw hrest => exact .valueInt hw (hrest.blanked (by decide) hblanked)
  | valueFloat hw hdigits hrest => exact .valueFloat hw hdigits (hrest.blanked (by decide) hblanked)
  | valueString hw => exact .valueString hw

theorem gap_blanks (n : Nat) : Gap (List.replicate n ' ') := by
  induction n with
  | zero => exact .nil
  | succ n ih => exact .blank (by simp) ih

/-- The end of the text is not part of a statement. -/
theorem Spelling.drop_eof {tree : Ast.TreeNode φ} {w rest tokens : List (Token φ)}
    (h : Spelling tree w) (heq : tokens ++ [.word .T_EOF] = w ++ rest) :
    ∃ rest', tokens = w ++ rest' := by
  have hlast : ∃ w' t, w = w' ++ [.word t] ∧ t ≠ .T_EOF := by
    cases h with
    | stmt _ => exact ⟨_, .semicolon, rfl, by decide⟩
    | help => exact ⟨[], .HELP, rfl, by decide⟩
  obtain ⟨w', t, rfl, ht⟩ := hlast
  rcases List.eq_nil_or_concat rest with rfl | ⟨rest', last, rfl⟩
  · rw [List.append_nil] at heq
    have := List.append_inj_right' heq rfl
    simp only [List.cons.injEq, Token.word.injEq, and_true] at this
    exact absurd this.symm ht
  · rw [List.concat_eq_append, ← List.append_assoc] at heq
    exact ⟨rest', List.append_inj_left' heq rfl⟩

/-- A spelling is not written as the request that ends the connection. -/
theorem Text.ne_exit {tree : Ast.TreeNode φ} {w : List (Token φ)} {s : List Char}
    (h : Text atof w s) (hw : Spelling tree w) : s ≠ ['e', 'x', 'i', 't'] := by
  rintro rfl
  have hexit : Lexeme atof (.word .EXIT) ['e', 'x', 'i', 't'] [] :=
    .keyword (k := "EXIT") (by decide) (by decide) (by rintro c ⟨⟩)
  have hlex := yylex_lexeme atof hexit
  rw [List.append_nil] at hlex
  -- the only token of this text
  obtain rfl : w = [.word .EXIT] := by
    have htext := yylex_text atof h
    cases w with
    | nil =>
      rw [hlex] at htext
      cases htext
    | cons token w =>
      obtain ⟨rest, hrest, -, htext⟩ := htext
      rw [hlex] at hrest
      cases hrest
      have hend := yylex_text atof htext
      cases w with
      | nil => rfl
      | cons token' w =>
        obtain ⟨rest, -, hlt, -⟩ := hend
        exact absurd hlt (Nat.not_lt_zero _)
  generalize hexit : [Token.word Word.EXIT] = w at hw
  cases hw with
  | stmt _ =>
    have hlast := congrArg List.getLast? hexit
    rw [List.getLast?_concat] at hlast
    cases hlast
  | help => cases hexit

variable [Inhabited φ]

/-- What the parser has asked for: tokens, and then perhaps the end of the text. -/
theorem tokens_of_yyparse (n : Nat) (p : Yyparse φ) (condition : StartCondition) (s : List Char) :
    (yyparse atof n p condition s).1.status =
      (p.parse (yyparse atof n p condition s).1.tokens).status ∧
    ∃ tokens last, (yyparse atof n p condition s).1.tokens = tokens ++ last ∧
      .word .T_EOF ∉ tokens ∧ (last = [] ∨ last = [.word .T_EOF]) := by
  induction n generalizing p condition s with
  | zero => exact ⟨rfl, [], [], rfl, List.not_mem_nil, Or.inl rfl⟩
  | succ n ih =>
    by_cases hp : p.Stopped
    · rw [yyparse_of_stopped atof hp]
      exact ⟨rfl, [], [], rfl, List.not_mem_nil, Or.inl rfl⟩
    obtain ⟨st, hst⟩ : ∃ st, p.status = .wants st := by
      simpa [Yyparse.Stopped] using hp
    rcases hlex : yylex atof condition 0 s with ⟨token, condition', rest⟩
    rw [yyparse, hst, hlex]
    obtain ⟨hstatus, tokens, last, htokens, heof, hlast⟩ := ih (p.read token) condition' rest
    refine ⟨hstatus, ?_⟩
    by_cases htoken : token = .word .T_EOF
    · rw [htoken]
      simp only [yyparse_of_stopped atof (read_T_EOF p)]
      exact ⟨[], [.word .T_EOF], rfl, List.not_mem_nil, Or.inr rfl⟩
    · refine ⟨token :: tokens, last, ?_, ?_, hlast⟩
      · simp only [htokens, List.cons_append]
      · rw [List.mem_cons, not_or]
        exact ⟨Ne.symm htoken, heof⟩

/-- **A text and its tokens.**  What the parser has asked for is written in the text: with blanks
for the rest, the text is written out from its first tokens. -/
theorem text_of_yyparse {n : Nat} {p : Yyparse φ} {s : List Char} {w rest : List (Token φ)}
    (h : (yyparse atof n p .INITIAL s).1.tokens = w ++ rest) (hw : .word .T_EOF ∉ w) :
    ∃ s', Blanked s s' ∧ Text atof w s' := by
  induction w generalizing n p s with
  | nil =>
    have hblanked : Blanked (s ++ []) (List.replicate s.length ' ' ++ []) :=
      Blanked.blanks_append .nil s
    rw [List.append_nil, List.append_nil] at hblanked
    exact ⟨_, hblanked, .nil (gap_blanks _)⟩
  | cons token w ih =>
    rw [List.mem_cons, not_or] at hw
    cases n with
    | zero => cases h
    | succ n =>
      by_cases hp : p.Stopped
      · rw [yyparse_of_stopped atof hp] at h
        cases h
      obtain ⟨st, hst⟩ : ∃ st, p.status = .wants st := by
        simpa [Yyparse.Stopped] using hp
      rcases hlex : yylex atof .INITIAL 0 s with ⟨token', condition', s'⟩
      rw [yyparse, hst, hlex] at h
      obtain ⟨rfl, htokens⟩ := List.cons.inj h
      rcases lexeme_of_yylex atof hlex with heof | ⟨rfl, skipped, v, rfl, hv⟩
      · exact absurd heof.symm hw.1
      · obtain ⟨s', hblanked, htext⟩ := ih htokens hw.2
        exact ⟨_, (hblanked.append_left v).blanks_append skipped,
          .cons (gap_blanks _) (hv.blanked atof hblanked) htext⟩

/-! ### Requests -/

/-- **Which trees come of requests.**  After a history that leaves no comment open, a request can
lead to exactly those trees that have a spelling which is written out in some request. -/
theorem respond_accepts_iff {history : List ClientRequest}
    (h : conditionAfter atof history = .INITIAL) (tree : Ast.TreeNode φ) :
    (∃ request response, respond atof history request = some response ∧
      response.status = .accepted (some tree)) ↔
    ∃ w, ∃ request : ClientRequest, Spelling tree w ∧ Text atof w request.dataRecv := by
  constructor
  · rintro ⟨request, response, hrespond, hstatus⟩
    rw [respond, h, clientHandler] at hrespond
    split at hrespond
    case isTrue => cases hrespond
    case isFalse =>
      obtain rfl := Option.some.inj hrespond
      obtain ⟨hparse, tokens, last, htokens, heof, hlast⟩ :=
        tokens_of_yyparse atof (request.dataRecv.length + 1) {} .INITIAL request.dataRecv
      rw [hparse, htokens] at hstatus
      obtain ⟨w, rest, heq, hw⟩ := Yyparse.accepts_of_parse hstatus
      obtain ⟨rest', rfl⟩ : ∃ rest', tokens = w ++ rest' := by
        rcases hlast with rfl | rfl
        · exact ⟨rest, by rw [← heq, List.append_nil]⟩
        · exact Spelling.drop_eof hw heq
      rw [List.append_assoc] at htokens
      obtain ⟨s, hblanked, htext⟩ := text_of_yyparse atof htokens
        fun hmem => heof (List.mem_append_left _ hmem)
      -- the text with blanks is a request as well
      obtain ⟨request', rfl⟩ : ∃ request' : ClientRequest, request'.dataRecv = s := by
        refine exists_request (fun c hc => ?_) ?_
        · rcases hblanked.mem hc with hc | rfl
          · exact request.dataRecv_char hc
          · decide
        · rw [← List.Forall₂.length_eq hblanked]
          exact request.length_dataRecv_lt
      exact ⟨w, request', hw, htext⟩
  · rintro ⟨w, request, hw, htext⟩
    have hstatus := (yyparse_text atof htext (Nat.le_refl request.dataRecv.length) {}).1
    rw [Yyparse.parse_spelling hw] at hstatus
    refine ⟨request, (yyparse atof (request.dataRecv.length + 1) {} .INITIAL request.dataRecv).1,
      ?_, hstatus⟩
    rw [respond, h, clientHandler, if_neg (htext.ne_exit atof hw)]

/-- The request `Drop TABLE/**/t ;` -/
def dropTableRequest : ClientRequest where
  received := ['D', 'r', 'o', 'p', ' ', 'T', 'A', 'B', 'L', 'E', '/', '*', '*', '/', 't', ' ', ';']
  nonempty := by decide
  byte := by simp
  fits := by decide
  ends := by decide

theorem text_dropTableRequest : Text (fun _ => (0 : Float32))
    [.word .DROP, .word .TABLE, .identifier "t", .word .semicolon] dropTableRequest.dataRecv := by
  have hdrop : Lexeme (fun _ => (0 : Float32)) (.word .DROP) ['D', 'r', 'o', 'p']
      [' ', 'T', 'A', 'B', 'L', 'E', '/', '*', '*', '/', 't', ' ', ';'] :=
    .keyword (k := "DROP") (by decide) (by decide) (by rintro c ⟨⟩; decide)
  have htable : Lexeme (fun _ => (0 : Float32)) (.word .TABLE) ['T', 'A', 'B', 'L', 'E']
      ['/', '*', '*', '/', 't', ' ', ';'] :=
    .keyword (k := "TABLE") (by decide) (by decide) (by rintro c ⟨⟩; decide)
  have hname : Lexeme (fun _ => (0 : Float32)) (.identifier "t") ['t'] [' ', ';'] :=
    .identifier ⟨'t', [], rfl, by decide, by simp⟩ (by decide) (by rintro c ⟨⟩; decide)
  have hsemicolon : Lexeme (fun _ => (0 : Float32)) (.word .semicolon) [';'] [] :=
    .operator (by decide) (by decide)
  exact Text.cons .nil hdrop (Text.cons (.blank (c := ' ') (by decide) .nil) htable
    (Text.cons (.comment (v := []) (by decide) .nil) hname
      (Text.cons (.blank (c := ' ') (by decide) .nil) hsemicolon (Text.nil .nil))))

theorem respond_accepts_iff_dropTable :
    ∃ request response, respond (fun _ => (0 : Float32)) [] request = some response ∧
      response.status = .accepted (some (.dropTable "t")) :=
  (respond_accepts_iff _ rfl _).mpr
    ⟨_, dropTableRequest, .stmt (.dropTable "t"), text_dropTableRequest⟩

/-- **Requests written out.**  When no comment is open, a request that is written from tokens, with
blanks, line ends and comments between them, leads to a tree exactly if the tokens begin with a
spelling of it, and leaves no comment open. -/
theorem respond_text {tokens : List (Token φ)} {request : ClientRequest}
    {history : List ClientRequest} (h : Text atof tokens request.dataRecv)
    (hexit : request.dataRecv ≠ ['e', 'x', 'i', 't'])
    (hhistory : conditionAfter atof history = .INITIAL) :
    (∃ response, respond atof history request = some response ∧
      ∀ tree, response.status = .accepted (some tree) ↔ ∃ w rest, tokens = w ++ rest ∧
        Spelling tree w) ∧
    conditionAfter atof (history ++ [request]) = .INITIAL := by
  obtain ⟨hstatus, hcondition⟩ := yyparse_text atof h (Nat.le_refl request.dataRecv.length) {}
  constructor
  · refine ⟨(yyparse atof (request.dataRecv.length + 1) {} .INITIAL request.dataRecv).1, ?_,
      fun tree => ?_⟩
    · rw [respond, hhistory, clientHandler, if_neg hexit]
    · rw [hstatus]
      constructor
      · intro haccept
        obtain ⟨w, rest, heq, hw⟩ := Yyparse.accepts_of_parse haccept
        obtain ⟨rest', rfl⟩ := Spelling.drop_eof hw heq
        exact ⟨w, rest', rfl, hw⟩
      · rintro ⟨w, rest, rfl, hw⟩
        rw [List.append_assoc]
        exact Yyparse.parse_spelling hw _
  · rw [conditionAfter_append, hhistory, clientHandler, if_neg hexit]
    exact hcondition

theorem respond_text_dropTable :
    ∃ response, respond (fun _ => (0 : Float32)) [] dropTableRequest = some response ∧
      response.status = .accepted (some (.dropTable "t")) := by
  have hinitial : conditionAfter (fun _ => (0 : Float32)) [] = .INITIAL := rfl
  obtain ⟨⟨response, hrespond, hstatus⟩, -⟩ :=
    respond_text _ text_dropTableRequest (by decide) hinitial
  exact ⟨response, hrespond, (hstatus _).mpr ⟨_, [], rfl, .stmt (.dropTable "t")⟩⟩

end Rucbase
