import Mathlib.Data.List.TakeWhile
import Rucbase.Parser.Text
import Rucbase.Parser.Equiv.Accepted
import Rucbase.Parser.Equiv.Lex

/-!
# Requests as text

A sequence of tokens that is written as a text is what the scanner returns for it (`yylex_text`), so
the parser reads these tokens and then the end of the text (`yyparse_text`).
-/

namespace Rucbase

open Ast ShiftReduce

variable {φ : Type} (atof : List Char → φ)

/-! ### The longest match -/

theorem longestMatch_le {s : List Char} {rules : List (LexRule φ)} {n : Nat}
    (h : ∀ rule ∈ rules, rule.pattern s ≤ n) : (longestMatch s rules).1 ≤ n := by
  induction rules with
  | nil => exact Nat.zero_le n
  | cons rule rules ih =>
    rw [longestMatch]
    split
    · exact ih fun r hr => h r (List.mem_cons_of_mem rule hr)
    · exact h rule List.mem_cons_self

/-- The first rule with a match of the greatest length. -/
theorem longestMatch_eq {s : List Char} {before after : List (LexRule φ)} {rule : LexRule φ}
    {n : Nat} (hn : rule.pattern s = n) (hpos : 0 < n) (hbefore : ∀ r ∈ before, r.pattern s < n)
    (hafter : ∀ r ∈ after, r.pattern s ≤ n) :
    longestMatch s (before ++ rule :: after) = (n, rule.action (s.take n)) := by
  induction before with
  | nil =>
    have hle := longestMatch_le hafter
    rw [List.nil_append, longestMatch, hn, if_neg (by omega)]
  | cons r before ih =>
    have hr := hbefore r List.mem_cons_self
    rw [List.cons_append, longestMatch, ih fun r' hr' => hbefore r' (List.mem_cons_of_mem r hr'),
      if_pos (Or.inl hr)]

/-! ### The rules in groups -/

/-- The rules for what is passed over. -/
def skipRules : List (LexRule φ) :=
  [⟨literal ['/', '*'], fun _ => .begin .STATE_COMMENT⟩, ⟨lineComment, fun _ => .ignore⟩,
    ⟨whiteSpace, fun _ => .ignore⟩, ⟨newLine, fun _ => .ignore⟩]

def keywordRule (k : String × Word) : LexRule φ := ⟨keyword k.1, fun _ => .ret (.word k.2)⟩

def operatorRule (op : List Char × Word) : LexRule φ := ⟨literal op.1, fun _ => .ret (.word op.2)⟩

def identifierRule : LexRule φ := ⟨identifier, fun text => .ret (.identifier (String.ofList text))⟩

def valueIntRule : LexRule φ := ⟨valueInt, fun text => .ret (.valueInt (atoi text))⟩

def valueFloatRule : LexRule φ := ⟨valueFloat, fun text => .ret (.valueFloat (atof text))⟩

def valueStringRule : LexRule φ :=
  ⟨valueString, fun text => .ret (.valueString (String.ofList text.tail.dropLast))⟩

/-- The message about an unexpected character. -/
def unexpectedRule : LexRule φ := ⟨oneOf (· ≠ '\n'), fun _ => .ignore⟩

/-- All rules before those of the values. -/
def wordRules : List (LexRule φ) :=
  skipRules ++ keywords.map keywordRule ++ operators.map operatorRule ++ [identifierRule]

theorem lexRules_initial : lexRules atof .INITIAL =
    skipRules ++ keywords.map keywordRule ++ operators.map operatorRule ++
      [identifierRule, valueIntRule, valueFloatRule atof, valueStringRule, unexpectedRule] :=
  rfl

/-! ### Patterns at the start of a text -/

theorem runLength_append {p : Char → Bool} {w rest : List Char} (hw : ∀ c ∈ w, p c)
    (hrest : NotAhead p rest) : runLength p (w ++ rest) = w.length := by
  rw [runLength, List.takeWhile_append_of_pos hw]
  cases rest with
  | nil => simp
  | cons c rest => simp [hrest c rfl]

theorem literal_eq_zero {w s : List Char} (h : ¬w <+: s) : literal w s = 0 := by
  rw [literal, if_neg]
  rwa [List.isPrefixOf_iff_prefix]

theorem literal_append (w rest : List Char) : literal w (w ++ rest) = w.length := by
  rw [literal, if_pos]
  rw [List.isPrefixOf_iff_prefix]
  exact List.prefix_append w rest

theorem literal_cons_eq_zero {c d : Char} {w s : List Char} (h : c ≠ d) :
    literal (c :: w) (d :: s) = 0 := by
  refine literal_eq_zero fun hstart => ?_
  exact h (List.cons_prefix_cons.mp hstart).1

theorem skip_of_head {c : Char} (h : c ∉ ['/', '-', ' ', '\t', '\r', '\n']) (s : List Char) :
    ∀ r ∈ skipRules (φ := φ), r.pattern (c :: s) = 0 := by
  simp only [List.mem_cons, List.not_mem_nil, or_false, not_or] at h
  obtain ⟨hslash, hminus, hspace, htab, hreturn, hline⟩ := h
  simp only [skipRules, List.forall_mem_cons]
  refine ⟨literal_cons_eq_zero (Ne.symm hslash), ?_, ?_, ?_, by simp⟩
  · simp [lineComment, hminus]
  · simp [whiteSpace, runLength, hspace, htab]
  · simp [newLine, hreturn, hline]

theorem operator_head : ∀ op ∈ operators, ∃ d w, op.1 = d :: w ∧
    d ∈ ['>', '<', ';', '(', ')', ',', '*', '=', '.'] := by
  simp [operators]

theorem operator_char : ∀ d ∈ ['>', '<', ';', '(', ')', ',', '*', '=', '.'],
    d.isAlpha = false ∧ d.isDigit = false ∧ d ∉ ['/', '-', ' ', '\t', '\r', '\n'] ∧
      d ∉ ['+', '-'] ∧ d ≠ '\'' := by
  simp

theorem operator_of_head {c : Char} (h : c ∉ ['>', '<', ';', '(', ')', ',', '*', '=', '.'])
    (s : List Char) : ∀ op ∈ operators, literal op.1 (c :: s) = 0 := by
  intro op hop
  obtain ⟨d, w, hw, hd⟩ := operator_head op hop
  rw [hw]
  refine literal_cons_eq_zero ?_
  rintro rfl
  exact h hd

/-- The keywords are made of capital letters. -/
theorem isUpper_of_keyword : ∀ k ∈ keywords, k.1.toList ≠ [] ∧ ∀ c ∈ k.1.toList, c.isUpper := by
  simp [keywords]

theorem isAlpha_of_toUpper {c : Char} (h : c.toUpper.isUpper) : c.isAlpha := by
  delta Char.isAlpha Char.isUpper Char.isLower
  delta Char.isUpper Char.toUpper at h
  grind

theorem isDigit_of_isAlpha {c : Char} (h : c.isAlpha) : c.isDigit = false := by
  delta Char.isAlpha Char.isUpper Char.isLower at h
  delta Char.isDigit
  grind

theorem keyword_of_head {c : Char} (h : c.isAlpha = false) (s : List Char) :
    ∀ k ∈ keywords, keyword k.1 (c :: s) = 0 := by
  intro k hk
  obtain ⟨hne, hupper⟩ := isUpper_of_keyword k hk
  refine literal_eq_zero fun hstart => ?_
  cases hword : k.1.toList with
  | nil => exact hne hword
  | cons d w =>
    rw [hword, List.map_cons, List.cons_prefix_cons] at hstart
    have hd := hupper d (by rw [hword]; exact List.mem_cons_self)
    rw [hstart.1] at hd
    rw [isAlpha_of_toUpper hd] at h
    cases h

theorem identifier_of_head {c : Char} (h : c.isAlpha = false) (s : List Char) :
    identifier (c :: s) = 0 := by
  simp [identifier, h]

theorem valueInt_of_head {c : Char} (h : c ∉ ['+', '-']) (h' : c.isDigit = false) (s : List Char) :
    valueInt (c :: s) = 0 := by
  simp only [List.mem_cons, List.not_mem_nil, or_false, not_or] at h
  simp [valueInt, signLength, oneOf, h, runLength, h']

theorem valueFloat_of_valueInt {s : List Char} (h : valueInt s = 0) : valueFloat s = 0 := by
  rw [valueFloat, h]
  split
  · rfl
  · rfl

theorem valueString_of_head {c : Char} (h : c ≠ '\'') (s : List Char) :
    valueString (c :: s) = 0 := by
  simp [valueString, h]

theorem unexpected_le (s : List Char) : (unexpectedRule (φ := φ)).pattern s ≤ 1 := by
  cases s with
  | nil => exact Nat.zero_le 1
  | cons c s =>
    show (if _ then 1 else 0) ≤ 1
    split
    · exact Nat.le_refl 1
    · exact Nat.zero_le 1

/-! ### Names and keywords -/

section Names

variable {w rest : List Char}

/-- A keyword matches less than a name, or all of it. -/
theorem keyword_cases (hw : w ≠ []) (hrest : NotAhead wordChar rest) {k : String × Word}
    (hk : k ∈ keywords) : keyword k.1 (w ++ rest) < w.length ∨
      w.map Char.toUpper = k.1.toList ∧ keyword k.1 (w ++ rest) = w.length := by
  by_cases hstart : k.1.toList <+: (w ++ rest).map Char.toUpper
  · have hlength : keyword k.1 (w ++ rest) = k.1.toList.length := by
      obtain ⟨more, hmore⟩ := hstart
      rw [keyword, ← hmore, literal_append]
    have hw' : w.map Char.toUpper <+: (w ++ rest).map Char.toUpper := by
      rw [List.map_append]
      exact List.prefix_append _ _
    rcases List.prefix_or_prefix_of_prefix hstart hw' with hle | hge
    · rcases Nat.lt_or_ge k.1.toList.length w.length with hlt | hle'
      · exact Or.inl (hlength ▸ hlt)
      · have heq := hle.eq_of_length_le (by rwa [List.length_map])
        exact Or.inr ⟨heq.symm, by rw [hlength, heq, List.length_map]⟩
    · obtain ⟨more, hmore⟩ := hge
      cases more with
      | nil =>
        rw [List.append_nil] at hmore
        exact Or.inr ⟨hmore, by rw [hlength, ← hmore, List.length_map]⟩
      | cons d more =>
        -- the keyword would go on behind the name
        rw [← hmore, List.map_append, List.prefix_append_right_inj] at hstart
        cases rest with
        | nil => exact absurd hstart (by simp)
        | cons c rest =>
          rw [List.map_cons, List.cons_prefix_cons] at hstart
          have hd := (isUpper_of_keyword k hk).2 d (by rw [← hmore]; simp)
          have hc : wordChar c = false := hrest c rfl
          rw [hstart.1] at hd
          simp [wordChar, Char.isAlphanum, isAlpha_of_toUpper hd] at hc
  · refine Or.inl ?_
    rw [keyword, literal_eq_zero hstart]
    exact List.length_pos_iff.mpr hw

theorem isName_of_keyword {k : String × Word} (hk : k ∈ keywords)
    (h : w.map Char.toUpper = k.1.toList) : IsName w := by
  obtain ⟨hne, hupper⟩ := isUpper_of_keyword k hk
  have halpha : ∀ c ∈ w, c.isAlpha := by
    intro c hc
    exact isAlpha_of_toUpper (hupper c.toUpper (by rw [← h]; exact List.mem_map_of_mem hc))
  cases w with
  | nil => exact absurd h.symm hne
  | cons c s =>
    refine ⟨c, s, rfl, halpha c List.mem_cons_self, fun d hd => ?_⟩
    simp [wordChar, Char.isAlphanum, halpha d (List.mem_cons_of_mem c hd)]

theorem identifier_name (hw : IsName w) (hrest : NotAhead wordChar rest) :
    identifier (w ++ rest) = w.length := by
  obtain ⟨c, s, rfl, hc, hs⟩ := hw
  rw [List.cons_append, identifier, if_pos hc]
  have hrun := runLength_append hs hrest
  rw [show runLength (fun c => c = '_' || c.isAlphanum) (s ++ rest) = s.length from hrun,
    List.length_cons, Nat.add_comm]

theorem IsName.length_pos (hw : IsName w) : 0 < w.length := by
  obtain ⟨c, s, rfl, -⟩ := hw
  exact Nat.succ_pos _

/-- What else matches where a name is written. -/
theorem name_patterns (hw : IsName w) (rest : List Char) :
    (∀ r ∈ skipRules (φ := φ), r.pattern (w ++ rest) = 0) ∧
      (∀ op ∈ operators, literal op.1 (w ++ rest) = 0) ∧ valueInt (w ++ rest) = 0 ∧
        valueString (w ++ rest) = 0 := by
  obtain ⟨c, s, rfl, hc, hs⟩ := hw
  have hhead : ∀ d : Char, d.isAlpha = false → c ≠ d := by
    rintro d hd rfl
    rw [hc] at hd
    cases hd
  rw [List.cons_append]
  refine ⟨skip_of_head ?_ _, operator_of_head ?_ _, valueInt_of_head ?_ ?_ _,
    valueString_of_head (hhead _ (by decide)) _⟩
  · simp [hhead]
  · simp [hhead]
  · simp [hhead]
  · exact isDigit_of_isAlpha hc

/-- **A name** that is no keyword. -/
theorem longestMatch_identifier (hw : IsName w)
    (hkeyword : ∀ k ∈ keywords, w.map Char.toUpper ≠ k.1.toList) (hrest : NotAhead wordChar rest) :
    longestMatch (w ++ rest) (lexRules atof .INITIAL) =
      (w.length, .ret (.identifier (String.ofList w))) := by
  obtain ⟨hskip, hoperators, hint, hstring⟩ := name_patterns (φ := φ) hw rest
  have hpos := hw.length_pos
  rw [lexRules_initial, longestMatch_eq (identifier_name hw hrest) hpos, List.take_left]
  · rfl
  · simp only [List.forall_mem_append, List.forall_mem_map]
    refine ⟨⟨fun r hr => ?_, fun k hk => ?_⟩, fun op hop => ?_⟩
    · rwa [hskip r hr]
    · rcases keyword_cases (List.length_pos_iff.mp hpos) hrest hk with hlt | ⟨heq, -⟩
      · exact hlt
      · exact absurd heq (hkeyword k hk)
    · exact (hoperators op hop).trans_lt hpos
  · simp only [List.forall_mem_cons]
    refine ⟨?_, ?_, ?_, ?_, by simp⟩
    · exact hint.trans_le (Nat.zero_le _)
    · exact (valueFloat_of_valueInt hint).trans_le (Nat.zero_le _)
    · exact hstring.trans_le (Nat.zero_le _)
    · exact (unexpected_le _).trans hpos

theorem keywords_nodup : (keywords.map Prod.fst).Nodup := by decide

/-- **A keyword.** -/
theorem longestMatch_keyword {k : String} {t : Word} (hk : (k, t) ∈ keywords)
    (h : w.map Char.toUpper = k.toList) (hrest : NotAhead wordChar rest) :
    longestMatch (w ++ rest) (lexRules atof .INITIAL) = (w.length, .ret (.word t)) := by
  have hw := isName_of_keyword hk h
  obtain ⟨hskip, hoperators, hint, hstring⟩ := name_patterns (φ := φ) hw rest
  have hpos := hw.length_pos
  have hne := List.length_pos_iff.mp hpos
  have hle : ∀ k ∈ keywords, keyword k.1 (w ++ rest) ≤ w.length := by
    intro k hk
    rcases keyword_cases hne hrest hk with hlt | ⟨-, heq⟩
    · exact hlt.le
    · exact heq.le
  obtain ⟨before, after, hkeywords⟩ := List.append_of_mem hk
  have hmatch : keyword k (w ++ rest) = w.length := by
    rcases keyword_cases hne hrest hk with hlt | ⟨-, heq⟩
    · rw [keyword, List.map_append, h, literal_append, ← h, List.length_map] at hlt
      exact absurd hlt (Nat.lt_irrefl _)
    · exact heq
  have hrules : lexRules atof .INITIAL = (skipRules ++ before.map keywordRule) ++
      keywordRule (k, t) :: (after.map keywordRule ++ (operators.map operatorRule ++
        [identifierRule, valueIntRule, valueFloatRule atof, valueStringRule, unexpectedRule])) := by
    rw [lexRules_initial, hkeywords]
    simp only [List.map_append, List.map_cons, List.append_assoc, List.cons_append]
  rw [hrules, longestMatch_eq hmatch hpos]
  · rfl
  · simp only [List.forall_mem_append, List.forall_mem_map]
    refine ⟨fun r hr => ?_, fun k' hk' => ?_⟩
    · rwa [hskip r hr]
    · have hmem : k' ∈ keywords := by
        rw [hkeywords]
        exact List.mem_append_left _ hk'
      rcases keyword_cases hne hrest hmem with hlt | ⟨heq, -⟩
      · exact hlt
      · -- the same word would stand twice in the list
        have hsame : k'.1 = k := String.toList_inj.mp (heq.symm.trans h)
        have hnodup := keywords_nodup
        rw [hkeywords, List.map_append, List.map_cons, List.nodup_append] at hnodup
        have hnot := hnodup.2.2 k'.1 (List.mem_map_of_mem hk') k List.mem_cons_self
        exact absurd hsame hnot
  · simp only [List.forall_mem_append, List.forall_mem_map, List.forall_mem_cons]
    refine ⟨fun k' hk' => hle k' ?_, fun op hop => ?_, ?_, ?_, ?_, ?_, ?_, by simp⟩
    · rw [hkeywords]
      exact List.mem_append_right _ (List.mem_cons_of_mem _ hk')
    · exact (hoperators op hop).trans_le (Nat.zero_le _)
    · exact (identifier_name hw hrest).le
    · exact hint.trans_le (Nat.zero_le _)
    · exact (valueFloat_of_valueInt hint).trans_le (Nat.zero_le _)
    · exact hstring.trans_le (Nat.zero_le _)
    · exact (unexpected_le _).trans hpos

end Names

/-! ### Operators -/

theorem operators_nodup : (operators.map Prod.fst).Nodup := by decide

/-- **An operator** that no longer one starts with. -/
theorem longestMatch_operator {w rest : List Char} {t : Word} (h : (w, t) ∈ operators)
    (hlongest : ∀ op ∈ operators, op.1 <+: w ++ rest → op.1.length ≤ w.length) :
    longestMatch (w ++ rest) (lexRules atof .INITIAL) = (w.length, .ret (.word t)) := by
  obtain ⟨before, after, hoperators⟩ := List.append_of_mem h
  have hle : ∀ op ∈ operators, literal op.1 (w ++ rest) ≤ w.length := by
    intro op hop
    by_cases hstart : op.1 <+: w ++ rest
    · obtain ⟨more, hmore⟩ := hstart
      rw [← hmore, literal_append]
      exact hlongest op hop ⟨more, hmore⟩
    · exact (literal_eq_zero hstart).trans_le (Nat.zero_le _)
  obtain ⟨d, s, rfl, hd⟩ := operator_head _ h
  obtain ⟨halpha, hdigit, hskip, hsign, hquote⟩ := operator_char d hd
  have hpos : 0 < (d :: s).length := Nat.succ_pos _
  have hint := valueInt_of_head hsign hdigit (s ++ rest)
  have hrules : lexRules atof .INITIAL = (skipRules ++ keywords.map keywordRule ++
      before.map operatorRule) ++ operatorRule (d :: s, t) :: (after.map operatorRule ++
        [identifierRule, valueIntRule, valueFloatRule atof, valueStringRule, unexpectedRule]) := by
    rw [lexRules_initial, hoperators]
    simp only [List.map_append, List.map_cons, List.append_assoc, List.cons_append]
  rw [hrules, longestMatch_eq (literal_append (d :: s) rest) hpos]
  · rfl
  · simp only [List.forall_mem_append, List.forall_mem_map]
    refine ⟨⟨fun r hr => ?_, fun k hk => ?_⟩, fun op hop => ?_⟩
    · exact (skip_of_head hskip _ r hr).trans_lt hpos
    · exact (keyword_of_head halpha _ k hk).trans_lt hpos
    · have hmem : op ∈ operators := by
        rw [hoperators]
        exact List.mem_append_left _ hop
      refine lt_of_le_of_ne (hle op hmem) fun heq => ?_
      -- the same operator would stand twice in the list
      have hstart : op.1 <+: d :: s ++ rest := by
        by_contra hnot
        rw [show (operatorRule (φ := φ) op).pattern = literal op.1 from rfl,
          literal_eq_zero hnot] at heq
        exact absurd heq hpos.ne
      have hlength : op.1.length = (d :: s).length := by
        obtain ⟨more, hmore⟩ := hstart
        rw [show (operatorRule (φ := φ) op).pattern = literal op.1 from rfl, ← hmore,
          literal_append] at heq
        exact heq
      have hsame : op.1 = d :: s :=
        (List.prefix_of_prefix_length_le hstart (List.prefix_append _ _) hlength.le).eq_of_length
          hlength
      have hnodup := operators_nodup
      rw [hoperators, List.map_append, List.map_cons, List.nodup_append] at hnodup
      exact hnodup.2.2 op.1 (List.mem_map_of_mem hop) (d :: s) List.mem_cons_self hsame
  · simp only [List.forall_mem_append, List.forall_mem_map, List.forall_mem_cons]
    refine ⟨fun op hop => hle op ?_, ?_, ?_, ?_, ?_, ?_, by simp⟩
    · rw [hoperators]
      exact List.mem_append_right _ (List.mem_cons_of_mem _ hop)
    · exact (identifier_of_head halpha _).trans_le (Nat.zero_le _)
    · exact hint.trans_le (Nat.zero_le _)
    · exact (valueFloat_of_valueInt hint).trans_le (Nat.zero_le _)
    · exact (valueString_of_head hquote _).trans_le (Nat.zero_le _)
    · exact (unexpected_le _).trans hpos

/-! ### Numbers and strings -/

section Numbers

variable {w rest : List Char}

theorem not_alpha_of_isDigit {c : Char} (h : c.isDigit) : c.isAlpha = false := by
  cases halpha : c.isAlpha with
  | false => rfl
  | true =>
    rw [isDigit_of_isAlpha halpha] at h
    cases h

theorem ne_of_isDigit {c : Char} (h : c.isDigit) {d : Char} (hd : d.isDigit = false) : c ≠ d := by
  rintro rfl
  rw [h] at hd
  cases hd

theorem valueInt_append (hw : IsNumber w) (hrest : NotAhead Char.isDigit rest) :
    valueInt (w ++ rest) = w.length := by
  obtain ⟨sign, digits, rfl, hsign, hne, hdigits⟩ := hw
  have hlength : signLength (sign ++ digits ++ rest) = sign.length := by
    rcases hsign with rfl | rfl | rfl
    · cases digits with
      | nil => exact absurd rfl hne
      | cons d digits =>
        have hd := hdigits d List.mem_cons_self
        simp [signLength, oneOf, ne_of_isDigit hd]
    · rfl
    · rfl
  have hpos := List.length_pos_iff.mpr hne
  rw [valueInt, hlength, List.append_assoc, List.drop_left, runLength_append hdigits hrest,
    List.length_append]
  exact if_neg (by omega)

theorem IsNumber.length_pos (hw : IsNumber w) : 0 < w.length := by
  obtain ⟨sign, digits, rfl, -, hne, -⟩ := hw
  have := List.length_pos_iff.mpr hne
  rw [List.length_append]
  omega

/-- Only the rules of values match where the first character is none of a word. -/
theorem wordRules_of_head {c : Char} {rest : List Char} (halpha : c.isAlpha = false)
    (hskip : ∀ r ∈ skipRules (φ := φ), r.pattern (c :: rest) = 0)
    (hoperator : c ∉ ['>', '<', ';', '(', ')', ',', '*', '=', '.']) :
    ∀ r ∈ wordRules (φ := φ), r.pattern (c :: rest) = 0 := by
  simp only [wordRules, List.forall_mem_append, List.forall_mem_map, List.forall_mem_cons]
  exact ⟨⟨⟨hskip, keyword_of_head halpha rest⟩, operator_of_head hoperator rest⟩,
    identifier_of_head halpha rest, by simp⟩

/-- What else matches where a number is written. -/
theorem int_patterns (hw : IsNumber w) (rest : List Char) :
    (∀ r ∈ wordRules (φ := φ), r.pattern (w ++ rest) = 0) ∧ valueString (w ++ rest) = 0 := by
  obtain ⟨sign, digits, rfl, hsign, hne, hdigits⟩ := hw
  cases digits with
  | nil => exact absurd rfl hne
  | cons d digits =>
    have hd := hdigits d List.mem_cons_self
    rcases hsign with rfl | rfl | rfl
    · refine ⟨wordRules_of_head (not_alpha_of_isDigit hd) (skip_of_head ?_ _) ?_,
        valueString_of_head (ne_of_isDigit hd (by decide)) _⟩
      · simp [ne_of_isDigit hd]
      · simp [ne_of_isDigit hd]
    · exact ⟨wordRules_of_head (by decide) (skip_of_head (by decide) _) (by decide),
        valueString_of_head (by decide) _⟩
    · refine ⟨wordRules_of_head (by decide) ?_ (by decide), valueString_of_head (by decide) _⟩
      -- a digit stands behind the sign, so it does not start a comment
      have hminus : d ≠ '-' := ne_of_isDigit hd (by decide)
      simp [skipRules, literal_cons_eq_zero, lineComment, hminus, whiteSpace, runLength, newLine]

/-- **A whole number.** -/
theorem longestMatch_valueInt (hw : IsNumber w)
    (hrest : NotAhead (fun c => c = '.' || c.isDigit) rest) :
    longestMatch (w ++ rest) (lexRules atof .INITIAL) = (w.length, .ret (.valueInt (atoi w))) := by
  obtain ⟨hwords, hstring⟩ := int_patterns (φ := φ) hw rest
  have hpos := hw.length_pos
  have hint : valueInt (w ++ rest) = w.length := by
    refine valueInt_append hw fun c hc => ?_
    exact (Bool.or_eq_false_iff.mp (hrest c hc)).2
  have hfloat : valueFloat (w ++ rest) = 0 := by
    rw [valueFloat, hint, List.drop_left]
    split
    · have := (Bool.or_eq_false_iff.mp (hrest '.' rfl)).1
      simp at this
    · rfl
  have hrules : lexRules atof .INITIAL =
      wordRules ++ valueIntRule :: [valueFloatRule atof, valueStringRule, unexpectedRule] := rfl
  rw [hrules, longestMatch_eq hint hpos, List.take_left]
  · rfl
  · exact fun r hr => (hwords r hr).trans_lt hpos
  · simp only [List.forall_mem_cons]
    refine ⟨hfloat.trans_le (Nat.zero_le _), hstring.trans_le (Nat.zero_le _), ?_, by simp⟩
    exact (unexpected_le _).trans hpos

/-- **A number with a point.** -/
theorem longestMatch_valueFloat {digits : List Char} (hw : IsNumber w)
    (hdigits : ∀ c ∈ digits, c.isDigit) (hrest : NotAhead Char.isDigit rest) :
    longestMatch (w ++ '.' :: digits ++ rest) (lexRules atof .INITIAL) =
      ((w ++ '.' :: digits).length, .ret (.valueFloat (atof (w ++ '.' :: digits)))) := by
  have hpos := hw.length_pos
  obtain ⟨hwords, hstring⟩ := int_patterns (φ := φ) hw ('.' :: digits ++ rest)
  have hint : valueInt (w ++ ('.' :: digits ++ rest)) = w.length := by
    refine valueInt_append hw ?_
    rintro c ⟨⟩
    decide
  rw [← List.append_assoc] at hwords hstring hint
  have hlength : (w ++ '.' :: digits).length = w.length + 1 + digits.length := by
    rw [List.length_append, List.length_cons]
    omega
  have hfloat : valueFloat (w ++ '.' :: digits ++ rest) = (w ++ '.' :: digits).length := by
    rw [valueFloat, hint, List.append_assoc, List.drop_left, List.cons_append]
    simp only
    rw [if_neg (by omega), runLength_append hdigits hrest, hlength]
  have hrules : lexRules atof .INITIAL = (wordRules ++ [valueIntRule]) ++
      valueFloatRule atof :: [valueStringRule, unexpectedRule] := rfl
  rw [hrules, longestMatch_eq hfloat (by omega), List.take_left]
  · rfl
  · simp only [List.forall_mem_append, List.forall_mem_cons]
    refine ⟨fun r hr => (hwords r hr).trans_lt (by omega), hint.trans_lt (by omega), by simp⟩
  · simp only [List.forall_mem_cons]
    refine ⟨hstring.trans_le (Nat.zero_le _), (unexpected_le _).trans (by omega), by simp⟩

/-- **A string.** -/
theorem longestMatch_valueString (hw : '\'' ∉ w) :
    longestMatch ('\'' :: (w ++ ['\'']) ++ rest) (lexRules atof .INITIAL) =
      (('\'' :: (w ++ ['\''])).length, .ret (.valueString (String.ofList w))) := by
  have hwords : ∀ r ∈ wordRules (φ := φ), r.pattern ('\'' :: (w ++ ['\''] ++ rest)) = 0 :=
    wordRules_of_head (by decide) (skip_of_head (by decide) _) (by decide)
  have hint : valueInt ('\'' :: (w ++ ['\''] ++ rest)) = 0 :=
    valueInt_of_head (by decide) (by decide) _
  have hlength : ('\'' :: (w ++ ['\''])).length = w.length + 2 := by simp
  have hstring : valueString ('\'' :: (w ++ ['\''] ++ rest)) = w.length + 2 := by
    have hrun : runLength (· ≠ '\'') (w ++ ['\''] ++ rest) = w.length := by
      rw [List.append_assoc]
      refine runLength_append (fun c hc => ?_) ?_
      · have : c ≠ '\'' := by
          rintro rfl
          exact hw hc
        simpa using this
      · rintro c ⟨⟩
        decide
    simp only [valueString]
    rw [hrun, if_pos]
    simp only [List.length_append, List.length_cons]
    omega
  have hrules : lexRules atof .INITIAL = (wordRules ++ [valueIntRule, valueFloatRule atof]) ++
      valueStringRule :: [unexpectedRule] := rfl
  rw [hrules, List.cons_append, longestMatch_eq hstring (by omega), hlength]
  · have htake : ('\'' :: (w ++ ['\''] ++ rest)).take (w.length + 2) = '\'' :: (w ++ ['\'']) := by
      rw [← hlength]
      exact List.take_left
    rw [htake]
    simp [valueStringRule]
  · simp only [List.forall_mem_append, List.forall_mem_cons]
    refine ⟨fun r hr => (hwords r hr).trans_lt (by omega), hint.trans_lt (by omega), ?_, by simp⟩
    exact (valueFloat_of_valueInt hint).trans_lt (by omega)
  · simp only [List.forall_mem_cons]
    exact ⟨(unexpected_le _).trans (by omega), by simp⟩

end Numbers

/-- **The longest match** where a token is written. -/
theorem longestMatch_lexeme {token : Token φ} {w rest : List Char} (h : Lexeme atof token w rest) :
    longestMatch (w ++ rest) (lexRules atof .INITIAL) = (w.length, .ret token) := by
  cases h with
  | keyword hk hw hrest => exact longestMatch_keyword atof hk hw hrest
  | operator hop hlongest => exact longestMatch_operator atof hop hlongest
  | identifier hw hkeyword hrest => exact longestMatch_identifier atof hw hkeyword hrest
  | valueInt hw hrest => exact longestMatch_valueInt atof hw hrest
  | valueFloat hw hdigits hrest => exact longestMatch_valueFloat atof hw hdigits hrest
  | valueString hw => exact longestMatch_valueString atof hw

theorem yylex_lexeme {token : Token φ} {w rest : List Char} (h : Lexeme atof token w rest) :
    yylex atof .INITIAL 0 (w ++ rest) = (token, .INITIAL, rest) := by
  have hmatch := longestMatch_lexeme atof h
  have hpos := longestMatch_ret hmatch
  cases w with
  | nil => exact absurd hpos (Nat.lt_irrefl 0)
  | cons c w =>
    rw [List.cons_append] at hmatch ⊢
    rw [yylex, hmatch]
    simp

/-! ### Between the tokens -/

/-- The rules of tokens do not match where there is a gap. -/
theorem tokenRules_of_head {c : Char} {s : List Char} (halpha : c.isAlpha = false)
    (hoperator : c ∉ ['>', '<', ';', '(', ')', ',', '*', '=', '.']) (hquote : c ≠ '\'')
    (hint : valueInt (c :: s) = 0) :
    ∀ r ∈ keywords.map keywordRule ++ operators.map operatorRule ++
      [identifierRule, valueIntRule, valueFloatRule atof, valueStringRule, unexpectedRule],
      r.pattern (c :: s) ≤ 1 := by
  simp only [List.forall_mem_append, List.forall_mem_map, List.forall_mem_cons]
  refine ⟨⟨fun k hk => ?_, fun op hop => ?_⟩, ?_, ?_, ?_, ?_, unexpected_le _, by simp⟩
  · exact (keyword_of_head halpha s k hk).trans_le (Nat.zero_le 1)
  · exact (operator_of_head hoperator s op hop).trans_le (Nat.zero_le 1)
  · exact (identifier_of_head halpha s).trans_le (Nat.zero_le 1)
  · exact hint.trans_le (Nat.zero_le 1)
  · exact (valueFloat_of_valueInt hint).trans_le (Nat.zero_le 1)
  · exact (valueString_of_head hquote s).trans_le (Nat.zero_le 1)

theorem whiteSpace_cons {c : Char} (hc : c = ' ' ∨ c = '\t') (s : List Char) :
    whiteSpace (c :: s) = whiteSpace s + 1 := by
  rcases hc with rfl | rfl
  · simp [whiteSpace, runLength]
  · simp [whiteSpace, runLength]

theorem longestMatch_blank {c : Char} (hc : c = ' ' ∨ c = '\t') (s : List Char) :
    longestMatch (c :: s) (lexRules atof .INITIAL) = (whiteSpace s + 1, .ignore) := by
  have hrules : lexRules atof .INITIAL =
      [⟨literal ['/', '*'], fun _ => .begin .STATE_COMMENT⟩, ⟨lineComment, fun _ => .ignore⟩] ++
        ⟨whiteSpace, fun _ => .ignore⟩ :: (⟨newLine, fun _ => .ignore⟩ ::
          (keywords.map keywordRule ++ operators.map operatorRule ++
            [identifierRule, valueIntRule, valueFloatRule atof, valueStringRule,
              unexpectedRule])) := rfl
  rw [hrules, longestMatch_eq (whiteSpace_cons hc s) (Nat.succ_pos _)]
  · rcases hc with rfl | rfl
    · simp [literal_cons_eq_zero, lineComment]
    · simp [literal_cons_eq_zero, lineComment]
  · simp only [List.forall_mem_cons]
    refine ⟨?_, fun r hr => ?_⟩
    · rcases hc with rfl | rfl
      · simp [newLine]
      · simp [newLine]
    · refine (tokenRules_of_head atof ?_ ?_ ?_ ?_ r hr).trans (Nat.succ_pos _)
      all_goals rcases hc with rfl | rfl
      all_goals simp [valueInt_of_head]

/-- Blanks are passed over one by one. -/
theorem yylex_blank {c : Char} (hc : c = ' ' ∨ c = '\t') (s : List Char) :
    yylex atof .INITIAL 0 (c :: s) = yylex atof .INITIAL 0 s := by
  rw [yylex_ignore atof (longestMatch_blank atof hc s), Nat.add_sub_cancel]
  cases s with
  | nil => rw [List.drop_nil]
  | cons d s =>
    by_cases hd : d = ' ' ∨ d = '\t'
    · rw [whiteSpace_cons hd, List.drop_succ_cons, yylex_ignore atof (longestMatch_blank atof hd s),
        Nat.add_sub_cancel]
    · rw [not_or] at hd
      simp [whiteSpace, runLength, hd]

theorem longestMatch_newLine {c : Char} (hc : c = '\r' ∨ c = '\n') (s : List Char) :
    longestMatch (c :: s) (lexRules atof .INITIAL) = (newLine (c :: s), .ignore) := by
  have hrules : lexRules atof .INITIAL =
      [⟨literal ['/', '*'], fun _ => .begin .STATE_COMMENT⟩, ⟨lineComment, fun _ => .ignore⟩,
        ⟨whiteSpace, fun _ => .ignore⟩] ++ ⟨newLine, fun _ => .ignore⟩ ::
          (keywords.map keywordRule ++ operators.map operatorRule ++
            [identifierRule, valueIntRule, valueFloatRule atof, valueStringRule,
              unexpectedRule]) := rfl
  have hpos : 0 < newLine (c :: s) := by
    rcases hc with rfl | rfl
    · rw [newLine.eq_def]
      grind
    · simp [newLine]
  rw [hrules, longestMatch_eq rfl hpos]
  · rcases hc with rfl | rfl
    · simp [literal_cons_eq_zero, lineComment, whiteSpace, runLength, hpos]
    · simp [literal_cons_eq_zero, lineComment, whiteSpace, runLength, hpos]
  · intro r hr
    refine (tokenRules_of_head atof ?_ ?_ ?_ ?_ r hr).trans hpos
    all_goals rcases hc with rfl | rfl
    all_goals simp [valueInt_of_head]

/-- The end of a line is passed over; `\r\n` is one or two. -/
theorem yylex_newLine {c : Char} (hc : c = '\r' ∨ c = '\n') (s : List Char) :
    yylex atof .INITIAL 0 (c :: s) = yylex atof .INITIAL 0 s := by
  have hline (s : List Char) : yylex atof .INITIAL 0 ('\n' :: s) = yylex atof .INITIAL 0 s :=
    yylex_ignore atof (longestMatch_newLine atof (Or.inr rfl) s)
  rcases hc with rfl | rfl
  · rw [yylex_ignore atof (longestMatch_newLine atof (Or.inl rfl) s)]
    cases s with
    | nil => rfl
    | cons d s =>
      by_cases hd : d = '\n'
      · subst hd
        exact (hline s).symm
      · simp [newLine, hd]
  · exact hline s

/-- A comment up to the end of the line. -/
theorem yylex_line {v : List Char} (hv : '\n' ∉ v) (s : List Char) :
    yylex atof .INITIAL 0 ('-' :: '-' :: (v ++ '\n' :: s)) = yylex atof .INITIAL 0 s := by
  have hrun : runLength (· ≠ '\n') (v ++ '\n' :: s) = v.length := by
    refine runLength_append (fun c hc => ?_) ?_
    · have : c ≠ '\n' := by
        rintro rfl
        exact hv hc
      simpa using this
    · rintro c ⟨⟩
      decide
  have hmatch : longestMatch ('-' :: '-' :: (v ++ '\n' :: s)) (lexRules atof .INITIAL) =
      (2 + v.length, .ignore) := by
    have hline : lineComment ('-' :: '-' :: (v ++ '\n' :: s)) = 2 + v.length := by
      rw [lineComment, hrun]
    have hrules : lexRules atof .INITIAL =
        [⟨literal ['/', '*'], fun _ => .begin .STATE_COMMENT⟩] ++
          ⟨lineComment, fun _ => .ignore⟩ :: (⟨whiteSpace, fun _ => .ignore⟩ ::
            ⟨newLine, fun _ => .ignore⟩ :: (keywords.map keywordRule ++
              operators.map operatorRule ++ [identifierRule, valueIntRule, valueFloatRule atof,
                valueStringRule, unexpectedRule])) := rfl
    rw [hrules, longestMatch_eq hline (by omega)]
    · simp only [List.forall_mem_cons]
      exact ⟨(literal_cons_eq_zero (by decide)).trans_lt (by omega), by simp⟩
    · simp only [List.forall_mem_cons]
      refine ⟨by simp [whiteSpace, runLength], by simp [newLine], fun r hr => ?_⟩
      refine (tokenRules_of_head atof (by decide) (by decide) (by decide) ?_ r hr).trans (by omega)
      simp [valueInt, signLength, oneOf, runLength]
  rw [yylex_ignore atof hmatch, show 2 + v.length - 1 = v.length + 1 by omega, List.drop_succ_cons,
    List.drop_left, yylex_newLine atof (Or.inr rfl)]

theorem afterComment_append {v : List Char} (hv : ¬['*', '/'] <:+: v) (s : List Char) :
    afterComment (v ++ '*' :: '/' :: s) = some s := by
  induction v with
  | nil => rfl
  | cons c v ih =>
    have htail : ¬['*', '/'] <:+: v := fun h => hv (List.infix_cons h)
    rw [List.cons_append, afterComment, ih htail]
    rintro t rfl ht
    cases v with
    | nil => cases ht
    | cons d v =>
      obtain ⟨rfl, -⟩ := List.cons.inj ht
      exact hv (List.prefix_append ['*', '/'] v).isInfix

/-- **A gap** is passed over. -/
theorem yylex_gap {gap : List Char} (h : Gap gap) (s : List Char) :
    yylex atof .INITIAL 0 (gap ++ s) = yylex atof .INITIAL 0 s := by
  induction h with
  | nil => rfl
  | @blank c gap hc _ ih =>
    rw [← ih]
    simp only [List.mem_cons, List.not_mem_nil, or_false] at hc
    rcases hc with rfl | rfl | rfl | rfl
    · exact yylex_blank atof (Or.inl rfl) _
    · exact yylex_blank atof (Or.inr rfl) _
    · exact yylex_newLine atof (Or.inl rfl) _
    · exact yylex_newLine atof (Or.inr rfl) _
  | @line v gap hv _ ih =>
    rw [← ih, List.cons_append, List.cons_append, List.append_assoc]
    exact yylex_line atof hv _
  | @comment v gap hv _ ih =>
    rw [← ih, List.cons_append, List.cons_append, List.append_assoc]
    exact yylex_of_afterComment atof (afterComment_append hv _)

/-! ### Texts -/

/-- **The scanner on a text** returns its tokens one after the other, and then its end. -/
theorem yylex_text {tokens : List (Token φ)} {s : List Char} (h : Text atof tokens s) :
    match tokens with
    | [] => yylex atof .INITIAL 0 s = (.word .T_EOF, .INITIAL, [])
    | token :: tokens => ∃ rest, yylex atof .INITIAL 0 s = (token, .INITIAL, rest) ∧
        rest.length < s.length ∧ Text atof tokens rest := by
  cases h with
  | nil hgap =>
    have := yylex_gap atof hgap []
    rw [List.append_nil] at this
    rw [this]
    rfl
  | @cons gap token w tokens rest hgap hlexeme hrest =>
    refine ⟨rest, ?_, ?_, hrest⟩
    · rw [yylex_gap atof hgap, yylex_lexeme atof hlexeme]
    · have := longestMatch_ret (longestMatch_lexeme atof hlexeme)
      rw [List.length_append, List.length_append]
      omega

variable [Inhabited φ]

/-- The parser reads the tokens of a text, and then its end. -/
theorem yyparse_text {tokens : List (Token φ)} {s : List Char} (h : Text atof tokens s) {n : Nat}
    (hn : s.length ≤ n) (p : Yyparse φ) :
    (yyparse atof (n + 1) p .INITIAL s).1.status =
      (p.parse (tokens ++ [.word .T_EOF])).status ∧
    (yyparse atof (n + 1) p .INITIAL s).2 = .INITIAL := by
  induction tokens generalizing n p s with
  | nil =>
    by_cases hp : p.Stopped
    · rw [yyparse_of_stopped atof hp, hp.parse]
      exact ⟨rfl, rfl⟩
    · obtain ⟨st, hst⟩ : ∃ st, p.status = .wants st := by
        simpa [Yyparse.Stopped] using hp
      rw [yyparse, hst, yylex_text atof h]
      simp only [yyparse_of_stopped atof (read_T_EOF p)]
      exact ⟨rfl, trivial⟩
  | cons token tokens ih =>
    obtain ⟨rest, hlex, hlt, hrest⟩ := yylex_text atof h
    by_cases hp : p.Stopped
    · rw [yyparse_of_stopped atof hp, hp.parse]
      exact ⟨rfl, rfl⟩
    · obtain ⟨st, hst⟩ : ∃ st, p.status = .wants st := by
        simpa [Yyparse.Stopped] using hp
      obtain ⟨m, rfl⟩ : ∃ m, n = m + 1 := ⟨n - 1, by omega⟩
      rw [yyparse, hst, hlex]
      exact ih hrest (by omega) (p.read token)

end Rucbase
