import Rucbase.Common
import Rucbase.Parser.Yacc

/-!
# The scanner

The rules of `parser/lex.l` and the scanner that `flex` makes of them: at each point the rule with
the longest match is taken, and of two rules with matches of one length the first.  A text is the
list of its characters up to the first null character, as `yy_scan_string` reads it; a request is
what one `read` of `client_handler` gives (`ClientRequest`).

The scanner returns the tokens of `Yacc`.  Between two requests it keeps only its start condition;
`yy_scan_string` and `yy_delete_buffer` leave it as it is.  `atof` is a parameter.
-/

namespace Rucbase

/-- The start conditions; `STATE_COMMENT` is exclusive. -/
inductive StartCondition where
  | INITIAL
  | STATE_COMMENT
deriving DecidableEq, Repr

/-! ### Patterns

A pattern gives the length of its longest match at the start of a text, or `0`.
-/

/-- A text in quotes without letters. -/
def literal (word : List Char) (s : List Char) : Nat :=
  if word.isPrefixOf s then word.length else 0

/-- A keyword; `%option caseless`. -/
def keyword (word : String) (s : List Char) : Nat := literal word.toList (s.map Char.toUpper)

/-- The length of the longest run of characters of a kind. -/
def runLength (p : Char → Bool) (s : List Char) : Nat := (s.takeWhile p).length

/-- `"--".*` -/
def lineComment (s : List Char) : Nat :=
  match s with
  | '-' :: '-' :: s => 2 + runLength (· ≠ '\n') s
  | _ => 0

/-- `white_space`. -/
def whiteSpace (s : List Char) : Nat := runLength (fun c => c = ' ' || c = '\t') s

/-- `new_line`. -/
def newLine (s : List Char) : Nat :=
  match s with
  | '\r' :: '\n' :: _ => 2
  | '\r' :: _ => 1
  | '\n' :: _ => 1
  | _ => 0

/-- One character of a kind. -/
def oneOf (p : Char → Bool) (s : List Char) : Nat :=
  match s with
  | c :: _ => if p c then 1 else 0
  | [] => 0

/-- `identifier`. -/
def identifier (s : List Char) : Nat :=
  match s with
  | c :: s => if c.isAlpha then 1 + runLength (fun c => c = '_' || c.isAlphanum) s else 0
  | [] => 0

/-- `{sign}?`. -/
def signLength (s : List Char) : Nat := oneOf (fun c => c = '+' || c = '-') s

/-- `value_int`. -/
def valueInt (s : List Char) : Nat :=
  let digits := runLength Char.isDigit (s.drop (signLength s))
  if digits = 0 then 0 else signLength s + digits

/-- `value_float`. -/
def valueFloat (s : List Char) : Nat :=
  let n := valueInt s
  match s.drop n with
  | '.' :: s => if n = 0 then 0 else n + 1 + runLength Char.isDigit s
  | _ => 0

/-- `value_string`. -/
def valueString (s : List Char) : Nat :=
  match s with
  | '\'' :: s =>
    let n := runLength (· ≠ '\'') s
    if n < s.length then n + 2 else 0
  | _ => 0

/-! ### Rules -/

/-- What the action of a rule does: the text is ignored, the start condition changes, or a token is
returned. -/
inductive LexAction (φ : Type) where
  | ignore
  | begin (condition : StartCondition)
  | ret (token : Token φ)

/-- `atoi`: the number is read as a `long`, within its bounds, and cut down to an `int`. -/
def atoi (text : List Char) : Int32 :=
  let n : Int := Nat.ofDigitChars 10 (text.drop (signLength text)) 0
  let n := if text.head? = some '-' then -n else n
  Int32.ofInt (max (-2 ^ 63) (min n (2 ^ 63 - 1)))

/-- The keywords with their tokens. -/
def keywords : List (String × Word) :=
  [("SHOW", .SHOW), ("BEGIN", .TXN_BEGIN), ("COMMIT", .TXN_COMMIT), ("ABORT", .TXN_ABORT),
    ("ROLLBACK", .TXN_ROLLBACK), ("TABLES", .TABLES), ("CREATE", .CREATE), ("TABLE", .TABLE),
    ("DROP", .DROP), ("DESC", .DESC), ("INSERT", .INSERT), ("INTO", .INTO), ("VALUES", .VALUES),
    ("DELETE", .DELETE), ("FROM", .FROM), ("WHERE", .WHERE), ("UPDATE", .UPDATE), ("SET", .SET),
    ("SELECT", .SELECT), ("INT", .INT), ("CHAR", .CHAR), ("FLOAT", .FLOAT), ("INDEX", .INDEX),
    ("AND", .AND), ("JOIN", .JOIN), ("EXIT", .EXIT), ("HELP", .HELP)]

/-- The operators with their tokens. -/
def operators : List (List Char × Word) :=
  [(['>', '='], .GEQ), (['<', '='], .LEQ), (['<', '>'], .NEQ), ([';'], .semicolon), (['('], .lparen),
    ([')'], .rparen), ([','], .comma), (['*'], .star), (['='], .equals), (['>'], .greater),
    (['<'], .less), (['.'], .dot)]

/-- A rule: its pattern, and its action on the text that was matched. -/
structure LexRule (φ : Type) where
  pattern : List Char → Nat
  action : List Char → LexAction φ

variable {φ : Type} (atof : List Char → φ)

/-- The rules of a start condition, in the order of the source. -/
def lexRules : StartCondition → List (LexRule φ)
  | .INITIAL =>
    [⟨literal ['/', '*'], fun _ => .begin .STATE_COMMENT⟩, ⟨lineComment, fun _ => .ignore⟩,
      ⟨whiteSpace, fun _ => .ignore⟩, ⟨newLine, fun _ => .ignore⟩] ++
    keywords.map (fun entry => ⟨keyword entry.1, fun _ => .ret (.word entry.2)⟩) ++
    operators.map (fun entry => ⟨literal entry.1, fun _ => .ret (.word entry.2)⟩) ++
    [⟨identifier, fun text => .ret (.identifier (String.ofList text))⟩,
      ⟨valueInt, fun text => .ret (.valueInt (atoi text))⟩,
      ⟨valueFloat, fun text => .ret (.valueFloat (atof text))⟩,
      ⟨valueString, fun text => .ret (.valueString (String.ofList text.tail.dropLast))⟩,
      -- the message about an unexpected character
      ⟨oneOf (· ≠ '\n'), fun _ => .ignore⟩]
  | .STATE_COMMENT =>
    [⟨literal ['*', '/'], fun _ => .begin .INITIAL⟩, ⟨oneOf (· ≠ '*'), fun _ => .ignore⟩,
      ⟨oneOf (· = '*'), fun _ => .ignore⟩]

/-- The longest match at the start of a text, of several the first; a character that no rule matches
is passed on. -/
def longestMatch (s : List Char) : List (LexRule φ) → Nat × LexAction φ
  | [] => (0, .ignore)
  | rule :: rules =>
    let best := longestMatch s rules
    let n := rule.pattern s
    if n < best.1 ∨ n = 0 then best else (n, rule.action (s.take n))

/-- `yylex`: the next token, the start condition after it, and the text behind it.  The first `skip`
characters belong to the match before. -/
def yylex (condition : StartCondition) (skip : Nat) : List Char →
    Token φ × StartCondition × List Char
  | [] => (.word .T_EOF, condition, [])
  | c :: s =>
    match skip with
    | k + 1 => yylex condition k s
    | 0 =>
      match longestMatch (c :: s) (lexRules atof condition) with
      | (n, .ret token) => (token, condition, (c :: s).drop n)
      | (n, .ignore) => yylex condition (n - 1) s
      | (n, .begin condition') => yylex condition' (n - 1) s

/-! ### Requests -/

variable [Inhabited φ]

/-- What comes of a request: the tokens the parser asked for, and how it ended. -/
structure Response (φ : Type) [Inhabited φ] where
  tokens : List (Token φ)
  status : ShiftReduce.Status (Ast.SemValue φ) (Option (Ast.TreeNode φ))

/-- `yyparse` on what is left of a text.  Each token but the last, the end of the text, takes at least
one character, so a round for each of them is enough. -/
def yyparse : Nat → Yyparse φ → StartCondition → List Char → Response φ × StartCondition
  | 0, p, condition, _ => (⟨[], p.status⟩, condition)
  | n + 1, p, condition, s =>
    match p.status with
    | .wants _ =>
      let (token, condition, s) := yylex atof condition 0 s
      let (response, condition) := yyparse n (p.read token) condition s
      (⟨token :: response.tokens, response.status⟩, condition)
    | _ => (⟨[], p.status⟩, condition)

/-- What one `read` of `client_handler` gives.  The buffer is cleared before; one that is filled up
with other characters than the null character would not end as a string. -/
structure ClientRequest where
  received : List Char
  nonempty : received ≠ []
  byte : ∀ c ∈ received, c.toNat < 256
  fits : received.length ≤ bufferLength
  ends : received.length < bufferLength ∨ '\x00' ∈ received

/-- `data_recv` as a string. -/
def ClientRequest.dataRecv (request : ClientRequest) : List Char :=
  request.received.takeWhile (· ≠ '\x00')

/-- `client_handler` on one request: `yy_scan_string`, `yyparse`, `yy_delete_buffer`.  The request
`exit` ends the connection before that. -/
def clientHandler (condition : StartCondition) (request : ClientRequest) :
    Option (Response φ) × StartCondition :=
  let data := request.dataRecv
  if data = ['e', 'x', 'i', 't'] then (none, condition)
  else
    let (response, condition) := yyparse atof (data.length + 1) {} condition data
    (some response, condition)

/-- The start condition after a history of requests. -/
def conditionAfter (history : List ClientRequest) : StartCondition :=
  history.foldl (fun condition request => (clientHandler atof condition request).2) .INITIAL

/-- What comes of a request after a history. -/
def respond (history : List ClientRequest) (request : ClientRequest) : Option (Response φ) :=
  (clientHandler atof (conditionAfter atof history) request).1

end Rucbase
