import Rucbase.Parser.Lex

/-!
# Tokens as text

How a token can be written in a request, and what may stand between two tokens.  A token is written
together with the text behind it: the scanner takes the longest match, so a word must not be
followed by a letter, a number not by a digit, and an operator not by a character that makes a
longer one.
-/

namespace Rucbase

variable {φ : Type} (atof : List Char → φ)

/-- A text does not start with a character of a kind. -/
def NotAhead (p : Char → Bool) (s : List Char) : Prop := ∀ c ∈ s.head?, p c = false

/-- A letter, a digit or an underscore. -/
def wordChar (c : Char) : Bool := c = '_' || c.isAlphanum

/-- The text of a name. -/
def IsName (w : List Char) : Prop := ∃ c s, w = c :: s ∧ c.isAlpha ∧ ∀ c ∈ s, wordChar c

/-- The text of a whole number. -/
def IsNumber (w : List Char) : Prop :=
  ∃ sign digits, w = sign ++ digits ∧ (sign = [] ∨ sign = ['+'] ∨ sign = ['-']) ∧ digits ≠ [] ∧
    ∀ c ∈ digits, c.isDigit

/-- A token is written `w` in front of `rest`. -/
inductive Lexeme : Token φ → List Char → List Char → Prop where
  | keyword {k t w rest} : (k, t) ∈ keywords → w.map Char.toUpper = k.toList →
      NotAhead wordChar rest → Lexeme (.word t) w rest
  | operator {w t rest} : (w, t) ∈ operators →
      (∀ op ∈ operators, op.1 <+: w ++ rest → op.1.length ≤ w.length) → Lexeme (.word t) w rest
  | identifier {w rest} : IsName w → (∀ k ∈ keywords, w.map Char.toUpper ≠ k.1.toList) →
      NotAhead wordChar rest → Lexeme (.identifier (String.ofList w)) w rest
  | valueInt {w rest} : IsNumber w → NotAhead (fun c => c = '.' || c.isDigit) rest →
      Lexeme (.valueInt (atoi w)) w rest
  | valueFloat {w digits rest} : IsNumber w → (∀ c ∈ digits, c.isDigit) →
      NotAhead Char.isDigit rest →
      Lexeme (.valueFloat (atof (w ++ '.' :: digits))) (w ++ '.' :: digits) rest
  | valueString {w rest} : '\'' ∉ w →
      Lexeme (.valueString (String.ofList w)) ('\'' :: (w ++ ['\''])) rest

/-- What may stand between two tokens: blanks, line ends and comments. -/
inductive Gap : List Char → Prop where
  | nil : Gap []
  | blank {c s} : c ∈ [' ', '\t', '\r', '\n'] → Gap s → Gap (c :: s)
  | line {v s} : '\n' ∉ v → Gap s → Gap ('-' :: '-' :: (v ++ '\n' :: s))
  | comment {v s} : ¬['*', '/'] <:+: v → Gap s → Gap ('/' :: '*' :: (v ++ '*' :: '/' :: s))

/-- A sequence of tokens written as a text. -/
inductive Text : List (Token φ) → List Char → Prop where
  | nil {s} : Gap s → Text [] s
  | cons {gap token w tokens rest} : Gap gap → Lexeme atof token w rest → Text tokens rest →
      Text (token :: tokens) (gap ++ (w ++ rest))

end Rucbase
