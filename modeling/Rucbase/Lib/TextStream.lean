import Mathlib.Algebra.Group.Int.Defs
import Mathlib.Tactic.Common
import Mathlib.Tactic.FinCases

/-!
# Formatted text streams

Extraction from a text as the `>>` operators of a formatted stream do it: skip white space, read one
token, leave what follows.  A stream that fails stays failed, so a program of extractions is a
function to `Option`.

`Extracts d w a`: the extraction `d` reads the value `a` from the text `w`, whatever white space
comes before and whatever comes after, and leaves nothing but white space of `w`.  Texts of this
kind can be put one after another (`Extracts.bind`), and counted lists of them as well
(`Extracts.times`).
-/

namespace TextStream

/-- An extraction. -/
abbrev IStream := StateT (List Char) Option

variable {α β σ : Type}

/-- `isspace`. -/
def isSpace (c : Char) : Bool := [' ', '\t', '\n', '\x0b', '\x0c', '\r'].elem c

/-- Skip white space. -/
def skipSpace : IStream Unit := modify fun s => s.dropWhile isSpace

/-- Read the longest run of characters of a kind. -/
def takeAll (p : Char → Bool) : IStream (List Char) := fun s => some (s.takeWhile p, s.dropWhile p)

/-- Read a sign, if there is one: whether it is a minus. -/
def takeSign : IStream Bool
  | '-' :: s => some (true, s)
  | '+' :: s => some (false, s)
  | s => some (false, s)

/-- `>>` into a `std::string`. -/
def extractString : IStream String := do
  skipSpace
  let token ← takeAll fun c => !isSpace c
  if token = [] then failure else return String.ofList token

/-- `>>` into a number: the longest run of digits behind an optional sign. -/
def extractInteger : IStream Int := do
  skipSpace
  let negative ← takeSign
  let digits ← takeAll Char.isDigit
  if digits = [] then failure
  else
    let n := Nat.ofDigitChars 10 digits 0
    return if negative then -(n : Int) else n

/-- `>>` into an `int`; a number that is too large for it fails. -/
def extractInt : IStream Int32 := do
  let n ← extractInteger
  if -2 ^ 31 ≤ n ∧ n < 2 ^ 31 then return Int32.ofInt n else failure

/-- `>>` into a `size_t`; the sizes of containers are not too large for it. -/
def extractSize : IStream Nat := do
  let n ← extractInteger
  return n.toNat

/-- `>>` into a `bool`. -/
def extractBool : IStream Bool := do
  let n ← extractInteger
  if n = 0 then return false else if n = 1 then return true else failure

/-- A number as `<<` writes it. -/
def integer (n : Int) : List Char :=
  if n < 0 then '-' :: Nat.toDigits 10 n.natAbs else Nat.toDigits 10 n.natAbs

/-- A loop of `n` rounds, each an extraction that changes `σ`. -/
def times (body : σ → IStream σ) : Nat → σ → IStream σ
  | 0, x => return x
  | n + 1, x => do
    let x ← body x
    times body n x

/-! ### Texts that hold a value -/

/-- The extraction reads the value from the text. -/
def Extracts (d : IStream α) (w : List Char) (a : α) : Prop :=
  ∀ before rest, before.all isSpace →
    ∃ after, after.all isSpace ∧ d (before ++ w ++ rest) = some (a, after ++ rest)

namespace Extracts

variable {d : IStream α} {f : α → IStream β} {w w' : List Char} {a : α} {b : β}

theorem pure : Extracts (Pure.pure a : IStream α) [] a := by
  intro before rest hbefore
  refine ⟨before, hbefore, ?_⟩
  rw [List.append_nil]
  rfl

theorem bind (hd : Extracts d w a) (hf : Extracts (f a) w' b) :
    Extracts (d >>= f) (w ++ w') b := by
  intro before rest hbefore
  obtain ⟨mid, hmid, h1⟩ := hd before (w' ++ rest) hbefore
  obtain ⟨after, hafter, h2⟩ := hf mid rest hmid
  refine ⟨after, hafter, ?_⟩
  rw [List.append_assoc, List.append_assoc, ← List.append_assoc before]
  show (d (before ++ w ++ (w' ++ rest)) >>= fun r => f r.1 r.2) = _
  rw [h1]
  show f a (mid ++ (w' ++ rest)) = _
  rw [← List.append_assoc, h2]

/-- A value that is computed from the one that is read. -/
theorem map {g : α → β} (hd : Extracts d w a) : Extracts (do return g (← d)) w (g a) := by
  have h := hd.bind (f := fun a => Pure.pure (g a)) pure
  rwa [List.append_nil] at h

/-- White space at the end of a text is left over. -/
theorem append_space (hd : Extracts d w a) {c : Char} (hc : isSpace c) :
    Extracts d (w ++ [c]) a := by
  intro before rest hbefore
  obtain ⟨after, hafter, h⟩ := hd before (c :: rest) hbefore
  refine ⟨after ++ [c], ?_, ?_⟩
  · rw [List.all_append, hafter]
    simpa using hc
  · rw [List.append_assoc, List.append_assoc, List.append_assoc]
    rw [List.append_assoc] at h
    exact h

/-- **Counted lists.**  When each round reads the text of one element and folds it in, the loop folds
in the list. -/
theorem times {body : σ → IStream σ} {text : α → List Char} {f : σ → α → σ} :
    ∀ (l : List α) (x : σ), (∀ a ∈ l, ∀ x, Extracts (body x) (text a) (f x a)) →
      Extracts (TextStream.times body l.length x) (l.flatMap text) (l.foldl f x)
  | [], _, _ => pure
  | a :: l, x, hl => by
    have htail := times l (f x a) fun b hb => hl b (List.mem_cons_of_mem a hb)
    exact (hl a List.mem_cons_self x).bind htail

end Extracts

/-! ### Tokens -/

/-- A token without white space. -/
def IsToken (w : List Char) : Prop := w ≠ [] ∧ ∀ c ∈ w, isSpace c = false

instance (w : List Char) : Decidable (IsToken w) :=
  -- by the list, not by all characters
  @instDecidableAnd _ _ inferInstance (List.decidableBAll (fun c => isSpace c = false) w)

/-- An extraction that starts with one whose result is known. -/
theorem bind_of_eq {d : IStream α} {f : α → IStream β} {s s' : List Char} {a : α}
    (h : d s = some (a, s')) : (d >>= f) s = f a s' := by
  show (d s >>= fun r => f r.1 r.2) = _
  rw [h]
  rfl

/-- The longest run of characters of a kind, when the next one is of another kind. -/
theorem takeAll_append {p : Char → Bool} {w rest : List Char} {c : Char} (hw : ∀ x ∈ w, p x = true)
    (hc : p c = false) : takeAll p (w ++ c :: rest) = some (w, c :: rest) := by
  unfold takeAll
  rw [List.takeWhile_append_of_pos hw, List.dropWhile_append_of_pos hw,
    List.takeWhile_cons_of_neg (by simpa using hc), List.dropWhile_cons_of_neg (by simpa using hc),
    List.append_nil]

theorem skipSpace_append {before w : List Char} (hbefore : before.all isSpace)
    (hw : ∀ c ∈ w.head?, isSpace c = false) : skipSpace (before ++ w) = some ((), w) := by
  have hdrop : (before ++ w).dropWhile isSpace = w := by
    rw [List.dropWhile_append_of_pos (by simpa using hbefore)]
    cases w with
    | nil => rfl
    | cons c w => exact List.dropWhile_cons_of_neg (by simpa using hw c rfl)
  show some ((), (before ++ w).dropWhile isSpace) = _
  rw [hdrop]

/-- White space in front of a token is skipped. -/
theorem skipSpace_token {before w rest : List Char} (hbefore : before.all isSpace)
    (hw : IsToken w) : skipSpace (before ++ (w ++ rest)) = some ((), w ++ rest) := by
  refine skipSpace_append hbefore fun x hx => ?_
  cases w with
  | nil => exact absurd rfl hw.1
  | cons y l =>
    obtain rfl := Option.some.inj hx
    exact hw.2 y List.mem_cons_self

/-- A word and the white space behind it. -/
theorem extracts_string {name : String} (hname : IsToken name.toList) {c : Char} (hc : isSpace c) :
    Extracts extractString (name.toList ++ [c]) name := by
  intro before rest hbefore
  refine ⟨[c], by simpa using hc, ?_⟩
  have htake : takeAll (fun c => !isSpace c) (name.toList ++ c :: rest) =
      some (name.toList, c :: rest) :=
    takeAll_append (fun x hx => by simp [hname.2 x hx]) (by simpa using hc)
  have htext : before ++ (name.toList ++ [c]) ++ rest = before ++ (name.toList ++ c :: rest) := by
    simp
  rw [htext, extractString, bind_of_eq (skipSpace_token hbefore hname), bind_of_eq htake,
    if_neg hname.1, String.ofList_toList]
  rfl

/-! ### Numbers -/

/-- No white space is part of a number. -/
theorem isDigit_of_isSpace {c : Char} (hc : isSpace c) : c.isDigit = false := by
  have hmem : c ∈ [' ', '\t', '\n', '\x0b', '\x0c', '\r'] := List.mem_of_elem_eq_true hc
  fin_cases hmem <;> decide

theorem isDigit_of_mem_toDigits {n : Nat} {c : Char} (hc : c ∈ Nat.toDigits 10 n) :
    c.isDigit = true :=
  Nat.isDigit_of_mem_toDigits (by decide) (by decide) hc

theorem isToken_toDigits (n : Nat) : IsToken (Nat.toDigits 10 n) := by
  refine ⟨Nat.toDigits_ne_nil, fun c hc => ?_⟩
  by_contra hspace
  have hdigit := isDigit_of_isSpace (Bool.of_not_eq_false hspace)
  rw [isDigit_of_mem_toDigits hc] at hdigit
  contradiction

theorem isToken_integer (n : Int) : IsToken (integer n) := by
  rw [integer]
  split
  case isTrue =>
    refine ⟨List.cons_ne_nil _ _, fun c hc => ?_⟩
    rcases List.mem_cons.mp hc with rfl | hc
    · decide
    · exact (isToken_toDigits _).2 c hc
  case isFalse => exact isToken_toDigits _

/-- A text that starts with a digit has no sign. -/
theorem takeSign_of_isDigit {s : List Char} (hs : ∀ c ∈ s.head?, c.isDigit = true) :
    takeSign s = some (false, s) := by
  cases s with
  | nil => rfl
  | cons c s =>
    have hc : c.isDigit = true := hs c rfl
    rw [takeSign]
    · rintro s' heq
      obtain ⟨rfl, -⟩ := List.cons.inj heq
      revert hc
      decide
    · rintro s' heq
      obtain ⟨rfl, -⟩ := List.cons.inj heq
      revert hc
      decide

/-- The sign of a number. -/
theorem takeSign_integer (n : Int) (rest : List Char) :
    takeSign (integer n ++ rest) = some (decide (n < 0), Nat.toDigits 10 n.natAbs ++ rest) := by
  rw [integer]
  split
  case isTrue hn =>
    rw [decide_eq_true hn]
    rfl
  case isFalse hn =>
    rw [decide_eq_false hn]
    refine takeSign_of_isDigit fun c hc => ?_
    refine isDigit_of_mem_toDigits (n := n.natAbs) ?_
    cases hdigits : Nat.toDigits 10 n.natAbs with
    | nil => exact absurd hdigits Nat.toDigits_ne_nil
    | cons d l =>
      rw [hdigits] at hc
      obtain rfl := Option.some.inj hc
      exact List.mem_cons_self

/-- A number and the white space behind it. -/
theorem extracts_integer (n : Int) {c : Char} (hc : isSpace c) :
    Extracts extractInteger (integer n ++ [c]) n := by
  intro before rest hbefore
  refine ⟨[c], by simpa using hc, ?_⟩
  have htake : takeAll Char.isDigit (Nat.toDigits 10 n.natAbs ++ c :: rest) =
      some (Nat.toDigits 10 n.natAbs, c :: rest) :=
    takeAll_append (fun x hx => isDigit_of_mem_toDigits hx) (isDigit_of_isSpace hc)
  have htext : before ++ (integer n ++ [c]) ++ rest = before ++ (integer n ++ c :: rest) := by
    simp
  rw [htext, extractInteger, bind_of_eq (skipSpace_token hbefore (isToken_integer n)),
    bind_of_eq (takeSign_integer n _), bind_of_eq htake, if_neg Nat.toDigits_ne_nil]
  have hvalue : (if decide (n < 0) = true then -(n.natAbs : Int) else n.natAbs) = n := by
    split
    case isTrue hn =>
      have := of_decide_eq_true hn
      omega
    case isFalse hn =>
      have := of_decide_eq_false (Bool.of_not_eq_true hn)
      omega
  rw [Nat.ofDigitChars_ten_toDigits, hvalue]
  rfl

/-- A number that is checked or converted after it is read. -/
theorem Extracts.guard {d : IStream α} {f : α → IStream β} {w : List Char} {a : α} {b : β}
    (hd : Extracts d w a) (hf : f a = Pure.pure b) : Extracts (d >>= f) w b := by
  have hpure : Extracts (f a) [] b := by
    rw [hf]
    exact Extracts.pure
  have h := hd.bind hpure
  rwa [List.append_nil] at h

theorem extracts_int (n : Int32) {c : Char} (hc : isSpace c) :
    Extracts extractInt (integer n.toInt ++ [c]) n := by
  refine (extracts_integer n.toInt hc).guard ?_
  rw [if_pos ⟨n.le_toInt, n.toInt_lt⟩, Int32.ofInt_toInt]

theorem extracts_size (n : Nat) {c : Char} (hc : isSpace c) :
    Extracts extractSize (integer n ++ [c]) n :=
  (extracts_integer n hc).guard rfl

theorem extracts_bool (b : Bool) {c : Char} (hc : isSpace c) :
    Extracts extractBool (integer b.toNat ++ [c]) b := by
  refine (extracts_integer b.toNat hc).guard ?_
  cases b <;> rfl

end TextStream
