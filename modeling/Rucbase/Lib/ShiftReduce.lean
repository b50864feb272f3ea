import Mathlib.Tactic.Common

/-!
# Shift-reduce drivers

A table-driven shift-reduce parser as parser generators emit it: a stack of states with a value for
each, a table with the actions of a state, and one semantic action for each rule.  The driver asks
for a token only in a state whose action depends on it; in the others it does the default reduction.

The value slots above the top of the stack keep what was popped from them (`above`, nearest first).
The value of a rule starts as that of its first symbol, and for a rule without symbols as what the
slot above the top holds.
-/

namespace ShiftReduce

variable {T N R V A : Type}

/-- The actions of one state. -/
structure Row (T N R : Type) where
  shift : List (T × Nat) := []
  reduce : List (T × R) := []
  default : Option R := none
  goto : List (N × Nat) := []

/-- A parser: its table, its rules, and what their actions do with `$1`, `$2`, … and `$$`.  An action
that accepts ends the parse with an answer. -/
structure Grammar (T N R V A : Type) where
  row : Nat → Row T N R
  lhs : R → N
  len : R → Nat
  act : R → (Nat → V) → V → V ⊕ A
  /-- How many more reductions than states on the stack there may be without a shift. -/
  slack : Nat

/-- The stacks of states and values, the top first, and the slots above the top. -/
structure Stack (V : Type) where
  states : List Nat
  vals : List V
  above : List V

/-- Where a parse stands between two tokens. -/
inductive Status (V A : Type) where
  | wants (s : Stack V)
  | accepted (a : A)
  | rejected
  | outOfFuel

namespace Stack

def push (s : Stack V) (v : V) (state : Nat) : Stack V where
  states := state :: s.states
  vals := v :: s.vals
  above := s.above.tail

def pop (s : Stack V) (n : Nat) : Stack V where
  states := s.states.drop n
  vals := s.vals.drop n
  above := (s.vals.take n).reverse ++ s.above

def top (s : Stack V) : Nat := s.states.headD 0

end Stack

variable [DecidableEq T] [DecidableEq N] [Inhabited V] (G : Grammar T N R V A)

namespace Grammar

/-- Reduce with a rule. -/
def reduce (s : Stack V) (r : R) : Stack V ⊕ Status V A :=
  let n := G.len r
  let value := if n = 0 then s.above.headD default else s.vals.getD (n - 1) default
  if s.states.length ≤ n then .inr .rejected
  else
    match G.act r (fun i => s.vals.getD (n - i) default) value with
    | .inr a => .inr (.accepted a)
    | .inl v =>
      let s := s.pop n
      match (G.row s.top).goto.lookup (G.lhs r) with
      | none => .inr .rejected
      | some state => .inl (s.push v state)

/-- Rounds that are enough for the reductions between two shifts. -/
def fuel (s : Stack V) : Nat := s.states.length + G.slack

/-- Whether the state has one action, whatever the token is. -/
def Consistent (s : Stack V) : Prop :=
  (G.row s.top).shift.isEmpty && (G.row s.top).reduce.isEmpty

instance (s : Stack V) : Decidable (G.Consistent s) := inferInstanceAs (Decidable (_ = true))

def settleRounds : Nat → Stack V → Status V A
  | 0, _ => .outOfFuel
  | n + 1, s =>
    if G.Consistent s then
      match (G.row s.top).default with
      | none => .rejected
      | some r =>
        match G.reduce s r with
        | .inr status => status
        | .inl s => settleRounds n s
    else .wants s

/-- Default reductions, as far as no token is needed for them. -/
def settle (s : Stack V) : Status V A := G.settleRounds (G.fuel s) s

/-- The rule a state reduces with when the token is not shifted. -/
def ruleOn (s : Stack V) (t : T) : Option R :=
  (G.row s.top).reduce.lookup t <|> (G.row s.top).default

def feedRounds (t : T) (v : V) : Nat → Stack V → Status V A
  | 0, _ => .outOfFuel
  | n + 1, s =>
    match (G.row s.top).shift.lookup t with
    | some state => G.settle (s.push v state)
    | none =>
      match G.ruleOn s t with
      | none => .rejected
      | some r =>
        match G.reduce s r with
        | .inr status => status
        | .inl s => feedRounds t v n s

/-- Take in a token: reductions, the shift, and the reductions that need no other token. -/
def feed (t : T) (v : V) (s : Stack V) : Status V A := G.feedRounds t v (G.fuel s) s

/-! ### The rounds are enough -/

/-- Every reduction makes `μ` smaller, and `μ` is less than the rounds. -/
structure Bounded (μ : Stack V → Nat) : Prop where
  lt_fuel : ∀ s, μ s < G.fuel s
  reduce_default : ∀ s r s', (G.row s.top).default = some r → G.reduce s r = .inl s' → μ s' < μ s
  reduce_on : ∀ s t r s', G.ruleOn s t = some r → G.reduce s r = .inl s' → μ s' < μ s

variable {G} {μ : Stack V → Nat} {s s' : Stack V} {t : T} {v : V} {r : R}

/-- Any two numbers of rounds above `μ` give the same. -/
theorem Bounded.feedRounds_eq (hG : G.Bounded μ) {n m : Nat} (hn : μ s < n) (hm : μ s < m) :
    G.feedRounds t v n s = G.feedRounds t v m s := by
  induction n generalizing s m with
  | zero => omega
  | succ n ih =>
    cases m with
    | zero => omega
    | succ m =>
      rw [feedRounds, feedRounds]
      cases (G.row s.top).shift.lookup t with
      | some state => rfl
      | none =>
        cases hr : G.ruleOn s t with
        | none => rfl
        | some r =>
          cases hs : G.reduce s r with
          | inr status => simp only [hs]
          | inl s' =>
            have hlt := hG.reduce_on s t r s' hr hs
            simpa only [hs] using ih (by omega : μ s' < n) (by omega : μ s' < m)

/-- A reduction on the way to the shift of a token. -/
theorem Bounded.feed_reduce (hG : G.Bounded μ) (hshift : (G.row s.top).shift.lookup t = none)
    (hr : G.ruleOn s t = some r) (hs : G.reduce s r = .inl s') : G.feed t v s = G.feed t v s' := by
  have hlt := hG.reduce_on s t r s' hr hs
  have hfuel := hG.lt_fuel s
  obtain ⟨n, hn⟩ : ∃ n, G.fuel s = n + 1 := ⟨G.fuel s - 1, by omega⟩
  rw [feed, hn, feedRounds, hshift]
  simp only [hr, hs]
  exact hG.feedRounds_eq (by omega) (hG.lt_fuel s')

end Grammar

end ShiftReduce
