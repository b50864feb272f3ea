import Rucbase.Lib.ShiftReduce

/-!
# What a table-driven parser accepts

A reduction pops as many states as its rule has symbols and does not look at them.  That they are
the right ones follows from the table.  `past` gives for every state symbols that are on top of the
stack whenever the state is; a table is *valid* for `past` if every edge and every reduction agree
with it (`Grammar.Valid`), which can be checked state by state.

Then a property of the stack that every shift and every reduction by a rule keeps
(`Grammar.Invariant`) holds throughout a parse, and what is accepted was made of the tokens that
have been read (`Grammar.Invariant.feed`).
-/

namespace ShiftReduce

variable {T N R V A τ : Type}

/-- An entry of the stack with the tokens it was made of.  The one at the bottom has no symbol. -/
structure Frame (T N V τ : Type) where
  sym : Option (T ⊕ N)
  word : List τ
  val : V

/-- The tokens of a stack, the top first. -/
def words (fs : List (Frame T N V τ)) : List τ := (fs.map Frame.word).reverse.flatten

@[simp]
theorem words_nil : words ([] : List (Frame T N V τ)) = [] := rfl

@[simp]
theorem words_cons (f : Frame T N V τ) (fs : List (Frame T N V τ)) :
    words (f :: fs) = words fs ++ f.word := by
  simp [words]

theorem words_append (fs gs : List (Frame T N V τ)) : words (fs ++ gs) = words gs ++ words fs := by
  simp [words]

/-- Every state of a stack has the symbols on top that it should have. -/
def Tracks (past : Nat → List (Option (T ⊕ N))) : List Nat → List (Frame T N V τ) → Prop
  | [], [] => True
  | q :: qs, f :: fs => past q <+: (f :: fs).map Frame.sym ∧ Tracks past qs fs
  | _, _ => False

section Tracks

variable {past : Nat → List (Option (T ⊕ N))} {qs : List Nat} {fs : List (Frame T N V τ)}

theorem Tracks.length_eq (h : Tracks past qs fs) : qs.length = fs.length := by
  induction qs generalizing fs with
  | nil =>
    cases fs with
    | nil => rfl
    | cons f fs => exact h.elim
  | cons q qs ih =>
    cases fs with
    | nil => exact h.elim
    | cons f fs => rw [List.length_cons, List.length_cons, ih h.2]

theorem Tracks.drop (h : Tracks past qs fs) (n : Nat) : Tracks past (qs.drop n) (fs.drop n) := by
  induction n generalizing qs fs with
  | zero => exact h
  | succ n ih =>
    cases qs with
    | nil =>
      cases fs with
      | nil => trivial
      | cons f fs => exact h.elim
    | cons q qs =>
      cases fs with
      | nil => exact h.elim
      | cons f fs => exact ih h.2

/-- The symbols under the top state. -/
theorem Tracks.past_top (h : Tracks past qs fs) (hne : qs ≠ []) :
    past (qs.headD 0) <+: fs.map Frame.sym := by
  cases qs with
  | nil => exact absurd rfl hne
  | cons q qs =>
    cases fs with
    | nil => exact h.elim
    | cons f fs => exact h.1

/-- Follow an edge of the table. -/
theorem Tracks.push (h : Tracks past qs fs) (hne : qs ≠ []) {f : Frame T N V τ} {q : Nat}
    (hedge : past q <+: f.sym :: past (qs.headD 0)) : Tracks past (q :: qs) (f :: fs) := by
  refine ⟨hedge.trans ?_, h⟩
  rw [List.map_cons, List.cons_prefix_cons]
  exact ⟨rfl, h.past_top hne⟩

end Tracks

variable [DecidableEq T] [DecidableEq N] [Inhabited V]

namespace Grammar

/-- The edges and the reductions of the table agree with `past`: a rule is used only where `View` of
the rule holds of the symbols on top. -/
structure Valid (G : Grammar T N R V A) (View : R → List (Option (T ⊕ N)) → Prop)
    (past : Nat → List (Option (T ⊕ N))) : Prop where
  shift : ∀ q t q', (G.row q).shift.lookup t = some q' → past q' <+: some (.inl t) :: past q
  goto : ∀ q n q', (G.row q).goto.lookup n = some q' → past q' <+: some (.inr n) :: past q
  reduce : ∀ q t r, (G.row q).reduce.lookup t = some r → View r (past q)
  default : ∀ q r, (G.row q).default = some r → View r (past q)

/-- `View` of a rule holds on top of a stack. -/
def Sees (View : R → List (Option (T ⊕ N)) → Prop) (r : R) (fs : List (Frame T N V τ)) : Prop :=
  ∃ top, View r top ∧ top <+: fs.map Frame.sym

/-- The action of a rule on a stack and the slots above it. -/
def actOn (G : Grammar T N R V A) (r : R) (fs : List (Frame T N V τ)) (above : List V) : V ⊕ A :=
  G.act r (fun i => (fs.map Frame.val).getD (G.len r - i) Inhabited.default)
    (if G.len r = 0 then above.headD Inhabited.default
      else (fs.map Frame.val).getD (G.len r - 1) Inhabited.default)

/-- A property of the stack, with the slots above its top, that shifts and reductions keep, and what
is known of an answer and the tokens up to it. -/
structure Invariant (G : Grammar T N R V A) (View : R → List (Option (T ⊕ N)) → Prop)
    (Reads : τ → T → V → Prop) (I : List (Frame T N V τ) → List V → Prop)
    (Accepts : A → List τ → Prop) : Prop where
  shift : ∀ fs above token t v, Reads token t v → I fs above →
    I (⟨some (.inl t), [token], v⟩ :: fs) above.tail
  reduce : ∀ r fs rest above v, I (fs ++ rest) above → rest ≠ [] → fs.length = G.len r →
    Sees View r (fs ++ rest) → G.actOn r (fs ++ rest) above = .inl v →
    I (⟨some (.inr (G.lhs r)), words fs, v⟩ :: rest) ((fs.map Frame.val).reverse ++ above).tail
  accept : ∀ r fs rest above a, I (fs ++ rest) above → rest ≠ [] → fs.length = G.len r →
    Sees View r (fs ++ rest) → G.actOn r (fs ++ rest) above = .inr a →
    Accepts a (words (fs ++ rest))

/-- The stack has been made of the tokens `w`. -/
def Made (past : Nat → List (Option (T ⊕ N))) (I : List (Frame T N V τ) → List V → Prop)
    (s : Stack V) (w : List τ) : Prop :=
  ∃ fs, Tracks past s.states fs ∧ s.states ≠ [] ∧ s.vals = fs.map Frame.val ∧ I fs s.above ∧
    words fs = w

/-- Where a parse stands after the tokens `w`. -/
def After (past : Nat → List (Option (T ⊕ N))) (I : List (Frame T N V τ) → List V → Prop)
    (Accepts : A → List τ → Prop) (w : List τ) : Status V A → Prop
  | .wants s => Made past I s w
  | .accepted a => Accepts a w
  | _ => True

variable {G : Grammar T N R V A} {View : R → List (Option (T ⊕ N)) → Prop}
  {past : Nat → List (Option (T ⊕ N))} {Reads : τ → T → V → Prop}
  {I : List (Frame T N V τ) → List V → Prop} {Accepts : A → List τ → Prop}
  {s : Stack V} {w : List τ}

namespace Invariant

variable (hG : G.Valid View past) (hI : G.Invariant View Reads I Accepts)

include hG hI

/-- **A reduction** by a rule of the state. -/
theorem reduces {r : R} (h : View r (past s.top)) (hs : Made past I s w) :
    match G.reduce s r with
    | .inl s' => Made past I s' w
    | .inr status => After past I Accepts w status := by
  obtain ⟨all, htracks, hstates, hvals, hfs, rfl⟩ := hs
  have hlength := htracks.length_eq
  unfold Grammar.reduce
  by_cases hshort : s.states.length ≤ G.len r
  · simp only [if_pos hshort, After]
  -- the entries that are popped, and the others
  obtain ⟨fs, rest, rfl, hn⟩ : ∃ fs rest, all = fs ++ rest ∧ fs.length = G.len r := by
    refine ⟨all.take (G.len r), all.drop (G.len r), (List.take_append_drop _ _).symm, ?_⟩
    rw [List.length_take]
    omega
  have hview : Sees View r (fs ++ rest) := ⟨_, h, htracks.past_top hstates⟩
  have hne : rest ≠ [] := by
    rintro rfl
    rw [List.append_nil] at hlength
    omega
  simp only [if_neg hshort, hvals]
  cases hact : G.actOn r (fs ++ rest) s.above with
  | inr a =>
    have haccept := hI.accept r fs rest s.above a hfs hne hn hview hact
    unfold actOn at hact
    simpa only [hact, After] using haccept
  | inl v =>
    have habove := hI.reduce r fs rest s.above v hfs hne hn hview hact
    unfold actOn at hact
    simp only [hact]
    have hdrop : Tracks past (s.states.drop (G.len r)) rest := by
      have htail := htracks.drop fs.length
      rw [List.drop_left] at htail
      rwa [← hn]
    have hdropne : s.states.drop (G.len r) ≠ [] := by
      intro hnil
      have := congrArg List.length hnil
      rw [List.length_drop, List.length_nil] at this
      omega
    cases hgoto : (G.row (s.pop (G.len r)).top).goto.lookup (G.lhs r) with
    | none => simp only [After]
    | some q =>
      refine ⟨⟨some (.inr (G.lhs r)), words fs, v⟩ :: rest, ?_, List.cons_ne_nil _ _, ?_, ?_, ?_⟩
      · exact hdrop.push hdropne (hG.goto _ _ _ hgoto)
      · show v :: s.vals.drop (G.len r) = _
        rw [hvals, List.map_append, ← hn, ← List.length_map (f := Frame.val), List.drop_left,
          List.map_cons]
      · show I _ ((s.vals.take (G.len r)).reverse ++ s.above).tail
        rw [hvals, List.map_append, ← hn, ← List.length_map (f := Frame.val), List.take_left]
        exact habove
      · rw [words_cons, words_append]

/-- **Default reductions.** -/
theorem settleRounds (n : Nat) (hs : Made past I s w) :
    After past I Accepts w (G.settleRounds n s) := by
  induction n generalizing s with
  | zero => trivial
  | succ n ih =>
    rw [Grammar.settleRounds]
    split
    case isFalse => exact hs
    case isTrue =>
      cases hr : (G.row s.top).default with
      | none => trivial
      | some r =>
        have hstep := reduces hG hI (hG.default _ _ hr) hs
        cases hreduce : G.reduce s r with
        | inr status =>
          rw [hreduce] at hstep
          simpa only [hreduce] using hstep
        | inl s' =>
          rw [hreduce] at hstep
          simpa only [hreduce] using ih hstep

/-- **A token.**  An answer may come before the token is used. -/
theorem feed {token : τ} {t : T} {v : V} (ht : Reads token t v) (hs : Made past I s w) :
    After past I Accepts (w ++ [token]) (G.feed t v s) ∨
      ∃ a, G.feed t v s = .accepted a ∧ Accepts a w := by
  unfold Grammar.feed
  induction G.fuel s generalizing s with
  | zero => exact Or.inl trivial
  | succ n ih =>
    rw [Grammar.feedRounds]
    cases hshift : (G.row s.top).shift.lookup t with
    | some q =>
      obtain ⟨fs, htracks, hne, hvals, hfs, rfl⟩ := hs
      refine Or.inl (settleRounds hG hI _ ⟨⟨some (.inl t), [token], v⟩ :: fs, ?_, ?_, ?_, ?_, ?_⟩)
      · exact htracks.push hne (hG.shift _ _ _ hshift)
      · exact List.cons_ne_nil _ _
      · show v :: s.vals = _
        rw [hvals, List.map_cons]
      · exact hI.shift fs s.above token t v ht hfs
      · rw [words_cons]
    | none =>
      cases hr : G.ruleOn s t with
      | none => exact Or.inl trivial
      | some r =>
        have hpast : View r (past s.top) := by
          unfold ruleOn at hr
          cases hon : (G.row s.top).reduce.lookup t with
          | some r' =>
            rw [hon] at hr
            exact hG.reduce _ _ _ (hon.trans hr)
          | none =>
            rw [hon] at hr
            exact hG.default _ _ hr
        have hstep := reduces hG hI hpast hs
        cases hreduce : G.reduce s r with
        | inl s' =>
          rw [hreduce] at hstep
          simpa only [hreduce] using ih hstep
        | inr status =>
          rw [hreduce] at hstep
          cases status with
          | accepted a => exact Or.inr ⟨a, by simp only [hreduce], hstep⟩
          | rejected => exact Or.inl (by simp only [hreduce, After])
          | outOfFuel => exact Or.inl (by simp only [hreduce, After])
          | wants s' => exact absurd hreduce (by
              unfold Grammar.reduce
              simp only
              repeat' split
              all_goals simp)

end Invariant

end Grammar

end ShiftReduce
