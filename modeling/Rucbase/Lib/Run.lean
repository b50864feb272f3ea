import Mathlib.Tactic.Common

/-!
# Runs of a step relation

A run from a state is the list of its actions, each with the state it leads to.  `Along` states a
property of every transition of a run, `along_of_invariant` is the invariant rule, and
`forall_iff_along` the exact form: when a step keeps the invariant exactly under a condition on
the state before it, the invariant holds in every state of a run exactly when every step meets the
condition.
-/

variable {σ α : Type}

/-- The runs of `step` from a state: the actions taken, each with the state after it. -/
inductive Run (step : σ → α → σ → Prop) : σ → List (α × σ) → Prop where
  | nil (s : σ) : Run step s []
  | cons {s s' : σ} {a : α} {l : List (α × σ)} :
      step s a s' → Run step s' l → Run step s ((a, s') :: l)

/-- A property of every transition of a run that starts in the given state. -/
def Along (P : σ → α → σ → Prop) : σ → List (α × σ) → Prop
  | _, [] => True
  | s, (a, s') :: l => P s a s' ∧ Along P s' l

theorem Along.of_forall {P : σ → α → σ → Prop} (h : ∀ s a s', P s a s') (s : σ)
    (l : List (α × σ)) : Along P s l := by
  induction l generalizing s with
  | nil => trivial
  | cons e l ih => exact ⟨h s e.1 e.2, ih e.2⟩

namespace Run

variable {step : σ → α → σ → Prop} {I : σ → Prop} {C Q : σ → α → σ → Prop}

theorem imp {step' : σ → α → σ → Prop} (h : ∀ s a s', step s a s' → step' s a s') {s : σ}
    {l : List (α × σ)} (hrun : Run step s l) : Run step' s l := by
  induction hrun with
  | nil s => exact .nil s
  | cons hs _ ih => exact .cons (h _ _ _ hs) ih

/-- A run along which a condition is met is a run of steps that meet it. -/
theorem and_of_along {s : σ} {l : List (α × σ)} (hrun : Run step s l) (hC : Along C s l) :
    Run (fun s a s' => C s a s' ∧ step s a s') s l := by
  induction hrun with
  | nil s => exact .nil s
  | cons h _ ih => exact .cons ⟨hC.1, h⟩ (ih hC.2)

/-- **The invariant rule.**  If a step that meets `C` keeps `I` and has property `Q`, then in a run
whose steps all meet `C` the invariant holds in every state and `Q` of every transition. -/
theorem along_of_invariant (hstep : ∀ s a s', I s → step s a s' → C s a s' → I s' ∧ Q s a s')
    {s : σ} {l : List (α × σ)} (hrun : Run step s l) (hs : I s) (hC : Along C s l) :
    (∀ e ∈ l, I e.2) ∧ Along Q s l := by
  induction hrun with
  | nil s => exact ⟨fun e he => (by cases he), trivial⟩
  | cons h _ ih =>
    obtain ⟨hI, hQ⟩ := hstep _ _ _ hs h hC.1
    obtain ⟨h1, h2⟩ := ih hI hC.2
    refine ⟨fun e he => ?_, hQ, h2⟩
    rcases List.mem_cons.mp he with rfl | he
    · exact hI
    · exact h1 e he

/-- **Exact conditions.**  Let every step from a state that satisfies `J` and `I` keep `J`, and keep
`I` exactly when it meets `C`.  Then `I` holds after every step of a run exactly when every step
meets `C`. -/
theorem forall_iff_along {J : σ → Prop}
    (hstep : ∀ s a s', J s → I s → step s a s' → J s' ∧ (I s' ↔ C s a s'))
    {s : σ} {l : List (α × σ)} (hrun : Run step s l) (hJ : J s) (hs : I s) :
    (∀ e ∈ l, I e.2) ↔ Along C s l := by
  induction hrun with
  | nil s => simp [Along]
  | cons h _ ih =>
    obtain ⟨hJ', hiff⟩ := hstep _ _ _ hJ hs h
    constructor
    · intro hall
      have hI := hall _ (List.mem_cons_self ..)
      exact ⟨hiff.mp hI, (ih hJ' hI).mp fun e he => hall e (List.mem_cons_of_mem _ he)⟩
    · rintro ⟨hC, hrest⟩ e he
      have hI := hiff.mpr hC
      rcases List.mem_cons.mp he with rfl | he
      · exact hI
      · exact (ih hJ' hI).mpr hrest e he

/-- **Exact conditions on transitions.**  Let every step from a state that satisfies `I` have
property `Q` exactly when it meets `C`, and keep `I` when it does.  Then every step of a run has the
property exactly when every step meets `C`. -/
theorem along_iff_along (hstep : ∀ s a s', I s → step s a s' → (Q s a s' ↔ C s a s'))
    (hkeep : ∀ s a s', I s → step s a s' → C s a s' → I s')
    {s : σ} {l : List (α × σ)} (hrun : Run step s l) (hs : I s) :
    Along Q s l ↔ Along C s l := by
  induction hrun with
  | nil s => exact Iff.rfl
  | cons h _ ih =>
    have hiff := hstep _ _ _ hs h
    constructor
    · rintro ⟨hQ, hrest⟩
      have hC := hiff.mp hQ
      exact ⟨hC, (ih (hkeep _ _ _ hs h hC)).mp hrest⟩
    · rintro ⟨hC, hrest⟩
      exact ⟨hiff.mpr hC, (ih (hkeep _ _ _ hs h hC)).mpr hrest⟩

/-- **Simulation of runs.**  If every step from a state related to one of another machine has
a step of that machine with the same label, to related states, then every run has a run of that
machine with the same labels through related states. -/
theorem simulates {τ β : Type} {step' : τ → β → τ → Prop} {R : σ → τ → Prop} {g : α → β}
    (hstep : ∀ s t a s', R s t → step s a s' → ∃ t', step' t (g a) t' ∧ R s' t')
    {s : σ} {l : List (α × σ)} (hrun : Run step s l) {t : τ} (hR : R s t) :
    ∃ l' : List (β × τ), Run step' t l' ∧
      List.Forall₂ (fun e e' => e'.1 = g e.1 ∧ R e.2 e'.2) l l' := by
  induction hrun generalizing t with
  | nil s => exact ⟨[], .nil t, .nil⟩
  | @cons s s' a l h _ ih =>
    obtain ⟨t', ht, hR'⟩ := hstep s t a s' hR h
    obtain ⟨l', hrun', hall⟩ := ih hR'
    exact ⟨(g a, t') :: l', .cons ht hrun', .cons ⟨rfl, hR'⟩ hall⟩

end Run

/-! ### Machines with answers -/

section Answers

variable {τ β : Type}

/-- The answers to a list of inputs, and the state in which the machine ends. -/
def answers (step : σ → α → β × σ) : σ → List α → List β × σ
  | s, [] => ([], s)
  | s, a :: l => ((step s a).1 :: (answers step (step s a).2 l).1, (answers step (step s a).2 l).2)

/-- **Simulation.**  If related states answer every input in the same way and go to related states,
they answer every list of inputs in the same way and end in related states. -/
theorem answers_simulation {step : σ → α → β × σ} {step' : τ → α → β × τ} {R : σ → τ → Prop}
    (hstep : ∀ s t a, R s t → (step s a).1 = (step' t a).1 ∧ R (step s a).2 (step' t a).2)
    {s : σ} {t : τ} (hR : R s t) (l : List α) :
    (answers step s l).1 = (answers step' t l).1 ∧
      R (answers step s l).2 (answers step' t l).2 := by
  induction l generalizing s t with
  | nil => exact ⟨rfl, hR⟩
  | cons a l ih =>
    obtain ⟨h1, h2⟩ := hstep s t a hR
    obtain ⟨h3, h4⟩ := ih h2
    constructor
    · unfold answers
      rw [h1, h3]
    · exact h4

/-- Every input meets a condition on the state that the machine is in. -/
def Meets (C : τ → α → Prop) (f : τ → α → β × τ) : τ → List α → Prop
  | _, [] => True
  | t, a :: l => C t a ∧ Meets C f (f t a).2 l

/-- The state in which a run ends. -/
def lastState : σ → List (α × σ) → σ
  | s, [] => s
  | _, (_, s') :: l => lastState s' l

/-- A run that is not empty ends in one of its states. -/
theorem lastState_mem : ∀ (s : σ) {l : List (α × σ)}, l ≠ [] →
    ∃ a, (a, lastState s l) ∈ l
  | _, [], h => absurd rfl h
  | _, [(a, _)], _ => ⟨a, by simp [lastState]⟩
  | _, (_, s') :: e :: l, _ => by
    obtain ⟨a, ha⟩ := lastState_mem s' (l := e :: l) (by simp)
    exact ⟨a, List.mem_cons_of_mem _ ha⟩

/-- **Refinement along a run.**  Let every step of a run that meets `C`, from a state that stands
for a state of a machine, answer as the machine does and lead to a state that stands for its next
one.  Then the run answers as the machine does, and its states stand for states of the machine; the
last one stands for the state in which the machine ends. -/
theorem Run.refines {step : σ → α × β → σ → Prop} {C : σ → α × β → σ → Prop}
    {f : τ → α → β × τ} {R : σ → τ → Prop}
    (hstep : ∀ s t a s', R s t → step s a s' → C s a s' →
      a.2 = (f t a.1).1 ∧ R s' (f t a.1).2)
    {s : σ} {l : List ((α × β) × σ)} (hrun : Run step s l) {t : τ} (hR : R s t)
    (hC : Along C s l) :
    l.map (fun e => e.1.2) = (answers f t (l.map fun e => e.1.1)).1 ∧ (∀ e ∈ l, ∃ t', R e.2 t') ∧
      R (lastState s l) (answers f t (l.map fun e => e.1.1)).2 := by
  induction hrun generalizing t with
  | nil s => exact ⟨rfl, fun e he => (by cases he), hR⟩
  | cons h _ ih =>
    obtain ⟨hanswer, hR'⟩ := hstep _ t _ _ hR h hC.1
    obtain ⟨hrest, hall, hlast⟩ := ih hR' hC.2
    refine ⟨?_, fun e he => ?_, hlast⟩
    · rw [List.map_cons, List.map_cons, answers, hrest, hanswer]
    · rcases List.mem_cons.mp he with rfl | he
      · exact ⟨_, hR'⟩
      · exact hall e he

end Answers
