import Mathlib.Tactic.Common

/-!
# Running state with exceptions

`EStateM` programs as functions of the state.  The `_apply` lemmas run one primitive (they are
simp lemmas, so `simp` executes a `do` block symbolically), and the `_eq_ok_iff` lemmas peel a run
that ended normally apart.  Under `Except` stand the loops without state whose rounds do not throw.
-/

namespace EStateM

variable {ε σ α β : Type}

@[simp]
theorem pure_apply (a : α) (s : σ) : (pure a : EStateM ε σ α) s = .ok a s := rfl

@[simp]
theorem get_apply (s : σ) : (get : EStateM ε σ σ) s = .ok s s := rfl

@[simp]
theorem set_apply (t s : σ) : (set t : EStateM ε σ PUnit) s = .ok ⟨⟩ t := rfl

@[simp]
theorem modify_apply (f : σ → σ) (s : σ) : (modify f : EStateM ε σ PUnit) s = .ok ⟨⟩ (f s) := rfl

@[simp]
theorem throw_apply (e : ε) (s : σ) : (throw e : EStateM ε σ α) s = .error e s := rfl

theorem bind_apply (x : EStateM ε σ α) (f : α → EStateM ε σ β) (s : σ) :
    (x >>= f) s = match x s with
      | .ok a s' => f a s'
      | .error e s' => .error e s' := rfl

/-- Run the first part of a sequence, given its result. -/
theorem bind_of_ok {x : EStateM ε σ α} {f : α → EStateM ε σ β} {s s' : σ} {a : α}
    (h : x s = .ok a s') : (x >>= f) s = f a s' := by
  rw [bind_apply, h]

theorem bind_of_error {x : EStateM ε σ α} {f : α → EStateM ε σ β} {s s' : σ} {e : ε}
    (h : x s = .error e s') : (x >>= f) s = .error e s' := by
  rw [bind_apply, h]

@[simp]
theorem pure_bind_apply (a : α) (f : α → EStateM ε σ β) (s : σ) :
    ((pure a : EStateM ε σ α) >>= f) s = f a s := rfl

@[simp]
theorem get_bind_apply (f : σ → EStateM ε σ β) (s : σ) :
    ((get : EStateM ε σ σ) >>= f) s = f s s := rfl

@[simp]
theorem set_bind_apply (t : σ) (f : PUnit → EStateM ε σ β) (s : σ) :
    ((set t : EStateM ε σ PUnit) >>= f) s = f ⟨⟩ t := rfl

@[simp]
theorem modify_bind_apply (g : σ → σ) (f : PUnit → EStateM ε σ β) (s : σ) :
    ((modify g : EStateM ε σ PUnit) >>= f) s = f ⟨⟩ (g s) := rfl

@[simp]
theorem throw_bind_apply (e : ε) (f : α → EStateM ε σ β) (s : σ) :
    ((throw e : EStateM ε σ α) >>= f) s = .error e s := rfl

/-- A sequence ended normally: so did its first part, and the rest from there. -/
theorem bind_eq_ok_iff {x : EStateM ε σ α} {f : α → EStateM ε σ β} {s s'' : σ} {b : β} :
    (x >>= f) s = .ok b s'' ↔ ∃ a s', x s = .ok a s' ∧ f a s' = .ok b s'' := by
  rw [bind_apply]
  constructor
  · intro h
    split at h
    · next a s' hx => exact ⟨a, s', hx, h⟩
    · cases h
  · rintro ⟨a, s', hx, hf⟩
    rw [hx]
    exact hf

/-- A sequence ended by an exception: its first part did, or the rest from where it ended. -/
theorem bind_eq_error_iff {x : EStateM ε σ α} {f : α → EStateM ε σ β} {s s'' : σ} {e : ε} :
    (x >>= f) s = .error e s'' ↔
      x s = .error e s'' ∨ ∃ a s', x s = .ok a s' ∧ f a s' = .error e s'' := by
  rw [bind_apply]
  cases hx : x s with
  | ok a s' => simp
  | error e' s' => simp

/-- The state in which a program ends, normally or by an exception. -/
def after (x : EStateM ε σ α) (s : σ) : σ :=
  match x s with
  | .ok _ s' => s'
  | .error _ s' => s'

theorem after_of_ok {x : EStateM ε σ α} {s s' : σ} {a : α} (h : x s = .ok a s') :
    x.after s = s' := by
  rw [after, h]

theorem after_of_error {x : EStateM ε σ α} {s s' : σ} {e : ε} (h : x s = .error e s') :
    x.after s = s' := by
  rw [after, h]

theorem after_bind_of_ok {x : EStateM ε σ α} {f : α → EStateM ε σ β} {s s' : σ} {a : α}
    (h : x s = .ok a s') : (x >>= f).after s = (f a).after s' := by
  rw [after, bind_of_ok h, after]

theorem after_bind_of_error {x : EStateM ε σ α} {f : α → EStateM ε σ β} {s s' : σ} {e : ε}
    (h : x s = .error e s') : (x >>= f).after s = s' := by
  rw [after, bind_of_error h]

/-- **Whole runs of a sequence.**  A transitive relation between the state before and the state after
holds of a sequence if it holds of its parts, however they end. -/
theorem after_bind_of_trans {R : σ → σ → Prop} (htrans : ∀ s t u, R s t → R t u → R s u)
    {x : EStateM ε σ α} {f : α → EStateM ε σ β} {s : σ} (hx : R s (x.after s))
    (hf : ∀ a s', x s = .ok a s' → R s' ((f a).after s')) : R s ((x >>= f).after s) := by
  cases h : x s with
  | ok a s' =>
    rw [after_bind_of_ok h]
    rw [after_of_ok h] at hx
    exact htrans s s' _ hx (hf a s' h)
  | error e s' =>
    rw [after_bind_of_error h]
    rwa [after_of_error h] at hx

/-- The value with which a program ends, if it ends normally. -/
def value (x : EStateM ε σ α) (s : σ) : Option α :=
  match x s with
  | .ok a _ => some a
  | .error _ _ => none

theorem eq_ok_of_value {x : EStateM ε σ α} {s : σ} {a : α} (h : x.value s = some a) :
    x s = .ok a (x.after s) := by
  unfold value at h
  split at h
  · next b s' hx =>
    obtain rfl := Option.some.inj h
    rw [after_of_ok hx, hx]
  · cases h

@[simp]
theorem forM_nil_apply (f : α → EStateM ε σ PUnit) (s : σ) : ([] : List α).forM f s = .ok ⟨⟩ s :=
  rfl

theorem forM_cons_apply (f : α → EStateM ε σ PUnit) (a : α) (l : List α) (s : σ) :
    (a :: l).forM f s = (f a >>= fun _ => l.forM f) s := rfl

/-- **The loop rule.**  If each round, started in a state that satisfies `I`, ends normally in a
state that satisfies `I`, so does the loop. -/
theorem forM_eq_ok_of_forall {I : σ → Prop} {f : α → EStateM ε σ PUnit} :
    ∀ {l : List α}, (∀ a ∈ l, ∀ s, I s → ∃ s', f a s = .ok ⟨⟩ s' ∧ I s') →
      ∀ s, I s → ∃ s', l.forM f s = .ok ⟨⟩ s' ∧ I s' := by
  intro l
  induction l with
  | nil => intro _ s hs; exact ⟨s, rfl, hs⟩
  | cons a l ih =>
    intro h s hs
    obtain ⟨s₁, h1, hs1⟩ := h a (by simp) s hs
    obtain ⟨s₂, h2, hs2⟩ := ih (fun c hc => h c (by simp [hc])) s₁ hs1
    exact ⟨s₂, by rw [forM_cons_apply, bind_of_ok h1, h2], hs2⟩

/-- **The loop rule for a loop that ended.**  A property that every normally ending round keeps
holds after the loop if it held before. -/
theorem forM_induct {I : σ → Prop} {f : α → EStateM ε σ PUnit} :
    ∀ {l : List α}, (∀ a ∈ l, ∀ s s' u, I s → f a s = .ok u s' → I s') →
      ∀ {s s' : σ} {u : PUnit}, l.forM f s = .ok u s' → I s → I s' := by
  intro l
  induction l with
  | nil =>
    intro _ s s' u h hs
    simp only [forM_nil_apply, Result.ok.injEq] at h
    exact h.2 ▸ hs
  | cons a l ih =>
    intro hround s s' u h hs
    rw [forM_cons_apply, bind_eq_ok_iff] at h
    obtain ⟨v, s₁, h1, h2⟩ := h
    exact ih (fun c hc => hround c (by simp [hc])) h2 (hround a (by simp) _ _ _ hs h1)

end EStateM

namespace Except

theorem bind_eq_ok_iff {ε α β : Type} {x : Except ε α} {f : α → Except ε β} {b : β} :
    x >>= f = .ok b ↔ ∃ a, x = .ok a ∧ f a = .ok b := by
  cases x with
  | error e =>
    constructor
    · rintro ⟨⟩
    · rintro ⟨a, ⟨⟩, -⟩
  | ok a =>
    constructor
    · exact fun h => ⟨a, rfl, h⟩
    · rintro ⟨a', ⟨⟩, h⟩
      exact h

/-! ### Loops that do not throw -/

theorem mapM_eq_ok {ε α β : Type} {f : α → Except ε β} {g : α → β} {l : List α}
    (h : ∀ a ∈ l, f a = .ok (g a)) : l.mapM f = .ok (l.map g) := by
  induction l with
  | nil => rfl
  | cons a l ih =>
    rw [List.mapM_cons, h a (by simp), ih fun b hb => h b (by simp [hb])]
    rfl

theorem forM_eq_ok {ε α : Type} {f : α → Except ε PUnit} {l : List α}
    (h : ∀ a ∈ l, f a = .ok ⟨⟩) : l.forM f = .ok ⟨⟩ := by
  induction l with
  | nil => rfl
  | cons a l ih =>
    show (f a >>= fun _ => l.forM f) = _
    rw [h a (by simp)]
    exact ih fun b hb => h b (by simp [hb])

end Except
