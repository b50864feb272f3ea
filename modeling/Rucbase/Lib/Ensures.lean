import Rucbase.Lib.Does

/-!
# What a program ensures

`Ensures view x t Q`: from every state that looks like `t`, the program `x` ends, if it returns `a`,
in a state whose look satisfies `Q a`.  A run that ends by an exception counts as fulfilled, so that
the rules follow the program without a proof that its lookups succeed.

`Mimics R x y`: whenever `y` returns in one state, `x` returns the same in every related state, and
the states after it are related.
-/

namespace EStateM

variable {ε σ τ α β : Type}

/-- From every state that looks like `t` the program, if it returns a value `a`, ends in a state
whose look satisfies `Q a`. -/
def Ensures (view : σ → τ) (x : EStateM ε σ α) (t : τ) (Q : α → τ → Prop) : Prop :=
  ∀ s a s', view s = t → x s = .ok a s' → Q a (view s')

namespace Ensures

variable {view : σ → τ} {t : τ} {a : α} {x : EStateM ε σ α} {f : α → EStateM ε σ β}
  {Q : α → τ → Prop} {R : β → τ → Prop}

theorem pure (h : Q a t) : Ensures view (Pure.pure a : EStateM ε σ α) t Q := by
  rintro s b s' rfl hrun
  cases hrun
  exact h

theorem throw {e : ε} : Ensures view (throw e : EStateM ε σ α) t Q := by
  intro s b s' _ hrun
  cases hrun

theorem bind (hx : Ensures view x t Q) (hf : ∀ a t', Q a t' → Ensures view (f a) t' R) :
    Ensures view (x >>= f) t R := by
  intro s b s' hs hrun
  obtain ⟨a, s₁, h1, h2⟩ := bind_eq_ok_iff.mp hrun
  exact hf a (view s₁) (hx s a s₁ hs h1) s₁ b s' rfl h2

/-- The rest of the program may use whatever it finds in the state. -/
theorem get_bind {f : σ → EStateM ε σ β} (h : ∀ s, view s = t → Ensures view (f s) t R) :
    Ensures view ((get : EStateM ε σ σ) >>= f) t R := fun s b s' hs hrun => h s hs s b s' hs hrun

theorem modifies {g : σ → σ} {Q : PUnit → τ → Prop} (h : ∀ s, view s = t → Q ⟨⟩ (view (g s))) :
    Ensures view (modify g : EStateM ε σ PUnit) t Q := by
  intro s b s' hs hrun
  cases hrun
  exact h s hs

theorem mono {Q' : α → τ → Prop} (hx : Ensures view x t Q) (h : ∀ a t', Q a t' → Q' a t') :
    Ensures view x t Q' := fun s a s' hs hrun => h a _ (hx s a s' hs hrun)

end Ensures

/-! ### Two runs -/

/-- Whenever `y` returns, `x` returns the same from every related state, and the states after that
are related. -/
def Mimics {σ' : Type} (R : σ → σ' → Prop) (x : EStateM ε σ α) (y : EStateM ε σ' α) : Prop :=
  ∀ s t a t', R s t → y t = .ok a t' → ∃ s', x s = .ok a s' ∧ R s' t'

namespace Mimics

variable {σ' : Type} {R : σ → σ' → Prop} {x : EStateM ε σ α} {y : EStateM ε σ' α}
  {f : α → EStateM ε σ β} {g : α → EStateM ε σ' β}

theorem pure (a : α) : Mimics R (Pure.pure a : EStateM ε σ α) (Pure.pure a) := by
  intro s t b t' hR hrun
  cases hrun
  exact ⟨s, rfl, hR⟩

theorem throw {e : ε} : Mimics R x (throw e) := by
  intro s t b t' _ hrun
  cases hrun

theorem bind (hx : Mimics R x y) (hf : ∀ a, Mimics R (f a) (g a)) :
    Mimics R (x >>= f) (y >>= g) := by
  intro s t b t' hR hrun
  obtain ⟨a, t₁, h1, h2⟩ := bind_eq_ok_iff.mp hrun
  obtain ⟨s₁, hs₁, hR₁⟩ := hx s t a t₁ hR h1
  obtain ⟨s', hs', hR'⟩ := hf a s₁ t₁ b t' hR₁ h2
  exact ⟨s', by rw [bind_of_ok hs₁, hs'], hR'⟩

theorem get_bind {f : σ → EStateM ε σ β} {g : σ' → EStateM ε σ' β}
    (h : ∀ s t, R s t → Mimics R (f s) (g t)) :
    Mimics R ((get : EStateM ε σ σ) >>= f) ((get : EStateM ε σ' σ') >>= g) :=
  fun s t b t' hR hrun => h s t hR s t b t' hR hrun

theorem modifies {g : σ → σ} {g' : σ' → σ'} (h : ∀ s t, R s t → R (g s) (g' t)) :
    Mimics R (modify g : EStateM ε σ PUnit) (modify g') := by
  intro s t b t' hR hrun
  cases hrun
  exact ⟨g s, rfl, h s t hR⟩

end Mimics

end EStateM
