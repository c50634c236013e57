import TimeShift.Lib.Machine

/-!
# Refinement between machines

A machine refines another one along a relation of their states when the other one can
follow each of its steps by a run: of no step where nothing happens that the other one
can see, of one step, or of several. It then follows every run (`Refines.reach`).
-/

namespace Machine

variable {σ τ ι κ : Type*}

/-- Each allowed step of the first machine, between states related by `R`, is followed by a
run of the second one. -/
def Refines (step : σ → ι → Option σ) (ok : σ → ι → Prop) (step' : τ → κ → Option τ)
    (ok' : τ → κ → Prop) (R : σ → τ → Prop) : Prop :=
  ∀ s t l s', R s t → ok s l → step s l = some s' → ∃ t', Reach step' ok' t t' ∧ R s' t'

variable {step : σ → ι → Option σ} {ok : σ → ι → Prop} {step' : τ → κ → Option τ}
  {ok' : τ → κ → Prop} {R : σ → τ → Prop} {s₀ s : σ} {t₀ : τ}

namespace Refines

/-- Every run is followed. -/
theorem reach (h : Refines step ok step' ok' R) (h₀ : R s₀ t₀) (hs : Reach step ok s₀ s) :
    ∃ t, Reach step' ok' t₀ t ∧ R s t := by
  induction hs with
  | refl => exact ⟨t₀, .refl, h₀⟩
  | tail _ hok hstep ih =>
      rcases ih with ⟨t, ht, hR⟩
      rcases h _ _ _ _ hR hok hstep with ⟨t', ht', hR'⟩
      exact ⟨t', ht.trans ht', hR'⟩

end Refines

end Machine
