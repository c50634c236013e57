import TimeShift.Lib.Machine

/-!
# What every run comes to

`Inevitable step ok Q s` says that every run from `s`, by steps that meet `ok`, comes to a
state of `Q`: before that it never stops, and it does not go on for ever. The rule
`Inevitable.of_variant` asks for a number that every step lowers.
-/

namespace Machine

variable {σ ι : Type*} {step : σ → ι → Option σ} {ok : σ → ι → Prop} {Q Q' : σ → Prop} {s : σ}

/-- Whatever steps are taken from `s`, `Q` comes to hold. -/
inductive Inevitable (step : σ → ι → Option σ) (ok : σ → ι → Prop) (Q : σ → Prop) : σ → Prop
  | now {s : σ} : Q s → Inevitable step ok Q s
  | next {s : σ} : (∃ l s', ok s l ∧ step s l = some s') →
      (∀ l s', ok s l → step s l = some s' → Inevitable step ok Q s') → Inevitable step ok Q s

theorem Inevitable.imp (h : Inevitable step ok Q s) (himp : ∀ s, Q s → Q' s) :
    Inevitable step ok Q' s := by
  induction h with
  | now hQ => exact .now (himp _ hQ)
  | next henabled _ ih => exact .next henabled ih

/-- The variant rule: where `P k` holds some step can be taken, and every step leads to `Q` or
to `P` of a smaller number. -/
theorem Inevitable.of_variant {P : ℕ → σ → Prop}
    (henabled : ∀ k s, P k s → ∃ l s', ok s l ∧ step s l = some s')
    (hstep : ∀ k s l s', P k s → ok s l → step s l = some s' → Q s' ∨ ∃ k' < k, P k' s')
    {k : ℕ} (h : P k s) : Inevitable step ok Q s := by
  induction k using Nat.strongRecOn generalizing s with
  | ind k ih =>
      refine .next (henabled k s h) ?_
      intro l s' hok hs
      rcases hstep k s l s' h hok hs with hQ | ⟨k', hlt, hP⟩
      · exact .now hQ
      · exact ih k' hlt hP

end Machine
