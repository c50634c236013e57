import Mathlib.Data.List.Basic
import Mathlib.Data.Nat.Notation

/-!
# Programs that read a memory

A program looks at cells of a memory that it does not change, and goes on with what
it has read there. `run` is what it returns, and `reads` the places that it looks at.
A program that is `stuck` returns nothing: it has used up its rounds, or has done what
has no defined behaviour.

* `Ensures mem ok Q x` is total correctness with a footprint: `x` returns a value with
  `Q`, and every place that it reads is `ok` (`ensures_iff`);
* `Ensures.iterate` is the rule for a loop, with an invariant and a variant;
* `Computes` compares a program with a partial function that is given the same cells.
-/

namespace Memory

universe u v w

/-- A program that reads cells of type `β` at places of type `ι`. -/
inductive Prog (ι : Type u) (β : Type v) (α : Type w) : Type (max u v w)
  | ret (a : α)
  | stuck
  | read (p : ι) (k : β → Prog ι β α)

namespace Prog

variable {ι : Type u} {β : Type v} {α γ σ : Type w}

protected def bind : Prog ι β α → (α → Prog ι β γ) → Prog ι β γ
  | ret a, f => f a
  | stuck, _ => stuck
  | read p k, f => read p fun b => (k b).bind f

instance : Monad (Prog ι β) where
  pure := ret
  bind := Prog.bind

/-- Read one cell. -/
def load (p : ι) : Prog ι β β := read p ret

/-- What the program returns. -/
def run (mem : ι → β) : Prog ι β α → Option α
  | ret a => some a
  | stuck => none
  | read p k => (k (mem p)).run mem

/-- The places that the program reads, in their order. -/
def reads (mem : ι → β) : Prog ι β α → List ι
  | ret _ => []
  | stuck => []
  | read p k => p :: (k (mem p)).reads mem

/-- A loop of so many rounds at most: `body` goes on with a new state, or returns. -/
def iterate (body : σ → Prog ι β (σ ⊕ α)) : ℕ → σ → Prog ι β α
  | 0, _ => stuck
  | rounds + 1, s => do
    match ← body s with
    | .inl s => iterate body rounds s
    | .inr a => return a

/-- The program returns a value with `Q`, and reads at places that are `ok` only. -/
def Ensures (mem : ι → β) (ok : ι → Prop) (Q : α → Prop) : Prog ι β α → Prop
  | ret a => Q a
  | stuck => False
  | read p k => ok p ∧ (k (mem p)).Ensures mem ok Q

variable {mem : ι → β} {ok ok' : ι → Prop} {P Q : α → Prop} {x : Prog ι β α}

theorem ensures_iff :
    x.Ensures mem ok Q ↔ (∃ a, x.run mem = some a ∧ Q a) ∧ ∀ p ∈ x.reads mem, ok p := by
  induction x with
  | ret a => simp [Ensures, run, reads]
  | stuck => simp [Ensures, run]
  | read p k ih =>
      simp only [Ensures, run, reads, List.forall_mem_cons, ih (mem p)]
      exact and_left_comm

/-- A weaker condition on the value. -/
theorem Ensures.imp (h : x.Ensures mem ok P) (hP : ∀ a, P a → Q a) : x.Ensures mem ok Q := by
  induction x with
  | ret a => exact hP a h
  | stuck => exact h
  | read p k ih => exact ⟨h.1, ih (mem p) h.2⟩

/-- More places that may be read. -/
theorem Ensures.widen (h : x.Ensures mem ok P) (hok : ∀ p, ok p → ok' p) :
    x.Ensures mem ok' P := by
  induction x with
  | ret a => exact h
  | stuck => exact h
  | read p k ih => exact ⟨hok p h.1, ih (mem p) h.2⟩

@[simp] theorem pure_bind (a : α) (f : α → Prog ι β γ) : (pure a >>= f) = f a := rfl

@[simp] theorem ensures_load {p : ι} {Q : β → Prop} :
    (load p : Prog ι β β).Ensures mem ok Q ↔ ok p ∧ Q (mem p) := Iff.rfl

@[simp] theorem ensures_bind {f : α → Prog ι β γ} {Q : γ → Prop} :
    (x >>= f).Ensures mem ok Q ↔ x.Ensures mem ok fun a => (f a).Ensures mem ok Q := by
  induction x with
  | ret a => rfl
  | stuck => rfl
  | read p k ih => exact and_congr_right fun _ => ih (mem p)

theorem Ensures.bind {f : α → Prog ι β γ} {Q : γ → Prop} (hx : x.Ensures mem ok P)
    (hf : ∀ a, P a → (f a).Ensures mem ok Q) : (x >>= f).Ensures mem ok Q :=
  ensures_bind.mpr (hx.imp hf)

theorem Ensures.pure {a : α} (h : Q a) : (pure a : Prog ι β α).Ensures mem ok Q := h

/-- The rule for a loop: a round keeps the invariant `I` and makes the variant smaller,
or returns. -/
theorem Ensures.iterate {body : σ → Prog ι β (σ ⊕ α)} {I : σ → Prop} (variant : σ → ℕ)
    (hround : ∀ s, I s → (body s).Ensures mem ok fun
      | .inl s' => I s' ∧ variant s' < variant s
      | .inr a => Q a)
    {rounds : ℕ} {s : σ} (hs : I s) (hrounds : variant s < rounds) :
    (iterate body rounds s).Ensures mem ok Q := by
  induction rounds generalizing s with
  | zero => omega
  | succ rounds ih =>
      apply (hround s hs).bind
      rintro (s' | a) h
      · exact ih h.1 (by omega)
      · exact Ensures.pure h

-- a condition on a program is taken apart by the rules, not by running the program
attribute [irreducible] Ensures

/-! ## The same, given the cells -/

/-- The program returns what `y` does, and reads at places that are `ok` only. -/
def Computes (mem : ι → β) (ok : ι → Prop) (x : Prog ι β α) (y : Option α) : Prop :=
  x.Ensures mem ok fun a => y = some a

theorem Computes.run_eq {y : Option α} (h : x.Computes mem ok y) : x.run mem = y := by
  rcases ensures_iff.mp h with ⟨⟨a, hrun, hy⟩, -⟩
  rw [hrun, hy]

theorem Computes.pure (a : α) : (pure a : Prog ι β α).Computes mem ok (some a) :=
  Ensures.pure rfl

theorem Computes.bind {y : Option α} {f : α → Prog ι β γ} {g : α → Option γ}
    (hx : x.Computes mem ok y) (hf : ∀ a, (f a).Computes mem ok (g a)) :
    (x >>= f).Computes mem ok (y >>= g) := by
  apply Ensures.bind hx
  rintro a rfl
  exact hf a

theorem Computes.ite {c : Prop} [Decidable c] {x x' : Prog ι β α} {y y' : Option α}
    (hthen : c → x.Computes mem ok y) (helse : ¬c → x'.Computes mem ok y') :
    (if c then x else x').Computes mem ok (if c then y else y') := by
  split
  case isTrue hc => exact hthen hc
  case isFalse hc => exact helse hc

end Prog

end Memory
