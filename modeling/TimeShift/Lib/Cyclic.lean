import Mathlib.Algebra.Group.Fin.Basic
import Mathlib.Data.Nat.ModEq
import Mathlib.Logic.Function.Basic

/-!
# Numbered positions of a ring

The places of a ring of `n` slots are `Fin n`. A position is numbered by an
unbounded `q : ℕ` and stands at `idx n q = q mod n`, so that a window of
positions `L, …, T - 1` with `T ≤ L + n` meets every place at most once and
moving on is `q + 1`, with no wrap-around in the arithmetic.
-/

namespace Cyclic

variable {n : ℕ} [NeZero n]

/-- The place of position `q`. -/
def idx (n : ℕ) [NeZero n] (q : ℕ) : Fin n := Fin.ofNat n q

theorem idx_val (q : ℕ) : (idx n q).val = q % n := rfl

/-- Moving one place on is moving to the next position. -/
theorem idx_add_one (q : ℕ) : idx n q + 1 = idx n (q + 1) := by
  apply Fin.ext
  rw [Fin.val_add, idx_val, idx_val, Fin.val_one', Nat.add_mod_mod, Nat.mod_add_mod]

theorem idx_succ_sub_one (q : ℕ) : idx n (q + 1) - 1 = idx n q := by
  rw [← idx_add_one, add_sub_cancel_right]

/-- A whole turn leads back to the same place. -/
@[simp] theorem idx_add_self (q : ℕ) : idx n (q + n) = idx n q := by
  apply Fin.ext
  rw [idx_val, idx_val, Nat.add_mod_right]

/-- Counting on from a place is counting on from its position. -/
theorem idx_val_add (q k : ℕ) : idx n ((idx n q).val + k) = idx n (q + k) := by
  apply Fin.ext
  rw [idx_val, idx_val, idx_val, Nat.mod_add_mod]

/-- Positions less than a turn apart stand at different places. -/
theorem idx_inj {p q : ℕ} (h : idx n p = idx n q) (hpq : p < q + n) (hqp : q < p + n) :
    p = q := by
  have hmod : p % n = q % n := congrArg Fin.val h
  rcases Nat.le_total p q with hle | hle
  · have hdvd : n ∣ q - p := (Nat.modEq_iff_dvd' hle).mp hmod
    have hzero : q - p = 0 := Nat.eq_zero_of_dvd_of_lt hdvd (by omega)
    omega
  · have hdvd : n ∣ p - q := (Nat.modEq_iff_dvd' hle).mp hmod.symm
    have hzero : p - q = 0 := Nat.eq_zero_of_dvd_of_lt hdvd (by omega)
    omega

theorem idx_ne {p q : ℕ} (hne : p ≠ q) (hpq : p < q + n) (hqp : q < p + n) :
    idx n p ≠ idx n q :=
  fun h => hne (idx_inj h hpq hqp)

/-- Every place is met in any full turn. -/
theorem exists_idx (L : ℕ) (i : Fin n) : ∃ q, L ≤ q ∧ q < L + n ∧ idx n q = i := by
  have hn : 0 < n := Nat.pos_of_ne_zero (NeZero.ne n)
  have hL : L % n < n := Nat.mod_lt _ hn
  -- the distance from `L` to the next position that stands at `i`
  refine ⟨L + (i.val + (n - L % n)) % n, by omega, ?_, ?_⟩
  · have := Nat.mod_lt (i.val + (n - L % n)) hn
    omega
  · apply Fin.ext
    have hsplit : L + (i.val + (n - L % n)) = i.val + n * (L / n + 1) := by
      have := Nat.div_add_mod L n
      rw [Nat.mul_add, Nat.mul_one]
      omega
    rw [idx_val, Nat.add_mod_mod, hsplit, Nat.add_mul_mod_self_left, Nat.mod_eq_of_lt i.isLt]

/-- Writing at one position of a window leaves the others as they were. -/
theorem update_idx_ne {α : Type*} (f : Fin n → α) {p q : ℕ} (x : α) (hne : q ≠ p)
    (hpq : p < q + n) (hqp : q < p + n) :
    Function.update f (idx n p) x (idx n q) = f (idx n q) :=
  Function.update_of_ne (idx_ne hne hqp hpq) _ _

end Cyclic
