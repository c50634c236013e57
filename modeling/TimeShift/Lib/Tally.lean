import Mathlib.Algebra.BigOperators.Ring.Finset
import Mathlib.Data.Fintype.BigOperators
import Mathlib.Data.Fintype.Card

/-!
# Counting the places with a property

How many places of a finite family have a property, and how that number changes when
one place is written. A counter that is kept by hand next to the family is right as
long as it goes up and down by `weight`, as `tally_update` says.
-/

namespace Tally

variable {ι α : Type*} [Fintype ι] (P : α → Prop) [DecidablePred P]

/-- The number of places of `f` that have the property. -/
def tally (f : ι → α) : ℕ := (Finset.univ.filter fun i => P (f i)).card

/-- What a place with content `x` counts for. -/
def weight (x : α) : ℤ := if P x then 1 else 0

theorem weight_of {x : α} (h : P x) : weight P x = 1 := if_pos h

theorem weight_of_not {x : α} (h : ¬P x) : weight P x = 0 := if_neg h

/-- The number of places as a sum over them. -/
theorem tally_eq_sum (f : ι → α) : (tally P f : ℤ) = ∑ i, weight P (f i) := by
  rw [tally, Finset.card_filter]
  push_cast
  rfl

theorem tally_le (f : ι → α) : tally P f ≤ Fintype.card ι := Finset.card_le_univ _

/-- The places that have the property and those that have not. -/
theorem tally_add_not (f : ι → α) : tally P f + tally (fun x => ¬P x) f = Fintype.card ι :=
  Finset.card_filter_add_card_filter_not (s := Finset.univ) fun i => P (f i)

/-- Nothing is counted exactly when no place has the property. -/
theorem tally_eq_zero_iff {f : ι → α} : tally P f = 0 ↔ ∀ i, ¬P (f i) := by
  constructor
  · intro h i hi
    have hmem : i ∈ Finset.univ.filter fun i => P (f i) :=
      Finset.mem_filter.mpr ⟨Finset.mem_univ i, hi⟩
    rw [Finset.card_eq_zero.mp h] at hmem
    cases hmem
  · intro h
    rw [tally, Finset.card_eq_zero, Finset.filter_eq_empty_iff]
    intro i _
    exact h i

/-- Writing one place takes its old content from the count and adds the new one. -/
theorem tally_update [DecidableEq ι] (f : ι → α) (i : ι) (x : α) :
    (tally P (Function.update f i x) : ℤ) = tally P f - weight P (f i) + weight P x := by
  rw [tally_eq_sum, tally_eq_sum, ← Finset.add_sum_erase _ _ (Finset.mem_univ i),
    ← Finset.add_sum_erase Finset.univ (fun j => weight P (f j)) (Finset.mem_univ i),
    Function.update_self]
  -- the other places are as they were
  have hrest : ∑ j ∈ Finset.univ.erase i, weight P (Function.update f i x j) =
      ∑ j ∈ Finset.univ.erase i, weight P (f j) := by
    apply Finset.sum_congr rfl
    intro j hj
    rw [Function.update_of_ne (Finset.ne_of_mem_erase hj)]
  rw [hrest]
  omega

end Tally
