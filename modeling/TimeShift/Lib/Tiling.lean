import Mathlib.Data.List.Basic

/-!
# Ranges that tile an interval

A list of ranges tiles `[a, b)` when each starts where the one before it ends,
the first one at `a`, and the last one ends at `b`.
-/

namespace Tiling

/-- Adjacent ranges from `a` to `b`. -/
def Tiles : ℕ → List (ℕ × ℕ) → ℕ → Prop
  | a, [], b => a = b
  | a, r :: rs, b => r.1 = a ∧ Tiles r.2 rs b

variable {a b m : ℕ} {rs rs' : List (ℕ × ℕ)}

theorem Tiles.append (h : Tiles a rs m) (h' : Tiles m rs' b) : Tiles a (rs ++ rs') b := by
  induction rs generalizing a with
  | nil =>
      have : a = m := h
      exact this ▸ h'
  | cons r rs ih => exact ⟨h.1, ih h.2⟩

/-- Ranges that run forward tile an interval that does. -/
theorem Tiles.le (h : Tiles a rs b) (hrs : ∀ r ∈ rs, r.1 ≤ r.2) : a ≤ b := by
  induction rs generalizing a with
  | nil => exact Nat.le_of_eq h
  | cons r rs ih =>
      have hfirst : r.1 = a := h.1
      have hle := hrs r (by simp)
      have hrest := ih h.2 (fun r' hr' => hrs r' (by simp [hr']))
      omega

/-- Every point of the interval lies in one of the ranges. -/
theorem Tiles.exists_mem (h : Tiles a rs b) {x : ℕ} (ha : a ≤ x) (hb : x < b) :
    ∃ r ∈ rs, r.1 ≤ x ∧ x < r.2 := by
  induction rs generalizing a with
  | nil =>
      have : a = b := h
      omega
  | cons r rs ih =>
      have hfirst : r.1 = a := h.1
      by_cases hx : x < r.2
      · exact ⟨r, by simp, by omega, hx⟩
      · rcases ih h.2 (by omega) with ⟨r', hr', hin⟩
        exact ⟨r', by simp [hr'], hin⟩

end Tiling
