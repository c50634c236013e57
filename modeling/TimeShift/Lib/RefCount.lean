import Mathlib.Data.List.Perm.Basic
import Mathlib.Logic.Function.Basic

/-!
# Reference counts

A store of cells, each with a value and a count. A cell is made with a count of one, and
freed when its count falls to zero; to touch a cell that is not there is a fault, which
the store remembers.

`Counted store holders` says that the counts are right for a list of holders, one address
for each reference that somebody has: no fault has happened, a cell is there exactly while
it has a holder, and its count is the number of its holders. Each operation has a rule that
says how the holders change; `Counted.perm` brings them into the order that a rule asks
for. `freed_iff` says when dropping a reference frees the cell.
-/

namespace RefCount

variable {ν : Type*}

/-- A counted value. -/
structure Cell (ν : Type*) where
  count : ℕ
  value : ν

/-- A store of cells by their addresses. -/
structure Store (ν : Type*) where
  cell : ℕ → Option (Cell ν)
  next : ℕ
  fault : Bool

namespace Store

/-- Nothing in it. -/
def empty : Store ν := ⟨fun _ => none, 0, false⟩

/-- The value at an address. -/
def value (s : Store ν) (a : ℕ) : Option ν := (s.cell a).map Cell.value

/-- Make a cell, with a reference for its maker. -/
def alloc (s : Store ν) (v : ν) : Store ν :=
  { s with cell := Function.update s.cell s.next (some ⟨1, v⟩), next := s.next + 1 }

/-- One more reference. -/
def ref (s : Store ν) (a : ℕ) : Store ν :=
  match s.cell a with
  | none => { s with fault := true }
  | some c => { s with cell := Function.update s.cell a (some { c with count := c.count + 1 }) }

/-- One reference less. The last one frees the cell. -/
def unref (s : Store ν) (a : ℕ) : Store ν :=
  match s.cell a with
  | none => { s with fault := true }
  | some c =>
    { s with
      cell := Function.update s.cell a
        (if c.count = 1 then none else some { c with count := c.count - 1 }) }

/-- Change the value. -/
def modify (s : Store ν) (a : ℕ) (f : ν → ν) : Store ν :=
  match s.cell a with
  | none => { s with fault := true }
  | some c => { s with cell := Function.update s.cell a (some { c with value := f c.value }) }

/-- Whether dropping a reference frees the cell. -/
def frees (s : Store ν) (a : ℕ) : Bool :=
  match s.cell a with
  | none => false
  | some c => c.count = 1

end Store

open Store

/-- The counts are right for these holders. -/
structure Counted (s : Store ν) (holders : List ℕ) : Prop where
  sound : s.fault = false
  bound : ∀ a ∈ holders, a < s.next
  absent : ∀ a, s.cell a = none → a ∉ holders
  count : ∀ a c, s.cell a = some c → c.count = holders.count a ∧ a ∈ holders

variable {s : Store ν} {holders holders' : List ℕ} {a : ℕ} {v : ν} {f : ν → ν}

namespace Counted

theorem empty : Counted (Store.empty : Store ν) [] where
  sound := rfl
  bound := by simp
  absent := by simp
  count := by simp [Store.empty]

/-- Who holds a reference does not matter. -/
theorem perm (h : Counted s holders) (hp : holders.Perm holders') : Counted s holders' where
  sound := h.sound
  bound b hb := h.bound b (hp.mem_iff.mpr hb)
  absent b hb := fun hmem => h.absent b hb (hp.mem_iff.mpr hmem)
  count b c hc := by
    rcases h.count b c hc with ⟨hcount, hmem⟩
    exact ⟨hcount.trans (hp.count_eq b), hp.mem_iff.mp hmem⟩

/-- A holder has its cell. -/
theorem present (h : Counted s holders) (ha : a ∈ holders) : ∃ c, s.cell a = some c := by
  cases hc : s.cell a with
  | none => exact absurd ha (h.absent a hc)
  | some c => exact ⟨c, rfl⟩

theorem value_present (h : Counted s holders) (ha : a ∈ holders) : ∃ v, s.value a = some v := by
  rcases h.present ha with ⟨c, hc⟩
  exact ⟨c.value, by simp [value, hc]⟩

/-- A value is held by somebody. -/
theorem held (h : Counted s holders) (hv : s.value a = some v) : a ∈ holders := by
  rcases Option.map_eq_some_iff.mp hv with ⟨c, hc, -⟩
  exact (h.count a c hc).2

/-- A new cell is not held by anybody else. -/
theorem fresh (h : Counted s holders) : s.next ∉ holders :=
  fun hmem => Nat.lt_irrefl _ (h.bound s.next hmem)

theorem alloc (h : Counted s holders) (v : ν) : Counted (s.alloc v) (s.next :: holders) := by
  constructor
  · exact h.sound
  · intro b hb
    rcases List.mem_cons.mp hb with rfl | hb
    · exact Nat.lt_succ_self _
    · exact Nat.lt_succ_of_lt (h.bound b hb)
  · intro b hb
    by_cases hnext : b = s.next
    · rw [hnext] at hb
      simp [Store.alloc] at hb
    · have hold : s.cell b = none := by simpa [Store.alloc, Function.update_of_ne hnext] using hb
      simp [hnext, h.absent b hold]
  · intro b c hc
    by_cases hnext : b = s.next
    · subst hnext
      have hcell : c = ⟨1, v⟩ := by simpa [Store.alloc] using hc.symm
      rw [hcell, List.count_cons_self, List.count_eq_zero.mpr h.fresh]
      simp
    · have hold : s.cell b = some c := by
        simpa [Store.alloc, Function.update_of_ne hnext] using hc
      rcases h.count b c hold with ⟨hcount, hmem⟩
      rw [List.count_cons_of_ne (Ne.symm hnext)]
      exact ⟨hcount, List.mem_cons_of_mem _ hmem⟩

theorem ref (h : Counted s holders) (ha : a ∈ holders) : Counted (s.ref a) (a :: holders) := by
  rcases h.present ha with ⟨c, hc⟩
  unfold Store.ref
  rw [hc]
  constructor
  · exact h.sound
  · intro b hb
    rcases List.mem_cons.mp hb with rfl | hb
    · exact h.bound b ha
    · exact h.bound b hb
  · intro b hb
    by_cases hsame : b = a
    · rw [hsame] at hb
      simp at hb
    · have hold : s.cell b = none := by simpa [Function.update_of_ne hsame] using hb
      simp [hsame, h.absent b hold]
  · intro b d hd
    by_cases hsame : b = a
    · subst hsame
      have hcell : d = { c with count := c.count + 1 } := by simpa using hd.symm
      rw [hcell, List.count_cons_self, ← (h.count b c hc).1]
      simp
    · have hold : s.cell b = some d := by simpa [Function.update_of_ne hsame] using hd
      rcases h.count b d hold with ⟨hcount, hmem⟩
      rw [List.count_cons_of_ne (Ne.symm hsame)]
      exact ⟨hcount, List.mem_cons_of_mem _ hmem⟩

/-- A reference frees its cell when nobody else holds one. -/
theorem freed_iff (h : Counted s (a :: holders)) : s.frees a = true ↔ a ∉ holders := by
  rcases h.present List.mem_cons_self with ⟨c, hc⟩
  have hcount := (h.count a c hc).1
  rw [List.count_cons_self] at hcount
  unfold frees
  rw [hc]
  simp only [decide_eq_true_eq]
  rw [hcount, ← List.count_eq_zero]
  omega

theorem unref (h : Counted s (a :: holders)) : Counted (s.unref a) holders := by
  rcases h.present List.mem_cons_self with ⟨c, hc⟩
  have hcount := (h.count a c hc).1
  rw [List.count_cons_self] at hcount
  unfold Store.unref
  rw [hc]
  constructor
  · exact h.sound
  · exact fun b hb => h.bound b (List.mem_cons_of_mem _ hb)
  · intro b hb
    by_cases hsame : b = a
    · subst hsame
      rw [← List.count_eq_zero]
      by_cases hone : c.count = 1
      · omega
      · simp [hone] at hb
    · have hold : s.cell b = none := by simpa [Function.update_of_ne hsame] using hb
      exact fun hmem => h.absent b hold (List.mem_cons_of_mem _ hmem)
  · intro b d hd
    by_cases hsame : b = a
    · subst hsame
      by_cases hone : c.count = 1
      · simp [hone] at hd
      · have hcell : d = { c with count := c.count - 1 } := by simpa [hone] using hd.symm
        rw [hcell, ← List.count_pos_iff]
        dsimp only
        omega
    · have hold : s.cell b = some d := by simpa [Function.update_of_ne hsame] using hd
      rcases h.count b d hold with ⟨hd, hmem⟩
      rw [List.count_cons_of_ne (Ne.symm hsame)] at hd
      exact ⟨hd, List.mem_of_ne_of_mem hsame hmem⟩

theorem modify (h : Counted s holders) (ha : a ∈ holders) (f : ν → ν) :
    Counted (s.modify a f) holders := by
  rcases h.present ha with ⟨c, hc⟩
  unfold Store.modify
  rw [hc]
  constructor
  · exact h.sound
  · exact h.bound
  · intro b hb
    by_cases hsame : b = a
    · rw [hsame] at hb
      simp at hb
    · exact h.absent b (by simpa [Function.update_of_ne hsame] using hb)
  · intro b d hd
    by_cases hsame : b = a
    · subst hsame
      have hcell : d = { c with value := f c.value } := by simpa using hd.symm
      rw [hcell]
      exact h.count b c hc
    · exact h.count b d (by simpa [Function.update_of_ne hsame] using hd)

end Counted

/-! ## Values -/

namespace Store

theorem value_alloc (s : Store ν) (v : ν) (b : ℕ) :
    (s.alloc v).value b = if b = s.next then some v else s.value b := by
  unfold value alloc
  split
  · rename_i hb
    rw [hb]
    simp
  · rename_i hb
    simp [Function.update_of_ne hb]

theorem value_ref (s : Store ν) (a b : ℕ) : (s.ref a).value b = s.value b := by
  unfold value ref
  cases hc : s.cell a with
  | none => rfl
  | some c =>
      by_cases hb : b = a
      · simp [hb, hc]
      · simp [Function.update_of_ne hb]

theorem value_unref (s : Store ν) (a b : ℕ) :
    (s.unref a).value b = if b = a ∧ s.frees a = true then none else s.value b := by
  unfold value unref frees
  cases hc : s.cell a with
  | none => simp
  | some c =>
      by_cases hb : b = a
      · subst hb
        by_cases hone : c.count = 1
        · simp [hone]
        · simp [hone, hc]
      · simp [hb]

theorem value_modify (s : Store ν) (a : ℕ) (f : ν → ν) (b : ℕ) :
    (s.modify a f).value b = if b = a then (s.value b).map f else s.value b := by
  unfold value modify
  cases hc : s.cell a with
  | none =>
      by_cases hb : b = a
      · simp [hb, hc]
      · simp [hb]
  | some c =>
      by_cases hb : b = a
      · simp [hb, hc]
      · simp [hb]

end Store

end RefCount
