import TimeShift.Cache.Effects
import TimeShift.Cache.Session

/-!
# Windows with gaps

When the slot of a lagging tail is reused, the newest bytes of the ring are given
up while older ones stay: the slots before it and what is written in its place do
not join any more. A gapped window allows for that. Its slots hold ranges of the
stream in ascending order, position `q` from `lo q` to `hi q`, and all of them
end before `h_rb_offset`; that is enough for a seek to find a slot.
-/

set_option linter.unusedSectionVars false

namespace TimeShift

open Bytes Cyclic

/-- The slot holds the range of the stream from `a` to `b`, which is not empty. -/
def Slot.Spans (s : Slot) (a b : ℕ) : Prop := s.offset = some a ∧ a + s.size = b ∧ a < b

theorem Slot.Spans.offsetEnd {s : Slot} {a b : ℕ} (h : s.Spans a b) : s.offsetEnd = b := by
  rw [Slot.offsetEnd, h.1, Offset.val_some]
  exact h.2.1

theorem Slot.Restated.spans {s t : Slot} (h : s.Restated t) {a b : ℕ} (hs : s.Spans a b) :
    t.Spans a b := by
  rw [Slot.Spans, h.offset, h.size]
  exact hs

theorem Slot.Spans.contains_iff {s : Slot} {a b : ℕ} (h : s.Spans a b) (o : ℕ) :
    s.contains o = true ↔ a ≤ o ∧ o < b := by
  rw [Slot.contains, h.offsetEnd, h.1, Offset.le_some, Bool.and_eq_true, decide_eq_true_iff,
    decide_eq_true_iff]

namespace Cache

variable {n : ℕ} [NeZero n] {c c' : Cache n} {L T m o : ℕ} {lo hi : ℕ → ℕ}

/-- The slot at position `q ≥ T` takes no part in the window: it is empty, or it
is the tail slot, at `T`, and partly written. -/
def Free (c : Cache n) (T : ℕ) (a : ℕ) (q : ℕ) : Prop :=
  (c.slots (idx n q)).state = .empty ∨
    (q = T ∧ c.tail = idx n T ∧ (c.slots (idx n q)).state = .part ∧
      ∃ b, (c.slots (idx n q)).Spans a b)

/-- The complete slots are those of the positions `L ≤ q < T`; position `q` holds
the stream from `lo q` to `hi q`, and the ranges are in ascending order. -/
structure Gapped (c : Cache n) (L T : ℕ) (lo hi : ℕ → ℕ) : Prop where
  le : L ≤ T
  fits : T ≤ L + n
  complete : ∀ q, L ≤ q → q < T → (c.slots (idx n q)).Complete
  spans : ∀ q, L ≤ q → q < T → (c.slots (idx n q)).Spans (lo q) (hi q)
  ordered : ∀ q r, L ≤ q → q < r → r < T → hi q ≤ lo r
  below : ∀ q, L ≤ q → q < T → hi q ≤ c.hRbOffset
  free : ∀ q, T ≤ q → q < L + n → c.Free T c.hRbOffset q

namespace Gapped

/-! ## The slots of the window -/

theorem free_not_complete (h : Gapped c L T lo hi) {q : ℕ} (hT : T ≤ q) (hq : q < L + n) :
    ¬(c.slots (idx n q)).Complete := by
  rcases h.free q hT hq with hst | ⟨-, -, hst, -⟩ <;> simp [Slot.Complete, hst]

/-- A complete slot is the slot of some position in the window. -/
theorem exists_pos (h : Gapped c L T lo hi) {i : Fin n} (hi : (c.slots i).Complete) :
    ∃ q, L ≤ q ∧ q < T ∧ idx n q = i := by
  rcases exists_idx L i with ⟨q, hL, hq, rfl⟩
  refine ⟨q, hL, ?_, rfl⟩
  by_contra hT
  exact h.free_not_complete (Nat.le_of_not_lt hT) hq hi

theorem contains_iff (h : Gapped c L T lo hi) {q : ℕ} (hL : L ≤ q) (hT : q < T) (o : ℕ) :
    (c.slots (idx n q)).contains o = true ↔ lo q ≤ o ∧ o < hi q :=
  (h.spans q hL hT).contains_iff o

/-- A slot that contains an offset below `h_rb_offset` is in the window. -/
theorem contains_pos (h : Gapped c L T lo hi) {i : Fin n} (hi : (c.slots i).contains o = true)
    (ho : o < c.hRbOffset) : ∃ q, L ≤ q ∧ q < T ∧ idx n q = i := by
  rcases exists_idx L i with ⟨q, hL, hq, rfl⟩
  refine ⟨q, hL, ?_, rfl⟩
  by_contra hT
  rcases h.free q (Nat.le_of_not_lt hT) hq with hst | ⟨-, -, -, b, hspan⟩
  · -- an empty slot contains nothing
    rw [Slot.contains, ((c.slots (idx n q)).empty_clean hst).1] at hi
    cases hi
  · have := (hspan.contains_iff o).mp hi
    omega

/-- The offset lies in one slot of the window only. -/
theorem slot_unique (h : Gapped c L T lo hi) {q : ℕ} (hLm : L ≤ m) (hmT : m < T) (hLq : L ≤ q)
    (hqT : q < T) (hm : lo m ≤ o ∧ o < hi m) (hq : lo q ≤ o ∧ o < hi q) : m = q := by
  rcases Nat.lt_trichotomy m q with hlt | heq | hgt
  · have := h.ordered m q hLm hlt hqT
    omega
  · exact heq
  · have := h.ordered q m hLq hgt hmT
    omega

/-- The start of the slot that holds an offset. -/
theorem slotStart (h : Gapped c L T lo hi) (hL : L ≤ m) (hT : m < T)
    (hm : lo m ≤ o ∧ o < hi m) : c.slotStart o = lo m := by
  have hhit : (c.slots (idx n m)).Complete ∧ (c.slots (idx n m)).contains o = true :=
    ⟨h.complete m hL hT, (h.contains_iff hL hT o).mpr hm⟩
  unfold Cache.slotStart
  split
  · rename_i i hi
    have hi := List.find?_some hi
    rw [Bool.and_eq_true, decide_eq_true_eq] at hi
    rcases h.exists_pos hi.1 with ⟨q, hLq, hqT, rfl⟩
    have hq := h.slot_unique hLq hqT hL hT ((h.contains_iff hLq hqT o).mp hi.2) hm
    rw [hq, (h.spans m hL hT).1, Offset.val_some]
  · rename_i hnone
    have := List.find?_eq_none.mp hnone (idx n m) (List.mem_finRange _)
    simp [hhit.1, hhit.2] at this

/-! ## Keeping the window -/

theorem of_new (memory : Fin n → ℕ → UInt8) (file : Option File) (lo hi : ℕ → ℕ) :
    Gapped (Cache.new n memory file) 0 0 lo hi where
  le := Nat.le_refl _
  fits := Nat.zero_le _
  complete q _ h := by omega
  spans q _ h := by omega
  ordered q r _ _ h := by omega
  below q _ h := by omega
  free q _ _ := Or.inl rfl

/-- Only the labels of the slots matter. -/
theorem congr_slots (h : Gapped c L T lo hi)
    (hslot : ∀ i, (c'.slots i).state = (c.slots i).state ∧
      (c'.slots i).offset = (c.slots i).offset ∧ (c'.slots i).size = (c.slots i).size)
    (htail : c'.tail = c.tail) (hhigh : c'.hRbOffset = c.hRbOffset) : Gapped c' L T lo hi := by
  have hspans : ∀ i a b, (c'.slots i).Spans a b ↔ (c.slots i).Spans a b := by
    intro i a b
    rw [Slot.Spans, Slot.Spans, (hslot i).2.1, (hslot i).2.2]
  refine ⟨h.le, h.fits, ?_, ?_, h.ordered, ?_, ?_⟩
  · intro q hL hT
    rw [Slot.Complete, (hslot _).1]
    exact h.complete q hL hT
  · intro q hL hT
    exact (hspans _ _ _).mpr (h.spans q hL hT)
  · rw [hhigh]
    exact h.below
  · intro q hT hq
    simp only [Free, (hslot _).1, hspans, htail, hhigh]
    exact h.free q hT hq

theorem restate (h : Gapped c L T lo hi) (hr : Restate c c') : Gapped c' L T lo hi := by
  have hslot := hr.slot
  rcases hr.frame with ⟨slots, head, fslots, d, rfl⟩
  refine ⟨h.le, h.fits, ?_, ?_, h.ordered, h.below, ?_⟩
  · intro q hL hT
    exact (hslot _).complete_iff.mpr (h.complete q hL hT)
  · intro q hL hT
    exact (hslot _).spans (h.spans q hL hT)
  · intro q hT hq
    have heq := (hslot (idx n q)).eq_of_not_complete (h.free_not_complete hT hq)
    unfold Free
    rw [heq]
    exact h.free q hT hq

/-- After state words changed, the slots contain what they contained. -/
theorem contains_restate (h : Gapped c L T lo hi) (hr : Restate c c') {q : ℕ} (hL : L ≤ q)
    (hT : q < T) : (c'.slots (idx n q)).contains o = true ↔ lo q ≤ o ∧ o < hi q :=
  (h.restate hr).contains_iff hL hT o

end Gapped

end Cache

end TimeShift
