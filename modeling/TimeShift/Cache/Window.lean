import TimeShift.Cache.Gapped

/-!
# The window of the ring

Slots are numbered by positions, `idx n q` being the slot of position `q`. At
any time the complete slots are those of a window `L ≤ q < T` of at most `n`
positions, and they hold adjacent ranges of the stream: position `q` holds the
bytes from `off q` to `off (q + 1)`. The slots of the positions from `T` on are
free, but for a partly written one at `T`.

`Window` is what recycling, filling and reading slots keep. It is the gapped
window whose ranges join.
-/

set_option linter.unusedSectionVars false

namespace TimeShift

open Bytes Cyclic

namespace Cache

variable {n : ℕ} [NeZero n] {c c' : Cache n} {p : Platform} {L R T : ℕ} {off : ℕ → ℕ}

/-- The complete slots are those of the positions `L ≤ q < T`, and position `q`
holds the stream from `off q` to `off (q + 1)`. -/
structure Window (c : Cache n) (L T : ℕ) (off : ℕ → ℕ) : Prop where
  le : L ≤ T
  fits : T ≤ L + n
  low : c.lRbOffset = off L
  high : c.hRbOffset = off T
  complete : ∀ q, L ≤ q → q < T → (c.slots (idx n q)).Complete
  spans : ∀ q, L ≤ q → q < T → (c.slots (idx n q)).Spans (off q) (off (q + 1))
  free : ∀ q, T ≤ q → q < L + n → c.Free T (off T) q

/-- The window has grown at its end; what it was before is still there. -/
def Grows (T : ℕ) (off : ℕ → ℕ) (T' : ℕ) (off' : ℕ → ℕ) : Prop :=
  T ≤ T' ∧ ∀ q, q ≤ T → off' q = off q

theorem Grows.rfl : Grows T off T off := ⟨Nat.le_refl T, fun _ _ => Eq.refl _⟩

theorem Grows.trans {T' T'' : ℕ} {off' off'' : ℕ → ℕ} (h : Grows T off T' off')
    (h' : Grows T' off' T'' off'') : Grows T off T'' off'' := by
  refine ⟨h.1.trans h'.1, ?_⟩
  intro q hq
  rw [h'.2 q (hq.trans h.1), h.2 q hq]

theorem Grows.succ (T : ℕ) (off : ℕ → ℕ) (b : ℕ) :
    Grows T off (T + 1) (Function.update off (T + 1) b) :=
  ⟨Nat.le_succ T, fun _ hq => Function.update_of_ne (by omega) _ _⟩

namespace Window

theorem off_lt (h : Window c L T off) {q : ℕ} (hL : L ≤ q) (hT : q < T) :
    off q < off (q + 1) :=
  (h.spans q hL hT).2.2

/-- The cut points are ordered as the positions are. -/
theorem off_mono (h : Window c L T off) {q r : ℕ} (hL : L ≤ q) (hqr : q ≤ r) (hT : r ≤ T) :
    off q ≤ off r := by
  induction r, hqr using Nat.le_induction with
  | base => exact Nat.le_refl _
  | succ r hr ih =>
      have hstep := h.off_lt (show L ≤ r by omega) (show r < T by omega)
      have := ih (by omega)
      omega

/-- A window is a gapped window without gaps. -/
theorem gapped (h : Window c L T off) : Gapped c L T off (fun q => off (q + 1)) where
  le := h.le
  fits := h.fits
  complete := h.complete
  spans := h.spans
  ordered q r hL hqr hT := h.off_mono (by omega) hqr (by omega)
  below q hL hT := by
    rw [h.high]
    exact h.off_mono (by omega) hT (Nat.le_refl T)
  free := by
    rw [h.high]
    exact h.free

theorem free_not_complete (h : Window c L T off) {q : ℕ} (hT : T ≤ q) (hq : q < L + n) :
    ¬(c.slots (idx n q)).Complete :=
  h.gapped.free_not_complete hT hq

/-- A complete slot is the slot of some position in the window. -/
theorem exists_pos (h : Window c L T off) {i : Fin n} (hi : (c.slots i).Complete) :
    ∃ q, L ≤ q ∧ q < T ∧ idx n q = i :=
  h.gapped.exists_pos hi

/-- A window that has an offset is not empty. -/
theorem lt_of_mem (h : Window c L T off) {o : ℕ} (hlow : c.lRbOffset ≤ o)
    (hhigh : o < c.hRbOffset) : L < T := by
  rw [h.low] at hlow
  rw [h.high] at hhigh
  rcases Nat.eq_or_lt_of_le h.le with rfl | hlt
  · omega
  · exact hlt

theorem low_le_high (h : Window c L T off) : c.lRbOffset ≤ c.hRbOffset := by
  rw [h.low, h.high]
  exact h.off_mono (Nat.le_refl _) h.le (Nat.le_refl _)

/-- An offset between two cut points lies in one of the slots between them. -/
theorem exists_slot {q r o : ℕ} (hqr : q ≤ r)
    (hlow : off q ≤ o) (hhigh : o < off r) :
    ∃ m, q ≤ m ∧ m < r ∧ off m ≤ o ∧ o < off (m + 1) := by
  induction r, hqr using Nat.le_induction with
  | base => omega
  | succ r hr ih =>
      by_cases hlast : off r ≤ o
      · exact ⟨r, hr, Nat.lt_succ_self r, hlast, hhigh⟩
      · obtain ⟨m, hqm, hmr, hm⟩ := ih (by omega)
        exact ⟨m, hqm, by omega, hm⟩

/-- The start of the slot that holds an offset. -/
theorem slotStart (h : Window c L T off) {m o : ℕ} (hL : L ≤ m) (hT : m < T) (hm : off m ≤ o)
    (hm' : o < off (m + 1)) : c.slotStart o = off m :=
  h.gapped.slotStart hL hT ⟨hm, hm'⟩

/-! ## Keeping the window -/

theorem of_new (memory : Fin n → ℕ → UInt8) (file : Option File) :
    Window (Cache.new n memory file) 0 0 (fun _ => 0) where
  le := Nat.le_refl _
  fits := Nat.zero_le _
  low := rfl
  high := rfl
  complete q _ h := by omega
  spans q _ h := by omega
  free q _ _ := Or.inl rfl

theorem sameRing (h : Window c L T off) (hr : SameRing c c') : Window c' L T off where
  le := h.le
  fits := h.fits
  low := hr.lRbOffset.trans h.low
  high := hr.hRbOffset.trans h.high
  complete := by
    rw [hr.slots]
    exact h.complete
  spans := by
    rw [hr.slots]
    exact h.spans
  free q hT hq := by
    unfold Free
    rw [hr.slots, hr.tail]
    exact h.free q hT hq

/-- Neither the memory of the slots nor their write pointers matter. -/
theorem congr_slots (h : Window c L T off)
    (hslot : ∀ i, (c'.slots i).state = (c.slots i).state ∧
      (c'.slots i).offset = (c.slots i).offset ∧ (c'.slots i).size = (c.slots i).size)
    (htail : c'.tail = c.tail) (hlow : c'.lRbOffset = c.lRbOffset)
    (hhigh : c'.hRbOffset = c.hRbOffset) : Window c' L T off := by
  have hg := h.gapped.congr_slots hslot htail hhigh
  refine ⟨h.le, h.fits, hlow.trans h.low, hhigh.trans h.high, hg.complete, hg.spans, ?_⟩
  have hfree := hg.free
  rwa [hhigh, h.high] at hfree

theorem restate (h : Window c L T off) (hr : Restate c c') : Window c' L T off := by
  have hg := h.gapped.restate hr
  have hframe : c'.lRbOffset = c.lRbOffset ∧ c'.hRbOffset = c.hRbOffset := by
    rcases hr.frame with ⟨_, _, _, _, heq⟩
    rw [heq]
    exact ⟨rfl, rfl⟩
  refine ⟨h.le, h.fits, hframe.1.trans h.low, hframe.2.trans h.high, hg.complete, hg.spans, ?_⟩
  have hfree := hg.free
  rwa [hframe.2, h.high] at hfree

/-- When the tail slot is complete, the window is a full turn and the tail slot
is the oldest one. -/
theorem full_turn (h : Window c L T off) (htail : c.tail = idx n T)
    (hc : (c.slots c.tail).Complete) : T = L + n ∧ L < T ∧ c.tail = idx n L := by
  have hn : 0 < n := Nat.pos_of_ne_zero (NeZero.ne n)
  have hT : T = L + n := by
    by_contra hne
    have hfits := h.fits
    rw [htail] at hc
    exact h.free_not_complete (Nat.le_refl T) (by omega) hc
  exact ⟨hT, by omega, by rw [htail, hT, idx_add_self]⟩

theorem lt_of_available (h : Window c L T off) (htail : c.tail = idx n T)
    (ha : (c.slots c.tail).available) : T < L + n := by
  have hfits := h.fits
  rcases Nat.lt_or_ge T (L + n) with hlt | hge
  · exact hlt
  · have hT : T = L + n := by omega
    -- at a full turn the tail slot would be the oldest one
    have hn : 0 < n := Nat.pos_of_ne_zero (NeZero.ne n)
    have hL := h.complete L (Nat.le_refl _) (by omega)
    rw [htail, hT, idx_add_self] at ha
    rw [Slot.complete_iff_not_available, ha] at hL
    cases hL

/-- The oldest slot leaves the window when it is recycled. -/
theorem recycle_tail (h : Window c L T off) (htail : c.tail = idx n T)
    (hst : (c.slots c.tail).state = .recycle) :
    L < T ∧ T = L + n ∧ c.tail = idx n L ∧ (c.recycle c.tail).lRbOffset = off (L + 1) ∧
      Window (c.recycle c.tail) (L + 1) T off := by
  obtain ⟨hT, hlt, hL⟩ := h.full_turn htail (Slot.Complete.of_recycle hst)
  have hspan := h.spans L (Nat.le_refl _) hlt
  rw [← hL] at hspan
  rw [recycle_of_eq hst hspan.1]
  refine ⟨hlt, hT, hL, hspan.2.1, ?_⟩
  -- the slot of `L` is that of no other position
  have hother : ∀ q, L + 1 ≤ q → q < T → idx n q ≠ c.tail := by
    intro q hLq hqT
    rw [hL]
    exact idx_ne (by omega) (by omega) (by omega)
  refine ⟨by omega, by omega, hspan.2.1, h.high, ?_, ?_, ?_⟩
  · intro q hLq hqT
    dsimp only
    rw [Function.update_of_ne (hother q hLq hqT)]
    exact h.complete q (by omega) hqT
  · intro q hLq hqT
    dsimp only
    rw [Function.update_of_ne (hother q hLq hqT)]
    exact h.spans q (by omega) hqT
  · -- the only free slot is the one that was recycled
    intro q hTq hq
    left
    have hq : q = T := by omega
    dsimp only
    rw [hq, ← htail, Function.update_self, Slot.reset_state]

/-- The slot at `T` is completed and joins the window. -/
theorem append (h : Window c L T off) (tail : Fin n) (fslots : ℤ) (hOffset rDkPos : ℕ)
    {t : Slot} {b : ℕ} (hlt : T < L + n) (ht : t.Complete) (hspan : t.Spans (off T) b) :
    Window { c with
      slots := Function.update c.slots (idx n T) t
      tail := tail
      hRbOffset := b
      fslots := fslots
      hOffset := hOffset
      rDkPos := rDkPos } L (T + 1) (Function.update off (T + 1) b) := by
  have hle := h.le
  have hoff : ∀ q, q ≤ T → Function.update off (T + 1) b q = off q :=
    fun q hq => Function.update_of_ne (by omega) _ _
  -- only the slot of `T` has changed
  have hslot : ∀ q, L ≤ q → q < L + n → q ≠ T →
      Function.update c.slots (idx n T) t (idx n q) = c.slots (idx n q) :=
    fun q hL hq hne => update_idx_ne _ _ hne (by omega) (by omega)
  refine ⟨by omega, by omega, ?_, ?_, ?_, ?_, ?_⟩
  · rw [hoff L hle]
    exact h.low
  · rw [Function.update_self]
  · intro q hL hT
    dsimp only
    rcases Nat.lt_succ_iff_lt_or_eq.mp hT with hT | rfl
    · rw [hslot q hL (by omega) (by omega)]
      exact h.complete q hL hT
    · rw [Function.update_self]
      exact ht
  · intro q hL hT
    dsimp only
    rcases Nat.lt_succ_iff_lt_or_eq.mp hT with hT | rfl
    · rw [hslot q hL (by omega) (by omega), hoff q (by omega), hoff (q + 1) (by omega)]
      exact h.spans q hL hT
    · rw [Function.update_self, Function.update_self, hoff q (Nat.le_refl q)]
      exact hspan
  · -- a slot behind `T` is empty, as only the one at `T` can be partly written
    intro q hT hq
    left
    dsimp only
    rw [hslot q (by omega) hq (by omega)]
    rcases h.free q (by omega) hq with hst | ⟨rfl, -⟩
    · exact hst
    · omega

/-- The slot at `T` is partly written. -/
theorem write_part (h : Window c L T off) (hOffset : ℕ) {t : Slot} {b : ℕ}
    (htail : c.tail = idx n T) (hlt : T < L + n) (ht : t.state = .part)
    (hspan : t.Spans (off T) b) :
    Window { c with
      slots := Function.update c.slots (idx n T) t
      hOffset := hOffset } L T off := by
  have hle := h.le
  have hslot : ∀ q, L ≤ q → q < L + n → q ≠ T →
      Function.update c.slots (idx n T) t (idx n q) = c.slots (idx n q) :=
    fun q hL hq hne => update_idx_ne _ _ hne (by omega) (by omega)
  refine ⟨hle, h.fits, h.low, h.high, ?_, ?_, ?_⟩
  · intro q hL hT
    dsimp only
    rw [hslot q hL (by omega) (by omega)]
    exact h.complete q hL hT
  · intro q hL hT
    dsimp only
    rw [hslot q hL (by omega) (by omega)]
    exact h.spans q hL hT
  · intro q hT hq
    rcases Nat.eq_or_lt_of_le hT with rfl | hT
    · right
      refine ⟨rfl, htail, ?_, b, ?_⟩
      · dsimp only
        rw [Function.update_self]
        exact ht
      · dsimp only
        rw [Function.update_self]
        exact hspan
    · left
      dsimp only
      rw [hslot q (by omega) hq (by omega)]
      rcases h.free q (by omega) hq with hst | ⟨rfl, -⟩
      · exact hst
      · omega

end Window

end Cache

end TimeShift
