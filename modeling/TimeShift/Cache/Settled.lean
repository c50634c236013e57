import TimeShift.Cache.Isolation
import TimeShift.Cache.Placed

/-!
# Where the slots stand, in any run

What holds of the labels of the slots in every state that a cache can reach: by
any operations in any order, with any answers of the platform, and also after the
slot of a lagging tail has been reused. The ring is a gapped window then, and the
head stands in it, or right behind it, or one slot further on:

* the tail is behind the window, and so is the head at most;
* `Ahead`: a lagging tail has been given its slot back, so that the head is one
  slot ahead of it; there is no offset to seek to until that slot is full again;
* the tail lags.

So a seek finds every offset that a slot of the ring still holds.
-/

set_option linter.unusedSectionVars false

namespace TimeShift

open Bytes Cyclic Machine

namespace Cache

variable {n : ℕ} [NeZero n] {c c' : Cache n} {p : Platform} {L R T b o : ℕ} {lo hi : ℕ → ℕ}
  {t : Slot}

/-! ## Changing a gapped window at its ends -/

/-- The slot at `T` is completed and joins the window. -/
theorem Gapped.append (h : Gapped c L T lo hi) (hlt : T < L + n) (ht : t.Complete)
    (hspan : t.Spans c.hRbOffset b) (hslots : c'.slots = Function.update c.slots (idx n T) t)
    (hhigh : c'.hRbOffset = b) :
    Gapped c' L (T + 1) (Function.update lo T c.hRbOffset) (Function.update hi T b) := by
  have hle := h.le
  have hb := hspan.2.2
  have hslot : ∀ q, L ≤ q → q < L + n → q ≠ T → c'.slots (idx n q) = c.slots (idx n q) := by
    intro q hL hq hne
    rw [hslots]
    exact update_idx_ne _ _ hne (by omega) (by omega)
  have hnew : c'.slots (idx n T) = t := by rw [hslots, Function.update_self]
  refine ⟨by omega, by omega, ?_, ?_, ?_, ?_, ?_⟩
  · intro q hL hq
    rcases Nat.lt_succ_iff_lt_or_eq.mp hq with hq | rfl
    · rw [hslot q hL (by omega) (by omega)]
      exact h.complete q hL hq
    · rw [hnew]
      exact ht
  · intro q hL hq
    rcases Nat.lt_succ_iff_lt_or_eq.mp hq with hq | rfl
    · rw [hslot q hL (by omega) (by omega), Function.update_of_ne (by omega),
        Function.update_of_ne (by omega)]
      exact h.spans q hL hq
    · rw [hnew, Function.update_self, Function.update_self]
      exact hspan
  · intro q r hL hqr hr
    rw [Function.update_of_ne (by omega)]
    rcases Nat.lt_succ_iff_lt_or_eq.mp hr with hr | rfl
    · rw [Function.update_of_ne (by omega)]
      exact h.ordered q r hL hqr hr
    · rw [Function.update_self]
      exact h.below q hL hqr
  · intro q hL hq
    rw [hhigh]
    rcases Nat.lt_succ_iff_lt_or_eq.mp hq with hq | rfl
    · rw [Function.update_of_ne (by omega)]
      exact (h.below q hL hq).trans (Nat.le_of_lt hb)
    · rw [Function.update_self]
  · -- a slot behind `T` is empty, as only the one at `T` can be partly written
    intro q hT hq
    left
    rw [hslot q (by omega) hq (by omega)]
    rcases h.free q (by omega) hq with hst | ⟨rfl, -⟩
    · exact hst
    · omega

/-- The slot at `T` is partly written. -/
theorem Gapped.write_part (h : Gapped c L T lo hi) (htail : c.tail = idx n T)
    (ht : t.state = .part) (hspan : t.Spans c.hRbOffset b)
    (hslots : c'.slots = Function.update c.slots (idx n T) t) (htail' : c'.tail = c.tail)
    (hhigh : c'.hRbOffset = c.hRbOffset) (hlt : T < L + n) : Gapped c' L T lo hi := by
  have hle := h.le
  have hslot : ∀ q, L ≤ q → q < L + n → q ≠ T → c'.slots (idx n q) = c.slots (idx n q) := by
    intro q hL hq hne
    rw [hslots]
    exact update_idx_ne _ _ hne (by omega) (by omega)
  refine ⟨hle, h.fits, ?_, ?_, h.ordered, ?_, ?_⟩
  · intro q hL hT
    rw [hslot q hL (by omega) (by omega)]
    exact h.complete q hL hT
  · intro q hL hT
    rw [hslot q hL (by omega) (by omega)]
    exact h.spans q hL hT
  · rw [hhigh]
    exact h.below
  · intro q hT hq
    rcases Nat.eq_or_lt_of_le hT with rfl | hT
    · right
      rw [hhigh, hslots, Function.update_self]
      exact ⟨rfl, htail'.trans htail, ht, b, hspan⟩
    · left
      rw [hslot q (by omega) hq (by omega)]
      rcases h.free q (by omega) hq with hst | ⟨rfl, -⟩
      · exact hst
      · omega

/-- The oldest slot of a full ring leaves the window. -/
theorem Gapped.drop_first (h : Gapped c L T lo hi) (hLT : L < T) (hT : T = L + n)
    (ht : t.state = .empty) (hslots : c'.slots = Function.update c.slots (idx n L) t)
    (hhigh : c'.hRbOffset = c.hRbOffset) : Gapped c' (L + 1) T lo hi := by
  have hslot : ∀ q, L + 1 ≤ q → q < T → c'.slots (idx n q) = c.slots (idx n q) := by
    intro q hL hq
    rw [hslots]
    exact update_idx_ne _ _ (by omega) (by omega) (by omega)
  refine ⟨hLT, by omega, ?_, ?_, ?_, ?_, ?_⟩
  · intro q hL hq
    rw [hslot q hL hq]
    exact h.complete q (by omega) hq
  · intro q hL hq
    rw [hslot q hL hq]
    exact h.spans q (by omega) hq
  · intro q r hL hqr hr
    exact h.ordered q r (by omega) hqr hr
  · intro q hL hq
    rw [hhigh]
    exact h.below q (by omega) hq
  · -- the only free slot is the one that was dropped
    intro q hTq hq
    left
    rw [show q = L + n by omega, idx_add_self, hslots, Function.update_self]
    exact ht

/-- The newest slot leaves the window. -/
theorem Gapped.drop_last (h : Gapped c L (T + 1) lo hi) (hLT : L ≤ T) (hn : 2 ≤ n)
    (htail : c.tail = idx n T) (ht : t.state = .empty)
    (hslots : c'.slots = Function.update c.slots (idx n T) t)
    (hhigh : c'.hRbOffset = c.hRbOffset) : Gapped c' L T lo hi := by
  have hfits := h.fits
  have hslot : ∀ q, L ≤ q → q < L + n → q ≠ T → c'.slots (idx n q) = c.slots (idx n q) := by
    intro q hL hq hne
    rw [hslots]
    exact update_idx_ne _ _ hne (by omega) (by omega)
  refine ⟨hLT, by omega, ?_, ?_, ?_, ?_, ?_⟩
  · intro q hL hq
    rw [hslot q hL (by omega) (by omega)]
    exact h.complete q hL (by omega)
  · intro q hL hq
    rw [hslot q hL (by omega) (by omega)]
    exact h.spans q hL (by omega)
  · intro q r hL hqr hr
    exact h.ordered q r hL hqr (by omega)
  · intro q hL hq
    rw [hhigh]
    exact h.below q hL (by omega)
  · intro q hTq hq
    left
    by_cases hqT : q = T
    · rw [hqT, hslots, Function.update_self]
      exact ht
    · rw [hslot q (by omega) hq hqT]
      rcases h.free q (by omega) hq with hst | ⟨-, habs, -⟩
      · exact hst
      · -- the tail is at the newest slot, not behind it
        exact absurd (htail.symm.trans habs) (idx_ne (by omega) (by omega) (by omega))

/-! ## The head and the tail -/

/-- The head is in the window or right behind it. -/
def HeadIn (c : Cache n) (L T : ℕ) : Prop := ∃ R, L ≤ R ∧ R ≤ T ∧ c.head = idx n R

/-- The head is one slot ahead of the tail, and the ring has no offset to seek to. -/
def Ahead (c : Cache n) (T : ℕ) : Prop := c.head = idx n (T + 1) ∧ c.hRbOffset ≤ c.lRbOffset

/-- The tail still stands at the newest slot. -/
def Lags (c : Cache n) (L T : ℕ) (hi : ℕ → ℕ) : Prop :=
  2 ≤ n ∧ L < T ∧ c.tail = idx n (T - 1) ∧ hi (T - 1) = c.hRbOffset

/-- The ring is a gapped window, with the head and the tail in place. -/
structure Settled (c : Cache n) (L T : ℕ) (lo hi : ℕ → ℕ) : Prop where
  window : Gapped c L T lo hi
  place : (c.tail = idx n T ∧ (HeadIn c L T ∨ Ahead c T)) ∨ (Lags c L T hi ∧ HeadIn c L T)

namespace Settled

theorem of_new (memory : Fin n → ℕ → UInt8) (file : Option File) (lo hi : ℕ → ℕ) :
    Settled (Cache.new n memory file) 0 0 lo hi :=
  ⟨.of_new memory file lo hi, Or.inl ⟨rfl, Or.inl ⟨0, Nat.le_refl _, Nat.le_refl _, rfl⟩⟩⟩

/-- The window has been kept, and the fields that the head and the tail are placed
by have not changed. -/
theorem keep (h : Settled c L T lo hi) (hw : Gapped c' L T lo hi) (htail : c'.tail = c.tail)
    (hhead : c'.head = c.head) (hlow : c'.lRbOffset = c.lRbOffset)
    (hhigh : c'.hRbOffset = c.hRbOffset) : Settled c' L T lo hi := by
  refine ⟨hw, ?_⟩
  unfold HeadIn Ahead Lags
  rw [htail, hhead, hlow, hhigh]
  exact h.place

theorem sameRing (h : Settled c L T lo hi) (hr : SameRing c c') : Settled c' L T lo hi := by
  refine h.keep (h.window.congr_slots ?_ hr.tail hr.hRbOffset) hr.tail hr.head hr.lRbOffset
    hr.hRbOffset
  intro i
  rw [hr.slots]
  exact ⟨rfl, rfl, rfl⟩

theorem restate (h : Settled c L T lo hi) (hr : Restate c c') (hhead : c'.head = c.head) :
    Settled c' L T lo hi := by
  have hw := h.window.restate hr
  rcases hr.frame with ⟨_, _, _, _, rfl⟩
  exact h.keep hw rfl hhead rfl rfl

/-- State words have changed, and the head has moved within the window. -/
theorem move (h : Settled c L T lo hi) (hr : Restate c c') (hhead : HeadIn c' L T) :
    Settled c' L T lo hi := by
  refine ⟨h.window.restate hr, ?_⟩
  rcases hr.frame with ⟨_, _, _, _, rfl⟩
  rcases h.place with ⟨htail, -⟩ | ⟨hlags, -⟩
  · exact Or.inl ⟨htail, Or.inl hhead⟩
  · exact Or.inr ⟨hlags, hhead⟩

/-- A slot that takes bytes is the one behind the window. -/
theorem tail_of_available (h : Settled c L T lo hi) (ha : (c.slots c.tail).available) :
    c.tail = idx n T ∧ T < L + n ∧ (HeadIn c L T ∨ Ahead c T) := by
  have hfits := h.window.fits
  have hopen : ¬(c.slots c.tail).Complete := by
    rw [Slot.complete_iff_not_available, ha]
    simp
  rcases h.place with ⟨htail, hhead⟩ | ⟨⟨-, hLT, htail, -⟩, -⟩
  · refine ⟨htail, ?_, hhead⟩
    by_contra hfull
    have hn : 0 < n := Nat.pos_of_ne_zero (NeZero.ne n)
    have hcomplete := h.window.complete L (Nat.le_refl L) (by omega)
    rw [htail, show T = L + n by omega, idx_add_self] at hopen
    exact hopen hcomplete
  · rw [htail] at hopen
    exact absurd (h.window.complete (T - 1) (by omega) (by omega)) hopen

/-- The tail slot is recycled, if it is given back. At a lagging tail it is the
newest slot, else the oldest one of a full ring. -/
theorem recycle (h : Settled c L T lo hi) : ∃ L' T', Settled (c.recycle c.tail) L' T' lo hi := by
  by_cases hst : (c.slots c.tail).state = .recycle
  case neg =>
    rw [recycle_of_ne hst]
    exact ⟨L, T, h⟩
  have hfits := h.window.fits
  have hn : 0 < n := Nat.pos_of_ne_zero (NeZero.ne n)
  have hcomplete := Slot.Complete.of_recycle hst
  rcases h.place with ⟨htail, hhead⟩ | ⟨⟨hn2, hLT, htail, hnew⟩, hhead⟩
  · -- the tail slot is complete, so that the ring is full
    have hT : T = L + n := by
      by_contra hne
      rw [htail] at hcomplete
      exact h.window.free_not_complete (Nat.le_refl T) (by omega) hcomplete
    have hold : c.tail = idx n L := by rw [htail, hT, idx_add_self]
    have hspan := h.window.spans L (Nat.le_refl L) (by omega)
    rw [← hold] at hspan
    have heq := recycle_of_eq hst hspan.1
    refine ⟨L + 1, T, ?_, Or.inl ⟨by rw [heq]; exact htail, Or.inl ?_⟩⟩
    · exact h.window.drop_first (t := (c.slots c.tail).reset) (by omega) hT rfl
        (by rw [heq, hold]) (by rw [heq])
    · rw [HeadIn, show (c.recycle c.tail).head = c.head by rw [heq]]
      rcases hhead with ⟨R, hLR, hRT, hhead⟩ | ⟨hhead, -⟩
      · by_cases hR : R = L
        · -- the slot of the head itself has been recycled
          exact ⟨T, by omega, Nat.le_refl T, by rw [hhead, hR, hT, idx_add_self]⟩
        · exact ⟨R, by omega, hRT, hhead⟩
      · exact ⟨L + 1, Nat.le_refl _, by omega, by
          rw [hhead, hT, Nat.add_right_comm, idx_add_self]⟩
  · obtain ⟨T, rfl⟩ : ∃ T', T = T' + 1 := ⟨T - 1, by omega⟩
    rw [Nat.add_sub_cancel] at htail hnew
    -- the newest slot is given back, and the window ends before it
    have hspan := h.window.spans T (by omega) (Nat.lt_succ_self T)
    rw [← htail] at hspan
    have heq := recycle_of_eq hst hspan.1
    refine ⟨L, T, ?_, Or.inl ⟨by rw [heq]; exact htail, ?_⟩⟩
    · exact h.window.drop_last (t := (c.slots c.tail).reset) (by omega) hn2 htail rfl
        (by rw [heq, htail]) (by rw [heq])
    · rcases hhead with ⟨R, hLR, hRT, hhead⟩
      have hhead' : (c.recycle c.tail).head = idx n R := by
        rw [heq]
        exact hhead
      by_cases hR : R = T + 1
      · -- the head was behind the slot that the tail is given back
        right
        refine ⟨by rw [hhead', hR], ?_⟩
        rw [heq]
        show c.hRbOffset ≤ _ + (c.slots c.tail).size
        rw [hspan.2.1, hnew]
      · exact Or.inl ⟨R, hLR, by omega, hhead'⟩

/-- The tail slot is completed, and the tail moves on. -/
theorem append (h : Settled c L T lo hi) (ha : (c.slots c.tail).available) (ht : t.Complete)
    (hspan : t.Spans c.hRbOffset b) (hslots : c'.slots = Function.update c.slots c.tail t)
    (hhigh : c'.hRbOffset = b) (htail' : c'.tail = c.tail + 1) (hhead' : c'.head = c.head) :
    Settled c' L (T + 1) (Function.update lo T c.hRbOffset) (Function.update hi T b) := by
  rcases h.tail_of_available ha with ⟨htail, hlt, hhead⟩
  have hle := h.window.le
  refine ⟨h.window.append hlt ht hspan (by rw [hslots, htail]) hhigh, Or.inl ⟨?_, Or.inl ?_⟩⟩
  · rw [htail', htail, idx_add_one]
  · rw [HeadIn, hhead']
    rcases hhead with ⟨R, hLR, hRT, hhead⟩ | ⟨hhead, -⟩
    · exact ⟨R, hLR, by omega, hhead⟩
    · -- a head that was ahead of the tail is right behind the window now
      exact ⟨T + 1, by omega, Nat.le_refl _, hhead⟩

theorem fill (h : Settled c L T lo hi) (data : Block UInt8) {k : ℕ}
    (ha : (c.slots c.tail).available) (hk : k ≤ (c.slots c.tail).room) (hpos : 0 < k) :
    ∃ T' lo' hi', Settled (c.fill data k ha hk) L T' lo' hi' := by
  rcases h.tail_of_available ha with ⟨htail, hlt, -⟩
  have heq := c.fill_eq data k ha hk
  set t := ((c.slots c.tail).write data.byte k c.hRbOffset ha hk).1 with hdef
  have hspan : t.Spans c.hRbOffset (c.hRbOffset + ((c.slots c.tail).size + k)) :=
    ⟨by rw [hdef, Slot.write_offset], by rw [hdef, Slot.write_size], by omega⟩
  by_cases hfull : (c.slots c.tail).size + k = cacheSlotSize
  · simp only [hfull, if_true] at heq
    rw [hfull] at hspan
    exact ⟨T + 1, _, _, h.append ha (Slot.Complete.of_full (by simp [hdef, hfull])) hspan
      (by rw [heq]) (by rw [heq]) (by rw [heq]) (by rw [heq])⟩
  · simp only [hfull, if_false] at heq
    have hw : Gapped (c.fill data k ha hk) L T lo hi :=
      h.window.write_part htail (by simp [hdef, hfull]) hspan (by rw [heq, htail])
        (by rw [heq]) (by rw [heq]) hlt
    exact ⟨T, lo, hi, h.keep hw (by rw [heq]) (by rw [heq]) (by rw [heq]) (by rw [heq])⟩

theorem read (h : Settled c L T lo hi) {k : ℕ} {drain : Bool}
    (hread : c.diskRead c.tail c.hRbOffset drain p k = (c', true)) :
    ∃ T' lo' hi', Settled c'.advance L T' lo' hi' := by
  rcases diskRead_true hread with ⟨f, -, havail, hpos, -, -, rfl⟩
  set t := (c.slots c.tail).load (fun j => f.byte (c.rDkPos + j)) c.readSize c.hRbOffset
    c.readSize_le with hdef
  have hspan : t.Spans c.hRbOffset (c.hRbOffset + c.readSize) :=
    ⟨by rw [hdef, Slot.load_offset], by rw [hdef, Slot.load_size], by omega⟩
  refine ⟨T + 1, _, _, h.append havail (Slot.Complete.of_full rfl) hspan rfl ?_ rfl rfl⟩
  show (Function.update c.slots c.tail t c.tail).offsetEnd = _
  rw [Function.update_self, hspan.offsetEnd]

/-- A failed read changes at most the memory of an open slot. -/
theorem read_fail (h : Settled c L T lo hi) {i : Fin n} {k : ℕ} {drain : Bool}
    (hread : c.diskRead i o drain p k = (c', false)) : Settled c' L T lo hi := by
  rcases diskRead_false hread with rfl | ⟨-, bytes, m, rfl⟩
  · exact h
  · have hwindow := h.window.congr_slots (c.setSlot_smear i bytes m) rfl rfl
    exact h.keep hwindow rfl rfl rfl rfl

theorem reload (h : Settled c L T lo hi) (drain : Bool) (p : Platform) :
    ∃ L' T' lo' hi', Settled (c.reload drain p) L' T' lo' hi' := by
  refine reload_induct (P := fun c₁ => ∃ L' T' lo' hi', Settled c₁ L' T' lo' hi') ?_ ?_ ?_
    ⟨L, T, lo, hi, h⟩
  · rintro c₁ ⟨L', T', lo', hi', h₁⟩
    rcases h₁.recycle with ⟨L'', T'', h₂⟩
    exact ⟨L'', T'', lo', hi', h₂⟩
  · rintro c₁ c₂ k ⟨L', T', lo', hi', h₁⟩ - hread
    exact ⟨L', h₁.read hread⟩
  · rintro c₁ c₂ k ⟨L', T', lo', hi', h₁⟩ hread
    exact ⟨L', T', lo', hi', h₁.read_fail hread⟩

theorem pushLoop (h : Settled c L T lo hi) (data : Block UInt8) (p : Platform) :
    ∃ L' T' lo' hi', Settled (Cache.pushLoop p data.size c data) L' T' lo' hi' := by
  let P : Cache n → Prop := fun c₁ => ∃ L' T' lo' hi', Settled c₁ L' T' lo' hi'
  apply pushLoop_rule (P := P) (Q := P) ?_ ?_ ?_ ?_ ⟨L, T, lo, hi, h⟩
  · rintro c₁ ⟨L', T', lo', hi', h₁⟩
    rcases h₁.recycle with ⟨L'', T'', h₂⟩
    exact ⟨L'', T'', lo', hi', h₂⟩
  · rintro c₁ d k ha hk ⟨L', T', lo', hi', h₁⟩ hpos
    exact ⟨L', h₁.fill d ha hk hpos⟩
  · intro c₁ h₁
    exact h₁
  · rintro c₁ d ⟨L', T', lo', hi', h₁⟩
    exact ⟨L', T', lo', hi', (h₁.sameRing (c₁.startRecording_sameRing p)).sameRing
      (diskWrite_sameRing _ _ _)⟩

theorem push (h : Settled c L T lo hi) (data : Block UInt8) (p : Platform) :
    ∃ L' T' lo' hi', Settled (c.push data p) L' T' lo' hi' := by
  cases hrec : c.isRecording with
  | false =>
      rw [push_ring hrec]
      exact h.pushLoop data p
  | true =>
      have h₁ := h.sameRing (c.diskWrite_sameRing data p)
      rw [push_recording hrec]
      split
      · exact h₁.reload false p
      · exact ⟨L, T, lo, hi, h₁⟩

/-- A draining pop completes the partly written slot; the tail lags then. -/
theorem promote (h : Settled c L T lo hi) : ∃ T' lo' hi', Settled c.promote L T' lo' hi' := by
  by_cases hst : (c.slots c.head).state = .part
  case neg =>
    rw [promote_of_ne hst]
    exact ⟨T, lo, hi, h⟩
  -- the head is at the tail, right behind the window
  rcases exists_idx L c.head with ⟨q, hL, hq, hhead⟩
  have hT : T ≤ q := by
    by_contra hlt
    have hcomplete := h.window.complete q hL (by omega)
    rw [hhead] at hcomplete
    simp [Slot.Complete, hst] at hcomplete
  rcases h.window.free q hT hq with habs | ⟨rfl, htail, -, b, hspan⟩
  · rw [hhead, hst] at habs
    cases habs
  rw [hhead] at hspan
  have heq := promote_of_part hst
  rw [hspan.offsetEnd] at heq
  have hw : Gapped c.promote L (q + 1) (Function.update lo q c.hRbOffset)
      (Function.update hi q b) :=
    h.window.append hq ((c.slots c.head).setState_complete .full CacheState.full_closed) hspan
      (by rw [heq, hhead]) (by rw [heq])
  have hin : HeadIn c.promote L (q + 1) :=
    ⟨q, hL, Nat.le_succ q, by rw [heq]; exact hhead.symm⟩
  have htail' : c.promote.tail = idx n q := by rw [heq, htail]
  refine ⟨q + 1, _, _, hw, ?_⟩
  by_cases hn : 2 ≤ n
  · exact Or.inr ⟨⟨hn, by omega, htail', by simp [heq]⟩, hin⟩
  · -- a ring of one slot has no other place
    have hpos : 0 < n := Nat.pos_of_ne_zero (NeZero.ne n)
    left
    rw [htail', show q + 1 = q + n by omega, idx_add_self]
    exact ⟨rfl, Or.inl (by rwa [show q + n = q + 1 by omega])⟩

theorem take (h : Settled c L T lo hi) (hfull : (c.slots c.head).state = .full) :
    Settled c.take L T lo hi := by
  rcases h.window.exists_pos (Slot.Complete.of_full hfull) with ⟨q, hL, hT, hhead⟩
  refine h.move (take_restate hfull) ⟨q + 1, by omega, hT, ?_⟩
  show c.head + 1 = _
  rw [← hhead, idx_add_one]

theorem pop (h : Settled c L T lo hi) (drain : Bool) (p : Platform) :
    ∃ L' T' lo' hi', Settled (c.pop drain p).1 L' T' lo' hi' := by
  refine pop_induct (P := fun c₁ => ∃ L T lo hi, Settled c₁ L T lo hi) ?_ ?_ ?_ ⟨L, T, lo, hi, h⟩
  · rintro c₁ ⟨L, T, lo, hi, h₁⟩
    exact ⟨L, h₁.promote⟩
  · rintro c₁ hfull ⟨L, T, lo, hi, h₁⟩
    exact ⟨L, T, lo, hi, h₁.take hfull⟩
  · rintro c₁ - - ⟨L, T, lo, hi, h₁⟩
    exact h₁.reload drain p

/-- The ring after a disk seek has flushed it. -/
theorem flushed (c : Cache n) (r o : ℕ) (lo hi : ℕ → ℕ) :
    Settled { c.flush with rDkPos := r, hRbOffset := o, lRbOffset := o } 0 0 lo hi := by
  refine ⟨⟨Nat.le_refl _, Nat.zero_le _, ?_, ?_, ?_, ?_, ?_⟩,
    Or.inl ⟨rfl, Or.inl ⟨0, Nat.le_refl _, Nat.le_refl _, rfl⟩⟩⟩
  · intro q _ hq
    omega
  · intro q _ hq
    omega
  · intro q r _ _ hr
    omega
  · intro q _ hq
    omega
  · intro q _ _
    exact Or.inl rfl

/-- The head is where a seek within the ring can start from. -/
theorem headIn (h : Settled c L T lo hi) (hin : c.lRbOffset ≤ o ∧ o < c.hRbOffset) :
    HeadIn c L T := by
  rcases h.place with ⟨-, hhead | ⟨-, hnone⟩⟩ | ⟨-, hhead⟩
  · exact hhead
  · omega
  · exact hhead

theorem seek (h : Settled c L T lo hi) (hnone : NonePopped c) (hseek : c.seek o p = some c') :
    ∃ L' T' lo' hi', Settled c' L' T' lo' hi' := by
  rcases seek_cases hseek with ⟨hlow, hhigh, hring⟩ | ⟨-, -, rfl⟩ | ⟨-, -, rfl⟩
  · rcases h.headIn ⟨hlow, hhigh⟩ with ⟨R, hLR, hRT, hhead⟩
    exact ⟨L, T, lo, hi, h.move (seekRing_restate hring)
      (h.window.seekRing_head hnone hhead hLR hRT hhigh hring)⟩
  · exact (flushed c _ _ lo hi).reload false p
  · exact ⟨L, T, lo, hi, h⟩

/-- A seek to an offset that a slot of the ring still holds puts that slot at the
head, full. -/
theorem seek_finds (h : Settled c L T lo hi) (hnone : NonePopped c)
    (hring : c.isDiskUsable = false) (hin : c.lRbOffset ≤ o ∧ o < c.hRbOffset) {i : Fin n}
    (hi : (c.slots i).Complete ∧ (c.slots i).contains o = true) (p : Platform) :
    c.slotStart o ≤ o ∧ ∃ c', c.seek o p = some c' ∧ (c'.slots c'.head).state = .full ∧
      (c'.slots c'.head).offset = some (c.slotStart o) := by
  rcases h.headIn hin with ⟨R, hLR, hRT, hhead⟩
  rcases h.window.exists_pos hi.1 with ⟨m, hLm, hmT, rfl⟩
  have ho := (h.window.contains_iff hLm hmT o).mp hi.2
  rcases h.window.seekRing_lands hnone hhead hLR hRT hLm hmT ho with
    ⟨c', hseek, hrest, -, hhead', hfull⟩
  have hstart := h.window.slotStart hLm hmT ho
  have hclamp : c.clamp o = o := by
    simp only [clamp, hring, Bool.false_eq_true, if_false]
    omega
  refine ⟨by rw [hstart]; exact ho.1, c', by rw [Cache.seek, hclamp, if_pos hin, hseek], ?_, ?_⟩
  · rw [hhead', hfull]
  · rw [hhead', (hrest.slot _).offset, (h.window.spans m hLm hmT).1, hstart]

end Settled

end Cache

/-! ## Runs -/

namespace Session

open Cache

variable {n : ℕ} [NeZero n] {s s' : Session n} {p : Platform}

/-- The slots of a session's cache stand in order. -/
def IsSettled (s : Session n) : Prop := ∃ L T lo hi, Settled s.cache L T lo hi

theorem IsSettled.step (h : IsSettled s) (hlive : LiveOk s.cache s.live) {l : Label}
    (hs : s.step l = some s') : IsSettled s' := by
  rcases h with ⟨L, T, lo, hi, h⟩
  rcases l with ⟨op, p⟩
  cases op with
  | push data =>
      rw [step_push hs]
      exact h.push data p
  | pop drain =>
      rw [step_pop hs, IsSettled, afterPop_cache]
      exact h.pop drain p
  | release k =>
      rcases step_release hs with ⟨b, hb, rfl⟩
      have hstate := hlive.state (List.mem_of_getElem? hb)
      exact ⟨L, T, lo, hi, h.restate (release_restate hstate) rfl⟩
  | seek offset =>
      rcases step_seek hs with ⟨hnone, c, hc, rfl⟩
      rw [hnone] at hlive
      exact h.seek (liveOk_nil.mp hlive) hc
  | startRecording =>
      rw [step_startRecording hs]
      exact ⟨L, T, lo, hi, h.sameRing (s.cache.startRecording_sameRing p)⟩
  | migrate =>
      rw [step_migrate hs]
      exact ⟨L, T, lo, hi, h.sameRing (s.cache.migrationThread_sameRing p)⟩
  | reload drain =>
      rw [step_reload hs]
      exact h.reload drain p

theorem reach_settled {ok : Session n → Label → Prop} {memory : Fin n → ℕ → UInt8}
    {file : Option File} (h : Reach Session.step ok (init n memory file) s) :
    IsSettled s ∧ LiveOk s.cache s.live :=
  h.invariant (P := fun s => IsSettled s ∧ LiveOk s.cache s.live)
    ⟨⟨0, 0, _, _, .of_new memory file (fun _ => 0) fun _ => 0⟩, init_liveOk memory file⟩
    fun _ _ _ hinv _ hs => ⟨hinv.1.step hinv.2 hs, step_liveOk hinv.2 hs⟩

end Session

end TimeShift
