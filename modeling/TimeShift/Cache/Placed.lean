import TimeShift.Cache.Disk
import TimeShift.Cache.Walk

/-!
# Where the slots of the ring stand

What holds of the labels of the slots in every mode, whatever the platform
answers: the ring is a window, and the head stands in it or right behind it. The
tail stands right behind the window too, except after a draining pop has taken
the partly written tail slot: that pop does not move the tail, which then lags by
one slot (`TailOk`).

When the slot at a lagging tail is reused (`Drained` tells when), it is torn out of
the ring, unless it is the only one in use (`Torn`): then the ring begins anew at
this slot, with the head one slot ahead. As long as no slot is torn out, every step
keeps this.
-/

set_option linter.unusedSectionVars false

namespace TimeShift

open Bytes Cyclic

namespace Cache

variable {n : ℕ} [NeZero n] {c c' : Cache n} {p : Platform} {L R T : ℕ} {off : ℕ → ℕ}

/-! ## The lagging tail -/

/-- The tail stands right behind the window, or lags by one slot. -/
def TailOk (c : Cache n) (L T : ℕ) : Prop :=
  c.tail = idx n T ∨ (2 ≤ n ∧ L < T ∧ c.tail = idx n (T - 1))

/-- The tail still points to the newest slot of the ring, which a draining pop
has taken, and which has been released since. -/
def Drained (c : Cache n) : Prop :=
  2 ≤ n ∧ (c.slots c.tail).state = .recycle ∧ (c.slots c.tail).offsetEnd = c.hRbOffset

instance (c : Cache n) : Decidable c.Drained := inferInstanceAs (Decidable (_ ∧ _ ∧ _))

/-- Unless the cache is drained, the tail is where it should be, or its slot is
in use. -/
theorem TailOk.of_not_drained (ht : TailOk c L T) (h : Window c L T off) (hd : ¬c.Drained) :
    c.tail = idx n T ∨ c.Closed c.tail := by
  rcases ht with ht | ⟨hn, hLT, ht⟩
  · exact Or.inl ht
  · right
    have hcomplete := h.complete (T - 1) (by omega) (by omega)
    have hspan := h.spans (T - 1) (by omega) (by omega)
    rw [← ht] at hcomplete hspan
    rw [show T - 1 + 1 = T by omega, ← h.high] at hspan
    rcases hcomplete with hst | hst | hst
    · exact Or.inl hst
    · exact Or.inr hst
    · exact absurd ⟨hn, hst, hspan.offsetEnd⟩ hd

/-- The slot that a lagging tail points to is about to be reused, and there are older ones
in use. -/
def Torn (c : Cache n) : Prop :=
  c.Drained ∧ (c.slots c.tail).offset ≠ some c.lRbOffset

instance (c : Cache n) : Decidable c.Torn := inferInstanceAs (Decidable (_ ∧ _))

/-- Recycling the slot of a lagging tail, when it is the only one in use, leaves an
empty ring with the tail in its place. -/
theorem Window.recycle_lagging (h : Window c L T off) (hn : 2 ≤ n) (hT : T = L + 1)
    (ht : c.tail = idx n L) (hst : (c.slots c.tail).state = .recycle) :
    Window (c.recycle c.tail) L L (fun _ => c.hRbOffset) := by
  have hspan := h.spans L (Nat.le_refl L) (by omega)
  rw [← ht] at hspan
  have hempty : ∀ i, ((c.recycle c.tail).slots i).state = .empty := by
    intro i
    by_cases hi : i = c.tail
    · subst hi
      simp [Cache.recycle, hst]
    · simp only [Cache.recycle, hst, if_true, Function.update_of_ne hi]
      rcases exists_idx L i with ⟨q, hL, hq, rfl⟩
      have hTq : T ≤ q := by
        by_contra hlt
        exact hi (by rw [ht, show q = L by omega])
      rcases h.free q hTq hq with hfree | ⟨rfl, htail, -⟩
      · exact hfree
      · rw [ht] at htail
        exact absurd htail (idx_ne (by omega) (by omega) (by omega))
  have hlow : (c.recycle c.tail).lRbOffset = c.hRbOffset := by
    rw [recycle_of_eq hst hspan.1, h.high, hT]
    exact hspan.2.1
  refine ⟨Nat.le_refl L, by omega, hlow, c.recycle_hRbOffset _, ?_, ?_, ?_⟩
  · intro q _ hq
    omega
  · intro q _ hq
    omega
  · intro q _ _
    exact Or.inl (hempty _)

/-! ## The draining pop -/

/-- A partly written head slot is the tail slot, right behind the window. -/
theorem Window.head_part (h : Window c L T off) (hst : (c.slots c.head).state = .part) :
    T < L + n ∧ c.head = idx n T ∧ c.tail = idx n T ∧
      ∃ b, (c.slots c.head).Spans (off T) b := by
  obtain ⟨q, hL, hq, hhead⟩ := exists_idx L c.head
  have hT : T ≤ q := by
    by_contra hlt
    have hcomplete := h.complete q hL (by omega)
    rw [hhead] at hcomplete
    simp [Slot.Complete, hst] at hcomplete
  rcases h.free q hT hq with habs | ⟨rfl, htail, -, b, hspan⟩
  · rw [hhead, hst] at habs
    cases habs
  · rw [hhead] at hspan
    exact ⟨hq, hhead.symm, htail, b, hspan⟩

/-- A draining pop completes the partly written slot; the tail lags then. -/
theorem Window.promote (h : Window c L T off) (hst : (c.slots c.head).state = .part) :
    ∃ b, Window c.promote L (T + 1) (Function.update off (T + 1) b) ∧
      (c.slots c.head).Spans (off T) b ∧ TailOk c.promote L (T + 1) ∧
      (∀ R, Fulls c L R T → Fulls c.promote L R (T + 1)) := by
  obtain ⟨hlt, hhead, htail, b, hspan⟩ := h.head_part hst
  have hle := h.le
  have hw := h.append c.tail (c.fslots + 1) c.hOffset c.rDkPos hlt
    ((c.slots c.head).setState_complete .full CacheState.full_closed) hspan
  have heq := promote_of_part hst
  rw [hspan.offsetEnd] at heq
  rw [← hhead, ← heq] at hw
  refine ⟨b, hw, hspan, ?_, ?_⟩
  · have htail' : c.promote.tail = idx n T := by rw [heq, htail]
    by_cases hn : 2 ≤ n
    · exact Or.inr ⟨hn, by omega, by simpa using htail'⟩
    · -- a ring of one slot has no other place
      have hpos : 0 < n := Nat.pos_of_ne_zero (NeZero.ne n)
      left
      rw [htail', show T + 1 = T + n by omega, idx_add_self]
  · intro R hfulls
    refine hfulls.append (t := (c.slots c.head).setState .full CacheState.full_closed)
      rfl hlt ?_ ?_
    · rw [heq, hhead]
    · rw [heq]

/-- The stream that the ring stores is the same after a draining pop. -/
theorem RingOk.promote {σ : List UInt8} (h : RingOk c σ L T off) (ht : TailOk c L T) :
    ∃ T' off', RingOk c.promote σ L T' off' ∧ TailOk c.promote L T' ∧ Grows T off T' off' ∧
      ∀ R, Fulls c L R T → Fulls c.promote L R T' := by
  by_cases hst : (c.slots c.head).state = .part
  · rcases h.window.head_part hst with ⟨-, hhead, htail, -⟩
    rcases h.window.promote hst with ⟨b, hw, hspan, ht', hfulls⟩
    have heq := promote_of_part hst
    have havail : (c.slots c.tail).available := by
      rw [htail, ← hhead, Slot.available_iff]
      exact Or.inr hst
    have hdone : (c.promote.slots c.promote.tail).Complete := by
      rw [heq]
      simp only [htail, hhead, Function.update_self]
      exact Slot.setState_complete _ _ _
    refine ⟨T + 1, _, ⟨hw, ?_, ?_, ?_⟩, ht', .succ T off b, hfulls⟩
    · refine h.stores.update (i := c.head)
        (t := (c.slots c.head).setState .full CacheState.full_closed) (by rw [heq]) ?_
      exact h.stores c.head
    · rw [heq]
      exact h.length
    · -- the bytes of the tail slot count as those of a complete one
      rw [tailBytes_of_complete hdone, heq]
      show c.hOffset = (c.slots c.head).offsetEnd + 0
      rw [h.received, tailBytes_of_available havail, htail, ← hhead, h.window.high,
        hspan.offsetEnd, ← hspan.2.1, Nat.add_zero]
  · rw [promote_of_ne hst]
    exact ⟨T, off, h, ht, .rfl, fun _ hf => hf⟩

/-! ## Windows with a head -/

/-- The ring is a window, with the tail behind it and the head in it or right
behind it. After the only slot in use has been reused, the head stands one slot
further, until that slot is full. -/
structure Placed (c : Cache n) (L T : ℕ) (off : ℕ → ℕ) : Prop where
  window : Window c L T off
  tail : TailOk c L T
  head : (∃ R, L ≤ R ∧ R ≤ T ∧ c.head = idx n R) ∨ (2 ≤ n ∧ L = T ∧ c.head = idx n (T + 1))

/-- An offset is the lowest one of a window at its oldest slot only. -/
theorem Window.eq_low (h : Window c L T off) {q : ℕ} (hL : L ≤ q) (hT : q ≤ T)
    (hq : off q = off L) : q = L := by
  by_contra hne
  have hfirst := h.off_lt (Nat.le_refl L) (show L < T by omega)
  have := h.off_mono (show L ≤ L + 1 by omega) (show L + 1 ≤ q by omega) hT
  omega

namespace Placed

theorem of_new (memory : Fin n → ℕ → UInt8) (file : Option File) :
    Placed (Cache.new n memory file) 0 0 (fun _ => 0) :=
  ⟨.of_new memory file, Or.inl rfl, Or.inl ⟨0, Nat.le_refl _, Nat.le_refl _, rfl⟩⟩

/-- A window that is not empty has the head in it. -/
theorem head_of_lt (h : Placed c L T off) (hlt : L < T) :
    ∃ R, L ≤ R ∧ R ≤ T ∧ c.head = idx n R :=
  h.head.resolve_right fun habs => absurd habs.2.1 (Nat.ne_of_lt hlt)

theorem sameRing (h : Placed c L T off) (hr : SameRing c c') : Placed c' L T off := by
  refine ⟨h.window.sameRing hr, ?_, ?_⟩
  · unfold TailOk
    rw [hr.tail]
    exact h.tail
  · rw [hr.head]
    exact h.head

/-- State words have changed, and the head has moved within the window. -/
theorem restate (h : Placed c L T off) (hr : Restate c c') {m : ℕ} (hL : L ≤ m) (hT : m ≤ T)
    (hhead : c'.head = idx n m) : Placed c' L T off := by
  refine ⟨h.window.restate hr, ?_, Or.inl ⟨m, hL, hT, hhead⟩⟩
  obtain ⟨_, _, _, _, rfl⟩ := hr.frame
  exact h.tail

/-- State words have changed, and the head has not moved. -/
theorem keepHead (h : Placed c L T off) (hr : Restate c c') (hhead : c'.head = c.head) :
    Placed c' L T off := by
  refine ⟨h.window.restate hr, ?_, ?_⟩
  · obtain ⟨_, _, _, _, rfl⟩ := hr.frame
    exact h.tail
  · rw [hhead]
    exact h.head

/-- The tail slot is recycled; a head that stood at it is behind the window now. -/
theorem recycle (h : Placed c L T off) (ht : c.tail = idx n T) :
    ∃ L', Placed (c.recycle c.tail) L' T off := by
  by_cases hst : (c.slots c.tail).state = .recycle
  · obtain ⟨hlt, hT, -, -, hw⟩ := h.window.recycle_tail ht hst
    obtain ⟨R, hLR, hRT, hhead⟩ := h.head_of_lt hlt
    have hhead' : (c.recycle c.tail).head = idx n R := by
      simp only [Cache.recycle, hst, if_true]
      exact hhead
    refine ⟨L + 1, hw, Or.inl ((c.recycle_tail _).trans ht), Or.inl ?_⟩
    by_cases hR : L < R
    · exact ⟨R, hR, hRT, hhead'⟩
    · refine ⟨T, by omega, Nat.le_refl T, ?_⟩
      rw [hhead', show R = L by omega, hT, idx_add_self]
  · rw [recycle_of_ne hst]
    exact ⟨L, h⟩

/-- The only slot in use, which a lagging tail points to, is recycled. -/
theorem recycle_lagging (h : Placed c L T off) (hn : 2 ≤ n) (hT : T = L + 1)
    (ht : c.tail = idx n L) (hst : (c.slots c.tail).state = .recycle) :
    Placed (c.recycle c.tail) L L (fun _ => c.hRbOffset) := by
  obtain ⟨R, hLR, hRT, hhead⟩ := h.head_of_lt (by omega)
  have hhead' : (c.recycle c.tail).head = idx n R := by
    simp only [Cache.recycle, hst, if_true]
    exact hhead
  refine ⟨h.window.recycle_lagging hn hT ht hst, Or.inl ((c.recycle_tail _).trans ht), ?_⟩
  by_cases hR : R = L
  · exact Or.inl ⟨L, Nat.le_refl L, Nat.le_refl L, by rw [hhead', hR]⟩
  · -- the head had got past it
    exact Or.inr ⟨hn, rfl, by rw [hhead', show R = L + 1 by omega]⟩

theorem fill (h : Placed c L T off) (ht : c.tail = idx n T) (data : Block UInt8) {k : ℕ}
    (ha : (c.slots c.tail).available) (hk : k ≤ (c.slots c.tail).room) (hpos : 0 < k) :
    ∃ T' off', Placed (c.fill data k ha hk) L T' off' ∧
      (c.fill data k ha hk).tail = idx n T' := by
  obtain ⟨T', off', hw, htail, hgrows, -, -⟩ := h.window.fill ht data ha hk hpos
  refine ⟨T', off', ⟨hw, Or.inl htail, ?_⟩, htail⟩
  have hle := hgrows.1
  obtain ⟨_, _, _, _, _, _, heq⟩ := c.fill_frame data k ha hk
  rw [heq]
  rcases h.head with ⟨R, hLR, hRT, hhead⟩ | ⟨hn, hLT, hhead⟩
  · exact Or.inl ⟨R, hLR, hRT.trans hgrows.1, hhead⟩
  · -- a slot that is full now brings the window up to the head
    rcases Nat.eq_or_lt_of_le hle with rfl | hlt
    · exact Or.inr ⟨hn, hLT, hhead⟩
    · exact Or.inl ⟨T + 1, by omega, hlt, hhead⟩

theorem read (h : Placed c L T off) (ht : c.tail = idx n T) {k : ℕ} {drain : Bool}
    (hread : c.diskRead c.tail c.hRbOffset drain p k = (c', true)) :
    Placed c'.advance L (T + 1) (Function.update off (T + 1) (c.hRbOffset + c.readSize)) ∧
      c'.advance.tail = idx n (T + 1) := by
  have hle := h.window.le
  obtain ⟨hw, htail, -, -⟩ := h.window.read ht hread
  refine ⟨⟨hw, Or.inl htail, Or.inl ?_⟩, htail⟩
  obtain ⟨f, -, -, -, -, -, rfl⟩ := diskRead_true hread
  rcases h.head with ⟨R, hLR, hRT, hhead⟩ | ⟨-, -, hhead⟩
  · exact ⟨R, hLR, by omega, hhead⟩
  · exact ⟨T + 1, by omega, Nat.le_refl _, hhead⟩

/-- A failed read changes at most the memory of an open slot. -/
theorem read_fail (h : Placed c L T off) {i : Fin n} {o k : ℕ} {drain : Bool}
    (hread : c.diskRead i o drain p k = (c', false)) :
    Placed c' L T off ∧ c'.tail = c.tail := by
  rcases diskRead_false hread with rfl | ⟨havail, bytes, m, rfl⟩
  · exact ⟨h, rfl⟩
  · have hwindow := h.window.congr_slots (c.setSlot_smear i bytes m) rfl rfl rfl
    exact ⟨⟨hwindow, h.tail, h.head⟩, rfl⟩

/-- What the tail slot can be when a step looks for room in it, and no slot is torn out of
the ring: the tail stands behind the window, or does so when its slot has been recycled,
or its slot is in use. -/
theorem tail_cases (h : Placed c L T off) (htorn : ¬c.Torn) :
    c.tail = idx n T ∨ (∃ L' off', Placed (c.recycle c.tail) L' L' off' ∧ c.tail = idx n L') ∨
      c.Closed c.tail := by
  by_cases hd : c.Drained
  case neg =>
    rcases h.tail.of_not_drained h.window hd with ht | hclosed
    · exact Or.inl ht
    · exact Or.inr (Or.inr hclosed)
  rcases h.tail with ht | ⟨hn, hLT, ht⟩
  · exact Or.inl ht
  · -- the slot of the lagging tail is the oldest one
    right
    left
    have hspan := h.window.spans (T - 1) (by omega) (by omega)
    have hlow : (c.slots c.tail).offset = some c.lRbOffset := by
      by_contra hne
      exact htorn ⟨hd, hne⟩
    rw [← ht] at hspan
    rw [hspan.1, Option.some.injEq, h.window.low] at hlow
    have hTL := h.window.eq_low (by omega) (by omega) hlow
    rw [hTL] at ht
    exact ⟨L, _, h.recycle_lagging hn (by omega) ht hd.2.1, ht⟩

/-- A reload that finds the tail behind the window. -/
theorem reload_of_tail (h : Placed c L T off) (ht : c.tail = idx n T) (drain : Bool)
    (p : Platform) : ∃ L' T' off', Placed (c.reload drain p) L' T' off' := by
  obtain ⟨L', T', off', h', -⟩ : ∃ L' T' off', Placed (c.reload drain p) L' T' off' ∧
      (c.reload drain p).tail = idx n T' := by
    refine reload_induct (P := fun c₁ => ∃ L' T' off', Placed c₁ L' T' off' ∧
      c₁.tail = idx n T') ?_ ?_ ?_ ⟨L, T, off, h, ht⟩
    · rintro c₁ ⟨L', T', off', h₁, ht₁⟩
      obtain ⟨L'', h₂⟩ := h₁.recycle ht₁
      exact ⟨L'', T', off', h₂, (c₁.recycle_tail _).trans ht₁⟩
    · rintro c₁ c₂ k ⟨L', T', off', h₁, ht₁⟩ - hread
      exact ⟨L', T' + 1, _, h₁.read ht₁ hread⟩
    · rintro c₁ c₂ k ⟨L', T', off', h₁, ht₁⟩ hread
      obtain ⟨h₂, ht₂⟩ := h₁.read_fail hread
      exact ⟨L', T', off', h₂, ht₂.trans ht₁⟩
  exact ⟨L', T', off', h'⟩

/-- A reload that tears no slot out of the ring. -/
theorem reload (h : Placed c L T off) (htorn : ¬c.Torn) (drain : Bool) (p : Platform) :
    ∃ L' T' off', Placed (c.reload drain p) L' T' off' := by
  rcases h.tail_cases htorn with ht | ⟨L', off', h', ht'⟩ | hclosed
  · exact h.reload_of_tail ht drain p
  · rcases c.reload_recycle drain p with heq | heq
    · rw [heq]
      exact ⟨L, T, off, h⟩
    · rw [← heq]
      exact h'.reload_of_tail ((c.recycle_tail _).trans ht') drain p
  · rw [reload_closed hclosed]
    exact ⟨L, T, off, h⟩

theorem promote (h : Placed c L T off) : ∃ T' off', Placed c.promote L T' off' := by
  by_cases hst : (c.slots c.head).state = .part
  · obtain ⟨b, hw, -, htail, -⟩ := h.window.promote hst
    have hle := h.window.le
    obtain ⟨R, hLR, hRT, hhead⟩ : ∃ R, L ≤ R ∧ R ≤ T ∧ c.head = idx n R :=
      ⟨T, hle, Nat.le_refl T, (h.window.head_part hst).2.1⟩
    refine ⟨T + 1, _, hw, htail, Or.inl ⟨R, hLR, by omega, ?_⟩⟩
    rw [promote_of_part hst]
    exact hhead
  · rw [promote_of_ne hst]
    exact ⟨T, off, h⟩

theorem take (h : Placed c L T off) (hfull : (c.slots c.head).state = .full) :
    Placed c.take L T off := by
  obtain ⟨q, hL, hT, hhead⟩ := h.window.exists_pos (Slot.Complete.of_full hfull)
  refine h.restate (take_restate hfull) (show L ≤ q + 1 by omega) hT ?_
  show c.head + 1 = _
  rw [← hhead, idx_add_one]

/-- The loop of a push that finds the tail behind the window. -/
theorem pushLoop_of_tail (h : Placed c L T off) (ht : c.tail = idx n T) (data : Block UInt8)
    (p : Platform) : ∃ L' T' off', Placed (Cache.pushLoop p data.size c data) L' T' off' := by
  apply pushLoop_rule
    (P := fun c₁ => ∃ L' T' off', Placed c₁ L' T' off' ∧ c₁.tail = idx n T')
    (Q := fun c₁ => ∃ L' T' off', Placed c₁ L' T' off') ?_ ?_ ?_ ?_ ⟨L, T, off, h, ht⟩
  · rintro c₁ ⟨L', T', off', h₁, ht₁⟩
    obtain ⟨L'', h₂⟩ := h₁.recycle ht₁
    exact ⟨L'', T', off', h₂, (c₁.recycle_tail _).trans ht₁⟩
  · rintro c₁ d k ha hk ⟨L', T', off', h₁, ht₁⟩ hpos
    obtain ⟨T'', off'', h₂, ht₂⟩ := h₁.fill ht₁ d ha hk hpos
    exact ⟨L', T'', off'', h₂, ht₂⟩
  · rintro c₁ ⟨L', T', off', h₁, -⟩
    exact ⟨L', T', off', h₁⟩
  · rintro c₁ d ⟨L', T', off', h₁, -⟩
    exact ⟨L', T', off', (h₁.sameRing (c₁.startRecording_sameRing p)).sameRing
      (diskWrite_sameRing _ _ _)⟩

/-- The loop of a push that tears no slot out of the ring. -/
theorem pushLoop (h : Placed c L T off) (htorn : ¬c.Torn) {data : Block UInt8}
    (hpos : 0 < data.size) (p : Platform) :
    ∃ L' T' off', Placed (Cache.pushLoop p data.size c data) L' T' off' := by
  rcases h.tail_cases htorn with ht | ⟨L', off', h', ht'⟩ | hclosed
  · exact h.pushLoop_of_tail ht data p
  · rw [← pushLoop_recycle data p hpos]
    exact h'.pushLoop_of_tail ((c.recycle_tail _).trans ht') data p
  · exact ⟨L, T, off, h.sameRing (pushLoop_closed_sameRing hclosed data p)⟩

end Placed

end Cache

end TimeShift
