import TimeShift.Cache.Ring

/-!
# The walks of a seek

A seek within the ring walks from the head slot by slot, forward or backward,
until it comes to the slot that contains the offset. `Window.seekRing_walk` is
the rule for it: over a window without popped slots the walk stops at that slot,
and what its single moves keep holds there. It has two uses:

* `Window.seekRing_lands`: the slot that contains the offset is at the head and
  full, whatever state the other slots were in;
* `Fulls.seekRing`: the slots from there on are the full ones, if the walk did not
  start at a slot that had already been given back.
-/

set_option linter.unusedSectionVars false

namespace TimeShift

open Bytes Cyclic

namespace Cache

variable {n : ℕ} [NeZero n] {c c₁ c' : Cache n} {L R T m o : ℕ} {off lo hi : ℕ → ℕ}

/-- No slot is in the hands of downstream. -/
def NonePopped (c : Cache n) : Prop := ∀ i, (c.slots i).state ≠ .pop

/-! ## Rolling one slot -/

theorem rollback_of_full {i : Fin n} (h : (c.slots i).state = .full) :
    c.rollback i = (c, true) := by
  simp [rollback, h]

theorem rollback_of_recycle {i : Fin n} (h : (c.slots i).state = .recycle) :
    c.rollback i = ({ c with
      slots := Function.update c.slots i ((c.slots i).setState .full CacheState.full_closed)
      fslots := c.fslots + 1 }, true) := by
  simp [rollback, h]

theorem rollback_of_ne {i : Fin n} (h : (c.slots i).state ≠ .recycle) :
    (c.rollback i).1 = c := by
  simp [rollback, h]

/-- A complete slot that is not popped can be rolled back. -/
theorem rollback_true {i : Fin n} (hc : (c.slots i).Complete) (hp : (c.slots i).state ≠ .pop) :
    (c.rollback i).2 = true ∧ ((c.rollback i).1.slots i).state = .full := by
  rcases hc with hst | hst | hst
  · simp [rollback_of_full hst, hst]
  · exact absurd hst hp
  · simp [rollback_of_recycle hst]

theorem rollforward_of_full {i : Fin n} (h : (c.slots i).state = .full) :
    c.rollforward i = { c with
      slots := Function.update c.slots i ((c.slots i).setState .recycle CacheState.recycle_closed)
      fslots := c.fslots - 1 } := by
  simp [rollforward, h]

theorem rollforward_of_ne {i : Fin n} (h : (c.slots i).state ≠ .full) :
    c.rollforward i = c := by
  simp [rollforward, h]

theorem NonePopped.update (h : NonePopped c) {i : Fin n} {t : Slot}
    (hslots : c'.slots = Function.update c.slots i t) (ht : t.state ≠ .pop) : NonePopped c' := by
  rw [NonePopped, hslots, Function.forall_update_iff c.slots fun _ s => s.state ≠ .pop]
  exact ⟨ht, fun j _ => h j⟩

theorem NonePopped.rollback (h : NonePopped c) (i : Fin n) : NonePopped (c.rollback i).1 := by
  by_cases hst : (c.slots i).state = .recycle
  · rw [rollback_of_recycle hst]
    exact h.update (i := i) rfl (by simp)
  · rw [rollback_of_ne hst]
    exact h

theorem NonePopped.rollforward (h : NonePopped c) (i : Fin n) : NonePopped (c.rollforward i) := by
  by_cases hst : (c.slots i).state = .full
  · rw [rollforward_of_full hst]
    exact h.update (i := i) rfl (by simp)
  · rw [rollforward_of_ne hst]
    exact h

/-! ## The walks -/

/-- The walk into the future stops at the slot of position `m`, which contains
the offset. -/
theorem Gapped.seekForward_walk (h : Gapped c L T lo hi) {P : ℕ → Cache n → Prop}
    (hm : m < T) (ho : lo m ≤ o ∧ o < hi m) (hrest : ∀ q c₁, P q c₁ → Restate c c₁)
    {r : ℕ} (hstep : ∀ q c₁, r ≤ q → q < m → P q c₁ → P (q + 1) (c₁.rollforward (idx n q)))
    {k q : ℕ} (hL : L ≤ q) (hr : r ≤ q) (hqm : q < m) (hk : m ≤ q + k) (hP : P q c₁) :
    ∃ c₂, seekForward o k c₁ (idx n q) = some (c₂, idx n m) ∧ P m c₂ := by
  induction k generalizing q c₁ with
  | zero => omega
  | succ k ih =>
      have hnext := hstep q c₁ hr hqm hP
      have hin := h.contains_restate (hrest _ _ hnext) (o := o) (show L ≤ q + 1 by omega)
        (show q + 1 < T by omega)
      rw [seekForward, idx_add_one]
      by_cases hlast : q + 1 = m
      · subst hlast
        rw [if_pos (hin.mpr ho)]
        exact ⟨_, rfl, hnext⟩
      · have hout : ¬((c₁.rollforward (idx n q)).slots (idx n (q + 1))).contains o = true := by
          intro hcontains
          exact hlast (h.slot_unique (by omega) (by omega) (by omega) hm (hin.mp hcontains) ho)
        rw [if_neg hout]
        exact ih (by omega) (by omega) (by omega) (by omega) hnext

/-- The walk into the past stops at the slot of position `m`, which contains
the offset. -/
theorem Gapped.seekBackward_walk (h : Gapped c L T lo hi) {P : ℕ → Cache n → Prop}
    (hm : L ≤ m) (ho : lo m ≤ o ∧ o < hi m) (hrest : ∀ q c₁, P q c₁ → Restate c c₁)
    (hpop : ∀ q c₁, P q c₁ → NonePopped c₁)
    {r : ℕ} (hstep : ∀ q c₁, m ≤ q → q < r → P (q + 1) c₁ → P q (c₁.rollback (idx n q)).1)
    {k q : ℕ} (hqm : m < q) (hr : q ≤ r) (hT : q ≤ T) (hk : q ≤ m + k) (hP : P q c₁) :
    ∃ c₂, seekBackward o k c₁ (idx n q) = some (c₂, idx n m) ∧ P m c₂ ∧
      (c₂.slots (idx n m)).state = .full := by
  induction k generalizing q c₁ with
  | zero => omega
  | succ k ih =>
      obtain ⟨q, rfl⟩ : ∃ q', q = q' + 1 := ⟨q - 1, by omega⟩
      have hprev := hstep q c₁ (by omega) (by omega) hP
      have hcomplete := (h.restate (hrest _ _ hP)).complete q (by omega) (by omega)
      obtain ⟨hmoved, hfull⟩ := rollback_true hcomplete (hpop _ _ hP _)
      have hin := h.contains_restate (hrest _ _ hprev) (o := o) (show L ≤ q by omega)
        (show q < T by omega)
      rw [seekBackward, idx_succ_sub_one]
      generalize c₁.rollback (idx n q) = res at hprev hmoved hfull hin ⊢
      obtain ⟨c₂, moved⟩ := res
      cases hmoved
      dsimp only at hprev hfull hin ⊢
      by_cases hlast : q = m
      · subst hlast
        rw [if_pos (hin.mpr ho)]
        exact ⟨c₂, rfl, hprev, hfull⟩
      · have hout : ¬(c₂.slots (idx n q)).contains o = true := by
          intro hcontains
          exact hlast (h.slot_unique (by omega) (by omega) hm (by omega) (hin.mp hcontains) ho)
        rw [if_neg hout]
        exact ih (by omega) (by omega) (by omega) (by omega) hprev

/-- The rule for a seek within the ring. The head is at position `r` of the
window or right behind it, position `m` contains the offset, and `P q` is what
the walk keeps while it is at position `q`. The walk stops at `m`; the slot there
is rolled back, and the head put to it. -/
theorem Gapped.seekRing_walk (h : Gapped c L T lo hi) {P : ℕ → Cache n → Prop} {r : ℕ}
    (hhead : c.head = idx n r) (hL : L ≤ r) (hT : r < T ∨ (r = T ∧ T < L + n))
    (hLm : L ≤ m) (hmT : m < T) (ho : lo m ≤ o ∧ o < hi m)
    (hrest : ∀ q c₁, P q c₁ → Restate c c₁) (hpop : ∀ q c₁, P q c₁ → NonePopped c₁)
    (hstart : P r c) (hstart' : m < r → P r (c.rollback (idx n r)).1)
    (hforward : ∀ q c₁, r ≤ q → q < m → P q c₁ → P (q + 1) (c₁.rollforward (idx n q)))
    (hback : ∀ q c₁, m ≤ q → q < r → P (q + 1) c₁ → P q (c₁.rollback (idx n q)).1) :
    ∃ c₁, P m c₁ ∧ c.seekRing o = some { (c₁.rollback (idx n m)).1 with head := idx n m } := by
  have hfits := h.fits
  -- the walk backward, from the head rolled back
  have hpast : m < r → (c.slots c.head).offset.le o = false →
      ∃ c₁, P m c₁ ∧
        c.seekRing o = some { (c₁.rollback (idx n m)).1 with head := idx n m } := by
    intro hmr hhd
    obtain ⟨c₂, hwalk, hP, hfull⟩ := h.seekBackward_walk hLm ho hrest hpop hback (k := n) hmr
      (Nat.le_refl r) (by omega) (by omega) (hstart' hmr)
    refine ⟨c₂, hP, ?_⟩
    have hsame : (c₂.rollback (idx n m)).1 = c₂ := by rw [rollback_of_full hfull]
    rw [seekRing, hhd, hsame]
    simp only [Bool.false_eq_true, if_false, hhead, hwalk]
  rcases hT with hT | ⟨rfl, hlt⟩
  · have hspan := h.spans r hL hT
    rw [← hhead] at hspan
    rcases Nat.lt_trichotomy m r with hmr | rfl | hrm
    · have := h.ordered m r hLm hmr hT
      exact hpast hmr (by simp only [hspan.1, Offset.le_some, decide_eq_false_iff_not]; omega)
    · -- the offset is in the head slot
      have hhd : (c.slots c.head).offset.le o = true := by simp [hspan.1, ho.1]
      refine ⟨c, hstart, ?_⟩
      have hsame : (c.rollback c.head).1 = { (c.rollback (idx n m)).1 with head := idx n m } := by
        rw [hhead]
        by_cases hst : (c.slots (idx n m)).state = .recycle
        · rw [rollback_of_recycle hst, ← hhead]
        · rw [rollback_of_ne hst, ← hhead]
      rw [seekRing, if_pos hhd, hspan.offsetEnd, if_pos ho.2, hsame]
    · -- the walk forward
      have hpassed := h.ordered r m hL hrm hmT
      have hhd : (c.slots c.head).offset.le o = true := by
        have := hspan.2.2
        simp only [hspan.1, Offset.le_some, decide_eq_true_eq]
        omega
      obtain ⟨c₂, hwalk, hP⟩ := h.seekForward_walk hmT ho hrest hforward (k := n) hL
        (Nat.le_refl r) hrm (by omega) hstart
      refine ⟨c₂, hP, ?_⟩
      rw [seekRing, if_pos hhd, hspan.offsetEnd, if_neg (by omega)]
      simp only [hhead, hwalk]
  · -- the head slot is empty, or partly written and ahead of the offset
    refine hpast hmT ?_
    rw [hhead]
    rcases h.free r (Nat.le_refl r) hlt with hst | ⟨-, -, -, b, hspan⟩
    · rw [((c.slots (idx n r)).empty_clean hst).1]
      rfl
    · have := h.below m hLm hmT
      simp only [hspan.1, Offset.le_some, decide_eq_false_iff_not]
      omega

/-- The rule over a window without gaps: any offset of it is found. -/
theorem Window.seekRing_walk (h : Window c L T off) {P : ℕ → Cache n → Prop} {r : ℕ}
    (hhead : c.head = idx n r) (hL : L ≤ r) (hT : r < T ∨ (r = T ∧ T < L + n))
    (hlow : off L ≤ o) (hhigh : o < off T)
    (hrest : ∀ q c₁, P q c₁ → Restate c c₁) (hpop : ∀ q c₁, P q c₁ → NonePopped c₁)
    (hstart : P r c) (hstart' : o < off r → P r (c.rollback (idx n r)).1)
    (hforward : ∀ q c₁, r ≤ q → q + 1 < T → P q c₁ → P (q + 1) (c₁.rollforward (idx n q)))
    (hback : ∀ q c₁, L ≤ q → q < r → P (q + 1) c₁ → P q (c₁.rollback (idx n q)).1) :
    ∃ m c₁, L ≤ m ∧ m < T ∧ off m ≤ o ∧ o < off (m + 1) ∧ P m c₁ ∧
      c.seekRing o = some { (c₁.rollback (idx n m)).1 with head := idx n m } := by
  obtain ⟨m, hLm, hmT, ho⟩ := exists_slot h.le hlow hhigh
  obtain ⟨c₁, hP, hseek⟩ := h.gapped.seekRing_walk hhead hL hT hLm hmT ho hrest hpop hstart
    (fun hmr => hstart' (by
      have := h.off_mono (show L ≤ m + 1 by omega) hmr (by omega)
      omega))
    (fun q c₁ hrq hqm => hforward q c₁ hrq (by omega))
    (fun q c₁ hmq hqr => hback q c₁ (by omega) hqr)
  exact ⟨m, c₁, hLm, hmT, ho.1, ho.2, hP, hseek⟩

/-! ## Landing on the requested byte -/

/-- A seek puts the slot that contains the offset at the head, full. -/
theorem Gapped.seekRing_lands (h : Gapped c L T lo hi) (hpop : NonePopped c)
    (hhead : c.head = idx n R) (hL : L ≤ R) (hT : R ≤ T) (hLm : L ≤ m) (hmT : m < T)
    (ho : lo m ≤ o ∧ o < hi m) :
    ∃ c', c.seekRing o = some c' ∧ Restate c c' ∧ NonePopped c' ∧ c'.head = idx n m ∧
      (c'.slots (idx n m)).state = .full := by
  have hfits := h.fits
  have hle := h.le
  -- a head that is a whole turn ahead stands at the oldest slot
  obtain ⟨r, hr, hrL, hrT⟩ : ∃ r, c.head = idx n r ∧ L ≤ r ∧ (r < T ∨ (r = T ∧ T < L + n)) := by
    by_cases hturn : R = L + n
    · refine ⟨L, ?_, Nat.le_refl L, Or.inl (by omega)⟩
      rw [hhead, hturn, idx_add_self]
    · exact ⟨R, hhead, hL, by omega⟩
  obtain ⟨c₁, ⟨hrest, hnone⟩, hseek⟩ := h.seekRing_walk
    (P := fun _ c₁ => Restate c c₁ ∧ NonePopped c₁) hr hrL hrT hLm hmT ho
    (fun _ _ hP => hP.1) (fun _ _ hP => hP.2) ⟨.rfl, hpop⟩
    (fun _ => ⟨c.rollback_restate _, hpop.rollback _⟩)
    (fun q c₁ _ _ hP => ⟨hP.1.trans (c₁.rollforward_restate _), hP.2.rollforward _⟩)
    (fun q c₁ _ _ hP => ⟨hP.1.trans (c₁.rollback_restate _), hP.2.rollback _⟩)
  have hcomplete := (h.restate hrest).complete m hLm hmT
  refine ⟨_, hseek, ?_, hnone.rollback (idx n m), rfl, (rollback_true hcomplete (hnone _)).2⟩
  exact (hrest.trans (c₁.rollback_restate _)).trans (setHead_restate _ _)

/-- A seek to an offset of the window puts the slot that contains it at the
head, full. -/
theorem Window.seekRing_lands (h : Window c L T off) (hpop : NonePopped c)
    (hhead : c.head = idx n R) (hL : L ≤ R) (hT : R ≤ T) (hlow : off L ≤ o) (hhigh : o < off T) :
    ∃ m c', L ≤ m ∧ m < T ∧ off m ≤ o ∧ o < off (m + 1) ∧ c.seekRing o = some c' ∧
      Restate c c' ∧ NonePopped c' ∧ c'.head = idx n m ∧ (c'.slots (idx n m)).state = .full := by
  obtain ⟨m, hLm, hmT, ho⟩ := exists_slot h.le hlow hhigh
  obtain ⟨c', hseek, hrest⟩ := h.gapped.seekRing_lands hpop hhead hL hT hLm hmT ho
  exact ⟨m, c', hLm, hmT, ho.1, ho.2, hseek, hrest⟩

/-- Wherever a seek within the ring stops, the head is in the window or right
behind it. -/
theorem Gapped.seekBackward_head (h : Gapped c L T lo hi) (hL : L ≤ R) (hT : R ≤ T)
    (hrest : Restate c c₁) (hnone : NonePopped c₁) {k : ℕ} {i : Fin n}
    (hseek : seekBackward o k c₁ (idx n R) = some (c', i)) :
    ∃ r, L ≤ r ∧ r ≤ T ∧ i = idx n r := by
  induction k generalizing c₁ R with
  | zero => cases hseek
  | succ k ih =>
      have hfits := h.fits
      -- the position before `R`, counting back from the end of a full ring
      obtain ⟨r, hr, hR⟩ : ∃ r, idx n (r + 1) = idx n R ∧ L ≤ r ∧ r < L + n := by
        by_cases hlow : L < R
        · exact ⟨R - 1, by rw [show R - 1 + 1 = R by omega], by omega, by omega⟩
        · have hn : 0 < n := Nat.pos_of_ne_zero (NeZero.ne n)
          refine ⟨L + n - 1, ?_, by omega, by omega⟩
          rw [show L + n - 1 + 1 = L + n by omega, idx_add_self, show R = L by omega]
      rw [seekBackward, ← hr, idx_succ_sub_one] at hseek
      by_cases hrT : r < T
      · have hcomplete := (h.restate hrest).complete r hR.1 hrT
        have hmoved := (rollback_true hcomplete (hnone _)).1
        have hrest' := hrest.trans (c₁.rollback_restate (idx n r))
        have hnone' := hnone.rollback (idx n r)
        generalize c₁.rollback (idx n r) = res at hmoved hrest' hnone' hseek
        obtain ⟨c₂, moved⟩ := res
        cases hmoved
        dsimp only at hrest' hnone' hseek
        split at hseek
        · cases hseek
          exact ⟨r, hR.1, Nat.le_of_lt hrT, rfl⟩
        · exact ih hR.1 (Nat.le_of_lt hrT) hrest' hnone' hseek
      · -- a slot that is not complete ends the walk
        have hopen := (h.restate hrest).free_not_complete (Nat.le_of_not_lt hrT) hR.2
        have hstop : c₁.rollback (idx n r) = (c₁, false) := by
          have hne : (c₁.slots (idx n r)).state ≠ .recycle :=
            fun hst => hopen (Slot.Complete.of_recycle hst)
          have hne' : (c₁.slots (idx n r)).state ≠ .full :=
            fun hst => hopen (Slot.Complete.of_full hst)
          simp [rollback, hne, hne']
        rw [hstop] at hseek
        cases hseek
        rw [idx_add_one]
        exact ⟨R, hL, hT, hr⟩

theorem Gapped.seekRing_head (h : Gapped c L T lo hi) (hpop : NonePopped c)
    (hhead : c.head = idx n R) (hL : L ≤ R) (hT : R ≤ T) (ho : o < c.hRbOffset)
    (hseek : c.seekRing o = some c') : ∃ r, L ≤ r ∧ r ≤ T ∧ c'.head = idx n r := by
  rw [seekRing] at hseek
  split at hseek
  · split at hseek
    · cases hseek
      refine ⟨R, hL, hT, ?_⟩
      rw [← hhead]
      by_cases hst : (c.slots c.head).state = .recycle
      · rw [rollback_of_recycle hst]
      · rw [rollback_of_ne hst]
    · -- the walk forward ends at a slot that contains the offset
      split at hseek
      · cases hseek
      · rename_i c₂ seeker hwalk
        cases hseek
        have hrest : Restate c c₂ := seekForward_induct (P := Restate c)
          (fun c₁ i h₁ => h₁.trans (c₁.rollforward_restate i)) hwalk .rfl
        have hin := seekForward_contains hwalk
        have hhigh : o < c₂.hRbOffset := by
          rcases hrest.frame with ⟨_, _, _, _, heq⟩
          rw [heq]
          exact ho
        rcases (h.restate hrest).contains_pos hin hhigh with ⟨q, hLq, hqT, hq⟩
        exact ⟨q, hLq, Nat.le_of_lt hqT, hq.symm⟩
  · split at hseek
    · cases hseek
    · rename_i c₂ seeker hwalk
      cases hseek
      rw [hhead] at hwalk
      exact h.seekBackward_head hL hT (c.rollback_restate _) (hpop.rollback _) hwalk

/-! ## Keeping the full slots in order -/

/-- The slot at the reader's position is given back unread. -/
theorem Fulls.rollforward (h : Fulls c L R T) (hR : R < T) (hfits : T ≤ L + n) :
    Fulls (c.rollforward (idx n R)) L (R + 1) T := by
  have hfull := (h.full R h.lower hR).mpr (Nat.le_refl R)
  rw [rollforward_of_full hfull]
  exact h.leave hfits hR
    (t := (c.slots (idx n R)).setState .recycle CacheState.recycle_closed) (by simp) rfl rfl

/-- The slot before the reader's position is made full again. -/
theorem Fulls.rollback (h : Fulls c L (R + 1) T) (hL : L ≤ R) (hfits : T ≤ L + n)
    (hc : (c.slots (idx n R)).Complete) (hp : (c.slots (idx n R)).state ≠ .pop) :
    Fulls (c.rollback (idx n R)).1 L R T := by
  have hupper := h.upper
  have hst : (c.slots (idx n R)).state = .recycle := by
    rcases hc with hst | hst | hst
    · have := (h.full R hL (by omega)).mp hst
      omega
    · exact absurd hst hp
    · exact hst
  rw [rollback_of_recycle hst]
  refine ⟨hL, by omega, ?_, ?_⟩
  · show c.fslots + 1 = _
    rw [h.count]
    push_cast
    omega
  · intro q hLq hT
    dsimp only
    by_cases hq : q = R
    · subst hq
      rw [Function.update_self, Slot.setState_state]
      exact iff_of_true (Eq.refl _) (Nat.le_refl q)
    · rw [update_idx_ne _ _ hq (by omega) (by omega), h.full q hLq hT]
      omega

/-- A seek within the ring leaves exactly the slots from the one that contains
the offset on full. The walk must not start at a slot that was given back, as
it does when the ring is full of such slots, unless it ends at the newest slot. -/
theorem Fulls.seekRing (h : Fulls c L R T) (hw : Window c L T off) (hpop : NonePopped c)
    (hhead : c.head = idx n R) (hlow : off L ≤ o) (hhigh : o < off T)
    (hcond : (c.slots c.head).state ≠ .recycle ∨ off (T - 1) ≤ o) :
    ∃ m c', L ≤ m ∧ m < T ∧ off m ≤ o ∧ o < off (m + 1) ∧ c.seekRing o = some c' ∧
      Fulls c' L m T ∧ c'.head = idx n m := by
  have hfits := hw.fits
  have hlower := h.lower
  have hupper := h.upper
  have hn : 0 < n := Nat.pos_of_ne_zero (NeZero.ne n)
  by_cases hturn : R = L + n
  · -- the reader has caught up in a full ring: the head slot is the oldest one
    have hT : R = T := by omega
    subst hT
    have hL : c.head = idx n L := by rw [hhead, hturn, idx_add_self]
    have hLR : L < R := by omega
    have hnew : off (R - 1) ≤ o := by
      rcases hcond with hst | hnew
      · exfalso
        rw [hL] at hst
        rcases hw.complete L (Nat.le_refl L) hLR with hc | hc | hc
        · have := (h.full L (Nat.le_refl L) hLR).mp hc
          omega
        · exact hpop _ hc
        · exact hst hc
      · exact hnew
    obtain ⟨m, c₁, hLm, hmT, hm, hm', ⟨hrest, hnone, hfulls⟩, hseek⟩ := hw.seekRing_walk
      (P := fun _ c₁ => Restate c c₁ ∧ NonePopped c₁ ∧ Fulls c₁ L R R) hL (Nat.le_refl L)
      (Or.inl hLR) hlow hhigh (fun _ _ hP => hP.1) (fun _ _ hP => hP.2.1) ⟨.rfl, hpop, h⟩
      (fun habs => by omega)
      (fun q c₁ hLq hqR hP => by
        -- no slot on the way is full
        have hne : (c₁.slots (idx n q)).state ≠ .full := by
          intro hst
          have := (hP.2.2.full q hLq (by omega)).mp hst
          omega
        rw [rollforward_of_ne hne]
        exact hP)
      (fun q c₁ hLq hqL _ => by omega)
    have hlast : m + 1 = R := by
      by_contra hne
      have := hw.off_mono (show L ≤ m + 1 by omega) (show m + 1 ≤ R - 1 by omega) (by omega)
      omega
    subst hlast
    have hcomplete := (hw.restate hrest).complete m hLm hmT
    have hback := hfulls.rollback hLm hfits hcomplete (hnone _)
    exact ⟨m, _, hLm, hmT, hm, hm', hseek, hback.of_slots rfl rfl, rfl⟩
  · -- the walk starts at the reader's position
    have hstay : ∀ {q c₁}, L ≤ q → q < T → Fulls c₁ L q T →
        (c₁.rollback (idx n q)).1 = c₁ := by
      intro q c₁ hLq hqT hf
      rw [rollback_of_full ((hf.full q hLq hqT).mpr (Nat.le_refl q))]
    obtain ⟨m, c₁, hLm, hmT, hm, hm', ⟨hrest, hnone, hfulls⟩, hseek⟩ := hw.seekRing_walk
      (P := fun q c₁ => Restate c c₁ ∧ NonePopped c₁ ∧ Fulls c₁ L q T) hhead hlower
      (by omega) hlow hhigh (fun _ _ hP => hP.1) (fun _ _ hP => hP.2.1) ⟨.rfl, hpop, h⟩
      (fun _ => by
        rcases Nat.lt_or_ge R T with hlt | hge
        · rw [hstay hlower hlt h]
          exact ⟨.rfl, hpop, h⟩
        · have hopen := hw.free_not_complete hge (by omega)
          rw [rollback_of_ne (fun hst => hopen (Slot.Complete.of_recycle hst))]
          exact ⟨.rfl, hpop, h⟩)
      (fun q c₁ hRq hqT hP => ⟨hP.1.trans (c₁.rollforward_restate _), hP.2.1.rollforward _,
        hP.2.2.rollforward (by omega) hfits⟩)
      (fun q c₁ hLq hqR hP => ⟨hP.1.trans (c₁.rollback_restate _), hP.2.1.rollback _,
        hP.2.2.rollback hLq hfits ((hw.restate hP.1).complete q hLq (by omega)) (hP.2.1 _)⟩)
    rw [hstay hLm hmT hfulls] at hseek
    exact ⟨m, _, hLm, hmT, hm, hm', hseek, hfulls.of_slots rfl rfl, rfl⟩

end Cache

end TimeShift
