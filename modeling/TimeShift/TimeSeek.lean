import TimeShift.Cache.Settled
import TimeShift.Seeker

/-!
# Seeks to a time

The seeker looks the time up in the index, the cache seeks to the byte offset it
finds, and the seeker converts the offset of the first buffer that comes back into
the start of the segment. The cache moves the reader to the start of a slot, so
the second lookup is made for an earlier offset than the first one found. It
yields a time when an association is at or before the start of that slot, or the
slot is the first one of the stream; then the time is at most the requested one.
-/

namespace TimeShift

open Bytes Machine Cache

namespace Cache

variable {n : ℕ}

/-- A complete slot of the ring holds the offset, within the limits of the ring. -/
def Retains (c : Cache n) (o : ℕ) : Prop :=
  c.lRbOffset ≤ o ∧ o < c.hRbOffset ∧ ∃ i, (c.slots i).Complete ∧ (c.slots i).contains o = true

end Cache

/-- The segment that `gst_flutsbase_pop` sends before a buffer, after a seek. -/
def Segment.ofBuffer {n : ℕ} (b : Buffer n) : Segment where
  reset := true
  format := .bytes
  base := 0
  start := b.offset
  stop := 2 ^ 64 - 1
  time := 0

/-- The start of the segment that the seeker sends on. -/
def Seeker.segmentStart {n : ℕ} (seeker : Seeker) (b : Buffer n) : ℕ :=
  (seeker.transformSegmentEvent (.ofBuffer b)).2.start

namespace Session

variable {n : ℕ} [NeZero n] {s s' : Session n} {a : ℕ} {popped : List (Buffer n)}

/-- Any step but a seek. -/
def noSeek (_ : Session n) (l : Label) : Prop := ∀ offset, l.1 ≠ .seek offset

/-- Of the buffers popped since `popped`, the first one, when there is one, starts
at `a`; until then it stands at the head. -/
def FirstAt (popped : List (Buffer n)) (a : ℕ) (s : Session n) : Prop :=
  (s.popped = popped ∧ s.live = [] ∧ (s.cache.slots s.cache.head).state = .full ∧
      (s.cache.slots s.cache.head).offset = some a) ∨
    ∃ b bs, s.popped = popped ++ b :: bs ∧ b.offset = a

theorem FirstAt.step (h : FirstAt popped a s) {l : Label} (hl : noSeek s l)
    (hs : s.step l = some s') : FirstAt popped a s' := by
  apply first_step (W := fun c => (c.slots c.head).state = .full ∧
    (c.slots c.head).offset = some a) h hs hl
  · -- the buffer of the head slot is popped
    rintro drain ⟨hfull, hoffset⟩
    right
    have hne : s.cache.promote = s.cache := promote_of_ne (by simp [hfull])
    rcases s.cache.pop_cases drain l.2 with ⟨c₁, hc₁, hpop⟩
    rw [hne, ite_self] at hc₁
    subst hc₁
    rcases hpop with ⟨habs, -⟩ | ⟨-, hpop⟩
    · exact absurd hfull habs
    · refine ⟨s.cache.slotBuffer, by rw [hpop], ?_⟩
      rw [slotBuffer, hoffset]
      rfl
  · rintro hpop hrel ⟨hfull, hoffset⟩
    -- a full slot at the head stays where it is
    have hkeep : Frozen s.cache s'.cache → s'.cache.head = s.cache.head →
        (s'.cache.slots s'.cache.head).state = .full ∧
          (s'.cache.slots s'.cache.head).offset = some a := by
      intro hf hhead
      rw [hhead, hf.closed _ (Or.inl hfull)]
      exact ⟨hfull, hoffset⟩
    rcases l with ⟨op, p⟩
    cases op with
    | push data =>
        rw [step_push hs] at hkeep ⊢
        exact hkeep (s.cache.push_frozen data p) (s.cache.push_head data p)
    | pop drain => exact absurd rfl (hpop drain)
    | release k => exact absurd rfl (hrel k)
    | seek offset => exact absurd rfl (hl offset)
    | startRecording =>
        have hsame := s.cache.startRecording_sameRing p
        rw [step_startRecording hs] at hkeep ⊢
        exact hkeep hsame.frozen hsame.head
    | migrate =>
        have hsame := s.cache.migrationThread_sameRing p
        rw [step_migrate hs] at hkeep ⊢
        exact hkeep hsame.frozen hsame.head
    | reload drain =>
        rw [step_reload hs] at hkeep ⊢
        exact hkeep (s.cache.reload_frozen drain p) (s.cache.reload_head drain p)

/-- After a seek to an offset that the ring retains, the first buffer popped is the
one of the slot that holds the offset. -/
theorem seek_first_buffer {memory : Fin n → ℕ → UInt8} {file : Option File} {o : ℕ}
    (h : Reach Session.step (fun _ _ => True) (init n memory file) s) (hlive : s.live = [])
    (hring : s.cache.isDiskUsable = false) (ho : s.cache.Retains o) (p : Platform) :
    s.cache.slotStart o ≤ o ∧ ∃ s₁, s.step (.seek o, p) = some s₁ ∧
      ∀ s₂, Reach Session.step noSeek s₁ s₂ → ∀ b bs, s₂.popped = s₁.popped ++ b :: bs →
        b.offset = s.cache.slotStart o := by
  rcases reach_settled h with ⟨⟨L, T, lo, hi, hsettled⟩, hok⟩
  rw [hlive] at hok
  rcases ho with ⟨hlow, hhigh, i, hheld⟩
  rcases hsettled.seek_finds (liveOk_nil.mp hok) hring ⟨hlow, hhigh⟩ hheld p with
    ⟨hle, c, hseek, hfull, hoffset⟩
  have hstep : s.step (.seek o, p) =
      some { s with cache := c, readPos := s.cache.seekPos o s.readPos } := by
    simp only [step, hlive, List.isEmpty_nil, if_true, hseek]
  refine ⟨hle, _, hstep, ?_⟩
  intro s₂ hs₂ b bs hpopped
  have hfirst : FirstAt s.popped (s.cache.slotStart o) s₂ :=
    hs₂.invariant (P := FirstAt s.popped (s.cache.slotStart o))
      (Or.inl ⟨rfl, hlive, hfull, hoffset⟩) fun _ _ _ hinv hl hs => hinv.step hl hs
  exact first_popped (hfirst.imp_left fun hbefore => hbefore.1) hpopped

/-- A seek to a time goes to the offset of the last association up to it, and the
segment of the first buffer popped afterwards starts at a valid time, not later
than the requested one, if and only if the slot that holds the offset is the first
one of the stream or does not start before the first association. -/
theorem time_seek_segment {memory : Fin n → ℕ → UInt8} {file : Option File} {seeker : Seeker}
    {index : MemIndex} {es : List Association} {k : Association} {t : ℕ}
    (h : Reach Session.step (fun _ _ => True) (init n memory file) s) (hlive : s.live = [])
    (hring : s.cache.isDiskUsable = false) (hindex : seeker.index = some index)
    (hholds : index.Holds es) (hes : Increasing es)
    (hin : ∀ e ∈ es, s.cache.Retains e.offset) (ht : t < 2 ^ 63) (hk : k ∈ es)
    (hkt : k.time ≤ t) (hlast : ∀ e ∈ es, e.time ≤ t → e.time ≤ k.time)
    (duration : Option ℤ) (p : Platform) :
    seeker.seek .set t duration = k.offset ∧
    ∃ s₁, s.step (.seek k.offset, p) = some s₁ ∧
      ∀ s₂, Reach Session.step noSeek s₁ s₂ → ∀ b bs, s₂.popped = s₁.popped ++ b :: bs →
        ((seeker.segmentStart b ≠ clockTimeNone ∧ seeker.segmentStart b ≤ t) ↔
          s.cache.slotStart k.offset = 0 ∨
            ∃ e ∈ es, e.offset ≤ s.cache.slotStart k.offset) := by
  refine ⟨Seeker.seek_set hindex hholds hes ht hk hkt hlast duration, ?_⟩
  rcases seek_first_buffer h hlive hring (hin k hk) p with ⟨hle, s₁, hs₁, hfirst⟩
  refine ⟨s₁, hs₁, ?_⟩
  intro s₂ hs₂ b bs hpopped
  have hb := hfirst s₂ hs₂ b bs hpopped
  have hstart : seeker.segmentStart b = index.bytesToStreamTime (s.cache.slotStart k.offset) := by
    rw [← hb]
    exact Seeker.transformSegmentEvent_start hindex rfl rfl
  have hfits := (hes.fits k hk).2
  rw [hstart]
  rcases hholds.bytesToStreamTime_cases hes
    (show s.cache.slotStart k.offset < 2 ^ 63 by omega) with
    ⟨e, he, heo, -, htime⟩ | ⟨hnone, htime⟩
  · -- an association at or before the slot is at or before the one sought
    have hle' : e.time ≤ k.time := by
      rcases hes.trichotomy he hk with hlt | rfl | hlt
      · exact Nat.le_of_lt hlt.1
      · exact Nat.le_refl _
      · have := hlt.2
        omega
    have hvalid := (hes.fits e he).1
    rw [htime]
    refine iff_of_true ⟨?_, by omega⟩ (Or.inr ⟨e, he, heo⟩)
    unfold clockTimeNone
    omega
  · rw [htime]
    by_cases hzero : s.cache.slotStart k.offset = 0
    · rw [if_pos hzero]
      exact iff_of_true ⟨by decide, Nat.zero_le t⟩ (Or.inl hzero)
    · -- no association is before the slot, so its start has no time
      rw [if_neg hzero]
      refine iff_of_false (fun habs => habs.1 rfl) ?_
      rintro (habs | ⟨e, he, heo⟩)
      · exact hzero habs
      · have := hnone e he
        omega

/-- The seek goes to the second of two associations, in the second slot of the ring. -/
theorem time_seek_segment_second_slot : ∃ (s : Session 3) (seeker : Seeker),
    Reach Session.step (fun _ _ => True) (init 3 (fun _ _ => 0) none) s ∧
      seeker.seek .set (150 : ℕ) none = (cacheSlotSize + 5 : ℕ) ∧
      ∃ s₁, s.step (.seek (cacheSlotSize + 5), .allOk) = some s₁ ∧
        ∀ s₂, Reach Session.step noSeek s₁ s₂ → ∀ b bs, s₂.popped = s₁.popped ++ b :: bs →
          seeker.segmentStart b ≠ clockTimeNone ∧ seeker.segmentStart b ≤ 150 := by
  have h₀ : Reach Session.step (fun _ _ => True) (init 3 (fun _ _ => 0) none) _ := .refl
  have h₁ := h₀.extend (.push ⟨2 * cacheSlotSize + 1, fun _ => 7⟩, .allOk) trivial rfl
  let es : List Association := [⟨0, 0⟩, ⟨100, cacheSlotSize + 5⟩]
  have hes : Increasing es :=
    .pair ⟨by decide, by decide⟩ ⟨by decide, by decide⟩ ⟨by decide, by decide⟩
  have hlast : ∀ e ∈ es, e.time ≤ 150 → e.time ≤ 100 := by decide
  let seeker : Seeker := ⟨some (.ofAssociations es), false⟩
  rcases time_seek_segment (k := ⟨100, cacheSlotSize + 5⟩) h₁ rfl rfl
    (show seeker.index = some (.ofAssociations es) from rfl) (MemIndex.holds_of_increasing hes) hes
    (List.forall_mem_cons.mpr ⟨⟨by decide, by decide, 0, by decide, by decide⟩,
      List.forall_mem_singleton.mpr ⟨by decide, by decide, 1, by decide, by decide⟩⟩)
    (show 150 < 2 ^ 63 by decide) (by simp [es]) (by decide) hlast none .allOk with
    ⟨htarget, s₁, hs₁, hfirst⟩
  refine ⟨_, _, h₁, htarget, s₁, hs₁, ?_⟩
  intro s₂ hs₂ b bs hpopped
  -- the first association lies before the second slot
  exact (hfirst s₂ hs₂ b bs hpopped).mpr (Or.inr ⟨⟨0, 0⟩, by simp [es], Nat.zero_le _⟩)

/-- The first association is on the second byte of the second slot: the segment of a
seek to its time starts at no time at all. -/
theorem segment_without_time :
    ¬∀ (s : Session 2) (seeker : Seeker) (index : MemIndex) (es : List Association)
      (k : Association) (t : ℕ) (p : Platform),
      Reach Session.step (fun _ _ => True) (init 2 (fun _ _ => 0) none) s → s.live = [] →
      s.cache.isDiskUsable = false → seeker.index = some index → index.Holds es →
      Increasing es → (∀ e ∈ es, s.cache.Retains e.offset) → t < 2 ^ 63 → k ∈ es → k.time ≤ t →
      (∀ e ∈ es, e.time ≤ t → e.time ≤ k.time) →
      ∃ s₁, s.step (.seek k.offset, p) = some s₁ ∧
        ∀ s₂, Reach Session.step noSeek s₁ s₂ → ∀ b bs, s₂.popped = s₁.popped ++ b :: bs →
          seeker.segmentStart b ≠ clockTimeNone ∧ seeker.segmentStart b ≤ t := by
  intro hall
  have h₀ : Reach Session.step (fun _ _ => True) (init 2 (fun _ _ => 0) none) _ := .refl
  have h₁ := h₀.extend (.push ⟨2 * cacheSlotSize, fun _ => 7⟩, .allOk) trivial rfl
  have hes : Increasing [⟨0, cacheSlotSize + 1⟩] := .singleton ⟨by decide, by decide⟩
  have hholds := MemIndex.holds_of_increasing hes
  rcases hall _ ⟨some _, false⟩ _ _ ⟨0, cacheSlotSize + 1⟩ 0 .allOk h₁ rfl rfl rfl hholds hes
    (by
      intro e he
      rw [List.mem_singleton.mp he]
      exact ⟨by decide, by decide, 1, by decide, by decide⟩)
    (by decide) (by simp) (by simp) (by simp) with ⟨s₁, hs₁, hfirst⟩
  cases hs₁
  have hpop := hfirst _ (Reach.refl.extend (.pop false, .allOk) (by intro _ h; cases h) rfl)
    _ [] rfl
  refine hpop.1 ?_
  -- the buffer is the one of the whole slot
  refine (Seeker.transformSegmentEvent_start rfl rfl rfl).trans ?_
  rcases hholds.bytesToStreamTime_cases hes (b := cacheSlotSize) (by decide) with
    ⟨e, he, hle, -⟩ | ⟨-, htime⟩
  · rw [List.mem_singleton.mp he] at hle
    exact absurd hle (by decide)
  · exact htime

end Session

end TimeShift
