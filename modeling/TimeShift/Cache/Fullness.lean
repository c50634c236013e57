import TimeShift.Cache.FullCount
import TimeShift.Cache.ReaderWindow

/-!
# The fullness

`gst_shifter_cache_fullness` computes the number of bytes that are left to be read from
two slots: it adds the size of the head slot to the distance from its offset to the one of
the tail slot. The tail slot is taken for the last one of those that the reader still has
to get, but it is the one behind them. Depending on what it was used for, it has no offset
yet, the offset of its bytes, or an offset from one turn of the ring before; so the
result is right only for an empty ring and for a ring of one slot
(`fullness_unread_iff`).
-/

set_option linter.unusedSectionVars false

namespace TimeShift

open Bytes Cyclic Machine Tally

namespace Cache

variable {n : ℕ} [NeZero n] {c : Cache n} {L R T : ℕ} {off : ℕ → ℕ}

/-- `gst_shifter_cache_fullness`. -/
def fullness (c : Cache n) : ℕ :=
  if c.isEmpty then 0
  else
    let head := c.slots c.head
    let tail := c.slots c.tail
    guint64 ((tail.offset.val : ℤ) - head.offset.val + head.size)

/-- The arithmetic of `gst_shifter_cache_fullness` does not wrap around. -/
def FullnessFits (c : Cache n) : Prop :=
  c.isEmpty = false →
    (c.slots c.head).offset.val ≤ (c.slots c.tail).offset.val ∧
    (c.slots c.tail).offset.val - (c.slots c.head).offset.val + (c.slots c.head).size < 2 ^ 64

/-- The bytes that are left to be read: those of the full slots and, behind them, those of
a partly written tail slot. -/
def unreadBytes (c : Cache n) : ℕ :=
  if ∃ i, (c.slots i).state = .full then
    ∑ i with (c.slots i).IsFull, (c.slots i).size +
      if (c.slots c.tail).state = .part then (c.slots c.tail).size else 0
  else 0

/-! ## The bytes that are left -/

theorem exists_full_iff (h : Counted c) : (∃ i, (c.slots i).state = .full) ↔ c.fslots ≠ 0 := by
  rw [h, Int.natCast_ne_zero, fullCount, ne_eq, tally_eq_zero_iff, not_forall_not]
  rfl

theorem unread_of_empty (h : Counted c) (hzero : c.fslots = 0) : c.unreadBytes = 0 := by
  apply if_neg
  rw [exists_full_iff h]
  exact fun hne => hne hzero

theorem unread_of_full (h : Counted c) (hwhole : AllWhole c) (hne : c.fslots ≠ 0) :
    (c.unreadBytes : ℤ) = c.fslots * cacheSlotSize + c.tailBytes := by
  have htail : (if (c.slots c.tail).state = .part then (c.slots c.tail).size else 0) =
      c.tailBytes := by
    split
    · next hpart =>
        exact (tailBytes_of_available ((Slot.available_iff _).mpr (Or.inr hpart))).symm
    · next hne =>
        exact (tailBytes_of_ne_part hne).symm
  -- the full slots are full to their end
  have hsum : ∑ i with (c.slots i).IsFull, (c.slots i).size = c.fullCount * cacheSlotSize := by
    apply Finset.sum_const_nat
    intro i hi
    exact hwhole i (Slot.Complete.of_full (Finset.mem_filter.mp hi).2)
  rw [unreadBytes, if_pos ((exists_full_iff h).mpr hne), htail, hsum, h]
  push_cast
  rfl

/-! ## The slots at the two ends -/

/-- Slots that are used to their end cut the stream evenly. -/
theorem Window.off_whole (h : Window c L T off) (hwhole : AllWhole c) {q : ℕ} (hL : L ≤ q)
    (hT : q ≤ T) : off q = off L + (q - L) * cacheSlotSize := by
  induction q, hL using Nat.le_induction with
  | base => simp
  | succ q hq ih =>
      have hspan := h.spans q hq hT
      have hsize := hwhole _ (h.complete q hq hT)
      have hprev := ih (by omega)
      have hnext := hspan.2.1
      rw [Nat.succ_sub hq, Nat.succ_mul]
      omega

/-- The tail slot is a free one or, in a full ring, the oldest one. -/
theorem Window.tail_cases (h : Window c L T off) (ht : c.tail = idx n T) :
    (T < L + n ∧ (c.slots c.tail).offset = none ∧ c.tailBytes = 0) ∨
    (T < L + n ∧ (c.slots c.tail).offset = some (off T) ∧ c.tailBytes < cacheSlotSize) ∨
    (T = L + n ∧ (c.slots c.tail).offset = some (off L) ∧ c.tailBytes = 0) := by
  have hfits := h.fits
  have hn : 0 < n := Nat.pos_of_ne_zero (NeZero.ne n)
  by_cases hlt : T < L + n
  · rcases h.free T (Nat.le_refl T) hlt with hempty | ⟨-, -, hpart, b, hspan⟩
    · left
      rw [← ht] at hempty
      refine ⟨hlt, ((c.slots c.tail).empty_clean hempty).1, ?_⟩
      apply tailBytes_of_ne_part
      rw [hempty]
      simp
    · right; left
      rw [← ht] at hpart hspan
      have ha := (Slot.available_iff _).mpr (Or.inr hpart)
      refine ⟨hlt, hspan.1, ?_⟩
      rw [tailBytes_of_available ha]
      exact ((c.slots c.tail).open_room ha).2
  · right; right
    have hT : T = L + n := by omega
    have htail : c.tail = idx n L := by
      rw [ht, hT, idx_add_self]
    have hcomplete := h.complete L (Nat.le_refl L) (by omega)
    have hspan := h.spans L (Nat.le_refl L) (by omega)
    rw [← htail] at hcomplete hspan
    exact ⟨hT, hspan.1, tailBytes_of_complete hcomplete⟩

/-- The fullness is what is left to be read exactly when nothing is or when there is only
one slot. -/
theorem Fulls.fullness_iff (h : Fulls c L R T) (hw : Window c L T off) (hwhole : AllWhole c)
    (hcounted : Counted c) (ht : c.tail = idx n T) (hhead : c.head = idx n R)
    (halign : cacheSlotSize ∣ off R) :
    (c.fullness = c.unreadBytes ∧ c.FullnessFits) ↔ c.fslots = 0 ∨ n = 1 := by
  by_cases hzero : c.fslots = 0
  · have hempty : c.isEmpty = true := decide_eq_true hzero
    have hfits : c.FullnessFits := by
      intro habs
      rw [hempty] at habs
      cases habs
    rw [fullness, if_pos hempty, unread_of_empty hcounted hzero]
    exact iff_of_true ⟨rfl, hfits⟩ (Or.inl hzero)
  · have hempty : c.isEmpty = false := decide_eq_false hzero
    have hcount := h.count
    have hlower := h.lower
    have hupper := h.upper
    have hroom := hw.fits
    have hlt : R < T := by omega
    -- the head slot
    have hspan := hw.spans R hlower hlt
    have hsize := hwhole _ (hw.complete R hlower hlt)
    rw [← hhead] at hspan hsize
    have hoff : (c.slots c.head).offset = some (off R) := hspan.1
    have hR := hw.off_whole hwhole hlower hupper
    have hT := hw.off_whole hwhole hw.le (Nat.le_refl T)
    have hunread := unread_of_full hcounted hwhole hzero
    have hone : 0 < n := Nat.pos_of_ne_zero (NeZero.ne n)
    rcases halign with ⟨m, hm⟩
    have hS : cacheSlotSize = 32768 := rfl
    rw [hS] at hR hT hunread hsize hm
    unfold FullnessFits
    simp only [fullness, hempty, Bool.false_eq_true, if_false, forall_const, hoff,
      Offset.val_some, guint64, hsize]
    rcases hw.tail_cases ht with ⟨hfree, htail, hbytes⟩ | ⟨hfree, htail, hbytes⟩ |
      ⟨hturn, htail, hbytes⟩
    · -- the sentinel is not a multiple of the slot size
      rw [htail]
      simp only [Offset.val, invalidOffset]
      omega
    · -- the partly written slot would count as a full one
      rw [hS] at hbytes
      rw [htail]
      simp only [Offset.val_some]
      omega
    · -- the offset is the one of a whole turn before
      rw [htail]
      simp only [Offset.val_some]
      omega

end Cache

/-! ## Runs -/

namespace Session

open Cache

variable {n : ℕ} [NeZero n] {s s' : Session n} {L R T : ℕ} {off : ℕ → ℕ}

/-- Writing to the ring, and reading on through it. -/
def forwardStep (s : Session n) : Label → Prop
  | (.push _, _) | (.pop false, _) | (.release _, _) => s.cache.isRecording = false
  | _ => False

/-- A session in the ring that has never been sought. -/
structure Forward (s : Session n) (L R T : ℕ) (off : ℕ → ℕ) : Prop where
  reader : AtReader s L R T off
  counted : Counted s.cache
  aligned : cacheSlotSize ∣ s.readPos

namespace Forward

theorem of_init (memory : Fin n → ℕ → UInt8) (file : Option File) :
    Forward (init n memory file) 0 0 0 (fun _ => 0) :=
  ⟨.of_init memory file, .of_empty (fun _ => rfl) rfl, dvd_zero _⟩

/-- A buffer from the ring is a whole slot. -/
theorem pop (h : Forward s L R T off) {p : Platform} (hs : s.step (.pop false, p) = some s') :
    ∃ R', Forward s' L R' T off := by
  rcases h.reader.pop hs with ⟨R', hreader⟩
  have hcounted : Counted s'.cache := by
    rw [step_pop hs, afterPop_cache]
    exact h.counted.pop false p
  refine ⟨R', hreader, hcounted, ?_⟩
  rcases (h.reader.inRing.pop hs).2 with ⟨-, rfl⟩ | ⟨hfull, -, -, hpos, -⟩
  · exact h.aligned
  · have hw := h.reader.inRing.ring.window
    have hlt := h.reader.fulls.lt_of_head_full hw hfull
    have hlower := h.reader.fulls.lower
    have hend := (hw.slotBuffer_range h.reader.head hlower hlt).2
    have hnext : off (R + 1) = off R + cacheSlotSize := by
      have hspan := (hw.spans R hlower hlt).2.1
      rw [h.reader.inRing.whole _ (hw.complete R hlower hlt)] at hspan
      exact hspan.symm
    rw [hpos, hend, hnext, ← h.reader.pos]
    exact dvd_add h.aligned (dvd_refl _)

theorem step (h : Forward s L R T off) {l : Label} (hl : forwardStep s l)
    (hs : s.step l = some s') (hafter : s'.cache.isRecording = false) :
    ∃ L' R' T' off', Forward s' L' R' T' off' := by
  rcases l with ⟨op, p⟩
  cases op with
  | push data =>
      rcases h.reader.push hs hafter with ⟨L', T', off', hreader⟩
      have heq := step_push hs
      refine ⟨L', R, T', off', hreader, ?_, ?_⟩
      · rw [heq]
        exact h.counted.push data p
      · rw [heq]
        exact h.aligned
  | pop drain =>
      cases drain with
      | false =>
          rcases h.pop hs with ⟨R', hforward⟩
          exact ⟨L, R', T, off, hforward⟩
      | true => cases hl
  | release k =>
      have hreader := h.reader.release hs
      rcases step_release hs with ⟨b, hb, rfl⟩
      have hstate := h.reader.inRing.live.state (List.mem_of_getElem? hb)
      exact ⟨L, R, T, off, hreader, h.counted.release hstate, h.aligned⟩
  | seek offset => cases hl
  | startRecording => cases hl
  | migrate => cases hl
  | reload drain => cases hl

end Forward

/-- In every run without a recording, the fullness is the number of bytes that are left to
be read, and its arithmetic does not wrap around, exactly when no slot is full or there is
only one slot. -/
theorem fullness_unread_iff {memory : Fin n → ℕ → UInt8} {file : Option File}
    (h : Reach Session.step forwardStep (init n memory file) s)
    (hrec : s.cache.isRecording = false) :
    (s.cache.fullness = s.cache.unreadBytes ∧ s.cache.FullnessFits) ↔
      s.cache.fslots = 0 ∨ n = 1 := by
  have hinv : s.cache.isRecording = false → ∃ L R T off, Forward s L R T off := by
    apply h.invariant (P := fun s => s.cache.isRecording = false → ∃ L R T off, Forward s L R T off)
    · exact fun _ => ⟨0, 0, 0, _, .of_init memory file⟩
    · intro s l s' hinv hok hs hafter
      have hbefore : s.cache.isRecording = false := by
        rcases l with ⟨_ | ⟨_ | _⟩ | _, _⟩ <;> first | exact hok | cases hok
      rcases hinv hbefore with ⟨L, R, T, off, hforward⟩
      exact hforward.step hok hs hafter
  rcases hinv hrec with ⟨L, R, T, off, hforward⟩
  have hring := hforward.reader.inRing
  apply hforward.reader.fulls.fullness_iff hring.ring.window hring.whole hforward.counted
    hring.tail hforward.reader.head
  rw [← hforward.reader.pos]
  exact hforward.aligned

/-- A ring of one slot. -/
theorem fullness_unread_iff_one : ∃ s : Session 1,
    Reach Session.step forwardStep (init 1 (fun _ _ => 0) none) s ∧
      s.cache.unreadBytes = cacheSlotSize ∧ s.cache.fullness = s.cache.unreadBytes := by
  have h₀ : Reach Session.step forwardStep (init 1 (fun _ _ => 0) none) _ := .refl
  have h₁ := h₀.extend (.push ⟨cacheSlotSize, fun _ => 7⟩, .allOk) rfl rfl
  exact ⟨_, h₁, by decide, ((fullness_unread_iff h₁ rfl).mpr (Or.inr rfl)).1⟩

/-- With one full slot and one byte behind it, the fullness is that of two slots. -/
theorem fullness_counts_partial_slot :
    ¬∀ s : Session 2, Reach Session.step forwardStep (init 2 (fun _ _ => 0) none) s →
      s.cache.isRecording = false →
        s.cache.fullness = s.cache.unreadBytes ∧ s.cache.FullnessFits := by
  intro hall
  have h₀ : Reach Session.step forwardStep (init 2 (fun _ _ => 0) none) _ := .refl
  have h₁ := h₀.extend (.push ⟨cacheSlotSize + 1, fun _ => 7⟩, .allOk) rfl rfl
  have hfullness : 2 * cacheSlotSize = cacheSlotSize + 1 := (hall _ h₁ rfl).1
  exact absurd hfullness (by decide)

end Session

end TimeShift
