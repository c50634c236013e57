import TimeShift.Cache.Basic

/-!
# What the operations change

For each function of the cache, what it can do, stated once: the disk functions
leave the ring alone, a disk read either fills its slot or leaves it open, and
the two loops, the one of a push and the one of a reload, come with an
induction rule each (`pushLoop_induct`, `reload_induct`), so that no later proof
runs through them again, and so does a pop (`pop_induct`).
-/

set_option linter.unusedSectionVars false

namespace TimeShift

open Bytes

namespace Cache

variable {n : ℕ} [NeZero n] {c c' : Cache n} {p : Platform}

/-! ## The ring part of the state -/

/-- The slots and the indices and offsets that describe them are the same. -/
structure SameRing (c c' : Cache n) : Prop where
  slots : c'.slots = c.slots
  head : c'.head = c.head
  tail : c'.tail = c.tail
  fslots : c'.fslots = c.fslots
  lRbOffset : c'.lRbOffset = c.lRbOffset
  hRbOffset : c'.hRbOffset = c.hRbOffset
  needDiscont : c'.needDiscont = c.needDiscont

theorem SameRing.rfl : SameRing c c :=
  ⟨.refl _, .refl _, .refl _, .refl _, .refl _, .refl _, .refl _⟩

theorem SameRing.trans {c'' : Cache n} (h : SameRing c c') (h' : SameRing c' c'') :
    SameRing c c'' where
  slots := h'.slots.trans h.slots
  head := h'.head.trans h.head
  tail := h'.tail.trans h.tail
  fslots := h'.fslots.trans h.fslots
  lRbOffset := h'.lRbOffset.trans h.lRbOffset
  hRbOffset := h'.hRbOffset.trans h.hRbOffset
  needDiscont := h'.needDiscont.trans h.needDiscont

/-- A disk write touches the file, the write position and the two offsets that
count what was received. -/
theorem diskWrite_eq (c : Cache n) (data : Block UInt8) (p : Platform) :
    ∃ f w h k, c.diskWrite data p =
      { c with file := f, wDkPos := w, hOffset := h, hDkOffset := k } := by
  unfold diskWrite
  split
  · exact ⟨c.file, c.wDkPos, c.hOffset, c.hDkOffset, rfl⟩
  · split
    · exact ⟨c.file, c.wDkPos, c.hOffset, c.hDkOffset, rfl⟩
    · exact ⟨_, _, _, _, rfl⟩

theorem diskWrite_sameRing (c : Cache n) (data : Block UInt8) (p : Platform) :
    SameRing c (c.diskWrite data p) := by
  obtain ⟨f, w, h, k, heq⟩ := c.diskWrite_eq data p
  rw [heq]
  exact ⟨rfl, rfl, rfl, rfl, rfl, rfl, rfl⟩

@[simp] theorem diskWrite_isRecording (c : Cache n) (data : Block UInt8) (p : Platform) :
    (c.diskWrite data p).isRecording = c.isRecording := by
  obtain ⟨f, w, h, k, heq⟩ := c.diskWrite_eq data p
  rw [heq]

theorem diskWrite_hOffset_le (c : Cache n) (data : Block UInt8) (p : Platform) :
    c.hOffset ≤ (c.diskWrite data p).hOffset := by
  unfold diskWrite
  split
  · exact Nat.le_refl _
  · split
    · exact Nat.le_refl _
    · exact Nat.le_add_right _ _

/-- A recording start either changes nothing or sets up the recording. -/
theorem startRecording_cases (c : Cache n) (p : Platform) :
    ((c.startRecording p).1 = c ∧
        (c.file = none ∨ c.thread ≠ none ∨ c.stopRecording = true)) ∨
      (c.file.isSome ∧ c.thread = none ∧ c.stopRecording = false ∧
        (c.startRecording p).1 = { c with
          mDkOffset := some c.lRbOffset
          lDkOffset := some c.hOffset
          wDkPos := gsizeSub c.hOffset c.lRbOffset
          isRecording := true
          thread := if p.threadCreate then some .created else none }) := by
  unfold startRecording
  -- the three guards, in their order
  by_cases hfile : c.file.isNone
  · left
    exact ⟨by simp [hfile], Or.inl (by simpa using hfile)⟩
  by_cases hthread : c.thread.isSome
  · left
    exact ⟨by simp [hfile, hthread], Or.inr (Or.inl (by
      rintro hnone
      simp [hnone] at hthread))⟩
  by_cases hstop : c.stopRecording
  · left
    exact ⟨by simp [hfile, hthread, hstop], Or.inr (Or.inr hstop)⟩
  right
  have hnone : c.thread = none := by simpa using hthread
  refine ⟨by simpa [Option.isSome_iff_ne_none] using hfile, hnone, by simpa using hstop, ?_⟩
  by_cases hcreate : p.threadCreate
  · simp [hfile, hnone, hstop, hcreate]
  · simp [hfile, hnone, hstop, hcreate]

@[simp] theorem startRecording_hOffset (c : Cache n) (p : Platform) :
    (c.startRecording p).1.hOffset = c.hOffset := by
  rcases c.startRecording_cases p with ⟨heq, -⟩ | ⟨-, -, -, heq⟩ <;> rw [heq]

theorem startRecording_sameRing (c : Cache n) (p : Platform) :
    SameRing c (c.startRecording p).1 := by
  rcases c.startRecording_cases p with ⟨heq, -⟩ | ⟨-, -, -, heq⟩
  · rw [heq]
    exact .rfl
  · rw [heq]
    exact ⟨rfl, rfl, rfl, rfl, rfl, rfl, rfl⟩

/-- A round of the migration touches the file and the thread's own state, and
the last one ends the migration. -/
theorem migrationThread_eq (c : Cache n) (p : Platform) :
    ∃ f m d b t, c.migrationThread p = { c with
      file := f
      mDkPos := m
      lDkOffset := d
      isRbMigrated := b
      thread := t } ∧ (c.file.isSome → f.isSome) := by
  unfold migrationThread
  split
  · exact ⟨_, _, _, _, _, rfl, id⟩
  · dsimp only
    repeat' split
    all_goals first
      | exact ⟨_, _, _, _, _, rfl, id⟩
      | exact ⟨_, _, _, _, _, rfl, fun _ => rfl⟩
  · exact ⟨_, _, _, _, _, rfl, id⟩

theorem migrationThread_sameRing (c : Cache n) (p : Platform) :
    SameRing c (c.migrationThread p) := by
  obtain ⟨f, m, d, b, t, heq, -⟩ := c.migrationThread_eq p
  rw [heq]
  exact ⟨rfl, rfl, rfl, rfl, rfl, rfl, rfl⟩

@[simp] theorem migrationThread_isRecording (c : Cache n) (p : Platform) :
    (c.migrationThread p).isRecording = c.isRecording := by
  obtain ⟨f, m, d, b, t, heq, -⟩ := c.migrationThread_eq p
  rw [heq]

@[simp] theorem migrationThread_hOffset (c : Cache n) (p : Platform) :
    (c.migrationThread p).hOffset = c.hOffset := by
  rcases c.migrationThread_eq p with ⟨_, _, _, _, _, heq, -⟩
  rw [heq]

theorem migrationThread_file (c : Cache n) (p : Platform) (h : c.file.isSome) :
    (c.migrationThread p).file.isSome := by
  obtain ⟨f, m, d, b, t, heq, hf⟩ := c.migrationThread_eq p
  rw [heq]
  exact hf h

/-- The end of the migration moves `l_dk_offset` to the start of the file. -/
theorem migrationThread_lDkOffset (c : Cache n) (p : Platform) :
    (c.migrationThread p).lDkOffset = c.lDkOffset ∨
      (c.migrationThread p).lDkOffset = c.mDkOffset := by
  unfold migrationThread
  split
  · exact Or.inl rfl
  · dsimp only
    repeat' split
    all_goals first
      | exact Or.inl rfl
      | exact Or.inr rfl
  · exact Or.inl rfl

/-- Only the ring has changed: its slots, its tail and the offsets that go with
them. -/
def RingFrame (c c' : Cache n) : Prop :=
  ∃ slots tail lRbOffset hRbOffset fslots hOffset, c' = { c with
    slots := slots
    tail := tail
    lRbOffset := lRbOffset
    hRbOffset := hRbOffset
    fslots := fslots
    hOffset := hOffset }

theorem RingFrame.rfl : RingFrame c c := ⟨_, _, _, _, _, _, Eq.refl _⟩

theorem RingFrame.trans {c'' : Cache n} (h : RingFrame c c') (h' : RingFrame c' c'') :
    RingFrame c c'' := by
  obtain ⟨_, _, _, _, _, _, rfl⟩ := h
  obtain ⟨_, _, _, _, _, _, rfl⟩ := h'
  exact ⟨_, _, _, _, _, _, Eq.refl _⟩

/-! ## Changes of state words -/

/-- Only the state words of complete slots, the head and what belongs to it
have changed. -/
structure Restate (c c' : Cache n) : Prop where
  frame : ∃ slots head fslots d,
    c' = { c with slots := slots, head := head, fslots := fslots, needDiscont := d }
  slot : ∀ i, (c.slots i).Restated (c'.slots i)

theorem Restate.rfl : Restate c c :=
  ⟨⟨_, _, _, _, Eq.refl _⟩, fun _ => .rfl⟩

theorem Restate.trans {c'' : Cache n} (h : Restate c c') (h' : Restate c' c'') :
    Restate c c'' := by
  refine ⟨?_, fun i => (h.slot i).trans (h'.slot i)⟩
  obtain ⟨_, _, _, _, rfl⟩ := h.frame
  obtain ⟨slots, head, fslots, d, rfl⟩ := h'.frame
  exact ⟨slots, head, fslots, d, Eq.refl _⟩

/-- One complete slot gets another state word. -/
theorem restate_update {i : Fin n} {st : CacheState} {h : st.isAvailable = false}
    (hi : (c.slots i).Complete) (head : Fin n) (fslots : ℤ) (d : Bool) :
    Restate c { c with
      slots := Function.update c.slots i ((c.slots i).setState st h)
      head := head
      fslots := fslots
      needDiscont := d } := by
  refine ⟨⟨_, _, _, _, Eq.refl _⟩, ?_⟩
  intro j
  by_cases hj : j = i
  · subst hj
    exact Or.inr ⟨hi, st, h, by simp⟩
  · exact Or.inl (by simp [hj])

theorem take_restate (h : (c.slots c.head).state = .full) : Restate c c.take :=
  restate_update (Slot.Complete.of_full h) _ _ _

theorem release_restate {i : Fin n} (h : (c.slots i).state = .pop) :
    Restate c (c.release i) :=
  restate_update (Slot.Complete.of_pop h) _ _ _

theorem setHead_restate (c : Cache n) (i : Fin n) : Restate c { c with head := i } :=
  ⟨⟨_, _, _, _, Eq.refl _⟩, fun _ => .rfl⟩

theorem rollback_restate (c : Cache n) (i : Fin n) : Restate c (c.rollback i).1 := by
  by_cases h : (c.slots i).state = .recycle
  · simp only [rollback, h, if_true]
    exact restate_update (Slot.Complete.of_recycle h) _ _ _
  · simp only [rollback, h, if_false]
    exact .rfl

theorem rollforward_restate (c : Cache n) (i : Fin n) : Restate c (c.rollforward i) := by
  by_cases h : (c.slots i).state = .full
  · simp only [rollforward, h, if_true]
    exact restate_update (Slot.Complete.of_full h) _ _ _
  · simp only [rollforward, h, if_false]
    exact .rfl

/-! ## Seeks within the ring -/

/-- A property that a walk keeps, because it keeps it at each slot. -/
theorem seekForward_induct {P : Cache n → Prop} (hforward : ∀ c i, P c → P (c.rollforward i))
    {offset k : ℕ} {i j : Fin n} (h : seekForward offset k c i = some (c', j)) (hc : P c) :
    P c' := by
  -- on the slots that the walk may still visit
  induction k generalizing c i with
  | zero => simp [seekForward] at h
  | succ k ih =>
      rw [seekForward] at h
      by_cases hin : ((c.rollforward i).slots (i + 1)).contains offset = true
      · simp only [hin, if_true, Option.some.injEq, Prod.mk.injEq] at h
        exact h.1 ▸ hforward c i hc
      · simp only [hin, Bool.false_eq_true, if_false] at h
        exact ih h (hforward c i hc)

/-- The walk into the future stops at a slot that contains the offset. -/
theorem seekForward_contains {offset k : ℕ} {i j : Fin n}
    (h : seekForward offset k c i = some (c', j)) : (c'.slots j).contains offset = true := by
  induction k generalizing c i with
  | zero => simp [seekForward] at h
  | succ k ih =>
      rw [seekForward] at h
      by_cases hin : ((c.rollforward i).slots (i + 1)).contains offset = true
      · simp only [hin, if_true, Option.some.injEq, Prod.mk.injEq] at h
        rw [← h.1, ← h.2]
        exact hin
      · simp only [hin, Bool.false_eq_true, if_false] at h
        exact ih h

@[inherit_doc seekForward_induct]
theorem seekBackward_induct {P : Cache n → Prop} (hback : ∀ c i, P c → P (c.rollback i).1)
    {offset k : ℕ} {i j : Fin n} (h : seekBackward offset k c i = some (c', j)) (hc : P c) :
    P c' := by
  induction k generalizing c i with
  | zero => simp [seekBackward] at h
  | succ k ih =>
      rw [seekBackward] at h
      have hnext := hback c (i - 1) hc
      generalize c.rollback (i - 1) = r at h hnext
      obtain ⟨c₁, moved⟩ := r
      cases moved with
      | false =>
          simp only [Option.some.injEq, Prod.mk.injEq] at h
          exact h.1 ▸ hnext
      | true =>
          by_cases hin : (c₁.slots (i - 1)).contains offset = true
          · simp only [hin, if_true, Option.some.injEq, Prod.mk.injEq] at h
            exact h.1 ▸ hnext
          · simp only [hin, Bool.false_eq_true, if_false] at h
            exact ih h hnext

/-- What rolling slots back and forward and moving the head keep, a seek within
the ring keeps. -/
theorem seekRing_induct {P : Cache n → Prop} (hforward : ∀ c i, P c → P (c.rollforward i))
    (hback : ∀ c i, P c → P (c.rollback i).1) (hhead : ∀ c i, P c → P { c with head := i })
    {offset : ℕ} (h : c.seekRing offset = some c') (hc : P c) : P c' := by
  rw [seekRing] at h
  split at h
  · split at h
    · -- the offset is in the head slot
      cases h
      exact hback c _ hc
    · -- the offset is in the future
      split at h
      · cases h
      · rename_i c₁ seeker hwalk
        cases h
        exact hhead _ _ (hback _ _ (seekForward_induct hforward hwalk hc))
  · -- the offset is in the past
    split at h
    · cases h
    · rename_i c₁ seeker hwalk
      cases h
      exact hhead _ _ (seekBackward_induct hback hwalk (hback _ _ hc))

theorem seekRing_restate {offset : ℕ} (h : c.seekRing offset = some c') : Restate c c' :=
  seekRing_induct (P := Restate c) (fun c₁ i h₁ => h₁.trans (c₁.rollforward_restate i))
    (fun c₁ i h₁ => h₁.trans (c₁.rollback_restate i))
    (fun c₁ i h₁ => h₁.trans (c₁.setHead_restate i)) h .rfl

/-- A seek walks the ring, goes to the disk, or does nothing. -/
theorem seek_cases {offset : ℕ} (h : c.seek offset p = some c') :
    (c.lRbOffset ≤ c.clamp offset ∧ c.clamp offset < c.hRbOffset ∧
      c.seekRing (c.clamp offset) = some c') ∨
    (¬(c.lRbOffset ≤ c.clamp offset ∧ c.clamp offset < c.hRbOffset) ∧
      c.isDiskUsable ∧ c' = c.seekDisk (c.clamp offset) p) ∨
    (¬(c.lRbOffset ≤ c.clamp offset ∧ c.clamp offset < c.hRbOffset) ∧
      c.isDiskUsable = false ∧ c' = c) := by
  unfold seek at h
  dsimp only at h
  split at h
  · rename_i hin
    exact Or.inl ⟨hin.1, hin.2, h⟩
  · rename_i hout
    split at h
    · rename_i hdisk
      exact Or.inr (Or.inl ⟨hout, hdisk, (Option.some.inj h).symm⟩)
    · rename_i hdisk
      exact Or.inr (Or.inr ⟨hout, by simpa using hdisk, (Option.some.inj h).symm⟩)

/-! ## Recycling and reading into a slot -/

theorem recycle_of_ne {i : Fin n} (h : (c.slots i).state ≠ .recycle) : c.recycle i = c := by
  simp [recycle, h]

theorem recycle_of_eq {i : Fin n} {o : ℕ} (h : (c.slots i).state = .recycle)
    (ho : (c.slots i).offset = some o) :
    c.recycle i = { c with
      lRbOffset := o + (c.slots i).size
      slots := Function.update c.slots i (c.slots i).reset } := by
  simp [recycle, h, ho, Slot.offsetEnd]

/-- After recycling, a slot is open for writing, or holds bytes that the reader
still has to get or still looks at. -/
theorem recycle_state_ne (c : Cache n) (i : Fin n) :
    ((c.recycle i).slots i).state ≠ .recycle := by
  unfold recycle
  by_cases h : (c.slots i).state = .recycle
  · simp [h]
  · simp [h]

@[simp] theorem recycle_tail (c : Cache n) (i : Fin n) : (c.recycle i).tail = c.tail := by
  by_cases h : (c.slots i).state = .recycle
  · simp [recycle, h]
  · rw [recycle_of_ne h]

@[simp] theorem recycle_fslots (c : Cache n) (i : Fin n) : (c.recycle i).fslots = c.fslots := by
  by_cases h : (c.slots i).state = .recycle
  · simp [recycle, h]
  · rw [recycle_of_ne h]

@[simp] theorem recycle_hOffset (c : Cache n) (i : Fin n) :
    (c.recycle i).hOffset = c.hOffset := by
  by_cases h : (c.slots i).state = .recycle
  · simp [recycle, h]
  · rw [recycle_of_ne h]

@[simp] theorem recycle_hRbOffset (c : Cache n) (i : Fin n) :
    (c.recycle i).hRbOffset = c.hRbOffset := by
  by_cases h : (c.slots i).state = .recycle
  · simp [recycle, h]
  · rw [recycle_of_ne h]

@[simp] theorem recycle_isRecording (c : Cache n) (i : Fin n) :
    (c.recycle i).isRecording = c.isRecording := by
  by_cases h : (c.slots i).state = .recycle
  · simp [recycle, h]
  · rw [recycle_of_ne h]

theorem recycle_frame (c : Cache n) (i : Fin n) : RingFrame c (c.recycle i) := by
  by_cases h : (c.slots i).state = .recycle
  · simp only [recycle, h, if_true]
    exact ⟨_, _, _, _, _, _, rfl⟩
  · rw [recycle_of_ne h]
    exact .rfl

/-- A successful read loads the slot with the file's bytes. -/
theorem diskRead_true {i : Fin n} {o k : ℕ} {drain : Bool}
    (h : c.diskRead i o drain p k = (c', true)) :
    ∃ f, c.file = some f ∧ (c.slots i).available ∧ 0 < c.readSize ∧
      (drain = true ∨ c.readSize = cacheSlotSize) ∧ c.rDkPos + c.readSize ≤ f.len ∧
      c' = { c with
        slots := Function.update c.slots i
          ((c.slots i).load (fun j => f.byte (c.rDkPos + j)) c.readSize o
            c.readSize_le)
        rDkPos := c.rDkPos + c.readSize } := by
  unfold diskRead at h
  cases hfile : c.file with
  | none => simp [hfile] at h
  | some f =>
      simp only [hfile] at h
      -- a read that succeeds has passed every check
      by_cases hzero : c.readSize = 0
      · simp [hzero] at h
      by_cases hshort : (!drain && decide (c.readSize < cacheSlotSize)) = true
      · simp [hzero, hshort] at h
      by_cases havail : (c.slots i).available = true
      case neg => simp [hzero, hshort, havail] at h
      by_cases hseek : p.readSeek k = true
      case neg => simp [hzero, hshort, havail, hseek] at h
      by_cases hgot : f.freadCount c.rDkPos c.readSize (p.fread k) = c.readSize
      case neg => simp [hzero, hshort, havail, hseek, hgot] at h
      simp only [hzero, hshort, havail, hseek, hgot, if_false, if_true, Bool.not_true,
        Bool.false_eq_true, Prod.mk.injEq, and_true] at h
      have hle := f.freadCount_le c.rDkPos c.readSize (p.fread k)
      have hcap : c.readSize ≤ cacheSlotSize := Nat.min_le_right _ _
      refine ⟨f, rfl, havail, by omega, ?_, by omega, ?_⟩
      · cases drain
        · simp at hshort
          exact Or.inr (by omega)
        · exact Or.inl rfl
      · rw [← h, ← hfile]

/-- A failing read leaves the slot open, though its memory may have changed. -/
theorem diskRead_false {i : Fin n} {o k : ℕ} {drain : Bool}
    (h : c.diskRead i o drain p k = (c', false)) :
    c' = c ∨ ((c.slots i).available ∧
      ∃ bytes m, c' = c.setSlot i ((c.slots i).smear bytes m)) := by
  unfold diskRead at h
  cases hfile : c.file with
  | none =>
      simp only [hfile, Prod.mk.injEq, and_true] at h
      exact Or.inl h.symm
  | some f =>
      simp only [hfile] at h
      -- only the last check comes after the slot has been written to
      by_cases hzero : c.readSize = 0
      · simp only [hzero, if_true, Prod.mk.injEq, and_true] at h
        exact Or.inl h.symm
      by_cases hshort : (!drain && decide (c.readSize < cacheSlotSize)) = true
      · simp only [hzero, hshort, if_false, if_true, Prod.mk.injEq, and_true] at h
        exact Or.inl h.symm
      by_cases havail : (c.slots i).available = true
      case neg =>
        simp [hzero, hshort, havail] at h
        exact Or.inl h.symm
      by_cases hseek : p.readSeek k = true
      case neg =>
        simp [hzero, hshort, havail, hseek] at h
        exact Or.inl h.symm
      by_cases hgot : f.freadCount c.rDkPos c.readSize (p.fread k) = c.readSize
      · simp [hzero, hshort, havail, hseek, hgot] at h
      · simp only [hzero, hshort, havail, hseek, hgot, if_false, Bool.not_true,
          Bool.false_eq_true, Prod.mk.injEq, and_true] at h
        exact Or.inr ⟨havail, _, _, h.symm⟩

/-- Such a read leaves what the slots say about themselves. -/
theorem setSlot_smear (c : Cache n) (i : Fin n) (bytes : ℕ → UInt8) (m : ℕ) (j : Fin n) :
    ((c.setSlot i ((c.slots i).smear bytes m)).slots j).state = (c.slots j).state ∧
      ((c.setSlot i ((c.slots i).smear bytes m)).slots j).offset = (c.slots j).offset ∧
      ((c.setSlot i ((c.slots i).smear bytes m)).slots j).size = (c.slots j).size := by
  by_cases hj : j = i
  · subst hj
    simp [setSlot]
  · simp [setSlot, hj]

/-! ## Filling the tail slot -/

section Fill

variable (c : Cache n) (data : Block UInt8) (k : ℕ) (h : (c.slots c.tail).available)
  (hk : k ≤ (c.slots c.tail).room)

/-- The tail slot takes the bytes; a slot that is full then joins the ring. -/
theorem fill_eq : c.fill data k h hk = { c with
    slots := Function.update c.slots c.tail ((c.slots c.tail).write data.byte k c.hRbOffset h hk).1
    tail := if (c.slots c.tail).size + k = cacheSlotSize then c.tail + 1 else c.tail
    hRbOffset := if (c.slots c.tail).size + k = cacheSlotSize then c.hRbOffset + cacheSlotSize
      else c.hRbOffset
    fslots := if (c.slots c.tail).size + k = cacheSlotSize then c.fslots + 1 else c.fslots
    hOffset := c.hOffset + k } := by
  have hfull := (c.slots c.tail).write_full data.byte k c.hRbOffset h hk
  unfold fill
  split
  · rename_i slot heq
    have hsize : (c.slots c.tail).size + k = cacheSlotSize := by simpa [heq] using hfull
    simp [hsize, heq]
  · rename_i slot heq
    have hsize : (c.slots c.tail).size + k ≠ cacheSlotSize := by simpa [heq] using hfull
    simp [hsize, heq]

theorem fill_slots : (c.fill data k h hk).slots =
    Function.update c.slots c.tail ((c.slots c.tail).write data.byte k c.hRbOffset h hk).1 := by
  rw [fill_eq]

theorem fill_frame : RingFrame c (c.fill data k h hk) := by
  rw [fill_eq]
  exact ⟨_, _, _, _, _, _, rfl⟩

@[simp] theorem fill_hOffset : (c.fill data k h hk).hOffset = c.hOffset + k := by
  rw [fill_eq]

@[simp] theorem fill_isRecording : (c.fill data k h hk).isRecording = c.isRecording := by
  rw [fill_eq]

end Fill

/-! ## The loops -/

/-- The rule for a reload: it recycles the tail and reads into it, again and
again. -/
theorem reload_induct {P : Cache n → Prop} {drain : Bool}
    (hrecycle : ∀ c, P c → P (c.recycle c.tail))
    (hread : ∀ c c' k, P c → (c.slots c.tail).state ≠ .recycle →
      c.diskRead c.tail c.hRbOffset drain p k = (c', true) → P c'.advance)
    (hfail : ∀ c c' k, P c → c.diskRead c.tail c.hRbOffset drain p k = (c', false) → P c')
    (h : P c) : P (c.reload drain p) := by
  unfold reload
  generalize c.reloadRounds drain = rounds
  generalize 0 = k
  -- on the rounds that are left; `k` counts the reads that have been made
  induction rounds generalizing c k with
  | zero => exact h
  | succ rounds ih =>
      rw [reloadLoop]
      have hrec := hrecycle c h
      have hne := c.recycle_state_ne c.tail
      generalize hc₁ : c.recycle c.tail = c₁ at hrec hne
      have htail : c₁.tail = c.tail := by rw [← hc₁, recycle_tail]
      rw [← htail] at hne
      generalize hres : c₁.diskRead c₁.tail c₁.hRbOffset drain p k = res
      obtain ⟨c₂, ok⟩ := res
      cases ok with
      | false => simpa [hres] using hfail c₁ c₂ k hrec hres
      | true => simpa [hres] using ih (hread c₁ c₂ k hrec hne hres) (k + 1)

/-- Only the ring and the read position in the file have changed. -/
def ReloadFrame (c c' : Cache n) : Prop :=
  ∃ slots tail lRbOffset hRbOffset fslots rDkPos, c' = { c with
    slots := slots
    tail := tail
    lRbOffset := lRbOffset
    hRbOffset := hRbOffset
    fslots := fslots
    rDkPos := rDkPos }

theorem reload_frame (c : Cache n) (drain : Bool) (p : Platform) :
    ReloadFrame c (c.reload drain p) := by
  refine reload_induct (P := ReloadFrame c) ?_ ?_ ?_ ⟨_, _, _, _, _, _, rfl⟩
  · rintro c₁ ⟨_, _, _, _, _, _, rfl⟩
    -- one name for the cache, whose fields the case split does not need
    generalize hc : Cache.mk _ _ _ _ _ _ _ _ _ _ _ _ _ _ _ _ _ _ _ _ = c₂
    by_cases h : (c₂.slots c₂.tail).state = .recycle
    · simp only [recycle, h, if_true]
      rw [← hc]
      exact ⟨_, _, _, _, _, _, rfl⟩
    · rw [recycle_of_ne h, ← hc]
      exact ⟨_, _, _, _, _, _, rfl⟩
  · rintro c₁ c₂ k ⟨_, _, _, _, _, _, rfl⟩ - hread
    obtain ⟨f, -, -, -, -, -, rfl⟩ := diskRead_true hread
    exact ⟨_, _, _, _, _, _, rfl⟩
  · rintro c₁ c₂ k ⟨_, _, _, _, _, _, rfl⟩ hread
    rcases diskRead_false hread with rfl | ⟨-, bytes, m, rfl⟩
    · exact ⟨_, _, _, _, _, _, rfl⟩
    · exact ⟨_, _, _, _, _, _, rfl⟩

theorem reload_head (c : Cache n) (drain : Bool) (p : Platform) :
    (c.reload drain p).head = c.head := by
  rcases c.reload_frame drain p with ⟨_, _, _, _, _, _, heq⟩
  rw [heq]

@[simp] theorem reload_hOffset (c : Cache n) (drain : Bool) (p : Platform) :
    (c.reload drain p).hOffset = c.hOffset := by
  rcases c.reload_frame drain p with ⟨_, _, _, _, _, _, heq⟩
  rw [heq]

@[simp] theorem reload_isRecording (c : Cache n) (drain : Bool) (p : Platform) :
    (c.reload drain p).isRecording = c.isRecording := by
  rcases c.reload_frame drain p with ⟨_, _, _, _, _, _, heq⟩
  rw [heq]

/-- The slot is full or popped: nothing is written into it. -/
def Closed (c : Cache n) (i : Fin n) : Prop :=
  (c.slots i).state = .full ∨ (c.slots i).state = .pop

instance (c : Cache n) (i : Fin n) : Decidable (c.Closed i) := inferInstanceAs (Decidable (_ ∨ _))

theorem diskRead_closed {i : Fin n} (h : c.Closed i) (o k : ℕ) (drain : Bool) :
    c.diskRead i o drain p k = (c, false) := by
  have hclosed : (c.slots i).available = false := by
    rw [← Slot.complete_iff_not_available]
    rcases h with h | h
    · exact Slot.Complete.of_full h
    · exact Slot.Complete.of_pop h
  unfold diskRead
  cases c.file with
  | none => rfl
  | some f => simp [hclosed]

/-- A reload stops at once when the tail slot is in use. -/
theorem reload_closed (h : c.Closed c.tail) (drain : Bool) : c.reload drain p = c := by
  unfold reload
  cases c.reloadRounds drain with
  | zero => rfl
  | succ rounds =>
      have hne : (c.slots c.tail).state ≠ .recycle := by
        rcases h with h | h <;> simp [h]
      rw [reloadLoop, recycle_of_ne hne, diskRead_closed h]

/-- A reload makes no round, or begins with recycling the tail. -/
theorem reload_recycle (c : Cache n) (drain : Bool) (p : Platform) :
    c.reload drain p = c ∨ (c.recycle c.tail).reload drain p = c.reload drain p := by
  have hrounds : (c.recycle c.tail).reloadRounds drain = c.reloadRounds drain := by
    rw [reloadRounds, reloadRounds, recycle_fslots]
  have hagain : (c.recycle c.tail).recycle c.tail = c.recycle c.tail :=
    recycle_of_ne (c.recycle_state_ne c.tail)
  unfold reload
  rw [hrounds]
  cases c.reloadRounds drain with
  | zero => exact Or.inl rfl
  | succ rounds =>
      right
      simp only [reloadLoop, recycle_tail, hagain]

/-- The rule for the loop of a push: it recycles the tail and fills it, again
and again, until the bytes are used up or the tail has no room. `P` also
follows the stream that the cache takes. -/
theorem pushLoop_induct {P : Cache n → List UInt8 → Prop}
    (hrecycle : ∀ c σ, P c σ → P (c.recycle c.tail) σ)
    (hfill : ∀ c σ (data : Block UInt8) k h hk, P c σ → 0 < k → k ≤ data.size →
      P (c.fill data k h hk) (σ ++ data.toList.take k))
    (σ : List UInt8) {data : Block UInt8} {fuel : ℕ} (hfuel : data.size ≤ fuel) (h : P c σ) :
    ∃ c₁ k, k ≤ data.size ∧ P c₁ (σ ++ data.toList.take k) ∧
      ((k = data.size ∧ pushLoop p fuel c data = c₁) ∨
        (k < data.size ∧ (c₁.slots c₁.tail).available = false ∧
          (c₁.slots c₁.tail).state ≠ .recycle ∧
          pushLoop p fuel c data = (c₁.startRecording p).1.diskWrite (data.drop k) p)) := by
  induction fuel generalizing c σ data with
  | zero =>
      have hzero : data.size = 0 := Nat.le_zero.mp hfuel
      exact ⟨c, 0, Nat.zero_le _, by simpa using h, Or.inl ⟨hzero.symm, rfl⟩⟩
  | succ fuel ih =>
      rw [pushLoop]
      by_cases hzero : data.size = 0
      · rw [if_pos hzero]
        exact ⟨c, 0, Nat.zero_le _, by simpa using h, Or.inl ⟨hzero.symm, rfl⟩⟩
      rw [if_neg hzero]
      dsimp only
      have hrec := hrecycle c σ h
      have hne := c.recycle_state_ne c.tail
      generalize hc₁ : c.recycle c.tail = c₁ at hrec hne
      have htail : c₁.tail = c.tail := by rw [← hc₁, recycle_tail]
      rw [← htail] at hne
      by_cases havail : (c₁.slots c₁.tail).available = true
      · -- the round takes at least one byte, so the fuel lasts for the rest
        have hroom := Slot.room_pos _ havail
        have hkpos : 0 < c₁.avail data := by
          unfold avail
          omega
        have hkle := c₁.avail_le_size data
        have hnext := hfill c₁ σ data _ havail (c₁.avail_le_room data) hrec hkpos hkle
        obtain ⟨c₂, m, hm, hP, hres⟩ := ih _
          (show (data.drop (c₁.avail data)).size ≤ fuel by rw [Block.size_drop]; omega) hnext
        rw [dif_pos havail]
        clear hnext
        generalize c₁.fill data (c₁.avail data) havail _ = c₃ at hres ⊢
        generalize c₁.avail data = k at *
        rw [Block.size_drop] at hm hres
        refine ⟨c₂, k + m, by omega, ?_, ?_⟩
        · rw [Block.toList_drop, List.append_assoc, ← List.take_add] at hP
          exact hP
        · rcases hres with ⟨hmeq, heq⟩ | ⟨hmlt, hfull, hstate, heq⟩
          · exact Or.inl ⟨by omega, heq⟩
          · refine Or.inr ⟨by omega, hfull, hstate, ?_⟩
            rw [← Block.drop_drop]
            exact heq
      · rw [dif_neg havail]
        refine ⟨c₁, 0, Nat.zero_le _, by simpa using hrec, Or.inr ⟨by omega, by simpa using havail,
          hne, ?_⟩⟩
        simp [Block.drop]

/-- The rule without the stream: `Q` holds after the loop when `P` is what its rounds
keep, and `Q` follows from it, at once or when the rest of the bytes goes to the file. -/
theorem pushLoop_rule {P Q : Cache n → Prop} (hrecycle : ∀ c, P c → P (c.recycle c.tail))
    (hfill : ∀ c (data : Block UInt8) k h hk, P c → 0 < k → P (c.fill data k h hk))
    (hdone : ∀ c, P c → Q c)
    (hdisk : ∀ c data, P c → Q ((c.startRecording p).1.diskWrite data p)) (h : P c)
    (data : Block UInt8) : Q (pushLoop p data.size c data) := by
  have hrecycle' : ∀ c (_ : List UInt8), P c → P (c.recycle c.tail) :=
    fun c _ h₁ => hrecycle c h₁
  have hfill' : ∀ c (_ : List UInt8) (data : Block UInt8) k h hk, P c → 0 < k →
      k ≤ data.size → P (c.fill data k h hk) :=
    fun c _ data k h hk h₁ hpos _ => hfill c data k h hk h₁ hpos
  rcases pushLoop_induct (P := fun c _ => P c) (p := p) hrecycle' hfill' []
    (Nat.le_refl data.size) h with ⟨c₁, k, -, h₁, ⟨-, heq⟩ | ⟨-, -, -, heq⟩⟩
  · rw [heq]
    exact hdone c₁ h₁
  · rw [heq]
    exact hdisk c₁ _ h₁

/-- A reload does nothing when the file has not got a whole slot to read and the
tail slot is not to be recycled. -/
theorem reload_short (hst : (c.slots c.tail).state ≠ .recycle) (hshort : c.readSize < cacheSlotSize)
    (p : Platform) : c.reload false p = c := by
  have hread : ∀ k, c.diskRead c.tail c.hRbOffset false p k = (c, false) := by
    intro k
    unfold diskRead
    cases c.file with
    | none => rfl
    | some f => simp [hshort]
  unfold reload
  cases c.reloadRounds false with
  | zero => rfl
  | succ rounds => rw [reloadLoop, recycle_of_ne hst, hread]

/-- A push that finds the tail slot in use at once takes the bytes to the disk. -/
theorem pushLoop_closed (h : c.Closed c.tail) (data : Block UInt8) (p : Platform) :
    (data.size = 0 ∧ pushLoop p data.size c data = c) ∨
      (0 < data.size ∧
        pushLoop p data.size c data = (c.startRecording p).1.diskWrite data p) := by
  have hne : (c.slots c.tail).state ≠ .recycle := by
    rcases h with h | h <;> simp [h]
  have hclosed : ¬(c.slots c.tail).available = true := by
    rw [Slot.available_iff]
    rcases h with h | h <;> simp [h]
  cases hsize : data.size with
  | zero => exact Or.inl ⟨rfl, rfl⟩
  | succ m =>
      right
      rw [pushLoop, if_neg (by omega)]
      simp only [recycle_of_ne hne, dif_neg hclosed]
      exact ⟨Nat.succ_pos m, trivial⟩

/-- Nothing of it goes to the ring. -/
theorem pushLoop_closed_sameRing (h : c.Closed c.tail) (data : Block UInt8) (p : Platform) :
    SameRing c (pushLoop p data.size c data) := by
  rcases pushLoop_closed h data p with ⟨-, heq⟩ | ⟨-, heq⟩
  · rw [heq]
    exact .rfl
  · rw [heq]
    exact (c.startRecording_sameRing p).trans (diskWrite_sameRing _ _ _)

/-- Recycling the tail beforehand makes no difference to a push. -/
theorem pushLoop_recycle (data : Block UInt8) (p : Platform) (hpos : 0 < data.size) :
    pushLoop p data.size (c.recycle c.tail) data = pushLoop p data.size c data := by
  have hagain : (c.recycle c.tail).recycle c.tail = c.recycle c.tail :=
    recycle_of_ne (c.recycle_state_ne c.tail)
  obtain ⟨m, hm⟩ : ∃ m, data.size = m + 1 := ⟨data.size - 1, by omega⟩
  rw [hm, pushLoop, pushLoop, recycle_tail, hagain, if_neg (by omega), if_neg (by omega)]

/-! ## Pop and push -/

theorem promote_of_ne (h : (c.slots c.head).state ≠ .part) : c.promote = c := by
  simp [promote, h]

theorem promote_of_part (h : (c.slots c.head).state = .part) : c.promote = { c with
    slots := Function.update c.slots c.head
      ((c.slots c.head).setState .full CacheState.full_closed)
    hRbOffset := (c.slots c.head).offsetEnd
    fslots := c.fslots + 1 } := by
  simp [promote, h]

@[simp] theorem promote_hOffset (c : Cache n) : c.promote.hOffset = c.hOffset := by
  by_cases h : (c.slots c.head).state = .part
  · rw [promote_of_part h]
  · rw [promote_of_ne h]

/-- A pop without a buffer has changed nothing; a pop with one has taken the
slot at the head, and may have refilled the ring after that. -/
theorem pop_cases (c : Cache n) (drain : Bool) (p : Platform) :
    ∃ c₁, c₁ = (if drain then c.promote else c) ∧
      (((c₁.slots c₁.head).state ≠ .full ∧ c.pop drain p = (c₁, none)) ∨
       ((c₁.slots c₁.head).state = .full ∧
        c.pop drain p = (if c₁.isRecording && c₁.isRbMigrated then c₁.take.reload drain p
          else c₁.take, some c₁.slotBuffer))) := by
  refine ⟨_, rfl, ?_⟩
  unfold pop
  dsimp only
  generalize (if drain = true then c.promote else c) = c₁
  by_cases hfull : (c₁.slots c₁.head).state = .full
  · right
    rw [if_pos hfull]
    by_cases hdisk : (c₁.isRecording && c₁.isRbMigrated) = true
    · have : (c₁.take.isRecording && c₁.take.isRbMigrated) = true := hdisk
      simp [hfull, hdisk, this]
    · have : ¬(c₁.take.isRecording && c₁.take.isRbMigrated) = true := hdisk
      simp [hfull, hdisk, this]
  · left
    rw [if_neg hfull]
    exact ⟨hfull, rfl⟩

/-- The slot at the head can be popped. -/
def headReady (c : Cache n) (drain : Bool) : Prop :=
  (c.slots c.head).state = .full ∨ drain = true ∧ (c.slots c.head).state = .part

/-- What the draining part of a pop leaves full at the head could be popped before. -/
theorem headReady_of_full {c₁ : Cache n} {drain : Bool}
    (hc₁ : c₁ = if drain then c.promote else c) (hfull : (c₁.slots c₁.head).state = .full) :
    c.headReady drain := by
  cases drain with
  | false =>
      rw [hc₁, if_neg Bool.false_ne_true] at hfull
      exact Or.inl hfull
  | true =>
      rw [if_pos rfl] at hc₁
      by_cases hpart : (c.slots c.head).state = .part
      · exact Or.inr ⟨rfl, hpart⟩
      · rw [hc₁, promote_of_ne hpart] at hfull
        exact Or.inl hfull

/-- A pop that gives a buffer has found one at the head. -/
theorem pop_headReady {drain : Bool} {b : Buffer n} (hpop : c.pop drain p = (c', some b)) :
    c.headReady drain := by
  rcases c.pop_cases drain p with ⟨c₁, hc₁, ⟨-, heq⟩ | ⟨hfull, -⟩⟩
  · rw [heq] at hpop
    cases hpop
  · exact headReady_of_full hc₁ hfull

/-- What its parts keep, a pop keeps. -/
theorem pop_induct {P : Cache n → Prop} {drain : Bool} (hpromote : ∀ c, P c → P c.promote)
    (htake : ∀ c, (c.slots c.head).state = .full → P c → P c.take)
    (hreload : ∀ c, c.isRecording = true → c.isRbMigrated = true → P c → P (c.reload drain p))
    (h : P c) : P (c.pop drain p).1 := by
  rcases c.pop_cases drain p with ⟨c₁, hc₁, hpop⟩
  have h₁ : P c₁ := by
    rw [hc₁]
    split
    · exact hpromote c h
    · exact h
  rcases hpop with ⟨-, heq⟩ | ⟨hfull, heq⟩
  · rw [heq]
    exact h₁
  · have h₂ := htake c₁ hfull h₁
    rw [heq]
    dsimp only
    split
    · rename_i hdisk
      rw [Bool.and_eq_true] at hdisk
      exact hreload c₁.take hdisk.1 hdisk.2 h₂
    · exact h₂

/-- A push while recording writes to the disk, and refills an empty ring. -/
theorem push_recording (h : c.isRecording) (data : Block UInt8) (p : Platform) :
    c.push data p = if c.fslots = 0 then (c.diskWrite data p).reload false p
      else c.diskWrite data p := by
  have hf := (c.diskWrite_sameRing data p).fslots
  simp only [push, h, if_true, isEmpty, hf, decide_eq_true_eq]

theorem push_ring (h : c.isRecording = false) (data : Block UInt8) (p : Platform) :
    c.push data p = pushLoop p data.size c data := by
  simp [push, h]

/-- A push into the ring stays inside the frame of the ring, and what the ring has no
room for starts the recording and goes to the file. -/
theorem push_frame (h : c.isRecording = false) (data : Block UInt8) (p : Platform) :
    ∃ c₁, RingFrame c c₁ ∧ (c.push data p = c₁ ∨
      ∃ k, c.push data p = (c₁.startRecording p).1.diskWrite (data.drop k) p) := by
  have hrecycle : ∀ (c₁ : Cache n) (σ : List UInt8), RingFrame c c₁ →
      RingFrame c (c₁.recycle c₁.tail) :=
    fun c₁ _ h₁ => h₁.trans (c₁.recycle_frame _)
  have hfill : ∀ (c₁ : Cache n) (σ : List UInt8) (d : Block UInt8) k ha hk, RingFrame c c₁ →
      0 < k → k ≤ d.size → RingFrame c (c₁.fill d k ha hk) :=
    fun c₁ _ d k ha hk h₁ _ _ => h₁.trans (c₁.fill_frame d k ha hk)
  rcases pushLoop_induct (P := fun c₁ _ => RingFrame c c₁) (p := p) hrecycle hfill []
    (Nat.le_refl data.size) RingFrame.rfl with ⟨c₁, k, -, hframe, ⟨-, heq⟩ | ⟨-, -, -, heq⟩⟩
  · exact ⟨c₁, hframe, Or.inl ((push_ring h data p).trans heq)⟩
  · exact ⟨c₁, hframe, Or.inr ⟨k, (push_ring h data p).trans heq⟩⟩

/-- A push does not move the head. -/
theorem push_head (c : Cache n) (data : Block UInt8) (p : Platform) :
    (c.push data p).head = c.head := by
  cases hrec : c.isRecording with
  | false =>
      rcases push_frame hrec data p with ⟨c₁, ⟨_, _, _, _, _, _, rfl⟩, heq | ⟨k, heq⟩⟩
      · rw [heq]
      · rw [heq, (diskWrite_sameRing _ _ _).head, (startRecording_sameRing _ p).head]
  | true =>
      rw [push_recording hrec]
      split
      · rw [reload_head, (c.diskWrite_sameRing data p).head]
      · exact (c.diskWrite_sameRing data p).head

end Cache

end TimeShift
