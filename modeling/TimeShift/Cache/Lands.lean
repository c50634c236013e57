import TimeShift.Cache.Isolation
import TimeShift.Cache.Placed

/-!
# Where a seek lands

`gst_shifter_cache_has_offset` accepts more offsets than a seek can move to: the
bytes from `h_rb_offset` on that are not on the disk yet. `Reachable` is the
part of them that a seek serves, and it is enough to look one buffer ahead:

* `Soon` says that the next buffer to be popped contains the offset, be it in
  the slot at the head already or still to be written there;
* `Placed.seek_soon`: a seek to a `Reachable` offset leads to `Soon`;
* pushes and pops keep `Soon` until that buffer is popped.

The states are those of the runs that never tear the slot of a lagging tail out of the
ring.
-/

set_option linter.unusedSectionVars false

namespace TimeShift

open Bytes Cyclic Machine

namespace Cache

variable {n : ℕ} [NeZero n] {c c' : Cache n} {p : Platform} {L R T o : ℕ} {off : ℕ → ℕ}

/-! ## The head of the ring -/

/-- The slot at the head is full and contains the offset. -/
def AtHead (c : Cache n) (o : ℕ) : Prop :=
  (c.slots c.head).state = .full ∧ (c.slots c.head).contains o = true

/-- The head is at the tail, and the bytes that the tail slot gets, from
`h_rb_offset` on, include the offset: the slot has it already, or it is the
first byte to come, or it is within the slot that an underrun reads. -/
def Awaits (c : Cache n) (o : ℕ) : Prop :=
  c.head = c.tail ∧ c.hRbOffset ≤ o ∧
    (((c.slots c.tail).state = .part ∧ (c.slots c.tail).offset = some c.hRbOffset ∧
        o < c.hRbOffset + (c.slots c.tail).size) ∨
      (((c.slots c.tail).state = .empty ∨ (c.slots c.tail).state = .recycle) ∧
        (o = c.hRbOffset ∨ (c.isRecording = true ∧ o < c.hRbOffset + cacheSlotSize))))

/-- The next buffer to be popped contains the offset. -/
def Soon (c : Cache n) (o : ℕ) : Prop := c.AtHead o ∨ c.Awaits o

/-! ## What keeps the offset at hand -/

/-- A full slot at the head is not touched. -/
theorem AtHead.frozen (h : AtHead c o) (hf : Frozen c c') (hhead : c'.head = c.head) :
    AtHead c' o := by
  have hslot := hf.closed c.head (Or.inl h.1)
  rw [AtHead, hhead, hslot]
  exact h

theorem Awaits.head_not_full (h : Awaits c o) : (c.slots c.head).state ≠ .full := by
  rw [h.1]
  rcases h.2.2 with ⟨hst, -, -⟩ | ⟨hst | hst, -⟩ <;> simp [hst]

theorem Soon.sameRing (h : Soon c o) (hr : SameRing c c')
    (hrec : c.isRecording = true → c'.isRecording = true) : Soon c' o := by
  rcases h with h | ⟨htail, hlow, h⟩
  · exact Or.inl (h.frozen hr.frozen hr.head)
  · right
    rw [Awaits, hr.head, hr.tail, hr.hRbOffset, hr.slots]
    refine ⟨htail, hlow, ?_⟩
    rcases h with hpart | ⟨hst, hfirst | ⟨hrec', hin⟩⟩
    · exact Or.inl hpart
    · exact Or.inr ⟨hst, Or.inl hfirst⟩
    · exact Or.inr ⟨hst, Or.inr ⟨hrec hrec', hin⟩⟩

theorem Soon.recycle (h : Soon c o) : Soon (c.recycle c.tail) o := by
  rcases h with h | ⟨htail, hlow, h⟩
  · left
    refine h.frozen (c.recycle_frozen _) ?_
    rcases c.recycle_frame c.tail with ⟨_, _, _, _, _, _, heq⟩
    rw [heq]
  · right
    by_cases hst : (c.slots c.tail).state = .recycle
    · -- the slot is empty now, and what it is to get is the same
      have hfirst := h.resolve_left (fun hpart => by simp [hst] at hpart)
      simp only [Awaits, Cache.recycle, hst, if_true, Function.update_self]
      exact ⟨htail, hlow, Or.inr ⟨Or.inl rfl, hfirst.2⟩⟩
    · rw [recycle_of_ne hst]
      exact ⟨htail, hlow, h⟩

/-- A whole slot is read into the slot at the tail. -/
theorem Soon.read (h : Soon c o) {k : ℕ}
    (hread : c.diskRead c.tail c.hRbOffset false p k = (c', true)) : Soon c'.advance o := by
  rcases diskRead_true hread with ⟨f, -, havail, -, hsize, -, rfl⟩
  have hne := available_ne havail
  set t := (c.slots c.tail).load (fun j => f.byte (c.rDkPos + j)) c.readSize c.hRbOffset
    c.readSize_le with hdef
  left
  rcases h with h | ⟨htail, hlow, h⟩
  · -- the slot that is read into is another one
    exact h.frozen (frozen_update (i := c.tail) (t := t) rfl hne.1 hne.2 (by simp [hdef])) rfl
  · have hwhole : t.size = cacheSlotSize := hsize.resolve_left (by simp)
    have hin : o < c.hRbOffset + cacheSlotSize := by
      have hpos := cacheSlotSize_pos
      have hle := (c.slots c.tail).size_le
      rcases h with ⟨-, -, hin⟩ | ⟨-, hfirst | ⟨-, hin⟩⟩ <;> omega
    have hspan : t.Spans c.hRbOffset (c.hRbOffset + cacheSlotSize) :=
      ⟨rfl, by rw [hwhole], by omega⟩
    show (Function.update c.slots c.tail t c.head).state = .full ∧
      (Function.update c.slots c.tail t c.head).contains o = true
    rw [htail, Function.update_self]
    exact ⟨rfl, (hspan.contains_iff o).mpr ⟨hlow, hin⟩⟩

/-- A failed read changes at most the memory of the slot. -/
theorem Soon.read_fail (h : Soon c o) {k : ℕ} {drain : Bool}
    (hread : c.diskRead c.tail c.hRbOffset drain p k = (c', false)) : Soon c' o := by
  rcases diskRead_false hread with rfl | ⟨havail, bytes, m, rfl⟩
  · exact h
  · rcases h with h | h
    · left
      have hne := available_ne havail
      exact h.frozen (frozen_update rfl hne.1 hne.2 (by simpa using hne.2)) rfl
    · right
      simpa [Awaits, setSlot] using h

theorem Soon.reload (h : Soon c o) (p : Platform) : Soon (c.reload false p) o :=
  reload_induct (P := fun c => Soon c o) (fun _ h₁ => h₁.recycle)
    (fun _ _ _ h₁ _ hread => h₁.read hread) (fun _ _ _ h₁ hread => h₁.read_fail hread) h

/-- A round of a push while the cache is not recording. -/
theorem Soon.fill (h : Soon c o) (hrec : c.isRecording = false) (data : Block UInt8) {k : ℕ}
    (ha : (c.slots c.tail).available) (hk : k ≤ (c.slots c.tail).room) (hpos : 0 < k) :
    Soon (c.fill data k ha hk) o := by
  have heq := c.fill_eq data k ha hk
  rcases h with h | ⟨htail, hlow, h⟩
  · left
    refine h.frozen (c.fill_frozen data k ha hk) ?_
    rw [heq]
  · -- the offset is among the bytes that the slot holds now
    have hin : o < c.hRbOffset + ((c.slots c.tail).size + k) := by
      rcases h with ⟨-, -, hin⟩ | ⟨-, hfirst | ⟨habs, -⟩⟩
      · omega
      · omega
      · rw [hrec] at habs
        cases habs
    by_cases hfull : (c.slots c.tail).size + k = cacheSlotSize
    · left
      simp only [hfull, if_true] at heq
      rw [AtHead, heq, htail]
      refine ⟨by simp [hfull], ?_⟩
      simp only [Function.update_self, Slot.contains, Slot.offsetEnd, Slot.write_offset,
        Slot.write_size, Offset.le_some, Offset.val_some, Bool.and_eq_true, decide_eq_true_eq]
      exact ⟨hlow, hin⟩
    · right
      simp only [hfull, if_false] at heq
      rw [Awaits, heq]
      refine ⟨htail, hlow, Or.inl ⟨by simp [hfull], by simp, ?_⟩⟩
      simpa using hin

/-- A draining pop takes the bytes that the slot has. -/
theorem Soon.promote (h : Soon c o) : Soon c.promote o := by
  by_cases hst : (c.slots c.head).state = .part
  · rcases h with h | ⟨htail, hlow, h⟩
    · rw [h.1] at hst
      cases hst
    · left
      have hpart := h.resolve_right (fun habs => by simp [← htail, hst] at habs)
      rw [AtHead, promote_of_part hst]
      refine ⟨by simp, ?_⟩
      rw [← htail] at hpart
      simp [Slot.contains, Slot.offsetEnd, hpart.2.1, hlow, hpart.2.2]
  · rw [promote_of_ne hst]
    exact h

theorem pushLoop_soon (h : Soon c o) (hrec : c.isRecording = false) (data : Block UInt8)
    (p : Platform) : Soon (Cache.pushLoop p data.size c data) o := by
  apply pushLoop_rule (P := fun c₁ => Soon c₁ o ∧ c₁.isRecording = false)
    (Q := fun c₁ => Soon c₁ o) ?_ ?_ ?_ ?_ ⟨h, hrec⟩
  · rintro c₁ ⟨h₁, hrec₁⟩
    exact ⟨h₁.recycle, (c₁.recycle_isRecording _).trans hrec₁⟩
  · rintro c₁ d k ha hk ⟨h₁, hrec₁⟩ hpos
    exact ⟨h₁.fill hrec₁ d ha hk hpos, (c₁.fill_isRecording d k ha hk).trans hrec₁⟩
  · rintro c₁ ⟨h₁, -⟩
    exact h₁
  · -- the rest went to the disk, and the ring is as it was
    rintro c₁ d ⟨h₁, hrec₁⟩
    refine h₁.sameRing ((c₁.startRecording_sameRing p).trans (diskWrite_sameRing _ _ _)) ?_
    intro habs
    rw [hrec₁] at habs
    cases habs

theorem Soon.push (h : Soon c o) (data : Block UInt8) (p : Platform) :
    Soon (c.push data p) o := by
  cases hrec : c.isRecording with
  | false =>
      rw [push_ring hrec]
      exact pushLoop_soon h hrec data p
  | true =>
      have hwrite := h.sameRing (c.diskWrite_sameRing data p)
        (fun _ => by rw [diskWrite_isRecording, hrec])
      rw [push_recording hrec]
      split
      · exact hwrite.reload p
      · exact hwrite

/-- A pop returns the buffer that contains the offset, or none yet. -/
theorem Soon.pop (h : Soon c o) (drain : Bool) (p : Platform) :
    ((c.pop drain p).2 = none ∧ Soon (c.pop drain p).1 o) ∨
      ∃ b, (c.pop drain p).2 = some b ∧ b.offset ≤ o ∧ o < b.offsetEnd := by
  rcases c.pop_cases drain p with ⟨c₁, hc₁, hpop⟩
  have h₁ : Soon c₁ o := by
    rw [hc₁]
    split
    · exact h.promote
    · exact h
  rcases hpop with ⟨-, heq⟩ | ⟨hfull, heq⟩
  · left
    rw [heq]
    exact ⟨rfl, h₁⟩
  · right
    have hin : AtHead c₁ o := h₁.resolve_right (fun habs => habs.head_not_full hfull)
    have hcontains := hin.2
    cases hoffset : (c₁.slots c₁.head).offset with
    | none => simp [Slot.contains, hoffset] at hcontains
    | some a =>
        simp only [Slot.contains, hoffset, Offset.le_some, Bool.and_eq_true,
          decide_eq_true_eq] at hcontains
        refine ⟨c₁.slotBuffer, by rw [heq], ?_, hcontains.2⟩
        simpa [slotBuffer, hoffset] using hcontains.1

/-! ## Seeks -/

/-- The offsets that a seek can serve: all that are on the disk or in full slots
of the ring, and those that the slot at the head is about to have. -/
def Reachable (c : Cache n) (o : ℕ) : Prop :=
  c.isDiskUsable = true ∨ o < c.hRbOffset ∨
    (c.head = c.tail ∧
      (((c.slots c.tail).state = .part ∧ o < c.hRbOffset + (c.slots c.tail).size) ∨
        (((c.slots c.tail).state = .empty ∨ (c.slots c.tail).state = .recycle) ∧
          (o = c.hRbOffset ∨ (c.isRecording = true ∧ o < c.hRbOffset + cacheSlotSize)))))

/-- An accepted offset is not moved when it is on the disk or in full slots. -/
theorem clamp_of_hasOffset (h : c.hasOffset o = true)
    (hin : c.isDiskUsable = true ∨ o < c.hRbOffset) : c.clamp o = o := by
  unfold hasOffset at h
  unfold clamp
  by_cases hdisk : c.isDiskUsable = true
  · simp only [hdisk, if_true, Bool.and_eq_true] at h ⊢
    cases hl : c.lDkOffset with
    | none => simp [hl] at h
    | some l =>
        cases hh : c.hDkOffset with
        | none =>
            simp [hl, hh] at h ⊢
            omega
        | some k =>
            simp [hl, hh] at h ⊢
            omega
  · have hlt := hin.resolve_left hdisk
    simp only [hdisk, if_false, Bool.and_eq_true, decide_eq_true_eq, Bool.false_eq_true] at h ⊢
    omega

/-- The ring after a disk seek has flushed it. -/
theorem Placed.flushed (c : Cache n) (r o : ℕ) :
    Placed { c.flush with rDkPos := r, hRbOffset := o, lRbOffset := o } 0 0 (fun _ => o) := by
  refine ⟨⟨Nat.le_refl _, Nat.zero_le _, rfl, rfl, ?_, ?_, ?_⟩, Or.inl rfl,
    Or.inl ⟨0, Nat.le_refl _, Nat.le_refl _, rfl⟩⟩
  · intro q _ hq
    omega
  · intro q _ hq
    omega
  · intro q _ _
    exact Or.inl rfl

/-- A seek to an accepted offset that it can serve has the offset at hand. -/
theorem Placed.seek_soon (h : Placed c L T off) (hpop : NonePopped c)
    (hoff : c.hasOffset o = true) (ho : c.Reachable o) (p : Platform) :
    ∃ c', c.seek o p = some c' ∧ Soon c' o := by
  by_cases hin : c.isDiskUsable = true ∨ o < c.hRbOffset
  · have hclamp := clamp_of_hasOffset hoff hin
    by_cases hring : c.lRbOffset ≤ o ∧ o < c.hRbOffset
    · -- the offset is in the ring
      have hw := h.window
      rcases h.head_of_lt (hw.lt_of_mem hring.1 hring.2) with ⟨R, hLR, hRT, hhead⟩
      rcases hw.seekRing_lands hpop hhead hLR hRT (hw.low ▸ hring.1) (hw.high ▸ hring.2) with
        ⟨m, c', hLm, hmT, hm, hm', hseek, hr, -, hhead', hfull⟩
      refine ⟨c', by rw [seek, hclamp, if_pos hring, hseek], Or.inl ⟨by rw [hhead', hfull], ?_⟩⟩
      rw [hhead']
      exact (hw.gapped.contains_restate hr hLm hmT).mpr ⟨hm, hm'⟩
    · -- the offset is on the disk only
      have hdisk : c.isDiskUsable = true := by
        rcases hin with hdisk | hlt
        · exact hdisk
        · by_contra hdisk
          simp only [hasOffset, hdisk, if_false, Bool.and_eq_true, decide_eq_true_eq] at hoff
          exact hring ⟨hoff.1, hlt⟩
      refine ⟨c.seekDisk o p, by rw [seek, hclamp, if_neg hring, if_pos hdisk], ?_⟩
      exact Soon.reload (Or.inr ⟨rfl, Nat.le_refl _, Or.inr ⟨Or.inl rfl, Or.inl rfl⟩⟩) p
  · -- the seek does nothing, and need not do anything
    rw [not_or] at hin
    rcases ho with hdisk | hlt | ⟨htail, ho⟩
    · exact absurd hdisk hin.1
    · exact absurd hlt hin.2
    · have hlow := h.window.low_le_high
      have hge : c.hRbOffset ≤ o := Nat.le_of_not_lt hin.2
      have hclamp : c.clamp o = c.hRbOffset := by
        simp only [clamp, hin.1, if_false, Bool.false_eq_true]
        omega
      refine ⟨c, ?_, Or.inr ⟨htail, hge, ?_⟩⟩
      · rw [seek, hclamp, if_neg (by omega), if_neg hin.1]
      · rcases ho with ⟨hst, hlt⟩ | hrest
        · have hspan := h.window.head_part (by rw [htail]; exact hst)
          rcases hspan with ⟨-, -, -, b, hspan⟩
          refine Or.inl ⟨hst, ?_, hlt⟩
          rw [← htail, hspan.1, h.window.high]
        · exact Or.inr hrest

/-! ## The slot of a lagging tail -/

theorem Drained.sameRing (h : c'.Drained) (hr : SameRing c c') : c.Drained := by
  rw [Drained, hr.slots, hr.tail, hr.hRbOffset] at h
  exact h

theorem Torn.sameRing (h : c'.Torn) (hr : SameRing c c') : c.Torn := by
  refine ⟨h.1.sameRing hr, ?_⟩
  have hne := h.2
  rw [hr.slots, hr.tail, hr.lRbOffset] at hne
  exact hne

/-- Taking the slot at the head does not touch a slot that has been released. -/
theorem Drained.take_slot (h : c.take.Drained) : c.take.slots c.take.tail = c.slots c.tail := by
  have hne : c.tail ≠ c.head := by
    intro heq
    have hst := h.2.1
    rw [show c.take.tail = c.head from heq] at hst
    simp [Cache.take] at hst
  exact Function.update_of_ne hne _ _

/-- A slot that has just been taken is still in use. -/
theorem Drained.take (h : c.take.Drained) : c.Drained := by
  have hslot := h.take_slot
  rcases h with ⟨hn, hst, hend⟩
  rw [hslot] at hst hend
  exact ⟨hn, hst, hend⟩

theorem Torn.take (h : c.take.Torn) : c.Torn := by
  refine ⟨h.1.take, ?_⟩
  have hne := h.2
  rw [h.1.take_slot] at hne
  exact hne

/-- The slot that a draining pop completes is the one at the tail. -/
theorem Window.promote_not_drained (h : Window c L T off) (hst : (c.slots c.head).state = .part) :
    ¬c.promote.Drained := by
  rcases h.head_part hst with ⟨-, hhead, htail, -⟩
  rintro ⟨-, hrec, -⟩
  rw [promote_of_part hst] at hrec
  simp [htail, ← hhead] at hrec

end Cache

/-! ## Runs -/

namespace Session

open Cache

variable {n : ℕ} [NeZero n] {s s' : Session n} {p : Platform} {o : ℕ}

/-- The step looks for room in the slot at the tail. -/
def looksForRoom (s : Session n) : Label → Prop
  | (.push data, _) => if s.cache.isRecording then s.cache.fslots = 0 else 0 < data.size
  | (.pop _, _) => s.cache.isDiskUsable = true ∧ (s.cache.slots s.cache.head).state = .full
  | (.reload _, _) => True
  | _ => False

/-- The step does not tear the slot of a lagging tail out of the ring: it does not look
for room at the tail, or the tail does not lag, or its slot is in use, or it is the only
one in use. -/
def noReuse (s : Session n) (l : Label) : Prop :=
  s.looksForRoom l → ¬s.cache.Torn

/-- A pop that reloads with a slot at the tail that lags has found it so. -/
theorem drained_of_pop {L T : ℕ} {off : ℕ → ℕ} (h : Window s.cache L T off) {drain : Bool}
    {c₁ : Cache n} (hc₁ : c₁ = if drain then s.cache.promote else s.cache)
    (hdisk : (c₁.isRecording && c₁.isRbMigrated) = true)
    (hfull : (c₁.slots c₁.head).state = .full) (hd : c₁.Drained) :
    c₁ = s.cache ∧ s.looksForRoom (.pop drain, p) := by
  by_cases hst : (s.cache.slots s.cache.head).state = .part
  · cases drain with
    | false =>
        rw [hc₁] at hfull
        simp [hst] at hfull
    | true =>
        rw [hc₁] at hd
        exact absurd hd (h.promote_not_drained hst)
  · have hsame : c₁ = s.cache := by
      rw [hc₁, promote_of_ne hst, ite_self]
    rw [hsame] at hdisk hfull
    exact ⟨hsame, hdisk, hfull⟩

/-- The ring of a session is a window with its head and tail in place. -/
def InPlace (s : Session n) : Prop := ∃ L T off, Placed s.cache L T off

namespace InPlace

theorem of_init (memory : Fin n → ℕ → UInt8) (file : Option File) :
    InPlace (init n memory file) :=
  ⟨0, 0, _, .of_new memory file⟩

theorem push (h : InPlace s) {data : Block UInt8} (hok : noReuse s (.push data, p)) :
    ∃ L T off, Placed (s.cache.push data p) L T off := by
  rcases h with ⟨L, T, off, h⟩
  cases hrec : s.cache.isRecording with
  | false =>
      simp only [noReuse, looksForRoom, hrec, Bool.false_eq_true, if_false] at hok
      rw [push_ring hrec]
      rcases Nat.eq_zero_or_pos data.size with hzero | hpos
      · rw [hzero]
        exact ⟨L, T, off, h⟩
      · exact h.pushLoop (hok hpos) hpos p
  | true =>
      simp only [noReuse, looksForRoom, hrec, if_true] at hok
      have hsame := s.cache.diskWrite_sameRing data p
      rw [push_recording hrec]
      split
      · rename_i hempty
        exact (h.sameRing hsame).reload (fun ht => hok hempty (ht.sameRing hsame)) false p
      · exact ⟨L, T, off, h.sameRing hsame⟩

theorem pop (h : InPlace s) {drain : Bool} (hok : noReuse s (.pop drain, p)) :
    ∃ L T off, Placed (s.cache.pop drain p).1 L T off := by
  rcases h with ⟨L, T, off, h⟩
  rcases s.cache.pop_cases drain p with ⟨c₁, hc₁, hpop⟩
  -- the cache after the draining part of the pop
  have hplaced : ∃ T' off', Placed c₁ L T' off' := by
    rw [hc₁]
    split
    · exact h.promote
    · exact ⟨T, off, h⟩
  rcases hplaced with ⟨T', off', h₁⟩
  rcases hpop with ⟨-, hpop⟩ | ⟨hfull, hpop⟩
  · rw [hpop]
    exact ⟨L, T', off', h₁⟩
  · rw [hpop]
    dsimp only
    split
    · rename_i hdisk
      refine (h₁.take hfull).reload ?_ drain p
      intro htorn
      have hlag := drained_of_pop (p := p) h.window hc₁ hdisk hfull htorn.take.1
      exact hok hlag.2 (hlag.1 ▸ htorn.take)
    · exact ⟨L, T', off', h₁.take hfull⟩

theorem seek (h : InPlace s) (hlive : LiveOk s.cache []) {c : Cache n}
    (hseek : s.cache.seek o p = some c) : ∃ L T off, Placed c L T off := by
  rcases h with ⟨L, T, off, h⟩
  rcases seek_cases hseek with ⟨hlow, hhigh, hring⟩ | ⟨-, -, rfl⟩ | ⟨-, -, rfl⟩
  · -- the head moves within the window
    have hw := h.window
    rcases h.head_of_lt (hw.lt_of_mem hlow hhigh) with ⟨R, hLR, hRT, hhead⟩
    rcases hw.seekRing_lands (liveOk_nil.mp hlive) hhead hLR hRT (hw.low ▸ hlow)
      (hw.high ▸ hhigh) with ⟨m, c', hLm, hmT, -, -, heq, hr, -, hhead', -⟩
    rw [hring] at heq
    cases heq
    exact ⟨L, T, off, h.restate hr hLm (by omega) hhead'⟩
  · -- the ring is flushed, and its tail does not lag
    refine (Placed.flushed s.cache _ _).reload ?_ false p
    rintro ⟨⟨-, hst, -⟩, -⟩
    cases hst
  · exact ⟨L, T, off, h⟩

theorem step (h : InPlace s) (hlive : LiveOk s.cache s.live) {l : Label} (hok : noReuse s l)
    (hs : s.step l = some s') : InPlace s' := by
  rcases l with ⟨op, p⟩
  cases op with
  | push data =>
      rw [step_push hs]
      exact h.push hok
  | pop drain =>
      rw [step_pop hs, InPlace, afterPop_cache]
      exact h.pop hok
  | release k =>
      rcases step_release hs with ⟨b, hb, rfl⟩
      rcases h with ⟨L, T, off, h⟩
      have hstate := hlive.state (List.mem_of_getElem? hb)
      exact ⟨L, T, off, h.keepHead (release_restate hstate) rfl⟩
  | seek offset =>
      rcases step_seek hs with ⟨hnone, c, hc, rfl⟩
      exact h.seek (hnone ▸ hlive) hc
  | startRecording =>
      rw [step_startRecording hs]
      rcases h with ⟨L, T, off, h⟩
      exact ⟨L, T, off, h.sameRing (s.cache.startRecording_sameRing p)⟩
  | migrate =>
      rw [step_migrate hs]
      rcases h with ⟨L, T, off, h⟩
      exact ⟨L, T, off, h.sameRing (s.cache.migrationThread_sameRing p)⟩
  | reload drain =>
      rw [step_reload hs]
      rcases h with ⟨L, T, off, h⟩
      exact h.reload (hok trivial) drain p

end InPlace

theorem reach_inPlace {memory : Fin n → ℕ → UInt8} {file : Option File}
    (h : Reach Session.step noReuse (init n memory file) s) :
    InPlace s ∧ LiveOk s.cache s.live :=
  h.invariant (P := fun s => InPlace s ∧ LiveOk s.cache s.live)
    ⟨.of_init memory file, init_liveOk memory file⟩
    fun _ _ _ hinv hok hs => ⟨hinv.1.step hinv.2 hok hs, step_liveOk hinv.2 hs⟩

/-! ## The first buffer after a seek -/

/-- Writing and reading, whatever the platform answers. -/
def streaming (_ : Session n) : Label → Prop
  | (.push _, _) | (.pop _, _) | (.release _, _) => True
  | _ => False

/-- Of the buffers popped since `popped`, the first one, when there is one,
contains the offset. -/
def FirstContains (popped : List (Buffer n)) (o : ℕ) (s : Session n) : Prop :=
  (s.popped = popped ∧ s.live = [] ∧ Soon s.cache o) ∨
    ∃ b bs, s.popped = popped ++ b :: bs ∧ b.offset ≤ o ∧ o < b.offsetEnd

theorem FirstContains.step {popped : List (Buffer n)} (h : FirstContains popped o s) {l : Label}
    (hl : streaming s l) (hs : s.step l = some s') : FirstContains popped o s' := by
  apply first_step (W := fun c => Soon c o) h hs
  · intro offset hop
    rcases l with ⟨op, p⟩
    cases hop
    exact hl
  · intro drain hsoon
    exact hsoon.pop drain l.2
  · intro hop hrel hsoon
    rcases l with ⟨op, p⟩
    cases op with
    | push data =>
        rw [step_push hs]
        exact hsoon.push data p
    | pop drain => exact absurd rfl (hop drain)
    | release k => exact absurd rfl (hrel k)
    | _ => cases hl

/-- In every run that never tears the slot of a lagging tail out of the ring, a seek to an
accepted offset that it can serve succeeds, and the first buffer popped
afterwards contains that offset, whatever is pushed meanwhile. -/
theorem seek_lands {memory : Fin n → ℕ → UInt8} {file : Option File}
    (h : Reach Session.step noReuse (init n memory file) s) (hlive : s.live = [])
    (hoff : s.cache.hasOffset o = true) (ho : s.cache.Reachable o) (p : Platform) :
    ∃ s₁, s.step (.seek o, p) = some s₁ ∧
      ∀ s₂, Reach Session.step streaming s₁ s₂ → ∀ b bs, s₂.popped = s₁.popped ++ b :: bs →
        b.offset ≤ o ∧ o < b.offsetEnd := by
  rcases reach_inPlace h with ⟨⟨L, T, off, hplaced⟩, hok⟩
  rw [hlive] at hok
  rcases hplaced.seek_soon (liveOk_nil.mp hok) hoff ho p with ⟨c, hseek, hsoon⟩
  have hstep : s.step (.seek o, p) =
      some { s with cache := c, readPos := s.cache.seekPos o s.readPos } := by
    simp only [step, hlive, List.isEmpty_nil, if_true, hseek]
  refine ⟨_, hstep, ?_⟩
  intro s₂ hs₂ b bs hpopped
  have hfirst : FirstContains s.popped o s₂ :=
    hs₂.invariant (P := FirstContains s.popped o) (Or.inl ⟨rfl, hlive, hsoon⟩)
      fun _ _ _ hinv hl hs => hinv.step hl hs
  exact first_popped (hfirst.imp_left fun hbefore => hbefore.1) hpopped

/-- Two slots have been read and given back, and the seek goes back over both of them. -/
theorem seek_lands_back : ∃ s : Session 4,
    Reach Session.step noReuse (init 4 (fun _ _ => 0) none) s ∧
      s.readPos = 2 * cacheSlotSize ∧ ∃ s₁, s.step (.seek 7, .allOk) = some s₁ ∧
        ∀ s₂, Reach Session.step streaming s₁ s₂ → ∀ b bs, s₂.popped = s₁.popped ++ b :: bs →
          b.offset ≤ 7 ∧ 7 < b.offsetEnd := by
  have h₀ : Reach Session.step noReuse (init 4 (fun _ _ => 0) none) _ := .refl
  have h₁ := h₀.extend (.push ⟨3 * cacheSlotSize + 1, fun _ => 7⟩, .allOk)
    (fun _ htorn => nomatch htorn.1.2.1) rfl
  have h₂ := h₁.extend (.pop false, .allOk)
    (fun hroom => absurd hroom.1 Bool.false_ne_true) rfl
  have h₃ := h₂.extend (.pop false, .allOk)
    (fun hroom => absurd hroom.1 Bool.false_ne_true) rfl
  have h₄ := h₃.extend (.release 0, .allOk) False.elim rfl
  have h₅ := h₄.extend (.release 0, .allOk) False.elim rfl
  exact ⟨_, h₅, rfl, seek_lands h₅ rfl (by decide) (Or.inr (Or.inl (by decide))) .allOk⟩

/-- One byte more than a slot holds is pushed, and a seek to that byte is
accepted: the next pop returns the first slot. -/
theorem accepted_seek_misses :
    ¬∀ (s : Session 2) (o : ℕ) (p : Platform),
      Reach Session.step (fun _ _ => True) (init 2 (fun _ _ => 0) none) s → s.live = [] →
      s.cache.hasOffset o = true → ∃ s₁, s.step (.seek o, p) = some s₁ ∧
        ∀ s₂, Reach Session.step streaming s₁ s₂ → ∀ b bs, s₂.popped = s₁.popped ++ b :: bs →
          b.offset ≤ o ∧ o < b.offsetEnd := by
  intro hall
  have h₀ : Reach Session.step (fun _ _ => True) (init 2 (fun _ _ => 0) none) _ := .refl
  have h₁ := h₀.extend (.push ⟨cacheSlotSize + 1, fun _ => 7⟩, .allOk) trivial rfl
  rcases hall _ cacheSlotSize .allOk h₁ rfl (by decide) with ⟨s₁, hs₁, hfirst⟩
  cases hs₁
  -- the byte would be in the buffer of the first slot
  have hpop := hfirst _ (Reach.refl.extend (.pop false, .allOk) trivial rfl) _ [] rfl
  have hend : cacheSlotSize < cacheSlotSize := hpop.2
  exact absurd hend (Nat.lt_irrefl _)

end Session

end TimeShift
