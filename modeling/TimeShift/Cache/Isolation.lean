import Mathlib.Data.List.Nodup
import TimeShift.Cache.Effects
import TimeShift.Cache.Session

/-!
# Popped buffers are isolated from the cache

A popped buffer wraps the memory of its slot, and five functions write slots.
What keeps them apart is the state word alone:

* `Frozen` says that full and popped slots are left as they are; filling,
  recycling and reading slots are all frozen steps, in whatever order;
* `LiveOk` ties the popped slots to the buffers that are still alive; a frozen
  step, the taking of a slot and a release keep it, and so does a seek, which is
  made with no buffer alive;
* `zero_copy_isolation` puts the two together for every run.
-/

set_option linter.unusedSectionVars false

namespace TimeShift

open Bytes Machine

/-- The bytes of a slot and their place in the stream are the same. -/
def Slot.SameBytes (s t : Slot) : Prop :=
  t.offset = s.offset ∧ t.size = s.size ∧ t.data = s.data

variable {n : ℕ} [NeZero n]

/-- The buffer shows exactly what its slot holds. -/
def Buffer.Wraps (b : Buffer n) (c : Cache n) : Prop :=
  (c.slots b.slot).data = b.data ∧ (c.slots b.slot).size = b.size ∧
    (c.slots b.slot).offset.val = b.offset ∧ (c.slots b.slot).offsetEnd = b.offsetEnd

namespace Cache

variable {c c' : Cache n} {p : Platform}

/-! ## Full and popped slots -/

/-- Full and popped slots are left as they are, and no slot becomes popped. -/
structure Frozen (c c' : Cache n) : Prop where
  closed : ∀ i, (c.slots i).state = .full ∨ (c.slots i).state = .pop →
    c'.slots i = c.slots i
  pop : ∀ i, (c'.slots i).state = .pop → (c.slots i).state = .pop

theorem Frozen.rfl : Frozen c c := ⟨fun _ _ => Eq.refl _, fun _ h => h⟩

theorem Frozen.trans {c'' : Cache n} (h : Frozen c c') (h' : Frozen c' c'') :
    Frozen c c'' := by
  constructor
  · intro i hi
    have heq := h.closed i hi
    rw [h'.closed i (by rw [heq]; exact hi), heq]
  · intro i hi
    exact h.pop i (h'.pop i hi)

theorem SameRing.frozen (h : SameRing c c') : Frozen c c' := by
  constructor
  · intro i _
    rw [h.slots]
  · intro i hi
    rw [h.slots] at hi
    exact hi

/-- Writing one slot that is neither full nor popped is a frozen step. -/
theorem frozen_update {i : Fin n} {t : Slot} (hslots : c'.slots = Function.update c.slots i t)
    (hfull : (c.slots i).state ≠ .full) (hpop : (c.slots i).state ≠ .pop)
    (ht : t.state ≠ .pop) : Frozen c c' := by
  constructor
  · intro j hj
    have hne : j ≠ i := by
      rintro rfl
      rcases hj with hj | hj
      · exact hfull hj
      · exact hpop hj
    rw [hslots, Function.update_of_ne hne]
  · rw [hslots, Function.forall_update_iff c.slots fun j s =>
      s.state = .pop → (c.slots j).state = .pop]
    exact ⟨fun hj => absurd hj ht, fun j _ hj => hj⟩

/-- An available slot is neither full nor popped. -/
theorem available_ne {i : Fin n} (h : (c.slots i).available) :
    (c.slots i).state ≠ .full ∧ (c.slots i).state ≠ .pop := by
  rw [Slot.available_iff] at h
  rcases h with h | h <;> simp [h]

theorem recycle_frozen (c : Cache n) (i : Fin n) : Frozen c (c.recycle i) := by
  by_cases h : (c.slots i).state = .recycle
  · have hslots : (c.recycle i).slots = Function.update c.slots i (c.slots i).reset := by
      simp [recycle, h]
    exact frozen_update hslots (by simp [h]) (by simp [h]) (by simp)
  · rw [recycle_of_ne h]
    exact .rfl

theorem fill_frozen (c : Cache n) (data : Block UInt8) (k : ℕ)
    (h : (c.slots c.tail).available) (hk : k ≤ (c.slots c.tail).room) :
    Frozen c (c.fill data k h hk) := by
  obtain ⟨hfull, hpop⟩ := available_ne h
  refine frozen_update (i := c.tail) (t := ((c.slots c.tail).write data.byte k c.hRbOffset h hk).1)
    (c.fill_slots data k h hk) hfull hpop ?_
  rw [Slot.write_state]
  split <;> simp

theorem reload_frozen (c : Cache n) (drain : Bool) (p : Platform) :
    Frozen c (c.reload drain p) := by
  refine reload_induct (P := Frozen c) ?_ ?_ ?_ .rfl
  · intro c₁ h₁
    exact h₁.trans (c₁.recycle_frozen _)
  · -- a slot is filled from the disk: it was open
    intro c₁ c₂ k h₁ _ hread
    obtain ⟨f, -, havail, -, -, -, rfl⟩ := diskRead_true hread
    obtain ⟨hfull, hpop⟩ := available_ne havail
    have hload : Frozen c₁ (advance { c₁ with
        slots := Function.update c₁.slots c₁.tail ((c₁.slots c₁.tail).load
          (fun j => f.byte (c₁.rDkPos + j)) c₁.readSize c₁.hRbOffset c₁.readSize_le)
        rDkPos := c₁.rDkPos + c₁.readSize }) :=
      frozen_update rfl hfull hpop (by simp)
    exact h₁.trans hload
  · -- a read failed: the slot is still open
    intro c₁ c₂ k h₁ hread
    rcases diskRead_false hread with rfl | ⟨havail, bytes, m, rfl⟩
    · exact h₁
    · obtain ⟨hfull, hpop⟩ := available_ne havail
      exact h₁.trans (frozen_update rfl hfull hpop (by simpa using hpop))

theorem push_frozen (c : Cache n) (data : Block UInt8) (p : Platform) :
    Frozen c (c.push data p) := by
  cases hrec : c.isRecording with
  | true =>
      have hwrite := (c.diskWrite_sameRing data p).frozen
      rw [push_recording hrec]
      split
      · exact hwrite.trans (reload_frozen _ _ _)
      · exact hwrite
  | false =>
      rw [push_ring hrec]
      apply pushLoop_rule (P := Frozen c) (Q := Frozen c) ?_ ?_ ?_ ?_ .rfl
      · intro c₁ h₁
        exact h₁.trans (c₁.recycle_frozen _)
      · intro c₁ d k h hk h₁ _
        exact h₁.trans (c₁.fill_frozen d k h hk)
      · intro c₁ h₁
        exact h₁
      · -- the rest of the bytes went to the disk
        intro c₁ d h₁
        exact (h₁.trans (c₁.startRecording_sameRing p).frozen).trans
          (diskWrite_sameRing _ _ _).frozen

theorem promote_frozen (c : Cache n) : Frozen c c.promote := by
  by_cases h : (c.slots c.head).state = .part
  · have hslots : c.promote.slots =
        Function.update c.slots c.head
          ((c.slots c.head).setState .full CacheState.full_closed) := by
      simp [promote, h]
    exact frozen_update hslots (by simp [h]) (by simp [h]) (by simp)
  · have heq : c.promote = c := by simp [promote, h]
    rw [heq]
    exact .rfl

/-- A pop is frozen steps and at most one taking of a full slot. -/
theorem pop_frozen (c : Cache n) (drain : Bool) (p : Platform) :
    ∃ c₁, Frozen c c₁ ∧
      (((c.pop drain p).2 = none ∧ (c.pop drain p).1 = c₁) ∨
       ((c₁.slots c₁.head).state = .full ∧ (c.pop drain p).2 = some c₁.slotBuffer ∧
        Frozen c₁.take (c.pop drain p).1)) := by
  obtain ⟨c₁, hc₁, hpop⟩ := c.pop_cases drain p
  have hfrozen : Frozen c c₁ := by
    rw [hc₁]
    split
    · exact c.promote_frozen
    · exact .rfl
  refine ⟨c₁, hfrozen, ?_⟩
  rcases hpop with ⟨-, heq⟩ | ⟨hfull, heq⟩
  · exact Or.inl (by simp [heq])
  · refine Or.inr ⟨hfull, by simp [heq], ?_⟩
    rw [heq]
    split
    · exact reload_frozen _ _ _
    · exact .rfl

/-! ## The live buffers -/

/-- The popped slots are those of the live buffers, one each, and every live
buffer still shows what its slot holds. -/
structure LiveOk (c : Cache n) (live : List (Buffer n)) : Prop where
  nodup : (live.map Buffer.slot).Nodup
  pop_iff : ∀ i, (c.slots i).state = .pop ↔ ∃ b ∈ live, b.slot = i
  intact : ∀ b ∈ live, b.Wraps c

variable {live : List (Buffer n)}

theorem LiveOk.state (h : LiveOk c live) {b : Buffer n} (hb : b ∈ live) :
    (c.slots b.slot).state = .pop :=
  (h.pop_iff _).mpr ⟨b, hb, rfl⟩

theorem liveOk_nil : LiveOk c [] ↔ ∀ i, (c.slots i).state ≠ .pop := by
  constructor
  · intro h i hi
    obtain ⟨b, hb, -⟩ := (h.pop_iff i).mp hi
    cases hb
  · intro h
    exact ⟨List.nodup_nil, fun i => by simp [h i], fun b hb => by cases hb⟩

theorem LiveOk.frozen (h : LiveOk c live) (hf : Frozen c c') : LiveOk c' live := by
  -- the slot of a live buffer is popped, and such a slot is left alone
  have hslot : ∀ b ∈ live, c'.slots b.slot = c.slots b.slot :=
    fun b hb => hf.closed _ (Or.inr (h.state hb))
  refine ⟨h.nodup, ?_, ?_⟩
  · intro i
    constructor
    · intro hi
      exact (h.pop_iff i).mp (hf.pop i hi)
    · rintro ⟨b, hb, rfl⟩
      rw [hslot b hb]
      exact h.state hb
  · intro b hb
    unfold Buffer.Wraps
    rw [hslot b hb]
    exact h.intact b hb

/-- A popped slot was full before, so none of the live buffers had it. -/
theorem LiveOk.take (h : LiveOk c live) (hfull : (c.slots c.head).state = .full) :
    LiveOk c.take (live ++ [c.slotBuffer]) := by
  have hother : ∀ b ∈ live, b.slot ≠ c.head := by
    intro b hb heq
    have := h.state hb
    rw [heq, hfull] at this
    cases this
  constructor
  · rw [List.map_append, List.nodup_append]
    refine ⟨h.nodup, by simp, ?_⟩
    intro i hi j hj
    obtain ⟨b, hb, rfl⟩ := List.mem_map.mp hi
    simp only [List.map_cons, List.map_nil, List.mem_singleton] at hj
    rw [hj]
    exact hother b hb
  · intro i
    by_cases hi : i = c.head
    · subst hi
      exact iff_of_true (by simp [Cache.take]) ⟨c.slotBuffer, by simp, rfl⟩
    · have hslot : c.take.slots i = c.slots i := by simp [Cache.take, hi]
      rw [hslot, h.pop_iff i]
      constructor
      · rintro ⟨b, hb, hbi⟩
        exact ⟨b, by simp [hb], hbi⟩
      · rintro ⟨b, hb, hbi⟩
        rcases List.mem_append.mp hb with hb | hb
        · exact ⟨b, hb, hbi⟩
        · rw [List.mem_singleton.mp hb] at hbi
          exact absurd hbi.symm hi
  · intro b hb
    rcases List.mem_append.mp hb with hb | hb
    · have hslot : c.take.slots b.slot = c.slots b.slot := by
        simp [Cache.take, hother b hb]
      unfold Buffer.Wraps
      rw [hslot]
      exact h.intact b hb
    · rw [List.mem_singleton.mp hb]
      simp [Buffer.Wraps, Cache.take, slotBuffer, Slot.offsetEnd]

/-- When all slots are different, the buffers that stay are those with another slot. -/
theorem mem_eraseIdx_slot (hnodup : (live.map Buffer.slot).Nodup) {k : ℕ} {b : Buffer n}
    (hb : live[k]? = some b) (b' : Buffer n) :
    b' ∈ live.eraseIdx k ↔ b' ∈ live ∧ b'.slot ≠ b.slot := by
  obtain ⟨hk, rfl⟩ := List.getElem?_eq_some_iff.mp hb
  rw [List.mem_eraseIdx_iff_getElem]
  constructor
  · rintro ⟨i, hi, hik, rfl⟩
    refine ⟨List.getElem_mem _, fun heq => hik ?_⟩
    have hinj := List.nodup_iff_injective_get.mp hnodup
    have := @hinj ⟨i, by simpa using hi⟩ ⟨k, by simpa using hk⟩ (by simpa using heq)
    simpa using this
  · rintro ⟨hb', hne⟩
    obtain ⟨i, hi, rfl⟩ := List.getElem_of_mem hb'
    exact ⟨i, hi, fun hik => hne (by subst hik; rfl), rfl⟩

theorem LiveOk.release (h : LiveOk c live) {k : ℕ} {b : Buffer n} (hb : live[k]? = some b) :
    LiveOk (c.release b.slot) (live.eraseIdx k) := by
  have hmem := mem_eraseIdx_slot h.nodup hb
  constructor
  · exact h.nodup.sublist ((List.eraseIdx_sublist live k).map _)
  · intro i
    by_cases hi : i = b.slot
    · subst hi
      refine iff_of_false (by simp [Cache.release, setSlot]) ?_
      rintro ⟨b', hb', heq⟩
      exact ((hmem b').mp hb').2 heq
    · have hslot : (c.release b.slot).slots i = c.slots i := by
        simp [Cache.release, setSlot, hi]
      rw [hslot, h.pop_iff i]
      constructor
      · rintro ⟨b', hb', rfl⟩
        exact ⟨b', (hmem b').mpr ⟨hb', hi⟩, rfl⟩
      · rintro ⟨b', hb', rfl⟩
        exact ⟨b', ((hmem b').mp hb').1, rfl⟩
  · intro b' hb'
    obtain ⟨hlive, hne⟩ := (hmem b').mp hb'
    have hslot : (c.release b.slot).slots b'.slot = c.slots b'.slot := by
      simp [Cache.release, setSlot, hne]
    unfold Buffer.Wraps
    rw [hslot]
    exact h.intact b' hlive

/-- No part of a seek hands out a slot. -/
theorem seek_pop {offset : ℕ} (hseek : c.seek offset p = some c') :
    ∀ i, (c'.slots i).state = .pop → (c.slots i).state = .pop := by
  -- no state word that is set here is that of a popped slot
  have hset : ∀ (c₁ : Cache n) i (st : CacheState) hst, st ≠ .pop →
      (∀ j, (c₁.slots j).state = .pop → (c.slots j).state = .pop) →
      ∀ j, (Function.update c₁.slots i ((c₁.slots i).setState st hst) j).state = .pop →
        (c.slots j).state = .pop := by
    intro c₁ i st hst hne hc
    rw [Function.forall_update_iff c₁.slots fun j s =>
      s.state = .pop → (c.slots j).state = .pop]
    exact ⟨fun hj => absurd hj hne, fun j _ => hc j⟩
  rcases seek_cases hseek with ⟨-, -, hring⟩ | ⟨-, -, rfl⟩ | ⟨-, -, rfl⟩
  · refine seekRing_induct
      (P := fun c₁ => ∀ i, (c₁.slots i).state = .pop → (c.slots i).state = .pop) ?_ ?_ ?_ hring
      (fun i hi => hi)
    · intro c₁ i hc
      by_cases hfull : (c₁.slots i).state = .full
      · simpa [rollforward, hfull] using hset c₁ i .recycle CacheState.recycle_closed (by simp) hc
      · simpa [rollforward, hfull] using hc
    · intro c₁ i hc
      by_cases hrec : (c₁.slots i).state = .recycle
      · simpa [rollback, hrec] using hset c₁ i .full CacheState.full_closed (by simp) hc
      · simpa [rollback, hrec] using hc
    · intro c₁ i hc
      exact hc
  · -- everything is flushed, and a reload fills slots only
    intro i hi
    have := (reload_frozen _ false p).pop i hi
    simp [flush] at this
  · exact fun i hi => hi

theorem LiveOk.seek (h : LiveOk c []) {offset : ℕ} (hseek : c.seek offset p = some c') :
    LiveOk c' [] := by
  rw [liveOk_nil] at h ⊢
  intro i hi
  exact h i (seek_pop hseek i hi)

end Cache

/-! ## Runs -/

namespace Session

open Cache

variable {s s' : Session n}

theorem init_liveOk (memory : Fin n → ℕ → UInt8) (file : Option File) :
    LiveOk (init n memory file).cache (init n memory file).live :=
  liveOk_nil.mpr (by simp [init, ofCache, Cache.new])

theorem pop_liveOk (h : LiveOk s.cache s.live) (drain : Bool) (p : Platform) :
    LiveOk (s.afterPop (s.cache.pop drain p)).cache (s.afterPop (s.cache.pop drain p)).live := by
  obtain ⟨c₁, hfrozen, hres⟩ := s.cache.pop_frozen drain p
  generalize s.cache.pop drain p = r at hres ⊢
  obtain ⟨c₂, b⟩ := r
  rcases hres with ⟨hnone, heq⟩ | ⟨hfull, hsome, hafter⟩
  · cases hnone
    cases heq
    exact h.frozen hfrozen
  · cases hsome
    exact ((h.frozen hfrozen).take hfull).frozen hafter

theorem step_liveOk (h : LiveOk s.cache s.live) {l : Label} (hs : s.step l = some s') :
    LiveOk s'.cache s'.live := by
  obtain ⟨op, p⟩ := l
  cases op with
  | push data =>
      rw [step_push hs]
      exact h.frozen (s.cache.push_frozen data p)
  | pop drain =>
      rw [step_pop hs]
      exact pop_liveOk h drain p
  | release k =>
      obtain ⟨b, hb, rfl⟩ := step_release hs
      exact h.release hb
  | seek offset =>
      obtain ⟨hlive, c, hc, rfl⟩ := step_seek hs
      rw [hlive] at h
      simpa [hlive] using h.seek hc
  | startRecording =>
      rw [step_startRecording hs]
      exact h.frozen (s.cache.startRecording_sameRing p).frozen
  | migrate =>
      rw [step_migrate hs]
      exact h.frozen (s.cache.migrationThread_sameRing p).frozen
  | reload drain =>
      rw [step_reload hs]
      exact h.frozen (s.cache.reload_frozen drain p)

/-- In every state reached, the live buffers own their slots. -/
theorem reach_liveOk {ok : Session n → Label → Prop} {memory : Fin n → ℕ → UInt8}
    {file : Option File} (h : Reach step ok (init n memory file) s) :
    LiveOk s.cache s.live :=
  h.invariant (P := fun s => LiveOk s.cache s.live) (init_liveOk memory file)
    fun _ _ _ hinv _ hs => step_liveOk hinv hs

/-- A step leaves the slot of a live buffer alone, unless it releases it. -/
theorem step_live_slot (h : LiveOk s.cache s.live) {l : Label} (hs : s.step l = some s')
    {b : Buffer n} (hb : b ∈ s.live) :
    (∃ k, l.1 = .release k ∧ s.live[k]? = some b) ∨
      (b ∈ s'.live ∧ s'.cache.slots b.slot = s.cache.slots b.slot) := by
  have hclosed : ∀ {c : Cache n}, Frozen s.cache c →
      c.slots b.slot = s.cache.slots b.slot :=
    fun hf => hf.closed _ (Or.inr (h.state hb))
  obtain ⟨op, p⟩ := l
  cases op with
  | push data =>
      rw [step_push hs]
      exact Or.inr ⟨hb, hclosed (s.cache.push_frozen data p)⟩
  | pop drain =>
      rw [step_pop hs]
      obtain ⟨c₁, hfrozen, hres⟩ := s.cache.pop_frozen drain p
      have hslot := hclosed hfrozen
      generalize s.cache.pop drain p = r at hres ⊢
      obtain ⟨c₂, x⟩ := r
      rcases hres with ⟨hnone, heq⟩ | ⟨hfull, hsome, hafter⟩
      · cases hnone
        cases heq
        exact Or.inr ⟨hb, hslot⟩
      · cases hsome
        have hpop : (c₁.slots b.slot).state = .pop := by
          rw [hslot]
          exact h.state hb
        have hne : b.slot ≠ c₁.head := by
          intro heq
          rw [heq, hfull] at hpop
          cases hpop
        have htake : c₁.take.slots b.slot = c₁.slots b.slot := by simp [Cache.take, hne]
        refine Or.inr ⟨by simp [afterPop, hb], ?_⟩
        show c₂.slots b.slot = _
        rw [hafter.closed _ (Or.inr (by rw [htake]; exact hpop)), htake, hslot]
  | release k =>
      obtain ⟨b', hb', rfl⟩ := step_release hs
      by_cases heq : b' = b
      · exact Or.inl ⟨k, rfl, heq ▸ hb'⟩
      · -- another buffer is released, and that one has another slot
        have hne : b.slot ≠ b'.slot := by
          intro hslot
          exact heq (List.inj_on_of_nodup_map h.nodup (List.mem_of_getElem? hb') hb hslot.symm)
        refine Or.inr ⟨?_, by simp [Cache.release, setSlot, hne]⟩
        have hkeep := h.release hb'
        obtain ⟨b'', hb'', hslot⟩ := (hkeep.pop_iff b.slot).mp
          (by simpa [Cache.release, setSlot, hne] using h.state hb)
        have hmem := List.mem_of_mem_eraseIdx hb''
        rwa [List.inj_on_of_nodup_map h.nodup hmem hb hslot] at hb''
  | seek offset =>
      obtain ⟨hlive, -⟩ := step_seek hs
      rw [hlive] at hb
      cases hb
  | startRecording =>
      rw [step_startRecording hs]
      exact Or.inr ⟨hb, hclosed (s.cache.startRecording_sameRing p).frozen⟩
  | migrate =>
      rw [step_migrate hs]
      exact Or.inr ⟨hb, hclosed (s.cache.migrationThread_sameRing p).frozen⟩
  | reload drain =>
      rw [step_reload hs]
      exact Or.inr ⟨hb, hclosed (s.cache.reload_frozen drain p)⟩

/-- A step other than a seek keeps the bytes of a full slot. -/
theorem step_full_slot (h : LiveOk s.cache s.live) {l : Label} (hs : s.step l = some s')
    (hseek : ∀ offset, l.1 ≠ .seek offset) {i : Fin n} (hi : (s.cache.slots i).state = .full) :
    (s.cache.slots i).SameBytes (s'.cache.slots i) ∧
      ((s'.cache.slots i).state = .full ∨ (s'.cache.slots i).state = .pop) := by
  have hclosed : ∀ {c : Cache n}, Frozen s.cache c → (s.cache.slots i).SameBytes (c.slots i) ∧
      ((c.slots i).state = .full ∨ (c.slots i).state = .pop) := by
    intro c hf
    rw [hf.closed i (Or.inl hi)]
    exact ⟨⟨rfl, rfl, rfl⟩, Or.inl hi⟩
  obtain ⟨op, p⟩ := l
  cases op with
  | push data =>
      rw [step_push hs]
      exact hclosed (s.cache.push_frozen data p)
  | pop drain =>
      rw [step_pop hs]
      obtain ⟨c₁, hfrozen, hres⟩ := s.cache.pop_frozen drain p
      generalize s.cache.pop drain p = r at hres ⊢
      obtain ⟨c₂, x⟩ := r
      rcases hres with ⟨hnone, heq⟩ | ⟨hfull, hsome, hafter⟩
      · cases hnone
        cases heq
        exact hclosed hfrozen
      · cases hsome
        show (s.cache.slots i).SameBytes (c₂.slots i) ∧
          ((c₂.slots i).state = .full ∨ (c₂.slots i).state = .pop)
        by_cases heq : i = c₁.head
        · -- the slot that is taken
          have htake : c₁.take.slots i = (s.cache.slots i).setState .pop CacheState.pop_closed := by
            rw [← hfrozen.closed i (Or.inl hi)]
            simp [Cache.take, heq]
          have hafter' : c₂.slots i = (s.cache.slots i).setState .pop CacheState.pop_closed := by
            rw [hafter.closed i (Or.inr (by rw [htake]; rfl)), htake]
          rw [hafter']
          exact ⟨⟨rfl, rfl, rfl⟩, Or.inr rfl⟩
        · have htake : c₁.take.slots i = s.cache.slots i := by
            rw [← hfrozen.closed i (Or.inl hi)]
            simp [Cache.take, heq]
          have hafter' : c₂.slots i = s.cache.slots i := by
            rw [hafter.closed i (Or.inl (by rw [htake]; exact hi)), htake]
          rw [hafter']
          exact ⟨⟨rfl, rfl, rfl⟩, Or.inl hi⟩
  | release k =>
      obtain ⟨b, hb, rfl⟩ := step_release hs
      have hne : i ≠ b.slot := by
        intro heq
        have := h.state (List.mem_of_getElem? hb)
        rw [← heq, hi] at this
        cases this
      simp [Cache.release, setSlot, hne, Slot.SameBytes, hi]
  | seek offset => exact absurd rfl (hseek offset)
  | startRecording =>
      rw [step_startRecording hs]
      exact hclosed (s.cache.startRecording_sameRing p).frozen
  | migrate =>
      rw [step_migrate hs]
      exact hclosed (s.cache.migrationThread_sameRing p).frozen
  | reload drain =>
      rw [step_reload hs]
      exact hclosed (s.cache.reload_frozen drain p)

/-- In any run in any mode, live popped buffers never share a slot, a step
changes the slot of a live buffer only by releasing it, and no step but a seek
touches the bytes of a full slot. -/
theorem zero_copy_isolation {memory : Fin n → ℕ → UInt8} {file : Option File}
    (h : Reach step (fun _ _ => True) (init n memory file) s) :
    (s.live.map Buffer.slot).Nodup ∧
    (∀ i, (s.cache.slots i).state = .pop ↔ ∃ b ∈ s.live, b.slot = i) ∧
    (∀ b ∈ s.live, b.Wraps s.cache) ∧
    ∀ l s', s.step l = some s' →
      (∀ b ∈ s.live, (∃ k, l.1 = .release k ∧ s.live[k]? = some b) ∨
        (b ∈ s'.live ∧ s'.cache.slots b.slot = s.cache.slots b.slot)) ∧
      ((∀ offset, l.1 ≠ .seek offset) → ∀ i, (s.cache.slots i).state = .full →
        (s.cache.slots i).SameBytes (s'.cache.slots i) ∧
          ((s'.cache.slots i).state = .full ∨ (s'.cache.slots i).state = .pop)) := by
  have hinv := reach_liveOk h
  refine ⟨hinv.nodup, hinv.pop_iff, hinv.intact, ?_⟩
  intro l s' hs
  constructor
  · intro b hb
    exact step_live_slot hinv hs hb
  · intro hseek i hi
    exact step_full_slot hinv hs hseek hi

/-- Two buffers are with downstream when more is pushed than the ring has room for. -/
theorem zero_copy_isolation_pushed : ∃ s s' : Session 3,
    Reach step (fun _ _ => True) (init 3 (fun _ _ => 0) none) s ∧ s.live.length = 2 ∧
      s.step (.push ⟨2 * cacheSlotSize, fun _ => 8⟩, .allOk) = some s' ∧
      (s.live.map Buffer.slot).Nodup ∧
      ∀ b ∈ s.live, b ∈ s'.live ∧ s'.cache.slots b.slot = s.cache.slots b.slot := by
  have h₀ : Reach step (fun _ _ => True) (init 3 (fun _ _ => 0) none) _ := .refl
  have h₁ := h₀.extend (.push ⟨2 * cacheSlotSize + 1, fun _ => 7⟩, .allOk) trivial rfl
  have h₂ := h₁.extend (.pop false, .allOk) trivial rfl
  have h₃ := h₂.extend (.pop false, .allOk) trivial rfl
  rcases zero_copy_isolation h₃ with ⟨hnodup, -, -, hstep⟩
  refine ⟨_, _, h₃, rfl, rfl, hnodup, ?_⟩
  intro b hb
  rcases (hstep (.push ⟨2 * cacheSlotSize, fun _ => 8⟩, .allOk) _ rfl).1 b hb with
    ⟨k, hrelease, -⟩ | hkept
  · cases hrelease
  · exact hkept

end Session

end TimeShift
