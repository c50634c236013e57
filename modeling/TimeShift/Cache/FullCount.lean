import TimeShift.Cache.HasOffset
import TimeShift.Lib.Tally

/-!
# The counter of full slots

`fslots` is kept by hand next to the state words of the slots: it goes up where a slot
is completed, drained, read or rolled back, and down where one is popped or rolled
forward. `Counted` says that it is the number of full slots. Every function that stores
a state word keeps it (`Counted.update`), so that it holds in every state that a cache
can reach, and also in the middle of an operation, where the ring is reloaded.
-/

set_option linter.unusedSectionVars false

namespace TimeShift

open Bytes Machine Tally

/-- `state == STATE_FULL`. -/
def Slot.IsFull (s : Slot) : Prop := s.state = .full

instance : DecidablePred Slot.IsFull := fun s => inferInstanceAs (Decidable (s.state = .full))

namespace Cache

variable {n : ℕ} [NeZero n] {c c' : Cache n} {p : Platform} {i : Fin n} {t : Slot}

/-- The number of full slots. -/
def fullCount (c : Cache n) : ℕ := tally Slot.IsFull c.slots

/-- The number of the other slots. -/
def notFullCount (c : Cache n) : ℕ := tally (fun s => ¬s.IsFull) c.slots

/-- `fslots` is the number of full slots. -/
def Counted (c : Cache n) : Prop := c.fslots = c.fullCount

namespace Counted

theorem of_empty (hslots : ∀ i, (c.slots i).state = .empty) (hcount : c.fslots = 0) :
    Counted c := by
  have hnone : c.fullCount = 0 := by
    apply (tally_eq_zero_iff Slot.IsFull).mpr
    intro i hi
    rw [Slot.IsFull, hslots i] at hi
    cases hi
  rw [Counted, hcount, hnone]
  rfl

theorem of_slots (h : Counted c) (hslots : c'.slots = c.slots) (hcount : c'.fslots = c.fslots) :
    Counted c' := by
  rw [Counted, fullCount, hslots, hcount]
  exact h

theorem sameRing (h : Counted c) (hr : SameRing c c') : Counted c' := h.of_slots hr.slots hr.fslots

/-- One slot is stored, and the counter follows. -/
theorem update (h : Counted c) (hslots : c'.slots = Function.update c.slots i t)
    (hcount : c'.fslots = c.fslots - weight Slot.IsFull (c.slots i) + weight Slot.IsFull t) :
    Counted c' := by
  rw [Counted, hcount, fullCount, hslots, tally_update, h]
  rfl

/-- A slot that is not full is stored in place of another one. -/
theorem keep (h : Counted c) (hslots : c'.slots = Function.update c.slots i t)
    (hcount : c'.fslots = c.fslots) (hold : (c.slots i).state ≠ .full) (hnew : t.state ≠ .full) :
    Counted c' := by
  apply h.update hslots
  rw [hcount, weight_of_not Slot.IsFull hold, weight_of_not Slot.IsFull hnew]
  omega

/-- A slot becomes full. -/
theorem gain (h : Counted c) (hslots : c'.slots = Function.update c.slots i t)
    (hcount : c'.fslots = c.fslots + 1) (hold : (c.slots i).state ≠ .full)
    (hnew : t.state = .full) : Counted c' := by
  apply h.update hslots
  rw [hcount, weight_of_not Slot.IsFull hold, weight_of Slot.IsFull hnew]
  omega

/-- A full slot becomes another one. -/
theorem lose (h : Counted c) (hslots : c'.slots = Function.update c.slots i t)
    (hcount : c'.fslots = c.fslots - 1) (hold : (c.slots i).state = .full)
    (hnew : t.state ≠ .full) : Counted c' := by
  apply h.update hslots
  rw [hcount, weight_of Slot.IsFull hold, weight_of_not Slot.IsFull hnew]
  omega

/-! ## The functions that store slots -/

theorem recycle (h : Counted c) (i : Fin n) : Counted (c.recycle i) := by
  by_cases hst : (c.slots i).state = .recycle
  · apply h.keep (i := i) (t := (c.slots i).reset)
    · simp [Cache.recycle, hst]
    · simp [Cache.recycle, hst]
    · simp [hst]
    · simp
  · rw [recycle_of_ne hst]
    exact h

theorem rollback (h : Counted c) (i : Fin n) : Counted (c.rollback i).1 := by
  by_cases hst : (c.slots i).state = .recycle
  · rw [rollback_of_recycle hst]
    exact h.gain (i := i) rfl rfl (by simp [hst]) rfl
  · rw [rollback_of_ne hst]
    exact h

theorem rollforward (h : Counted c) (i : Fin n) : Counted (c.rollforward i) := by
  by_cases hst : (c.slots i).state = .full
  · rw [rollforward_of_full hst]
    exact h.lose (i := i) rfl rfl hst (by simp)
  · rw [rollforward_of_ne hst]
    exact h

/-- The slot at the tail takes bytes, and is full afterwards or not. -/
theorem fill (h : Counted c) (data : Block UInt8) {k : ℕ} (ha : (c.slots c.tail).available)
    (hk : k ≤ (c.slots c.tail).room) : Counted (c.fill data k ha hk) := by
  have hold := (available_ne ha).1
  have hslots := c.fill_slots data k ha hk
  have heq := c.fill_eq data k ha hk
  by_cases hfull : (c.slots c.tail).size + k = cacheSlotSize
  · apply h.gain hslots
    · rw [heq]
      exact if_pos hfull
    · exact hold
    · simp [hfull]
  · apply h.keep hslots
    · rw [heq]
      exact if_neg hfull
    · exact hold
    · simp [hfull]

/-- A slot that has been read joins the ring as a full one. -/
theorem read (h : Counted c) {o k : ℕ} {drain : Bool}
    (hread : c.diskRead c.tail o drain p k = (c', true)) : Counted c'.advance := by
  rcases diskRead_true hread with ⟨f, -, havail, -, -, -, rfl⟩
  exact h.gain (i := c.tail) rfl rfl (available_ne havail).1 rfl

theorem read_fail (h : Counted c) {o k : ℕ} {drain : Bool}
    (hread : c.diskRead c.tail o drain p k = (c', false)) : Counted c' := by
  rcases diskRead_false hread with rfl | ⟨havail, bytes, m, rfl⟩
  · exact h
  · have hold := (available_ne havail).1
    exact h.keep (i := c.tail) rfl rfl hold hold

theorem reload (h : Counted c) (drain : Bool) (p : Platform) : Counted (c.reload drain p) := by
  apply reload_induct (P := Counted) _ _ _ h
  · intro c₁ h₁
    exact h₁.recycle _
  · intro c₁ c₂ k h₁ _ hread
    exact h₁.read hread
  · intro c₁ c₂ k h₁ hread
    exact h₁.read_fail hread

theorem promote (h : Counted c) : Counted c.promote := by
  by_cases hst : (c.slots c.head).state = .part
  · rw [promote_of_part hst]
    exact h.gain (i := c.head) rfl rfl (by simp [hst]) rfl
  · rw [promote_of_ne hst]
    exact h

theorem take (h : Counted c) (hfull : (c.slots c.head).state = .full) : Counted c.take :=
  h.lose (i := c.head) rfl rfl hfull (by simp)

/-- A popped slot is no full one. -/
theorem release (h : Counted c) (hpop : (c.slots i).state = .pop) : Counted (c.release i) :=
  h.keep (i := i) rfl rfl (by simp [hpop]) (by simp)

theorem sought (c : Cache n) (offset : ℕ) : Counted (c.sought offset) :=
  of_empty (fun _ => rfl) rfl

/-! ## The operations -/

theorem push (h : Counted c) (data : Block UInt8) (p : Platform) : Counted (c.push data p) := by
  cases hrec : c.isRecording with
  | true =>
      have hwrite := h.sameRing (c.diskWrite_sameRing data p)
      rw [push_recording hrec]
      split
      · exact hwrite.reload false p
      · exact hwrite
  | false =>
      rw [push_ring hrec]
      apply pushLoop_rule (P := Counted) (Q := Counted) ?_ ?_ ?_ ?_ h
      · intro c₁ h₁
        exact h₁.recycle c₁.tail
      · intro c₁ d k ha hk h₁ _
        exact h₁.fill d ha hk
      · intro c₁ h₁
        exact h₁
      · intro c₁ d h₁
        exact (h₁.sameRing (c₁.startRecording_sameRing p)).sameRing (diskWrite_sameRing _ _ _)

theorem pop (h : Counted c) (drain : Bool) (p : Platform) : Counted (c.pop drain p).1 := by
  apply pop_induct (P := Counted) _ _ _ h
  · intro c₁ h₁
    exact h₁.promote
  · intro c₁ hfull h₁
    exact h₁.take hfull
  · intro c₁ _ _ h₁
    exact h₁.reload drain p

theorem seek (h : Counted c) {o : ℕ} (hseek : c.seek o p = some c') : Counted c' := by
  rcases seek_cases hseek with ⟨-, -, hring⟩ | ⟨-, -, rfl⟩ | ⟨-, -, rfl⟩
  · apply seekRing_induct (P := Counted) _ _ _ hring h
    · intro c₁ i h₁
      exact h₁.rollforward i
    · intro c₁ i h₁
      exact h₁.rollback i
    · intro c₁ i h₁
      exact h₁.of_slots rfl rfl
  · rw [seekDisk_eq]
    exact (sought c _).reload false p
  · exact h

/-- The slots that are not full are as many as `nslots - fslots`. -/
theorem sub_eq (h : Counted c) : (n : ℤ) - c.fslots = c.notFullCount := by
  have hall : c.fullCount + c.notFullCount = n :=
    (tally_add_not Slot.IsFull c.slots).trans (Fintype.card_fin n)
  rw [h]
  omega

end Counted

end Cache

/-! ## Runs -/

namespace Session

open Cache

variable {n : ℕ} [NeZero n] {s s' : Session n}

/-- The states of the cache in which the step calls `gst_shifter_cache_reload`. -/
def reloads (s : Session n) : Label → List (Cache n)
  | (.push data, p) =>
    if s.cache.isRecording then
      let c := s.cache.diskWrite data p
      if c.isEmpty then [c] else []
    else []
  | (.pop drain, _) =>
    let c := if drain then s.cache.promote else s.cache
    if (c.slots c.head).state = .full then
      let c := c.take
      if c.isRecording && c.isRbMigrated then [c] else []
    else []
  | (.seek offset, _) =>
    let target := s.cache.clamp offset
    if s.cache.lRbOffset ≤ target ∧ target < s.cache.hRbOffset then []
    else if s.cache.isDiskUsable then [s.cache.sought target]
    else []
  | (.reload _, _) => [s.cache]
  | _ => []

theorem counted_step (h : Counted s.cache) (hlive : LiveOk s.cache s.live) {l : Label}
    (hs : s.step l = some s') : Counted s'.cache := by
  rcases l with ⟨op, p⟩
  cases op with
  | push data =>
      rw [step_push hs]
      exact h.push data p
  | pop drain =>
      rw [step_pop hs, afterPop_cache]
      exact h.pop drain p
  | release k =>
      -- the slot of a live buffer is popped
      rcases step_release hs with ⟨b, hb, rfl⟩
      exact h.release (hlive.state (List.mem_of_getElem? hb))
  | seek offset =>
      rcases step_seek hs with ⟨-, c, hc, rfl⟩
      exact h.seek hc
  | startRecording =>
      rw [step_startRecording hs]
      exact h.sameRing (s.cache.startRecording_sameRing p)
  | migrate =>
      rw [step_migrate hs]
      exact h.sameRing (s.cache.migrationThread_sameRing p)
  | reload drain =>
      rw [step_reload hs]
      exact h.reload drain p

/-- The counter is right wherever the ring is reloaded. -/
theorem counted_reloads (h : Counted s.cache) (l : Label) :
    ∀ c ∈ s.reloads l, Counted c := by
  intro c hc
  rcases l with ⟨op, p⟩
  cases op with
  | push data =>
      simp only [reloads] at hc
      split at hc
      · split at hc
        · rw [List.mem_singleton.mp hc]
          exact h.sameRing (s.cache.diskWrite_sameRing data p)
        · cases hc
      · cases hc
  | pop drain =>
      have hhead : Counted (if drain then s.cache.promote else s.cache) := by
        split
        · exact h.promote
        · exact h
      simp only [reloads] at hc
      generalize (if drain = true then s.cache.promote else s.cache) = c₁ at hhead hc
      split at hc
      · rename_i hfull
        split at hc
        · rw [List.mem_singleton.mp hc]
          exact hhead.take hfull
        · cases hc
      · cases hc
  | seek offset =>
      simp only [reloads] at hc
      split at hc
      · cases hc
      · split at hc
        · rw [List.mem_singleton.mp hc]
          exact .sought _ _
        · cases hc
  | reload drain =>
      rw [List.mem_singleton.mp hc]
      exact h
  | _ => cases hc

/-- In every state that a cache reaches, by any operations and with any answers of the
platform, `fslots` is the number of full slots, and wherever the ring is reloaded,
`nslots - fslots` is the number of the slots that are not full. -/
theorem fslots_counts {memory : Fin n → ℕ → UInt8} {file : Option File}
    (h : Reach Session.step (fun _ _ => True) (init n memory file) s) :
    s.cache.fslots = s.cache.fullCount ∧ 0 ≤ s.cache.fslots ∧ s.cache.fslots ≤ n ∧
      ∀ l, ∀ c ∈ s.reloads l, (n : ℤ) - c.fslots = c.notFullCount := by
  have hinv : Counted s.cache ∧ LiveOk s.cache s.live := by
    apply h.invariant (P := fun s => Counted s.cache ∧ LiveOk s.cache s.live)
    · exact ⟨.of_empty (fun _ => rfl) rfl, init_liveOk memory file⟩
    · intro s l s' hinv _ hs
      exact ⟨counted_step hinv.1 hinv.2 hs, step_liveOk hinv.2 hs⟩
  have hcount := hinv.1
  have hle : s.cache.fullCount ≤ n := (tally_le _ _).trans_eq (Fintype.card_fin n)
  unfold Counted at hcount
  refine ⟨hcount, by omega, by omega, ?_⟩
  intro l c hc
  exact (counted_reloads hinv.1 l c hc).sub_eq

/-- Two slots are pushed, and one of them is popped. -/
theorem fslots_counts_pop : ∃ s : Session 2,
    Reach Session.step (fun _ _ => True) (init 2 (fun _ _ => 0) none) s ∧
      s.cache.fslots = 1 ∧ s.cache.fslots = s.cache.fullCount := by
  have h₀ : Reach Session.step (fun _ _ => True) (init 2 (fun _ _ => 0) none) _ := .refl
  have h₁ := h₀.extend (.push ⟨2 * cacheSlotSize, fun _ => 7⟩, .allOk) trivial rfl
  have h₂ := h₁.extend (.pop false, .allOk) trivial rfl
  exact ⟨_, h₂, rfl, (fslots_counts h₂).1⟩

end Session

end TimeShift
