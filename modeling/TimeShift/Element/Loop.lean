import Mathlib.Data.Fintype.Card
import TimeShift.Cache.Isolation
import TimeShift.Element.Basic

/-!
# An iteration of the loop

What the functions of the source task do, said once: `PopCase` lists the ways
through `gst_flutsbase_pop`, `finish_frame` what the end of an iteration touches, and
`dropLoop_ends` that the buffers dropped after an EOS from downstream come to an end.
-/

set_option linter.unusedSectionVars false

namespace TimeShift

open Bytes Cache

namespace FluTSBase

variable {n : ℕ} [NeZero n] {s s' : FluTSBase n} {c : Cache n} {calls : PopCalls}

/-- The pending STREAM_START joins the trace. -/
theorem sendStreamStart_eq (s : FluTSBase n) : s.sendStreamStart = { s with
    streamStartEvent := none
    trace := s.trace ++ s.streamStartEvent.toList.map .streamStart } := by
  rcases s with ⟨_, _, _, _, _, _, _, _, _, _, event, _, _, _, _, _, _, _, _, _, _⟩
  cases event with
  | none => simp [sendStreamStart]
  | some id => rfl

@[simp] theorem sendStreamStart_needNewsegment (s : FluTSBase n) :
    s.sendStreamStart.needNewsegment = s.needNewsegment := by
  rw [sendStreamStart_eq]

/-- The ways through `gst_flutsbase_pop`. On two of them, `lostStreamStart` and
`lostSegment`, the buffer is neither pushed nor unreffed. -/
inductive PopCase (s : FluTSBase n) (c : Cache n) (calls : PopCalls) :
    FluTSBase n × Option FlowReturn → Prop
  | atEnd (c' : Cache n) : c.pop s.isEos calls.platform = (c', none) → s.isEos = true →
      PopCase s c calls
        ({ { s with cache := some c' }.emit .eos with taskStarted := false }, some .ok)
  | noItem (c' : Cache n) : c.pop s.isEos calls.platform = (c', none) → s.isEos = false →
      PopCase s c calls ({ s with cache := some c' }, some .error)
  | flushed (c' : Cache n) (b : Buffer n) : c.pop s.isEos calls.platform = (c', some b) →
      s.srcresult = .flushing →
      PopCase s c calls ((s.taken c' b).unref c' b, some .flushing)
  | lostStreamStart (c' : Cache n) (b : Buffer n) :
      c.pop s.isEos calls.platform = (c', some b) →
      s.streamStartEvent.isSome = true → calls.streamStart = false →
      PopCase s c calls ({ s.taken c' b with streamStartEvent := none }, some .flushing)
  | lostSegment (c' : Cache n) (b : Buffer n) : c.pop s.isEos calls.platform = (c', some b) →
      s.needNewsegment = true → calls.segment = false → ∀ t, t = (s.taken c' b).sendStreamStart →
      PopCase s c calls ({ t with segment := t.segmentFor b }, some .flushing)
  | segmentFirst (c' : Cache n) (b : Buffer n) : c.pop s.isEos calls.platform = (c', some b) →
      s.needNewsegment = true → ∀ t, t = (s.taken c' b).sendStreamStart →
      PopCase s c calls
        (({ t with segment := t.segmentFor b, needNewsegment := false }.emit
          (.segment (t.segmentFor b))).handOver b, none)
  | buffer (c' : Cache n) (b : Buffer n) : c.pop s.isEos calls.platform = (c', some b) →
      s.needNewsegment = false → (s.streamStartEvent.isSome && !calls.streamStart) = false →
      PopCase s c calls ((s.taken c' b).sendStreamStart.handOver b, none)

theorem pop_case (s : FluTSBase n) (c : Cache n) (calls : PopCalls) :
    PopCase s c calls (s.pop c calls) := by
  unfold pop
  generalize hpop : c.pop s.isEos calls.platform = r
  rcases r with ⟨c', _ | b⟩
  · -- there is no buffer
    dsimp only
    split
    · rename_i heos
      exact .atEnd c' hpop heos
    · rename_i heos
      exact .noItem c' hpop (by simpa using heos)
  · dsimp only
    split
    · rename_i hflush
      exact .flushed c' b hpop hflush
    split
    · rename_i hlost
      rw [Bool.and_eq_true, Bool.not_eq_true'] at hlost
      exact .lostStreamStart c' b hpop hlost.1 hlost.2
    rename_i hevent
    split
    · rename_i hneed
      rw [sendStreamStart_needNewsegment] at hneed
      split
      · rename_i hsegment
        rw [Bool.not_eq_true'] at hsegment
        exact .lostSegment c' b hpop hneed hsegment _ rfl
      · exact .segmentFirst c' b hpop hneed _ rfl
    · rename_i hneed
      rw [sendStreamStart_needNewsegment, Bool.not_eq_true] at hneed
      exact .buffer c' b hpop hneed (Bool.eq_false_iff.mpr hevent)

/-- The end of an iteration may pause the task, and may push an EOS downstream. -/
theorem finish_frame (s : FluTSBase n) (ret : FlowReturn) :
    ∃ started posted, ∃ os : List (Output n), (os = [] ∨ os = [.eos]) ∧ s.finish ret = { s with
      srcresult := ret
      taskStarted := started
      posted := posted
      trace := s.trace ++ os } := by
  unfold finish
  dsimp only
  split
  · exact ⟨_, _, [], Or.inl rfl, by rw [List.append_nil]⟩
  · split
    · exact ⟨_, _, [.eos], Or.inr rfl, rfl⟩
    · exact ⟨_, _, [], Or.inl rfl, by rw [List.append_nil]⟩

/-- The first half of an iteration: the element is flushing, or `gst_flutsbase_pop` is
called and has got to its push, or has returned. -/
theorem loop_cases (h : s.loop c calls = some s') :
    (s.srcresult ≠ .ok ∧ s' = s.finish s.srcresult) ∨
      (s.srcresult = .ok ∧ PopCase s c calls (s', none)) ∨
      ∃ s₁ ret, PopCase s c calls (s₁, some ret) ∧ s' = s₁.finish ret := by
  have hpop := pop_case s c calls
  unfold loop at h
  split at h
  · rename_i hres
    exact Or.inl ⟨hres, (Option.some.inj h).symm⟩
  · rename_i hres
    split at h
    · cases h
    · right
      generalize s.pop c calls = r at h hpop
      rcases r with ⟨s₁, _ | ret⟩
      · left
        cases h
        exact ⟨of_not_not hres, hpop⟩
      · right
        exact ⟨s₁, ret, hpop, (Option.some.inj h).symm⟩

/-- The second half: the buffers that are left are dropped when downstream has seen the
end of the stream. -/
theorem pushed_cases {ret : FlowReturn} {p : ℕ → Platform} (h : s.pushed c ret p = some s') :
    (∃ ret', s' = { s with pushing := false }.finish ret') ∨
      ∃ c' bs, dropLoop s.isEos p (dropFuel c) c = some (c', bs) ∧
        s' = { s with
          pushing := false
          cache := some c'
          popped := s.popped ++ bs
          unreffed := s.unreffed ++ bs
          unexpected := true }.finish .ok := by
  simp only [pushed] at h
  split at h
  · exact Or.inl ⟨_, (Option.some.inj h).symm⟩
  · split at h
    · rcases Option.map_eq_some_iff.mp h with ⟨⟨c', bs⟩, hdrop, heq⟩
      exact Or.inr ⟨c', bs, hdrop, heq.symm⟩
    · exact Or.inl ⟨_, (Option.some.inj h).symm⟩

end FluTSBase

/-! ## Dropping what is left -/

namespace Cache

variable {n : ℕ} [NeZero n] {c c' : Cache n}

/-- The slots with bytes that have not been popped. -/
def filled (c : Cache n) : Finset (Fin n) :=
  Finset.univ.filter fun i => (c.slots i).state = .full ∨ (c.slots i).state = .part

/-- A bound on the number of buffers that can be popped. -/
def unread (c : Cache n) : ℕ := c.filled.card + (c.file.elim 0 File.len - c.rDkPos)

theorem mem_filled {i : Fin n} :
    i ∈ c.filled ↔ (c.slots i).state = .full ∨ (c.slots i).state = .part := by
  simp [filled]

theorem unread_le (c : Cache n) : c.unread < FluTSBase.dropFuel c := by
  have hcard := c.filled.card_le_univ
  rw [Fintype.card_fin] at hcard
  unfold unread FluTSBase.dropFuel
  omega

/-- No further slot is filled. -/
theorem unread_mono (h : c'.filled ⊆ c.filled) (hfile : c'.file = c.file)
    (hpos : c'.rDkPos = c.rDkPos) : c'.unread ≤ c.unread := by
  have hcard := Finset.card_le_card h
  unfold unread
  rw [hfile, hpos]
  omega

theorem recycle_unread (c : Cache n) (i : Fin n) : (c.recycle i).unread ≤ c.unread := by
  by_cases hst : (c.slots i).state = .recycle
  · refine unread_mono ?_ ?_ ?_
    · intro j hj
      rw [mem_filled] at hj ⊢
      by_cases hji : j = i
      · subst hji
        simp [recycle, hst] at hj
      · simpa [recycle, hst, hji] using hj
    all_goals simp [recycle, hst]
  · rw [recycle_of_ne hst]

/-- A slot that is read takes at least one byte of the file. -/
theorem diskRead_unread {o k : ℕ} {drain : Bool} {p : Platform}
    (h : c.diskRead c.tail o drain p k = (c', true)) : c'.advance.unread ≤ c.unread := by
  rcases diskRead_true h with ⟨f, hf, -, hpos, -, hlen, rfl⟩
  have hsub : (advance { c with
      slots := Function.update c.slots c.tail
        ((c.slots c.tail).load (fun j => f.byte (c.rDkPos + j)) c.readSize o c.readSize_le)
      rDkPos := c.rDkPos + c.readSize }).filled ⊆ insert c.tail c.filled := by
    intro j hj
    rw [Finset.mem_insert]
    by_cases hji : j = c.tail
    · exact Or.inl hji
    · right
      rw [mem_filled] at hj ⊢
      simpa [advance, hji] using hj
  have hcard := Finset.card_le_card hsub
  have hinsert := Finset.card_insert_le c.tail c.filled
  unfold unread
  simp only [advance, hf, Option.elim_some] at hcard ⊢
  omega

theorem reload_unread (c : Cache n) (drain : Bool) (p : Platform) :
    (c.reload drain p).unread ≤ c.unread := by
  refine reload_induct (P := fun c₁ => c₁.unread ≤ c.unread) ?_ ?_ ?_ (Nat.le_refl _)
  · intro c₁ h
    exact (c₁.recycle_unread _).trans h
  · intro c₁ c₂ k h _ hread
    exact (diskRead_unread hread).trans h
  · intro c₁ c₂ k h hread
    rcases diskRead_false hread with rfl | ⟨-, bytes, m, rfl⟩
    · exact h
    · have hsmear : (c₁.setSlot c₁.tail ((c₁.slots c₁.tail).smear bytes m)).unread ≤ c₁.unread := by
        refine unread_mono ?_ rfl rfl
        intro j hj
        rw [mem_filled, (c₁.setSlot_smear c₁.tail bytes m j).1] at hj
        exact mem_filled.mpr hj
      exact hsmear.trans h

theorem promote_unread (c : Cache n) : c.promote.unread ≤ c.unread := by
  by_cases hst : (c.slots c.head).state = .part
  · rw [promote_of_part hst]
    refine unread_mono ?_ rfl rfl
    intro j hj
    rw [mem_filled] at hj ⊢
    by_cases hji : j = c.head
    · subst hji
      exact Or.inr hst
    · simpa [hji] using hj
  · rw [promote_of_ne hst]

/-- A pop that gives a buffer leaves less to pop. -/
theorem pop_unread {drain : Bool} {p : Platform} {b : Buffer n}
    (h : c.pop drain p = (c', some b)) : (c'.release b.slot).unread < c.unread := by
  have hrelease : (c'.release b.slot).unread ≤ c'.unread := by
    refine unread_mono ?_ rfl rfl
    intro j hj
    rw [mem_filled] at hj ⊢
    by_cases hji : j = b.slot
    · subst hji
      simp [release, setSlot] at hj
    · simpa [release, setSlot, hji] using hj
  rcases c.pop_cases drain p with ⟨c₁, hc₁, ⟨-, heq⟩ | ⟨hfull, heq⟩⟩
  · rw [heq] at h
    cases h
  have h₁ : c₁.unread ≤ c.unread := by
    rw [hc₁]
    split
    · exact c.promote_unread
    · exact Nat.le_refl _
  -- the slot at the head is not filled any more
  have htake : c₁.take.unread < c₁.unread := by
    have hmem : c₁.head ∈ c₁.filled := mem_filled.mpr (Or.inl hfull)
    have hsub : c₁.take.filled ⊆ c₁.filled.erase c₁.head := by
      intro j hj
      rw [Finset.mem_erase]
      rw [mem_filled] at hj ⊢
      by_cases hji : j = c₁.head
      · subst hji
        simp [take] at hj
      · exact ⟨hji, by simpa [take, hji] using hj⟩
    have hcard := Finset.card_le_card hsub
    have herase := Finset.card_erase_lt_of_mem hmem
    show c₁.take.filled.card + (c₁.file.elim 0 File.len - c₁.rDkPos) < c₁.unread
    unfold unread
    omega
  -- a reload fills no more slots than it takes bytes from the file
  have hc' : c'.unread ≤ c₁.take.unread := by
    rw [heq] at h
    split at h
    · cases h
      exact reload_unread _ drain p
    · cases h
      exact Nat.le_refl _
  omega

end Cache

namespace FluTSBase

variable {n : ℕ} [NeZero n] {s : FluTSBase n} {c : Cache n}

/-- Dropping comes to an end when there is fuel for what can be popped. -/
theorem dropLoop_isSome (drain : Bool) (p : ℕ → Platform) {fuel : ℕ} (h : c.unread < fuel) :
    ∃ r, dropLoop drain p fuel c = some r := by
  -- each buffer that is dropped leaves less to pop
  induction fuel generalizing c with
  | zero => omega
  | succ fuel ih =>
      rw [dropLoop]
      generalize hpop : c.pop drain (p fuel) = r
      rcases r with ⟨c', _ | b⟩
      · exact ⟨_, rfl⟩
      · have hless := pop_unread hpop
        rcases ih (show (c'.release b.slot).unread < fuel by omega) with ⟨r, hr⟩
        exact ⟨_, by dsimp only; rw [hr]; rfl⟩

/-- Every iteration of the loop that has pushed its buffer ends. -/
theorem dropLoop_ends (s : FluTSBase n) (c : Cache n) (ret : FlowReturn) (p : ℕ → Platform) :
    ∃ s', s.pushed c ret p = some s' := by
  unfold pushed
  dsimp only
  split
  · exact ⟨_, rfl⟩
  · split
    · rcases dropLoop_isSome s.isEos p c.unread_le with ⟨r, hr⟩
      exact ⟨_, by rw [hr]; rfl⟩
    · exact ⟨_, rfl⟩

end FluTSBase

end TimeShift
