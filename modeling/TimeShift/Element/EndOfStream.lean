import TimeShift.Element.Steps

/-!
# The end of the stream

An EOS from upstream sets `is_eos`, and only a FLUSH_STOP or an activation should take
it back. A seek does it too: when it comes after the EOS, the loop forgets that the
stream has ended, and waits for data that cannot come (`seek_waits_for_ever`). As long
as no seek is carried out after an EOS, the loop never waits after one, and it ends the
stream downstream when there is nothing left to push (`eos_kept`).
-/

set_option linter.unusedSectionVars false

namespace TimeShift

open Bytes Machine Cache

namespace FluTSBase

variable {n : ℕ} [NeZero n] {s s' t : FluTSBase n} {c : Cache n} {calls : PopCalls}

/-- The EOS that has been received has not been forgotten. -/
def EosKept (s : FluTSBase n) : Prop := s.eosReceived = true → s.isEos = true

/-- No seek is carried out after an EOS. -/
def seeksBeforeEos (s : FluTSBase n) : ElementOp n → Prop
  | .resumeSeek _ => s.eosReceived = false
  | _ => True

namespace EosKept

theorem congr (h : EosKept s) (heos : s'.isEos = s.isEos)
    (hrec : s'.eosReceived = s.eosReceived) : EosKept s' := by
  intro hreceived
  rw [hrec] at hreceived
  rw [heos]
  exact h hreceived

theorem finish (h : EosKept s) (ret : FlowReturn) : EosKept (s.finish ret) := by
  rcases s.finish_frame ret with ⟨_, _, _, -, heq⟩
  rw [heq]
  exact h.congr rfl rfl

theorem sendStreamStart (h : EosKept s) : EosKept s.sendStreamStart := by
  rw [sendStreamStart_eq]
  exact h.congr rfl rfl

/-- No way through `gst_flutsbase_pop` touches the flag. -/
theorem pop (h : EosKept s) {ret : Option FlowReturn} (hpop : PopCase s c calls (t, ret)) :
    EosKept t := by
  cases hpop with
  | atEnd c' _ _ => exact h.congr rfl rfl
  | noItem c' _ _ => exact h.congr rfl rfl
  | flushed c' b _ _ => exact h.congr rfl rfl
  | lostStreamStart c' b _ _ _ => exact h.congr rfl rfl
  | lostSegment c' b _ _ _ u hu =>
      have htaken : EosKept (s.taken c' b) := h.congr rfl rfl
      rw [hu]
      exact htaken.sendStreamStart.congr rfl rfl
  | segmentFirst c' b _ _ u hu =>
      have htaken : EosKept (s.taken c' b) := h.congr rfl rfl
      rw [hu]
      exact htaken.sendStreamStart.congr rfl rfl
  | buffer c' b _ _ _ =>
      have htaken : EosKept (s.taken c' b) := h.congr rfl rfl
      exact htaken.sendStreamStart.congr rfl rfl

theorem sinkEvent (h : EosKept s) (e : SinkEvent n) : EosKept (s.sinkEvent e).1 := by
  cases e with
  | eos =>
      intro _
      rfl
  | flushStop memory file =>
      -- the stream begins anew
      intro hreceived
      cases hreceived
  | segment => exact h.congr rfl rfl
  | flushStart => exact h.congr rfl rfl
  | streamStart id => exact h.congr rfl rfl
  | other => exact h

theorem activate (h : EosKept s) (active : Bool) :
    EosKept (s.sinkActivate active) ∧ EosKept (s.srcActivate active) := by
  cases active with
  | true =>
      constructor
      · intro hreceived
        cases hreceived
      · intro hreceived
        cases hreceived
  | false =>
      constructor
      · exact h.congr rfl rfl
      · exact h.congr rfl rfl

theorem stop (h : EosKept s) : EosKept s.stop := by
  unfold FluTSBase.stop
  split
  · exact h
  · exact h.congr rfl rfl

theorem step (h : EosKept s) {l : ElementOp n} (hok : seeksBeforeEos s l)
    (hs : s.step l = some s') : EosKept s' := by
  cases step_case hs with
  | readyToPaused memory file => exact h.congr rfl rfl
  | pausedToReady => exact h.stop
  | sinkActivate active => exact (h.activate active).1
  | srcActivate active => exact (h.activate active).2
  | setRecordingRemove value => exact h.congr rfl rfl
  | chainRefused data p => exact h
  | chain data p c posted started hc => exact h.congr rfl rfl
  | sinkEvent e => exact h.sinkEvent e
  | startRecording p c hc => exact h.congr rfl rfl
  | seekRefused e => exact h
  | seek e c offset hc hoffset => exact h.congr rfl rfl
  | resumeSeek p c c' offset hc hoffset hc' =>
      -- the seek takes `is_eos` back, and no EOS has been received
      intro hreceived
      have hnone : s.eosReceived = false := hok
      have hsome : s.eosReceived = true := hreceived
      rw [hnone] at hsome
      cases hsome
  | loopFlushing calls => exact h.finish _
  | loopPushing calls c t hc _ hpop => exact h.pop hpop
  | loopEnded calls c t ret hc hpop => exact (h.pop hpop).finish ret
  | pushed ret ret' p =>
      have hback : EosKept { s with pushing := false } := h.congr rfl rfl
      exact hback.finish ret'
  | dropped ret p c c' bs hc hdrop =>
      refine EosKept.finish ?_ .ok
      exact h.congr rfl rfl
  | free k c b hc hb => exact h.congr rfl rfl
  | migrate p c hc => exact h.congr rfl rfl

end EosKept

/-- After the end of the stream, an iteration of the loop takes what a draining pop
gives, and pushes an EOS downstream when it gives nothing. -/
theorem loop_drains (heos : s.isEos = true) (hres : s.srcresult = .ok) (c : Cache n)
    (calls : PopCalls) : ∃ s', s.loop c calls = some s' ∧
      s'.popped = s.popped ++ (c.pop true calls.platform).2.toList ∧
      ((c.pop true calls.platform).2 = none → s'.trace = s.trace ++ [.eos]) := by
  have hwaits : s.waits c = false := by
    unfold waits
    rw [heos]
    simp
  have hpop := pop_case s c calls
  generalize hr : s.pop c calls = r at hpop
  rcases r with ⟨t, ret⟩
  -- what holds after `gst_flutsbase_pop`
  have ht : t.popped = s.popped ++ (c.pop true calls.platform).2.toList ∧
      ((c.pop true calls.platform).2 = none →
        t.trace = s.trace ++ [.eos] ∧ ret = some .ok) := by
    cases hpop with
    | atEnd c' hc _ =>
        rw [heos] at hc
        rw [hc]
        exact ⟨(List.append_nil _).symm, fun _ => ⟨rfl, rfl⟩⟩
    | noItem c' _ hne =>
        rw [heos] at hne
        cases hne
    | flushed c' b _ hflush =>
        rw [hres] at hflush
        cases hflush
    | lostStreamStart c' b hc _ _ =>
        rw [heos] at hc
        rw [hc]
        exact ⟨rfl, fun habs => nomatch habs⟩
    | lostSegment c' b hc _ _ u hu =>
        rw [heos] at hc
        rw [hc, hu, sendStreamStart_eq]
        exact ⟨rfl, fun habs => nomatch habs⟩
    | segmentFirst c' b hc _ u hu =>
        rw [heos] at hc
        rw [hc, hu, sendStreamStart_eq]
        exact ⟨rfl, fun habs => nomatch habs⟩
    | buffer c' b hc _ _ =>
        rw [heos] at hc
        rw [hc, sendStreamStart_eq]
        exact ⟨rfl, fun habs => nomatch habs⟩
  unfold loop
  rw [if_neg (by simp [hres]), hwaits, if_neg Bool.false_ne_true, hr]
  cases ret with
  | none =>
      refine ⟨t, rfl, ht.1, ?_⟩
      intro hnone
      exact (ht.2 hnone).1
  | some ret =>
      rcases t.finish_frame ret with ⟨started, posted, os, -, hfinish⟩
      refine ⟨t.finish ret, rfl, ?_, ?_⟩
      · rw [hfinish]
        exact ht.1
      · intro hnone
        rcases ht.2 hnone with ⟨htrace, hret⟩
        cases hret
        rw [← htrace]
        rfl

/-- In every run in which no seek is carried out after an EOS has been received, until a
FLUSH_STOP or an activation: after an EOS `is_eos` is set, the loop does not wait for
data, and each of its iterations takes what a draining pop gives or pushes an EOS
downstream. -/
theorem eos_kept (h : Reach step seeksBeforeEos (init n) s) (heos : s.eosReceived = true) :
    s.isEos = true ∧ ∀ c, s.cache = some c → s.waits c = false ∧
      (s.taskStarted = true → s.pushing = false → s.srcresult = .ok → ∀ calls,
        ∃ s', s.step (.loop calls) = some s' ∧
          s'.popped = s.popped ++ (c.pop true calls.platform).2.toList ∧
          ((c.pop true calls.platform).2 = none → s'.trace = s.trace ++ [.eos])) := by
  have hkept : EosKept s := by
    refine h.invariant (P := EosKept) ?_ ?_
    · intro hreceived
      cases hreceived
    · intro s l s' hkept hok hs
      exact hkept.step hok hs
  have hisEos := hkept heos
  refine ⟨hisEos, ?_⟩
  intro c hc
  constructor
  · unfold waits
    rw [hisEos]
    simp
  · intro hstarted hpushing hres calls
    rcases loop_drains hisEos hres c calls with ⟨s', hloop, hs'⟩
    refine ⟨s', ?_, hs'⟩
    rw [step, hstarted, hpushing, hc]
    exact hloop

/-- A slot and a hundred bytes, with a seek before the EOS: behind the bytes the loop pushes
the EOS downstream. -/
theorem eos_kept_to_end : ∃ s s' : FluTSBase 2, Reach step seeksBeforeEos (init 2) s ∧
    s.eosReceived = true ∧ s.popped.length = 3 ∧ s.step (.loop .allOk) = some s' ∧
    s'.trace = s.trace ++ [.eos] := by
  have h₀ : Reach step seeksBeforeEos (init 2) _ := .refl
  have h₁ := h₀.extend (.readyToPaused (fun _ _ => 0) none) trivial rfl
  have h₂ := h₁.extend (.srcActivate true) trivial rfl
  have h₃ := h₂.extend (.sinkActivate true) trivial rfl
  have h₄ := h₃.extend (.chain ⟨cacheSlotSize + 100, fun _ => 7⟩ .allOk) trivial rfl
  have h₅ := h₄.extend (.loop .allOk) trivial rfl
  have h₆ := h₅.extend (.pushed .ok fun _ => .allOk) trivial rfl
  have h₇ := h₆.extend (.free 0) trivial rfl
  have h₈ := h₇.extend (.seek ⟨true, .bytes, .set, 0⟩) trivial rfl
  have h₉ := h₈.extend (.resumeSeek .allOk) rfl rfl
  have h₁₀ := h₉.extend (.sinkEvent .eos) trivial rfl
  have h₁₁ := h₁₀.extend (.loop .allOk) trivial rfl
  have h₁₂ := h₁₁.extend (.pushed .ok fun _ => .allOk) trivial rfl
  have h₁₃ := h₁₂.extend (.loop .allOk) trivial rfl
  have h₁₄ := h₁₃.extend (.pushed .ok fun _ => .allOk) trivial rfl
  rcases ((eos_kept h₁₄ rfl).2 _ rfl).2 rfl rfl rfl .allOk with ⟨s', hloop, -, htrace⟩
  exact ⟨_, s', h₁₄, rfl, rfl, hloop, htrace rfl⟩

/-- One slot is pushed, the stream ends, and the reader seeks back to its start: when the
slot has been read again, the loop waits. -/
theorem seek_waits_for_ever :
    ¬∀ s : FluTSBase 2, Reach step (fun _ _ => True) (init 2) s → s.eosReceived = true →
      s.isEos = true ∧ ∀ c, s.cache = some c → s.waits c = false := by
  intro hall
  have h₀ : Reach step (fun _ _ => True) (init 2) _ := .refl
  have h₁ := h₀.extend (.readyToPaused (fun _ _ => 0) none) trivial rfl
  have h₂ := h₁.extend (.srcActivate true) trivial rfl
  have h₃ := h₂.extend (.sinkActivate true) trivial rfl
  have h₄ := h₃.extend (.chain ⟨cacheSlotSize, fun _ => 7⟩ .allOk) trivial rfl
  have h₅ := h₄.extend (.sinkEvent .eos) trivial rfl
  have h₆ := h₅.extend (.loop .allOk) trivial rfl
  have h₇ := h₆.extend (.pushed .ok fun _ => .allOk) trivial rfl
  have h₈ := h₇.extend (.free 0) trivial rfl
  have h₉ := h₈.extend (.seek ⟨true, .bytes, .set, 0⟩) trivial rfl
  -- the seek clears `is_eos`, and no further EOS is going to come
  have h₁₀ := h₉.extend (.resumeSeek .allOk) trivial rfl
  have h₁₁ := h₁₀.extend (.loop .allOk) trivial rfl
  have h₁₂ := h₁₁.extend (.pushed .ok fun _ => .allOk) trivial rfl
  have hwaits := (hall _ h₁₂ rfl).2 _ rfl
  exact absurd hwaits (by decide)

end FluTSBase

end TimeShift
