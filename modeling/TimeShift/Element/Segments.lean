import TimeShift.Lib.Trace
import TimeShift.Element.Steps

/-!
# Segments come before the data

Downstream begins anew at a start of the element and at every FLUSH_STOP, and needs a
SEGMENT before the first buffer after it. `need_newsegment` is what makes the loop push
one. It is set when the element is made and by a seek, but neither by a start nor by a
FLUSH_STOP from upstream: after one of these that comes behind a buffer, the data goes
on without a SEGMENT (`flush_loses_segment`). Where a seek comes in between, or the
flag is still set, the SEGMENT is there (`segment_first`).
-/

set_option linter.unusedSectionVars false

namespace TimeShift

open Bytes Machine Cache Trace

/-- Downstream begins anew. -/
def Output.restarts {n : ℕ} : Output n → Prop
  | .started | .flushStop => True
  | _ => False

/-- A buffer needs a SEGMENT that starts at its offset. -/
def segments (n : ℕ) : Pattern (Output n) where
  restarts := Output.restarts
  uses o := ∃ b, o = .buffer b
  announces a u := ∃ segment b, a = .segment segment ∧ u = .buffer b ∧ segment.start = b.offset

namespace FluTSBase

variable {n : ℕ} [NeZero n] {s s' t : FluTSBase n} {c : Cache n} {calls : PopCalls}

/-- The iteration of the loop finds a buffer, and nothing keeps it from pushing it. -/
def handsOn (s : FluTSBase n) (calls : PopCalls) : Prop :=
  s.srcresult = .ok ∧ (∃ c, s.cache = some c ∧ c.headReady s.isEos) ∧
    (s.streamStartEvent.isSome && !calls.streamStart) = false

/-- Between a start or FLUSH_STOP that finds `need_newsegment` unset and the next seek,
the loop pushes no buffer. -/
def armed (s : FluTSBase n) : ElementOp n → Prop
  | .loop calls => s.disarmed = true → ¬s.handsOn calls
  | _ => True

/-- The first buffers have had their segments, and the next one gets its own. -/
structure Segmented (s : FluTSBase n) : Prop where
  follows : (segments n).Follows s.trace
  begun : s.needNewsegment = false → s.disarmed = true ∨ (segments n).Begun s.trace

/-- Downstream neither begins anew, nor gets a buffer. -/
def Neutral (os : List (Output n)) : Prop :=
  ∀ o ∈ os, ¬(segments n).restarts o ∧ ¬(segments n).uses o

theorem neutral_nil : Neutral (n := n) [] := by
  intro o ho
  cases ho

theorem neutral_single {o : Output n} (hr : ¬o.restarts) (hb : ∀ b, o ≠ .buffer b) :
    Neutral [o] := by
  intro o' ho'
  rw [List.mem_singleton.mp ho']
  constructor
  · exact hr
  · rintro ⟨b, habs⟩
    exact hb b habs

theorem neutral_eos : Neutral (n := n) [.eos] :=
  neutral_single (fun habs => habs) fun _ habs => nomatch habs

theorem neutral_flushStart : Neutral (n := n) [.flushStart] :=
  neutral_single (fun habs => habs) fun _ habs => nomatch habs

theorem neutral_streamStart (event : Option ℕ) :
    Neutral (n := n) (event.toList.map .streamStart) := by
  intro o ho
  rcases List.mem_map.mp ho with ⟨id, -, rfl⟩
  constructor
  · exact fun habs => habs
  · rintro ⟨b, habs⟩
    cases habs

namespace Segmented

/-- The trace has grown by events that do not matter here. -/
theorem append (h : Segmented s) {os : List (Output n)} (hos : Neutral os)
    (htrace : s'.trace = s.trace ++ os) (hneed : s'.needNewsegment = s.needNewsegment)
    (hdisarmed : s'.disarmed = s.disarmed) : Segmented s' := by
  constructor
  · rw [htrace]
    exact h.follows.append fun o ho => (hos o ho).2
  · intro hoff
    rw [hneed] at hoff
    rw [hdisarmed, htrace]
    rcases h.begun hoff with hdis | hbegun
    · exact Or.inl hdis
    · exact Or.inr (hbegun.append fun o ho => (hos o ho).1)

theorem congr (h : Segmented s) (htrace : s'.trace = s.trace)
    (hneed : s'.needNewsegment = s.needNewsegment) (hdisarmed : s'.disarmed = s.disarmed) :
    Segmented s' :=
  h.append neutral_nil (by rw [htrace, List.append_nil]) hneed hdisarmed

/-- Downstream begins anew: the flag is set, or the loop may not run. -/
theorem restart (h : Segmented s) {o : Output n} (ho : (segments n).restarts o)
    (htrace : s'.trace = s.trace ++ [o])
    (hok : s'.needNewsegment = false → s'.disarmed = true) : Segmented s' := by
  constructor
  · rw [htrace]
    refine h.follows.snoc ?_
    rintro ⟨b, rfl⟩
    exact ho.elim
  · intro hoff
    exact Or.inl (hok hoff)

theorem finish (h : Segmented s) (ret : FlowReturn) : Segmented (s.finish ret) := by
  rcases s.finish_frame ret with ⟨_, _, os, hos, heq⟩
  rw [heq]
  rcases hos with rfl | rfl
  · exact h.append neutral_nil rfl rfl rfl
  · exact h.append neutral_eos rfl rfl rfl

theorem sendStreamStart (h : Segmented s) : Segmented s.sendStreamStart := by
  rw [sendStreamStart_eq]
  exact h.append (neutral_streamStart _) rfl rfl rfl

/-- A buffer that has been announced. -/
theorem handOver (h : Segmented s) {b : Buffer n}
    (hb : (segments n).Announced s.trace (.buffer b)) : Segmented (s.handOver b) := by
  constructor
  · exact h.follows.snoc fun _ => hb
  · intro _
    right
    exact Pattern.begun_of_use ⟨b, rfl⟩ fun habs => habs

/-- The way of a buffer to downstream. -/
theorem pop (h : Segmented s) (hc : s.cache = some c) (hok : armed s (.loop calls))
    {ret : Option FlowReturn} (hres : ret = none → s.srcresult = .ok)
    (hpop : PopCase s c calls (t, ret)) : Segmented t := by
  have htaken : ∀ c' b, Segmented (s.taken c' b).sendStreamStart := by
    intro c' b
    have htaken : Segmented (s.taken c' b) := h.congr rfl rfl rfl
    exact htaken.sendStreamStart
  cases hpop with
  | atEnd c' _ _ => exact h.append neutral_eos rfl rfl rfl
  | noItem c' _ _ => exact h.congr rfl rfl rfl
  | flushed c' b _ _ => exact h.congr rfl rfl rfl
  | lostStreamStart c' b _ _ _ => exact h.congr rfl rfl rfl
  | lostSegment c' b _ _ _ u hu =>
      rw [hu]
      exact (htaken c' b).congr rfl rfl rfl
  | segmentFirst c' b _ hneed u hu =>
      -- the SEGMENT is pushed right before the buffer
      have hsent := htaken c' b
      rw [← hu] at hsent
      have hno : ¬(segments n).restarts (.segment (u.segmentFor b)) := fun habs => habs
      constructor
      · refine Pattern.Follows.snoc ?_ ?_
        · refine hsent.follows.snoc ?_
          rintro ⟨_, habs⟩
          cases habs
        · intro _
          exact Pattern.announced_snoc ⟨u.segmentFor b, b, rfl, rfl, rfl⟩ hno
      · intro _
        right
        exact Pattern.begun_of_use ⟨b, rfl⟩ fun habs => habs
  | buffer c' b hc' hneed hevent =>
      -- it is not the first one
      have hsent := htaken c' b
      refine hsent.handOver (Pattern.Begun.announced ?_)
      have hoff : (s.taken c' b).sendStreamStart.needNewsegment = false := by
        rw [sendStreamStart_needNewsegment]
        exact hneed
      rcases hsent.begun hoff with habs | hbegun
      · rw [sendStreamStart_eq] at habs
        exact absurd ⟨hres rfl, ⟨c, hc, pop_headReady hc'⟩, hevent⟩ (hok habs)
      · exact hbegun

theorem sinkEvent (h : Segmented s) (e : SinkEvent n) : Segmented (s.sinkEvent e).1 := by
  cases e with
  | flushStop memory file =>
      refine h.restart (o := .flushStop) trivial rfl ?_
      intro hoff
      have hneed : s.needNewsegment = false := hoff
      show (!s.needNewsegment) = true
      rw [hneed]
      rfl
  | flushStart => exact h.append neutral_flushStart rfl rfl rfl
  | eos => exact h.congr rfl rfl rfl
  | segment => exact h.congr rfl rfl rfl
  | streamStart id => exact h.congr rfl rfl rfl
  | other => exact h

theorem readyToPaused (h : Segmented s) (memory : Fin n → ℕ → UInt8) (file : Option File) :
    Segmented (s.readyToPaused memory file) := by
  refine h.restart (o := .started) trivial rfl ?_
  intro hoff
  have hneed : s.needNewsegment = false := hoff
  show (!s.needNewsegment) = true
  rw [hneed]
  rfl

theorem stop (h : Segmented s) : Segmented s.stop := by
  unfold FluTSBase.stop
  split
  · exact h
  · exact h.congr rfl rfl rfl

theorem activate (h : Segmented s) (active : Bool) :
    Segmented (s.sinkActivate active) ∧ Segmented (s.srcActivate active) := by
  cases active with
  | true =>
      constructor
      · exact h.congr rfl rfl rfl
      · exact h.congr rfl rfl rfl
  | false =>
      constructor
      · exact h.congr rfl rfl rfl
      · exact h.congr rfl rfl rfl

theorem step (h : Segmented s) {l : ElementOp n} (hok : armed s l) (hs : s.step l = some s') :
    Segmented s' := by
  cases step_case hs with
  | readyToPaused memory file => exact h.readyToPaused memory file
  | pausedToReady => exact h.stop
  | sinkActivate active => exact (h.activate active).1
  | srcActivate active => exact (h.activate active).2
  | setRecordingRemove value => exact h.congr rfl rfl rfl
  | chainRefused data p => exact h
  | chain data p c posted started hc => exact h.congr rfl rfl rfl
  | sinkEvent e => exact h.sinkEvent e
  | startRecording p c hc => exact h.congr rfl rfl rfl
  | seekRefused e => exact h
  | seek e c offset hc hoffset => exact h.append neutral_flushStart rfl rfl rfl
  | resumeSeek p c c' offset hc hoffset hc' =>
      -- the flag is set again
      refine h.restart (o := .flushStop) trivial rfl ?_
      intro hoff
      cases hoff
  | loopFlushing calls => exact h.finish _
  | loopPushing calls c t hc hres hpop => exact h.pop hc hok (fun _ => hres) hpop
  | loopEnded calls c t ret hc hpop =>
      exact (h.pop hc hok (fun hnone => absurd hnone (Option.some_ne_none ret)) hpop).finish ret
  | pushed ret ret' p =>
      have hback : Segmented { s with pushing := false } := h.congr rfl rfl rfl
      exact hback.finish ret'
  | dropped ret p c c' bs hc hdrop =>
      refine Segmented.finish ?_ .ok
      exact h.congr rfl rfl rfl
  | free k c b hc hb => exact h.congr rfl rfl rfl
  | migrate p c hc => exact h.congr rfl rfl rfl

end Segmented

/-- In every run in which the loop pushes no buffer between a start or a FLUSH_STOP that
finds `need_newsegment` unset and the next seek: between any start of the element,
FLUSH_STOP or seek and the first buffer pushed after it, a SEGMENT is pushed that starts
at the offset of this buffer. -/
theorem segment_first (h : Reach step armed (init n) s) : (segments n).Follows s.trace := by
  have hinv : Segmented s := by
    refine h.invariant (P := Segmented) ?_ ?_
    · constructor
      · exact Pattern.follows_nil
      · intro hoff
        cases hoff
    · intro s l s' hinv hok hs
      exact hinv.step hok hs
  exact hinv.follows

/-- After the first buffer comes a seek to the second one, which gets a SEGMENT of its
own. -/
theorem segment_first_sought : ∃ (s : FluTSBase 3) (b : Buffer 3), Reach step armed (init 3) s ∧
    s.needNewsegment = false ∧ s.live.getLast? = some b ∧ b.offset = cacheSlotSize ∧
    (segments 3).Follows s.trace := by
  have h₀ : Reach step armed (init 3) _ := .refl
  have h₁ := h₀.extend (.readyToPaused (fun _ _ => 0) none) trivial rfl
  have h₂ := h₁.extend (.srcActivate true) trivial rfl
  have h₃ := h₂.extend (.sinkActivate true) trivial rfl
  have h₄ := h₃.extend (.chain ⟨2 * cacheSlotSize, fun _ => 7⟩ .allOk) trivial rfl
  have h₅ := h₄.extend (.loop .allOk) (fun habs => absurd habs Bool.false_ne_true) rfl
  have h₆ := h₅.extend (.pushed .ok fun _ => .allOk) trivial rfl
  have h₇ := h₆.extend (.free 0) trivial rfl
  have h₈ := h₇.extend (.seek ⟨true, .bytes, .set, cacheSlotSize⟩) trivial rfl
  have h₉ := h₈.extend (.resumeSeek .allOk) trivial rfl
  have h₁₀ := h₉.extend (.loop .allOk) (fun habs => absurd habs Bool.false_ne_true) rfl
  exact ⟨_, _, h₁₀, rfl, rfl, rfl, segment_first h₁₀⟩

/-- A flush from upstream behind the first buffer: the next one goes downstream without
a SEGMENT. -/
theorem flush_loses_segment :
    ¬∀ s : FluTSBase 2, Reach step (fun _ _ => True) (init 2) s →
      (segments 2).Follows s.trace := by
  intro hall
  have h₀ : Reach step (fun _ _ => True) (init 2) _ := .refl
  have h₁ := h₀.extend (.readyToPaused (fun _ _ => 0) none) trivial rfl
  have h₂ := h₁.extend (.srcActivate true) trivial rfl
  have h₃ := h₂.extend (.sinkActivate true) trivial rfl
  have h₄ := h₃.extend (.chain ⟨cacheSlotSize, fun _ => 7⟩ .allOk) trivial rfl
  have h₅ := h₄.extend (.loop .allOk) trivial rfl
  have h₆ := h₅.extend (.pushed .ok fun _ => .allOk) trivial rfl
  -- the flush resets the cache, but not `need_newsegment`
  have h₇ := h₆.extend (.sinkEvent .flushStart) trivial rfl
  have h₈ := h₇.extend (.sinkEvent (.flushStop (fun _ _ => 0) none)) trivial rfl
  have h₉ := h₈.extend (.chain ⟨cacheSlotSize, fun _ => 7⟩ .allOk) trivial rfl
  have h₁₀ := h₉.extend (.loop .allOk) trivial rfl
  -- the last buffer comes right behind the FLUSH_STOP
  have hannounced := hall _ h₁₀ [_, _, _, _, _] _ [] rfl ⟨_, rfl⟩
  rcases hannounced [] ⟨[_, _, _, _], _, rfl, trivial, fun o ho => nomatch ho⟩ with ⟨a, ha, -⟩
  cases ha

end FluTSBase

end TimeShift
