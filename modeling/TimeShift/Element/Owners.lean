import TimeShift.Cache.Placed
import TimeShift.Element.Steps

/-!
# Who owns the buffers

A buffer that the loop takes from the cache holds its slot until it is freed. The loop
has to hand it to `gst_pad_push` or to unref it. It does neither when the push of a
STREAM_START or of a SEGMENT fails: then nobody has the buffer any more, and its slot is
lost for good (`failed_push_leaks`). As long as these pushes succeed, each slot that is
out belongs to a buffer that downstream has (`slots_not_leaked`).
-/

set_option linter.unusedSectionVars false

namespace TimeShift

open Bytes Machine Cache

namespace Cache

variable {n : ℕ} [NeZero n] {c c' : Cache n} {p : Platform} {live live' : List (Buffer n)}

/-- Every slot that is out belongs to one of the buffers. -/
def Owned (c : Cache n) (live : List (Buffer n)) : Prop :=
  ∀ i, (c.slots i).state = .pop → ∃ b ∈ live, b.slot = i

namespace Owned

theorem of_new (memory : Fin n → ℕ → UInt8) (file : Option File) :
    Owned (Cache.new n memory file) live := by
  intro i hi
  cases hi

theorem congr (h : Owned c live) (hslots : c'.slots = c.slots) : Owned c' live := by
  intro i hi
  rw [hslots] at hi
  exact h i hi

theorem frozen (h : Owned c live) (hf : Frozen c c') : Owned c' live := by
  intro i hi
  exact h i (hf.pop i hi)

theorem seek (h : Owned c live) {offset : ℕ} (hseek : c.seek offset p = some c') :
    Owned c' live := by
  intro i hi
  exact h i (seek_pop hseek i hi)

/-- A pop adds the buffer that it gives. -/
theorem pop (h : Owned c live) {drain : Bool} {b : Option (Buffer n)}
    (hpop : c.pop drain p = (c', b)) : Owned c' (live ++ b.toList) := by
  rcases c.pop_frozen drain p with ⟨c₁, hf, hres⟩
  rw [hpop] at hres
  rcases hres with ⟨hnone, heq⟩ | ⟨hfull, hsome, hf'⟩
  · cases hnone
    cases heq
    rw [Option.toList_none, List.append_nil]
    exact h.frozen hf
  · cases hsome
    intro i hi
    have htake := hf'.pop i hi
    by_cases hhead : i = c₁.head
    · exact ⟨c₁.slotBuffer, by simp, hhead.symm⟩
    · have hold : (c₁.slots i).state = .pop := by simpa [Cache.take, hhead] using htake
      rcases h i (hf.pop i hold) with ⟨b, hb, hslot⟩
      exact ⟨b, by simp [hb], hslot⟩

theorem pop_none (h : Owned c live) {drain : Bool} (hpop : c.pop drain p = (c', none)) :
    Owned c' live := by
  have hsame := h.pop hpop
  rwa [Option.toList_none, List.append_nil] at hsame

/-- A buffer is freed. The others are still there. -/
theorem release (h : Owned c live) {b : Buffer n}
    (hrest : ∀ b' ∈ live, b'.slot ≠ b.slot → b' ∈ live') : Owned (c.release b.slot) live' := by
  intro i hi
  by_cases hslot : i = b.slot
  · subst hslot
    simp [Cache.release, setSlot] at hi
  · have hold : (c.slots i).state = .pop := by simpa [Cache.release, setSlot, hslot] using hi
    rcases h i hold with ⟨b', hb', heq⟩
    refine ⟨b', hrest b' hb' ?_, heq⟩
    rw [heq]
    exact hslot

/-- A buffer is freed right after it was popped. -/
theorem release_last (h : Owned c live) {drain : Bool} {b : Buffer n}
    (hpop : c.pop drain p = (c', some b)) : Owned (c'.release b.slot) live := by
  refine (h.pop hpop).release ?_
  intro b' hb' hne
  rw [Option.toList_some, List.mem_append, List.mem_singleton] at hb'
  rcases hb' with hb' | rfl
  · exact hb'
  · exact absurd rfl hne

/-- The buffers that are dropped are freed one by one. -/
theorem dropLoop {drain : Bool} {p : ℕ → Platform} {fuel : ℕ} {bs : List (Buffer n)}
    (h : Owned c live) (hdrop : FluTSBase.dropLoop drain p fuel c = some (c', bs)) :
    Owned c' live := by
  -- on the fuel; each buffer is released before the next one is popped
  induction fuel generalizing c bs with
  | zero => cases hdrop
  | succ fuel ih =>
      rw [FluTSBase.dropLoop] at hdrop
      generalize hpop : c.pop drain (p fuel) = r at hdrop
      rcases r with ⟨c₁, _ | b⟩
      · cases hdrop
        exact h.pop_none hpop
      · rcases Option.map_eq_some_iff.mp hdrop with ⟨⟨c₂, bs'⟩, hrest, heq⟩
        cases heq
        exact ih (h.release_last hpop) hrest

end Owned

end Cache

namespace FluTSBase

variable {n : ℕ} [NeZero n] {s s' t : FluTSBase n} {c : Cache n} {calls : PopCalls}

/-- The buffers that have been handed to `gst_pad_push`. -/
def handed (os : List (Output n)) : List (Buffer n) :=
  os.filterMap fun
    | .buffer b => some b
    | _ => none

/-- The pushes of a STREAM_START and of a SEGMENT succeed, where one is made. -/
def pushesSucceed (s : FluTSBase n) : ElementOp n → Prop
  | .loop calls => (s.streamStartEvent = none ∨ calls.streamStart = true) ∧
      (s.needNewsegment = false ∨ calls.segment = true)
  | _ => True

/-- Every buffer that was popped has been handed over or unreffed, downstream has only
what was handed over, and the slots that are out belong to these buffers. -/
structure Accounted (s : FluTSBase n) : Prop where
  fates : s.popped.Perm (handed s.trace ++ s.unreffed)
  live : ∀ b ∈ s.live, b ∈ handed s.trace
  owned : ∀ c, s.cache = some c → Owned c s.live

theorem handed_append (os os' : List (Output n)) : handed (os ++ os') = handed os ++ handed os' :=
  List.filterMap_append

theorem handed_streamStart (event : Option ℕ) :
    handed (n := n) (event.toList.map .streamStart) = [] := by
  cases event <;> rfl

namespace Accounted

/-- Events have gone downstream, and the slots that are out are the same. -/
theorem append (h : Accounted s) {w : List (Output n)} (hw : handed w = [])
    (htrace : s'.trace = s.trace ++ w) (hpopped : s'.popped = s.popped)
    (hunreffed : s'.unreffed = s.unreffed) (hlive : s'.live = s.live)
    (hcache : ∀ c', s'.cache = some c' → Owned c' s.live) : Accounted s' := by
  have hhanded : handed s'.trace = handed s.trace := by
    rw [htrace, handed_append, hw, List.append_nil]
  constructor
  · rw [hpopped, hhanded, hunreffed]
    exact h.fates
  · rw [hlive, hhanded]
    exact h.live
  · rw [hlive]
    exact hcache

theorem congr (h : Accounted s) (htrace : s'.trace = s.trace) (hpopped : s'.popped = s.popped)
    (hunreffed : s'.unreffed = s.unreffed) (hlive : s'.live = s.live)
    (hcache : ∀ c', s'.cache = some c' → Owned c' s.live) : Accounted s' :=
  h.append rfl (by rw [htrace, List.append_nil]) hpopped hunreffed hlive hcache

/-- Neither buffers nor slots have changed. -/
theorem same (h : Accounted s) {w : List (Output n)} (hw : handed w = [])
    (htrace : s'.trace = s.trace ++ w) (hpopped : s'.popped = s.popped)
    (hunreffed : s'.unreffed = s.unreffed) (hlive : s'.live = s.live)
    (hcache : s'.cache = s.cache) : Accounted s' := by
  refine h.append hw htrace hpopped hunreffed hlive ?_
  intro c' hc'
  rw [hcache] at hc'
  exact h.owned c' hc'

theorem finish (h : Accounted s) (ret : FlowReturn) : Accounted (s.finish ret) := by
  rcases s.finish_frame ret with ⟨_, _, os, hos, heq⟩
  rw [heq]
  rcases hos with rfl | rfl
  · exact h.same rfl rfl rfl rfl rfl rfl
  · exact h.same rfl rfl rfl rfl rfl rfl

/-- The buffer that was popped is handed over, behind events. -/
theorem handOver (h : Accounted s) {b : Buffer n} {w : List (Output n)} (hw : handed w = [])
    (htrace : s'.trace = s.trace ++ w ++ [.buffer b]) (hpopped : s'.popped = s.popped ++ [b])
    (hunreffed : s'.unreffed = s.unreffed) (hlive : s'.live = s.live ++ [b])
    (hcache : ∀ c', s'.cache = some c' → Owned c' (s.live ++ [b])) : Accounted s' := by
  have hhanded : handed s'.trace = handed s.trace ++ [b] := by
    rw [htrace, handed_append, handed_append, hw, List.append_nil]
    rfl
  constructor
  · rw [hpopped, hhanded, hunreffed, List.append_assoc]
    -- the buffer joins what was handed over, before what was unreffed
    refine (h.fates.append_right [b]).trans ?_
    rw [List.append_assoc]
    exact List.Perm.append_left _ List.perm_append_comm
  · rw [hlive, hhanded]
    intro b' hb'
    rcases List.mem_append.mp hb' with hb' | hb'
    · exact List.mem_append_left _ (h.live b' hb')
    · exact List.mem_append_right _ hb'
  · rw [hlive]
    exact hcache

/-- Buffers that were popped are unreffed. -/
theorem unref (h : Accounted s) {w : List (Buffer n)} (htrace : s'.trace = s.trace)
    (hpopped : s'.popped = s.popped ++ w) (hunreffed : s'.unreffed = s.unreffed ++ w)
    (hlive : s'.live = s.live) (hcache : ∀ c', s'.cache = some c' → Owned c' s.live) :
    Accounted s' := by
  constructor
  · rw [hpopped, htrace, hunreffed, ← List.append_assoc]
    exact h.fates.append_right w
  · rw [hlive, htrace]
    exact h.live
  · rw [hlive]
    exact hcache

/-- Every way through `gst_flutsbase_pop` but the two that lose the buffer. -/
theorem pop (h : Accounted s) (hc : s.cache = some c) {calls : PopCalls}
    (hok : pushesSucceed s (.loop calls)) {ret : Option FlowReturn}
    (hpop : PopCase s c calls (t, ret)) : Accounted t := by
  have howned := h.owned c hc
  cases hpop with
  | atEnd c' hc' _ =>
      refine h.append (w := [.eos]) rfl rfl rfl rfl rfl ?_
      intro c₁ hc₁
      cases hc₁
      exact howned.pop_none hc'
  | noItem c' hc' _ =>
      refine h.congr rfl rfl rfl rfl ?_
      intro c₁ hc₁
      cases hc₁
      exact howned.pop_none hc'
  | flushed c' b hc' _ =>
      refine h.unref (w := [b]) rfl rfl rfl rfl ?_
      intro c₁ hc₁
      cases hc₁
      exact howned.release_last hc'
  | lostStreamStart c' b _ hevent hfails =>
      -- the push succeeds
      rcases hok.1 with hnone | hsucceeds
      · rw [hnone] at hevent
        cases hevent
      · rw [hfails] at hsucceeds
        cases hsucceeds
  | lostSegment c' b _ hneed hfails _ _ =>
      rcases hok.2 with hoff | hsucceeds
      · rw [hneed] at hoff
        cases hoff
      · rw [hfails] at hsucceeds
        cases hsucceeds
  | segmentFirst c' b hc' _ u hu =>
      have hevents : handed (n := n) (s.streamStartEvent.toList.map .streamStart ++
          [.segment (u.segmentFor b)]) = [] := by
        rw [handed_append, handed_streamStart]
        rfl
      refine h.handOver (b := b) hevents ?_ ?_ ?_ ?_ ?_
      · rw [hu, sendStreamStart_eq, ← List.append_assoc]
        rfl
      · rw [hu, sendStreamStart_eq]
        rfl
      · rw [hu, sendStreamStart_eq]
        rfl
      · rw [hu, sendStreamStart_eq]
        rfl
      · intro c₁ hc₁
        rw [hu, sendStreamStart_eq] at hc₁
        cases hc₁
        exact howned.pop hc'
  | buffer c' b hc' _ _ =>
      refine h.handOver (b := b) (handed_streamStart s.streamStartEvent) ?_ ?_ ?_ ?_ ?_
      · rw [sendStreamStart_eq]
        rfl
      · rw [sendStreamStart_eq]
        rfl
      · rw [sendStreamStart_eq]
        rfl
      · rw [sendStreamStart_eq]
        rfl
      · intro c₁ hc₁
        rw [sendStreamStart_eq] at hc₁
        cases hc₁
        exact howned.pop hc'

/-- A new cache has no slots out. -/
theorem start (h : Accounted s) (memory : Fin n → ℕ → UInt8) (file : Option File) :
    Accounted (s.start memory file) := by
  constructor
  · exact h.fates
  · intro b hb
    cases hb
  · intro c hc
    cases hc
    exact Owned.congr (.of_new memory file) rfl

theorem sinkEvent (h : Accounted s) (e : SinkEvent n) : Accounted (s.sinkEvent e).1 := by
  cases e with
  | flushStop memory file =>
      have hstart : Accounted ((s.emit .flushStop).start memory file) := by
        refine Accounted.start ?_ memory file
        exact h.same (w := [.flushStop]) rfl rfl rfl rfl rfl rfl
      exact hstart.congr rfl rfl rfl rfl hstart.owned
  | flushStart => exact h.same (w := [.flushStart]) rfl rfl rfl rfl rfl rfl
  | eos => exact h.congr rfl rfl rfl rfl h.owned
  | segment => exact h.congr rfl rfl rfl rfl h.owned
  | streamStart id => exact h.congr rfl rfl rfl rfl h.owned
  | other => exact h

theorem activate (h : Accounted s) (active : Bool) :
    Accounted (s.sinkActivate active) ∧ Accounted (s.srcActivate active) := by
  cases active with
  | true =>
      constructor
      · exact h.congr rfl rfl rfl rfl h.owned
      · exact h.congr rfl rfl rfl rfl h.owned
  | false =>
      constructor
      · exact h.congr rfl rfl rfl rfl h.owned
      · exact h.congr rfl rfl rfl rfl h.owned

theorem stop (h : Accounted s) : Accounted s.stop := by
  unfold FluTSBase.stop
  split
  · exact h
  · constructor
    · exact h.fates
    · intro b hb
      cases hb
    · intro c hc
      cases hc

theorem step (h : Accounted s) {l : ElementOp n} (hok : pushesSucceed s l)
    (hs : s.step l = some s') : Accounted s' := by
  cases step_case hs with
  | readyToPaused memory file =>
      have hstart : Accounted ((s.emit .started).start memory file) := by
        refine Accounted.start ?_ memory file
        exact h.same (w := [.started]) rfl rfl rfl rfl rfl rfl
      exact hstart.congr rfl rfl rfl rfl hstart.owned
  | pausedToReady => exact h.stop
  | sinkActivate active => exact (h.activate active).1
  | srcActivate active => exact (h.activate active).2
  | setRecordingRemove value =>
      refine h.congr rfl rfl rfl rfl ?_
      intro c' hc'
      rcases Option.map_eq_some_iff.mp hc' with ⟨c, hc, rfl⟩
      exact (h.owned c hc).congr rfl
  | chainRefused data p => exact h
  | chain data p c posted started hc =>
      refine h.congr rfl rfl rfl rfl ?_
      intro c' hc'
      cases hc'
      exact (h.owned c hc).frozen (c.push_frozen data p)
  | sinkEvent e => exact h.sinkEvent e
  | startRecording p c hc =>
      refine h.congr rfl rfl rfl rfl ?_
      intro c' hc'
      cases hc'
      exact (h.owned c hc).frozen (c.startRecording_sameRing p).frozen
  | seekRefused e => exact h
  | seek e c offset hc hoffset => exact h.same (w := [.flushStart]) rfl rfl rfl rfl rfl rfl
  | resumeSeek p c c' offset hc hoffset hc' =>
      refine h.append (w := [.flushStop]) rfl rfl rfl rfl rfl ?_
      intro c₁ hc₁
      cases hc₁
      exact (h.owned c hc).seek hc'
  | loopFlushing calls => exact h.finish _
  | loopPushing calls c t hc _ hpop => exact h.pop hc hok hpop
  | loopEnded calls c t ret hc hpop => exact (h.pop hc hok hpop).finish ret
  | pushed ret ret' p =>
      have hback : Accounted { s with pushing := false } := h.congr rfl rfl rfl rfl h.owned
      exact hback.finish ret'
  | dropped ret p c c' bs hc hdrop =>
      refine Accounted.finish ?_ .ok
      refine h.unref (w := bs) rfl rfl rfl rfl ?_
      intro c₁ hc₁
      cases hc₁
      exact (h.owned c hc).dropLoop hdrop
  | free k c b hc hb =>
      constructor
      · exact h.fates
      · intro b' hb'
        exact h.live b' (List.mem_of_mem_eraseIdx hb')
      · intro c₁ hc₁
        cases hc₁
        refine (h.owned c hc).release ?_
        intro b' hb' hne
        -- a buffer with another slot is another entry of the list
        rw [List.mem_eraseIdx_iff_getElem?]
        rcases List.getElem?_of_mem hb' with ⟨i, hi⟩
        refine ⟨i, ?_, hi⟩
        intro hik
        rw [hik, hb] at hi
        cases hi
        exact hne rfl
  | migrate p c hc =>
      refine h.congr rfl rfl rfl rfl ?_
      intro c' hc'
      cases hc'
      exact (h.owned c hc).frozen (c.migrationThread_sameRing p).frozen

end Accounted

/-- In every run in which the pushes of STREAM_START and SEGMENT events succeed, whatever
`gst_pad_push` returns: every buffer popped from the cache has been handed to it or
unreffed; every slot that is out belongs to a buffer that was handed over and has not been
freed; and when downstream has freed all its buffers, no slot is out. -/
theorem slots_not_leaked (h : Reach step pushesSucceed (init n) s) :
    s.popped.Perm (handed s.trace ++ s.unreffed) ∧
      (∀ b ∈ s.live, b ∈ handed s.trace) ∧
      ∀ c, s.cache = some c →
        (∀ i, (c.slots i).state = .pop → ∃ b ∈ s.live, b.slot = i) ∧
        (s.live = [] → ∀ i, (c.slots i).state ≠ .pop) := by
  have hinv : Accounted s := by
    refine h.invariant (P := Accounted) ?_ ?_
    · constructor
      · exact List.Perm.refl _
      · intro b hb
        cases hb
      · intro c hc
        cases hc
    · intro s l s' hinv hok hs
      exact hinv.step hok hs
  refine ⟨hinv.fates, hinv.live, ?_⟩
  intro c hc
  have howned := hinv.owned c hc
  constructor
  · exact howned
  · intro hlive i hi
    rcases howned i hi with ⟨b, hb, -⟩
    rw [hlive] at hb
    cases hb

/-- One buffer goes downstream and is freed. -/
theorem slots_not_leaked_one : ∃ (s : FluTSBase 2) (c : Cache 2),
    Reach step pushesSucceed (init 2) s ∧ s.cache = some c ∧ s.popped.length = 1 ∧
      ∀ i, (c.slots i).state ≠ .pop := by
  have h₀ : Reach step pushesSucceed (init 2) _ := .refl
  have h₁ := h₀.extend (.readyToPaused (fun _ _ => 0) none) trivial rfl
  have h₂ := h₁.extend (.srcActivate true) trivial rfl
  have h₃ := h₂.extend (.sinkActivate true) trivial rfl
  have h₄ := h₃.extend (.sinkEvent (.streamStart 1)) trivial rfl
  have h₅ := h₄.extend (.chain ⟨cacheSlotSize, fun _ => 7⟩ .allOk) trivial rfl
  have h₆ := h₅.extend (.loop .allOk) ⟨Or.inr rfl, Or.inr rfl⟩ rfl
  have h₇ := h₆.extend (.pushed .ok fun _ => .allOk) trivial rfl
  have h₈ := h₇.extend (.free 0) trivial rfl
  exact ⟨_, _, h₈, rfl, rfl, ((slots_not_leaked h₈).2.2 _ rfl).2 rfl⟩

/-- The push of the STREAM_START fails: downstream has no buffer, and the slot is out. -/
theorem failed_push_leaks :
    ¬∀ (s : FluTSBase 2) (c : Cache 2), Reach step (fun _ _ => True) (init 2) s →
      s.cache = some c → s.live = [] → ∀ i, (c.slots i).state ≠ .pop := by
  intro hall
  have h₀ : Reach step (fun _ _ => True) (init 2) _ := .refl
  have h₁ := h₀.extend (.readyToPaused (fun _ _ => 0) none) trivial rfl
  have h₂ := h₁.extend (.srcActivate true) trivial rfl
  have h₃ := h₂.extend (.sinkActivate true) trivial rfl
  have h₄ := h₃.extend (.sinkEvent (.streamStart 1)) trivial rfl
  have h₅ := h₄.extend (.chain ⟨cacheSlotSize, fun _ => 7⟩ .allOk) trivial rfl
  -- the buffer of the first slot has been popped when the push fails
  have h₆ := h₅.extend (.loop { PopCalls.allOk with streamStart := false }) trivial rfl
  exact hall _ _ h₆ rfl rfl 0 rfl

end FluTSBase

end TimeShift
