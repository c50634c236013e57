import TimeShift.Element.Delivery
import TimeShift.LastTime
import TimeShift.Lookups
import TimeShift.TimeSeek

/-!
# Events, queries and buffers at the seeker

The rest of `gsttimeshiftseeker.c`. A seek to a time from downstream goes on to the time
shifter as a seek to a byte offset; what comes back passes with its segments in time, and
the first buffer behind a segment gets a timestamp.

The segment and the timestamp are two lookups, made one after the other in an index that
may have grown meanwhile. They yield the same time: the time shifter sends a segment for
the buffer right behind it (`Introducing`), and what is associated later is associated with
later offsets, which makes no difference to what has been converted (`handle_congr`).
-/

set_option linter.unusedSectionVars false

namespace TimeShift

open Bytes Machine Cache

/-- The fields of a seek event that the seeker looks at or sets. -/
structure SeekRequest extends SeekEvent where
  rate : Rat
  stopType : SeekType
  stop : ℤ

/-- The time that a request asks for, when it plays forward from a time in range. -/
def SeekRequest.target (e : SeekRequest) : Option ℕ :=
  if e.format = .time ∧ ¬e.rate < 0 ∧ e.startType = .set ∧ 0 ≤ e.start ∧ e.start < 2 ^ 63 then
    some e.start.toNat
  else none

/-- What leaves the seeker. -/
inductive SeekerOutput (n : ℕ) where
  | event (o : Output n)
  | segment (segment : Segment)
  | buffer (buffer : Buffer n) (timestamp : ℕ)
  /-- The pads are flushing, and the buffer does not get to the seeker. -/
  | refused (buffer : Buffer n)

namespace Seeker

/-! ## Upstream -/

/-- `gst_time_shift_seeker_transform_offset`; `duration` is the answer to the query that it
makes for a seek from the end. -/
def transformOffset (ts : Seeker) (type : SeekType) (offset : ℤ) (duration : Option ℤ) :
    SeekType × ℤ :=
  match type with
  | .none => (.none, offset)
  | type => (.set, ts.seek type offset duration)

/-- `gst_time_shift_seeker_transform_seek_event`. -/
def transformSeekEvent (seeker : Seeker) (e : SeekRequest) (duration : Option ℤ) : SeekRequest :=
  if e.format ≠ .time then e
  else if seeker.index.isNone then e
  -- only forward playback is supported
  else if e.rate < 0 then e
  else
    let start := seeker.transformOffset e.startType e.start duration
    let stop := seeker.transformOffset e.stopType e.stop duration
    { e with
      format := .bytes
      startType := start.1
      start := start.2
      stopType := stop.1
      stop := stop.2 }

/-- `gst_time_shift_seeker_query` on the source pad; `none` when it is left to the base
class. -/
def query (ts : Seeker) (duration : Option ℤ) : Query → Option QueryAnswer
  | .duration format =>
    if format = .time then some (.duration format (gint64 (ts.getLastTime duration))) else none
  | .seeking format => if format = .time then some (.seeking format true 0 (-1)) else none
  | _ => none

/-! ## Downstream -/

/-- `gst_time_shift_seeker_bytes_to_stream_time`: without an index, no entry is found. -/
def bytesToStreamTime (ts : Seeker) (bufferOffset : ℕ) : ℕ :=
  match ts.index with
  | some index => index.bytesToStreamTime bufferOffset
  | none => if bufferOffset = 0 then 0 else clockTimeNone

/-- `gst_time_shift_seeker_transform_ip`, on the offset and the timestamp of the buffer. -/
def transformIp (seeker : Seeker) (offset timestamp : ℕ) : Seeker × ℕ :=
  if seeker.timestampNextBuffer then
    ({ seeker with timestampNextBuffer := false }, seeker.bytesToStreamTime offset)
  else (seeker, timestamp)

variable {n : ℕ}

/-- What the seeker does with an event (`gst_time_shift_seeker_sink_event`) or a buffer from
the time shifter. -/
def handle (seeker : Seeker) (o : Output n) (refused : Bool) : Seeker × SeekerOutput n :=
  match o with
  | .segment segment =>
    let r := seeker.transformSegmentEvent segment
    (r.1, .segment r.2)
  | .buffer b =>
    if refused then (seeker, .refused b)
    else
      -- the buffers of the cache come without a timestamp
      let r := seeker.transformIp b.offset clockTimeNone
      (r.1, .buffer b r.2)
  | o => (seeker, .event o)

/-- What it does with all that comes, and what leaves it. -/
def handleAll (seeker : Seeker) : List (Output n × Bool) → Seeker × List (SeekerOutput n)
  | [] => (seeker, [])
  | (o, refused) :: rest =>
    let first := seeker.handle o refused
    let others := first.1.handleAll rest
    (others.1, first.2 :: others.2)

theorem handleAll_append (seeker : Seeker) (xs ys : List (Output n × Bool)) :
    seeker.handleAll (xs ++ ys) =
      (((seeker.handleAll xs).1.handleAll ys).1,
        (seeker.handleAll xs).2 ++ ((seeker.handleAll xs).1.handleAll ys).2) := by
  induction xs generalizing seeker with
  | nil => rfl
  | cons x xs ih => simp [handleAll, ih]

end Seeker

/-! ## What comes from the time shifter -/

/-- The offset that is converted. -/
def Output.offset {n : ℕ} : Output n → Option ℕ
  | .segment g => some g.start
  | .buffer b => some b.offset
  | _ => none

/-- Each segment is the one of the buffer right behind it. -/
def Introducing {n : ℕ} : List (Output n) → Prop
  | [] => True
  | .segment segment :: os =>
    (∃ b, os.head? = some (.buffer b) ∧ segment = .ofBuffer b) ∧ Introducing os
  | _ :: os => Introducing os

section Introducing

variable {n : ℕ} {os os' : List (Output n)}

theorem Introducing.append (h : Introducing os) (h' : Introducing os') :
    Introducing (os ++ os') := by
  induction os with
  | nil => exact h'
  | cons o os ih =>
      cases o with
      | segment segment =>
          rcases h with ⟨⟨b, hb, hsegment⟩, hrest⟩
          refine ⟨⟨b, ?_, hsegment⟩, ih hrest⟩
          cases os with
          | nil => cases hb
          | cons o os => exact hb
      | _ => exact ih h

theorem Introducing.tail {o : Output n} (h : Introducing (o :: os)) : Introducing os := by
  cases o with
  | segment segment => exact h.2
  | _ => exact h

/-- There are no segments. -/
theorem introducing_of_none (h : ∀ segment, .segment segment ∉ os) : Introducing os := by
  induction os with
  | nil => trivial
  | cons o os ih =>
      have hrest := ih fun segment habs => h segment (List.mem_cons_of_mem o habs)
      cases o with
      | segment segment => exact absurd List.mem_cons_self (h segment)
      | _ => exact hrest

/-- Every segment goes on for ever. -/
theorem Introducing.stop (h : Introducing os) {segment : Segment} (hs : .segment segment ∈ os) :
    segment.stop = 2 ^ 64 - 1 := by
  induction os with
  | nil => cases hs
  | cons o os ih =>
      rcases List.mem_cons.mp hs with rfl | hrest
      · rcases h.1 with ⟨b, -, rfl⟩
        rfl
      · exact ih h.tail hrest

/-- What is converted are the offsets of buffers. -/
theorem Introducing.offset (h : Introducing os) {o : Output n} (ho : o ∈ os) {x : ℕ}
    (hx : o.offset = some x) : ∃ b, .buffer b ∈ os ∧ b.offset = x := by
  induction os with
  | nil => cases ho
  | cons o' os ih =>
      rcases List.mem_cons.mp ho with rfl | hrest
      · cases o with
        | segment segment =>
            rcases h.1 with ⟨b, hb, rfl⟩
            cases hx
            exact ⟨b, List.mem_cons_of_mem _ (List.mem_of_mem_head? hb), rfl⟩
        | buffer b =>
            cases hx
            exact ⟨b, List.mem_cons_self, rfl⟩
        | _ => cases hx
      · rcases ih h.tail hrest with ⟨b, hb, hoffset⟩
        exact ⟨b, List.mem_cons_of_mem _ hb, hoffset⟩

end Introducing

namespace FluTSBase

variable {n : ℕ} [NeZero n] {s s' t : FluTSBase n} {c : Cache n} {calls : PopCalls}

/-- The segment of the element counts in bytes, and has no end. -/
def Counts (s : FluTSBase n) : Prop :=
  ∀ c, s.cache = some c → s.segment.format = .bytes ∧ s.segment.base = 0 ∧
    s.segment.stop = 2 ^ 64 - 1

/-- What a step adds to the trace: each segment comes with its buffer, and while
`need_newsegment` is set, a buffer comes with its segment. -/
structure Adds (s s' : FluTSBase n) (w : List (Output n)) : Prop where
  trace : s'.trace = s.trace ++ w
  introducing : Introducing w
  counts : Counts s'
  first : s.needNewsegment = true →
    (s'.needNewsegment = true ∧ handed w = []) ∨
      ∃ b, handed w = [b] ∧ [.segment (.ofBuffer b), .buffer b] <:+: w

theorem segmentFor_eq (h : s.segment.format = .bytes ∧ s.segment.base = 0 ∧
    s.segment.stop = 2 ^ 64 - 1) (b : Buffer n) : s.segmentFor b = .ofBuffer b := by
  rcases h with ⟨hformat, hbase, hstop⟩
  simp [segmentFor, Segment.ofBuffer, hformat, hbase, hstop]

/-- Neither a segment nor a buffer. -/
def Bare (w : List (Output n)) : Prop := (∀ segment, .segment segment ∉ w) ∧ handed w = []

theorem bare_nil : Bare (n := n) [] := ⟨fun _ => List.not_mem_nil, rfl⟩

theorem bare_streamStart (event : Option ℕ) : Bare (n := n) (event.toList.map .streamStart) := by
  refine ⟨?_, handed_streamStart event⟩
  intro segment habs
  rcases List.mem_map.mp habs with ⟨id, -, heq⟩
  cases heq

/-- Nothing that matters here has changed. -/
theorem Adds.of_same (h : s.Counts) {w : List (Output n)} (hw : Bare w)
    (htrace : s'.trace = s.trace ++ w) (hcache : ∀ c', s'.cache = some c' → ∃ c, s.cache = some c)
    (hformat : s'.segment.format = s.segment.format) (hbase : s'.segment.base = s.segment.base)
    (hstop : s'.segment.stop = s.segment.stop)
    (hneed : s.needNewsegment = true → s'.needNewsegment = true) : Adds s s' w := by
  refine ⟨htrace, introducing_of_none hw.1, ?_, fun hon => Or.inl ⟨hneed hon, hw.2⟩⟩
  intro c' hc'
  rcases hcache c' hc' with ⟨c, hc⟩
  rw [hformat, hbase, hstop]
  exact h c hc

/-- The end of an iteration adds at most an EOS. -/
theorem Adds.finish {w : List (Output n)} (h : Adds s t w) (ret : FlowReturn) :
    ∃ w', handed w' = handed w ∧ Adds s (t.finish ret) w' := by
  rcases t.finish_frame ret with ⟨_, _, os, hos, heq⟩
  have hnone : Introducing os := by
    rcases hos with rfl | rfl <;> trivial
  have hhanded : handed (w ++ os) = handed w := by
    rw [handed_append]
    rcases hos with rfl | rfl <;> exact List.append_nil _
  refine ⟨w ++ os, hhanded, ?_, ?_, ?_, ?_⟩
  · rw [heq, h.trace, List.append_assoc]
  · exact h.introducing.append hnone
  · rw [heq]
    exact h.counts
  · intro hon
    rw [hhanded, heq]
    rcases h.first hon with hstill | ⟨b, hb, hinfix⟩
    · exact Or.inl hstill
    · exact Or.inr ⟨b, hb, hinfix.trans (List.prefix_append w os).isInfix⟩

/-- The way of a buffer through `gst_flutsbase_pop`. -/
theorem Adds.pop (h : s.Counts) (hc : s.cache = some c) {ret : Option FlowReturn}
    (hpop : PopCase s c calls (t, ret)) : ∃ w, Adds s t w ∧ t.cache.isSome = true := by
  have hcounts := h c hc
  have hnil : s.trace = s.trace ++ [] := (List.append_nil _).symm
  cases hpop with
  | atEnd c' _ _ =>
      exact ⟨[.eos], .of_same h ⟨by simp, rfl⟩ rfl (fun _ _ => ⟨c, hc⟩) rfl rfl rfl id, rfl⟩
  | noItem c' _ _ =>
      exact ⟨[], .of_same h bare_nil hnil (fun _ _ => ⟨c, hc⟩) rfl rfl rfl id, rfl⟩
  | flushed c' b _ _ =>
      exact ⟨[], .of_same h bare_nil hnil (fun _ _ => ⟨c, hc⟩) rfl rfl rfl id, rfl⟩
  | lostStreamStart c' b _ _ _ =>
      exact ⟨[], .of_same h bare_nil hnil (fun _ _ => ⟨c, hc⟩) rfl rfl rfl id, rfl⟩
  | lostSegment c' b _ _ _ u hu =>
      rw [sendStreamStart_eq] at hu
      rw [hu]
      exact ⟨_, .of_same h (bare_streamStart s.streamStartEvent) rfl (fun _ _ => ⟨c, hc⟩) rfl rfl
        rfl id, rfl⟩
  | segmentFirst c' b _ _ u hu =>
      rw [sendStreamStart_eq] at hu
      have hsegment : u.segmentFor b = .ofBuffer b := by
        rw [hu]
        exact segmentFor_eq hcounts b
      have hbare := bare_streamStart (n := n) s.streamStartEvent
      refine ⟨s.streamStartEvent.toList.map .streamStart ++
        [.segment (u.segmentFor b), .buffer b], ⟨?_, ?_, ?_, ?_⟩, by rw [hu]; rfl⟩
      · rw [hu]
        simp [handOver, emit, taken]
      · exact (introducing_of_none hbare.1).append ⟨⟨b, rfl, hsegment⟩, trivial⟩
      · intro c'' _
        show (u.segmentFor b).format = _ ∧ (u.segmentFor b).base = _ ∧ (u.segmentFor b).stop = _
        rw [hsegment]
        exact ⟨rfl, rfl, rfl⟩
      · intro _
        rw [hsegment, handed_append, hbare.2]
        exact Or.inr ⟨b, rfl, (List.suffix_append _ _).isInfix⟩
  | buffer c' b _ hneed _ =>
      rw [sendStreamStart_eq]
      refine ⟨s.streamStartEvent.toList.map .streamStart ++ [.buffer b], ⟨?_, ?_, ?_, ?_⟩, rfl⟩
      · simp [handOver, emit, taken]
      · exact (introducing_of_none (bare_streamStart _).1).append trivial
      · exact fun _ _ => hcounts
      · intro hon
        rw [hneed] at hon
        cases hon

/-- Every step adds to the trace; a buffer is added by the loop only, on its cache. -/
theorem step_adds (h : s.Counts) {l : ElementOp n} (hs : s.step l = some s') :
    ∃ w, Adds s s' w ∧
      (handed w = [] ∨ (∃ calls, l = .loop calls) ∧ s'.cache.isSome = true) := by
  have hnil : s.trace = s.trace ++ [] := (List.append_nil _).symm
  have hsame : ∀ c', s.cache = some c' → ∃ c, s.cache = some c := fun c' hc' => ⟨c', hc'⟩
  have hkept : Adds s s [] := .of_same h bare_nil hnil hsame rfl rfl rfl id
  cases step_case hs with
  | readyToPaused memory file =>
      exact ⟨[.started], ⟨rfl, trivial, fun _ _ => ⟨rfl, rfl, rfl⟩,
        fun hon => Or.inl ⟨hon, rfl⟩⟩, Or.inl rfl⟩
  | pausedToReady =>
      refine ⟨[], ?_, Or.inl rfl⟩
      unfold stop
      split
      · exact hkept
      · exact .of_same h bare_nil hnil (fun _ habs => nomatch habs) rfl rfl rfl id
  | sinkActivate active =>
      refine ⟨[], ?_, Or.inl rfl⟩
      cases active <;> exact .of_same h bare_nil hnil hsame rfl rfl rfl id
  | srcActivate active =>
      refine ⟨[], ?_, Or.inl rfl⟩
      cases active <;> exact .of_same h bare_nil hnil hsame rfl rfl rfl id
  | setRecordingRemove value =>
      refine ⟨[], .of_same h bare_nil hnil ?_ rfl rfl rfl id, Or.inl rfl⟩
      intro c' hc'
      rcases Option.map_eq_some_iff.mp hc' with ⟨c, hc, -⟩
      exact ⟨c, hc⟩
  | chainRefused data p => exact ⟨[], hkept, Or.inl rfl⟩
  | chain data p c posted started hc =>
      exact ⟨[], .of_same h bare_nil hnil (fun _ _ => ⟨c, hc⟩) rfl rfl rfl id, Or.inl rfl⟩
  | sinkEvent e =>
      cases e with
      | flushStop memory file =>
          exact ⟨[.flushStop], ⟨rfl, trivial, fun _ _ => ⟨rfl, rfl, rfl⟩,
            fun hon => Or.inl ⟨hon, rfl⟩⟩, Or.inl rfl⟩
      | flushStart =>
          exact ⟨[.flushStart], .of_same h ⟨by simp, rfl⟩ rfl hsame rfl rfl rfl id, Or.inl rfl⟩
      | eos => exact ⟨[], .of_same h bare_nil hnil hsame rfl rfl rfl id, Or.inl rfl⟩
      | segment => exact ⟨[], .of_same h bare_nil hnil hsame rfl rfl rfl id, Or.inl rfl⟩
      | streamStart id' => exact ⟨[], .of_same h bare_nil hnil hsame rfl rfl rfl id, Or.inl rfl⟩
      | other => exact ⟨[], hkept, Or.inl rfl⟩
  | startRecording p c hc =>
      exact ⟨[], .of_same h bare_nil hnil (fun _ _ => ⟨c, hc⟩) rfl rfl rfl id, Or.inl rfl⟩
  | seekRefused e => exact ⟨[], hkept, Or.inl rfl⟩
  | seek e c offset hc hoffset =>
      exact ⟨[.flushStart], .of_same h ⟨by simp, rfl⟩ rfl hsame rfl rfl rfl id, Or.inl rfl⟩
  | resumeSeek p c c' offset hc hoffset hc' =>
      exact ⟨[.flushStop], .of_same h ⟨by simp, rfl⟩ rfl (fun _ _ => ⟨c, hc⟩) rfl rfl rfl
        (fun _ => rfl), Or.inl rfl⟩
  | loopFlushing calls =>
      rcases hkept.finish s.srcresult with ⟨w, hhanded, hw⟩
      exact ⟨w, hw, Or.inl hhanded⟩
  | loopPushing calls c t hc _ hpop =>
      rcases Adds.pop h hc hpop with ⟨w, hw, hcache⟩
      exact ⟨w, hw, Or.inr ⟨⟨calls, rfl⟩, hcache⟩⟩
  | loopEnded calls c t ret hc hpop =>
      rcases Adds.pop h hc hpop with ⟨w, hw, hcache⟩
      rcases hw.finish ret with ⟨w', -, hw'⟩
      rcases t.finish_frame ret with ⟨_, _, _, -, heq⟩
      exact ⟨w', hw', Or.inr ⟨⟨calls, rfl⟩, by rw [heq]; exact hcache⟩⟩
  | pushed ret ret' p =>
      have hback : Adds s { s with pushing := false } [] :=
        .of_same h bare_nil hnil hsame rfl rfl rfl id
      rcases hback.finish ret' with ⟨w, hhanded, hw⟩
      exact ⟨w, hw, Or.inl hhanded⟩
  | dropped ret p c c' bs hc hdrop =>
      have hback : Adds s { s with
          pushing := false
          cache := some c'
          popped := s.popped ++ bs
          unreffed := s.unreffed ++ bs
          unexpected := true } [] :=
        .of_same h bare_nil hnil (fun _ _ => ⟨c, hc⟩) rfl rfl rfl id
      rcases hback.finish .ok with ⟨w, hhanded, hw⟩
      exact ⟨w, hw, Or.inl hhanded⟩
  | free k c b hc hb =>
      exact ⟨[], .of_same h bare_nil hnil (fun _ _ => ⟨c, hc⟩) rfl rfl rfl id, Or.inl rfl⟩
  | migrate p c hc =>
      exact ⟨[], .of_same h bare_nil hnil (fun _ _ => ⟨c, hc⟩) rfl rfl rfl id, Or.inl rfl⟩

/-- The seek that is under way is the same until the loop has paused for it. -/
theorem step_seeking {l : ElementOp n} (hs : s.step l = some s') (hseek : ∀ e, l ≠ .seek e)
    (hresume : ∀ p, l ≠ .resumeSeek p) : s'.seeking = s.seeking := by
  have hpop : ∀ {c : Cache n} {calls : PopCalls} {t : FluTSBase n} {ret : Option FlowReturn},
      PopCase s c calls (t, ret) → t.seeking = s.seeking := by
    intro c calls t ret hpop
    cases hpop with
    | lostSegment c' b _ _ _ u hu => rw [hu, sendStreamStart_eq]; rfl
    | segmentFirst c' b _ _ u hu => rw [hu, sendStreamStart_eq]; rfl
    | buffer c' b _ _ _ => rw [sendStreamStart_eq]; rfl
    | _ => rfl
  cases step_case hs with
  | pausedToReady =>
      unfold stop
      split <;> rfl
  | sinkActivate active => cases active <;> rfl
  | srcActivate active => cases active <;> rfl
  | sinkEvent e => cases e <;> rfl
  | seekRefused e => rfl
  | seek e _ _ _ _ => exact absurd rfl (hseek e)
  | resumeSeek p _ _ _ _ _ _ => exact absurd rfl (hresume p)
  | loopFlushing calls =>
      rcases s.finish_frame s.srcresult with ⟨_, _, _, -, heq⟩
      rw [heq]
  | loopPushing calls c t hc _ hcase => exact hpop hcase
  | loopEnded calls c t ret hc hcase =>
      have hsame : t.seeking = s.seeking := hpop hcase
      rcases t.finish_frame ret with ⟨_, _, _, -, heq⟩
      rw [heq]
      exact hsame
  | pushed ret ret' p =>
      rcases finish_frame { s with pushing := false } ret' with ⟨_, _, _, -, heq⟩
      rw [heq]
  | dropped ret p c c' bs hc hdrop =>
      rcases finish_frame { s with
        pushing := false
        cache := some c'
        popped := s.popped ++ bs
        unreffed := s.unreffed ++ bs
        unexpected := true } .ok with ⟨_, _, _, -, heq⟩
      rw [heq]
  | _ => rfl

end FluTSBase

namespace Feed

open FluTSBase

variable {n : ℕ} [NeZero n] {f f' : Feed n} {l : ElementOp n}

theorem step_element (hs : f.step l = some f') : f.element.step l = some f'.element := by
  rcases Option.map_eq_some_iff.mp hs with ⟨e, he, rfl⟩
  rw [he]
  congr 1
  split <;> first | rfl | (split <;> rfl)

/-- Every buffer that a step hands over is among those of the feed, and among those that
were sent since the last seek, when there was one. -/
theorem step_adds (h : f.element.Counts) (hs : f.step l = some f') :
    ∃ w, Adds f.element f'.element w ∧
      (∀ b ∈ FluTSBase.handed w, b ∈ f'.handed ∧ f'.element.cache.isSome = true) ∧
      ((∀ p, l ≠ .resumeSeek p) → f'.sought = none ∨
        (f'.sought = f.sought ∧ f'.sent = f.sent ++ FluTSBase.handed w)) := by
  rcases FluTSBase.step_adds h (step_element hs) with ⟨w, hadds, hfrom⟩
  rcases Option.map_eq_some_iff.mp hs with ⟨e, he, hf'⟩
  have hsame : e = f'.element := Option.some.inj (he.symm.trans (step_element hs))
  subst hsame
  have hadvance : f.advance f'.element = f' → f'.handed = f.handed ++ FluTSBase.handed w ∧
      f'.sought = f.sought ∧ f'.sent = f.sent ++ FluTSBase.handed w := by
    intro heq
    have hhanded := congrArg Feed.handed heq
    have hsought := congrArg Feed.sought heq
    have hsent := congrArg Feed.sent heq
    simp only [advance, hadds.trace, List.drop_left] at hhanded hsent
    exact ⟨hhanded.symm, hsought.symm, hsent.symm⟩
  refine ⟨w, hadds, ?_, ?_⟩
  · rcases hfrom with hnone | ⟨⟨calls, rfl⟩, hcache⟩
    · rw [hnone]
      intro b hb
      cases hb
    · intro b hb
      rw [(hadvance hf').1]
      exact ⟨List.mem_append_right _ hb, hcache⟩
  · intro hresume
    cases l with
    | readyToPaused memory file => exact Or.inl (by rw [← hf']; rfl)
    | sinkEvent e' =>
        cases e' with
        | flushStop memory file => exact Or.inl (by rw [← hf']; rfl)
        | _ => exact Or.inr (hadvance hf').2
    | chain data p =>
        have hnone : FluTSBase.handed w = [] := by
          rcases hfrom with hnone | ⟨⟨calls, habs⟩, -⟩
          · exact hnone
          · cases habs
        right
        rw [hnone, List.append_nil, ← hf']
        dsimp only
        split <;> exact ⟨rfl, rfl⟩
    | pushed ret p =>
        dsimp only at hf'
        split at hf'
        · exact Or.inl (by rw [← hf']; rfl)
        · exact Or.inr (hadvance hf').2
    | resumeSeek p => exact absurd rfl (hresume p)
    | _ => exact Or.inr (hadvance hf').2

/-- The first buffer since the last seek, when there is one, came behind its segment. -/
def Opened (f : Feed n) : Prop := ∀ o, f.sought = some o →
  (f.sent = [] ∧ f.element.needNewsegment = true) ∨
    ∃ b, f.sent.head? = some b ∧ [.segment (.ofBuffer b), .buffer b] <:+: f.element.trace

theorem Opened.step (h : f.Opened) (hcounts : f.element.Counts) (hs : f.step l = some f') :
    f'.Opened := by
  by_cases hresume : ∃ p, l = .resumeSeek p
  · rcases hresume with ⟨p, rfl⟩
    rcases Option.map_eq_some_iff.mp hs with ⟨e, he, rfl⟩
    cases step_case he with
    | resumeSeek p c c' offset hc hoffset hc' => exact fun _ _ => Or.inl ⟨rfl, rfl⟩
  · rcases step_adds hcounts hs with ⟨w, hadds, -, hsent⟩
    intro o ho
    rcases hsent fun p habs => hresume ⟨p, habs⟩ with hnone | ⟨hsought, hsent⟩
    · rw [hnone] at ho
      cases ho
    · rw [hsought] at ho
      rw [hsent, hadds.trace]
      rcases h o ho with ⟨hempty, hneed⟩ | ⟨b, hb, hinfix⟩
      · rw [hempty]
        rcases hadds.first hneed with ⟨hstill, hnone⟩ | ⟨b, hb, hinfix⟩
        · exact Or.inl ⟨by rw [hnone]; rfl, hstill⟩
        · exact Or.inr ⟨b, by rw [hb]; rfl, hinfix.trans (List.suffix_append _ _).isInfix⟩
      · exact Or.inr ⟨b, by rw [List.head?_append, hb]; rfl,
          hinfix.trans (List.prefix_append _ _).isInfix⟩

/-- What a step pushes. -/
def bytes : ElementOp n → ℕ
  | .chain data _ => data.size
  | _ => 0

/-- The step makes a new cache. -/
def renews : ElementOp n → Bool
  | .readyToPaused _ _ | .sinkEvent (.flushStop _ _) => true
  | _ => false

/-- The stream of a cache goes on, by no more than what is pushed. -/
theorem step_stream (hs : f.step l = some f') :
    f'.pushed.length ≤ f.pushed.length + bytes l ∧
      (f.accepted.length ≤ f.pushed.length → f'.accepted.length ≤ f'.pushed.length) ∧
      (renews l = false → f.accepted.length ≤ f'.accepted.length) := by
  rcases Option.map_eq_some_iff.mp hs with ⟨e, he, rfl⟩
  have hsame : f.pushed.length ≤ f.pushed.length + bytes l ∧
      (f.accepted.length ≤ f.pushed.length → f.accepted.length ≤ f.pushed.length) ∧
      (renews l = false → f.accepted.length ≤ f.accepted.length) :=
    ⟨Nat.le_add_right _ _, id, fun _ => Nat.le_refl _⟩
  cases l with
  | readyToPaused memory file =>
      exact ⟨Nat.zero_le _, fun _ => Nat.le_refl 0, fun habs => nomatch habs⟩
  | sinkEvent e' =>
      cases e' with
      | flushStop memory file =>
          exact ⟨Nat.zero_le _, fun _ => Nat.le_refl 0, fun habs => nomatch habs⟩
      | _ => exact hsame
  | chain data p =>
      dsimp only
      split
      · have hsize : data.toList.length = data.size := Block.length_toList data
        refine ⟨?_, ?_, ?_⟩
        · simp [hsize, bytes]
        · intro hle
          simp only [List.length_append, List.length_take]
          omega
        · intro _
          simp
      · exact hsame
  | pushed ret p =>
      dsimp only
      split <;> exact hsame
  | _ => exact hsame

end Feed

/-! ## Conversions in an index that grows -/

/-- An earlier offset is not at a later time. -/
theorem Advancing.time_le {es : List Association} (h : Advancing es) {a b : Association}
    (ha : a ∈ es) (hb : b ∈ es) (hle : a.offset ≤ b.offset) : a.time ≤ b.time := by
  let R : Association → Association → Prop := fun a b =>
    (a.offset ≤ b.offset → a.time ≤ b.time) ∧ (b.offset ≤ a.offset → b.time ≤ a.time)
  have hsymm : Std.Symm R := ⟨fun _ _ h => ⟨h.2, h.1⟩⟩
  have hsome : es.Pairwise R := by
    refine (h.offsets.and h.times).imp ?_
    rintro x y ⟨hoffset, htime⟩
    exact ⟨fun _ => htime, fun habs => absurd hoffset (by omega)⟩
  exact (List.Pairwise.forall_of_forall (R := R)
    (fun _ _ => ⟨fun _ => Nat.le_refl _, fun _ => Nat.le_refl _⟩) hsome ha hb).1 hle

namespace MemIndex

variable {es : List Association} {a : Association} {b : ℕ}

/-- An offset converts to the time of the last association up to it. -/
theorem bytesToStreamTime_nearest (h : Advancing es) (hmax : ∀ e ∈ es, e.offset < 2 ^ 63 - 1)
    (hb : b < 2 ^ 63) : (ofAssociations es).bytesToStreamTime b =
      (nearest Association.offset b .before es).elim (if b = 0 then 0 else clockTimeNone)
        Association.time := by
  have hvalue : gint64 b = b := gint64_of_lt (by omega) (by omega)
  simp only [bytesToStreamTime, hvalue, lookup_bytes h hmax hb]
  cases hk : nearest Association.offset b .before es with
  | none => rfl
  | some k =>
      have htime := (h.fits k (mem_of_nearest hk)).1
      simp only [Option.map_some, Association.assocMap_time, Option.elim_some]
      rw [gint64_of_lt (by omega) (by omega), guint64_of_lt (by omega) (by omega),
        Int.toNat_natCast]

/-- An association with a later offset does not change the conversion. -/
theorem bytesToStreamTime_snoc (h : Advancing (es ++ [a]))
    (hmax : ∀ e ∈ es ++ [a], e.offset < 2 ^ 63 - 1) (hb : b < a.offset) :
    (ofAssociations (es ++ [a])).bytesToStreamTime b = (ofAssociations es).bytesToStreamTime b := by
  have ha := hmax a (by simp)
  rw [bytesToStreamTime_nearest h hmax (by omega), nearest_before_snoc hb,
    bytesToStreamTime_nearest h.init (fun e he => hmax e (by simp [he])) (by omega)]

end MemIndex

namespace Seeker

variable {n : ℕ} {index index' : MemIndex} {flag : Bool} {o : Output n} {refused : Bool}
  {os rest : List (Output n)} {xs : List (Output n × Bool)}

/-- The last time is that of the last association up to a megabyte before the end. -/
theorem getLastTime_nearest {seeker : Seeker} {es : List Association} {len : ℕ}
    (hindex : seeker.index = some (.ofAssociations es)) (h : Advancing es)
    (hmax : ∀ e ∈ es, e.offset + 1000000 < 2 ^ 63) (hlen : len < 2 ^ 63) :
    seeker.getLastTime (some len) = if 1000000 ≤ len then
      (nearest Association.offset (len - 1000000) .before es).elim clockTimeNone Association.time
      else clockTimeNone := by
  have hbytes : getDurationBytes (some len) = len := by
    rw [getDurationBytes, guint64_of_lt (by omega) (by omega), Int.toNat_natCast]
  have hpos : gint64 ((len : ℤ) - 1000000) = len - 1000000 := gint64_of_lt (by omega) (by omega)
  split
  · rename_i hroom
    have hvalue : (len : ℤ) - 1000000 = (len - 1000000 : ℕ) := by omega
    simp only [getLastTime, hindex, hbytes, hpos]
    rw [hvalue, MemIndex.lookup_bytes h (fun e he => by have := hmax e he; omega) (by omega)]
    cases hk : nearest Association.offset (len - 1000000) .before es with
    | none => rfl
    | some k =>
        have htime := (h.fits k (mem_of_nearest hk)).1
        simp only [Option.map_some, Association.assocMap_time, Option.elim_some]
        rw [gint64_of_lt (by omega) (by omega), guint64_of_lt (by omega) (by omega),
          Int.toNat_natCast]
  · -- the value is below all offsets
    have hnone : (MemIndex.ofAssociations es).getAssocEntry .before .bytes (len - 1000000) =
        none := by
      apply (MemIndex.sorted_bytes h).lookup_none
      intro x hx
      rcases List.mem_map.mp hx with ⟨e, he, rfl⟩
      have hoffset := hmax e he
      rw [(h.fits e he).offset_eq, gint64_of_lt (by omega) (by omega)]
      omega
    simp only [getLastTime, hindex, hbytes, hpos, hnone]

/-- The seeker keeps its index. -/
theorem handle_index (index : MemIndex) (flag : Bool) (o : Output n) (refused : Bool) :
    ∃ flag' out, handle ⟨some index, flag⟩ o refused = (⟨some index, flag'⟩, out) := by
  cases o with
  | segment segment =>
      unfold handle transformSegmentEvent
      dsimp only
      split
      · exact ⟨_, _, rfl⟩
      split
      · exact ⟨_, _, rfl⟩
      · exact ⟨_, _, rfl⟩
  | buffer b =>
      unfold handle transformIp
      dsimp only
      split
      · exact ⟨_, _, rfl⟩
      split
      · exact ⟨_, _, rfl⟩
      · exact ⟨_, _, rfl⟩
  | _ => exact ⟨_, _, rfl⟩

/-- Two indices that convert the offset in the same way are the same to the seeker. -/
theorem handle_congr (flag refused : Bool)
    (hstop : ∀ segment, o = .segment segment → segment.stop = 2 ^ 64 - 1)
    (hsame : ∀ x, o.offset = some x → index'.bytesToStreamTime x = index.bytesToStreamTime x) :
    ∃ flag' out, handle ⟨some index, flag⟩ o refused = (⟨some index, flag'⟩, out) ∧
      handle ⟨some index', flag⟩ o refused = (⟨some index', flag'⟩, out) := by
  cases o with
  | segment segment =>
      have hend := hstop segment rfl
      have hstart := hsame segment.start rfl
      unfold handle transformSegmentEvent
      simp only [hend, hstart, if_true]
      split
      · exact ⟨_, _, rfl, rfl⟩
      split
      · exact ⟨_, _, rfl, rfl⟩
      · exact ⟨_, _, rfl, rfl⟩
  | buffer b =>
      have hoffset := hsame b.offset rfl
      unfold handle transformIp bytesToStreamTime
      simp only [hoffset]
      split
      · exact ⟨_, _, rfl, rfl⟩
      split
      · exact ⟨_, _, rfl, rfl⟩
      · exact ⟨_, _, rfl, rfl⟩
  | _ => exact ⟨_, _, rfl, rfl⟩

/-- The same for all that has come. -/
theorem handleAll_congr (flag : Bool)
    (hstop : ∀ x ∈ xs, ∀ segment, x.1 = .segment segment → segment.stop = 2 ^ 64 - 1)
    (hsame : ∀ x ∈ xs, ∀ b, x.1.offset = some b →
      index'.bytesToStreamTime b = index.bytesToStreamTime b) :
    ∃ flag' out, handleAll ⟨some index, flag⟩ xs = (⟨some index, flag'⟩, out) ∧
      handleAll ⟨some index', flag⟩ xs = (⟨some index', flag'⟩, out) := by
  induction xs generalizing flag with
  | nil => exact ⟨flag, [], rfl, rfl⟩
  | cons x xs ih =>
      rcases x with ⟨o, refused⟩
      rcases handle_congr flag refused (hstop (o, refused) (by simp))
        (hsame (o, refused) (by simp)) with ⟨flag₁, out₁, hfirst, hfirst'⟩
      rcases ih flag₁ (fun x hx => hstop x (by simp [hx]))
        (fun x hx => hsame x (by simp [hx])) with ⟨flag₂, out₂, hrest, hrest'⟩
      refine ⟨flag₂, out₁ :: out₂, ?_, ?_⟩
      · simp only [handleAll, hfirst, hrest]
      · simp only [handleAll, hfirst', hrest']

end Seeker

/-! ## Seeks -/

/-- A seek to a time in range becomes one to the offset of an association up to the time,
or to -1 when there is none. -/
theorem Seeker.transformSeekEvent_target {seeker : Seeker} {es : List Association}
    (h : Advancing es) (hindex : seeker.index = some (.ofAssociations es)) {e : SeekRequest}
    {t : ℕ} (ht : e.target = some t) (duration : Option ℤ) :
    (seeker.transformSeekEvent e duration).format = .bytes ∧
      (seeker.transformSeekEvent e duration).startType = .set ∧
      ((seeker.transformSeekEvent e duration).start = -1 ∨
        ∃ k ∈ es, k.time ≤ t ∧ (seeker.transformSeekEvent e duration).start = k.offset) := by
  unfold SeekRequest.target at ht
  split at ht
  · rename_i hrange
    rcases hrange with ⟨hformat, hrate, hset, hlow, hhigh⟩
    have hstart : e.start = t := by
      have := Option.some.inj ht
      omega
    have htransform : (seeker.transformSeekEvent e duration).format = .bytes ∧
        (seeker.transformSeekEvent e duration).startType = .set ∧
        (seeker.transformSeekEvent e duration).start = seeker.seek .set t duration := by
      simp [transformSeekEvent, transformOffset, hformat, hindex, hrate, hset, hstart]
    refine ⟨htransform.1, htransform.2.1, ?_⟩
    have hpos : gint64 (guint64 (t : ℤ)) = t := by
      rw [guint64_of_lt (by omega) (by omega), Int.toNat_natCast]
      exact gint64_of_lt (by omega) (by omega)
    rw [htransform.2.2]
    simp only [seek, hindex, hpos]
    cases hget : (MemIndex.ofAssociations es).getAssocEntry .before .time t with
    | none => exact Or.inl rfl
    | some entry =>
        rcases MemIndex.lookup_time h (by omega) hget with ⟨k, hk, hkt, rfl⟩
        have hoffset := (h.fits k hk).2
        right
        refine ⟨k, hk, hkt, ?_⟩
        simp only [Association.assocMap_bytes]
        exact gint64_of_lt (by omega) (by omega)
  · cases ht

namespace FluTSBase

variable {n : ℕ} [NeZero n] {s s' : FluTSBase n}

theorem step_seek {e : SeekEvent} (hs : s.step (.seek e) = some s') :
    ∃ c, s.cache = some c ∧ s'.seeking = seekOffset c e := by
  unfold step at hs
  dsimp only at hs
  split at hs
  · cases hs
  · rename_i hidle
    rcases Option.map_eq_some_iff.mp hs with ⟨c, hc, rfl⟩
    refine ⟨c, hc, ?_⟩
    unfold handleSeek
    cases hoffset : seekOffset c e with
    | none => simpa using hidle
    | some offset => rfl

/-- A seek to a byte offset is accepted for this offset, if at all. -/
theorem seekOffset_bytes {c : Cache n} {e : SeekEvent} (hformat : e.format = .bytes)
    (hset : e.startType = .set) {o : ℕ} (ho : seekOffset c e = some o) :
    o = guint64 e.start ∧ o ≠ 2 ^ 64 - 1 := by
  have hoffset : getBytesOffset c e.format e.startType e.start = guint64 e.start := by
    simp [getBytesOffset, hformat, hset]
  unfold seekOffset at ho
  simp only [hoffset] at ho
  split at ho
  · cases ho
  split at ho
  · cases ho
  · rename_i hfound
    cases ho
    rw [Bool.or_eq_true, not_or, decide_eq_true_eq] at hfound
    exact ⟨rfl, hfound.1⟩

end FluTSBase

/-- The segment in time that leaves the seeker for one that begins with the buffer. -/
def Segment.inTime {n : ℕ} (index : MemIndex) (b : Buffer n) : Segment where
  reset := true
  format := .time
  base := 0
  start := index.bytesToStreamTime b.offset
  stop := 2 ^ 64 - 1
  time := index.bytesToStreamTime b.offset

/-- What leaves the seeker behind a segment, if anything: the buffer of the segment, with
the start of the segment as its timestamp. -/
def Stamped {n : ℕ} (index : MemIndex) (segment : Segment) (post : List (SeekerOutput n)) : Prop :=
  ∃ b, segment = .inTime index b ∧
    (post = [] ∨ ∃ rest, post = .buffer b segment.start :: rest ∨ post = .refused b :: rest)

namespace Seeker

variable {n : ℕ} {index : MemIndex} {rest : List (Output n)} {xs : List (Output n × Bool)}
  {flag : Bool}

/-- The segment of a buffer leaves in time, and the next buffer gets a timestamp. -/
theorem handle_segment (b : Buffer n) (refused : Bool) :
    handle ⟨some index, flag⟩ (.segment (.ofBuffer b) : Output n) refused =
      (⟨some index, true⟩, .segment (.inTime index b)) := by
  simp [handle, transformSegmentEvent, Segment.ofBuffer, Segment.inTime]

/-- All segments leave the seeker in time, and stamp their buffers. -/
theorem handleAll_stamped (h : Introducing (xs.map Prod.fst ++ rest))
    {pre post : List (SeekerOutput n)} {segment : Segment}
    (hout : (handleAll ⟨some index, flag⟩ xs).2 = pre ++ .segment segment :: post) :
    Stamped index segment post := by
  induction xs generalizing flag pre with
  | nil => simp [handleAll] at hout
  | cons x xs ih =>
      rcases x with ⟨o, refused⟩
      rcases handle_index index flag o refused with ⟨flag', out, hfirst⟩
      simp only [handleAll, hfirst] at hout
      cases pre with
      | cons y pre => exact ih h.tail (List.cons.inj hout).2
      | nil =>
          rcases List.cons.inj hout with ⟨rfl, hpost⟩
          cases o with
          | segment g =>
              rcases h.1 with ⟨b, hb, rfl⟩
              rcases Prod.mk.inj (hfirst.symm.trans (handle_segment b refused)) with ⟨hflag, hin⟩
              cases hin
              cases hflag
              refine ⟨b, rfl, ?_⟩
              -- the buffer is next
              cases xs with
              | nil => exact Or.inl hpost.symm
              | cons y ys =>
                  rcases y with ⟨o, refused'⟩
                  cases hb
                  right
                  cases refused' with
                  | true => exact ⟨_, Or.inr hpost.symm⟩
                  | false => exact ⟨_, Or.inl hpost.symm⟩
          | buffer b =>
              have hno : (handle ⟨some index, flag⟩ (.buffer b) refused).2 = .segment segment := by
                rw [hfirst]
              cases refused <;> cases hno
          | _ => cases hfirst

end Seeker

end TimeShift
