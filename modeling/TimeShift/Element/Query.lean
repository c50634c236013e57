import TimeShift.Cache.LabelBounds
import TimeShift.Element.Owners

/-!
# Queries

`gst_flutsbase_query` answers for the position in bytes with `cur_bytes`, the end of the
last buffer that was handed downstream, and for the duration with the bytes that the cache
has received. `cur_bytes` is a `guint`, so that the position starts again at zero every
4 GiB (`bytes_position_iff`). That it stays within the duration is a matter of the labels
of the buffers, which the refills of the ring have to keep within the stream.
-/

set_option linter.unusedSectionVars false

namespace TimeShift

open Bytes Machine Cache

/-- The queries that `gst_flutsbase_query` tells apart. -/
inductive Query where
  | position (format : Format)
  | duration (format : Format)
  | seeking (format : Format)
  | latency
  | other

/-- What it sets in the query. -/
inductive QueryAnswer where
  | position (format : Format) (cur : ℤ)
  | duration (format : Format) (duration : ℤ)
  | seeking (format : Format) (seekable : Bool) (segmentStart segmentEnd : ℤ)
  | latency (live : Bool) (minLatency maxLatency : ℕ)
deriving DecidableEq, Repr

/-- `gst_flutsbase_query`, on the cache `c` of the element; `none` is `FALSE`. -/
def FluTSBase.query {n : ℕ} (s : FluTSBase n) (c : Cache n) : Query → Option QueryAnswer
  | .position format => if format = .bytes then some (.position format s.curBytes) else none
  | .duration format =>
    if format = .bytes then some (.duration .bytes (gint64 c.getTotalBytesReceived)) else none
  | .seeking format => if format = .bytes then some (.seeking format true 0 (-1)) else none
  | .latency => some (.latency false 0 clockTimeNone)
  | .other => none

namespace Cache

variable {n : ℕ} [NeZero n] {c c' : Cache n} {p : Platform} {last : ℕ}

/-! ## The cache of the element -/

/-- The labels are within the stream, and the stream reaches to `last`. -/
structure Serving (c : Cache n) (last : ℕ) : Prop where
  bounds : LabelBounds c
  last : last ≤ c.hOffset

/-- The refills of the pops fit that drop the buffers. -/
def DropFits (drain : Bool) (p : ℕ → Platform) : ℕ → Cache n → Prop
  | 0, _ => True
  | fuel + 1, c => PopFits c drain ∧
    match c.pop drain (p fuel) with
    | (_, none) => True
    | (c, some b) => DropFits drain p fuel (c.release b.slot)

namespace Serving

theorem of_new (memory : Fin n → ℕ → UInt8) (file : Option File) :
    Serving (Cache.new n memory file) 0 :=
  ⟨.of_new memory file, Nat.le_refl 0⟩

/-- Whether the file is removed in the end does not matter. -/
theorem setAutoremove (h : Serving c last) (value : Bool) :
    Serving { c with autoremove := value } last := by
  refine ⟨?_, h.last⟩
  exact h.bounds.sameRing ⟨rfl, rfl, rfl, rfl, rfl, rfl, rfl⟩ (Nat.le_refl _) id

theorem push (h : Serving c last) (hfits : PushFits c) (data : Block UInt8) (p : Platform) :
    Serving (c.push data p) last := by
  have hpush := h.bounds.push hfits data p
  exact ⟨hpush.1, h.last.trans hpush.2⟩

theorem startRecording (h : Serving c last) (p : Platform) :
    Serving (c.startRecording p).1 last := by
  refine ⟨h.bounds.startRecording p, ?_⟩
  rw [startRecording_hOffset]
  exact h.last

theorem migrationThread (h : Serving c last) (p : Platform) :
    Serving (c.migrationThread p) last := by
  refine ⟨h.bounds.migrationThread p, ?_⟩
  rw [migrationThread_hOffset]
  exact h.last

theorem pop (h : Serving c last) {drain : Bool} (hfits : PopFits c drain)
    {b : Option (Buffer n)} (hpop : c.pop drain p = (c', b)) : Serving c' last := by
  rcases h.bounds.pop hfits hpop with ⟨hbounds, hcount, -⟩
  refine ⟨hbounds, ?_⟩
  rw [hcount]
  exact h.last

/-- The buffer that is popped may be the last one. -/
theorem pop_buffer (h : Serving c last) {drain : Bool} (hfits : PopFits c drain) {b : Buffer n}
    (hpop : c.pop drain p = (c', some b)) : Serving c' b.offsetEnd := by
  rcases h.bounds.pop hfits hpop with ⟨hbounds, hcount, hend⟩
  refine ⟨hbounds, ?_⟩
  rw [hcount]
  exact hend b rfl

/-- A buffer is freed while its slot is in use. -/
theorem free (h : Serving c last) {i : Fin n} (hi : (c.slots i).state ≠ .empty) :
    Serving (c.release i) last :=
  ⟨h.bounds.release hi, h.last⟩

/-- A buffer is freed right after it was popped. -/
theorem unref (h : Serving c last) {drain : Bool} (hfits : PopFits c drain) {b : Buffer n}
    (hpop : c.pop drain p = (c', some b)) : Serving (c'.release b.slot) last := by
  apply (h.pop hfits hpop).free
  rcases c.pop_frozen drain p with ⟨c₁, -, hres⟩
  rw [hpop] at hres
  rcases hres with ⟨hnone, -⟩ | ⟨-, hsome, hf⟩
  · cases hnone
  · cases hsome
    have htaken : (c₁.take.slots c₁.head).state = .pop := by simp [Cache.take]
    have hslot := hf.closed _ (Or.inr htaken)
    show (c'.slots c₁.head).state ≠ .empty
    rw [hslot, htaken]
    simp

/-- The buffers that are dropped are freed one by one. -/
theorem dropLoop {drain : Bool} {p : ℕ → Platform} {fuel : ℕ} {bs : List (Buffer n)}
    (h : Serving c last) (hfits : DropFits drain p fuel c)
    (hdrop : FluTSBase.dropLoop drain p fuel c = some (c', bs)) : Serving c' last := by
  -- on the fuel; each buffer is released before the next one is popped
  induction fuel generalizing c bs with
  | zero => cases hdrop
  | succ fuel ih =>
      rcases hfits with ⟨hfirst, hrest⟩
      rw [FluTSBase.dropLoop] at hdrop
      generalize hpop : c.pop drain (p fuel) = r at hdrop hrest
      rcases r with ⟨c₁, _ | b⟩
      · cases hdrop
        exact h.pop hfirst hpop
      · rcases Option.map_eq_some_iff.mp hdrop with ⟨⟨c₂, bs'⟩, hloop, heq⟩
        cases heq
        exact ih (h.unref hfirst hpop) hrest hloop

theorem seek (h : Serving c last) {offset : ℕ}
    (hfits : c.SeeksDisk offset → RefillFits (c.sought (c.clamp offset)))
    (hseek : c.seek offset p = some c') : Serving c' last := by
  rcases h.bounds.seek hfits hseek with ⟨hbounds, hcount⟩
  refine ⟨hbounds, ?_⟩
  rw [hcount]
  exact h.last

end Serving

end Cache

/-! ## Runs -/

/-- An element, and the number of buffers that had been handed over at the last
FLUSH_STOP. -/
structure Watched (n : ℕ) where
  element : FluTSBase n
  flushed : ℕ

namespace FluTSBase

variable {n : ℕ} [NeZero n] {s s' t : FluTSBase n} {c : Cache n} {k : ℕ}

/-- The end of the last buffer that has been handed over since the first `k` ones, or 0. -/
def lastEnd (s : FluTSBase n) (k : ℕ) : ℕ :=
  (((handed s.trace).drop k).getLast?).elim 0 Buffer.offsetEnd

/-- `gst_flutsbase_push` takes data. -/
def Accepts (s : FluTSBase n) : Prop :=
  s.sinkresult = .ok ∧ s.isEos = false ∧ s.unexpected = false

instance (s : FluTSBase n) : Decidable s.Accepts := inferInstanceAs (Decidable (_ ∧ _ ∧ _))

/-- The position is that of the last buffer, as far as it has room, and the cache serves
the loop with buffers that end within the stream. -/
structure Positioned (s : FluTSBase n) (k : ℕ) : Prop where
  position : s.curBytes = guint (s.lastEnd k)
  flushed : k ≤ (handed s.trace).length
  serving : ∀ c, s.cache = some c → Serving c (s.lastEnd k)

namespace Positioned

/-- Events have gone downstream, or nothing. -/
theorem append (h : Positioned s k) {w : List (Output n)} (hw : handed w = [])
    (htrace : s'.trace = s.trace ++ w) (hcur : s'.curBytes = s.curBytes)
    (hcache : ∀ c', s'.cache = some c' → Serving c' (s.lastEnd k)) :
    Positioned s' k := by
  have hhanded : handed s'.trace = handed s.trace := by
    rw [htrace, handed_append, hw, List.append_nil]
  have hlast : s'.lastEnd k = s.lastEnd k := by rw [lastEnd, hhanded, lastEnd]
  constructor
  · rw [hcur, hlast]
    exact h.position
  · rw [hhanded]
    exact h.flushed
  · rw [hlast]
    exact hcache

theorem congr (h : Positioned s k) (htrace : s'.trace = s.trace)
    (hcur : s'.curBytes = s.curBytes)
    (hcache : ∀ c', s'.cache = some c' → Serving c' (s.lastEnd k)) :
    Positioned s' k :=
  h.append rfl (by rw [htrace, List.append_nil]) hcur hcache

theorem finish (h : Positioned s k) (ret : FlowReturn) : Positioned (s.finish ret) k := by
  rcases s.finish_frame ret with ⟨_, _, os, hos, heq⟩
  rw [heq]
  rcases hos with rfl | rfl
  · exact h.append rfl rfl rfl h.serving
  · exact h.append rfl rfl rfl h.serving

/-- A buffer is handed over, behind events, and is the last one. -/
theorem handOver (h : Positioned s k) {b : Buffer n} {w : List (Output n)} (hw : handed w = [])
    (htrace : s'.trace = s.trace ++ w ++ [.buffer b]) (hcur : s'.curBytes = guint b.offsetEnd)
    (hcache : ∀ c', s'.cache = some c' → Serving c' b.offsetEnd) : Positioned s' k := by
  have hhanded : handed s'.trace = handed s.trace ++ [b] := by
    rw [htrace, handed_append, handed_append, hw, List.append_nil]
    rfl
  have hlast : s'.lastEnd k = b.offsetEnd := by
    rw [lastEnd, hhanded, List.drop_append_of_le_length h.flushed, List.getLast?_concat,
      Option.elim_some]
  constructor
  · rw [hcur, hlast]
  · rw [hhanded, List.length_append]
    exact Nat.le_add_right_of_le h.flushed
  · rw [hlast]
    exact hcache

/-- The ways through `gst_flutsbase_pop`. -/
theorem pop (h : Positioned s k) (hc : s.cache = some c) (hfits : PopFits c s.isEos)
    {calls : PopCalls} {ret : Option FlowReturn} (hpop : PopCase s c calls (t, ret)) :
    Positioned t k := by
  have hserving := h.serving c hc
  cases hpop with
  | atEnd c' hc' _ =>
      refine h.append (w := [.eos]) rfl rfl rfl ?_
      rintro c₁ ⟨⟩
      exact hserving.pop hfits hc'
  | noItem c' hc' _ =>
      refine h.congr rfl rfl ?_
      rintro c₁ ⟨⟩
      exact hserving.pop hfits hc'
  | flushed c' b hc' _ =>
      refine h.congr rfl rfl ?_
      rintro c₁ ⟨⟩
      exact hserving.unref hfits hc'
  | lostStreamStart c' b hc' _ _ =>
      refine h.congr rfl rfl ?_
      rintro c₁ ⟨⟩
      exact hserving.pop hfits hc'
  | lostSegment c' b hc' _ _ u hu =>
      rw [sendStreamStart_eq] at hu
      apply h.append (handed_streamStart s.streamStartEvent)
      · rw [hu]
        rfl
      · rw [hu]
        rfl
      · rw [hu]
        rintro c₁ ⟨⟩
        exact hserving.pop hfits hc'
  | segmentFirst c' b hc' _ u hu =>
      rw [sendStreamStart_eq] at hu
      have hevents : handed (n := n) (s.streamStartEvent.toList.map .streamStart ++
          [.segment (u.segmentFor b)]) = [] := by
        rw [handed_append, handed_streamStart]
        rfl
      apply h.handOver (b := b) hevents
      · rw [hu, ← List.append_assoc]
        rfl
      · rfl
      · rw [hu]
        rintro c₁ ⟨⟩
        exact hserving.pop_buffer hfits hc'
  | buffer c' b hc' _ _ =>
      apply h.handOver (b := b) (handed_streamStart s.streamStartEvent)
      · rw [sendStreamStart_eq]
        rfl
      · rfl
      · rw [sendStreamStart_eq]
        rintro c₁ ⟨⟩
        exact hserving.pop_buffer hfits hc'

end Positioned

/-! ### Steps that leave the cache alone -/

/-- Without a result of `GST_FLOW_OK`, the loop does not get to `gst_flutsbase_pop`. -/
theorem loop_flushing {calls : PopCalls} (hs : s.step (.loop calls) = some s')
    (hres : s.srcresult ≠ .ok) : s' = s.finish s.srcresult := by
  rw [step] at hs
  split at hs
  · cases hs
  · rcases Option.bind_eq_some_iff.mp hs with ⟨c, -, hloop⟩
    rw [loop, if_pos hres] at hloop
    exact (Option.some.inj hloop).symm

/-- Data that is refused is not pushed into the cache. -/
theorem chain_refused {data : Block UInt8} {p : Platform}
    (hs : s.step (.chain data p) = some s') (hacc : ¬Accepts s) : s' = s := by
  rcases Option.map_eq_some_iff.mp hs with ⟨c, -, rfl⟩
  unfold push
  split
  · rfl
  split
  · rfl
  split
  · rfl
  rename_i hsink heos hunexpected
  exact absurd ⟨not_not.mp hsink, by simpa using heos, by simpa using hunexpected⟩ hacc

/-- Only after an EOS from downstream are the buffers dropped. -/
theorem pushed_kept {ret : FlowReturn} {p : ℕ → Platform}
    (hs : s.step (.pushed ret p) = some s')
    (hkept : ¬(s.srcresult = .ok ∧ ret = .eos)) :
    ∃ ret', s' = { s with pushing := false }.finish ret' := by
  rw [step] at hs
  split at hs
  · cases hs
  · rcases Option.bind_eq_some_iff.mp hs with ⟨c, -, hpushed⟩
    simp only [pushed] at hpushed
    split at hpushed
    · exact ⟨_, (Option.some.inj hpushed).symm⟩
    split at hpushed
    · rename_i hres hret
      exact absurd ⟨not_not.mp hres, hret⟩ hkept
    · exact ⟨_, (Option.some.inj hpushed).symm⟩

theorem pushed_dropped {p : ℕ → Platform} (hs : s.step (.pushed .eos p) = some s')
    (hres : s.srcresult = .ok) :
    ∃ c c' bs, s.cache = some c ∧ dropLoop s.isEos p (dropFuel c) c = some (c', bs) ∧
      s' = { s with
        pushing := false
        cache := some c'
        popped := s.popped ++ bs
        unreffed := s.unreffed ++ bs
        unexpected := true }.finish .ok := by
  rw [step] at hs
  split at hs
  · cases hs
  · rcases Option.bind_eq_some_iff.mp hs with ⟨c, hc, hpushed⟩
    simp only [pushed, hres, ne_eq, not_true_eq_false, if_false, if_true] at hpushed
    rcases Option.map_eq_some_iff.mp hpushed with ⟨⟨c', bs⟩, hdrop, heq⟩
    exact ⟨c, c', bs, hc, hdrop, heq.symm⟩

/-- A new cache, with nothing handed over yet that counts. -/
theorem Positioned.start {memory : Fin n → ℕ → UInt8} {file : Option File}
    (hcache : s'.cache = some { Cache.new n memory file with autoremove := s.recordingRemove })
    (hcur : s'.curBytes = 0) (hlast : s'.lastEnd k = 0)
    (hflushed : k ≤ (handed s'.trace).length) : Positioned s' k := by
  refine ⟨?_, hflushed, ?_⟩
  · rw [hcur, hlast]
    rfl
  · intro c hc
    rw [hcache] at hc
    cases hc
    rw [hlast]
    exact (Serving.of_new memory file).setAutoremove _

/-- The element starts again, behind no buffer that counts. -/
theorem Positioned.readyToPaused (h : Positioned s k) (hlast : s.lastEnd k = 0)
    (memory : Fin n → ℕ → UInt8) (file : Option File) :
    Positioned (s.readyToPaused memory file) k := by
  have hhanded : handed (s.readyToPaused memory file).trace = handed s.trace := by
    show handed (s.trace ++ [.started]) = _
    rw [handed_append]
    exact List.append_nil _
  refine Positioned.start (s := s) rfl ?_ ?_ ?_
  · have hposition := h.position
    rw [hlast] at hposition
    exact hposition
  · rw [FluTSBase.lastEnd, hhanded]
    exact hlast
  · rw [hhanded]
    exact h.flushed

/-- The loop goes on with what the push returned, or is paused. -/
theorem Positioned.returned (h : Positioned s k) (ret : FlowReturn) :
    Positioned ({ s with pushing := false }.finish ret) k := by
  have hback : Positioned { s with pushing := false } k := h.congr rfl rfl h.serving
  exact hback.finish ret

end FluTSBase

namespace Watched

open FluTSBase

variable {n : ℕ} [NeZero n] {w w' : Watched n}

/-- An element at its beginning. -/
def init (n : ℕ) : Watched n := ⟨FluTSBase.init n, 0⟩

/-- A step of the element; a FLUSH_STOP is noted. -/
def step (w : Watched n) (l : ElementOp n) : Option (Watched n) :=
  (w.element.step l).map fun s =>
    { element := s
      flushed := match l with
        | .sinkEvent (.flushStop _ _) => (handed s.trace).length
        | _ => w.flushed }

/-- The OFFSET_END of the last buffer handed over since the last FLUSH_STOP, or 0. -/
def lastEnd (w : Watched n) : ℕ := w.element.lastEnd w.flushed

/-- The refills that the step makes fit, and a buffer is not freed when a seek has emptied
its slot. The element is not started again behind a buffer that was handed over. -/
def refillsFit (w : Watched n) : ElementOp n → Prop
  | .readyToPaused _ _ => w.lastEnd = 0
  | .chain _ _ => ∀ c, w.element.cache = some c → w.element.Accepts → PushFits c
  | .loop _ => ∀ c, w.element.cache = some c → w.element.srcresult = .ok →
      PopFits c w.element.isEos
  | .pushed ret p => ∀ c, w.element.cache = some c → w.element.srcresult = .ok → ret = .eos →
      DropFits w.element.isEos p (dropFuel c) c
  | .resumeSeek _ => ∀ c offset, w.element.cache = some c → w.element.seeking = some offset →
      c.SeeksDisk offset → RefillFits (c.sought (c.clamp offset))
  | .free k => ∀ c b, w.element.cache = some c → w.element.live[k]? = some b →
      (c.slots b.slot).state ≠ .empty
  | _ => True

theorem positioned_sinkEvent (h : Positioned w.element w.flushed) {e : SinkEvent n}
    (hs : w.step (.sinkEvent e) = some w') : Positioned w'.element w'.flushed := by
  cases e with
  | flushStop memory file =>
      cases hs
      refine Positioned.start (s := w.element) rfl rfl ?_ (Nat.le_refl _)
      rw [FluTSBase.lastEnd, List.drop_length]
      rfl
  | flushStart =>
      cases hs
      exact h.append (w := [.flushStart]) rfl rfl rfl h.serving
  | eos =>
      cases hs
      exact h.congr rfl rfl h.serving
  | segment =>
      cases hs
      exact h.congr rfl rfl h.serving
  | streamStart id =>
      cases hs
      exact h.congr rfl rfl h.serving
  | other =>
      cases hs
      exact h

theorem positioned_step (h : Positioned w.element w.flushed) {l : ElementOp n}
    (hok : refillsFit w l) (hs : w.step l = some w') : Positioned w'.element w'.flushed := by
  by_cases hevent : ∃ e, l = .sinkEvent e
  · rcases hevent with ⟨e, rfl⟩
    exact positioned_sinkEvent h hs
  rcases Option.map_eq_some_iff.mp hs with ⟨s, hstep, hw'⟩
  -- no other step is a FLUSH_STOP
  have helement : w'.element = s ∧ w'.flushed = w.flushed := by
    rw [← hw']
    refine ⟨rfl, ?_⟩
    cases l with
    | sinkEvent e => exact absurd ⟨e, rfl⟩ hevent
    | _ => rfl
  rw [helement.1, helement.2]
  cases step_case hstep with
  | sinkEvent e => exact absurd ⟨e, rfl⟩ hevent
  | readyToPaused memory file => exact h.readyToPaused hok memory file
  | pausedToReady =>
      unfold FluTSBase.stop
      split
      · exact h
      · exact h.congr rfl rfl fun c hc => nomatch hc
  | sinkActivate active =>
      cases active with
      | true => exact h.congr rfl rfl h.serving
      | false => exact h.congr rfl rfl h.serving
  | srcActivate active =>
      cases active with
      | true => exact h.congr rfl rfl h.serving
      | false => exact h.congr rfl rfl h.serving
  | setRecordingRemove value =>
      refine h.congr rfl rfl ?_
      intro c' hc'
      rcases Option.map_eq_some_iff.mp hc' with ⟨c, hc, rfl⟩
      exact (h.serving c hc).setAutoremove value
  | chainRefused data p => exact h
  | chain data p c posted started hc =>
      by_cases hacc : w.element.Accepts
      · refine h.congr rfl rfl ?_
        rintro c' ⟨⟩
        exact (h.serving c hc).push (hok c hc hacc) data p
      · rw [chain_refused hstep hacc]
        exact h
  | startRecording p c hc =>
      refine h.congr rfl rfl ?_
      rintro c' ⟨⟩
      exact (h.serving c hc).startRecording p
  | seekRefused e => exact h
  | seek e c offset hc hoffset =>
      exact h.append (w := [.flushStart]) rfl rfl rfl h.serving
  | resumeSeek p c c' offset hc hoffset hc' =>
      refine h.append (w := [.flushStop]) rfl rfl rfl ?_
      rintro c₁ ⟨⟩
      exact (h.serving c hc).seek (hok c offset hc hoffset) hc'
  | loopFlushing calls => exact h.finish _
  | loopPushing calls c t hc hres hpop => exact h.pop hc (hok c hc hres) hpop
  | loopEnded calls c t ret hc hpop =>
      by_cases hres : w.element.srcresult = .ok
      · exact (h.pop hc (hok c hc hres) hpop).finish ret
      · rw [loop_flushing hstep hres]
        exact h.finish _
  | pushed ret ret' p => exact h.returned ret'
  | dropped ret p c c' bs hc hdrop =>
      by_cases hdrops : w.element.srcresult = .ok ∧ ret = .eos
      · refine Positioned.finish ?_ .ok
        refine h.congr rfl rfl ?_
        rintro c₁ ⟨⟩
        exact (h.serving c hc).dropLoop (hok c hc hdrops.1 hdrops.2) hdrop
      · rcases pushed_kept hstep hdrops with ⟨ret', heq⟩
        rw [heq]
        exact h.returned ret'
  | free k c b hc hb =>
      refine h.congr rfl rfl ?_
      rintro c₁ ⟨⟩
      exact (h.serving c hc).free (hok c b hc hb)
  | migrate p c hc =>
      refine h.congr rfl rfl ?_
      rintro c' ⟨⟩
      exact (h.serving c hc).migrationThread p

/-- In every run whose refills fit, with a stream below 2^63: the position answered for is
the OFFSET_END of the last buffer that was handed over since the last FLUSH_STOP, and is
within the duration, exactly when that buffer ends below 2^32. -/
theorem bytes_position_iff (h : Reach step refillsFit (init n) w) {c : Cache n}
    (hc : w.element.cache = some c) (hbelow : c.hOffset < 2 ^ 63) :
    (∃ position duration : ℤ,
      w.element.query c (.position .bytes) = some (.position .bytes position) ∧
      w.element.query c (.duration .bytes) = some (.duration .bytes duration) ∧
      position = w.lastEnd ∧ position ≤ duration) ↔ w.lastEnd < 2 ^ 32 := by
  have hpositioned : Positioned w.element w.flushed := by
    apply h.invariant (P := fun w => Positioned w.element w.flushed)
    · exact ⟨rfl, Nat.le_refl 0, fun c hc => nomatch hc⟩
    · intro w l w' hinv hok hs
      exact positioned_step hinv hok hs
  have hcur : w.element.curBytes = guint w.lastEnd := hpositioned.position
  have hlast : w.lastEnd ≤ c.hOffset := (hpositioned.serving c hc).last
  have hduration : gint64 c.getTotalBytesReceived = c.hOffset :=
    gint64_of_lt (by omega) (by exact_mod_cast hbelow)
  constructor
  · rintro ⟨position, duration, hposition, -, hexact, -⟩
    -- the answer has only 32 bits
    simp only [query, if_true, Option.some.injEq, QueryAnswer.position.injEq, true_and]
      at hposition
    rw [hcur, guint] at hposition
    omega
  · intro hsmall
    refine ⟨w.element.curBytes, gint64 c.getTotalBytesReceived, rfl, rfl, ?_, ?_⟩
    · rw [hcur, guint, Nat.mod_eq_of_lt hsmall]
    · rw [hduration, hcur, guint, Nat.mod_eq_of_lt hsmall]
      exact_mod_cast hlast

/-- The ring overflows, and two buffers go downstream while the recording runs. -/
theorem bytes_position_iff_recording : ∃ (w : Watched 2) (c : Cache 2),
    Reach step refillsFit (init 2) w ∧ w.element.cache = some c ∧ c.isRecording = true ∧
      w.lastEnd = 2 * cacheSlotSize ∧ ∃ position duration : ℤ,
        w.element.query c (.position .bytes) = some (.position .bytes position) ∧
        w.element.query c (.duration .bytes) = some (.duration .bytes duration) ∧
        position = w.lastEnd ∧ position ≤ duration := by
  have h₀ : Reach step refillsFit (init 2) _ := .refl
  have h₁ := h₀.extend (.readyToPaused (fun _ _ => 0) (some .new)) rfl rfl
  have h₂ := h₁.extend (.srcActivate true) trivial rfl
  have h₃ := h₂.extend (.sinkActivate true) trivial rfl
  have h₄ := h₃.extend (.chain ⟨3 * cacheSlotSize, fun _ => 7⟩ .allOk)
    (by rintro c ⟨⟩ - habs; cases habs) rfl
  have h₅ := h₄.extend (.loop .allOk) (by rintro c ⟨⟩ - habs; cases habs) rfl
  have h₆ := h₅.extend (.pushed .ok fun _ => .allOk) (by rintro c - - habs; cases habs) rfl
  have h₇ := h₆.extend (.loop .allOk) (by rintro c ⟨⟩ - habs; cases habs) rfl
  exact ⟨_, _, h₇, rfl, rfl, rfl, (bytes_position_iff h₇ rfl (by decide)).mpr (by decide)⟩

/-- Four gigabytes and more go to the file, and after a seek the first buffer behind them
is handed over. -/
theorem position_starts_again :
    ¬∀ (w : Watched 1) (c : Cache 1), Reach step (fun _ _ => True) (init 1) w →
      w.element.cache = some c → c.hOffset < 2 ^ 63 →
      w.element.query c (.position .bytes) = some (.position .bytes w.lastEnd) := by
  intro hall
  have h₀ : Reach step (fun _ _ => True) (init 1) _ := .refl
  have h₁ := h₀.extend (.readyToPaused (fun _ _ => 0) (some .new)) trivial rfl
  have h₂ := h₁.extend (.srcActivate true) trivial rfl
  have h₃ := h₂.extend (.sinkActivate true) trivial rfl
  have h₄ := h₃.extend (.chain ⟨4295000063, fun _ => 7⟩ .allOk) trivial rfl
  have h₅ := h₄.extend (.migrate .allOk) trivial rfl
  have h₆ := h₅.extend (.migrate .allOk) trivial rfl
  have h₇ := h₆.extend (.migrate .allOk) trivial rfl
  have h₈ := h₇.extend (.seek ⟨true, .bytes, .set, 4294967295⟩) trivial rfl
  have h₉ := h₈.extend (.resumeSeek .allOk) trivial rfl
  have h₁₀ := h₉.extend (.loop .allOk) trivial rfl
  have hanswer : some (QueryAnswer.position .bytes 32767) =
      some (QueryAnswer.position .bytes 4295000063) := hall _ _ h₁₀ rfl (by decide)
  cases hanswer

end Watched

end TimeShift
