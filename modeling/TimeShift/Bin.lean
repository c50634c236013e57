import TimeShift.Indexing
import TimeShift.LastTime
import TimeShift.Pipeline
import TimeShift.SeekerEvents

/-!
# The bin

`flutsmpegbin.c` puts the indexer before the time shifter and the seeker behind it, and gives
one index to both. The data passes the indexer on its way into the time shifter, in the
thread of upstream; what the loop of the time shifter sends passes the seeker; seeks come
from downstream, pass the seeker and go on to the time shifter. These threads run side by
side, so that the indexer may be a buffer ahead of the time shifter, and the index may grow
between a lookup of the seeker and the next one.

All that leaves the bin is as if the seeker had always had the present index
(`leaves_in_time`): the time shifter sends what it has received, and what the indexer has
yet to associate comes behind that. A seek to a time is followed by a segment that does not
start behind that time (`time_seek_lands`), and the duration in time does not decrease
(`duration_advances`).
-/

set_option linter.unusedSectionVars false

namespace TimeShift

open Bytes Machine Cache

/-- The elements of a `GstFluMPEGShifterBin` with what is on its way between them. The index
of the indexer is that of the seeker, too. -/
structure FluMPEGShifterBin (n : ℕ) where
  indexing : Indexing
  /-- The buffer that has left the indexer, and has not come to the time shifter. -/
  carried : Option (Block UInt8)
  feed : Feed n
  /-- `timestamp_next_buffer` of the seeker. -/
  timestampNextBuffer : Bool
  /-- The seeks that have left the seeker, each with the time that it has been for. -/
  asked : List (SeekEvent × Option ℕ)
  /-- The time of the seek that the time shifter has accepted. -/
  underway : Option ℕ
  /-- The time of the last seek that it has made. -/
  landed : Option ℕ
  /-- What has left the time shifter, and has not come to the seeker. -/
  coming : List (Output n)
  /-- What has come to the seeker, or was refused there. -/
  seen : List (Output n × Bool)
  /-- What has left the seeker. -/
  out : List (SeekerOutput n)

/-- The steps of the bin: data comes to the indexer, and from there to the time shifter,
unless that refuses it; the time shifter makes a step of its own; what it has sent comes to
the seeker; a seek comes from downstream, and then to the time shifter; and the parser
announces a PID. -/
inductive BinOp (n : ℕ) where
  | data (data : Block UInt8)
  | enter (p : Platform)
  | drop
  | shifter (l : ElementOp n)
  | arrive (refused : Bool)
  | seek (e : SeekRequest)
  | ask (k : ℕ)
  | pmt (pcrPid : ℤ)

/-- The time shifter makes the step by itself. -/
def ElementOp.own {n : ℕ} : ElementOp n → Bool
  | .chain _ _ | .seek _ => false
  | _ => true

namespace FluMPEGShifterBin

variable {n : ℕ} [NeZero n]

/-- `gst_flumpegshifter_bin_init`. -/
def init (n : ℕ) [NeZero n] : FluMPEGShifterBin n where
  indexing := Indexing.init
  carried := none
  feed := Feed.init n
  timestampNextBuffer := false
  asked := []
  underway := none
  landed := none
  coming := []
  seen := []
  out := []

/-- The seeker, with the index. -/
def seeker (s : FluMPEGShifterBin n) : Seeker := ⟨some s.indexing.ts.index, s.timestampNextBuffer⟩

/-- What the time shifter answers when the seeker asks for the duration in bytes. The code
does not check that there is a cache. -/
def durationBytes (s : FluMPEGShifterBin n) : Option ℤ :=
  s.feed.element.cache.bind fun c =>
    match s.feed.element.query c (.duration .bytes) with
    | some (.duration _ d) => some d
    | _ => none

/-- A query from downstream, as far as the seeker answers it. -/
def query (s : FluMPEGShifterBin n) (q : Query) : Option QueryAnswer :=
  s.seeker.query s.durationBytes q

/-- The time shifter has made a step; what it has sent is coming to the seeker. -/
def shift (s : FluMPEGShifterBin n) (feed : Feed n) : FluMPEGShifterBin n :=
  { s with
    feed := feed
    landed := if feed.sought.isSome then s.landed else none
    coming := s.coming ++ feed.element.trace.drop s.feed.element.trace.length }

/-- One step of the bin. -/
def step (s : FluMPEGShifterBin n) : BinOp n → Option (FluMPEGShifterBin n)
  | .data data =>
    -- the thread of upstream comes back when it has delivered the last buffer
    if s.carried.isSome then none
    else (s.indexing.step (.buffer data)).map fun indexing =>
      { s with indexing := indexing, carried := some data }
  | .enter p =>
    s.carried.bind fun data => (s.feed.step (.chain data p)).map fun feed =>
      { s.shift feed with carried := none }
  | .drop => some { s with carried := none }
  | .shifter l =>
    if l.own then
      (s.feed.step l).map fun feed =>
        match l with
        | .resumeSeek _ => { s.shift feed with landed := s.underway, underway := none }
        | _ => s.shift feed
    else none
  | .arrive refused =>
    match s.coming with
    | [] => none
    | o :: rest =>
      let r := s.seeker.handle o refused
      some { s with
        timestampNextBuffer := r.1.timestampNextBuffer
        coming := rest
        seen := s.seen ++ [(o, refused)]
        out := s.out ++ [r.2] }
  | .seek e =>
    let e' := (s.seeker.transformSeekEvent e s.durationBytes).toSeekEvent
    some { s with asked := s.asked ++ [(e', e.target)] }
  | .ask k =>
    s.asked[k]?.bind fun r => (s.feed.step (.seek r.1)).map fun feed =>
      { s.shift feed with
        asked := s.asked.eraseIdx k
        underway := if feed.element.seeking.isSome then r.2 else none }
  | .pmt pcrPid =>
    (s.indexing.step (.setPcrPid pcrPid)).map fun indexing => { s with indexing := indexing }

/-- The steps of the time shifter are orderly (`Feed.orderly`). -/
def orderly (ok : Cache n → Label → Prop) (F : Option File → Prop) (s : FluMPEGShifterBin n) :
    BinOp n → Prop
  | .enter p => ∀ data, s.carried = some data → s.feed.orderly ok F (.chain data p)
  | .shifter l => s.feed.orderly ok F l
  | _ => True

/-- The associations of the index. -/
def associations (s : FluMPEGShifterBin n) : List Association :=
  s.indexing.added.map Added.association

/-- The size of the buffer between the indexer and the time shifter. -/
def between (s : FluMPEGShifterBin n) : ℕ := s.carried.elim 0 Block.size

/-- What a buffer does to the indexer. -/
theorem buffer_spec {i i' : Indexing} {data : Block UInt8} (hs : i.step (.buffer data) = some i') :
    i'.ts.currentOffset = i.ts.currentOffset + data.size ∧
      (i'.added = i.added ∨
        ∃ y, i'.added = i.added ++ [y] ∧ i.ts.currentOffset ≤ y.association.offset) := by
  rcases Indexing.step_buffer hs with ⟨added, hcollect, -, -, hadded⟩
  rcases i.ts.collectTime_spec data with ⟨ts, added', hcollect', hcurrent, hplace⟩
  cases hcollect'.symm.trans hcollect
  refine ⟨hcurrent, ?_⟩
  cases added with
  | none => exact Or.inl (by simpa using hadded)
  | some a => exact Or.inr ⟨⟨a, i.ts.pcrPid⟩, by simpa using hadded, (hplace a rfl).1⟩

/-- The outcomes of a step. -/
inductive StepCase (s : FluMPEGShifterBin n) : BinOp n → FluMPEGShifterBin n → Prop
  | data (data : Block UInt8) (i : Indexing) : s.carried = none →
      s.indexing.step (.buffer data) = some i →
      StepCase s (.data data) { s with indexing := i, carried := some data }
  | enter (p : Platform) (data : Block UInt8) (feed : Feed n) : s.carried = some data →
      s.feed.step (.chain data p) = some feed →
      StepCase s (.enter p) { s.shift feed with carried := none }
  | drop : StepCase s .drop { s with carried := none }
  | shifter (l : ElementOp n) (feed : Feed n) : l.own = true → (∀ p, l ≠ .resumeSeek p) →
      s.feed.step l = some feed → StepCase s (.shifter l) (s.shift feed)
  | resume (p : Platform) (feed : Feed n) : s.feed.step (.resumeSeek p) = some feed →
      StepCase s (.shifter (.resumeSeek p))
        { s.shift feed with landed := s.underway, underway := none }
  | arrive (refused : Bool) (o : Output n) (rest : List (Output n)) : s.coming = o :: rest →
      StepCase s (.arrive refused) { s with
        timestampNextBuffer := (s.seeker.handle o refused).1.timestampNextBuffer
        coming := rest
        seen := s.seen ++ [(o, refused)]
        out := s.out ++ [(s.seeker.handle o refused).2] }
  | seek (e : SeekRequest) : StepCase s (.seek e) { s with asked := s.asked ++
      [((s.seeker.transformSeekEvent e s.durationBytes).toSeekEvent, e.target)] }
  | ask (k : ℕ) (r : SeekEvent × Option ℕ) (feed : Feed n) : s.asked[k]? = some r →
      s.feed.step (.seek r.1) = some feed →
      StepCase s (.ask k) { s.shift feed with
        asked := s.asked.eraseIdx k
        underway := if feed.element.seeking.isSome then r.2 else none }
  | pmt (pcrPid : ℤ) (i : Indexing) : s.indexing.step (.setPcrPid pcrPid) = some i →
      StepCase s (.pmt pcrPid) { s with indexing := i }

theorem step_case {s s' : FluMPEGShifterBin n} {l : BinOp n} (hs : s.step l = some s') :
    StepCase s l s' := by
  cases l with
  | data data =>
      rw [step] at hs
      split at hs
      · cases hs
      · rename_i hidle
        rcases Option.map_eq_some_iff.mp hs with ⟨i, hi, rfl⟩
        exact .data data i (Option.not_isSome_iff_eq_none.mp hidle) hi
  | enter p =>
      rcases Option.bind_eq_some_iff.mp hs with ⟨data, hdata, hs⟩
      rcases Option.map_eq_some_iff.mp hs with ⟨feed, hfeed, rfl⟩
      exact .enter p data feed hdata hfeed
  | drop =>
      cases hs
      exact .drop
  | shifter l =>
      rw [step] at hs
      split at hs
      · rename_i hown
        rcases Option.map_eq_some_iff.mp hs with ⟨feed, hfeed, rfl⟩
        split
        · exact .resume _ feed hfeed
        · rename_i hresume
          exact .shifter l feed hown (fun p habs => hresume p habs) hfeed
      · cases hs
  | arrive refused =>
      rw [step] at hs
      split at hs
      · cases hs
      · rename_i o rest hcoming
        cases hs
        exact .arrive refused o rest hcoming
  | seek e =>
      cases hs
      exact .seek e
  | ask k =>
      rcases Option.bind_eq_some_iff.mp hs with ⟨r, hr, hs⟩
      rcases Option.map_eq_some_iff.mp hs with ⟨feed, hfeed, rfl⟩
      exact .ask k r feed hr hfeed
  | pmt pcrPid =>
      cases hs
      exact .pmt pcrPid _ rfl

/-- The indexer only counts up. -/
theorem step_currentOffset {s s' : FluMPEGShifterBin n} {l : BinOp n} (hs : s.step l = some s') :
    s.indexing.ts.currentOffset ≤ s'.indexing.ts.currentOffset := by
  cases step_case hs with
  | data data i hidle hi =>
      have := (buffer_spec hi).1
      show _ ≤ i.ts.currentOffset
      omega
  | pmt pcrPid i hi =>
      cases hi
      exact Nat.le_refl _
  | _ => exact Nat.le_refl _

/-! ## What holds in every run -/

variable {s s' : FluMPEGShifterBin n} {ok : Cache n → Label → Prop} {F : Option File → Prop}

/-- The time shifter has not got more than the indexer has counted, and sends what it has
got. -/
structure Running (ok : Cache n → Label → Prop) (F : Option File → Prop)
    (s : FluMPEGShifterBin n) : Prop where
  feed : Reach Feed.step (Feed.orderly ok F) (Feed.init n) s.feed
  ordered : s.indexing.Ordered
  counts : s.feed.element.Counts
  opened : s.feed.Opened
  stream : s.feed.accepted.length ≤ s.feed.pushed.length
  counted : s.feed.pushed.length + s.between ≤ s.indexing.ts.currentOffset
  introducing : Introducing s.feed.element.trace
  behind : ∀ b, .buffer b ∈ s.feed.element.trace →
    b.offset + s.between < s.indexing.ts.currentOffset
  seen : s.seen.map Prod.fst ++ s.coming = s.feed.element.trace

namespace Running

theorem of_init : Running ok F (init n) where
  feed := .refl
  ordered := .of_init
  counts _ habs := nomatch habs
  opened _ habs := nomatch habs
  stream := Nat.le_refl 0
  counted := Nat.le_refl 0
  introducing := trivial
  behind _ habs := nomatch habs
  seen := rfl

/-- A step of the time shifter, which gets no more than what is on its way to it. -/
theorem shift (h : Running ok F s) (hok : Session.Transfers ok)
    (hreads : ∀ c l, ok c l → c.readsOn l) {l : ElementOp n}
    (hl : s.feed.orderly ok F l) (hs : s.feed.step l = some s'.feed)
    (hindexing : s'.indexing = s.indexing) (hseen : s'.seen = s.seen)
    (hcoming : s'.coming = (s.shift s'.feed).coming)
    (hbetween : s'.between + Feed.bytes l ≤ s.between) : Running ok F s' := by
  have hfeed := h.feed.extend l hl hs
  rcases Feed.step_adds h.counts hs with ⟨w, hadds, hnew, -⟩
  rcases Feed.step_stream hs with ⟨hpushed, hstream, -⟩
  have hcounted : s'.feed.pushed.length + s'.between ≤ s'.indexing.ts.currentOffset := by
    have := h.counted
    rw [hindexing]
    omega
  refine ⟨hfeed, by rw [hindexing]; exact h.ordered, hadds.counts, h.opened.step h.counts hs,
    hstream h.stream, hcounted, ?_, ?_, ?_⟩
  · rw [hadds.trace]
    exact h.introducing.append hadds.introducing
  · intro b hb
    rw [hadds.trace, List.mem_append] at hb
    rcases hb with hb | hb
    · have := h.behind b hb
      rw [hindexing]
      omega
    · -- it is a piece of what has been accepted
      have hhanded : b ∈ FluTSBase.handed w := List.mem_filterMap.mpr ⟨_, hb, rfl⟩
      rcases hnew b hhanded with ⟨hmem, hcache⟩
      rcases Option.isSome_iff_exists.mp hcache with ⟨c, hc⟩
      rcases Feed.delivering hfeed hok hreads hc with ⟨_, _, _, s₁, -, hserves, hdel, -⟩
      have hlt := (hdel.labelled b (hserves.handed.subset hmem)).lt_length
      rw [hserves.accepted] at hlt
      have := hstream h.stream
      omega
  · rw [hseen, hcoming, hadds.trace, FluMPEGShifterBin.shift, hadds.trace, List.drop_left,
      ← List.append_assoc, h.seen]

/-- A step that neither the indexer nor the time shifter takes part in. -/
theorem keep (h : Running ok F s) (hindexing : s'.indexing = s.indexing) (hfeed : s'.feed = s.feed)
    (hbetween : s'.between ≤ s.between)
    (hseen : s'.seen.map Prod.fst ++ s'.coming = s.seen.map Prod.fst ++ s.coming) :
    Running ok F s' := by
  have hcounted := h.counted
  refine ⟨by rw [hfeed]; exact h.feed, by rw [hindexing]; exact h.ordered,
    by rw [hfeed]; exact h.counts, by rw [hfeed]; exact h.opened, by rw [hfeed]; exact h.stream,
    by rw [hfeed, hindexing]; omega, by rw [hfeed]; exact h.introducing, ?_, ?_⟩
  · intro b hb
    rw [hfeed] at hb
    have := h.behind b hb
    rw [hindexing]
    omega
  · rw [hseen, hfeed]
    exact h.seen

/-- The indexer has seen a buffer. -/
theorem data (h : Running ok F s) {data : Block UInt8} {i : Indexing} (hidle : s.carried = none)
    (hi : s.indexing.step (.buffer data) = some i) :
    Running ok F { s with indexing := i, carried := some data } := by
  have hcurrent := (buffer_spec hi).1
  have hnone : s.between = 0 := by rw [between, hidle, Option.elim_none]
  have hcounted := h.counted
  refine ⟨h.feed, (h.ordered.buffer hi).1, h.counts, h.opened, h.stream, ?_, h.introducing, ?_,
    h.seen⟩
  · show s.feed.pushed.length + data.size ≤ i.ts.currentOffset
    omega
  · intro b hb
    have := h.behind b hb
    show b.offset + data.size < i.ts.currentOffset
    omega

theorem step (h : Running ok F s) (hok : Session.Transfers ok)
    (hreads : ∀ c l, ok c l → c.readsOn l) {l : BinOp n} (hl : s.orderly ok F l)
    (hs : s.step l = some s') : Running ok F s' := by
  cases step_case hs with
  | data data i hidle hi => exact h.data hidle hi
  | enter p data feed hdata hfeed =>
      refine h.shift hok hreads (hl data hdata) hfeed rfl rfl rfl ?_
      rw [between, between, hdata]
      exact Nat.le_of_eq (Nat.zero_add data.size)
  | drop => exact h.keep rfl rfl (Nat.zero_le _) rfl
  | shifter l feed hown hresume hfeed =>
      have hbytes : Feed.bytes l = 0 := by
        cases l with
        | chain data p => cases hown
        | _ => rfl
      exact h.shift hok hreads hl hfeed rfl rfl rfl (Nat.le_of_eq (by rw [hbytes]; rfl))
  | resume p feed hfeed =>
      exact h.shift hok hreads (l := .resumeSeek p) hl hfeed rfl rfl rfl (Nat.le_refl _)
  | arrive refused o rest hcoming =>
      refine h.keep rfl rfl (Nat.le_refl _) ?_
      rw [hcoming]
      simp
  | seek e => exact h.keep rfl rfl (Nat.le_refl _) rfl
  | ask k r feed hr hfeed =>
      exact h.shift hok hreads (l := .seek r.1) trivial hfeed rfl rfl rfl (Nat.le_refl _)
  | pmt pcrPid i hi =>
      exact ⟨h.feed, h.ordered.step (l := .setPcrPid pcrPid) trivial hi, h.counts, h.opened,
        h.stream, by cases hi; exact h.counted, h.introducing, by cases hi; exact h.behind, h.seen⟩

theorem of_reach (h : Reach FluMPEGShifterBin.step (FluMPEGShifterBin.orderly ok F) (init n) s)
    (hok : Session.Transfers ok) (hreads : ∀ c l, ok c l → c.readsOn l) : Running ok F s :=
  h.invariant .of_init fun _ _ _ hinv hl hs => hinv.step hok hreads hl hs

/-- The associations advance, as long as the offsets fit. -/
theorem advancing (h : Running ok F s) (hsize : s.indexing.ts.currentOffset < 2 ^ 63) :
    Advancing s.associations ∧ ∀ e ∈ s.associations, e.offset < 2 ^ 63 - 1 := by
  refine ⟨h.ordered.advancing (Nat.le_of_lt hsize), ?_⟩
  intro e he
  rcases List.mem_map.mp he with ⟨x, hx, rfl⟩
  have := h.ordered.passed x hx
  omega

theorem index (h : Running ok F s) : s.indexing.ts.index = .ofAssociations s.associations :=
  h.ordered.index

/-- What is converted lies before all that the indexer has yet to associate. -/
theorem offset_lt (h : Running ok F s) {o : Output n} (ho : o ∈ s.feed.element.trace) {x : ℕ}
    (hx : o.offset = some x) : x + s.between < s.indexing.ts.currentOffset := by
  rcases h.introducing.offset ho hx with ⟨b, hb, rfl⟩
  exact h.behind b hb

theorem mem_trace (h : Running ok F s) {x : Output n × Bool} (hx : x ∈ s.seen) :
    x.1 ∈ s.feed.element.trace := by
  rw [← h.seen]
  exact List.mem_append_left _ (List.mem_map_of_mem hx)

/-- What the indexer adds is behind all that it has passed, and the conversion of an offset
before that is the same. -/
theorem index_data (h : Running ok F s) (h' : Running ok F s')
    (hsize : s'.indexing.ts.currentOffset < 2 ^ 63) {data : Block UInt8}
    (hi : s.indexing.step (.buffer data) = some s'.indexing) :
    (∀ k ∈ s.associations, k ∈ s'.associations) ∧
      ∀ x < s.indexing.ts.currentOffset, s'.indexing.ts.index.bytesToStreamTime x =
        s.indexing.ts.index.bytesToStreamTime x := by
  rw [h.index, h'.index]
  rcases (buffer_spec hi).2 with heq | ⟨y, heq, hle⟩
  · have hsame : s'.associations = s.associations := by rw [associations, heq, associations]
    rw [hsame]
    exact ⟨fun _ hk => hk, fun _ _ => rfl⟩
  · have hall : s'.associations = s.associations ++ [y.association] := by
      rw [associations, heq, List.map_append]
      rfl
    rcases h'.advancing hsize with ⟨hadvancing, hmax⟩
    rw [hall] at hadvancing hmax ⊢
    refine ⟨fun _ hk => List.mem_append_left _ hk, ?_⟩
    intro x hx
    exact MemIndex.bytesToStreamTime_snoc hadvancing hmax (by omega)

end Running

/-! ## Conversions and seeks -/

/-- An association up to the time is at the offset. -/
def Leads (s : FluMPEGShifterBin n) (t o : ℕ) : Prop :=
  ∃ k ∈ s.associations, k.time ≤ t ∧ k.offset = o

/-- The output is that of the present index, and the seeks are for offsets that the index
has had for their times. -/
structure Converting (s : FluMPEGShifterBin n) : Prop where
  shown : Seeker.handleAll ⟨some s.indexing.ts.index, false⟩ s.seen = (s.seeker, s.out)
  asked : ∀ r ∈ s.asked, ∀ t, r.2 = some t → r.1.format = .bytes ∧ r.1.startType = .set ∧
    (r.1.start = -1 ∨ ∃ o : ℕ, s.Leads t o ∧ r.1.start = o)
  underway : ∀ t, s.underway = some t → ∃ o, s.Leads t o ∧ s.feed.element.seeking = some o
  landed : ∀ t, s.landed = some t → ∃ o, s.Leads t o ∧ s.feed.sought = some o

namespace Converting

theorem of_init : Converting (init n) where
  shown := rfl
  asked _ habs := nomatch habs
  underway _ habs := nomatch habs
  landed _ habs := nomatch habs

/-- No association is lost, no seek is asked for, and those that are under way or have been
made were for associations that were there before. -/
theorem keep (h : Converting s)
    (hshown : Seeker.handleAll ⟨some s'.indexing.ts.index, false⟩ s'.seen = (s'.seeker, s'.out))
    (hleads : ∀ t o, s.Leads t o → s'.Leads t o) (hasked : ∀ r ∈ s'.asked, r ∈ s.asked)
    (hunderway : ∀ t, s'.underway = some t →
      ∃ o, s.Leads t o ∧ s'.feed.element.seeking = some o)
    (hlanded : ∀ t, s'.landed = some t → ∃ o, s.Leads t o ∧ s'.feed.sought = some o) :
    Converting s' := by
  refine ⟨hshown, ?_, ?_, ?_⟩
  · intro r hr t ht
    rcases h.asked r (hasked r hr) t ht with ⟨hformat, hset, hstart⟩
    refine ⟨hformat, hset, hstart.imp_right ?_⟩
    rintro ⟨o, hlead, ho⟩
    exact ⟨o, hleads t o hlead, ho⟩
  · intro t ht
    rcases hunderway t ht with ⟨o, hlead, ho⟩
    exact ⟨o, hleads t o hlead, ho⟩
  · intro t ht
    rcases hlanded t ht with ⟨o, hlead, ho⟩
    exact ⟨o, hleads t o hlead, ho⟩

/-- The indexer has seen a buffer: what it may have added comes behind all that has been
converted. -/
theorem data (hc : Converting s) (h : Running ok F s) {data : Block UInt8} {i : Indexing}
    (hidle : s.carried = none) (hi : s.indexing.step (.buffer data) = some i)
    (hsize : i.ts.currentOffset < 2 ^ 63) :
    Converting { s with indexing := i, carried := some data } := by
  rcases h.index_data (h.data hidle hi) hsize hi with ⟨hsub, hsame⟩
  rcases Seeker.handleAll_congr false
    (fun x (hx : x ∈ s.seen) segment hsegment => h.introducing.stop (hsegment ▸ h.mem_trace hx))
    (fun x hx b hb => hsame b (by
      have := h.offset_lt (h.mem_trace hx) hb
      omega)) with ⟨flag, out, hbefore, hafter⟩
  rcases Prod.mk.inj (hbefore.symm.trans hc.shown) with ⟨hseeker, hout⟩
  have hflag : flag = s.timestampNextBuffer := congrArg Seeker.timestampNextBuffer hseeker
  refine hc.keep ?_ ?_ (fun _ hr => hr) hc.underway hc.landed
  · rw [hflag, hout] at hafter
    exact hafter
  · rintro t o ⟨k, hk, hlead⟩
    exact ⟨k, hsub k hk, hlead⟩

/-- The seeker gets what is next. -/
theorem arrive (hc : Converting s) (o : Output n) (rest : List (Output n)) (refused : Bool) :
    Converting { s with
      timestampNextBuffer := (s.seeker.handle o refused).1.timestampNextBuffer
      coming := rest
      seen := s.seen ++ [(o, refused)]
      out := s.out ++ [(s.seeker.handle o refused).2] } := by
  rcases Seeker.handle_index s.indexing.ts.index s.timestampNextBuffer o refused with
    ⟨flag, out, hhandle⟩
  replace hhandle : s.seeker.handle o refused = (⟨some s.indexing.ts.index, flag⟩, out) := hhandle
  refine ⟨?_, hc.asked, hc.underway, hc.landed⟩
  dsimp only
  rw [Seeker.handleAll_append, hc.shown]
  simp only [Seeker.handleAll, hhandle]
  rfl

/-- The seek that was made last stays the last one, or is forgotten. -/
theorem landed_shift (hc : Converting s) (h : Running ok F s) {l : ElementOp n} {feed : Feed n}
    (hs : s.feed.step l = some feed) (hresume : ∀ p, l ≠ .resumeSeek p) {t : ℕ}
    (ht : (s.shift feed).landed = some t) : ∃ o, s.Leads t o ∧ feed.sought = some o := by
  replace ht : (if feed.sought.isSome then s.landed else none) = some t := ht
  split at ht
  · rename_i hsought
    rcases hc.landed t ht with ⟨o, hlead, ho⟩
    refine ⟨o, hlead, ?_⟩
    rcases Feed.step_adds h.counts hs with ⟨_, -, -, hsent⟩
    rcases hsent hresume with hnone | ⟨hsame, -⟩
    · rw [hnone] at hsought
      cases hsought
    · rw [hsame, ho]
  · cases ht

/-- The time shifter has made a step that leaves the seek under way as it is. -/
theorem shift (hc : Converting s) (h : Running ok F s) {l : ElementOp n} {feed : Feed n}
    (hs : s.feed.step l = some feed) (hseek : ∀ e, l ≠ .seek e)
    (hresume : ∀ p, l ≠ .resumeSeek p) : Converting (s.shift feed) := by
  refine hc.keep hc.shown (fun _ _ hlead => hlead) (fun _ hr => hr) ?_
    fun t ht => hc.landed_shift h hs hresume ht
  intro t ht
  have hsame := FluTSBase.step_seeking (Feed.step_element hs) hseek hresume
  rcases hc.underway t ht with ⟨o, hlead, ho⟩
  exact ⟨o, hlead, hsame.trans ho⟩

/-- The time shifter has made the seek. -/
theorem resume (hc : Converting s) {p : Platform} {feed : Feed n}
    (hs : s.feed.step (.resumeSeek p) = some feed) :
    Converting { s.shift feed with landed := s.underway, underway := none } := by
  refine hc.keep hc.shown (fun _ _ hlead => hlead) (fun _ hr => hr) (fun _ habs => nomatch habs) ?_
  intro t ht
  rcases hc.underway t ht with ⟨o, hlead, ho⟩
  rcases Option.map_eq_some_iff.mp hs with ⟨e, -, rfl⟩
  refine ⟨o, hlead, ?_⟩
  show (s.feed.restart e (s.feed.element.seeking.elim .start .seek)).sought = some o
  rw [ho]
  rfl

/-- A seek has come to the time shifter. When it is accepted, it is under way. -/
theorem ask (hc : Converting s) (h : Running ok F s)
    (hsize : s.indexing.ts.currentOffset < 2 ^ 63) {k : ℕ} {r : SeekEvent × Option ℕ}
    {feed : Feed n} (hr : s.asked[k]? = some r) (hfeed : s.feed.step (.seek r.1) = some feed) :
    Converting { s.shift feed with
      asked := s.asked.eraseIdx k
      underway := if feed.element.seeking.isSome then r.2 else none } := by
  refine hc.keep hc.shown (fun _ _ hlead => hlead) (fun r hr => List.mem_of_mem_eraseIdx hr) ?_
    fun t ht => hc.landed_shift h hfeed (fun _ habs => nomatch habs) ht
  intro t ht
  replace ht : (if feed.element.seeking.isSome then r.2 else none) = some t := ht
  split at ht
  · rename_i haccepted
    rcases Option.isSome_iff_exists.mp haccepted with ⟨o, ho⟩
    rcases FluTSBase.step_seek (Feed.step_element hfeed) with ⟨c, -, hseeking⟩
    rcases hc.asked r (List.mem_of_getElem? hr) t ht with ⟨hformat, hset, hstart⟩
    rcases FluTSBase.seekOffset_bytes hformat hset (hseeking.symm.trans ho) with ⟨ho', hne⟩
    rcases hstart with hnone | ⟨o', hlead, hstart⟩
    · rw [hnone] at ho'
      exact absurd ho' hne
    · have hfits : o' < 2 ^ 63 := by
        rcases hlead with ⟨a, ha, -, rfl⟩
        have := (h.advancing hsize).2 a ha
        omega
      rw [hstart, guint64_of_lt (by omega) (by omega), Int.toNat_natCast] at ho'
      exact ⟨o, ho' ▸ hlead, ho⟩
  · cases ht

/-- A seek has come from downstream, and left the seeker. -/
theorem seek (hc : Converting s) (h : Running ok F s)
    (hsize : s.indexing.ts.currentOffset < 2 ^ 63) (e : SeekRequest) :
    Converting { s with asked := s.asked ++
      [((s.seeker.transformSeekEvent e s.durationBytes).toSeekEvent, e.target)] } := by
  refine ⟨hc.shown, ?_, hc.underway, hc.landed⟩
  intro r hr t ht
  rcases List.mem_append.mp hr with hr | hr
  · exact hc.asked r hr t ht
  · cases List.mem_singleton.mp hr
    have hindex : s.seeker.index = some (.ofAssociations s.associations) := congrArg some h.index
    rcases Seeker.transformSeekEvent_target (h.advancing hsize).1 hindex ht s.durationBytes with
      ⟨hformat, hset, hstart⟩
    refine ⟨hformat, hset, hstart.imp_right ?_⟩
    rintro ⟨a, ha, hat, hstart⟩
    exact ⟨a.offset, ⟨a, ha, hat, rfl⟩, hstart⟩

theorem step (hc : Converting s) (h : Running ok F s)
    (hsize : s'.indexing.ts.currentOffset < 2 ^ 63) {l : BinOp n} (hs : s.step l = some s') :
    Converting s' := by
  have hsize' := (step_currentOffset hs).trans_lt hsize
  cases step_case hs with
  | data data i hidle hi => exact hc.data h hidle hi hsize
  | enter p data feed hdata hfeed =>
      have hshift := hc.shift h hfeed (fun _ habs => nomatch habs) fun _ habs => nomatch habs
      exact ⟨hshift.shown, hshift.asked, hshift.underway, hshift.landed⟩
  | drop => exact ⟨hc.shown, hc.asked, hc.underway, hc.landed⟩
  | shifter l feed hown hresume hfeed =>
      refine hc.shift h hfeed ?_ hresume
      rintro e rfl
      cases hown
  | resume p feed hfeed => exact hc.resume hfeed
  | arrive refused o rest hcoming => exact hc.arrive o rest refused
  | seek e => exact hc.seek h hsize e
  | ask k r feed hr hfeed => exact hc.ask h hsize' hr hfeed
  | pmt pcrPid i hi =>
      cases hi
      exact ⟨hc.shown, hc.asked, hc.underway, hc.landed⟩

/-- In every state reached, as long as the offsets fit. -/
theorem of_reach (h : Reach FluMPEGShifterBin.step (FluMPEGShifterBin.orderly ok F) (init n) s)
    (hok : Session.Transfers ok) (hreads : ∀ c l, ok c l → c.readsOn l)
    (hsize : s.indexing.ts.currentOffset < 2 ^ 63) : Converting s := by
  induction h with
  | refl => exact .of_init
  | @tail s s' l hreach hl hs ih =>
      have hle := step_currentOffset hs
      exact (ih (by omega)).step (Running.of_reach hreach hok hreads) hsize hs

end Converting

/-- In every run with orderly steps of the time shifter, working files and cache calls that
keep the slots in order and the reader in its place, whatever comes between: what leaves
the seeker is what it would be if the seeker had had the present index from the start, on
what the time shifter has sent. Every segment is in time, and the buffer that leaves behind
it, if there is one already that was not refused, is the one whose offset the segment has
been converted from, with the start of the segment as its timestamp. -/
theorem leaves_in_time (h : Reach step (orderly readsOn F) (init n) s)
    (hsize : s.indexing.ts.currentOffset < 2 ^ 63) :
    s.seen.map Prod.fst ++ s.coming = s.feed.element.trace ∧
      (Seeker.handleAll ⟨some s.indexing.ts.index, false⟩ s.seen).2 = s.out ∧
      ∀ pre segment post, s.out = pre ++ .segment segment :: post →
        Stamped s.indexing.ts.index segment post := by
  have hrunning := Running.of_reach h Session.readsOn_transfers fun _ _ hl => hl
  have hconverting := Converting.of_reach h Session.readsOn_transfers (fun _ _ hl => hl) hsize
  have hout := congrArg Prod.snd hconverting.shown
  refine ⟨hrunning.seen, hout, ?_⟩
  intro pre segment post hsplit
  have hintroducing := hrunning.introducing
  rw [← hrunning.seen] at hintroducing
  exact Seeker.handleAll_stamped hintroducing (hout.trans hsplit)

/-- The indexer has already seen a second packet when the seeker looks up the offset of the
first one. -/
theorem leaves_in_time_packet : ∃ (s : FluMPEGShifterBin 2) (segment : Segment) (b : Buffer 2)
    (timestamp : ℕ), Reach step (orderly readsOn fun _ => True) (init 2) s ∧
      s.associations.length = 2 ∧
      s.out = [.event .started, .segment segment, .buffer b timestamp] ∧
      segment.start = 0 ∧ timestamp = 0 ∧
      Stamped s.indexing.ts.index segment [.buffer b timestamp] := by
  have h₀ : Reach step (orderly readsOn fun _ => True) (init 2) _ := .refl
  have h₁ := h₀.extend (.shifter (.readyToPaused (fun _ _ => 0) (some .new))) trivial rfl
  have h₂ := h₁.extend (.shifter (.srcActivate true)) trivial rfl
  have h₃ := h₂.extend (.shifter (.sinkActivate true)) trivial rfl
  have h₄ := h₃.extend (.pmt 0x100) trivial rfl
  have h₅ := h₄.extend (.data Pipeline.pcrPacket) trivial rfl
  have h₆ := h₅.extend (.enter .allOk)
    (by rintro _ ⟨⟩ c ⟨⟩ -; exact readsOn_push rfl rfl (by decide)) rfl
  have h₇ := h₆.extend (.shifter (.sinkEvent .eos)) trivial rfl
  have h₈ := h₇.extend (.shifter (.loop .allOk))
    ⟨⟨Or.inl rfl, Or.inr rfl⟩, by rintro c ⟨⟩ -; exact readsOn_pop rfl true⟩ rfl
  have h₉ := h₈.extend (.data (Indexing.referencePacket 2)) trivial rfl
  have h₁₀ := h₉.extend (.arrive false) trivial rfl
  have h₁₁ := h₁₀.extend (.arrive false) trivial rfl
  have h₁₂ := h₁₁.extend (.arrive false) trivial rfl
  exact ⟨_, _, _, _, h₁₂, by decide +kernel, rfl, by decide +kernel, by decide +kernel,
    (leaves_in_time h₁₂ (by decide)).2.2 [_] _ _ rfl⟩

/-- In every such run whose seeks go to offsets that the cache still has: after a seek to a
time, the first buffer comes behind a segment that starts at the time or before it, or at no
time, when there is no association at or before the buffer. -/
theorem time_seek_lands (h : Reach step (orderly seeksWithin F) (init n) s)
    (hsize : s.indexing.ts.currentOffset < 2 ^ 63) {c : Cache n}
    (hc : s.feed.element.cache = some c) {t : ℕ} (ht : s.landed = some t) :
    s.feed.sent = [] ∨ ∃ b, s.feed.sent.head? = some b ∧
      [.segment (.ofBuffer b), .buffer b] <:+: s.feed.element.trace ∧
      (∃ a ∈ s.associations, a.time ≤ t ∧ b.offset ≤ a.offset) ∧
      ((Segment.inTime s.indexing.ts.index b).start ≤ t ∨
        (Segment.inTime s.indexing.ts.index b).start = clockTimeNone ∧
          ∀ k ∈ s.associations, b.offset < k.offset) := by
  have hrunning := Running.of_reach h Session.seeksWithin_transfers fun _ _ hl => hl.1
  have hconverting := Converting.of_reach h Session.seeksWithin_transfers (fun _ _ hl => hl.1) hsize
  rcases hconverting.landed t ht with ⟨o, ⟨a, ha, hat, rfl⟩, ho⟩
  rcases hrunning.opened a.offset ho with ⟨hempty, -⟩ | ⟨b, hb, hinfix⟩
  · exact Or.inl hempty
  · right
    have hle := Feed.first_sent_le hrunning.feed hc ho hb
    refine ⟨b, hb, hinfix, ⟨a, ha, hat, hle⟩, ?_⟩
    rcases hrunning.advancing hsize with ⟨hadvancing, hmax⟩
    have hfits := hmax a ha
    show s.indexing.ts.index.bytesToStreamTime b.offset ≤ t ∨
      s.indexing.ts.index.bytesToStreamTime b.offset = clockTimeNone ∧
        ∀ k ∈ s.associations, b.offset < k.offset
    rw [hrunning.index, MemIndex.bytesToStreamTime_nearest hadvancing hmax (by omega)]
    cases hk : nearest Association.offset b.offset .before s.associations with
    | none =>
        rw [Option.elim_none]
        split
        · exact Or.inl (Nat.zero_le t)
        · refine Or.inr ⟨rfl, ?_⟩
          intro k hmem
          have hbehind := List.find?_eq_none.mp hk k (List.mem_reverse.mpr hmem)
          simpa using hbehind
    | some k =>
        left
        have hkb : k.offset ≤ b.offset := by
          have := List.find?_some hk
          simpa using this
        have hka := hadvancing.time_le (mem_of_nearest hk) ha (by omega)
        exact hka.trans hat

/-- A seek back to the first packet, from its end. -/
theorem time_seek_lands_packet : ∃ (s : FluMPEGShifterBin 2) (b : Buffer 2),
    Reach step (orderly seeksWithin fun _ => True) (init 2) s ∧ s.landed = some 5 ∧
      s.feed.sent = [b] ∧
      ((Segment.inTime s.indexing.ts.index b).start ≤ 5 ∨
        (Segment.inTime s.indexing.ts.index b).start = clockTimeNone ∧
          ∀ k ∈ s.associations, b.offset < k.offset) := by
  have hpush : seeksWithin (Cache.new 2 (fun _ _ => 0) (some .new))
      (.push Pipeline.pcrPacket, .allOk) :=
    ⟨readsOn_push rfl rfl (by decide), fun _ habs => nomatch habs⟩
  have h₀ : Reach step (orderly seeksWithin fun _ => True) (init 2) _ := .refl
  have h₁ := h₀.extend (.shifter (.readyToPaused (fun _ _ => 0) (some .new))) trivial rfl
  have h₂ := h₁.extend (.shifter (.srcActivate true)) trivial rfl
  have h₃ := h₂.extend (.shifter (.sinkActivate true)) trivial rfl
  have h₄ := h₃.extend (.pmt 0x100) trivial rfl
  have h₅ := h₄.extend (.data Pipeline.pcrPacket) trivial rfl
  have h₆ := h₅.extend (.enter .allOk) (by rintro _ ⟨⟩ c ⟨⟩ -; exact hpush) rfl
  have h₇ := h₆.extend (.shifter (.sinkEvent .eos)) trivial rfl
  have h₈ := h₇.extend (.shifter (.loop .allOk)) ⟨⟨Or.inl rfl, Or.inr rfl⟩,
    by rintro c ⟨⟩ -; exact ⟨readsOn_pop rfl true, fun _ habs => nomatch habs⟩⟩ rfl
  have h₉ := h₈.extend (.shifter (.pushed .ok fun _ => .allOk))
    (fun _ _ _ habs => nomatch habs) rfl
  have h₁₀ := h₉.extend (.shifter (.free 0)) trivial rfl
  have h₁₁ := h₁₀.extend (.seek ⟨⟨true, .time, .set, 5⟩, 1, .none, 0⟩) trivial rfl
  have h₁₂ := h₁₁.extend (.ask 0) trivial rfl
  have h₁₃ := h₁₂.extend (.shifter (.resumeSeek .allOk)) ⟨rfl, by
    rintro c offset ⟨⟩ ⟨⟩
    refine ⟨⟨Platform.allOk_filesOk, trivial, fun _ _ habs => (nomatch habs),
      fun habs => (nomatch habs)⟩, ?_⟩
    rintro o ⟨⟩
    rfl⟩ rfl
  have h₁₄ := h₁₃.extend (.shifter (.loop .allOk)) ⟨⟨Or.inl rfl, Or.inr rfl⟩,
    by rintro c ⟨⟩ -; exact ⟨readsOn_pop rfl false, fun _ habs => nomatch habs⟩⟩ rfl
  rcases time_seek_lands h₁₄ (by decide) rfl rfl with habs | ⟨b, hb, -, -, hstart⟩
  · cases habs
  · cases hb
    exact ⟨_, _, h₁₄, rfl, rfl, hstart⟩

/-! ## The duration -/

/-- The step does not make a new cache. -/
def keepsCache : BinOp n → Bool
  | .shifter l => !Feed.renews l
  | _ => true

/-- The stream of the cache goes on, and so does the index. -/
theorem step_grows {l : BinOp n} (hl : keepsCache l = true) (hs : s.step l = some s') :
    s.feed.accepted.length ≤ s'.feed.accepted.length ∧
      ∀ k ∈ s.associations, k ∈ s'.associations := by
  cases step_case hs with
  | data data i hidle hi =>
      refine ⟨Nat.le_refl _, ?_⟩
      intro k hk
      show k ∈ i.added.map Added.association
      rcases (buffer_spec hi).2 with heq | ⟨y, heq, -⟩
      · rw [heq]
        exact hk
      · rw [heq, List.map_append]
        exact List.mem_append_left _ hk
  | enter p data feed hdata hfeed => exact ⟨(Feed.step_stream hfeed).2.2 rfl, fun _ hk => hk⟩
  | shifter l feed hown hresume hfeed =>
      exact ⟨(Feed.step_stream hfeed).2.2 (by simpa [keepsCache] using hl), fun _ hk => hk⟩
  | resume p feed hfeed => exact ⟨(Feed.step_stream hfeed).2.2 rfl, fun _ hk => hk⟩
  | ask k r feed hr hfeed => exact ⟨(Feed.step_stream hfeed).2.2 rfl, fun _ hk => hk⟩
  | pmt pcrPid i hi =>
      cases hi
      exact ⟨Nat.le_refl _, fun _ hk => hk⟩
  | _ => exact ⟨Nat.le_refl _, fun _ hk => hk⟩

/-- What the seeker counts from the end of is the stream that the cache has taken. -/
theorem durationBytes_eq
    (h : Reach Feed.step (Feed.orderly readsOn F) (Feed.init n) s.feed) {c : Cache n}
    (hc : s.feed.element.cache = some c) (hlen : s.feed.accepted.length < 2 ^ 63) :
    s.durationBytes = some (s.feed.accepted.length : ℤ) := by
  rcases Feed.delivering h Session.readsOn_transfers (fun _ _ hl => hl) hc with
    ⟨_, _, _, s₁, -, hserves, hdel, -⟩
  have hcount := hdel.reading.recorded.recorder.length
  replace hcount : s.feed.accepted.length = c.hOffset := by
    rw [← hserves.accepted, hcount, hserves.has.cache]
    rfl
  simp only [durationBytes, hc, Option.bind_some, FluTSBase.query, Cache.getTotalBytesReceived,
    if_true]
  rw [← hcount, gint64_of_lt (by omega) (by omega)]

/-- The last association up to a megabyte before the end of the stream. -/
def lastAssociation (s : FluMPEGShifterBin n) : Option Association :=
  if 1000000 ≤ s.feed.accepted.length then
    nearest Association.offset (s.feed.accepted.length - 1000000) .before s.associations
  else none

/-- The duration in time is that of the last association, if there is a cache at all. -/
theorem query_duration (h : Running readsOn F s)
    (hsize : s.indexing.ts.currentOffset + 1000000 ≤ 2 ^ 63) :
    (s.feed.element.cache = none ∧ s.query (.duration .time) = some (.duration .time (-1))) ∨
      s.query (.duration .time) =
        some (.duration .time (s.lastAssociation.elim (-1) fun k => k.time)) := by
  have hcounted := h.counted
  have hstream := h.stream
  have hadvancing := (h.advancing (by omega)).1
  have hbound : ∀ e ∈ s.associations, e.offset + 1000000 < 2 ^ 63 := by
    intro e he
    rcases List.mem_map.mp he with ⟨x, hx, rfl⟩
    have := h.ordered.passed x hx
    omega
  have hlast : ∀ len : ℕ, len < 2 ^ 63 → s.seeker.getLastTime (some len) = _ :=
    fun len hlen => Seeker.getLastTime_nearest (congrArg some h.index) hadvancing hbound hlen
  have hnone : gint64 clockTimeNone = -1 := by decide
  have hanswer : s.query (.duration .time) =
    some (.duration .time (gint64 (s.seeker.getLastTime s.durationBytes))) := rfl
  rw [hanswer]
  cases hc : s.feed.element.cache with
  | none =>
      left
      have hbytes : s.durationBytes = none := by rw [durationBytes, hc, Option.bind_none]
      -- the seeker takes the duration in bytes to be 0
      have hempty := hlast 0 (by omega)
      rw [if_neg (by omega)] at hempty
      refine ⟨rfl, ?_⟩
      rw [hbytes, show s.seeker.getLastTime none = clockTimeNone from hempty, hnone]
  | some c =>
      right
      rw [durationBytes_eq h.feed hc (by omega), hlast _ (by omega), lastAssociation]
      split
      · cases hk : nearest Association.offset (s.feed.accepted.length - 1000000) .before
          s.associations with
        | none => rw [Option.elim_none, Option.elim_none, hnone]
        | some k =>
            have htime := (hadvancing.fits k (mem_of_nearest hk)).1
            rw [Option.elim_some, Option.elim_some, gint64_of_lt (by omega) (by omega)]
      · rw [Option.elim_none, hnone]

/-- In every run with orderly steps of the time shifter: a duration in time that the seeker
knows is the time of an association, and as long as the element keeps its cache, it does not
decrease, whatever comes between the two queries. -/
theorem duration_advances (h : Reach step (orderly readsOn F) (init n) s)
    (h' : Reach step (fun s l => s.orderly readsOn F l ∧ keepsCache l = true) s s')
    (hsize : s'.indexing.ts.currentOffset + 1000000 ≤ 2 ^ 63) {c : Cache n}
    (hc : s'.feed.element.cache = some c) {d : ℤ}
    (hd : s.query (.duration .time) = some (.duration .time d)) (hknown : 0 ≤ d) :
    ∃ k ∈ s'.associations,
      s'.query (.duration .time) = some (.duration .time k.time) ∧ d ≤ k.time := by
  have hreads : ∀ (c : Cache n) l, readsOn c l → c.readsOn l := fun _ _ hl => hl
  have hrunning := Running.of_reach h Session.readsOn_transfers hreads
  -- between the two queries
  have hgrown : Running readsOn F s' ∧
      s.indexing.ts.currentOffset ≤ s'.indexing.ts.currentOffset ∧
      s.feed.accepted.length ≤ s'.feed.accepted.length ∧
      ∀ k ∈ s.associations, k ∈ s'.associations := by
    refine h'.invariant (P := fun s' => Running readsOn F s' ∧
      s.indexing.ts.currentOffset ≤ s'.indexing.ts.currentOffset ∧
      s.feed.accepted.length ≤ s'.feed.accepted.length ∧
      ∀ k ∈ s.associations, k ∈ s'.associations)
      ⟨hrunning, Nat.le_refl _, Nat.le_refl _, fun _ hk => hk⟩ ?_
    rintro t t' l ⟨hrun, hoffset, hlength, hsub⟩ ⟨hl, hkeeps⟩ hs
    rcases step_grows hkeeps hs with ⟨hlength', hsub'⟩
    exact ⟨hrun.step Session.readsOn_transfers hreads hl hs,
      hoffset.trans (step_currentOffset hs), hlength.trans hlength',
      fun k hk => hsub' k (hsub k hk)⟩
  rcases hgrown with ⟨hrunning', hoffset, hlength, hsub⟩
  -- the association of the first duration
  have hfirst : ∃ k, s.lastAssociation = some k ∧ d = k.time := by
    rcases query_duration hrunning (by omega) with ⟨-, hquery⟩ | hquery
    · cases hquery.symm.trans hd
      omega
    · cases hquery.symm.trans hd
      cases hk : s.lastAssociation with
      | none =>
          rw [hk, Option.elim_none] at hknown
          omega
      | some k => exact ⟨k, rfl, Option.elim_some ..⟩
  rcases hfirst with ⟨k, hk, rfl⟩
  rw [lastAssociation] at hk
  split at hk
  · rename_i hroom
    have hle : k.offset ≤ s.feed.accepted.length - 1000000 := by
      have := List.find?_some hk
      simpa using this
    have hmem := hsub k (mem_of_nearest hk)
    have hadvancing := (hrunning'.advancing (by omega)).1
    have hle' : k.offset ≤ s'.feed.accepted.length - 1000000 :=
      hle.trans (Nat.sub_le_sub_right hlength _)
    rcases nearest_before_max hadvancing.offsets hmem hle' with ⟨k', hk', hkk', -⟩
    have hlast : s'.lastAssociation = some k' := by
      rw [lastAssociation, if_pos (hroom.trans hlength), hk']
    have hmem' := mem_of_nearest hk'
    have htime := hadvancing.time_le hmem hmem' hkk'
    refine ⟨k', hmem', ?_, by omega⟩
    rcases query_duration hrunning' hsize with ⟨hnone, -⟩ | hquery
    · rw [hc] at hnone
      cases hnone
    · rw [hquery, hlast, Option.elim_some]
  · cases hk

/-- A megabyte of packets. -/
def megabyte : Block UInt8 where
  size := 1000000
  byte i := Pipeline.pcrPacket.byte (i % 188)

/-- A megabyte of packets has come, with a reference at its start; then the indexer sees
another packet. -/
theorem duration_advances_megabyte : ∃ (s s' : FluMPEGShifterBin 64), ∃ k ∈ s'.associations,
    Reach step (orderly readsOn fun _ => True) (init 64) s ∧
      s.query (.duration .time) = some (.duration .time 0) ∧ s'.associations.length = 2 ∧
      s'.query (.duration .time) = some (.duration .time k.time) ∧ (0 : ℤ) ≤ k.time := by
  have h₀ : Reach step (orderly readsOn fun _ => True) (init 64) _ := .refl
  have h₁ := h₀.extend (.shifter (.readyToPaused (fun _ _ => 0) (some .new))) trivial rfl
  have h₂ := h₁.extend (.shifter (.srcActivate true)) trivial rfl
  have h₃ := h₂.extend (.shifter (.sinkActivate true)) trivial rfl
  have h₄ := h₃.extend (.pmt 0x100) trivial rfl
  have h₅ := h₄.extend (.data megabyte) trivial rfl
  have h₆ := h₅.extend (.enter .allOk)
    (by rintro _ ⟨⟩ c ⟨⟩ -; exact readsOn_push rfl rfl (by decide)) rfl
  rcases duration_advances (d := 0) h₆
    (.tail (l := .data (Indexing.referencePacket 2)) .refl ⟨trivial, rfl⟩ rfl)
    (by decide +kernel) (Option.some_get (by decide +kernel)).symm
    (by decide +kernel) (by decide) with ⟨k, hk, hquery, hle⟩
  exact ⟨_, _, k, hk, h₆, by decide +kernel, by decide +kernel, hquery, hle⟩

end FluMPEGShifterBin

end TimeShift
