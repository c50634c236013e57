import TimeShift.Cache.Basic
import TimeShift.Seeker

/-!
# The time shifter element

A model of `flutsbase.c`. The element puts what comes in at its sink pad into a
cache, and a task on its source pad takes it out again and pushes it downstream.
Upstream events and data, seeks and the task come from different threads, and the
flow lock makes a step of each of their critical sections. Two functions give the
lock away in the middle and are two steps each:

* an iteration of the loop, which pushes its buffer without the lock (`loop` and
  `pushed`);
* a seek, which waits for the loop to pause (`handleSeek` and `resumeSeek`).

The calls that leave the element, such as the push of an event, answer as they like:
their answers are part of a step.
-/

namespace TimeShift

open Bytes

/-- `GstFlowReturn`. -/
inductive FlowReturn where
  | customSuccess
  | ok
  | notLinked
  | flushing
  | eos
  | notNegotiated
  | error
  | notSupported
  | customError
deriving DecidableEq, Repr

/-- The value of the enumeration. -/
def FlowReturn.code : FlowReturn → ℤ
  | customSuccess => 100
  | ok => 0
  | notLinked => -1
  | flushing => -2
  | eos => -3
  | notNegotiated => -4
  | error => -5
  | notSupported => -6
  | customError => -100

/-- `gst_segment_init` with a format. -/
def Segment.init (format : Format) : Segment where
  reset := false
  format := format
  base := 0
  start := 0
  stop := 2 ^ 64 - 1
  time := 0

/-- What the element has done to downstream: a start, after which everything begins
anew, and the events and buffers that it has pushed. A STREAM_START or a SEGMENT is
listed when its push succeeded. -/
inductive Output (n : ℕ) where
  | started
  | flushStart
  | flushStop
  | streamStart (id : ℕ)
  | segment (segment : Segment)
  | buffer (buffer : Buffer n)
  | eos

/-- The messages that the element posts on the bus. -/
inductive Message where
  | recordingStarted
  | recordingStopped
  | streamFailed
deriving DecidableEq, Repr

/-- The fields of a seek event that the element looks at. -/
structure SeekEvent where
  flush : Bool
  format : Format
  startType : SeekType
  start : ℤ

/-- The events at the sink pad. A FLUSH_STOP comes with what the new cache is made
from: the memory it gets and its backing file. -/
inductive SinkEvent (n : ℕ) where
  | eos
  | segment
  | flushStart
  | flushStop (memory : Fin n → ℕ → UInt8) (file : Option File)
  | streamStart (id : ℕ)
  | other

/-- The answers to the calls that an iteration of the loop makes before it pushes its
buffer: of the file, of the push of a STREAM_START and of that of a SEGMENT. -/
structure PopCalls where
  platform : Platform
  streamStart : Bool
  segment : Bool

/-- Every call succeeds. -/
def PopCalls.allOk : PopCalls := ⟨.allOk, true, true⟩

/-- `struct _GstFluTSBase`, with the threads around it and what they have seen.

Of the rest, `taskStarted`, `pushing` and `seeking` say where the threads are, and
`live` are the buffers of the cache that downstream owns. What follows is history. -/
structure FluTSBase (n : ℕ) where
  segment : Segment
  srcresult : FlowReturn
  sinkresult : FlowReturn
  isEos : Bool
  unexpected : Bool
  needNewsegment : Bool
  cache : Option (Cache n)
  curBytes : ℕ
  recordingRemove : Bool
  recordingStarted : Bool
  streamStartEvent : Option ℕ
  taskStarted : Bool
  pushing : Bool
  seeking : Option ℕ
  live : List (Buffer n)
  trace : List (Output n)
  posted : List Message
  /-- The buffers taken from the cache. -/
  popped : List (Buffer n)
  /-- The buffers that the element has unreffed. -/
  unreffed : List (Buffer n)
  /-- An EOS has been received since the last FLUSH_STOP or activation. -/
  eosReceived : Bool
  /-- The last start or FLUSH_STOP found `need_newsegment` unset, and no seek came since. -/
  disarmed : Bool

namespace FluTSBase

variable {n : ℕ} [NeZero n]

/-- `gst_flutsbase_init`. -/
def init (n : ℕ) : FluTSBase n where
  segment := Segment.init .undefined
  srcresult := .flushing
  sinkresult := .flushing
  isEos := false
  unexpected := false
  needNewsegment := true
  cache := none
  curBytes := 0
  recordingRemove := true
  recordingStarted := false
  streamStartEvent := none
  taskStarted := false
  pushing := false
  seeking := none
  live := []
  trace := []
  posted := []
  popped := []
  unreffed := []
  eosReceived := false
  disarmed := false

/-- Something has gone downstream. -/
def emit (s : FluTSBase n) (o : Output n) : FluTSBase n := { s with trace := s.trace ++ [o] }

/-! ## Starting and stopping -/

/-- `gst_flutsbase_start`. The buffers of the old cache do not belong to the new one. -/
def start (s : FluTSBase n) (memory : Fin n → ℕ → UInt8) (file : Option File) : FluTSBase n :=
  { s with
    cache := some { Cache.new n memory file with autoremove := s.recordingRemove }
    segment := Segment.init .bytes
    recordingStarted := false
    live := [] }

/-- The change from READY to PAUSED. The pads are activated after it. -/
def readyToPaused (s : FluTSBase n) (memory : Fin n → ℕ → UInt8) (file : Option File) :
    FluTSBase n :=
  { (s.emit .started).start memory file with
    streamStartEvent := none
    disarmed := !s.needNewsegment }

/-- `gst_flutsbase_stop`. The pads are deactivated before it. -/
def stop (s : FluTSBase n) : FluTSBase n :=
  match s.cache with
  | none => s
  | some c =>
    { s with
      posted := if c.isRecording && c.file.isSome then s.posted ++ [.recordingStopped]
        else s.posted
      cache := none
      live := [] }

/-- `gst_flutsbase_sink_activate`. -/
def sinkActivate (s : FluTSBase n) (active : Bool) : FluTSBase n :=
  if active then
    { s with
      srcresult := .ok
      sinkresult := .ok
      isEos := false
      unexpected := false
      eosReceived := false }
  else
    { s with
      srcresult := .flushing
      sinkresult := .flushing
      streamStartEvent := none }

/-- `gst_flutsbase_src_activate`. -/
def srcActivate (s : FluTSBase n) (active : Bool) : FluTSBase n :=
  if active then
    { s with
      srcresult := .ok
      sinkresult := .ok
      isEos := false
      unexpected := false
      taskStarted := true
      eosReceived := false }
  else
    { s with
      srcresult := .flushing
      sinkresult := .flushing
      taskStarted := false }

/-- The property `recording-remove`. -/
def setRecordingRemove (s : FluTSBase n) (value : Bool) : FluTSBase n :=
  { s with
    recordingRemove := value
    cache := s.cache.map fun c => { c with autoremove := value } }

/-! ## The sink pad -/

/-- `gst_flutsbase_push`, on the cache `c` of the element. -/
def push (s : FluTSBase n) (c : Cache n) (data : Block UInt8) (p : Platform) :
    FluTSBase n × FlowReturn :=
  if s.sinkresult ≠ .ok then (s, s.sinkresult)
  else if s.isEos then (s, .eos)
  else if s.unexpected then (s, .eos)
  else
    let c := c.push data p
    let s := { s with cache := some c }
    if !s.recordingStarted && c.isRecording then
      ({ s with posted := s.posted ++ [.recordingStarted], recordingStarted := true }, .ok)
    else (s, .ok)

/-- `gst_flutsbase_sink_event`. -/
def sinkEvent (s : FluTSBase n) : SinkEvent n → FluTSBase n × Bool
  | .eos => ({ s with isEos := true, eosReceived := true }, true)
  | .segment => ({ s with unexpected := false }, true)
  | .flushStart =>
    ({ s.emit .flushStart with
      srcresult := .flushing
      sinkresult := .flushing
      taskStarted := false }, true)
  | .flushStop memory file =>
    ({ (s.emit .flushStop).start memory file with
      streamStartEvent := none
      curBytes := 0
      srcresult := .ok
      sinkresult := .ok
      isEos := false
      unexpected := false
      taskStarted := true
      eosReceived := false
      disarmed := !s.needNewsegment }, true)
  | .streamStart id => ({ s with streamStartEvent := some id }, true)
  | .other => (s, false)

/-! ## Seeks -/

/-- `gst_flutsbase_get_bytes_offset`, which returns a `guint64`. -/
def getBytesOffset (c : Cache n) (format : Format) (type : SeekType) (start : ℤ) : ℕ :=
  if format ≠ .bytes then 2 ^ 64 - 1
  else
    match type with
    | .set => guint64 start
    | .atEnd => guint64 (c.getTotalBytesReceived + start)
    | .none => 2 ^ 64 - 1

/-- The offset that a seek goes to, when `gst_flutsbase_handle_seek` does not refuse it. -/
def seekOffset (c : Cache n) (e : SeekEvent) : Option ℕ :=
  if !e.flush then none
  else
    let offset := getBytesOffset c e.format e.startType e.start
    if offset = 2 ^ 64 - 1 || !c.hasOffset offset then none
    else some offset

/-- The seek is accepted: downstream is flushed, and the loop has to pause. -/
def seekStarted (s : FluTSBase n) (offset : ℕ) : FluTSBase n :=
  { s.emit .flushStart with
    segment := { s.segment with reset := true }
    srcresult := .flushing
    taskStarted := false
    seeking := some offset }

/-- The cache has been put to its new offset, and the loop goes on. -/
def seekDone (s : FluTSBase n) (c : Cache n) : FluTSBase n :=
  { s.emit .flushStop with
    cache := some c
    srcresult := .ok
    isEos := false
    unexpected := false
    needNewsegment := true
    taskStarted := true
    seeking := none
    disarmed := false }

/-- `gst_flutsbase_handle_seek`, until it waits for the loop to pause. -/
def handleSeek (s : FluTSBase n) (c : Cache n) (e : SeekEvent) : FluTSBase n × Bool :=
  match seekOffset c e with
  | none => (s, false)
  | some offset => (s.seekStarted offset, true)

/-- The rest of `gst_flutsbase_handle_seek`; `none` when the seek of the cache never
stops. -/
def resumeSeek (s : FluTSBase n) (c : Cache n) (offset : ℕ) (p : Platform) :
    Option (FluTSBase n) :=
  (c.seek offset p).map s.seekDone

/-! ## The loop -/

/-- A buffer that has been popped is unreffed: its slot goes back to the cache `c`. -/
def unref (s : FluTSBase n) (c : Cache n) (b : Buffer n) : FluTSBase n :=
  { s with cache := some (c.release b.slot), unreffed := s.unreffed ++ [b] }

/-- The cache has given buffer `b`, and is `c` now. -/
def taken (s : FluTSBase n) (c : Cache n) (b : Buffer n) : FluTSBase n :=
  { s with cache := some c, popped := s.popped ++ [b] }

/-- The pending STREAM_START has been pushed, if there is one. -/
def sendStreamStart (s : FluTSBase n) : FluTSBase n :=
  match s.streamStartEvent with
  | none => s
  | some id => { s.emit (.streamStart id) with streamStartEvent := none }

/-- The segment that begins with buffer `b`. -/
def segmentFor (s : FluTSBase n) (b : Buffer n) : Segment :=
  { s.segment with start := b.offset, time := 0, reset := true }

/-- The call of `gst_pad_push`, which gets the buffer whatever it returns. -/
def handOver (s : FluTSBase n) (b : Buffer n) : FluTSBase n :=
  { s.emit (.buffer b) with
    curBytes := guint b.offsetEnd
    live := s.live ++ [b]
    pushing := true }

/-- `gst_flutsbase_pop` on the cache `c` of the element: without a result it has got to
its `gst_pad_push`. -/
def pop (s : FluTSBase n) (c : Cache n) (calls : PopCalls) : FluTSBase n × Option FlowReturn :=
  match c.pop s.isEos calls.platform with
  | (c, none) =>
    let s := { s with cache := some c }
    if s.isEos then ({ s.emit .eos with taskStarted := false }, some .ok)
    else (s, some .error)
  | (c, some b) =>
    let s := s.taken c b
    if s.srcresult = .flushing then (s.unref c b, some .flushing)
    else if s.streamStartEvent.isSome && !calls.streamStart then
      -- the buffer is not unreffed
      ({ s with streamStartEvent := none }, some .flushing)
    else
      let s := s.sendStreamStart
      if s.needNewsegment then
        let s := { s with segment := s.segmentFor b }
        -- here neither
        if !calls.segment then (s, some .flushing)
        else (({ s with needNewsegment := false }.emit (.segment s.segment)).handOver b, none)
      else (s.handOver b, none)

/-- The end of an iteration with the result of `gst_flutsbase_pop`. -/
def finish (s : FluTSBase n) (ret : FlowReturn) : FluTSBase n :=
  let s := { s with srcresult := ret }
  if ret = .ok then s
  else
    let s := { s with taskStarted := false }
    if s.isEos && (ret = .notLinked || ret.code < FlowReturn.eos.code) then
      { s.emit .eos with posted := s.posted ++ [.streamFailed] }
    else s

/-- The loop waits for data: it has nothing to take, and has not seen the end. -/
def waits (s : FluTSBase n) (c : Cache n) : Bool := c.isEmpty && !s.isEos

/-- `gst_flutsbase_loop` on the cache `c` of the element, until it pushes its buffer;
`none` while it waits. -/
def loop (s : FluTSBase n) (c : Cache n) (calls : PopCalls) : Option (FluTSBase n) :=
  if s.srcresult ≠ .ok then some (s.finish s.srcresult)
  else if s.waits c then none
  else
    match s.pop c calls with
    | (s, none) => some s
    | (s, some ret) => some (s.finish ret)

/-- Pop and unref buffers until there is none, at most `fuel` of them. -/
def dropLoop (drain : Bool) (p : ℕ → Platform) : ℕ → Cache n → Option (Cache n × List (Buffer n))
  | 0, _ => none
  | fuel + 1, c =>
    match c.pop drain (p fuel) with
    | (c, none) => some (c, [])
    | (c, some b) => (dropLoop drain p fuel (c.release b.slot)).map fun r => (r.1, b :: r.2)

/-- As many buffers as the cache can have: one for each slot, and one for each byte of
the file. -/
def dropFuel (c : Cache n) : ℕ := n + (c.file.elim 0 File.len) + 1

/-- The rest of an iteration of the loop, when `gst_pad_push` has returned. -/
def pushed (s : FluTSBase n) (c : Cache n) (ret : FlowReturn) (p : ℕ → Platform) :
    Option (FluTSBase n) :=
  let s := { s with pushing := false }
  if s.srcresult ≠ .ok then some (s.finish .flushing)
  else if ret = .eos then
    (dropLoop s.isEos p (dropFuel c) c).map fun r =>
      { s with
        cache := some r.1
        popped := s.popped ++ r.2
        unreffed := s.unreffed ++ r.2
        unexpected := true }.finish .ok
  else some (s.finish ret)

end FluTSBase

/-! ## Steps -/

/-- The steps of the threads: state changes and activations, data and events from
upstream, the two halves of a seek and of an iteration of the loop, a buffer that
downstream frees and a round of the migration. -/
inductive ElementOp (n : ℕ) where
  | readyToPaused (memory : Fin n → ℕ → UInt8) (file : Option File)
  | pausedToReady
  | sinkActivate (active : Bool)
  | srcActivate (active : Bool)
  | setRecordingRemove (value : Bool)
  | chain (data : Block UInt8) (p : Platform)
  | sinkEvent (e : SinkEvent n)
  | startRecording (p : Platform)
  | seek (e : SeekEvent)
  | resumeSeek (p : Platform)
  | loop (calls : PopCalls)
  | pushed (ret : FlowReturn) (p : ℕ → Platform)
  | free (k : ℕ)
  | migrate (p : Platform)

namespace FluTSBase

variable {n : ℕ} [NeZero n]

/-- One step of one of the threads; `none` when it cannot be made. Most need a cache, as
there is one while the pads are active. -/
def step (s : FluTSBase n) : ElementOp n → Option (FluTSBase n)
  | .readyToPaused memory file => some (s.readyToPaused memory file)
  -- the task has been stopped before
  | .pausedToReady => if s.pushing then none else some s.stop
  | .sinkActivate active => some (s.sinkActivate active)
  | .srcActivate active => some (s.srcActivate active)
  | .setRecordingRemove value => some (s.setRecordingRemove value)
  | .chain data p => s.cache.map fun c => (s.push c data p).1
  | .sinkEvent e => some (s.sinkEvent e).1
  | .startRecording p =>
    s.cache.map fun c => { s with cache := some (c.startRecording p).1 }
  -- one seek at a time
  | .seek e => if s.seeking.isSome then none else s.cache.map fun c => (s.handleSeek c e).1
  -- the loop has paused
  | .resumeSeek p =>
    if s.pushing then none
    else s.cache.bind fun c => s.seeking.bind fun offset => s.resumeSeek c offset p
  | .loop calls =>
    if !s.taskStarted || s.pushing then none else s.cache.bind fun c => s.loop c calls
  | .pushed ret p => if !s.pushing then none else s.cache.bind fun c => s.pushed c ret p
  | .free k =>
    s.cache.bind fun c => (s.live[k]?).map fun b =>
      { s with cache := some (c.release b.slot), live := s.live.eraseIdx k }
  | .migrate p => s.cache.map fun c => { s with cache := some (c.migrationThread p) }

end FluTSBase

end TimeShift
