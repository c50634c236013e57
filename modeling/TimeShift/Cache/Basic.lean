import TimeShift.Glib
import TimeShift.Lib.Cyclic
import TimeShift.Slot

/-!
# The shifter cache

A model of `GstShifterCache`: a ring of slots that keeps the newest bytes of
the stream in memory, and a file that takes the stream over once the ring has
no free slot. Every function of `flucache.c` on the data path is translated
under its own name.

The outcome of each platform call (thread creation, seek, write and read on
the backing file) is an input, `Platform`, so that a theorem can speak about
every outcome. The two loops without a bound in the source are run with fuel:
the push loop for at most `size` rounds, each of which takes at least one
byte, and the walks of a seek for at most `nslots` rounds, after which a walk
that has not stopped is back where it began; `none` stands for such a walk.
-/

namespace TimeShift

open Bytes

/-- The backing file. Positions that were never written read as zero. -/
structure File where
  len : ℕ
  byte : ℕ → UInt8

/-- A file just created. -/
def File.new : File := ⟨0, fun _ => 0⟩

/-- The file after `k` bytes went to position `pos`. -/
def File.write (f : File) (pos : ℕ) (bytes : ℕ → UInt8) (k : ℕ) : File where
  len := if k = 0 then f.len else max f.len (pos + k)
  byte := memcpy f.byte pos bytes k

/-- The bytes that an `fwrite` of `size` bytes gets through; `none` is success. -/
def fwriteCount (size : ℕ) : Option ℕ → ℕ
  | none => size
  | some k => min k size

/-- The bytes that an `fread` of `size` bytes at `pos` gets: no more than what
the file has left, and than what the device delivers. -/
def File.freadCount (f : File) (pos size : ℕ) : Option ℕ → ℕ
  | none => min size (f.len - pos)
  | some k => min k (min size (f.len - pos))

theorem File.freadCount_le (f : File) (pos size : ℕ) (r : Option ℕ) :
    f.freadCount pos size r ≤ f.len - pos := by
  cases r <;> simp only [freadCount] <;> omega

/-- What the platform answers to the calls of one operation. A failing `fwrite`
or `fread` names the number of bytes it got through; the reads of a reload are
numbered from 0. -/
structure Platform where
  threadCreate : Bool
  writeSeek : Bool
  fwrite : Option ℕ
  readSeek : ℕ → Bool
  fread : ℕ → Option ℕ

/-- Every file operation succeeds. -/
structure Platform.FilesOk (p : Platform) : Prop where
  writeSeek : p.writeSeek = true
  fwrite : p.fwrite = none
  readSeek : ∀ i, p.readSeek i = true
  fread : ∀ i, p.fread i = none

/-- Every call succeeds. -/
def Platform.allOk : Platform := ⟨true, true, none, fun _ => true, fun _ => none⟩

theorem Platform.allOk_filesOk : Platform.allOk.FilesOk :=
  ⟨rfl, rfl, fun _ => rfl, fun _ => rfl⟩

/-- How far the migration thread is: not scheduled yet, at round `i` with slot
`j` next, or through with its loop. -/
inductive MigrationThread (n : ℕ) where
  | created
  | walking (i : ℕ) (j : Fin n)
  | finished

/-- A buffer made by `gst_slot_buffer_new`: it wraps the memory of its slot. -/
structure Buffer (n : ℕ) where
  slot : Fin n
  data : ℕ → UInt8
  size : ℕ
  offset : ℕ
  offsetEnd : ℕ
  discont : Bool

/-- The bytes of a buffer with the range it is labelled with. -/
def Buffer.piece {n : ℕ} (b : Buffer n) : Piece UInt8 where
  start := b.offset
  stop := b.offsetEnd
  bytes := (Block.mk b.size b.data).toList

/-- `struct _GstShifterCache`, for a ring of `n` slots. -/
structure Cache (n : ℕ) where
  hOffset : ℕ
  lRbOffset : ℕ
  hRbOffset : ℕ
  lDkOffset : Offset
  hDkOffset : Offset
  mDkOffset : Offset
  needDiscont : Bool
  fslots : ℤ
  slots : Fin n → Slot
  head : Fin n
  tail : Fin n
  file : Option File
  autoremove : Bool
  wDkPos : ℕ
  rDkPos : ℕ
  mDkPos : ℕ
  isRecording : Bool
  isRbMigrated : Bool
  stopRecording : Bool
  thread : Option (MigrationThread n)

/-- The number of slots that `gst_shifter_cache_new` makes for a cache size. -/
def nslots (size : ℕ) : ℕ := guint (size / cacheSlotSize)

namespace Cache

variable {n : ℕ} [NeZero n]

/-- Store a slot. -/
def setSlot (c : Cache n) (i : Fin n) (s : Slot) : Cache n :=
  { c with slots := Function.update c.slots i s }

/-- `gst_shifter_cache_disk_write`. The size parameter is a `guint`. -/
def diskWrite (c : Cache n) (data : Block UInt8) (p : Platform) : Cache n :=
  match c.file with
  | none => c
  | some f =>
    if !p.writeSeek then c
    else
      let size := guint data.size
      let done := fwriteCount size p.fwrite
      -- `fwrite` of one element of `size` bytes; an element of no bytes counts as none
      let ret := done == size && size != 0
      { c with
        file := some (f.write c.wDkPos data.byte done)
        wDkPos := if ret then c.wDkPos + size else c.wDkPos
        hOffset := c.hOffset + size
        hDkOffset := some (c.hOffset + size) }

/-- The size that `gst_shifter_cache_disk_read` asks for. -/
def readSize (c : Cache n) : ℕ := min (gsizeSub c.wDkPos c.rDkPos) cacheSlotSize

omit [NeZero n] in
theorem readSize_le (c : Cache n) : c.readSize ≤ cacheSlotSize := Nat.min_le_right _ _

/-- `gst_shifter_cache_disk_read` into slot `i` for stream position `offset`;
`k` numbers the read within its operation. -/
def diskRead (c : Cache n) (i : Fin n) (offset : ℕ) (drain : Bool) (p : Platform) (k : ℕ) :
    Cache n × Bool :=
  match c.file with
  | none => (c, false)
  | some f =>
    let slot := c.slots i
    let size := c.readSize
    if size = 0 then (c, false)
    else if !drain && size < cacheSlotSize then (c, false)
    else if !slot.available then (c, false)
    else if !p.readSeek k then (c, false)
    else
      let bytes := fun j => f.byte (c.rDkPos + j)
      let got := f.freadCount c.rDkPos size (p.fread k)
      if got = size then
        ({ c with
            slots := Function.update c.slots i
              (slot.load bytes c.readSize offset c.readSize_le)
            rDkPos := c.rDkPos + size }, true)
      else (c.setSlot i (slot.smear bytes got), false)

/-- `gst_shifter_cache_flush`. -/
def flush (c : Cache n) : Cache n :=
  { c with
    slots := fun i => (c.slots i).reset
    head := 0
    tail := 0
    fslots := 0
    needDiscont := true }

/-- `gst_shifter_cache_new`: `memory` is what the allocated block holds, `file`
the backing file, when there is a template and the file could be made. -/
def new (n : ℕ) [NeZero n] (memory : Fin n → ℕ → UInt8) (file : Option File) : Cache n where
  hOffset := 0
  lRbOffset := 0
  hRbOffset := 0
  lDkOffset := none
  hDkOffset := none
  mDkOffset := none
  needDiscont := true
  fslots := 0
  slots i :=
    { state := .empty
      offset := none
      data := memory i
      wptr := 0
      size := 0
      size_le := Nat.zero_le _
      open_room := Slot.empty_room
      empty_clean := Slot.empty_blank }
  head := 0
  tail := 0
  file := file
  autoremove := true
  wDkPos := 0
  rDkPos := 0
  mDkPos := 0
  isRecording := false
  isRbMigrated := false
  stopRecording := false
  thread := none

/-- `gst_shifter_cache_recycle`. -/
def recycle (c : Cache n) (i : Fin n) : Cache n :=
  let slot := c.slots i
  if slot.state = .recycle then
    { c with
      lRbOffset := match slot.offset with
        | none => c.lRbOffset
        | some _ => slot.offsetEnd
      slots := Function.update c.slots i slot.reset }
  else c

/-- `gst_shifter_cache_rollback`. -/
def rollback (c : Cache n) (i : Fin n) : Cache n × Bool :=
  let slot := c.slots i
  if slot.state = .recycle then
    ({ c with
        slots := Function.update c.slots i (slot.setState .full CacheState.full_closed)
        fslots := c.fslots + 1 }, true)
  else (c, slot.state = .full)

/-- `gst_shifter_cache_rollforward`; no caller looks at its result. -/
def rollforward (c : Cache n) (i : Fin n) : Cache n :=
  let slot := c.slots i
  if slot.state = .full then
    { c with
      slots := Function.update c.slots i (slot.setState .recycle CacheState.recycle_closed)
      fslots := c.fslots - 1 }
  else c

/-- One round of `gst_shifter_cache_migration_thread`. The thread reads `tail`
when it is first scheduled; its last round ends the migration. -/
def migrationThread (c : Cache n) (p : Platform) : Cache n :=
  match c.thread with
  | some .created => { c with thread := some (.walking 0 c.tail) }
  | some (.walking i j) =>
    if i < n then
      let slot := c.slots j
      let c := { c with thread := some (.walking (i + 1) (j + 1)) }
      if slot.state = .empty then c
      else if c.stopRecording && c.autoremove then { c with thread := some .finished }
      else
        match c.file with
        | none => c
        | some f =>
          if !p.writeSeek then c
          else
            let done := fwriteCount slot.size p.fwrite
            { c with
              file := some (f.write c.mDkPos slot.data done)
              mDkPos := if done == slot.size && slot.size != 0 then c.mDkPos + slot.size
                else c.mDkPos }
    else
      { c with
        lDkOffset := c.mDkOffset
        isRbMigrated := true
        thread := some .finished }
  | _ => c

/-- `gst_shifter_cache_start_recording`. -/
def startRecording (c : Cache n) (p : Platform) : Cache n × Bool :=
  if c.file.isNone then (c, false)
  else if c.thread.isSome then (c, true)
  else if c.stopRecording then (c, false)
  else
    let c := { c with
      mDkOffset := some c.lRbOffset
      lDkOffset := some c.hOffset
      wDkPos := gsizeSub c.hOffset c.lRbOffset
      isRecording := true }
    if p.threadCreate then ({ c with thread := some .created }, true)
    else (c, false)

/-- The slot read at the tail joins the ring. -/
def advance (c : Cache n) : Cache n :=
  { c with
    tail := c.tail + 1
    hRbOffset := (c.slots c.tail).offsetEnd
    fslots := c.fslots + 1 }

/-- The rounds of `gst_shifter_cache_reload`, from read number `k` on. -/
def reloadLoop (drain : Bool) (p : Platform) : ℕ → ℕ → Cache n → Cache n
  | 0, _, c => c
  | rounds + 1, k, c =>
    let c := c.recycle c.tail
    match c.diskRead c.tail c.hRbOffset drain p k with
    | (c, true) => reloadLoop drain p rounds (k + 1) c.advance
    | (c, false) => c

/-- The number of rounds of a reload: one when draining, else about the binary
logarithm of the number of slots that are not full. -/
def reloadRounds (c : Cache n) (drain : Bool) : ℕ :=
  if drain then 1 else gBitStorage (((n : ℤ) - c.fslots) % 2 ^ 32).toNat

/-- `gst_shifter_cache_reload`. -/
def reload (c : Cache n) (drain : Bool) (p : Platform) : Cache n :=
  reloadLoop drain p (c.reloadRounds drain) 0 c

/-- The draining part of a pop: a partly written head slot is taken as it is. -/
def promote (c : Cache n) : Cache n :=
  let head := c.slots c.head
  if head.state = .part then
    { c with
      slots := Function.update c.slots c.head (head.setState .full CacheState.full_closed)
      hRbOffset := head.offsetEnd
      fslots := c.fslots + 1 }
  else c

/-- `gst_slot_buffer_new`, with the discontinuity flag that pop sets on it. -/
def slotBuffer (c : Cache n) : Buffer n :=
  let head := c.slots c.head
  { slot := c.head
    data := head.data
    size := head.size
    offset := head.offset.val
    offsetEnd := head.offsetEnd
    discont := c.needDiscont }

/-- Take the full slot at the head out of the ring. -/
def take (c : Cache n) : Cache n :=
  { c with
    slots := Function.update c.slots c.head
      ((c.slots c.head).setState .pop CacheState.pop_closed)
    fslots := c.fslots - 1
    needDiscont := false
    head := c.head + 1 }

/-- `gst_shifter_cache_pop`. -/
def pop (c : Cache n) (drain : Bool) (p : Platform) : Cache n × Option (Buffer n) :=
  let c := if drain then c.promote else c
  if (c.slots c.head).state = .full then
    let buffer := c.slotBuffer
    let c := c.take
    if c.isRecording && c.isRbMigrated then (c.reload drain p, some buffer)
    else (c, some buffer)
  else (c, none)

/-- `_slot_meta_free`, when the last reference to a popped buffer is dropped. -/
def release (c : Cache n) (i : Fin n) : Cache n :=
  c.setSlot i ((c.slots i).setState .recycle CacheState.recycle_closed)

/-- `gst_shifter_cache_is_empty`. -/
def isEmpty (c : Cache n) : Bool := c.fslots = 0

/-- One round of the loop of `gst_shifter_cache_push` that finds room in the
tail slot: write `k` bytes, and move the tail when the slot is full. -/
def fill (c : Cache n) (data : Block UInt8) (k : ℕ) (h : (c.slots c.tail).available)
    (hk : k ≤ (c.slots c.tail).room) : Cache n :=
  match (c.slots c.tail).write data.byte k c.hRbOffset h hk with
  | (slot, true) =>
    { c with
      slots := Function.update c.slots c.tail slot
      tail := c.tail + 1
      hRbOffset := c.hRbOffset + cacheSlotSize
      fslots := c.fslots + 1
      hOffset := c.hOffset + k }
  | (slot, false) =>
    { c with
      slots := Function.update c.slots c.tail slot
      hOffset := c.hOffset + k }

/-- The number of bytes of `data` that the tail slot has room for. -/
def avail (c : Cache n) (data : Block UInt8) : ℕ := min (c.slots c.tail).room data.size

omit [NeZero n] in
theorem avail_le_room (c : Cache n) (data : Block UInt8) :
    c.avail data ≤ (c.slots c.tail).room :=
  Nat.min_le_left _ _

omit [NeZero n] in
theorem avail_le_size (c : Cache n) (data : Block UInt8) : c.avail data ≤ data.size :=
  Nat.min_le_right _ _

/-- The loop of `gst_shifter_cache_push` while the cache is not recording. -/
def pushLoop (p : Platform) : ℕ → Cache n → Block UInt8 → Cache n
  | 0, c, _ => c
  | fuel + 1, c, data =>
    if data.size = 0 then c
    else
      let c := c.recycle c.tail
      if h : (c.slots c.tail).available then
        pushLoop p fuel (c.fill data (c.avail data) h (c.avail_le_room data))
          (data.drop (c.avail data))
      else (c.startRecording p).1.diskWrite data p

/-- `gst_shifter_cache_push`. -/
def push (c : Cache n) (data : Block UInt8) (p : Platform) : Cache n :=
  if c.isRecording then
    let c := c.diskWrite data p
    -- handle underruns by refilling the ring buffer
    if c.isEmpty then c.reload false p else c
  else pushLoop p data.size c data

/-- The disk takes part in seeks: the recording runs and the ring is migrated. -/
def isDiskUsable (c : Cache n) : Bool := c.isRecording && c.isRbMigrated

/-- `gst_shifter_cache_has_offset`. -/
def hasOffset (c : Cache n) (offset : ℕ) : Bool :=
  if c.isDiskUsable then c.lDkOffset.le offset && !c.hDkOffset.le offset
  else decide (c.lRbOffset ≤ offset) && decide (offset < c.hOffset)

/-- `gst_shifter_cache_get_total_bytes_received`. -/
def getTotalBytesReceived (c : Cache n) : ℕ := c.hOffset

/-- The clamping of a requested offset at the start of a seek. -/
def clamp (c : Cache n) (offset : ℕ) : ℕ :=
  if c.isDiskUsable then
    max (match c.hDkOffset with
      | none => offset
      | some h => min offset h) c.lDkOffset.val
  else max (min offset c.hRbOffset) c.lRbOffset

/-- The walk of a seek in the future. -/
def seekForward (offset : ℕ) : ℕ → Cache n → Fin n → Option (Cache n × Fin n)
  | 0, _, _ => none
  | rounds + 1, c, seeker =>
    let c := c.rollforward seeker
    let seeker := seeker + 1
    if (c.slots seeker).contains offset then some (c, seeker)
    else seekForward offset rounds c seeker

/-- The walk of a seek in the past; it ends early at a slot that cannot be
rolled back. -/
def seekBackward (offset : ℕ) : ℕ → Cache n → Fin n → Option (Cache n × Fin n)
  | 0, _, _ => none
  | rounds + 1, c, seeker =>
    let seeker := seeker - 1
    match c.rollback seeker with
    | (c, false) => some (c, seeker + 1)
    | (c, true) =>
      if (c.slots seeker).contains offset then some (c, seeker)
      else seekBackward offset rounds c seeker

/-- The part of a seek that moves the head within the ring. -/
def seekRing (c : Cache n) (offset : ℕ) : Option (Cache n) :=
  let head := c.slots c.head
  if head.offset.le offset then
    if offset < head.offsetEnd then some (c.rollback c.head).1
    else
      match seekForward offset n c c.head with
      | none => none
      | some (c, seeker) => some { (c.rollback seeker).1 with head := seeker }
  else
    match seekBackward offset n (c.rollback c.head).1 c.head with
    | none => none
    | some (c, seeker) => some { c with head := seeker }

/-- The part of a seek that moves the read position in the file. -/
def seekDisk (c : Cache n) (offset : ℕ) (p : Platform) : Cache n :=
  reload { c.flush with
    rDkPos := gsizeSub offset c.lDkOffset.val
    hRbOffset := offset
    lRbOffset := offset } false p

/-- `gst_shifter_cache_seek`; `none` when one of its walks never stops. -/
def seek (c : Cache n) (offset : ℕ) (p : Platform) : Option (Cache n) :=
  let target := c.clamp offset
  if c.lRbOffset ≤ target ∧ target < c.hRbOffset then c.seekRing target
  else if c.isDiskUsable then some (c.seekDisk target p)
  else some c

end Cache

end TimeShift
