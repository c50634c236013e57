import TimeShift.Index
import TimeShift.Lib.Bytes

/-!
# The indexer

A model of `gsttimeshifttsindexer.c`: it looks for the program clock references in
the transport packets that pass through, and associates their times with their
byte offsets in its index.

Every byte is read through `Block.read`, so that a read outside of the buffer
shows as `none`; the two loops are run with fuel, and `none` also stands for a
loop that does not end in time. `collectTime_spec` rules out both. A sentinel
that is no program clock reference, `(guint64) -1`, is an inner `none`. A
position within a buffer is a `gint` in the source, which limits the size of a
buffer to what a `gint` can count; `MappedBuffer.lean` has the scan with such
positions, on addresses, and relates the two.
-/

namespace TimeShift

open Bytes

/-- `TS_PACKET_SYNC_CODE`. -/
def tsPacketSyncCode : UInt8 := 0x47

/-- `TS_MIN_PACKET_SIZE`. -/
def tsMinPacketSize : ℕ := 188

/-- `TS_MAX_PACKET_SIZE`. -/
def tsMaxPacketSize : ℕ := 208

/-- `INVALID_PID`. -/
def invalidPid : ℤ := -1

/-- `DEFAULT_DELTA`. -/
def defaultDelta : ℤ := 500

/-- `GST_MSECOND`, in nanoseconds. -/
def gstMsecond : ℤ := 1000000

/-- `MPEGTIME_TO_GSTTIME`: from a 90 kHz clock to nanoseconds. -/
def mpegtimeToGsttime (time : ℕ) : ℕ := time * 100000 / 9

/-- `struct _GstTimeShiftTsIndexer`. -/
structure TsIndexer where
  index : MemIndex
  pcrPid : ℤ
  delta : ℤ
  lastPcr : ℕ
  currentOffset : ℕ
  baseTime : ℕ
  lastTime : ℕ

/-- `GST_READ_UINT16_BE`. -/
def readUint16BE (data : Block UInt8) (i : ℕ) : Option ℕ := do
  let b₀ ← data.read i
  let b₁ ← data.read (i + 1)
  return b₀.toNat <<< 8 ||| b₁.toNat

/-- `GST_READ_UINT32_BE`. -/
def readUint32BE (data : Block UInt8) (i : ℕ) : Option ℕ := do
  let h ← readUint16BE data i
  let l ← readUint16BE data (i + 2)
  return h <<< 16 ||| l

/-- The sizes that a packet can have. -/
def packetSizes : List ℕ := [188, 192, 204, 208]

/-- The rounds of `is_next_sync_valid`, over the packet sizes that are left. -/
def isNextSyncValidLoop (inData : Block UInt8) (size offset : ℕ) : List ℕ → Option Bool
  | [] => some false
  | packetSize :: packetSizes =>
    if guint (offset + packetSize) < size then do
      let b ← inData.read (guint (offset + packetSize))
      if b = tsPacketSyncCode then return true
      else isNextSyncValidLoop inData size offset packetSizes
    else some false

/-- `is_next_sync_valid`. -/
def isNextSyncValid (inData : Block UInt8) (size offset : ℕ) : Option Bool :=
  isNextSyncValidLoop inData size offset packetSizes

namespace TsIndexer

/-- `gst_time_shift_ts_indexer_init`, with the index that
`gst_time_shift_ts_indexer_start` makes. -/
def init : TsIndexer where
  index := MemIndex.new
  pcrPid := invalidPid
  delta := defaultDelta
  lastPcr := 0
  currentOffset := 0
  baseTime := clockTimeNone
  lastTime := clockTimeNone

/-- `gst_time_shift_ts_indexer_set_property` for `PROP_PCR_PID`. -/
def setPcrPid (ts : TsIndexer) (value : ℤ) : TsIndexer :=
  { ts with pcrPid := gint16 value }

/-- `gst_time_shift_ts_indexer_set_property` for `PROP_DELTA`. -/
def setDelta (ts : TsIndexer) (value : ℤ) : TsIndexer :=
  { ts with delta := if value ≠ -1 then gint64 (value * gstMsecond) else value }

/-- `gst_time_shift_ts_indexer_parse_pcr`. -/
def parsePcr (ts : TsIndexer) (data : Block UInt8) : Option (Option ℕ) := do
  if (← data.read 0) ≠ tsPacketSyncCode then return none
  -- the adaptation field
  if (← data.read 3) &&& 0x20 = 0 then return none
  if (← readUint16BE data 1) &&& 0x1fff ≠ guint16 ts.pcrPid then return none
  if (← data.read 4) = 0 then return none
  let flags ← data.read 5
  -- the random access flag, which counts after the first reference only
  if ts.delta = -1 ∧ ts.baseTime ≠ clockTimeNone ∧ flags &&& 0x40 = 0 then return none
  if flags &&& 0x10 = 0 then return none
  let pcr1 ← readUint32BE data 6
  let pcr2 ← readUint16BE data 10
  let pcr := pcr1 <<< 1 ||| (pcr2 &&& 0x8000) >>> 15
  let pcrExt := pcr2 &&& 0x01ff
  return some (if pcrExt ≠ 0 then (pcr * 300 + pcrExt % 300) / 300 else pcr)

/-- The loop of `gst_time_shift_ts_indexer_get_pcr`, from position `i` on: the
reference and the position it has been found at. -/
def getPcrLoop (ts : TsIndexer) (data : Block UInt8) : ℕ → ℕ → Option (Option (ℕ × ℕ))
  | 0, _ => none
  | rounds + 1, i =>
    if i + tsMaxPacketSize < data.size then do
      if (← data.read i) = tsPacketSyncCode then
        if ← isNextSyncValid data (guint data.size) (guint i) then
          match ← ts.parsePcr (data.drop i) with
          -- on to the start of the next packet
          | none => getPcrLoop ts data rounds (i + (tsMinPacketSize - 1) + 1)
          | some pcr => return some (pcr, i)
        else getPcrLoop ts data rounds (i + 1)
      else getPcrLoop ts data rounds (i + 1)
    else return none

/-- `gst_time_shift_ts_indexer_get_pcr`, with the data from the reference on and
its offset. -/
def getPcr (ts : TsIndexer) (data : Block UInt8) (offset : ℕ) :
    Option (Option ℕ × Block UInt8 × ℕ) :=
  if tsMinPacketSize ≤ data.size ∧ data.size ≤ tsMaxPacketSize then do
    return (← ts.parsePcr data, data, offset)
  else do
    match ← ts.getPcrLoop data data.size 0 with
    | some (pcr, i) => return (some pcr, data.drop i, offset + i)
    | none => return (none, data, offset)

/-- `add_index_entry`. -/
def addIndexEntry (ts : TsIndexer) (a : Association) : TsIndexer :=
  { ts with index := ts.index.addAssociation a.entry }

/-- The first reference is at time zero. -/
def setBaseTime (ts : TsIndexer) (pcr : ℕ) : TsIndexer :=
  if ts.baseTime ≠ clockTimeNone then ts else { ts with baseTime := mpegtimeToGsttime pcr }

/-- An association is due at `time`. -/
def isDue (ts : TsIndexer) (time : ℕ) : Prop :=
  ts.lastTime = clockTimeNone ∨ ts.delta = -1 ∨
    (ts.delta ≠ -1 ∧ ts.delta ≤ gint64 (time - ts.lastTime))

instance (ts : TsIndexer) (time : ℕ) : Decidable (ts.isDue time) :=
  inferInstanceAs (Decidable (_ ∨ _ ∨ _))

/-- The loop of `gst_time_shift_ts_indexer_collect_time`; it ends with the first
association that it adds. -/
def collectTimeLoop : ℕ → TsIndexer → Block UInt8 → ℕ → Option (TsIndexer × Option Association)
  | 0, _, _, _ => none
  | rounds + 1, ts, data, offset =>
    if tsMinPacketSize ≤ data.size then do
      let (pcr, data, offset) ← ts.getPcr data offset
      match pcr with
      | none => return (ts, none)
      | some pcr =>
        let ts := ts.setBaseTime pcr
        let time := guint64 (mpegtimeToGsttime pcr - ts.baseTime)
        let ts := { ts with lastPcr := pcr }
        if ts.isDue time then
          return ({ ts.addIndexEntry ⟨time, offset⟩ with lastTime := time }, some ⟨time, offset⟩)
        else if data.size ≠ 0 then collectTimeLoop rounds ts (data.drop 1) (offset + 1)
        else collectTimeLoop rounds ts data offset
    else return (ts, none)

/-- `gst_time_shift_ts_indexer_collect_time`, with the association that it adds. -/
def collectTime (ts : TsIndexer) (data : Block UInt8) :
    Option (TsIndexer × Option Association) := do
  let (ts, added) ←
    if ts.pcrPid = invalidPid then some (ts, none)
    else collectTimeLoop (data.size + 1) ts data ts.currentOffset
  return ({ ts with currentOffset := ts.currentOffset + data.size }, added)

/-! ## Reads stay in the buffer, and the loops end -/

section Spec

variable {ts ts' : TsIndexer} {data : Block UInt8} {i offset rounds : ℕ}

theorem shiftLeft_or (a : ℕ) {b k : ℕ} (h : b < 2 ^ k) : a <<< k ||| b = a * 2 ^ k + b := by
  rw [← Nat.shiftLeft_add_eq_or_of_lt h, Nat.shiftLeft_eq]

theorem readUint16BE_eq (h : i + 1 < data.size) :
    readUint16BE data i = some ((data.byte i).toNat * 2 ^ 8 + (data.byte (i + 1)).toNat) := by
  rw [readUint16BE, data.read_eq (show i < data.size by omega), data.read_eq h,
    ← shiftLeft_or _ (data.byte (i + 1)).toNat_lt]
  rfl

theorem readUint32BE_eq (h : i + 3 < data.size) :
    readUint32BE data i = some
      (((data.byte i).toNat * 2 ^ 8 + (data.byte (i + 1)).toNat) * 2 ^ 16 +
        ((data.byte (i + 2)).toNat * 2 ^ 8 + (data.byte (i + 3)).toNat)) := by
  have hlow : (data.byte (i + 2)).toNat * 2 ^ 8 + (data.byte (i + 3)).toNat < 2 ^ 16 := by
    have h₂ := (data.byte (i + 2)).toNat_lt
    have h₃ := (data.byte (i + 3)).toNat_lt
    omega
  rw [readUint32BE, readUint16BE_eq (show i + 1 < data.size by omega),
    readUint16BE_eq (show i + 2 + 1 < data.size by omega), ← shiftLeft_or _ hlow]
  rfl

/-- The base of a program clock reference: the 33 bits from byte 6 of the packet on. -/
def pcrBase (data : Block UInt8) : ℕ :=
  (data.byte 6).toNat * 2 ^ 25 + (data.byte 7).toNat * 2 ^ 17 + (data.byte 8).toNat * 2 ^ 9 +
    (data.byte 9).toNat * 2 + (data.byte 10).toNat / 2 ^ 7

theorem pcrBase_lt (data : Block UInt8) : pcrBase data < 2 ^ 33 := by
  have h₆ := (data.byte 6).toNat_lt
  have h₇ := (data.byte 7).toNat_lt
  have h₈ := (data.byte 8).toNat_lt
  have h₉ := (data.byte 9).toNat_lt
  have h₁₀ := (data.byte 10).toNat_lt
  unfold pcrBase
  omega

theorem topBit {x : ℕ} (h : x < 2 ^ 16) : (x &&& 0x8000) >>> 15 = x / 2 ^ 15 := by
  rw [Nat.shiftRight_and_distrib, show 0x8000 >>> 15 = 1 from rfl, Nat.and_one_is_mod,
    Nat.shiftRight_eq_div_pow]
  omega

/-- The checks of a packet, in their order, and the reference behind them: the extension,
which counts in 300ths of the base, does not change it. -/
theorem parsePcr_eq (ts : TsIndexer) (data : Block UInt8) (h : 12 ≤ data.size) :
    ts.parsePcr data =
      if data.byte 0 ≠ tsPacketSyncCode then some none
      else if data.byte 3 &&& 0x20 = 0 then some none
      else if ((data.byte 1).toNat * 2 ^ 8 + (data.byte 2).toNat) &&& 0x1fff ≠ guint16 ts.pcrPid
      then some none
      else if data.byte 4 = 0 then some none
      else if ts.delta = -1 ∧ ts.baseTime ≠ clockTimeNone ∧ data.byte 5 &&& 0x40 = 0 then some none
      else if data.byte 5 &&& 0x10 = 0 then some none
      else some (some (pcrBase data)) := by
  have hpcr2 : (data.byte 10).toNat * 2 ^ 8 + (data.byte 11).toNat < 2 ^ 16 := by
    have h₁₀ := (data.byte 10).toNat_lt
    have h₁₁ := (data.byte 11).toNat_lt
    omega
  have hbase : (((data.byte 6).toNat * 2 ^ 8 + (data.byte 7).toNat) * 2 ^ 16 +
      ((data.byte 8).toNat * 2 ^ 8 + (data.byte 9).toNat)) <<< 1 |||
        ((data.byte 10).toNat * 2 ^ 8 + (data.byte 11).toNat) / 2 ^ 15 = pcrBase data := by
    have h₁₁ := (data.byte 11).toNat_lt
    rw [shiftLeft_or _ (by omega)]
    unfold pcrBase
    omega
  have hext : ∀ pcr pcrExt : ℕ,
      (if pcrExt ≠ 0 then (pcr * 300 + pcrExt % 300) / 300 else pcr) = pcr := by
    intro pcr pcrExt
    split <;> omega
  rw [parsePcr, data.read_eq (show 0 < data.size by omega),
    data.read_eq (show 3 < data.size by omega), data.read_eq (show 4 < data.size by omega),
    data.read_eq (show 5 < data.size by omega), readUint16BE_eq (show 1 + 1 < data.size by omega),
    readUint16BE_eq (show 10 + 1 < data.size by omega),
    readUint32BE_eq (show 6 + 3 < data.size by omega)]
  simp only [Option.bind_eq_bind, Option.bind_some, Nat.reduceAdd, topBit hpcr2, hbase, hext]
  rfl

theorem parsePcr_isSome (ts : TsIndexer) (data : Block UInt8) (h : 12 ≤ data.size) :
    ∃ r, ts.parsePcr data = some r := by
  rw [parsePcr_eq ts data h]
  repeat' split
  all_goals exact ⟨_, rfl⟩

/-- What has been read as a reference is one. -/
theorem parsePcr_some {pcr : ℕ} (h : 12 ≤ data.size) (hp : ts.parsePcr data = some (some pcr)) :
    data.byte 0 = tsPacketSyncCode ∧ data.byte 3 &&& 0x20 ≠ 0 ∧
      ((data.byte 1).toNat * 2 ^ 8 + (data.byte 2).toNat) &&& 0x1fff = guint16 ts.pcrPid ∧
      data.byte 4 ≠ 0 ∧ data.byte 5 &&& 0x10 ≠ 0 ∧ pcr = pcrBase data := by
  rw [parsePcr_eq ts data h] at hp
  -- the checks, in their order; a failed one ends without a reference
  split at hp
  · cases hp
  split at hp
  · cases hp
  split at hp
  · cases hp
  split at hp
  · cases hp
  split at hp
  · cases hp
  split at hp
  · cases hp
  rename_i hsync hfield hpid hlength hrandom hflag
  cases hp
  exact ⟨not_not.mp hsync, hfield, not_not.mp hpid, hlength, hflag, rfl⟩

theorem parsePcr_lt {pcr : ℕ} (h : 12 ≤ data.size) (hp : ts.parsePcr data = some (some pcr)) :
    pcr < 2 ^ 33 := by
  rcases parsePcr_some h hp with ⟨-, -, -, -, -, rfl⟩
  exact pcrBase_lt data

theorem isNextSyncValidLoop_isSome {size : ℕ} (h : size ≤ data.size) (offset : ℕ)
    (sizes : List ℕ) :
    ∃ r, isNextSyncValidLoop data size offset sizes = some r := by
  induction sizes with
  | nil => exact ⟨false, rfl⟩
  | cons packetSize sizes ih =>
      rw [isNextSyncValidLoop]
      split
      · rename_i hlt
        rw [data.read_eq (Nat.lt_of_lt_of_le hlt h), Option.bind_eq_bind, Option.bind_some]
        split
        · exact ⟨true, rfl⟩
        · exact ih
      · exact ⟨false, rfl⟩

theorem guint_le (x : ℕ) : guint x ≤ x := Nat.mod_le _ _

/-- A round of the scan at a confirmed sync byte: the packet is parsed, and without a
reference in it, the next round is at the next packet. -/
theorem getPcrLoop_synced (hreach : i + tsMaxPacketSize < data.size)
    (hsync : data.byte i = tsPacketSyncCode)
    (hvalid : isNextSyncValid data (guint data.size) (guint i) = some true)
    {r : Option ℕ} (hparse : ts.parsePcr (data.drop i) = some r) :
    ts.getPcrLoop data (rounds + 1) i =
      r.elim (ts.getPcrLoop data rounds (i + 188)) fun pcr => some (some (pcr, i)) := by
  rw [getPcrLoop, if_pos hreach, data.read_eq (show i < data.size by omega), hsync,
    Option.bind_eq_bind, Option.bind_some, if_pos rfl, hvalid, Option.bind_eq_bind,
    Option.bind_some, if_pos rfl, hparse, Option.bind_eq_bind, Option.bind_some]
  cases r with
  | none => rfl
  | some pcr => rfl

/-- A round of the scan at a place without a confirmed sync byte goes on by a byte. -/
theorem getPcrLoop_unsynced (hreach : i + tsMaxPacketSize < data.size)
    (h : data.byte i = tsPacketSyncCode →
      isNextSyncValid data (guint data.size) (guint i) = some false) :
    ts.getPcrLoop data (rounds + 1) i = ts.getPcrLoop data rounds (i + 1) := by
  rw [getPcrLoop, if_pos hreach, data.read_eq (show i < data.size by omega),
    Option.bind_eq_bind, Option.bind_some]
  split
  case isTrue hsync => rw [h hsync, Option.bind_eq_bind, Option.bind_some, if_neg (by simp)]
  case isFalse => rfl

/-- What a round of the scan can do: it parses a packet at a confirmed sync byte, or goes
on by a byte. -/
theorem getPcrLoop_round (ts : TsIndexer) (rounds : ℕ) (hreach : i + tsMaxPacketSize < data.size) :
    (isNextSyncValid data (guint data.size) (guint i) = some true ∧
      ∃ r, ts.parsePcr (data.drop i) = some r ∧ ts.getPcrLoop data (rounds + 1) i =
        r.elim (ts.getPcrLoop data rounds (i + 188)) fun pcr => some (some (pcr, i))) ∨
      ts.getPcrLoop data (rounds + 1) i = ts.getPcrLoop data rounds (i + 1) := by
  rcases isNextSyncValidLoop_isSome (guint_le data.size) (guint i) packetSizes with
    ⟨valid, hvalid⟩
  by_cases hsync : data.byte i = tsPacketSyncCode
  case neg => exact Or.inr (getPcrLoop_unsynced hreach fun habs => absurd habs hsync)
  case pos =>
    cases valid with
    | false => exact Or.inr (getPcrLoop_unsynced hreach fun _ => hvalid)
    | true =>
        have hpacket : 12 ≤ (data.drop i).size := by
          rw [Block.size_drop]
          unfold tsMaxPacketSize at hreach
          omega
        rcases ts.parsePcr_isSome _ hpacket with ⟨r, hparse⟩
        exact Or.inl ⟨hvalid, r, hparse, getPcrLoop_synced hreach hsync hvalid hparse⟩

/-- The scan ends, and at the place that it finds there is a reference, with a longest
packet behind it. -/
theorem getPcrLoop_spec (ts : TsIndexer) (i : ℕ) (hrounds : 0 < rounds)
    (hsize : data.size < i + rounds + tsMaxPacketSize) :
    ∃ r, ts.getPcrLoop data rounds i = some r ∧
      ∀ x ∈ r, x.2 + tsMaxPacketSize < data.size ∧
        ts.parsePcr (data.drop x.2) = some (some x.1) := by
  -- a round moves on by a byte at least, or by a packet
  induction rounds generalizing i with
  | zero => omega
  | succ rounds ih =>
      by_cases hreach : i + tsMaxPacketSize < data.size
      case neg =>
        rw [getPcrLoop, if_neg hreach]
        exact ⟨none, rfl, by simp⟩
      case pos =>
        rcases ts.getPcrLoop_round rounds hreach with ⟨-, r, hparse, hround⟩ | hround
        · rw [hround]
          cases r with
          | none => exact ih (i + 188) (by omega) (by omega)
          | some pcr =>
              refine ⟨some (pcr, i), rfl, ?_⟩
              intro x hx
              cases hx
              exact ⟨hreach, hparse⟩
        · rw [hround]
          exact ih (i + 1) (by omega) (by omega)

/-- The result is a reference at some distance into the buffer, with a packet's length
behind it, or none at all. -/
theorem getPcr_spec (ts : TsIndexer) (h : tsMinPacketSize ≤ data.size) (offset : ℕ) :
    ∃ pcr k, ts.getPcr data offset = some (pcr, data.drop k, offset + k) ∧
      ∀ p ∈ pcr, tsMinPacketSize ≤ (data.drop k).size ∧
        ts.parsePcr (data.drop k) = some (some p) := by
  have hsize : 188 ≤ data.size := h
  unfold getPcr
  split
  · rcases ts.parsePcr_isSome data (by omega) with ⟨pcr, hpcr⟩
    refine ⟨pcr, 0, by rw [hpcr]; rfl, ?_⟩
    intro p hp
    cases hp
    exact ⟨h, hpcr⟩
  · have hrounds : data.size < 0 + data.size + tsMaxPacketSize := by
      unfold tsMaxPacketSize
      omega
    rcases ts.getPcrLoop_spec 0 (by omega) hrounds with ⟨_ | ⟨pcr, k⟩, hr, hx⟩
    · exact ⟨none, 0, by rw [hr]; rfl, by simp⟩
    · refine ⟨some pcr, k, by rw [hr]; rfl, ?_⟩
      intro p hp
      cases hp
      rcases hx (pcr, k) rfl with ⟨hlt, hparse⟩
      refine ⟨?_, hparse⟩
      rw [Block.size_drop]
      unfold tsMaxPacketSize at hlt
      unfold tsMinPacketSize
      omega

/-- The indexer after it has come upon a reference. -/
def see (ts : TsIndexer) (pcr : ℕ) : TsIndexer := { ts.setBaseTime pcr with lastPcr := pcr }

/-- The time of a reference. -/
def timeOf (ts : TsIndexer) (pcr : ℕ) : ℕ := guint64 (mpegtimeToGsttime pcr - ts.baseTime)

/-- The indexer after it has added an association. -/
def add (ts : TsIndexer) (a : Association) : TsIndexer :=
  { ts.addIndexEntry a with lastTime := a.time }

/-- A reference changes `last_pcr`, and `base_time` when it is the first one. -/
theorem see_eq (ts : TsIndexer) (pcr : ℕ) :
    ts.see pcr = { ts with
      lastPcr := pcr
      baseTime := if ts.baseTime = clockTimeNone then mpegtimeToGsttime pcr
        else ts.baseTime } := by
  unfold see setBaseTime
  by_cases hbase : ts.baseTime = clockTimeNone
  · simp only [hbase, ne_eq, not_true_eq_false, if_false, if_true]
  · simp only [hbase, ne_eq, not_false_eq_true, if_false, if_true]

@[simp] theorem see_index (ts : TsIndexer) (pcr : ℕ) : (ts.see pcr).index = ts.index := by
  rw [see_eq]

@[simp] theorem see_pcrPid (ts : TsIndexer) (pcr : ℕ) : (ts.see pcr).pcrPid = ts.pcrPid := by
  rw [see_eq]

@[simp] theorem see_delta (ts : TsIndexer) (pcr : ℕ) : (ts.see pcr).delta = ts.delta := by
  rw [see_eq]

@[simp] theorem see_currentOffset (ts : TsIndexer) (pcr : ℕ) :
    (ts.see pcr).currentOffset = ts.currentOffset := by
  rw [see_eq]

@[simp] theorem see_lastTime (ts : TsIndexer) (pcr : ℕ) :
    (ts.see pcr).lastTime = ts.lastTime := by
  rw [see_eq]

/-- The rule for the loop: `P` holds of the indexer and the position in the buffer
before every round, and `Q` of the outcome. A round that finds no reference is the last
one; else it adds an association, or goes on behind the first byte of the reference. -/
theorem collectTimeLoop_rule {P : TsIndexer → ℕ → Prop}
    {Q : TsIndexer → Option Association → Prop}
    (hnone : ∀ ts i, P ts i → (tsMinPacketSize ≤ (data.drop i).size →
      ∃ d o, ts.getPcr (data.drop i) (offset + i) = some (none, d, o)) → Q ts none)
    (hfound : ∀ ts i pcr k, P ts i → tsMinPacketSize ≤ (data.drop (i + k)).size →
      ts.getPcr (data.drop i) (offset + i) = some (some pcr, data.drop (i + k), offset + (i + k)) →
      ts.parsePcr (data.drop (i + k)) = some (some pcr) →
      if (ts.see pcr).isDue ((ts.see pcr).timeOf pcr) then
        Q ((ts.see pcr).add ⟨(ts.see pcr).timeOf pcr, offset + (i + k)⟩)
          (some ⟨(ts.see pcr).timeOf pcr, offset + (i + k)⟩)
      else P (ts.see pcr) (i + k + 1))
    (hstart : P ts i) (hrounds : (data.drop i).size < rounds) :
    ∃ ts' added, collectTimeLoop rounds ts (data.drop i) (offset + i) = some (ts', added) ∧
      Q ts' added := by
  -- a round takes a byte of the buffer at least, so that the rounds last
  induction rounds generalizing ts i with
  | zero => omega
  | succ rounds ih =>
      rw [collectTimeLoop]
      split
      case isFalse hsmall =>
        exact ⟨ts, none, rfl, hnone ts i hstart fun hsize => absurd hsize hsmall⟩
      case isTrue hsize =>
        rcases ts.getPcr_spec hsize (offset + i) with ⟨pcr, k, hget, hpacket⟩
        rw [Block.drop_drop, Nat.add_assoc] at hget
        rw [Block.drop_drop] at hpacket
        rw [hget, Option.bind_eq_bind, Option.bind_some]
        cases pcr with
        | none => exact ⟨ts, none, rfl, hnone ts i hstart fun _ => ⟨_, _, hget⟩⟩
        | some pcr =>
            rcases hpacket pcr rfl with ⟨hk, hparse⟩
            have hround := hfound ts i pcr k hstart hk hget hparse
            dsimp only
            split
            case isTrue hdue =>
              have hdue : (ts.see pcr).isDue ((ts.see pcr).timeOf pcr) := hdue
              rw [if_pos hdue] at hround
              exact ⟨_, _, rfl, hround⟩
            case isFalse hdue =>
              -- the reference comes too early: on with the byte behind it
              have hearly : ¬(ts.see pcr).isDue ((ts.see pcr).timeOf pcr) := hdue
              rw [if_neg hearly] at hround
              rw [Block.size_drop, tsMinPacketSize] at hk
              have hne : (data.drop (i + k)).size ≠ 0 := by
                rw [Block.size_drop]
                omega
              have hless : (data.drop (i + k + 1)).size < rounds := by
                rw [Block.size_drop] at hrounds ⊢
                omega
              rw [if_pos hne, Block.drop_drop, Nat.add_assoc offset]
              exact ih hround hless

/-- The loop ends, and an association that it adds is at a place of the buffer. -/
theorem collectTimeLoop_spec (ts : TsIndexer) (data : Block UInt8) (offset : ℕ) :
    ∃ ts' added, collectTimeLoop (data.size + 1) ts data offset = some (ts', added) ∧
      ts'.currentOffset = ts.currentOffset ∧
      ∀ a ∈ added, offset ≤ a.offset ∧ a.offset < offset + data.size := by
  apply collectTimeLoop_rule (i := 0) (P := fun ts' _ => ts'.currentOffset = ts.currentOffset)
    (Q := fun ts' added => ts'.currentOffset = ts.currentOffset ∧
      ∀ a ∈ added, offset ≤ a.offset ∧ a.offset < offset + data.size)
  · intro ts' _ hcurrent _
    exact ⟨hcurrent, by simp⟩
  · intro ts' i pcr k hcurrent hk _ _
    rw [Block.size_drop, tsMinPacketSize] at hk
    split
    · refine ⟨(see_currentOffset ts' pcr).trans hcurrent, ?_⟩
      intro a ha
      cases ha
      dsimp only
      omega
    · exact (see_currentOffset ts' pcr).trans hcurrent
  · rfl
  · exact Nat.lt_succ_self data.size

/-- Whatever the bytes of a buffer, the indexer counts all of them, and an
association that it adds is at a place of the buffer. -/
theorem collectTime_spec (ts : TsIndexer) (data : Block UInt8) :
    ∃ ts' added, ts.collectTime data = some (ts', added) ∧
      ts'.currentOffset = ts.currentOffset + data.size ∧
      ∀ a ∈ added, ts.currentOffset ≤ a.offset ∧ a.offset < ts.currentOffset + data.size := by
  unfold collectTime
  split
  · exact ⟨_, none, rfl, rfl, by simp⟩
  · rcases collectTimeLoop_spec ts data ts.currentOffset with
      ⟨ts', added, hloop, hcurrent, hadded⟩
    rw [hloop]
    exact ⟨_, added, rfl, by dsimp only; rw [hcurrent], hadded⟩

end Spec

end TsIndexer

end TimeShift
