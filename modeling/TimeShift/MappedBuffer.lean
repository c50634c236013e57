import TimeShift.PcrScan
import TimeShift.Lib.Memory

/-!
# The scan of a mapped buffer

The scan of `gsttimeshifttsindexer.c` once more, on addresses: what
`gst_time_shift_ts_indexer_collect_time` gets is a pointer and a size, and the pointer,
the size that remains and the offset are advanced one by one, by
`gst_time_shift_ts_indexer_get_pcr` and by the loop itself. A program reads whatever
address it comes to, inside of the buffer or not, and is stuck when a loop does not end
within its rounds, or when the position in the buffer, a `gint`, overflows.

`collectTime_computes` says that the three stay in step: on a buffer of less than 2^30
bytes, the scan reads inside of it only, and returns what `TsIndexer.collectTime` does.
-/

namespace TimeShift

namespace Mapped

open Bytes Memory Prog

/-- Addition of two `gint` values; an overflow has no defined behaviour. -/
def gintAdd (x y : ℤ) : Prog ℤ UInt8 ℤ :=
  if -2 ^ 31 ≤ x + y ∧ x + y < 2 ^ 31 then return x + y else .stuck

/-- `GST_READ_UINT16_BE`. -/
def readUint16BE (data : ℤ) : Prog ℤ UInt8 ℕ := do
  let b₀ ← load data
  let b₁ ← load (data + 1)
  return b₀.toNat <<< 8 ||| b₁.toNat

/-- `GST_READ_UINT32_BE`. -/
def readUint32BE (data : ℤ) : Prog ℤ UInt8 ℕ := do
  let h ← readUint16BE data
  let l ← readUint16BE (data + 2)
  return h <<< 16 ||| l

/-- The rounds of `is_next_sync_valid`, over the packet sizes that are left. -/
def isNextSyncValidLoop (inData : ℤ) (size offset : ℕ) : List ℕ → Prog ℤ UInt8 Bool
  | [] => return false
  | packetSize :: packetSizes =>
    if guint (offset + packetSize) < size then do
      if (← load (inData + guint (offset + packetSize))) = tsPacketSyncCode then return true
      else isNextSyncValidLoop inData size offset packetSizes
    else return false

/-- `is_next_sync_valid`. -/
def isNextSyncValid (inData : ℤ) (size offset : ℕ) : Prog ℤ UInt8 Bool :=
  isNextSyncValidLoop inData size offset packetSizes

/-- `gst_time_shift_ts_indexer_parse_pcr`. -/
def parsePcr (ts : TsIndexer) (data : ℤ) : Prog ℤ UInt8 (Option ℕ) := do
  if (← load data) ≠ tsPacketSyncCode then return none
  -- the adaptation field
  if (← load (data + 3)) &&& 0x20 = 0 then return none
  if (← readUint16BE (data + 1)) &&& 0x1fff ≠ guint16 ts.pcrPid then return none
  if (← load (data + 4)) = 0 then return none
  -- the random access flag, which counts after the first reference only
  if ts.delta = -1 ∧ ts.baseTime ≠ clockTimeNone then
    if (← load (data + 5)) &&& 0x40 = 0 then return none
  if (← load (data + 5)) &&& 0x10 = 0 then return none
  let pcr1 ← readUint32BE (data + 6)
  let pcr2 ← readUint16BE (data + 10)
  let pcr := pcr1 <<< 1 ||| (pcr2 &&& 0x8000) >>> 15
  let pcrExt := pcr2 &&& 0x01ff
  return some (if pcrExt ≠ 0 then (pcr * 300 + pcrExt % 300) / 300 else pcr)

/-- What `gst_time_shift_ts_indexer_get_pcr` returns: the reference, and the pointer, the
size and the offset as it leaves them. -/
structure Found where
  pcr : Option ℕ
  inData : ℤ
  inSize : ℕ
  offset : ℕ

/-- A round of the loop of `gst_time_shift_ts_indexer_get_pcr`, at position `i`. -/
def getPcrRound (ts : TsIndexer) (data : ℤ) (size offset : ℕ) (i : ℤ) :
    Prog ℤ UInt8 (ℤ ⊕ Found) := do
  let reach ← gintAdd i tsMaxPacketSize
  if guint64 reach < size then
    if (← load (data + i)) = tsPacketSyncCode then
      if ← isNextSyncValid data (guint size) (guintOfGint i) then
        match ← parsePcr ts (data + i) with
        | none =>
          -- on to the start of the next packet
          let last ← gintAdd i (tsMinPacketSize - 1)
          return .inl (← gintAdd last 1)
        | some pcr =>
          return .inr ⟨some pcr, data + i, guint64 (size - i), (offset + i).toNat⟩
      else return .inl (← gintAdd i 1)
    else return .inl (← gintAdd i 1)
  else return .inr ⟨none, data, size, offset⟩

/-- `gst_time_shift_ts_indexer_get_pcr`. -/
def getPcr (rounds : ℕ) (ts : TsIndexer) (inData : ℤ) (inSize offset : ℕ) :
    Prog ℤ UInt8 Found :=
  if tsMinPacketSize ≤ inSize ∧ inSize ≤ tsMaxPacketSize then do
    return ⟨← parsePcr ts inData, inData, inSize, offset⟩
  else iterate (getPcrRound ts inData inSize offset) rounds 0

/-- The variables of the loop of `gst_time_shift_ts_indexer_collect_time`. -/
structure Scan where
  ts : TsIndexer
  data : ℤ
  remaining : ℕ
  offset : ℕ

/-- A round of the loop of `gst_time_shift_ts_indexer_collect_time`. -/
def collectTimeRound (rounds : ℕ) (s : Scan) :
    Prog ℤ UInt8 (Scan ⊕ TsIndexer × Option Association) := do
  if tsMinPacketSize ≤ s.remaining then
    let found ← getPcr rounds s.ts s.data s.remaining s.offset
    match found.pcr with
    | none => return .inr (s.ts, none)
    | some pcr =>
      let ts := s.ts.setBaseTime pcr
      let time := guint64 (mpegtimeToGsttime pcr - ts.baseTime)
      let ts := { ts with lastPcr := pcr }
      if ts.isDue time then
        return .inr ({ ts.addIndexEntry ⟨time, found.offset⟩ with lastTime := time },
          some ⟨time, found.offset⟩)
      else if found.inSize ≠ 0 then
        return .inl ⟨ts, found.inData + 1, found.inSize - 1, found.offset + 1⟩
      else return .inl ⟨ts, found.inData, found.inSize, found.offset⟩
  else return .inr (s.ts, none)

/-- `gst_time_shift_ts_indexer_collect_time`, with the association that it adds; each of
its loops takes so many rounds at most. -/
def collectTime (rounds : ℕ) (ts : TsIndexer) (data : ℤ) (size : ℕ) :
    Prog ℤ UInt8 (TsIndexer × Option Association) := do
  let (ts, added) ←
    if ts.pcrPid = invalidPid then pure (ts, none)
    else iterate (collectTimeRound rounds) rounds ⟨ts, data, size, ts.currentOffset⟩
  return ({ ts with currentOffset := ts.currentOffset + size }, added)

/-! ## The buffer as a block -/

section Spec

variable {mem : ℤ → UInt8} {ts : TsIndexer} {data : ℤ} {size i k offset rounds : ℕ}

/-- The addresses of a buffer. -/
def Inside (data : ℤ) (size : ℕ) (p : ℤ) : Prop := data ≤ p ∧ p < data + size

/-- The bytes of a buffer. -/
def buffer (mem : ℤ → UInt8) (data : ℤ) (size : ℕ) : Block UInt8 where
  size := size
  byte i := mem (data + i)

theorem buffer_drop (mem : ℤ → UInt8) (data : ℤ) (size k : ℕ) :
    (buffer mem data size).drop k = buffer mem (data + k) (size - k) := by
  have hbyte : ∀ i : ℕ, mem (data + (i + k : ℕ)) = mem (data + k + i) := by
    intro i
    congr 1
    omega
  exact congrArg (Block.mk (size - k)) (funext hbyte)

/-- What is behind the first bytes of a buffer is inside of it. -/
theorem Inside.of_drop {p : ℤ} (h : Inside (data + k) (size - k) p) : Inside data size p := by
  unfold Inside at *
  omega

theorem load_ensures {p : ℤ} (hp : p = data + i) (hi : i < size) :
    (load p).Ensures mem (Inside data size) ((buffer mem data size).byte i = ·) := by
  have hinside : Inside data size p := by
    unfold Inside
    omega
  refine ensures_load.mpr ⟨hinside, ?_⟩
  rw [hp]
  rfl

theorem load_computes {p : ℤ} (hp : p = data + i) (hi : i < size) :
    (load p).Computes mem (Inside data size) ((buffer mem data size).read i) := by
  rw [(buffer mem data size).read_eq hi]
  exact (load_ensures hp hi).imp fun _ h => congrArg some h

theorem readUint16BE_computes {p : ℤ} (hp : p = data + i) (hi : i + 1 < size) :
    (readUint16BE p).Computes mem (Inside data size)
      (TimeShift.readUint16BE (buffer mem data size) i) := by
  apply Computes.bind (load_computes hp (by omega))
  intro b₀
  apply Computes.bind (load_computes (by omega) hi)
  intro b₁
  exact Computes.pure _

theorem readUint32BE_computes {p : ℤ} (hp : p = data + i) (hi : i + 3 < size) :
    (readUint32BE p).Computes mem (Inside data size)
      (TimeShift.readUint32BE (buffer mem data size) i) := by
  apply Computes.bind (readUint16BE_computes hp (by omega))
  intro h
  apply Computes.bind (readUint16BE_computes (by omega) hi)
  intro l
  exact Computes.pure _

/-- A byte that is looked at twice can be read once. -/
theorem read_again {A B : Prop} [Decidable A] [Decidable B] {c : UInt8 → Prop}
    [DecidablePred c] {b : Block UInt8} {r : Option (Option ℕ)}
    {rest : UInt8 → Option (Option ℕ)} :
    (b.read i >>= fun flags => if A ∧ B ∧ c flags then r else rest flags) =
      if A ∧ B then b.read i >>= fun flags => if c flags then r else b.read i >>= rest
      else b.read i >>= rest := by
  cases hread : b.read i with
  | none => split <;> rfl
  | some flags =>
      simp only [Option.bind_eq_bind, Option.bind_some, ← and_assoc]
      by_cases hrandom : A ∧ B
      · simp only [hrandom, true_and, and_self, if_true]
      · simp only [hrandom, false_and, if_false]

/-- A packet is parsed by its first 12 bytes. -/
theorem parsePcr_computes (hsize : 12 ≤ size) :
    (parsePcr ts data).Computes mem (Inside data size)
      (ts.parsePcr (buffer mem data size)) := by
  have hnone : (pure none : Prog ℤ UInt8 (Option ℕ)).Computes mem (Inside data size)
      (pure none) := Computes.pure none
  apply Computes.bind (load_computes (by omega) (by omega))
  intro sync
  apply Computes.ite (fun _ => hnone) fun _ => ?_
  apply Computes.bind (load_computes (by omega) (by omega))
  intro field
  apply Computes.ite (fun _ => hnone) fun _ => ?_
  apply Computes.bind (readUint16BE_computes (by omega) (by omega))
  intro pid
  apply Computes.ite (fun _ => hnone) fun _ => ?_
  apply Computes.bind (load_computes (by omega) (by omega))
  intro length
  apply Computes.ite (fun _ => hnone) fun _ => ?_
  rw [read_again]
  refine Computes.ite (fun _ => ?_) fun _ => ?_
  case' refine_1 =>
    apply Computes.bind (load_computes (by omega) (by omega))
    intro random
    refine Computes.ite (fun _ => hnone) fun _ => ?_
  -- from here on with both
  all_goals
    apply Computes.bind (load_computes (by omega) (by omega))
    intro flags
    refine Computes.ite (fun _ => hnone) fun _ => ?_
    apply Computes.bind (readUint32BE_computes (by omega) (by omega))
    intro pcr1
    apply Computes.bind (readUint16BE_computes (by omega) (by omega))
    intro pcr2
    exact Computes.pure _

/-- The sync bytes that are looked for are inside of the buffer, as its length has been
cut off to 32 bits at most. -/
theorem isNextSyncValidLoop_computes {size' : ℕ} (hsize : size' ≤ size) (offset : ℕ)
    (sizes : List ℕ) :
    (isNextSyncValidLoop data size' offset sizes).Computes mem (Inside data size)
      (TimeShift.isNextSyncValidLoop (buffer mem data size) size' offset sizes) := by
  induction sizes with
  | nil => exact Computes.pure false
  | cons packetSize sizes ih =>
      refine Computes.ite (fun hlt => ?_) fun _ => Computes.pure false
      apply Computes.bind (load_computes rfl (Nat.lt_of_lt_of_le hlt hsize))
      intro sync
      exact Computes.ite (fun _ => Computes.pure true) fun _ => ih

/-! ## One call -/

theorem gintAdd_eq {x y : ℤ} (h : -2 ^ 31 ≤ x + y) (h' : x + y < 2 ^ 31) :
    gintAdd x y = pure (x + y) := if_pos ⟨h, h'⟩

theorem guintOfGint_natCast (i : ℕ) : guintOfGint i = guint i := by
  unfold guintOfGint guint
  omega

/-- The position that the scan has come to, as the caller gets it. -/
def Found.of (data : ℤ) (size offset : ℕ) : Option (ℕ × ℕ) → Found
  | none => ⟨none, data, size, offset⟩
  | some (pcr, k) => ⟨some pcr, data + k, size - k, offset + k⟩

/-- What a round of the scan comes to, as the scan of the block has it: a position further
on, or the end. -/
def RoundOf (ts : TsIndexer) (b : Block UInt8) (data : ℤ) (offset i : ℕ) : ℤ ⊕ Found → Prop
  | .inl i' => ∃ j : ℕ, i' = j ∧ i < j ∧ j < b.size ∧
      ∀ n, ts.getPcrLoop b (n + 1) i = ts.getPcrLoop b n j
  | .inr found => ∃ r, found = Found.of data b.size offset r ∧
      (∀ n, ts.getPcrLoop b (n + 1) i = some r) ∧ ∀ x ∈ r, x.2 + tsMaxPacketSize < b.size

theorem getPcrRound_spec (hsize : size < 2 ^ 30) (hi : i < size) :
    (getPcrRound ts data size offset i).Ensures mem (Inside data size)
      (RoundOf ts (buffer mem data size) data offset i) := by
  have hmax : tsMaxPacketSize = 208 := rfl
  have hmin : tsMinPacketSize = 188 := rfl
  have hblock : (buffer mem data size).size = size := rfl
  rw [getPcrRound, gintAdd_eq (by omega) (by omega), Prog.pure_bind,
    guint64_of_lt (by omega) (by omega)]
  split
  case isFalse hend =>
    apply Ensures.pure
    refine ⟨none, rfl, ?_, by simp⟩
    intro n
    rw [TsIndexer.getPcrLoop, hblock, if_neg (by omega)]
    rfl
  case isTrue hreach =>
    have hin : i + tsMaxPacketSize < (buffer mem data size).size := by omega
    apply Ensures.bind (load_ensures rfl hi)
    rintro sync rfl
    split
    case isFalse hsync =>
      rw [gintAdd_eq (by omega) (by omega)]
      apply Ensures.pure
      refine ⟨i + 1, rfl, by omega, by omega, ?_⟩
      intro n
      exact TsIndexer.getPcrLoop_unsynced hin fun habs => absurd habs hsync
    case isTrue hsync =>
      rw [guintOfGint_natCast]
      apply Ensures.bind (isNextSyncValidLoop_computes (TsIndexer.guint_le size) _ _)
      intro valid hvalid
      cases valid with
      | false =>
          rw [if_neg (by simp), gintAdd_eq (by omega) (by omega)]
          apply Ensures.pure
          refine ⟨i + 1, rfl, by omega, by omega, ?_⟩
          intro n
          exact TsIndexer.getPcrLoop_unsynced hin fun _ => hvalid
      | true =>
          rw [if_pos rfl]
          apply Ensures.bind ((parsePcr_computes (by omega)).widen fun _ => Inside.of_drop)
          intro r hparse
          rw [← buffer_drop] at hparse
          have hloop : ∀ n, ts.getPcrLoop (buffer mem data size) (n + 1) i =
              r.elim (ts.getPcrLoop (buffer mem data size) n (i + 188))
                fun pcr => some (some (pcr, i)) := by
            intro n
            exact TsIndexer.getPcrLoop_synced hin hsync hvalid hparse
          cases r with
          | none =>
              dsimp only
              rw [gintAdd_eq (by omega) (by omega), Prog.pure_bind,
                gintAdd_eq (by omega) (by omega)]
              apply Ensures.pure
              exact ⟨i + 188, by omega, by omega, by omega, hloop⟩
          | some pcr =>
              apply Ensures.pure
              refine ⟨some (pcr, i), ?_, hloop, ?_⟩
              · have hsub : guint64 (size - i) = size - i := by
                  rw [guint64_of_lt (by omega) (by omega)]
                  omega
                rw [hsub]
                rfl
              · rintro x ⟨⟩
                exact hin

theorem getPcr_spec (hmin : tsMinPacketSize ≤ size) (hsize : size < 2 ^ 30)
    (hrounds : size < rounds) :
    (getPcr rounds ts data size offset).Ensures mem (Inside data size) fun found =>
      ∃ pcr k, found = ⟨pcr, data + (k : ℕ), size - k, offset + k⟩ ∧
        ts.getPcr (buffer mem data size) offset =
          some (pcr, (buffer mem data size).drop k, offset + k) ∧
        ∀ p ∈ pcr, tsMinPacketSize ≤ size - k := by
  have hblock : (buffer mem data size).size = size := rfl
  have hsome : 188 ≤ size := hmin
  unfold getPcr TsIndexer.getPcr
  rw [hblock]
  split
  case isTrue =>
    apply Ensures.bind (parsePcr_computes (by omega))
    intro pcr hparse
    apply Ensures.pure
    refine ⟨pcr, 0, by simp, ?_, fun _ _ => hmin⟩
    rw [hparse]
    rfl
  case isFalse =>
    -- the rounds that the scan of the block has left last to the end of the buffer
    apply Ensures.iterate (I := fun i : ℤ => ∃ j n : ℕ, i = j ∧ j < size ∧ size ≤ j + n ∧
      ts.getPcrLoop (buffer mem data size) n j = ts.getPcrLoop (buffer mem data size) size 0)
      fun i : ℤ => (size - i).toNat
    · rintro i ⟨j, n, rfl, hj, hn, hloop⟩
      rcases Nat.exists_eq_add_of_le' (show 1 ≤ n by omega) with ⟨m, rfl⟩
      apply (getPcrRound_spec hsize hj).imp
      rintro (i' | found)
      · rintro ⟨j', hij', hlt, hj', hround⟩
        rw [hblock] at hj'
        exact ⟨⟨j', m, hij', hj', by omega, (hround m).symm.trans hloop⟩, by omega⟩
      · rintro ⟨r, rfl, hround, hreach⟩
        rw [← hloop, hround m, Option.bind_eq_bind, Option.bind_some]
        rcases r with _ | ⟨pcr, k⟩
        · exact ⟨none, 0, by simp [Found.of, hblock], rfl, by simp⟩
        · refine ⟨some pcr, k, rfl, rfl, ?_⟩
          intro p _
          have hk : k + 208 < size := hreach (pcr, k) rfl
          show 188 ≤ size - k
          omega
    · exact ⟨0, size, rfl, by omega, by omega, rfl⟩
    · omega

/-! ## The whole scan -/

/-- The pointer, the size that remains and the offset are in step. -/
structure InStep (data : ℤ) (size offset : ℕ) (s : Scan) (k : ℕ) : Prop where
  inside : k ≤ size
  data : s.data = data + k
  remaining : s.remaining = size - k
  offset : s.offset = offset + k

theorem collectTimeRound_spec {s : Scan} (hsize : size < 2 ^ 30) (hrounds : size < rounds)
    (h : InStep data size offset s k) :
    (collectTimeRound rounds s).Ensures mem (Inside data size) fun
      | .inl s' => ∃ k', k < k' ∧ InStep data size offset s' k' ∧ ∀ n,
          TsIndexer.collectTimeLoop (n + 1) s.ts ((buffer mem data size).drop k) (offset + k) =
            TsIndexer.collectTimeLoop n s'.ts ((buffer mem data size).drop k') (offset + k')
      | .inr r => ∀ n, TsIndexer.collectTimeLoop (n + 1) s.ts
          ((buffer mem data size).drop k) (offset + k) = some r := by
  rcases s with ⟨ts, data', remaining, offset'⟩
  rcases h with ⟨hk, rfl, rfl, rfl⟩
  have hblock : ((buffer mem data size).drop k).size = size - k := rfl
  unfold collectTimeRound
  dsimp only
  split
  case isFalse hsmall =>
    apply Ensures.pure
    intro n
    rw [TsIndexer.collectTimeLoop, hblock, if_neg hsmall]
    rfl
  case isTrue hmin =>
    apply Ensures.bind ((getPcr_spec hmin (by omega) (by omega)).widen fun _ => Inside.of_drop)
    rintro found ⟨pcr, j, rfl, hget, hpacket⟩
    rw [← buffer_drop, Block.drop_drop, Nat.add_assoc] at hget
    cases pcr with
    | none =>
        apply Ensures.pure
        intro n
        rw [TsIndexer.collectTimeLoop, hblock, if_pos hmin, hget]
        rfl
    | some pcr =>
        have hj : 188 ≤ size - k - j := hpacket pcr rfl
        dsimp only
        split
        case isTrue hdue =>
          apply Ensures.pure
          intro n
          rw [TsIndexer.collectTimeLoop, hblock, if_pos hmin, hget, Option.bind_eq_bind,
            Option.bind_some]
          dsimp only
          rw [if_pos hdue, Nat.add_assoc]
          rfl
        case isFalse hearly =>
          -- the reference comes too early: on with the byte behind it
          rw [if_pos (by omega)]
          apply Ensures.pure
          refine ⟨k + j + 1, by omega, ⟨by omega, by dsimp only; omega, by dsimp only; omega,
            by dsimp only; omega⟩, ?_⟩
          intro n
          have hne : ((buffer mem data size).drop (k + j)).size ≠ 0 := by
            rw [Block.size_drop]
            show size - (k + j) ≠ 0
            omega
          rw [TsIndexer.collectTimeLoop, hblock, if_pos hmin, hget, Option.bind_eq_bind,
            Option.bind_some]
          dsimp only
          rw [if_neg hearly, if_pos hne, Block.drop_drop]
          rfl

/-- The loop returns what that over the block does. -/
theorem collectTimeLoop_computes (hsize : size < 2 ^ 30) (hrounds : size < rounds) :
    (iterate (collectTimeRound rounds) rounds ⟨ts, data, size, offset⟩).Computes mem
      (Inside data size)
      (TsIndexer.collectTimeLoop (size + 1) ts (buffer mem data size) offset) := by
  -- the pointers stay in step, and what is left of the block is still to be scanned
  apply Ensures.iterate (I := fun s => ∃ k n, InStep data size offset s k ∧ size < k + n ∧
    TsIndexer.collectTimeLoop n s.ts ((buffer mem data size).drop k) (offset + k) =
      TsIndexer.collectTimeLoop (size + 1) ts (buffer mem data size) offset) Scan.remaining
  · rintro s ⟨k, n, hstep, hn, hloop⟩
    have hk := hstep.inside
    rcases Nat.exists_eq_add_of_le' (show 1 ≤ n by omega) with ⟨m, rfl⟩
    apply (collectTimeRound_spec hsize hrounds hstep).imp
    rintro (s' | r)
    · rintro ⟨k', hlt, hstep', hround⟩
      have hk' := hstep'.inside
      refine ⟨⟨k', m, hstep', by omega, (hround m).symm.trans hloop⟩, ?_⟩
      rw [hstep'.remaining, hstep.remaining]
      omega
    · intro hround
      exact hloop.symm.trans (hround m)
  · exact ⟨0, size + 1, ⟨Nat.zero_le size, by simp, rfl, rfl⟩, by omega, rfl⟩
  · exact hrounds

/-- On addresses, the scan is what it is on a block of bytes. -/
theorem collectTime_computes (hsize : size < 2 ^ 30) (hrounds : size < rounds) :
    (collectTime rounds ts data size).Computes mem (Inside data size)
      (ts.collectTime (buffer mem data size)) := by
  unfold collectTime TsIndexer.collectTime
  refine Computes.ite (fun _ => ?_) fun _ => ?_
  · exact Computes.pure _
  · apply Computes.bind (collectTimeLoop_computes hsize hrounds)
    intro r
    exact Computes.pure _

/-- Whatever is in the memory, the scan of a buffer ends, with the same result however
many rounds it could have gone on, and reads inside of the buffer only. -/
theorem collectTime_reads_inside (mem : ℤ → UInt8) (ts : TsIndexer) (data : ℤ)
    (hsize : size < 2 ^ 30) :
    ∃ r, ∀ rounds, size < rounds →
      (collectTime rounds ts data size).run mem = some r ∧
        ∀ p ∈ (collectTime rounds ts data size).reads mem, data ≤ p ∧ p < data + size := by
  rcases ts.collectTime_spec (buffer mem data size) with ⟨ts', added, hresult, -, -⟩
  refine ⟨(ts', added), ?_⟩
  intro rounds hrounds
  have hcomputes : (collectTime rounds ts data size).Computes mem (Inside data size)
      (ts.collectTime (buffer mem data size)) := collectTime_computes hsize hrounds
  exact ⟨hcomputes.run_eq.trans hresult, (ensures_iff.mp hcomputes).2⟩

end Spec

/-- Three packets at address 4096, of which the second one has a reference. -/
def threePackets (p : ℤ) : UInt8 := (TsIndexer.packetsWithPcr 3 1).byte (p - 4096).toNat

theorem collectTime_reads_inside_three :
    ∃ r, (collectTime 565 (TsIndexer.init.setPcrPid 0x100) 4096 564).run threePackets = some r ∧
      ∀ p ∈ (collectTime 565 (TsIndexer.init.setPcrPid 0x100) 4096 564).reads threePackets,
        (4096 : ℤ) ≤ p ∧ p < 4096 + (564 : ℕ) := by
  rcases collectTime_reads_inside threePackets (TsIndexer.init.setPcrPid 0x100) 4096
    (show 564 < 2 ^ 30 by decide) with ⟨r, hscan⟩
  exact ⟨r, hscan 565 (by decide)⟩

example : (parsePcr (TsIndexer.init.setPcrPid 0x100) 4284).reads threePackets =
    [4284, 4287, 4285, 4286, 4288, 4289, 4290, 4291, 4292, 4293, 4294, 4295] := by decide

end Mapped

end TimeShift
