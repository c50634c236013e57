import TimeShift.Indexing
import TimeShift.PcrScan

/-!
# Transport streams

What the indexer makes of a stream of transport packets that comes in buffers of
whole packets. It scans for sync bytes, and on packet boundaries it always finds
one, with the next one 188 bytes further. But after a reference that comes too
early for an association it goes on with the next byte, and from there a payload
can look like a packet. Each association is that of a packet of the stream, as
long as one of the two does not happen (`associations_sound`).
-/

namespace TimeShift

open Bytes Machine TsIndexer

/-- A transport packet is at the start of `data`: an adaptation field that it has is
inside the packet, and is long enough for a clock reference that it has. -/
structure IsPacket (data : Block UInt8) : Prop where
  sync : data.byte 0 = tsPacketSyncCode
  length : data.byte 3 &&& 0x20 ≠ 0 → (data.byte 4).toNat ≤ 183
  room : data.byte 3 &&& 0x20 ≠ 0 → data.byte 4 ≠ 0 → data.byte 5 &&& 0x10 ≠ 0 →
    7 ≤ (data.byte 4).toNat

/-- A buffer of one or more whole packets. -/
structure WholePackets (data : Block UInt8) : Prop where
  some : 0 < data.size
  whole : 188 ∣ data.size
  packets : ∀ k, 188 ∣ k → k < data.size → IsPacket (data.drop k)

theorem WholePackets.sync {data : Block UInt8} {k : ℕ} (h : WholePackets data) (hk : 188 ∣ k)
    (hlt : k < data.size) : data.byte k = tsPacketSyncCode := by
  have hpacket := (h.packets k hk hlt).sync
  rwa [Block.byte_drop, Nat.zero_add] at hpacket

/-- The packet at the start of `data` is on `pid`, and carries a program clock reference
with the base `pcr`. -/
structure CarriesPcr (data : Block UInt8) (pid : ℤ) (pcr : ℕ) : Prop where
  packet : IsPacket data
  pid : ((data.byte 1).toNat % 2 ^ 5 * 2 ^ 8 + (data.byte 2).toNat : ℕ) = pid
  field : data.byte 3 &&& 0x20 ≠ 0
  length : 7 ≤ (data.byte 4).toNat
  flag : data.byte 5 &&& 0x10 ≠ 0
  base : pcr = pcrBase data

/-- The bytes of the stream from `offset` on. -/
def streamFrom (stream : List UInt8) (offset : ℕ) : Block UInt8 where
  size := stream.length - offset
  byte i := stream.getD (offset + i) 0

/-- The association is on a packet boundary of the stream, the packet there is on the
PID and carries a reference, and the time is the one of this reference, counted from
the reference `first`. -/
structure Sound (stream : List UInt8) (first : ℕ) (x : Added) : Prop where
  boundary : 188 ∣ x.association.offset
  inside : x.association.offset + 188 ≤ stream.length
  packet : ∃ pcr, CarriesPcr (streamFrom stream x.association.offset) x.pid pcr ∧
    x.association.time = guint64 ((mpegtimeToGsttime pcr : ℤ) - mpegtimeToGsttime first)

/-! ## The stream grows -/

section Stream

variable {stream : List UInt8} {data : Block UInt8} {pid : ℤ} {pcr first k : ℕ}

/-- A reference is read from the first bytes of a packet only. -/
theorem CarriesPcr.congr {data' : Block UInt8} (h : CarriesPcr data pid pcr)
    (heq : ∀ i < 188, data'.byte i = data.byte i) : CarriesPcr data' pid pcr := by
  have h₀ := heq 0 (by decide)
  have h₁ := heq 1 (by decide)
  have h₂ := heq 2 (by decide)
  have h₃ := heq 3 (by decide)
  have h₄ := heq 4 (by decide)
  have h₅ := heq 5 (by decide)
  have hbase : pcrBase data' = pcrBase data := by
    simp only [pcrBase, heq 6 (by decide), heq 7 (by decide), heq 8 (by decide),
      heq 9 (by decide), heq 10 (by decide)]
  rcases h with ⟨⟨hsync, hlength, hroom⟩, hpid, hfield, hseven, hflag, hpcr⟩
  constructor
  · constructor
    · rw [h₀]
      exact hsync
    · rw [h₃, h₄]
      exact hlength
    · rw [h₃, h₄, h₅]
      exact hroom
  · rw [h₁, h₂]
    exact hpid
  · rw [h₃]
    exact hfield
  · rw [h₄]
    exact hseven
  · rw [h₅]
    exact hflag
  · rw [hbase]
    exact hpcr

/-- An association stays sound when the stream goes on. -/
theorem Sound.append {x : Added} (h : Sound stream first x) (rest : List UInt8) :
    Sound (stream ++ rest) first x := by
  have hinside := h.inside
  refine ⟨h.boundary, ?_, ?_⟩
  · rw [List.length_append]
    omega
  · rcases h.packet with ⟨pcr, hcarries, htime⟩
    refine ⟨pcr, hcarries.congr ?_, htime⟩
    intro i hi
    show (stream ++ rest).getD _ 0 = stream.getD _ 0
    rw [List.getD_eq_getElem?_getD, List.getD_eq_getElem?_getD,
      List.getElem?_append_left (by omega)]

/-- The packets of the last buffer are in the stream. -/
theorem streamFrom_append (stream : List UInt8) {i : ℕ} (hi : k + i < data.size) :
    (streamFrom (stream ++ data.toList) (stream.length + k)).byte i = (data.drop k).byte i := by
  show (stream ++ data.toList).getD (stream.length + k + i) 0 = data.byte (i + k)
  rw [List.getD_eq_getElem?_getD, List.getElem?_append_right (by omega),
    show stream.length + k + i - stream.length = k + i by omega, data.getElem?_toList hi,
    Nat.add_comm k i]
  rfl

end Stream

/-! ## Scanning on packet boundaries -/

namespace TsIndexer

variable {ts : TsIndexer} {data : Block UInt8} {i k offset rounds pcr : ℕ}

/-- The position is in the reach of a scan of the buffer: the last packet of a buffer is
looked at only when it is the first one, too. -/
def InReach (data : Block UInt8) (k : ℕ) : Prop :=
  k + tsMaxPacketSize < data.size ∨ data.size ≤ tsMaxPacketSize

/-- The first packet in reach that is read as one with a reference. -/
structure FirstPacket (ts : TsIndexer) (data : Block UInt8) (k pcr : ℕ) : Prop where
  boundary : 188 ∣ k
  reach : InReach data k
  parse : ts.parsePcr (data.drop k) = some (some pcr)
  first : ∀ j < k, 188 ∣ j → ts.parsePcr (data.drop j) = some none

/-- On a packet boundary, the next sync byte confirms the first. -/
theorem isNextSyncValid_aligned (hdata : WholePackets data) (hlt : data.size < 2 ^ 32)
    (hi : 188 ∣ i) (hreach : i + tsMaxPacketSize < data.size) :
    isNextSyncValid data (guint data.size) (guint i) = some true := by
  unfold tsMaxPacketSize at hreach
  have hsize : guint data.size = data.size := Nat.mod_eq_of_lt hlt
  apply isNextSyncValid_of_sync
  · rw [hsize]
    omega
  · exact hdata.sync (by omega) (by omega)

/-- From a packet boundary the scan goes from packet to packet, up to the first one with
a reference. -/
theorem getPcrLoop_aligned (hdata : WholePackets data) (hlt : data.size < 2 ^ 32)
    (hi : 188 ∣ i) (hloop : ts.getPcrLoop data rounds i = some (some (pcr, k))) :
    188 ∣ k ∧ k + tsMaxPacketSize < data.size ∧ ts.parsePcr (data.drop k) = some (some pcr) ∧
      ∀ j, i ≤ j → j < k → 188 ∣ j → ts.parsePcr (data.drop j) = some none := by
  -- each round that finds no reference goes on by a whole packet
  induction rounds generalizing i with
  | zero => cases hloop
  | succ rounds ih =>
      by_cases hreach : i + tsMaxPacketSize < data.size
      case neg =>
        rw [getPcrLoop, if_neg hreach] at hloop
        cases hloop
      case pos =>
        have hpacket : 12 ≤ (data.drop i).size := by
          rw [Block.size_drop]
          unfold tsMaxPacketSize at hreach
          omega
        rcases ts.parsePcr_isSome _ hpacket with ⟨r, hr⟩
        rw [getPcrLoop_synced hreach (hdata.sync hi (by omega))
          (isNextSyncValid_aligned hdata hlt hi hreach) hr] at hloop
        cases r with
        | some pcr' =>
            cases hloop
            exact ⟨hi, hreach, hr, fun j hij hjk => absurd hij (by omega)⟩
        | none =>
            rcases ih (show 188 ∣ i + 188 by omega) hloop with ⟨hk, hkreach, hparse, hnone⟩
            refine ⟨hk, hkreach, hparse, ?_⟩
            intro j hij hjk hj
            rcases Nat.eq_or_lt_of_le hij with rfl | hlt'
            · exact hr
            · exact hnone j (by omega) hjk hj

/-- The first round on a buffer finds the first packet in reach with a reference. -/
theorem getPcr_aligned (hdata : WholePackets data) (hlt : data.size < 2 ^ 32)
    {rest : Block UInt8} (hget : ts.getPcr data offset = some (some pcr, rest, offset + k)) :
    FirstPacket ts data k pcr := by
  unfold getPcr at hget
  split at hget
  case isTrue hsmall =>
    rcases ts.parsePcr_isSome data (Nat.le_trans (by decide) hsmall.1) with ⟨r, hr⟩
    rw [hr, Option.bind_eq_bind, Option.bind_some] at hget
    cases r with
    | none => cases hget
    | some pcr' =>
        simp only [Option.pure_def, Option.some.injEq, Prod.mk.injEq] at hget
        rcases hget with ⟨rfl, -, hk⟩
        have hzero : k = 0 := by omega
        rw [hzero]
        exact ⟨by omega, Or.inr hsmall.2, hr, fun j hj => absurd hj (by omega)⟩
  case isFalse =>
    simp only [Option.bind_eq_bind, Option.bind_eq_some_iff] at hget
    rcases hget with ⟨_ | ⟨pcr', k'⟩, hloop, hget⟩
    · cases hget
    · simp only [Option.pure_def, Option.some.injEq, Prod.mk.injEq] at hget
      rcases hget with ⟨rfl, -, hk⟩
      have hsame : k' = k := by omega
      rw [hsame] at hloop
      rcases getPcrLoop_aligned hdata hlt (by omega) hloop with
        ⟨hboundary, hreach, hparse, hnone⟩
      exact ⟨hboundary, Or.inl hreach, hparse, fun j => hnone j (Nat.zero_le j)⟩

/-! ## Scanning on -/

/-- A scan that comes to position `k` parses what is there, if it has a sync byte: the next
one is where it has to be, or there is just one packet left. -/
def Confirmed (data : Block UInt8) (k : ℕ) : Prop :=
  (k + tsMaxPacketSize < data.size ∧
      isNextSyncValid data (guint data.size) (guint k) = some true) ∨
    (k + tsMinPacketSize ≤ data.size ∧ data.size ≤ k + tsMaxPacketSize)

/-- What a scan from position `i` on finds is at a place that is confirmed. -/
theorem getPcr_confirmed (hsize : data.size < 2 ^ 31) {rest : Block UInt8}
    (hget : ts.getPcr (data.drop i) offset = some (some pcr, rest, offset + k)) :
    Confirmed data (i + k) := by
  unfold getPcr at hget
  split at hget
  case isTrue hsmall =>
    -- the only packet that is left
    rw [Block.size_drop, tsMinPacketSize, tsMaxPacketSize] at hsmall
    rcases ts.parsePcr_isSome (data.drop i) (by rw [Block.size_drop]; omega) with ⟨r, hr⟩
    rw [hr, Option.bind_eq_bind, Option.bind_some] at hget
    simp only [Option.pure_def, Option.some.injEq, Prod.mk.injEq] at hget
    right
    unfold tsMinPacketSize tsMaxPacketSize
    omega
  case isFalse =>
    simp only [Option.bind_eq_bind, Option.bind_eq_some_iff] at hget
    rcases hget with ⟨_ | ⟨pcr', k'⟩, hloop, hget⟩
    · cases hget
    · simp only [Option.pure_def, Option.some.injEq, Prod.mk.injEq] at hget
      have hsame : k' = k := by omega
      rw [hsame] at hloop
      have hvalid := getPcrLoop_valid hloop
      have hrounds : 0 < (data.drop i).size := by
        rw [Nat.pos_iff_ne_zero]
        intro hzero
        rw [hzero] at hloop
        cases hloop
      have hlong : (data.drop i).size < 0 + (data.drop i).size + tsMaxPacketSize := by
        unfold tsMaxPacketSize
        omega
      rcases ts.getPcrLoop_spec 0 hrounds hlong with ⟨r, hr, hx⟩
      rw [hloop, Option.some.injEq] at hr
      have hroom := (hx (pcr', k) (by rw [← hr]; rfl)).1
      rw [Block.size_drop] at hroom
      have hreach : i + k + tsMaxPacketSize < data.size := by omega
      exact Or.inl ⟨hreach, by rwa [← isNextSyncValid_drop hsize hreach]⟩

/-- Behind the first packet in reach with a reference, at some place off the packet
boundaries, the scan takes the buffer for a packet with a reference. -/
def Disguised (ts : TsIndexer) (data : Block UInt8) : Prop :=
  ∃ k₀ pcr₀ k pcr, FirstPacket ts data k₀ pcr₀ ∧ k₀ < k ∧ ¬188 ∣ k ∧ Confirmed data k ∧
    ts.parsePcr (data.drop k) = some (some pcr)

/-- A packet has no room for another one. -/
theorem not_disguised (hsize : data.size = tsMinPacketSize) : ¬ts.Disguised data := by
  unfold Disguised Confirmed
  rintro ⟨k₀, -, k, -, -, hlt, -, ⟨hroom, -⟩ | ⟨hroom, -⟩, -⟩
  · unfold tsMinPacketSize tsMaxPacketSize at *
    omega
  · omega

/-- The first reference in reach, if there is one, is due for an association. -/
def FirstDue (ts : TsIndexer) (data : Block UInt8) : Prop :=
  ∀ k pcr, FirstPacket ts data k pcr → (ts.see pcr).isDue ((ts.see pcr).timeOf pcr)

/-- What the indexer makes of a buffer, when it takes nothing for a packet that is none:
`base_time` is set by the first reference seen, and an association is that of a packet. -/
structure Indexes (ts : TsIndexer) (data : Block UInt8) (ts' : TsIndexer)
    (added : Option Association) : Prop where
  pcrPid : ts'.pcrPid = ts.pcrPid
  base : ts'.baseTime = if ts.baseTime = clockTimeNone then
    (ts.firstIn data).elim clockTimeNone mpegtimeToGsttime else ts.baseTime
  started : ts'.baseTime = clockTimeNone → ts'.lastTime = clockTimeNone
  packet : ∀ a ∈ added, ts'.baseTime ≠ clockTimeNone ∧ ∃ k pcr, 188 ∣ k ∧ k + 188 ≤ data.size ∧
    ts.parsePcr (data.drop k) = some (some pcr) ∧
    a = ⟨guint64 ((mpegtimeToGsttime pcr : ℤ) - ts'.baseTime), ts.currentOffset + k⟩

theorem mpegtimeToGsttime_ne_none {pcr : ℕ} (h : pcr < 2 ^ 33) :
    mpegtimeToGsttime pcr ≠ clockTimeNone := by
  have := mpegtimeToGsttime_lt h
  unfold clockTimeNone
  omega

/-- Without a reference the indexer stays as it is. -/
theorem Indexes.of_none (hfirst : ts.firstIn data = none)
    (hstarted : ts.baseTime = clockTimeNone → ts.lastTime = clockTimeNone) :
    ts.Indexes data ts none := by
  refine ⟨rfl, ?_, hstarted, by simp⟩
  rw [hfirst]
  split
  · assumption
  · rfl

/-- The association for a packet with a reference, after any number of references that
came too early. -/
theorem Indexes.of_add {p : ℕ} (hk : 188 ∣ k) (hsize : k + 188 ≤ data.size)
    (hparse : ts.parsePcr (data.drop k) = some (some pcr))
    (hfirst : ts.baseTime = clockTimeNone → ts.firstIn data = some pcr)
    {seen : TsIndexer} (hseen : seen = ({ ts with lastPcr := p } : TsIndexer).see pcr) :
    ts.Indexes data (seen.add ⟨seen.timeOf pcr, ts.currentOffset + k⟩)
      (some ⟨seen.timeOf pcr, ts.currentOffset + k⟩) := by
  have hpcr := parsePcr_lt (by rw [Block.size_drop]; omega) hparse
  have hbase : seen.baseTime = if ts.baseTime = clockTimeNone then mpegtimeToGsttime pcr
      else ts.baseTime := by
    rw [hseen, see_eq]
  have hsome : seen.baseTime ≠ clockTimeNone := by
    rw [hbase]
    split
    · exact mpegtimeToGsttime_ne_none hpcr
    · assumption
  constructor
  · show seen.pcrPid = ts.pcrPid
    rw [hseen, see_pcrPid]
  · show seen.baseTime = _
    rw [hbase]
    split
    · rename_i hnone
      rw [hfirst hnone, Option.elim_some]
    · rfl
  · exact fun hnone => absurd hnone hsome
  · intro a ha
    cases ha
    exact ⟨hsome, k, pcr, hk, hsize, hparse, rfl⟩

theorem collectTimeLoop_indexes (hdata : WholePackets data) (hlt : data.size < 2 ^ 31)
    (hpid : ts.pcrPid ≠ invalidPid)
    (hstarted : ts.baseTime = clockTimeNone → ts.lastTime = clockTimeNone)
    (hclear : ts.FirstDue data ∨ ¬ts.Disguised data) :
    ∃ ts' added, collectTimeLoop (data.size + 1) ts data ts.currentOffset = some (ts', added) ∧
      ts.Indexes data ts' added := by
  have hsize : tsMinPacketSize ≤ data.size := by
    have hsome := hdata.some
    have hwhole := hdata.whole
    unfold tsMinPacketSize
    omega
  have hfirst : ts.firstIn data = (ts.getPcr data ts.currentOffset).bind fun r => r.1 :=
    if_neg (not_or.mpr ⟨hpid, Nat.not_lt.mpr hsize⟩)
  apply collectTimeLoop_rule (i := 0) (Q := ts.Indexes data)
    -- the first round starts on a packet boundary, a later one may start anywhere behind
    -- the reference that the first one has found
    (P := fun ts' i => (i = 0 ∧ ts' = ts) ∨
      (¬ts.Disguised data ∧ (∃ k₀ pcr₀, FirstPacket ts data k₀ pcr₀ ∧ k₀ < i) ∧
        ts.baseTime ≠ clockTimeNone ∧ ∃ p, ts' = { ts with lastPcr := p }))
  · rintro ts' i (⟨rfl, rfl⟩ | ⟨-, -, hbase, p, rfl⟩) hnone
    · rcases hnone hsize with ⟨d, o, hget⟩
      have hfirst : ts'.firstIn data = none := by
        rw [hfirst, show ts'.getPcr data ts'.currentOffset = some (none, d, o) from hget]
        rfl
      exact .of_none hfirst hstarted
    · exact ⟨rfl, (if_neg hbase).symm, fun h => absurd h hbase, by simp⟩
  · rintro ts' i pcr k (⟨rfl, rfl⟩ | ⟨hplain, ⟨k₀, pcr₀, hfirst₀, hk₀⟩, hbase, p, rfl⟩)
      hpacket hget hparse
    · rw [Nat.zero_add] at hpacket hget hparse
      rw [Block.size_drop, tsMinPacketSize] at hpacket
      have hfirstPacket : FirstPacket ts' data k pcr := getPcr_aligned hdata (by omega) hget
      split
      case isTrue hdue =>
        rw [Nat.zero_add]
        apply Indexes.of_add hfirstPacket.boundary (by omega) hparse
        · intro _
          rw [hfirst, show ts'.getPcr data ts'.currentOffset = some _ from hget]
          rfl
        · rfl
      case isFalse hearly =>
        -- nothing comes too early before the first association
        have hbase : ts'.baseTime ≠ clockTimeNone := by
          intro hnone
          exact hearly (Or.inl ((see_lastTime ts' pcr).trans (hstarted hnone)))
        have hplain : ¬ts'.Disguised data := by
          rcases hclear with hdue | hplain
          · exact absurd (hdue k pcr hfirstPacket) hearly
          · exact hplain
        exact Or.inr ⟨hplain, ⟨k, pcr, hfirstPacket, by omega⟩, hbase, pcr,
          by rw [see_eq, if_neg hbase]⟩
    · rw [Block.size_drop, tsMinPacketSize] at hpacket
      rw [← Nat.add_assoc] at hget
      have hparse : ts.parsePcr (data.drop (i + k)) = some (some pcr) := hparse
      have hboundary : 188 ∣ i + k := by
        by_contra hoff
        exact hplain ⟨k₀, pcr₀, i + k, pcr, hfirst₀, by omega, hoff,
          getPcr_confirmed hlt hget, hparse⟩
      split
      · apply Indexes.of_add hboundary (by omega) hparse
        · exact fun hnone => absurd hnone hbase
        · rfl
      · exact Or.inr ⟨hplain, ⟨k₀, pcr₀, hfirst₀, by omega⟩, hbase, pcr,
          by rw [see_eq, if_neg hbase]⟩
  · exact Or.inl ⟨rfl, rfl⟩
  · exact Nat.lt_succ_self data.size

theorem collectTime_indexes (hdata : WholePackets data) (hlt : data.size < 2 ^ 31)
    (hstarted : ts.baseTime = clockTimeNone → ts.lastTime = clockTimeNone)
    (hclear : ts.FirstDue data ∨ ¬ts.Disguised data) {ts' : TsIndexer}
    {added : Option Association} (hc : ts.collectTime data = some (ts', added)) :
    ts.Indexes data ts' added := by
  unfold collectTime at hc
  split at hc
  · rename_i hpid
    cases hc
    have hindexes := Indexes.of_none (if_pos (Or.inl hpid) : ts.firstIn data = none) hstarted
    exact ⟨hindexes.pcrPid, hindexes.base, hindexes.started, hindexes.packet⟩
  · rename_i hpid
    rcases collectTimeLoop_indexes hdata hlt hpid hstarted hclear with
      ⟨ts₁, added₁, hloop, hindexes⟩
    rw [hloop] at hc
    cases hc
    exact ⟨hindexes.pcrPid, hindexes.base, hindexes.started, hindexes.packet⟩

/-- What the indexer reads as a reference at the start of a packet is one. -/
theorem carriesPcr_of_parse (hpacket : IsPacket data) (hsize : 12 ≤ data.size)
    (hpid : -2 ^ 15 ≤ ts.pcrPid ∧ ts.pcrPid < 2 ^ 15)
    (hparse : ts.parsePcr data = some (some pcr)) : CarriesPcr data ts.pcrPid pcr := by
  rcases parsePcr_some hsize hparse with ⟨-, hfield, hmatch, hlength, hflag, hbase⟩
  constructor
  · exact hpacket
  · exact (pid_match hpid).mp hmatch
  · exact hfield
  · exact hpacket.room hfield hlength hflag
  · exact hflag
  · exact hbase

theorem firstIn_lt (h : pcr ∈ ts.firstIn data) : pcr < 2 ^ 33 := by
  unfold firstIn at h
  split at h
  · cases h
  · rename_i hbuffer
    rcases ts.getPcr_spec (Nat.le_of_not_lt (not_or.mp hbuffer).2) ts.currentOffset with
      ⟨r, k, hget, hpacket⟩
    rw [hget] at h
    rcases hpacket pcr h with ⟨hsize, hparse⟩
    exact parsePcr_lt (Nat.le_trans (by decide) hsize) hparse

end TsIndexer

/-! ## Associations are those of packets -/

namespace Indexing

variable {s s' : Indexing} {data : Block UInt8}

/-- The indexer counts the bytes of whole packets, its times are counted from the first
reference seen, and its associations are sound. -/
structure Grounded (s : Indexing) : Prop where
  pid : -2 ^ 15 ≤ s.ts.pcrPid ∧ s.ts.pcrPid < 2 ^ 15
  started : s.ts.baseTime = clockTimeNone → s.ts.lastTime = clockTimeNone
  first : ∀ f ∈ s.first, f < 2 ^ 33
  base : s.ts.baseTime = s.first.elim clockTimeNone mpegtimeToGsttime
  count : s.ts.currentOffset = s.received.length
  whole : 188 ∣ s.received.length
  sound : ∀ x ∈ s.added, ∃ f, s.first = some f ∧ Sound s.received f x

namespace Grounded

theorem of_init : init.Grounded where
  pid := by decide
  started _ := rfl
  first := by simp [init]
  base := rfl
  count := rfl
  whole := by decide
  sound := by simp [init]

/-- The first reference seen stays the first one. -/
theorem base_step (h : s.Grounded) {ts' : TsIndexer} {added : Option Association}
    (hindexes : s.ts.Indexes data ts' added) :
    ts'.baseTime = (s.first.or (s.ts.firstIn data)).elim clockTimeNone mpegtimeToGsttime := by
  rw [hindexes.base, h.base]
  cases hfirst : s.first with
  | none => rw [Option.elim_none, if_pos rfl, Option.none_or]
  | some f =>
      have hsome := mpegtimeToGsttime_ne_none (h.first f hfirst)
      rw [Option.elim_some, if_neg hsome, Option.some_or, Option.elim_some]

/-- The association that a buffer adds is sound. -/
theorem sound_new (h : s.Grounded) (hdata : WholePackets data) {ts' : TsIndexer} {a : Association}
    (hindexes : s.ts.Indexes data ts' (some a)) {first : Option ℕ}
    (hbase : ts'.baseTime = first.elim clockTimeNone mpegtimeToGsttime) :
    ∃ f, first = some f ∧ Sound (s.received ++ data.toList) f ⟨a, s.ts.pcrPid⟩ := by
  rcases hindexes.packet a rfl with ⟨hsome, k, pcr, hk, hsize, hparse, rfl⟩
  cases first with
  | none =>
      rw [Option.elim_none] at hbase
      exact absurd hbase hsome
  | some f =>
      rw [Option.elim_some] at hbase
      refine ⟨f, rfl, ?_, ?_, pcr, ?_, ?_⟩
      · dsimp only
        rw [h.count]
        exact (Nat.dvd_add_right h.whole).mpr hk
      · rw [h.count, List.length_append, Block.length_toList]
        dsimp only
        omega
      · have hcarries := carriesPcr_of_parse (hdata.packets k hk (by omega))
          (by rw [Block.size_drop]; omega) h.pid hparse
        rw [h.count]
        apply hcarries.congr
        intro i hi
        exact streamFrom_append _ (by omega)
      · show guint64 (mpegtimeToGsttime pcr - ts'.baseTime) = _
        rw [hbase]

theorem buffer (h : s.Grounded) (hdata : WholePackets data) (hlt : data.size < 2 ^ 31)
    (hclear : s.ts.FirstDue data ∨ ¬s.ts.Disguised data)
    (hs : s.step (.buffer data) = some s') : s'.Grounded := by
  rcases step_buffer hs with ⟨added, hcollect, hreceived, hfirst, hadded⟩
  have hindexes := collectTime_indexes hdata hlt h.started hclear hcollect
  -- the first reference is the one of an earlier buffer, if there is one
  have hbase := h.base_step hindexes
  rw [← hfirst] at hbase
  rcases s.ts.collectTime_spec data with ⟨ts', added', hcollect', hcurrent, -⟩
  cases hcollect'.symm.trans hcollect
  constructor
  · rw [hindexes.pcrPid]
    exact h.pid
  · exact hindexes.started
  · intro f hf
    rw [hfirst, Option.mem_def, Option.or_eq_some_iff] at hf
    rcases hf with hold | ⟨-, hnew⟩
    · exact h.first f hold
    · exact firstIn_lt hnew
  · exact hbase
  · rw [hcurrent, h.count, hreceived, List.length_append, Block.length_toList]
  · rw [hreceived, List.length_append, Block.length_toList]
    exact (Nat.dvd_add_right h.whole).mpr hdata.whole
  · intro x hx
    rw [hadded, List.mem_append] at hx
    rcases hx with hx | hx
    · -- the first reference seen does not change any more
      rcases h.sound x hx with ⟨f, hf, hsound⟩
      refine ⟨f, by rw [hfirst, hf]; rfl, ?_⟩
      rw [hreceived]
      exact hsound.append _
    · rw [Option.mem_toList, Option.map_eq_some_iff] at hx
      rcases hx with ⟨a, rfl, rfl⟩
      rw [hreceived]
      exact h.sound_new hdata hindexes hbase

end Grounded

/-- The buffers are of whole packets, and the properties in their ranges. -/
def aligned : Indexing → IndexerOp → Prop
  | _, .buffer data => WholePackets data
  | _, .setPcrPid value => -1 ≤ value ∧ value ≤ 0x1fff
  | _, .setDelta value => -1 ≤ value ∧ value ≤ 10000

/-- Moreover, positions in a buffer fit a `gint`, and in each buffer the first reference
is due for an association, or nothing that the scan comes to behind it, off the packet
boundaries, reads as one. -/
def clear : Indexing → IndexerOp → Prop
  | s, .buffer data => WholePackets data ∧ data.size < 2 ^ 31 ∧
      (s.ts.FirstDue data ∨ ¬s.ts.Disguised data)
  | _, _ => True

theorem Grounded.step (h : s.Grounded) {l : IndexerOp} (hok : clear s l)
    (hs : s.step l = some s') : s'.Grounded := by
  cases l with
  | buffer data => exact h.buffer hok.1 hok.2.1 hok.2.2 hs
  | setPcrPid value =>
      cases hs
      have hlow := Int.le_bmod (x := value) (m := 2 ^ 16) (by decide)
      have hhigh := Int.bmod_lt (x := value) (m := 2 ^ 16) (by decide)
      refine ⟨?_, h.started, h.first, h.base, h.count, h.whole, h.sound⟩
      show -2 ^ 15 ≤ gint16 value ∧ gint16 value < 2 ^ 15
      unfold gint16
      omega
  | setDelta value =>
      cases hs
      exact ⟨h.pid, h.started, h.first, h.base, h.count, h.whole, h.sound⟩

/-- In every run whose buffers are clear, with any changes of `pcr_pid` and of `delta`:
each association is on the boundary of a packet that is on the PID and carries a
reference, and its time is that of the reference, counted from the first one seen. -/
theorem associations_sound (h : Reach step clear init s) :
    ∀ x ∈ s.added, ∃ first, s.first = some first ∧ Sound s.received first x := by
  have hgrounded : s.Grounded :=
    h.invariant .of_init fun _ _ _ hgrounded hok hs => hgrounded.step hok hs
  exact hgrounded.sound

theorem referencePacket_whole (b : UInt8) : WholePackets (referencePacket b) := by
  have hlength : ((referencePacket b).byte 4).toNat = 7 := rfl
  constructor
  · exact Nat.zero_lt_succ _
  · exact Nat.dvd_refl 188
  · intro k hk hlt
    have hlt : k < 188 := hlt
    have hzero : k = 0 := by omega
    rw [hzero, Block.drop_zero]
    exact ⟨rfl, fun _ => by omega, fun _ _ _ => by omega⟩

theorem referencePacket_clear (s : Indexing) (b : UInt8) :
    clear s (.buffer (referencePacket b)) :=
  ⟨referencePacket_whole b, show 188 < 2 ^ 31 by decide, Or.inr (TsIndexer.not_disguised rfl)⟩

/-- The reference of the second packet is six minutes later. -/
theorem associations_sound_later : ∃ s, Reach step clear init s ∧
    s.added = [⟨⟨0, 0⟩, 0x100⟩, ⟨⟨372827022222, 188⟩, 0x100⟩] ∧
    ∀ x ∈ s.added, ∃ first, s.first = some first ∧ Sound s.received first x := by
  have h₀ : Reach step clear init _ := .refl
  have h₁ := h₀.extend (.setPcrPid 0x100) trivial rfl
  have h₂ := h₁.extend (.buffer (referencePacket 1)) (referencePacket_clear _ 1) rfl
  have h₃ := h₂.extend (.buffer (referencePacket 2)) (referencePacket_clear _ 2) rfl
  exact ⟨_, h₃, rfl, associations_sound h₃⟩

/-- Two packets on PID 0x100. The first one has a reference, and its payload looks like a
packet with another reference; the payload of the second one has a sync byte 188 bytes
behind the one of this packet. -/
def disguisedPackets : Block UInt8 where
  size := 376
  byte i :=
    if i < 188 then
      ([0x47, 0x01, 0x00, 0x30, 0x07, 0x10, 0x01, 0, 0, 0, 0, 0,
        0x47, 0x01, 0x00, 0x20, 0x07, 0x10, 0x02] : List UInt8).getD i 0
    else ([0x47, 0x01, 0x00, 0x10, 0, 0, 0, 0, 0, 0, 0, 0, 0x47] : List UInt8).getD (i - 188) 0

/-- After the same reference once more, the scan takes the payload for a packet. -/
theorem payload_is_taken_for_a_packet :
    ¬∀ s, Reach step aligned init s →
      ∀ x ∈ s.added, ∃ first, s.first = some first ∧ Sound s.received first x := by
  intro hall
  have hwhole : WholePackets disguisedPackets := by
    constructor
    · decide
    · decide
    · intro k hk hlt
      have hlt : k < 376 := hlt
      have hcases : k = 0 ∨ k = 188 := by omega
      rcases hcases with rfl | rfl
      · exact ⟨rfl, fun _ => by decide, fun _ _ _ => by decide⟩
      · exact ⟨rfl, fun h => absurd rfl h, fun h => absurd rfl h⟩
  have h₀ : Reach step aligned init _ := .refl
  have h₁ := h₀.extend (.setPcrPid 0x100) ⟨by decide, by decide⟩ rfl
  have h₂ := h₁.extend (.buffer (referencePacket 1)) (referencePacket_whole 1) rfl
  -- the scan starts again behind the first byte of the reference, off the boundaries
  have h₃ := h₂.extend (.buffer disguisedPackets) hwhole rfl
  rcases hall _ h₃ ⟨⟨372827022222, 200⟩, 0x100⟩ (List.mem_cons_of_mem _ (List.mem_cons_self ..))
    with ⟨first, -, hsound⟩
  exact absurd hsound.boundary (by decide)

end Indexing

end TimeShift
