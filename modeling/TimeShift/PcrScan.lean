import TimeShift.TsIndexer

/-!
# The scan for a reference

What `gst_time_shift_ts_indexer_get_pcr` finds in a buffer of whole packets, with
any payload. On packet boundaries, the scan goes from packet to packet as long as
there is a next one, whose sync byte confirms it; the last packet is only looked at
when it is the first one, too (`getPcr_finds_first_iff`).
-/

namespace TimeShift

open Bytes

/-- A buffer of `n` packets, with a sync byte at the start of each. -/
structure Packets (data : Block UInt8) (n : ℕ) : Prop where
  some : 0 < n
  size : data.size = 188 * n
  sync : ∀ k < n, data.byte (188 * k) = tsPacketSyncCode

/-- The packet at the start of `data` is on `pid`, and has an adaptation field that says
that there is a reference. -/
structure HasPcr (data : Block UInt8) (pid : ℤ) : Prop where
  pid : ((data.byte 1).toNat % 2 ^ 5 * 2 ^ 8 + (data.byte 2).toNat : ℕ) = pid
  field : data.byte 3 &&& 0x20 ≠ 0
  length : data.byte 4 ≠ 0
  flag : data.byte 5 &&& 0x10 ≠ 0

/-- Packet `k` of the buffer is the first one on `pid` with a reference. -/
structure FirstPcr (data : Block UInt8) (n : ℕ) (pid : ℤ) (k : ℕ) : Prop where
  inside : k < n
  here : HasPcr (data.drop (188 * k)) pid
  before : ∀ j < k, ¬HasPcr (data.drop (188 * j)) pid

namespace TsIndexer

variable {ts : TsIndexer} {data : Block UInt8} {i j k n offset rounds pcr : ℕ}

/-! ## One packet -/

theorem pid_match (h : -2 ^ 15 ≤ ts.pcrPid ∧ ts.pcrPid < 2 ^ 15) :
    ((data.byte 1).toNat * 2 ^ 8 + (data.byte 2).toNat) &&& 0x1fff = guint16 ts.pcrPid ↔
      ((data.byte 1).toNat % 2 ^ 5 * 2 ^ 8 + (data.byte 2).toNat : ℕ) = ts.pcrPid := by
  -- 13 bits of the two bytes are the PID
  have h₂ := (data.byte 2).toNat_lt
  rw [show 0x1fff = 2 ^ 13 - 1 from rfl, Nat.and_two_pow_sub_one_eq_mod, guint16]
  omega

/-- Without `delta = -1`, a reference is read wherever there is one. -/
theorem parsePcr_of_hasPcr (h : 12 ≤ data.size) (hsync : data.byte 0 = tsPacketSyncCode)
    (hpid : -2 ^ 15 ≤ ts.pcrPid ∧ ts.pcrPid < 2 ^ 15) (hdelta : ts.delta ≠ -1)
    (hpcr : HasPcr data ts.pcrPid) : ts.parsePcr data = some (some (pcrBase data)) := by
  have hmatch := (pid_match hpid).mpr hpcr.pid
  rw [parsePcr_eq ts data h]
  simp only [hsync, hmatch, hdelta, hpcr.field, hpcr.length, hpcr.flag, ne_eq, not_true_eq_false,
    false_and, if_false]

/-- No reference is read where there is none. -/
theorem parsePcr_of_not (h : 12 ≤ data.size)
    (hpid : -2 ^ 15 ≤ ts.pcrPid ∧ ts.pcrPid < 2 ^ 15) (hpcr : ¬HasPcr data ts.pcrPid) :
    ts.parsePcr data = some none := by
  rcases ts.parsePcr_isSome data h with ⟨_ | pcr, hparse⟩
  · exact hparse
  · rcases parsePcr_some h hparse with ⟨-, hfield, hmatch, hlength, hflag, -⟩
    exact absurd ⟨(pid_match hpid).mp hmatch, hfield, hlength, hflag⟩ hpcr

/-! ## The sync byte of the next packet -/

/-- A next sync byte is behind a shortest packet at least, inside the buffer as `guint`
has its length. -/
theorem isNextSyncValid_room {size : ℕ} (h : isNextSyncValid data size i = some true) :
    guint (i + 188) < size := by
  rw [isNextSyncValid, packetSizes, isNextSyncValidLoop] at h
  split at h
  case isTrue hroom => exact hroom
  case isFalse => cases h

/-- A sync byte after a shortest packet is enough. No position up to it is cut off to
32 bits. -/
theorem isNextSyncValid_of_sync (hroom : i + 188 < guint data.size)
    (hsync : data.byte (i + 188) = tsPacketSyncCode) :
    isNextSyncValid data (guint data.size) (guint i) = some true := by
  have hle := guint_le data.size
  have hbound : guint data.size < 2 ^ 32 := Nat.mod_lt _ (by decide)
  have hpos : guint i = i := Nat.mod_eq_of_lt (by omega)
  have hnext : guint (i + 188) = i + 188 := Nat.mod_eq_of_lt (by omega)
  rw [hpos, isNextSyncValid, packetSizes, isNextSyncValidLoop, hnext, if_pos hroom,
    data.read_eq (Nat.lt_of_lt_of_le hroom hle), Option.bind_eq_bind, Option.bind_some,
    if_pos hsync]
  rfl

/-- The sync bytes looked for do not depend on where the scan of the buffer began, as long
as a longest packet fits in behind. -/
theorem isNextSyncValid_drop (hsize : data.size < 2 ^ 31)
    (hroom : i + k + tsMaxPacketSize < data.size) :
    isNextSyncValid (data.drop i) (guint (data.drop i).size) (guint k) =
      isNextSyncValid data (guint data.size) (guint (i + k)) := by
  unfold tsMaxPacketSize at hroom
  have hleft : guint (data.drop i).size = data.size - i :=
    Nat.mod_eq_of_lt (by rw [Block.size_drop]; omega)
  rw [hleft, show guint data.size = data.size from Nat.mod_eq_of_lt (by omega),
    show guint k = k from Nat.mod_eq_of_lt (by omega),
    show guint (i + k) = i + k from Nat.mod_eq_of_lt (by omega)]
  have hsizes : ∀ size ∈ packetSizes, size ≤ 208 := by decide
  -- one packet size after the other
  unfold isNextSyncValid
  revert hsizes
  generalize packetSizes = sizes
  intro hsizes
  induction sizes with
  | nil => rfl
  | cons size sizes ih =>
      have hle := hsizes size (List.mem_cons_self ..)
      have hnext : guint (k + size) = k + size := Nat.mod_eq_of_lt (by omega)
      have hnext' : guint (i + k + size) = i + k + size := Nat.mod_eq_of_lt (by omega)
      have hread : (data.drop i).read (k + size) = data.read (i + k + size) := by
        rw [data.read_eq (by omega), Block.read_eq _ (by rw [Block.size_drop]; omega),
          Block.byte_drop, show k + size + i = i + k + size by omega]
      rw [isNextSyncValidLoop, isNextSyncValidLoop, hnext, hnext', hread,
        ih fun size hmem => hsizes size (List.mem_cons_of_mem _ hmem),
        if_pos (by omega), if_pos (by omega)]

/-- A reference is only taken from a packet whose sync byte is confirmed. -/
theorem getPcrLoop_valid (h : ts.getPcrLoop data rounds i = some (some (pcr, k))) :
    isNextSyncValid data (guint data.size) (guint k) = some true := by
  induction rounds generalizing i with
  | zero => cases h
  | succ rounds ih =>
      by_cases hreach : i + tsMaxPacketSize < data.size
      case neg =>
        rw [getPcrLoop, if_neg hreach] at h
        cases h
      case pos =>
        rcases ts.getPcrLoop_round rounds hreach with ⟨hvalid, r, -, hround⟩ | hround
        · rw [hround] at h
          cases r with
          | none => exact ih h
          | some pcr' =>
              cases h
              exact hvalid
        · rw [hround] at h
          exact ih h

/-! ## From packet to packet -/

/-- Each packet in reach that has no reference takes the scan to the next one. -/
theorem getPcrLoop_finds (hdata : Packets data n)
    (hpid : -2 ^ 15 ≤ ts.pcrPid ∧ ts.pcrPid < 2 ^ 15) (hdelta : ts.delta ≠ -1)
    (hfirst : FirstPcr data n ts.pcrPid k) (hroom : 188 * (k + 1) < guint data.size)
    (hj : j ≤ k) (hrounds : k < j + rounds) :
    ts.getPcrLoop data rounds (188 * j) =
      some (some (pcrBase (data.drop (188 * k)), 188 * k)) := by
  have hsize := hdata.size
  have hle := guint_le data.size
  induction rounds generalizing j with
  | zero => omega
  | succ rounds ih =>
      have hvalid : isNextSyncValid data (guint data.size) (guint (188 * j)) = some true :=
        isNextSyncValid_of_sync (show 188 * (j + 1) < guint data.size by omega)
          (hdata.sync (j + 1) (by omega))
      have hreach : 188 * j + tsMaxPacketSize < data.size := by
        unfold tsMaxPacketSize
        omega
      have hpacket : 12 ≤ (data.drop (188 * j)).size := by
        rw [Block.size_drop]
        omega
      have hsync : (data.drop (188 * j)).byte 0 = tsPacketSyncCode := by
        rw [Block.byte_drop, Nat.zero_add]
        exact hdata.sync j (by omega)
      rcases Nat.eq_or_lt_of_le hj with rfl | hlt
      · have hparse := parsePcr_of_hasPcr hpacket hsync hpid hdelta hfirst.here
        rw [getPcrLoop_synced hreach (hdata.sync j (by omega)) hvalid hparse]
        rfl
      · have hparse := parsePcr_of_not hpacket hpid (hfirst.before j hlt)
        rw [getPcrLoop_synced hreach (hdata.sync j (by omega)) hvalid hparse]
        exact ih (show j + 1 ≤ k by omega) (by omega)

/-- Where the first reference is in a position that a `gint` can have, it is found if
and only if it is in the only packet, or in one that is not the last: the next packet
is inside the buffer, whose length is a `guint` there. -/
theorem getPcr_finds_first_iff (hdata : Packets data n)
    (hpid : -2 ^ 15 ≤ ts.pcrPid ∧ ts.pcrPid < 2 ^ 15) (hdelta : ts.delta ≠ -1)
    (hfirst : FirstPcr data n ts.pcrPid k) (hgint : 188 * k + tsMaxPacketSize < 2 ^ 31) :
    ts.getPcr data offset =
        some (some (pcrBase (data.drop (188 * k))), data.drop (188 * k), offset + 188 * k) ↔
      n = 1 ∨ 188 * (k + 1) < guint (188 * n) := by
  have hsize := hdata.size
  have hinside := hfirst.inside
  unfold tsMaxPacketSize at hgint
  rw [← hsize]
  by_cases hone : n = 1
  · have hzero : k = 0 := by omega
    have hpcr : HasPcr data ts.pcrPid := by simpa [hzero] using hfirst.here
    have hparse := parsePcr_of_hasPcr (by omega) (hdata.sync 0 hdata.some) hpid hdelta hpcr
    have hsmall : tsMinPacketSize ≤ data.size ∧ data.size ≤ tsMaxPacketSize := by
      unfold tsMinPacketSize tsMaxPacketSize
      omega
    rw [getPcr, if_pos hsmall, hparse, hzero]
    exact iff_of_true rfl (Or.inl hone)
  · have hlarge : ¬(tsMinPacketSize ≤ data.size ∧ data.size ≤ tsMaxPacketSize) := by
      have hsome := hdata.some
      unfold tsMinPacketSize tsMaxPacketSize
      omega
    rw [getPcr, if_neg hlarge]
    constructor
    · intro hget
      simp only [Option.bind_eq_bind, Option.bind_eq_some_iff] at hget
      rcases hget with ⟨_ | ⟨pcr, i⟩, hloop, hget⟩
      · cases hget
      · simp only [Option.pure_def, Option.some.injEq, Prod.mk.injEq] at hget
        have hpos : i = 188 * k := by omega
        rw [hpos] at hloop
        have hroom := isNextSyncValid_room (getPcrLoop_valid hloop)
        have hcut : guint (guint (188 * k) + 188) = 188 * (k + 1) := by
          unfold guint
          omega
        rw [hcut] at hroom
        exact Or.inr hroom
    · intro hcond
      have hroom := hcond.resolve_left hone
      have hloop : ts.getPcrLoop data data.size (188 * 0) = _ :=
        getPcrLoop_finds hdata hpid hdelta hfirst hroom (Nat.zero_le k) (by omega)
      rw [Nat.mul_zero] at hloop
      rw [hloop]
      rfl

/-- A buffer of `n` packets, of which packet `k` alone has a reference, on PID 0x100. -/
def packetsWithPcr (n k : ℕ) : Block UInt8 where
  size := 188 * n
  byte i :=
    if i / 188 = k then
      ([0x47, 0x01, 0x00, 0x30, 0x07, 0x10, 0, 0, 0, 5, 0, 0] : List UInt8).getD (i % 188) 0
    else ([0x47] : List UInt8).getD (i % 188) 0

theorem packetsWithPcr_packets (hn : 0 < n) : Packets (packetsWithPcr n k) n := by
  constructor
  · exact hn
  · rfl
  · intro j _
    simp only [packetsWithPcr, Nat.mul_mod_right]
    split
    · rfl
    · rfl

theorem packetsWithPcr_firstPcr (hk : k < n) : FirstPcr (packetsWithPcr n k) n 0x100 k := by
  constructor
  · exact hk
  · have hbyte : ∀ i < 188, ((packetsWithPcr n k).drop (188 * k)).byte i =
        ([0x47, 0x01, 0x00, 0x30, 0x07, 0x10, 0, 0, 0, 5, 0, 0] : List UInt8).getD i 0 := by
      intro i hi
      have hdiv : (i + 188 * k) / 188 = k := by omega
      have hmod : (i + 188 * k) % 188 = i := by omega
      simp only [packetsWithPcr, Block.byte_drop, hdiv, hmod, if_true]
    constructor
    · rw [hbyte 1 (by decide), hbyte 2 (by decide)]
      rfl
    · rw [hbyte 3 (by decide)]
      decide
    · rw [hbyte 4 (by decide)]
      decide
    · rw [hbyte 5 (by decide)]
      decide
  · intro j hj hpcr
    apply hpcr.length
    have hdiv : ¬(4 + 188 * j) / 188 = k := by omega
    have hmod : (4 + 188 * j) % 188 = 4 := by omega
    simp only [packetsWithPcr, Block.byte_drop, hdiv, hmod, if_false]
    rfl

/-- In the middle one of three packets, the reference is found. -/
theorem getPcr_finds_first_iff_middle :
    (init.setPcrPid 0x100).getPcr (packetsWithPcr 3 1) 1000 =
      some (some (pcrBase ((packetsWithPcr 3 1).drop 188)), (packetsWithPcr 3 1).drop 188,
        1188) := by
  have hpid : (init.setPcrPid 0x100).pcrPid = 0x100 := rfl
  have hfirst : FirstPcr (packetsWithPcr 3 1) 3 (init.setPcrPid 0x100).pcrPid 1 := by
    rw [hpid]
    exact packetsWithPcr_firstPcr (by decide)
  exact (getPcr_finds_first_iff (packetsWithPcr_packets (by decide)) (by decide) (by decide) hfirst
    (by decide)).mpr (Or.inr (by decide))

/-- In the last one of two packets, it is not. -/
theorem last_packet_is_missed :
    ¬∀ (ts : TsIndexer) (data : Block UInt8) (n k offset : ℕ), Packets data n →
      -2 ^ 15 ≤ ts.pcrPid ∧ ts.pcrPid < 2 ^ 15 → ts.delta ≠ -1 → FirstPcr data n ts.pcrPid k →
      ts.getPcr data offset =
        some (some (pcrBase (data.drop (188 * k))), data.drop (188 * k), offset + 188 * k) := by
  intro hall
  have hfound := hall (init.setPcrPid 0x100) (packetsWithPcr 2 1) 2 1 0
    (packetsWithPcr_packets (by decide)) (by decide) (by decide)
    (packetsWithPcr_firstPcr (by decide))
  have hnone : (init.setPcrPid 0x100).getPcr (packetsWithPcr 2 1) 0 =
      some (none, packetsWithPcr 2 1, 0) := rfl
  rw [hnone] at hfound
  cases hfound

end TsIndexer

end TimeShift
