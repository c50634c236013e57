import TimeShift.Cache.Basic
import TimeShift.Index

/-!
# The seeker

A model of `gsttimeshiftseeker.c`: it turns a seek to a time into one to a byte
offset, and the segment that the time shifter sends after the seek, which counts
in bytes, back into one that counts in time. Both directions look up the last
entry of the index at or before the value (`seek_set`, `bytesToStreamTime_cases`).
-/

namespace TimeShift

/-- `GstSeekType`; `atEnd` is `GST_SEEK_TYPE_END`. -/
inductive SeekType where
  | none
  | set
  | atEnd
deriving DecidableEq, Repr

/-- The fields of a `GstSegment` that the elements set or look at. -/
structure Segment where
  reset : Bool
  format : Format
  base : ℕ
  start : ℕ
  stop : ℕ
  time : ℕ
deriving DecidableEq, Repr

/-- `struct _GstTimeShiftSeeker`. -/
structure Seeker where
  index : Option MemIndex
  timestampNextBuffer : Bool

/-- `gst_time_shift_seeker_bytes_to_stream_time`. -/
def MemIndex.bytesToStreamTime (index : MemIndex) (bufferOffset : ℕ) : ℕ :=
  match index.getAssocEntry .before .bytes (gint64 bufferOffset) with
  | some entry =>
    match entry.assocMap .time with
    | some time => guint64 time
    | none => clockTimeNone
  | none => if bufferOffset = 0 then 0 else clockTimeNone

namespace Seeker

/-- `gst_time_shift_seeker_get_duration_bytes`; `duration` is the answer of the
peer to the query, if it has one. -/
def getDurationBytes (duration : Option ℤ) : ℕ :=
  match duration with
  | some d => guint64 d
  | none => 0

/-- `gst_time_shift_seeker_get_last_time`. -/
def getLastTime (ts : Seeker) (duration : Option ℤ) : ℕ :=
  match ts.index with
  | none => clockTimeNone
  | some index =>
    let len := getDurationBytes duration
    match index.getAssocEntry .before .bytes (gint64 (len - 1000000)) with
    | some entry =>
      match entry.assocMap .time with
      | some time => guint64 time
      | none => clockTimeNone
    | none => clockTimeNone

/-- `gst_time_shift_seeker_seek`: the byte offset for a seek to `start`, or -1. -/
def seek (ts : Seeker) (type : SeekType) (start : ℤ) (duration : Option ℤ) : ℤ :=
  match type, ts.index with
  | .none, _ => -1
  | _, none => -1
  | type, some index =>
    let pos := match type with
      | .atEnd => guint64 (ts.getLastTime duration + start)
      | _ => guint64 start
    match index.getAssocEntry .before .time (gint64 pos) with
    | some entry =>
      match entry.assocMap .bytes with
      | some offset => offset
      | none => -1
    | none => -1

/-- `gst_time_shift_seeker_transform_segment_event`. -/
def transformSegmentEvent (seeker : Seeker) (segment : Segment) : Seeker × Segment :=
  if segment.format ≠ .bytes then (seeker, segment)
  -- segments that do not flush would need a base
  else if !segment.reset then (seeker, segment)
  else
    match seeker.index with
    | none => (seeker, segment)
    | some index =>
      let start := index.bytesToStreamTime segment.start
      ({ seeker with timestampNextBuffer := true },
        { segment with
          format := .time
          base := 0
          start := start
          stop := if segment.stop = 2 ^ 64 - 1 then segment.stop
            else index.bytesToStreamTime segment.stop
          time := start })

variable {index : MemIndex} {es : List Association} {k : Association} {t : ℕ}

/-- A flushing segment that counts in bytes starts where its offset converts to. -/
theorem transformSegmentEvent_start {seeker : Seeker} {segment : Segment}
    (hindex : seeker.index = some index) (hformat : segment.format = .bytes)
    (hreset : segment.reset = true) :
    (seeker.transformSegmentEvent segment).2.start = index.bytesToStreamTime segment.start := by
  simp [transformSegmentEvent, hformat, hreset, hindex]

/-- A seek to a time goes to the offset of the last association up to it, if there
is one. -/
theorem seek_set_cases {seeker : Seeker} (hindex : seeker.index = some index)
    (h : index.Holds es) (hes : Increasing es) (ht : t < 2 ^ 63) (duration : Option ℤ) :
    (∃ k ∈ es, k.time ≤ t ∧ (∀ e ∈ es, e.time ≤ t → e.time ≤ k.time) ∧
        seeker.seek .set t duration = k.offset) ∨
      ((∀ e ∈ es, t < e.time) ∧ seeker.seek .set t duration = -1) := by
  have hpos : gint64 (guint64 (t : ℤ)) = t := by
    rw [guint64_of_lt (by omega) (by omega), Int.toNat_natCast]
    exact gint64_of_lt (by omega) (by omega)
  rcases h.find_time hes ht with ⟨k, hk, hle, hmax, hget⟩ | ⟨hnone, hget⟩
  · left
    refine ⟨k, hk, hle, hmax, ?_⟩
    have hfits := (hes.fits k hk).2
    simp only [seek, hindex, hpos, hget, Association.assocMap_bytes]
    exact gint64_of_lt (by omega) (by omega)
  · right
    refine ⟨hnone, ?_⟩
    simp only [seek, hindex, hpos, hget]

/-- The same, for the association that is meant. -/
theorem seek_set {seeker : Seeker} (hindex : seeker.index = some index) (h : index.Holds es)
    (hes : Increasing es) (ht : t < 2 ^ 63) (hk : k ∈ es) (hkt : k.time ≤ t)
    (hlast : ∀ e ∈ es, e.time ≤ t → e.time ≤ k.time) (duration : Option ℤ) :
    seeker.seek .set t duration = k.offset := by
  rcases seek_set_cases hindex h hes ht duration with ⟨k', hk', hle, hmax, hseek⟩ | ⟨hnone, -⟩
  · have heq : k' = k :=
      hes.eq_of_time_eq hk' hk (Nat.le_antisymm (hlast k' hk' hle) (hmax k hk hkt))
    rw [hseek, heq]
  · have := hnone k hk
    omega

end Seeker

variable {index : MemIndex} {es : List Association} {b : ℕ}

/-- A byte offset converts to the time of the last association up to it. Before the
first association, offset 0 converts to 0 and any other to no time. -/
theorem MemIndex.Holds.bytesToStreamTime_cases (h : index.Holds es) (hes : Increasing es)
    (hb : b < 2 ^ 63) :
    (∃ k ∈ es, k.offset ≤ b ∧ (∀ e ∈ es, e.offset ≤ b → e.offset ≤ k.offset) ∧
        index.bytesToStreamTime b = k.time) ∨
      ((∀ e ∈ es, b < e.offset) ∧
        index.bytesToStreamTime b = if b = 0 then 0 else clockTimeNone) := by
  have hvalue : gint64 b = b := gint64_of_lt (by omega) (by omega)
  rcases h.find_offset hes hb with ⟨k, hk, hle, hmax, hget⟩ | ⟨hnone, hget⟩
  · refine Or.inl ⟨k, hk, hle, hmax, ?_⟩
    have hfits := (hes.fits k hk).1
    have htime : gint64 k.time = k.time := gint64_of_lt (by omega) (by omega)
    simp only [bytesToStreamTime, hvalue, hget, Association.assocMap_time]
    rw [htime, guint64_of_lt (by omega) (by omega), Int.toNat_natCast]
  · refine Or.inr ⟨hnone, ?_⟩
    simp only [bytesToStreamTime, hvalue, hget]

/-! ## The two conversions -/

/-- A conversion of times to byte offsets and one back, that both go by the last
association up to the value. -/
structure Consistent (es : List Association) (toBytes : ℕ → ℤ) (toTime : ℕ → ℕ) : Prop where
  bytes_last : ∀ t < 2 ^ 63, ∀ k ∈ es, k.time ≤ t →
    (∀ e ∈ es, e.time ≤ t → e.time ≤ k.time) → toBytes t = k.offset
  bytes_none : ∀ t < 2 ^ 63, (∀ e ∈ es, t < e.time) → toBytes t = -1
  time_last : ∀ b < 2 ^ 63, ∀ k ∈ es, k.offset ≤ b →
    (∀ e ∈ es, e.offset ≤ b → e.offset ≤ k.offset) → toTime b = k.time
  time_none : ∀ b < 2 ^ 63, (∀ e ∈ es, b < e.offset) →
    toTime b = if b = 0 then 0 else clockTimeNone
  bytes_mono : ∀ t t', t ≤ t' → t' < 2 ^ 63 → toBytes t ≤ toBytes t'
  time_mono : ∀ b b', b ≤ b' → b' < 2 ^ 63 → toTime b ≠ clockTimeNone → toTime b ≤ toTime b'
  time_of_bytes : ∀ k ∈ es, toTime (toBytes k.time).toNat = k.time
  bytes_of_time : ∀ k ∈ es, toBytes (toTime k.offset) = k.offset

section Consistent

variable {seeker : Seeker} {k : Association}

/-- A byte offset converts to the time of the association that is meant. -/
theorem MemIndex.Holds.bytesToStreamTime_eq (h : index.Holds es) (hes : Increasing es)
    (hb : b < 2 ^ 63) (hk : k ∈ es) (hkb : k.offset ≤ b)
    (hlast : ∀ e ∈ es, e.offset ≤ b → e.offset ≤ k.offset) :
    index.bytesToStreamTime b = k.time := by
  rcases h.bytesToStreamTime_cases hes hb with ⟨k', hk', hle, hmax, htime⟩ | ⟨hnone, -⟩
  · have heq : k' = k :=
      hes.eq_of_offset_eq hk' hk (Nat.le_antisymm (hlast k' hk' hle) (hmax k hk hkb))
    rw [htime, heq]
  · have := hnone k hk
    omega

/-- A later time is not converted to an earlier offset. -/
theorem Seeker.seek_mono (hindex : seeker.index = some index) (h : index.Holds es)
    (hes : Increasing es) (duration : Option ℤ) {t t' : ℕ} (hle : t ≤ t') (ht' : t' < 2 ^ 63) :
    seeker.seek .set t duration ≤ seeker.seek .set t' duration := by
  rcases seek_set_cases hindex h hes (show t < 2 ^ 63 by omega) duration with
    ⟨k, hk, hkt, -, hseek⟩ | ⟨-, hseek⟩
  · rcases seek_set_cases hindex h hes ht' duration with ⟨k', hk', -, hmax, hseek'⟩ | ⟨hnone, -⟩
    · have hoffset : k.offset ≤ k'.offset :=
        (hes.time_le_iff hk hk').mp (hmax k hk (Nat.le_trans hkt hle))
      rw [hseek, hseek']
      omega
    · -- the association for the earlier time is one for the later time, too
      have := hnone k hk
      omega
  · rw [hseek]
    rcases seek_set_cases hindex h hes ht' duration with ⟨k', -, -, -, hseek'⟩ | ⟨-, hseek'⟩
    · rw [hseek']
      omega
    · rw [hseek']

/-- A later offset is not converted to an earlier time. -/
theorem MemIndex.Holds.bytesToStreamTime_mono (h : index.Holds es) (hes : Increasing es)
    {b b' : ℕ} (hle : b ≤ b') (hb' : b' < 2 ^ 63)
    (hsome : index.bytesToStreamTime b ≠ clockTimeNone) :
    index.bytesToStreamTime b ≤ index.bytesToStreamTime b' := by
  rcases h.bytesToStreamTime_cases hes (show b < 2 ^ 63 by omega) with
    ⟨k, hk, hkb, -, htime⟩ | ⟨-, htime⟩
  · rcases h.bytesToStreamTime_cases hes hb' with ⟨k', hk', -, hmax, htime'⟩ | ⟨hnone, -⟩
    · rw [htime, htime']
      exact (hes.time_le_iff hk hk').mpr (hmax k hk (Nat.le_trans hkb hle))
    · have := hnone k hk
      omega
  · -- before the first association, only offset 0 has a time
    rw [htime] at hsome ⊢
    split at hsome
    · rw [if_pos (by assumption)]
      exact Nat.zero_le _
    · exact absurd rfl hsome

/-- On associations that increase in both values, the conversions of the seeker are
consistent, whatever the shape of the trees in the index. -/
theorem conversions_consistent (es : List Association) (hes : Increasing es) :
    (MemIndex.ofAssociations es).Holds es ∧
      ∀ (index : MemIndex) (seeker : Seeker) (duration : Option ℤ),
        index.Holds es → seeker.index = some index →
          Consistent es (fun t => seeker.seek .set t duration) index.bytesToStreamTime := by
  refine ⟨MemIndex.holds_of_increasing hes, ?_⟩
  intro index seeker duration h hindex
  have hbytes : ∀ k ∈ es, seeker.seek .set k.time duration = k.offset := by
    intro k hk
    exact Seeker.seek_set hindex h hes (hes.fits k hk).1 hk (Nat.le_refl _) (fun e _ hle => hle)
      duration
  have htime : ∀ k ∈ es, index.bytesToStreamTime k.offset = k.time := by
    intro k hk
    exact h.bytesToStreamTime_eq hes (hes.fits k hk).2 hk (Nat.le_refl _) (fun e _ hle => hle)
  constructor
  · intro t ht k hk hkt hlast
    exact Seeker.seek_set hindex h hes ht hk hkt hlast duration
  · intro t ht hnone
    rcases Seeker.seek_set_cases hindex h hes ht duration with ⟨k, hk, hkt, -, -⟩ | ⟨-, hseek⟩
    · exact absurd (hnone k hk) (by omega)
    · exact hseek
  · intro b hb k hk hkb hlast
    exact h.bytesToStreamTime_eq hes hb hk hkb hlast
  · intro b hb hnone
    rcases h.bytesToStreamTime_cases hes hb with ⟨k, hk, hkb, -, -⟩ | ⟨-, heq⟩
    · exact absurd (hnone k hk) (by omega)
    · exact heq
  · intro t t' hle ht'
    exact Seeker.seek_mono hindex h hes duration hle ht'
  · intro b b' hle hb'
    exact h.bytesToStreamTime_mono hes hle hb'
  · intro k hk
    rw [hbytes k hk, Int.toNat_natCast]
    exact htime k hk
  · intro k hk
    rw [htime k hk]
    exact hbytes k hk

/-- The conversions with two associations. -/
theorem conversions_consistent_pair :
    (MemIndex.ofAssociations [⟨0, 188⟩, ⟨500, 940⟩]).Holds [⟨0, 188⟩, ⟨500, 940⟩] ∧
      Consistent [⟨0, 188⟩, ⟨500, 940⟩]
        (fun t => Seeker.seek ⟨some (MemIndex.ofAssociations [⟨0, 188⟩, ⟨500, 940⟩]), false⟩
          .set t none)
        (MemIndex.ofAssociations [⟨0, 188⟩, ⟨500, 940⟩]).bytesToStreamTime := by
  have hes : Increasing [⟨0, 188⟩, ⟨500, 940⟩] := by
    constructor
    · intro e he
      simp only [List.mem_cons, List.not_mem_nil, or_false] at he
      rcases he with rfl | rfl <;> exact ⟨by decide, by decide⟩
    · simp [Association.Before]
  have hall := conversions_consistent _ hes
  exact ⟨hall.1, hall.2 _ _ none hall.1 rfl⟩

end Consistent

end TimeShift
