import TimeShift.Seeker

/-!
# The last time

`gst_time_shift_seeker_get_last_time` looks for the last association up to a megabyte
before the end of the stream. There is one if and only if the first association is that
far from the end, and then its time is the duration that the seeker reports, and what a
seek relative to the end counts from (`last_time_sound_iff`). Otherwise the time is
`GST_CLOCK_TIME_NONE`, for a length below a megabyte because the difference is negative
as a `gint64`.
-/

namespace TimeShift

open SearchTree

variable {index : MemIndex} {es : List Association} {first : Association} {len : ℕ}

/-! ## A value below all entries -/

namespace MemIndex

variable {format : Format} {i : ℕ} {value : ℤ} {entries : List IndexEntry} {data : SearchData}

/-- A search that has not noted any entry below the value. -/
structure Unmet (i : ℕ) (value : ℤ) (data : SearchData) : Prop where
  value_eq : data.value = value
  offset_eq : data.offset = i
  inexact : data.exact = false
  lower : data.lower = none

theorem Unmet.step (h : Unmet i value data) {k : IndexEntry}
    (hk : 0 < gint64 (k.assocValue i - value)) :
    ∃ data', memIndexSearch k data = (.gt, data') ∧ Unmet i value data' := by
  simp only [memIndexSearch, h.value_eq, h.offset_eq, h.inexact]
  rw [if_neg (by omega), if_neg (by simp), if_neg (by omega)]
  refine ⟨_, rfl, ?_⟩
  split
  · exact ⟨rfl, rfl, rfl, h.lower⟩
  · exact ⟨h.value_eq, h.offset_eq, h.inexact, h.lower⟩

/-- A value that all entries are above, as far as a search can tell, is not found. -/
theorem Sorted.lookup_none {index : MemIndex} (h : index.Sorted format i entries)
    (habove : ∀ e ∈ entries, 0 < gint64 (e.assocValue i - value)) :
    index.getAssocEntry .before format value = none := by
  rcases h with ⟨tree, hindex, -, hentries⟩
  rw [getAssocEntry_before hindex]
  have hstep : ∀ (l r : Tree IndexEntry IndexEntry) (k v : IndexEntry) (data data' : SearchData)
      (dir : Ordering), Unmet i value data →
      (∀ x ∈ (SearchTree.Tree.node l k v r).toList, x.1 ∈ entries) →
      memIndexSearch k data = (dir, data') → dir = .gt ∧ Unmet i value data' := by
    intro l r k v data data' dir hunmet hsub hdir
    have hk := hsub (k, v) (Tree.mem_toList_node.mpr (Or.inr (Or.inl rfl)))
    rcases hunmet.step (habove k hk) with ⟨data'', hgt, hunmet'⟩
    cases hgt.symm.trans hdir
    exact ⟨rfl, hunmet'⟩
  apply Tree.search_rule
    (P := fun t data => Unmet i value data ∧ ∀ x ∈ t.toList, x.1 ∈ entries)
    (Q := fun res data => res.or data.lower = none)
  · rintro data ⟨hunmet, -⟩
    rw [Option.none_or]
    exact hunmet.lower
  · rintro l k v r data data' ⟨hunmet, hsub⟩ hdir
    cases (hstep l r k v data data' .eq hunmet hsub hdir).1
  · rintro l k v r data data' ⟨hunmet, hsub⟩ hdir
    cases (hstep l r k v data data' .lt hunmet hsub hdir).1
  · rintro l k v r data data' ⟨hunmet, hsub⟩ hdir
    exact ⟨(hstep l r k v data data' .gt hunmet hsub hdir).2,
      fun x hx => hsub x (Tree.mem_toList_node.mpr (Or.inr (Or.inr hx)))⟩
  · refine ⟨⟨rfl, rfl, rfl, rfl⟩, ?_⟩
    intro x hx
    rcases (hentries x).mp hx with ⟨e, he, rfl⟩
    exact he

end MemIndex

/-! ## The last time -/

namespace Seeker

variable {seeker : Seeker}

/-- Of a stream of `len` bytes, the last time is that of the last association up to a
megabyte before the end. -/
theorem getLastTime_of_room (hindex : seeker.index = some index) (h : index.Holds es)
    (hes : Increasing es) (hlen : len < 2 ^ 63) {e : Association} (he : e ∈ es)
    (hroom : e.offset + 1000000 ≤ len) :
    ∃ k ∈ es, k.offset + 1000000 ≤ len ∧ (∀ e ∈ es, e.offset + 1000000 ≤ len → e.time ≤ k.time) ∧
      seeker.getLastTime (some len) = k.time := by
  have hbytes : getDurationBytes (some len) = len := by
    rw [getDurationBytes, guint64_of_lt (by omega) (by omega), Int.toNat_natCast]
  have hpos : gint64 ((len : ℤ) - 1000000) = (len - 1000000 : ℕ) := by
    rw [gint64_of_lt (by omega) (by omega)]
    omega
  rcases h.find_offset hes (show len - 1000000 < 2 ^ 63 by omega) with
    ⟨k, hk, hle, hmax, hget⟩ | ⟨hnone, -⟩
  · refine ⟨k, hk, by omega, ?_, ?_⟩
    · intro e he hroom
      exact (hes.time_le_iff he hk).mpr (hmax e he (by omega))
    · have htime := (hes.fits k hk).1
      simp only [getLastTime, hindex, hbytes, hpos, hget, Association.assocMap_time]
      rw [gint64_of_lt (by omega) (by omega), guint64_of_lt (by omega) (by omega),
        Int.toNat_natCast]
  · have := hnone e he
    omega

/-- There is no last time when the first association is less than a megabyte before the
end. -/
theorem getLastTime_of_no_room (hindex : seeker.index = some index) (h : index.Holds es)
    (hes : Increasing es) (hlen : len < 2 ^ 63) (hbelow : ∀ e ∈ es, e.offset < len)
    (hroom : ∀ e ∈ es, len < e.offset + 1000000) :
    seeker.getLastTime (some len) = clockTimeNone := by
  have hbytes : getDurationBytes (some len) = len := by
    rw [getDurationBytes, guint64_of_lt (by omega) (by omega), Int.toNat_natCast]
  have hnone : index.getAssocEntry .before .bytes (gint64 ((len : ℤ) - 1000000)) = none := by
    apply h.bytes.lookup_none
    intro x hx
    rcases List.mem_map.mp hx with ⟨e, he, rfl⟩
    have hlow := hbelow e he
    have hhigh := hroom e he
    have hpos : gint64 ((len : ℤ) - 1000000) = len - 1000000 := gint64_of_lt (by omega) (by omega)
    rw [(hes.fits e he).offset_eq, hpos, gint64_of_lt (by omega) (by omega)]
    omega
  simp only [getLastTime, hindex, hbytes, hnone]

/-- What a last time is good for: it is that of an association, it does not decrease as
the stream and the index grow, and a seek to `d` before the end is one to `d` before it. -/
structure LastTimeSound (seeker : Seeker) (es : List Association) (first : Association)
    (len : ℕ) : Prop where
  real : ∃ e ∈ es, seeker.getLastTime (some len) = e.time
  grows : ∀ (seeker' : Seeker) (index' : MemIndex) (es' : List Association) (len' : ℕ),
    seeker'.index = some index' → index'.Holds es' → Increasing es' → es <+: es' →
    len ≤ len' → len' < 2 ^ 63 → (∀ e ∈ es', e.offset < len') →
    seeker.getLastTime (some len) ≤ seeker'.getLastTime (some len')
  atEnd : ∀ d : ℕ, first.time + d ≤ seeker.getLastTime (some len) →
    0 ≤ seeker.seek .atEnd (-d) (some len) ∧
      seeker.seek .atEnd (-d) (some len) =
        seeker.seek .set ((seeker.getLastTime (some len) : ℤ) - d) (some len)

/-- On a stream that is longer than all offsets of an index that is not empty, the last
time is sound if and only if the first association is a megabyte before the end. -/
theorem last_time_sound_iff (hindex : seeker.index = some index) (h : index.Holds (first :: es))
    (hes : Increasing (first :: es)) (hbelow : ∀ e ∈ first :: es, e.offset < len)
    (hlen : len < 2 ^ 63) :
    LastTimeSound seeker (first :: es) first len ↔ first.offset + 1000000 ≤ len := by
  have hfirst : first ∈ first :: es := List.mem_cons_self ..
  constructor
  · intro hsound
    by_contra hroom
    have hnone : seeker.getLastTime (some len) = clockTimeNone := by
      apply getLastTime_of_no_room hindex h hes hlen hbelow
      intro e he
      have hle : first.offset ≤ e.offset := by
        rcases List.mem_cons.mp he with rfl | he
        · exact Nat.le_refl _
        · exact Nat.le_of_lt ((List.pairwise_cons.mp hes.ascending).1 e he).2
      omega
    rcases hsound.real with ⟨e, he, htime⟩
    have hfits := (hes.fits e he).1
    rw [hnone, clockTimeNone] at htime
    omega
  · intro hroom
    rcases getLastTime_of_room hindex h hes hlen hfirst hroom with
      ⟨k, hk, hkroom, -, hlast⟩
    constructor
    · exact ⟨k, hk, hlast⟩
    · intro seeker' index' es' len' hindex' h' hes' hprefix hle hlen' hbelow'
      -- the association that has been found is there for the longer stream, too
      have hk' : k ∈ es' := hprefix.subset hk
      rcases getLastTime_of_room hindex' h' hes' hlen' hk' (by omega) with
        ⟨k', -, -, hmax, hlast'⟩
      rw [hlast, hlast']
      exact hmax k hk' (by omega)
    · intro d hd
      rw [hlast] at hd ⊢
      have hfits := (hes.fits k hk).1
      have hset : seeker.seek .atEnd (-d) (some len) =
          seeker.seek .set ((k.time : ℤ) - d) (some len) := by
        unfold seek
        rw [hindex]
        simp only [hlast]
        rfl
      rw [hset]
      refine ⟨?_, rfl⟩
      have hpos : (k.time : ℤ) - d = (k.time - d : ℕ) := by omega
      rw [hpos]
      rcases seek_set_cases hindex h hes (show k.time - d < 2 ^ 63 by omega) (some len) with
        ⟨e, -, -, -, hseek⟩ | ⟨hnone, -⟩
      · rw [hseek]
        omega
      · have := hnone first hfirst
        omega

theorem increasing_pair : Increasing [⟨0, 0⟩, ⟨500, 2000000⟩] :=
  .pair ⟨by decide, by decide⟩ ⟨by decide, by decide⟩ ⟨by decide, by decide⟩

/-- Two associations, and a length of two megabytes and one packet. -/
theorem last_time_sound_iff_pair :
    LastTimeSound ⟨some (.ofAssociations [⟨0, 0⟩, ⟨500, 2000000⟩]), false⟩
      [⟨0, 0⟩, ⟨500, 2000000⟩] ⟨0, 0⟩ 2000188 := by
  refine (last_time_sound_iff rfl (MemIndex.holds_of_increasing increasing_pair) increasing_pair
    ?_ (by decide)).mpr (by decide)
  intro e he
  simp only [List.mem_cons, List.not_mem_nil, or_false] at he
  rcases he with rfl | rfl
  · decide
  · decide

/-- A stream of one packet has an association, but no last time. -/
theorem short_stream_has_no_last_time :
    ¬∀ (seeker : Seeker) (index : MemIndex) (es : List Association) (first : Association)
      (len : ℕ), seeker.index = some index → index.Holds (first :: es) →
        Increasing (first :: es) → (∀ e ∈ first :: es, e.offset < len) → len < 2 ^ 63 →
          LastTimeSound seeker (first :: es) first len := by
  intro hall
  have hes : Increasing [⟨0, 0⟩] := .singleton ⟨by decide, by decide⟩
  have hsound := hall ⟨some (.ofAssociations [⟨0, 0⟩]), false⟩ _ [] ⟨0, 0⟩ 188 rfl
    (MemIndex.holds_of_increasing hes) hes (by simp) (by decide)
  rcases hsound.real with ⟨e, he, htime⟩
  cases List.mem_singleton.mp he
  revert htime
  decide

end Seeker

end TimeShift
