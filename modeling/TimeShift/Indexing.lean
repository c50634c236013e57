import TimeShift.Lib.Machine
import TimeShift.TsIndexer

/-!
# Runs of the indexer

Buffers come to the indexer one after the other, and its properties are set in
between. Next to the indexer, a run keeps the bytes received so far, the first
reference seen and the associations added so far, each with the `pcr_pid` of that
moment.

As long as `delta` is not negative, the associations come in the order of their
offsets, and their times do not decrease (`index_monotone`): the time of a
reference below the first one wraps around, but is then too early for `delta`.
-/

namespace TimeShift

open Bytes Machine

/-- The steps of a run. -/
inductive IndexerOp where
  | buffer (data : Block UInt8)
  | setPcrPid (value : ℤ)
  | setDelta (value : ℤ)

/-- An association in the index, with the PID that it has been added for. -/
structure Added where
  association : Association
  pid : ℤ

/-- The indexer and the history of its use; `first` is the first reference seen. -/
structure Indexing where
  ts : TsIndexer
  received : List UInt8
  first : Option ℕ
  added : List Added

/-- The reference that the first round on a buffer finds. -/
def TsIndexer.firstIn (ts : TsIndexer) (data : Block UInt8) : Option ℕ :=
  if ts.pcrPid = invalidPid ∨ data.size < tsMinPacketSize then none
  else (ts.getPcr data ts.currentOffset).bind fun r => r.1

namespace Indexing

/-- The indexer has been started. -/
def init : Indexing where
  ts := TsIndexer.init
  received := []
  first := none
  added := []

/-- One step of a run. -/
def step (s : Indexing) : IndexerOp → Option Indexing
  | .buffer data => do
    let (ts, added) ← s.ts.collectTime data
    return {
      ts := ts
      received := s.received ++ data.toList
      first := s.first.or (s.ts.firstIn data)
      added := s.added ++ (added.map fun a => ⟨a, s.ts.pcrPid⟩).toList }
  | .setPcrPid value => some { s with ts := s.ts.setPcrPid value }
  | .setDelta value => some { s with ts := s.ts.setDelta value }

/-- Every step can be taken: the indexer reads inside its buffers, and its loops end. -/
theorem step_isSome (s : Indexing) (l : IndexerOp) : ∃ s', s.step l = some s' := by
  cases l with
  | buffer data =>
      rcases s.ts.collectTime_spec data with ⟨ts, added, hcollect, -⟩
      exact ⟨_, by simp only [step, hcollect]; rfl⟩
  | setPcrPid value => exact ⟨_, rfl⟩
  | setDelta value => exact ⟨_, rfl⟩

theorem step_buffer {s s' : Indexing} {data : Block UInt8} (h : s.step (.buffer data) = some s') :
    ∃ added, s.ts.collectTime data = some (s'.ts, added) ∧
      s'.received = s.received ++ data.toList ∧ s'.first = s.first.or (s.ts.firstIn data) ∧
      s'.added = s.added ++ (added.map fun a => ⟨a, s.ts.pcrPid⟩).toList := by
  simp only [step, Option.bind_eq_bind, Option.bind_eq_some_iff] at h
  rcases h with ⟨⟨ts, added⟩, hcollect, heq⟩
  cases heq
  exact ⟨added, hcollect, rfl, rfl, rfl⟩

end Indexing

/-! ## Times -/

namespace TsIndexer

variable {ts ts' : TsIndexer} {data : Block UInt8} {pcr : ℕ}

/-- 33 bits of a 90 kHz clock are less than 2^47 nanoseconds. -/
theorem mpegtimeToGsttime_lt (h : pcr < 2 ^ 33) : mpegtimeToGsttime pcr < 2 ^ 47 := by
  unfold mpegtimeToGsttime
  omega

/-- The first reference has been seen when there is an association, and not before. The
times of both are in range. -/
structure Timed (ts : TsIndexer) : Prop where
  delta : 0 ≤ ts.delta
  started : ts.baseTime = clockTimeNone ↔ ts.lastTime = clockTimeNone
  base : ts.baseTime ≠ clockTimeNone → ts.baseTime < 2 ^ 47
  last : ts.lastTime ≠ clockTimeNone → ts.lastTime < 2 ^ 47

/-- A time that wraps around is less than any that is in range, as a signed difference. -/
theorem le_of_diff_nonneg {last base conv : ℕ} (hlast : last < 2 ^ 47) (hbase : base < 2 ^ 47)
    (hconv : conv < 2 ^ 47) (h : 0 ≤ gint64 (guint64 (conv - base) - last)) :
    last ≤ guint64 (conv - base) ∧ guint64 (conv - base) < 2 ^ 47 := by
  rcases Nat.lt_or_ge conv base with hlt | hge
  · -- a reference below the first one
    exfalso
    have htime : guint64 ((conv : ℤ) - base) = 2 ^ 64 - (base - conv) := by
      unfold guint64
      omega
    rw [htime, gint64, Int.bmod_def] at h
    omega
  · have htime : guint64 ((conv : ℤ) - base) = conv - base := by
      rw [guint64_of_lt (by omega) (by omega)]
      omega
    rw [htime] at h ⊢
    rw [gint64_of_lt (by omega) (by omega)] at h
    omega

namespace Timed

theorem of_init : init.Timed where
  delta := by decide
  started := Iff.rfl
  base h := absurd rfl h
  last h := absurd rfl h

/-- The first reference is at time zero. -/
theorem timeOf_first (hbase : ts.baseTime = clockTimeNone) : (ts.see pcr).timeOf pcr = 0 := by
  rw [timeOf, see_eq, if_pos hbase, Int.sub_self]
  rfl

/-- A reference that is not the first one leaves the times as they are. -/
theorem see (h : ts.Timed) (hbase : ts.baseTime ≠ clockTimeNone) : (ts.see pcr).Timed := by
  rw [see_eq, if_neg hbase]
  exact ⟨h.delta, h.started, h.base, h.last⟩

/-- An association that is due is in range, and not before the last one. -/
theorem timeOf_due (h : ts.Timed) (hpcr : pcr < 2 ^ 33)
    (hdue : (ts.see pcr).isDue ((ts.see pcr).timeOf pcr)) :
    (ts.see pcr).timeOf pcr < 2 ^ 47 ∧
      (ts.lastTime ≠ clockTimeNone → ts.lastTime ≤ (ts.see pcr).timeOf pcr) := by
  have hdelta := h.delta
  by_cases hbase : ts.baseTime = clockTimeNone
  · rw [timeOf_first hbase]
    exact ⟨by decide, fun hlast => absurd (h.started.mp hbase) hlast⟩
  · have hlast : ts.lastTime ≠ clockTimeNone := fun heq => hbase (h.started.mpr heq)
    -- with a delta that is not negative, due means not before the last one
    have hnonneg : 0 ≤ gint64 ((ts.see pcr).timeOf pcr - ts.lastTime) := by
      rcases hdue with hnone | hflag | ⟨-, hle⟩
      · exact absurd (hnone.symm.trans (see_lastTime ts pcr)).symm hlast
      · rw [see_delta] at hflag
        omega
      · rw [see_delta, see_lastTime] at hle
        exact Int.le_trans hdelta hle
    have htime : (ts.see pcr).timeOf pcr = guint64 (mpegtimeToGsttime pcr - ts.baseTime) := by
      rw [timeOf, see_eq, if_neg hbase]
    rw [htime] at hnonneg ⊢
    rcases le_of_diff_nonneg (h.last hlast) (h.base hbase) (mpegtimeToGsttime_lt hpcr) hnonneg with
      ⟨hle, hlt⟩
    exact ⟨hlt, fun _ => hle⟩

/-- The times stay in range when the association is added. -/
theorem add (h : ts.Timed) (hpcr : pcr < 2 ^ 33) (offset : ℕ)
    (hdue : (ts.see pcr).isDue ((ts.see pcr).timeOf pcr)) :
    ((ts.see pcr).add ⟨(ts.see pcr).timeOf pcr, offset⟩).Timed := by
  have hlt := (h.timeOf_due hpcr hdue).1
  have hnone : (ts.see pcr).timeOf pcr ≠ clockTimeNone := by
    unfold clockTimeNone
    omega
  have hbase : (ts.see pcr).baseTime < 2 ^ 47 := by
    rw [see_eq]
    dsimp only
    split
    · exact mpegtimeToGsttime_lt hpcr
    · rename_i hbase
      exact h.base hbase
  constructor
  · show 0 ≤ (ts.see pcr).delta
    rw [see_delta]
    exact h.delta
  · constructor
    · intro heq
      have heq : (ts.see pcr).baseTime = clockTimeNone := heq
      unfold clockTimeNone at heq
      omega
    · intro heq
      exact absurd heq hnone
  · exact fun _ => hbase
  · exact fun _ => hlt

end Timed

/-- What a buffer does to the index. -/
structure Collects (ts ts' : TsIndexer) (added : Option Association) : Prop where
  timed : ts'.Timed
  pcrPid : ts'.pcrPid = ts.pcrPid
  unchanged : added = none → ts'.index = ts.index ∧ ts'.lastTime = ts.lastTime
  adds : ∀ a ∈ added, ts'.index = ts.index.addAssociation a.entry ∧ ts'.lastTime = a.time ∧
    a.time < 2 ^ 47 ∧ (ts.lastTime ≠ clockTimeNone → ts.lastTime ≤ a.time)

theorem Timed.collectTimeLoop (h : ts.Timed) (data : Block UInt8) (offset : ℕ) :
    ∃ ts' added, collectTimeLoop (data.size + 1) ts data offset = some (ts', added) ∧
      ts.Collects ts' added := by
  apply collectTimeLoop_rule (i := 0) (Q := ts.Collects)
    (P := fun ts' _ => ts'.Timed ∧ ts'.pcrPid = ts.pcrPid ∧ ts'.index = ts.index ∧
      ts'.lastTime = ts.lastTime)
  · rintro ts' _ ⟨htimed, hpid, hindex, hlast⟩ -
    exact ⟨htimed, hpid, fun _ => ⟨hindex, hlast⟩, by simp⟩
  · rintro ts' i pcr k ⟨htimed, hpid, hindex, hlast⟩ hpacket - hparse
    have hpcr := parsePcr_lt (Nat.le_trans (by decide) hpacket) hparse
    split
    case isTrue hdue =>
      rcases htimed.timeOf_due hpcr hdue with ⟨hlt, hle⟩
      refine ⟨htimed.add hpcr _ hdue, (see_pcrPid ts' pcr).trans hpid, by simp, ?_⟩
      intro a ha
      cases ha
      refine ⟨?_, rfl, hlt, hlast ▸ hle⟩
      rw [← hindex, ← see_index ts' pcr]
      rfl
    case isFalse hearly =>
      have hbase : ts'.baseTime ≠ clockTimeNone := by
        intro hbase
        exact hearly (Or.inl ((see_lastTime ts' pcr).trans (htimed.started.mp hbase)))
      exact ⟨htimed.see hbase, by rw [see_pcrPid, hpid], by rw [see_index, hindex],
        by rw [see_lastTime, hlast]⟩
  · exact ⟨h, rfl, rfl, rfl⟩
  · exact Nat.lt_succ_self data.size

theorem Timed.collectTime (h : ts.Timed) {added : Option Association}
    (hc : ts.collectTime data = some (ts', added)) : ts.Collects ts' added := by
  unfold TsIndexer.collectTime at hc
  split at hc
  · cases hc
    exact ⟨⟨h.delta, h.started, h.base, h.last⟩, rfl, fun _ => ⟨rfl, rfl⟩, by simp⟩
  · rcases h.collectTimeLoop data ts.currentOffset with ⟨ts₁, added₁, hloop, hcollects⟩
    rw [hloop] at hc
    cases hc
    rcases hcollects with ⟨htimed, hpid, hnone, hadds⟩
    exact ⟨⟨htimed.delta, htimed.started, htimed.base, htimed.last⟩, hpid, hnone, hadds⟩

/-- A delta that is not negative keeps the times in range. -/
theorem Timed.setDelta (h : ts.Timed) {value : ℤ} (hnonneg : 0 ≤ value) (hlt : value < 2 ^ 31) :
    (ts.setDelta value).Timed := by
  refine ⟨?_, h.started, h.base, h.last⟩
  show 0 ≤ if value ≠ -1 then gint64 (value * gstMsecond) else value
  unfold gstMsecond
  rw [if_pos (by omega), gint64_of_lt (by omega) (by omega)]
  omega

end TsIndexer

/-! ## The order of the associations -/

namespace Indexing

variable {s s' : Indexing}

/-- A later association: at a greater offset, and not at an earlier time. -/
def Follows (x y : Added) : Prop :=
  x.association.offset < y.association.offset ∧ x.association.time ≤ y.association.time

/-- The associations so far are in the index, one following the other, and the next one
is going to follow them. -/
structure Ordered (s : Indexing) : Prop where
  timed : s.ts.Timed
  index : s.ts.index = MemIndex.ofAssociations (s.added.map Added.association)
  ordered : s.added.Pairwise Follows
  bounded : ∀ x ∈ s.added, x.association.time < 2 ^ 47
  passed : ∀ x ∈ s.added, x.association.offset < s.ts.currentOffset
  last : ∀ x ∈ s.added, s.ts.lastTime ≠ clockTimeNone ∧ x.association.time ≤ s.ts.lastTime

namespace Ordered

theorem of_init : init.Ordered where
  timed := .of_init
  index := rfl
  ordered := List.Pairwise.nil
  bounded := by simp [init]
  passed := by simp [init]
  last := by simp [init]

/-- Nothing has been added. -/
theorem keep (h : s.Ordered) (htimed : s'.ts.Timed) (hindex : s'.ts.index = s.ts.index)
    (hlast : s'.ts.lastTime = s.ts.lastTime)
    (hcurrent : s.ts.currentOffset ≤ s'.ts.currentOffset) (hsame : s'.added = s.added) :
    s'.Ordered := by
  constructor
  · exact htimed
  · rw [hindex, hsame]
    exact h.index
  · rw [hsame]
    exact h.ordered
  · rw [hsame]
    exact h.bounded
  · intro x hx
    rw [hsame] at hx
    exact Nat.lt_of_lt_of_le (h.passed x hx) hcurrent
  · rw [hsame, hlast]
    exact h.last

/-- An association has been added, at a place that the indexer has passed meanwhile. -/
theorem snoc (h : s.Ordered) (htimed : s'.ts.Timed) {y : Added}
    (hindex : s'.ts.index = s.ts.index.addAssociation y.association.entry)
    (hlast : s'.ts.lastTime = y.association.time) (hlt : y.association.time < 2 ^ 47)
    (hle : s.ts.lastTime ≠ clockTimeNone → s.ts.lastTime ≤ y.association.time)
    (hlow : s.ts.currentOffset ≤ y.association.offset)
    (hhigh : y.association.offset < s'.ts.currentOffset) (hnew : s'.added = s.added ++ [y]) :
    s'.Ordered := by
  have hnone : y.association.time ≠ clockTimeNone := by
    unfold clockTimeNone
    omega
  have hfollows : ∀ x ∈ s.added, Follows x y := by
    intro x hx
    rcases h.last x hx with ⟨hsome, hxlast⟩
    constructor
    · exact Nat.lt_of_lt_of_le (h.passed x hx) hlow
    · exact Nat.le_trans hxlast (hle hsome)
  have hmem : ∀ x ∈ s'.added, x ∈ s.added ∨ x = y := by
    intro x hx
    rw [hnew, List.mem_append, List.mem_singleton] at hx
    exact hx
  constructor
  · exact htimed
  · rw [hindex, hnew, List.map_append, h.index]
    exact (MemIndex.ofAssociations_append _ y.association).symm
  · rw [hnew, List.pairwise_append]
    refine ⟨h.ordered, List.pairwise_singleton _ _, ?_⟩
    intro x hx y' hy'
    cases List.mem_singleton.mp hy'
    exact hfollows x hx
  · intro x hx
    rcases hmem x hx with hx | rfl
    · exact h.bounded x hx
    · exact hlt
  · intro x hx
    rcases hmem x hx with hx | rfl
    · exact Nat.lt_trans (hfollows x hx).1 hhigh
    · exact hhigh
  · intro x hx
    rw [hlast]
    rcases hmem x hx with hx | rfl
    · exact ⟨hnone, (hfollows x hx).2⟩
    · exact ⟨hnone, Nat.le_refl _⟩

/-- A buffer adds at most one association, which follows the others. -/
theorem buffer (h : s.Ordered) {data : Block UInt8} (hs : s.step (.buffer data) = some s') :
    s'.Ordered ∧ (s'.added = s.added ∨ ∃ x, s'.added = s.added ++ [x]) := by
  rcases step_buffer hs with ⟨added, hcollect, -, -, hadded⟩
  have hcollects := h.timed.collectTime hcollect
  rcases s.ts.collectTime_spec data with ⟨ts', added', hcollect', hcurrent, hplace⟩
  cases hcollect'.symm.trans hcollect
  cases added with
  | none =>
      -- nothing is due in this buffer
      have hsame : s'.added = s.added := by simpa using hadded
      rcases hcollects.unchanged rfl with ⟨hindex, hlast⟩
      exact ⟨h.keep hcollects.timed hindex hlast (by omega) hsame, Or.inl hsame⟩
  | some a =>
      have hnew : s'.added = s.added ++ [⟨a, s.ts.pcrPid⟩] := by simpa using hadded
      rcases hcollects.adds a rfl with ⟨hindex, hlast, hlt, hle⟩
      rcases hplace a rfl with ⟨hlow, hhigh⟩
      refine ⟨?_, Or.inr ⟨_, hnew⟩⟩
      apply h.snoc (y := ⟨a, s.ts.pcrPid⟩) hcollects.timed hindex hlast hlt hle hlow ?_ hnew
      show a.offset < _
      omega

end Ordered

/-- The values that `delta` is set to are not negative, and fit its type. -/
def deltaNonneg : Indexing → IndexerOp → Prop
  | _, .setDelta value => 0 ≤ value ∧ value < 2 ^ 31
  | _, _ => True

theorem Ordered.step (h : s.Ordered) {l : IndexerOp} (hok : deltaNonneg s l)
    (hs : s.step l = some s') : s'.Ordered := by
  cases l with
  | buffer data => exact (h.buffer hs).1
  | setPcrPid value =>
      cases hs
      have htimed := h.timed
      exact ⟨⟨htimed.delta, htimed.started, htimed.base, htimed.last⟩, h.index, h.ordered,
        h.bounded, h.passed, h.last⟩
  | setDelta value =>
      cases hs
      exact ⟨h.timed.setDelta hok.1 hok.2, h.index, h.ordered, h.bounded, h.passed, h.last⟩

/-- In every run, whatever the buffers, with any changes of `pcr_pid` and of `delta` to
values that are not negative: each buffer adds at most one association to the index, the
offsets of the associations increase, and their times do not decrease and stay below
2^47. -/
theorem index_monotone (h : Reach step deltaNonneg init s) :
    s.ts.index = MemIndex.ofAssociations (s.added.map Added.association) ∧
      s.added.Pairwise Follows ∧ (∀ x ∈ s.added, x.association.time < 2 ^ 47) ∧
      ∀ data, ∃ s', s.step (.buffer data) = some s' ∧
        (s'.added = s.added ∨ ∃ x, s'.added = s.added ++ [x]) := by
  have hordered : s.Ordered :=
    h.invariant .of_init fun _ _ _ hordered hok hs => hordered.step hok hs
  refine ⟨hordered.index, hordered.ordered, hordered.bounded, ?_⟩
  intro data
  rcases s.step_isSome (.buffer data) with ⟨s', hs⟩
  exact ⟨s', hs, (hordered.buffer hs).2⟩

/-- A packet on PID 0x100 with a reference; `b` is the high byte of its base. -/
def referencePacket (b : UInt8) : Block UInt8 where
  size := 188
  byte i := ([0x47, 0x01, 0x00, 0x20, 0x07, 0x10, b] : List UInt8).getD i 0

/-- The second reference jumps back behind the first one, and the third is due. -/
theorem index_monotone_jump : ∃ s, Reach step deltaNonneg init s ∧
    s.added = [⟨⟨0, 0⟩, 0x100⟩, ⟨⟨372827022222, 376⟩, 0x100⟩] ∧ s.added.Pairwise Follows := by
  have h₀ : Reach step deltaNonneg init _ := .refl
  have h₁ := h₀.extend (.setPcrPid 0x100) trivial rfl
  have h₂ := h₁.extend (.setDelta 500) ⟨by decide, by decide⟩ rfl
  have h₃ := h₂.extend (.buffer (referencePacket 1)) trivial rfl
  -- a reference before the first one
  have h₄ := h₃.extend (.buffer (referencePacket 0)) trivial rfl
  have h₅ := h₄.extend (.buffer (referencePacket 2)) trivial rfl
  exact ⟨_, h₅, rfl, (index_monotone h₅).2.1⟩

end Indexing

end TimeShift
