import Mathlib.Data.List.Chain
import TimeShift.Indexing
import TimeShift.PcrScan

/-!
# The distance of the associations

`delta` is declared in milliseconds, with a default of 500. `setDelta` makes
nanoseconds of it, and `collectTime` compares it with nanoseconds; but `init` leaves
the 500 as they are. The associations keep the declared distance in every run if and
only if `delta` has been set (`associations_spaced_iff`).
-/

namespace TimeShift

open Bytes Machine

namespace TsIndexer

variable {ts ts' : TsIndexer} {data : Block UInt8} {added : Option Association}

/-- A buffer leaves `delta` as it is, and what it adds has waited for it. -/
structure Waits (ts ts' : TsIndexer) (added : Option Association) : Prop where
  delta : ts'.delta = ts.delta
  waited : ∀ a ∈ added, ts.lastTime ≠ clockTimeNone → ts.delta ≤ gint64 (a.time - ts.lastTime)

theorem collectTimeLoop_waits (hdelta : ts.delta ≠ -1) (data : Block UInt8) (offset : ℕ) :
    ∃ ts' added, collectTimeLoop (data.size + 1) ts data offset = some (ts', added) ∧
      ts.Waits ts' added := by
  apply collectTimeLoop_rule (i := 0) (Q := ts.Waits)
    (P := fun ts' _ => ts'.delta = ts.delta ∧ ts'.lastTime = ts.lastTime)
  · rintro ts' _ ⟨hsame, -⟩ -
    exact ⟨hsame, by simp⟩
  · rintro ts' i pcr k ⟨hsame, hlast⟩ - - -
    split
    case isTrue hdue =>
      constructor
      · exact (see_delta ts' pcr).trans hsame
      · intro a ha hsome
        cases ha
        unfold isDue at hdue
        rw [see_delta, see_lastTime, hsame, hlast] at hdue
        rcases hdue with hnone | hflag | ⟨-, hle⟩
        · exact absurd hnone hsome
        · exact absurd hflag hdelta
        · exact hle
    case isFalse => exact ⟨(see_delta ts' pcr).trans hsame, (see_lastTime ts' pcr).trans hlast⟩
  · exact ⟨rfl, rfl⟩
  · exact Nat.lt_succ_self data.size

theorem collectTime_waits (hdelta : ts.delta ≠ -1)
    (hc : ts.collectTime data = some (ts', added)) : ts.Waits ts' added := by
  unfold collectTime at hc
  split at hc
  · cases hc
    exact ⟨rfl, by simp⟩
  · rcases collectTimeLoop_waits hdelta data ts.currentOffset with
      ⟨ts₁, added₁, hloop, hdelta', hwaited⟩
    rw [hloop] at hc
    cases hc
    exact ⟨hdelta', hwaited⟩

end TsIndexer

namespace Indexing

variable {s s' : Indexing} {delta : Option ℤ}

/-- The indexer has been started, with `delta` unset or set to a value. -/
def start : Option ℤ → Indexing
  | none => init
  | some value => { init with ts := init.ts.setDelta value }

/-- From then on, `delta` is not set. -/
def deltaKept : Indexing → IndexerOp → Prop
  | _, .setDelta _ => False
  | _, _ => True

/-- The declared distance, in nanoseconds. -/
def spacing (delta : Option ℤ) : ℤ := delta.getD defaultDelta * gstMsecond

/-- The times of two associations differ by at least `d`. -/
def Apart (d : ℤ) (x y : Added) : Prop :=
  d ≤ ((y.association.time : ℤ) - x.association.time).natAbs

/-- Each two associations are apart by the value that `delta` has in nanoseconds. -/
structure Spaced (d : ℤ) (s : Indexing) : Prop where
  ordered : s.Ordered
  delta : s.ts.delta = d
  apart : s.added.Pairwise (Apart d)

namespace Spaced

variable {d : ℤ}

/-- What has waited since the last association is apart from all others, too. -/
theorem buffer (h : Spaced d s) {data : Block UInt8} (hs : s.step (.buffer data) = some s') :
    Spaced d s' := by
  rcases step_buffer hs with ⟨added, hcollect, -, -, hadded⟩
  have hnonneg := h.ordered.timed.delta
  have hwaits := TsIndexer.collectTime_waits (by omega) hcollect
  constructor
  · exact (h.ordered.buffer hs).1
  · exact hwaits.delta.trans h.delta
  · cases added with
    | none =>
        have hsame : s'.added = s.added := by simpa using hadded
        rw [hsame]
        exact h.apart
    | some a =>
        have hnew : s'.added = s.added ++ [⟨a, s.ts.pcrPid⟩] := by simpa using hadded
        rcases (h.ordered.timed.collectTime hcollect).adds a rfl with ⟨-, -, hlt, hle⟩
        rw [hnew, List.pairwise_append]
        refine ⟨h.apart, List.pairwise_singleton _ _, ?_⟩
        intro x hx y hy
        cases List.mem_singleton.mp hy
        rcases h.ordered.last x hx with ⟨hsome, hxlast⟩
        have hwaited := hwaits.waited a rfl hsome
        have hlater := hle hsome
        rw [gint64_of_lt (by omega) (by omega), h.delta] at hwaited
        show d ≤ ((a.time : ℤ) - x.association.time).natAbs
        omega

theorem step (h : Spaced d s) {l : IndexerOp} (hok : deltaKept s l)
    (hs : s.step l = some s') : Spaced d s' := by
  cases l with
  | buffer data => exact h.buffer hs
  | setPcrPid value =>
      have hordered := h.ordered.step (l := .setPcrPid value) trivial hs
      cases hs
      exact ⟨hordered, h.delta, h.apart⟩
  | setDelta value => exact absurd hok id

theorem of_start {value : ℤ} (hrange : 0 ≤ value ∧ value ≤ 10000) :
    Spaced (value * gstMsecond) (start (some value)) := by
  constructor
  · exact Ordered.of_init.step (l := .setDelta value) ⟨hrange.1, by omega⟩ rfl
  · show (if value ≠ -1 then gint64 (value * gstMsecond) else value) = _
    unfold gstMsecond
    rw [if_pos (by omega), gint64_of_lt (by omega) (by omega)]
  · exact List.Pairwise.nil

end Spaced

/-- With `delta` unset, two references that are ten ticks of the clock apart make two
associations. -/
theorem unset_is_nanoseconds :
    ¬∀ s, Reach step deltaKept (start none) s → s.added.IsChain (Apart (spacing none)) := by
  intro hall
  have h₀ : Reach step deltaKept (start none) _ := .refl
  have h₁ := h₀.extend (.setPcrPid 0x100) trivial rfl
  have h₂ := h₁.extend (.buffer (referencePacket 0)) trivial rfl
  have h₃ := h₂.extend (.buffer (TsIndexer.packetsWithPcr 1 0)) trivial rfl
  have hapart : Apart (spacing none) ⟨⟨0, 0⟩, 0x100⟩ ⟨⟨111111, 188⟩, 0x100⟩ :=
    (List.isChain_cons_cons.mp (hall _ h₃)).1
  revert hapart
  unfold Apart
  decide

/-- For `delta` unset or set to a value of its range, whatever the buffers: consecutive
associations keep the declared distance in every run if and only if `delta` has been
set. -/
theorem associations_spaced_iff (hrange : ∀ value ∈ delta, 0 ≤ value ∧ value ≤ 10000) :
    (∀ s, Reach step deltaKept (start delta) s → s.added.IsChain (Apart (spacing delta))) ↔
      delta.isSome := by
  cases delta with
  | none => exact iff_of_false unset_is_nanoseconds Bool.false_ne_true
  | some value =>
      refine iff_of_true ?_ rfl
      intro s h
      have hspaced : Spaced (value * gstMsecond) s :=
        h.invariant (.of_start (hrange value rfl)) fun _ _ _ hspaced hok hs => hspaced.step hok hs
      exact hspaced.apart.isChain

/-- With 1000 milliseconds, for the references of a run. -/
theorem associations_spaced_iff_second : ∃ s, Reach step deltaKept (start (some 1000)) s ∧
    s.added = [⟨⟨0, 0⟩, 0x100⟩, ⟨⟨372827022222, 376⟩, 0x100⟩] ∧
    s.added.IsChain (Apart (spacing (some 1000))) := by
  have h₀ : Reach step deltaKept (start (some 1000)) _ := .refl
  have h₁ := h₀.extend (.setPcrPid 0x100) trivial rfl
  have h₂ := h₁.extend (.buffer (referencePacket 1)) trivial rfl
  -- a reference that is too early
  have h₃ := h₂.extend (.buffer (referencePacket 1)) trivial rfl
  have h₄ := h₃.extend (.buffer (referencePacket 2)) trivial rfl
  have hrange : ∀ value ∈ some (1000 : ℤ), 0 ≤ value ∧ value ≤ 10000 := by
    intro value hvalue
    cases hvalue
    decide
  exact ⟨_, h₄, rfl, (associations_spaced_iff hrange).mpr rfl _ h₄⟩

end Indexing

end TimeShift
