import TimeShift.Cache.Controls

/-!
# Stopping a recording

To stop, the element asks the migration thread to stop and joins it, with its lock held:
until then nothing happens to the cache but rounds of the thread and buffers that are
freed. The thread looks at the request before it copies a slot, and heeds it only when the
file is to be removed.

`stop_ends`: the stop waits for a bounded number of rounds, whatever the platform answers;
when the file is to be removed, nothing is written to it any more.
-/

set_option linter.unusedSectionVars false

namespace TimeShift

open Bytes Machine

/-- Where a cache is between its start and its end. -/
inductive Phase where
  | running
  | stopping
  | stopped
deriving DecidableEq, Repr

/-- A session that is being stopped, with the file that it had when the stop began, and the
rounds of the thread since. -/
structure Closing (n : ℕ) where
  session : Session n
  phase : Phase
  atStop : Option File
  rounds : ℕ

/-- The operations on a cache, the property `recording-remove` and the two parts of
`gst_shifter_cache_stop_recording`. -/
inductive ClosingOp where
  | cache (l : Label)
  | setAutoremove (value : Bool)
  | stopRequest
  | stopJoin

namespace Closing

open Cache Session

variable {n : ℕ} [NeZero n] {s s' : Closing n} {b : Bool}

def init (n : ℕ) [NeZero n] (memory : Fin n → ℕ → UInt8) (file : Option File) : Closing n where
  session := Session.init n memory file
  phase := .running
  atStop := none
  rounds := 0

/-- What can happen while the element waits for the thread, and after it. -/
def allows : Phase → Op → Bool
  | .running, _ => true
  | .stopping, .migrate => true
  | _, .release _ => true
  | _, _ => false

/-- The rounds that an operation makes. -/
def roundsOf : Op → ℕ
  | .migrate => 1
  | _ => 0

/-- One step; `none` when it cannot be made. -/
def step (s : Closing n) : ClosingOp → Option (Closing n)
  | .cache l =>
    if allows s.phase l.1 then
      (s.session.step l).map fun t => { s with session := t, rounds := s.rounds + roundsOf l.1 }
    else none
  | .setAutoremove value =>
    if s.phase = .running then
      some { s with
        session := { s.session with cache := { s.session.cache with autoremove := value } } }
    else none
  | .stopRequest =>
    if s.phase = .running then
      some { s with
        session := { s.session with cache := s.session.cache.stopRequest }
        phase := .stopping
        atStop := s.session.cache.file
        rounds := 0 }
    else none
  | .stopJoin =>
    if s.phase = .stopping then
      s.session.cache.stopJoin.map fun c =>
        { s with session := { s.session with cache := c }, phase := .stopped }
    else none

theorem step_cache {l : Label} (h : s.step (.cache l) = some s') :
    allows s.phase l.1 = true ∧ ∃ t, s.session.step l = some t ∧
      s' = { s with session := t, rounds := s.rounds + roundsOf l.1 } := by
  unfold step at h
  dsimp only at h
  split at h
  · rename_i hallows
    rcases Option.map_eq_some_iff.mp h with ⟨t, ht, rfl⟩
    exact ⟨hallows, t, ht, rfl⟩
  · cases h

theorem step_setAutoremove {value : Bool} (h : s.step (.setAutoremove value) = some s') :
    s.phase = .running ∧ s' = { s with
      session := { s.session with cache := { s.session.cache with autoremove := value } } } := by
  unfold step at h
  dsimp only at h
  split at h
  · rename_i hphase
    cases h
    exact ⟨hphase, rfl⟩
  · cases h

theorem step_stopRequest (h : s.step .stopRequest = some s') :
    s.phase = .running ∧ s' = { s with
      session := { s.session with cache := s.session.cache.stopRequest }
      phase := .stopping
      atStop := s.session.cache.file
      rounds := 0 } := by
  unfold step at h
  dsimp only at h
  split at h
  · rename_i hphase
    cases h
    exact ⟨hphase, rfl⟩
  · cases h

theorem step_stopJoin (h : s.step .stopJoin = some s') :
    s.phase = .stopping ∧
      (s.session.cache.thread = none ∨ s.session.cache.thread = some .finished) ∧
      s' = { s with
        session := { s.session with
          cache := { s.session.cache with thread := none, isRecording := false } }
        phase := .stopped } := by
  unfold step at h
  dsimp only at h
  split at h
  · rename_i hphase
    rcases Option.map_eq_some_iff.mp h with ⟨c, hc, rfl⟩
    rcases stopJoin_eq hc with ⟨hended, rfl⟩
    exact ⟨hphase, hended, rfl⟩
  · cases h

/-- While the element waits, only the rounds of the thread and frees are left. -/
theorem of_allows_stopping {op : Op} (h : allows .stopping op = true) :
    op = .migrate ∨ ∃ k, op = .release k := by
  cases op with
  | migrate => exact Or.inl rfl
  | release k => exact Or.inr ⟨k, rfl⟩
  | push data => cases h
  | pop drain => cases h
  | seek offset => cases h
  | startRecording => cases h
  | reload drain => cases h

/-- Once the thread has been joined, only frees are left. -/
theorem of_allows_stopped {op : Op} (h : allows .stopped op = true) : ∃ k, op = .release k := by
  cases op with
  | release k => exact ⟨k, rfl⟩
  | migrate => cases h
  | push data => cases h
  | pop drain => cases h
  | seek offset => cases h
  | startRecording => cases h
  | reload drain => cases h

/-! ## How long the stop waits -/

/-- The rounds that the thread makes at most until it has ended. -/
def left (c : Cache n) : ℕ :=
  match c.thread with
  | some .created => n + 2
  | some (.walking i _) => n - i + 1
  | _ => 0

theorem left_le_max (c : Cache n) : left c ≤ n + 2 := by
  unfold left
  split <;> omega

/-- Each round brings the end nearer, whatever the platform answers. -/
theorem left_migrationThread (c : Cache n) (p : Platform) :
    left (c.migrationThread p) ≤ left c - 1 := by
  unfold migrationThread
  cases hthread : c.thread with
  | none => simp [left, hthread]
  | some t =>
      cases t with
      | created => simp [left, hthread]
      | finished => simp [left, hthread]
      | walking i j =>
          have hleft : left c = n - i + 1 := by simp [left, hthread]
          rw [hleft]
          dsimp only
          split
          · rename_i hi
            have hnext : ∀ c' : Cache n, c'.thread = some (.walking (i + 1) (j + 1)) →
                left c' ≤ n - i + 1 - 1 := by
              intro c' hc'
              simp only [left, hc']
              omega
            repeat' split
            all_goals first
              | exact hnext _ rfl
              | exact Nat.zero_le _
          · exact Nat.zero_le _

/-- While the element waits, the thread comes nearer to its end with each round; when the
file is to be removed, it stays as it was. -/
structure Waiting (s : Closing n) : Prop where
  left_le : s.phase = .stopping → left s.session.cache ≤ n + 2 - s.rounds
  requested : s.phase = .stopping → s.session.cache.stopRecording = true
  kept : s.phase ≠ .running → s.session.cache.autoremove = true →
    s.session.cache.file = s.atStop

/-- A thread that is asked to stop, and whose file is to be removed, does not write. -/
theorem migrationThread_stopped (c : Cache n) (p : Platform) (hstop : c.stopRecording = true)
    (hremove : c.autoremove = true) : (c.migrationThread p).file = c.file := by
  unfold migrationThread
  cases hthread : c.thread with
  | none => rfl
  | some t =>
      cases t with
      | created => rfl
      | finished => rfl
      | walking i j =>
          dsimp only
          split
          · split
            · rfl
            · rw [hstop, hremove]
              rfl
          · rfl

namespace Waiting

theorem of_running (h : s.phase = .running) : s.Waiting := by
  constructor
  · intro habs
    rw [h] at habs
    cases habs
  · intro habs
    rw [h] at habs
    cases habs
  · intro habs
    exact absurd h habs

/-- A round brings the thread nearer to its end. -/
theorem migrate (h : s.Waiting) (hphase : s.phase = .stopping) (p : Platform) :
    Waiting { s with
      session := { s.session with cache := s.session.cache.migrationThread p }
      rounds := s.rounds + 1 } := by
  have hleft := h.left_le hphase
  have hstop := h.requested hphase
  have hcontrols := SameControls.migrationThread s.session.cache p
  have hcloser := left_migrationThread s.session.cache p
  constructor
  · intro _
    show left (s.session.cache.migrationThread p) ≤ n + 2 - (s.rounds + 1)
    omega
  · intro _
    exact hcontrols.stopRecording.trans hstop
  · intro _ hremove
    have hremove : s.session.cache.autoremove = true := hcontrols.autoremove.symm.trans hremove
    show (s.session.cache.migrationThread p).file = s.atStop
    rw [migrationThread_stopped _ p hstop hremove]
    exact h.kept (by rw [hphase]; decide) hremove

/-- What is done to the cache while the element waits, and after it. -/
theorem cache (h : s.Waiting) {l : Label} (hs : s.step (.cache l) = some s') : s'.Waiting := by
  rcases step_cache hs with ⟨hallows, t, ht, rfl⟩
  rcases l with ⟨op, p⟩
  cases hphase : s.phase with
  | running => exact .of_running rfl
  | stopping =>
      have hkept := h.kept (by rw [hphase]; decide)
      rw [hphase] at hallows
      rcases of_allows_stopping hallows with rfl | ⟨k, rfl⟩
      · rw [step_migrate ht]
        have hround := h.migrate hphase p
        rwa [hphase] at hround
      · rcases step_release ht with ⟨x, -, rfl⟩
        exact ⟨fun _ => h.left_le hphase, fun _ => h.requested hphase, fun _ => hkept⟩
  | stopped =>
      have hkept := h.kept (by rw [hphase]; decide)
      rw [hphase] at hallows
      rcases of_allows_stopped hallows with ⟨k, rfl⟩
      rcases step_release ht with ⟨x, -, rfl⟩
      exact ⟨by simp, by simp, fun _ => hkept⟩

theorem step (h : s.Waiting) {l : ClosingOp} (hs : s.step l = some s') : s'.Waiting := by
  cases l with
  | cache l => exact h.cache hs
  | setAutoremove value =>
      rcases step_setAutoremove hs with ⟨hphase, rfl⟩
      exact .of_running hphase
  | stopRequest =>
      rcases step_stopRequest hs with ⟨-, rfl⟩
      exact ⟨fun _ => left_le_max _, fun _ => rfl, fun _ _ => rfl⟩
  | stopJoin =>
      rcases step_stopJoin hs with ⟨hphase, -, rfl⟩
      exact ⟨by simp, by simp, fun _ => h.kept (by rw [hphase]; decide)⟩

end Waiting

/-- In every run, whatever the platform answers: a stop that has been asked for can be
completed after `n + 2` rounds of the thread, for a ring of `n` slots; and when the file is
to be removed, nothing has been written to it since. -/
theorem stop_ends {memory : Fin n → ℕ → UInt8} {file : Option File}
    (h : Reach step (fun _ _ => True) (init n memory file) s) :
    (s.phase = .stopping → n + 2 ≤ s.rounds → (s.step .stopJoin).isSome) ∧
      (s.phase ≠ .running → s.session.cache.autoremove = true →
        s.session.cache.file = s.atStop) := by
  have hwaiting : s.Waiting := h.invariant (.of_running rfl) fun _ _ _ hw _ hs => hw.step hs
  refine ⟨?_, hwaiting.kept⟩
  intro hphase hrounds
  have hleft := hwaiting.left_le hphase
  have hstop := hwaiting.requested hphase
  have hended : s.session.cache.thread = none ∨ s.session.cache.thread = some .finished := by
    cases hthread : s.session.cache.thread with
    | none => exact Or.inl rfl
    | some t =>
        cases t with
        | created =>
            simp only [left, hthread] at hleft
            omega
        | walking i j =>
            simp only [left, hthread] at hleft
            omega
        | finished => exact Or.inr rfl
  unfold step
  rw [if_pos hphase, Option.isSome_map]
  unfold stopJoin
  rcases hended with hnone | hfinished
  · rw [hnone]
    simp [hstop]
  · rw [hfinished]
    simp [hstop]

/-- A thread is stopped at a slot that it would have copied. -/
theorem stop_ends_aborted : ∃ s : Closing 1,
    Reach step (fun _ _ => True) (init 1 (fun _ _ => 0) (some .new)) s ∧
      s.rounds = 3 ∧ (s.step .stopJoin).isSome ∧ s.session.cache.file = s.atStop := by
  have h₀ : Reach step (fun _ _ => True) (init 1 (fun _ _ => 0) (some .new)) _ := .refl
  have h₁ := h₀.extend (.cache (.push ⟨cacheSlotSize + 1, fun _ => 7⟩, .allOk)) trivial rfl
  have h₂ := h₁.extend .stopRequest trivial rfl
  have h₃ := h₂.extend (.cache (.migrate, .allOk)) trivial rfl
  have h₄ := h₃.extend (.cache (.migrate, .allOk)) trivial rfl
  have h₅ := h₄.extend (.cache (.migrate, .allOk)) trivial rfl
  have hends := stop_ends h₅
  exact ⟨_, h₅, rfl, hends.1 rfl (by decide), hends.2 (by decide) rfl⟩

end Closing

end TimeShift
