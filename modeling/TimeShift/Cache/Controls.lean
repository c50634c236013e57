import TimeShift.Cache.StartRecording

/-!
# What the operations leave alone

No operation on the data opens or closes the file of a cache, or touches `autoremove`
or `stop_recording` (`SameControls`). A thread that migrates the ring stays one until it
is joined, and a new one is created where there is none (`Threaded`).
-/

set_option linter.unusedSectionVars false

namespace TimeShift

open Bytes

namespace Cache

variable {n : ℕ} [NeZero n] {c c' c'' : Cache n} {p : Platform}

/-- The cache has a file or not, and is told the same. -/
structure SameControls (c c' : Cache n) : Prop where
  file : c'.file.isSome = c.file.isSome
  autoremove : c'.autoremove = c.autoremove
  stopRecording : c'.stopRecording = c.stopRecording

namespace SameControls

theorem rfl : SameControls c c := ⟨.refl _, .refl _, .refl _⟩

theorem trans (h : SameControls c c') (h' : SameControls c' c'') : SameControls c c'' where
  file := h'.file.trans h.file
  autoremove := h'.autoremove.trans h.autoremove
  stopRecording := h'.stopRecording.trans h.stopRecording

/-- Filling the slots of the ring. -/
theorem ring (h : RingFrame c c') : SameControls c c' := by
  rcases h with ⟨_, _, _, _, _, _, rfl⟩
  exact ⟨.refl _, .refl _, .refl _⟩

/-- Changing the states of the slots. -/
theorem restate (h : Restate c c') : SameControls c c' := by
  rcases h.frame with ⟨_, _, _, _, rfl⟩
  exact ⟨.refl _, .refl _, .refl _⟩

theorem reload (c : Cache n) (drain : Bool) (p : Platform) :
    SameControls c (c.reload drain p) := by
  rcases c.reload_frame drain p with ⟨_, _, _, _, _, _, heq⟩
  rw [heq]
  exact ⟨.refl _, .refl _, .refl _⟩

/-- What is in the file changes, not whether there is one. -/
theorem diskWrite (c : Cache n) (data : Block UInt8) (p : Platform) :
    SameControls c (c.diskWrite data p) := by
  unfold Cache.diskWrite
  cases hfile : c.file with
  | none => exact ⟨by rw [hfile], .refl _, .refl _⟩
  | some f =>
      dsimp only
      split
      · exact ⟨by rw [hfile], .refl _, .refl _⟩
      · exact ⟨by rw [hfile]; exact .refl _, .refl _, .refl _⟩

theorem startRecording (c : Cache n) (p : Platform) :
    SameControls c (c.startRecording p).1 := by
  rcases c.startRecording_cases p with ⟨heq, -⟩ | ⟨-, -, -, heq⟩
  · rw [heq]
    exact .rfl
  · rw [heq]
    exact ⟨.refl _, .refl _, .refl _⟩

/-- A push fills slots, and may start the recording and write to the file. -/
theorem push (c : Cache n) (data : Block UInt8) (p : Platform) :
    SameControls c (c.push data p) := by
  cases hrec : c.isRecording with
  | false =>
      rcases push_frame hrec data p with ⟨c₁, hframe, heq | ⟨k, heq⟩⟩
      · rw [heq]
        exact .ring hframe
      · rw [heq]
        exact ((SameControls.ring hframe).trans (.startRecording c₁ p)).trans (.diskWrite _ _ p)
  | true =>
      rw [push_recording hrec]
      split
      · exact (SameControls.diskWrite c data p).trans (.reload _ false p)
      · exact .diskWrite c data p

theorem pop (c : Cache n) (drain : Bool) (p : Platform) :
    SameControls c (c.pop drain p).1 := by
  -- the head slot is promoted, taken, and the ring reloaded behind it
  apply pop_induct (P := SameControls c) ?_ ?_ ?_ .rfl
  · intro c₁ h₁
    by_cases hst : (c₁.slots c₁.head).state = .part
    · rw [promote_of_part hst]
      exact h₁.trans ⟨.refl _, .refl _, .refl _⟩
    · rw [promote_of_ne hst]
      exact h₁
  · intro c₁ hfull h₁
    exact h₁.trans (.restate (take_restate hfull))
  · intro c₁ _ _ h₁
    exact h₁.trans (.reload c₁ drain p)

theorem seek {o : ℕ} (h : c.seek o p = some c') : SameControls c c' := by
  -- in the ring, on the disk, or nowhere
  rcases seek_cases h with ⟨-, -, hring⟩ | ⟨-, -, rfl⟩ | ⟨-, -, rfl⟩
  · exact .restate (seekRing_restate hring)
  · refine trans ?_ (.reload _ false p)
    exact ⟨.refl _, .refl _, .refl _⟩
  · exact .rfl

theorem migrationThread (c : Cache n) (p : Platform) :
    SameControls c (c.migrationThread p) := by
  unfold Cache.migrationThread
  split
  · exact ⟨.refl _, .refl _, .refl _⟩
  · dsimp only
    repeat' split
    all_goals exact ⟨by simp_all, .refl _, .refl _⟩
  · exact .rfl

theorem release (c : Cache n) (i : Fin n) : SameControls c (c.release i) :=
  ⟨.refl _, .refl _, .refl _⟩

end SameControls

/-! ## The thread -/

/-- A thread that is there stays until it is joined. -/
def Threaded (c c' : Cache n) : Prop := c.thread.isSome → c'.thread.isSome

/-- A start comes to create a thread. -/
def attempts (c : Cache n) : Bool := c.file.isSome && c.thread.isNone && !c.stopRecording

/-- A start that finds a thread leaves everything as it is. -/
theorem threaded_startRecording (c : Cache n) (p : Platform) :
    Threaded c (c.startRecording p).1 := by
  intro hsome
  rcases c.startRecording_cases p with ⟨heq, -⟩ | ⟨-, hnone, -, -⟩
  · rw [heq]
    exact hsome
  · rw [hnone] at hsome
    cases hsome

/-- It creates the thread, when the platform does. -/
theorem startRecording_attempts (h : c.attempts = true) (hp : p.threadCreate = true) :
    (c.startRecording p).1.thread.isSome := by
  unfold attempts at h
  simp only [Bool.and_eq_true, Option.isNone_iff_eq_none, Bool.not_eq_true'] at h
  rcases h with ⟨⟨hfile, hnone⟩, hstop⟩
  rcases c.startRecording_cases p with ⟨-, hno | hno | hno⟩ | ⟨-, -, -, heq⟩
  · rw [hno] at hfile
    cases hfile
  · exact absurd hnone hno
  · rw [hno] at hstop
    cases hstop
  · rw [heq, hp]
    rfl

/-- A push comes to create a thread: the recording is set up right before that, and
nowhere else. -/
def pushAttempts (c : Cache n) (data : Block UInt8) (p : Platform) : Bool :=
  !c.isRecording && (c.push data p).isRecording

/-- Then it starts the recording, with the ring filled up, and writes what is left. -/
theorem pushAttempts_spec {data : Block UInt8} (h : c.pushAttempts data p = true) :
    ∃ c₁ k, RingFrame c c₁ ∧ c₁.attempts = true ∧
      c.push data p = (c₁.startRecording p).1.diskWrite (data.drop k) p := by
  unfold pushAttempts at h
  rw [Bool.and_eq_true, Bool.not_eq_true'] at h
  rcases h with ⟨hno, hrec⟩
  rcases push_frame hno data p with ⟨c₁, hframe, heq | ⟨k, heq⟩⟩
  · -- all of it has gone to the ring, and nothing records
    rcases hframe with ⟨_, _, _, _, _, _, hc₁⟩
    rw [heq, hc₁, hno] at hrec
    cases hrec
  · refine ⟨c₁, k, hframe, ?_, heq⟩
    rw [heq, diskWrite_isRecording] at hrec
    have hno₁ : c₁.isRecording = false := by
      rcases hframe with ⟨_, _, _, _, _, _, hc₁⟩
      rw [hc₁]
      exact hno
    rcases c₁.startRecording_cases p with ⟨hsame, -⟩ | ⟨hfile, hnone, hstop, -⟩
    · rw [hsame, hno₁] at hrec
      cases hrec
    · simp [attempts, hfile, hnone, hstop]

/-- A push leaves the thread alone, or starts the recording. -/
theorem threaded_push (c : Cache n) (data : Block UInt8) (p : Platform) :
    Threaded c (c.push data p) := by
  rcases SameDisk.push c data p with hsame | ⟨hno, -⟩
  · intro hsome
    rw [hsame.thread]
    exact hsome
  · intro hsome
    rcases push_frame hno data p with ⟨c₁, hframe, heq | ⟨k, heq⟩⟩
    · rw [heq, (SameDisk.ring hframe).thread]
      exact hsome
    · rw [heq, (SameDisk.diskWrite _ _ p).thread]
      exact c₁.threaded_startRecording p ((SameDisk.ring hframe).thread ▸ hsome)

/-- A push that comes to create a thread finds none. -/
theorem pushAttempts_thread {data : Block UInt8} (h : c.pushAttempts data p = true) :
    c.thread = none ∧ (p.threadCreate = true → (c.push data p).thread.isSome) := by
  rcases pushAttempts_spec h with ⟨c₁, k, hframe, hattempts, heq⟩
  have hnone : c₁.thread = none := by
    unfold attempts at hattempts
    simp only [Bool.and_eq_true, Option.isNone_iff_eq_none] at hattempts
    exact hattempts.1.2
  refine ⟨(SameDisk.ring hframe).thread ▸ hnone, ?_⟩
  intro hp
  rw [heq, (SameDisk.diskWrite _ _ p).thread]
  exact startRecording_attempts hattempts hp

/-- A round of the thread ends it at most; the join takes it away. -/
theorem threaded_migrationThread (c : Cache n) (p : Platform) :
    Threaded c (c.migrationThread p) := by
  intro hsome
  unfold Cache.migrationThread
  split
  · rfl
  · dsimp only
    repeat' split
    all_goals rfl
  · exact hsome

end Cache

namespace Session

open Cache

variable {n : ℕ} [NeZero n] {s s' : Session n}

/-- No step of a session touches the controls. -/
theorem step_controls {l : Label} (hs : s.step l = some s') : SameControls s.cache s'.cache := by
  rcases l with ⟨op, p⟩
  cases op with
  | push data =>
      rw [step_push hs]
      exact .push _ data p
  | pop drain =>
      rw [step_pop hs, afterPop_cache]
      exact .pop _ drain p
  | release k =>
      rcases step_release hs with ⟨x, -, rfl⟩
      exact .release _ _
  | seek offset =>
      rcases step_seek hs with ⟨-, c, hc, rfl⟩
      exact .seek hc
  | startRecording =>
      rw [step_startRecording hs]
      exact .startRecording _ p
  | migrate =>
      rw [step_migrate hs]
      exact .migrationThread _ p
  | reload drain =>
      rw [step_reload hs]
      exact .reload _ drain p

end Session

end TimeShift
