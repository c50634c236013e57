import TimeShift.Cache.Accounting

/-!
# Starting the recording

`gst_shifter_cache_start_recording` sets up the recording before it creates the thread
that migrates the ring, and leaves it set up when that fails. When the platform creates
the thread, a start that returns `FALSE` has changed nothing, a recording has a thread,
and no push writes to a file that nobody migrates the ring to
(`failed_start_changes_nothing`).

The runs include `gst_shifter_cache_stop_recording`, in two steps: it asks the thread to
stop, and joins it. In between, other operations may come.
-/

set_option linter.unusedSectionVars false

namespace TimeShift

open Bytes Machine

namespace Cache

variable {n : ℕ} [NeZero n] {c c' : Cache n} {p : Platform} {o : ℕ}

/-! ## Asking the thread to stop -/

/-- The first part of `gst_shifter_cache_stop_recording`. -/
def stopRequest (c : Cache n) : Cache n := { c with stopRecording := true }

/-- The second part, once the thread has ended, or when there is none; `none` when the
join still waits. -/
def stopJoin (c : Cache n) : Option (Cache n) :=
  match c.thread with
  | none | some .finished =>
    if c.stopRecording then some { c with thread := none, isRecording := false } else none
  | _ => none

/-- The join goes on when there is no thread that runs. -/
theorem stopJoin_eq (h : c.stopJoin = some c') :
    (c.thread = none ∨ c.thread = some .finished) ∧
      c' = { c with thread := none, isRecording := false } := by
  unfold stopJoin at h
  split at h
  · rename_i hthread
    split at h
    · cases h
      exact ⟨Or.inl hthread, rfl⟩
    · cases h
  · rename_i hthread
    split at h
    · cases h
      exact ⟨Or.inr hthread, rfl⟩
    · cases h
  · cases h

/-- Nothing else touches the request. -/
theorem reload_stopRecording (c : Cache n) (drain : Bool) (p : Platform) :
    (c.reload drain p).stopRecording = c.stopRecording := by
  rcases c.reload_frame drain p with ⟨_, _, _, _, _, _, heq⟩
  rw [heq]

theorem diskWrite_stopRecording (c : Cache n) (data : Block UInt8) (p : Platform) :
    (c.diskWrite data p).stopRecording = c.stopRecording := by
  rcases c.diskWrite_eq data p with ⟨_, _, _, _, heq⟩
  rw [heq]

theorem startRecording_stopRecording (c : Cache n) (p : Platform) :
    (c.startRecording p).1.stopRecording = c.stopRecording := by
  rcases c.startRecording_cases p with ⟨heq, -⟩ | ⟨-, -, -, heq⟩
  · rw [heq]
  · rw [heq]

theorem push_stopRecording (c : Cache n) (data : Block UInt8) (p : Platform) :
    (c.push data p).stopRecording = c.stopRecording := by
  cases hrec : c.isRecording with
  | false =>
      rcases push_frame hrec data p with ⟨c₁, ⟨_, _, _, _, _, _, rfl⟩, heq | ⟨k, heq⟩⟩
      · rw [heq]
      · rw [heq, diskWrite_stopRecording, startRecording_stopRecording]
  | true =>
      rw [push_recording hrec]
      split
      · rw [reload_stopRecording, diskWrite_stopRecording]
      · exact diskWrite_stopRecording c data p

theorem Restate.stopRecording (h : Restate c c') : c'.stopRecording = c.stopRecording := by
  rcases h.frame with ⟨_, _, _, _, heq⟩
  rw [heq]

theorem pop_stopRecording (c : Cache n) (drain : Bool) (p : Platform) :
    (c.pop drain p).1.stopRecording = c.stopRecording := by
  apply pop_induct (P := fun c₁ => c₁.stopRecording = c.stopRecording) ?_ ?_ ?_ rfl
  · intro c₁ h₁
    by_cases hst : (c₁.slots c₁.head).state = .part
    · rw [promote_of_part hst]
      exact h₁
    · rw [promote_of_ne hst]
      exact h₁
  · intro c₁ hfull h₁
    exact (take_restate hfull).stopRecording.trans h₁
  · intro c₁ _ _ h₁
    rw [reload_stopRecording]
    exact h₁

theorem seek_stopRecording (h : c.seek o p = some c') : c'.stopRecording = c.stopRecording := by
  rcases seek_cases h with ⟨-, -, hring⟩ | ⟨-, -, rfl⟩ | ⟨-, -, rfl⟩
  · exact (seekRing_restate hring).stopRecording
  · unfold seekDisk
    rw [reload_stopRecording]
    rfl
  · rfl

/-! ## Recordings have a thread -/

/-- A start comes to create the thread. -/
def StartsThread (c : Cache n) : Prop :=
  c.file.isSome ∧ c.thread = none ∧ c.stopRecording = false

/-- Then it returns whether the thread has been created. -/
theorem startRecording_result (h : c.StartsThread) :
    (c.startRecording p).2 = p.threadCreate := by
  rcases h with ⟨hfile, hnone, hstop⟩
  rcases Option.isSome_iff_exists.mp hfile with ⟨f, hf⟩
  cases hcreate : p.threadCreate with
  | true => simp [startRecording, hf, hnone, hstop, hcreate]
  | false => simp [startRecording, hf, hnone, hstop, hcreate]

/-- Until it is asked to stop, a recording has a thread. -/
def Attended (c : Cache n) : Prop :=
  c.stopRecording = false → c.isRecording = true → c.thread ≠ none

theorem Attended.sameDisk (h : Attended c) (hs : SameDisk c c')
    (hstop : c'.stopRecording = c.stopRecording) : Attended c' := by
  unfold Attended
  rw [hstop, hs.isRecording, hs.thread]
  exact h

theorem Attended.startRecording (h : Attended c) (hp : c.StartsThread → p.threadCreate = true) :
    Attended (c.startRecording p).1 := by
  rcases c.startRecording_cases p with ⟨heq, -⟩ | ⟨hfile, hnone, hstop, heq⟩
  · rw [heq]
    exact h
  · rw [heq, hp ⟨hfile, hnone, hstop⟩]
    intro _ _
    simp

theorem Attended.migrationThread (h : Attended c) (p : Platform) :
    Attended (c.migrationThread p) := by
  have hstop : (c.migrationThread p).stopRecording = c.stopRecording := by
    rcases c.migrationThread_eq p with ⟨_, _, _, _, _, heq, -⟩
    rw [heq]
  intro hstop' hrec
  rw [hstop] at hstop'
  rw [migrationThread_isRecording] at hrec
  have hsome := h hstop' hrec
  -- a thread may end, but stays one to be joined
  unfold Cache.migrationThread
  split
  · simp
  · dsimp only
    repeat' split
    all_goals simp
  · exact hsome

/-- A start of an attended cache that returns `FALSE` has changed nothing if and only if
it did not fail to create a thread. -/
theorem Attended.startRecording_unchanged_iff (h : Attended c) :
    ((c.startRecording p).2 = false → (c.startRecording p).1 = c) ↔
      (c.StartsThread → p.threadCreate = true) := by
  constructor
  · intro hsame hstarts
    by_contra hcreate
    have hfalse : (c.startRecording p).2 = false := by
      rw [startRecording_result hstarts]
      simpa using hcreate
    rcases hstarts with ⟨hfile, hnone, hstop⟩
    rcases c.startRecording_cases p with ⟨-, hno | hno | hno⟩ | ⟨-, -, -, heq⟩
    · rw [hno] at hfile
      cases hfile
    · exact hno hnone
    · rw [hno] at hstop
      cases hstop
    · -- the recording would have been on before
      have hrec : c.isRecording = true := by
        rw [← hsame hfalse, heq]
      exact h hstop hrec hnone
  · intro hp hfalse
    rcases c.startRecording_cases p with ⟨heq, -⟩ | ⟨hfile, hnone, hstop, -⟩
    · exact heq
    · have hstarts : c.StartsThread := ⟨hfile, hnone, hstop⟩
      rw [startRecording_result hstarts, hp hstarts] at hfalse
      cases hfalse

/-- A push that writes to the file leaves a thread behind. -/
theorem Attended.push_file (h : Attended c) {data : Block UInt8} (hstop : c.stopRecording = false)
    (hp : c.isRecording = false → c.StartsThread → p.threadCreate = true)
    (hfile : (c.push data p).file ≠ c.file) : (c.push data p).thread ≠ none := by
  cases hrec : c.isRecording with
  | true =>
      rcases SameDisk.push c data p with hsame | ⟨hno, -⟩
      · rw [hsame.thread]
        exact h hstop hrec
      · rw [hno] at hrec
        cases hrec
  | false =>
      rcases push_frame hrec data p with ⟨c₁, hframe, heq | ⟨k, heq⟩⟩
      · rcases hframe with ⟨_, _, _, _, _, _, hc₁⟩
        rw [heq, hc₁] at hfile
        exact absurd rfl hfile
      · rcases hframe with ⟨_, _, _, _, _, _, hc₁⟩
        rw [heq, (SameDisk.diskWrite _ _ _).thread]
        rcases c₁.startRecording_cases p with ⟨hsame, hno | hno | hno⟩ | ⟨hsome, hnone, hgo, hstart⟩
        · -- there is no file to write to
          rw [heq, hsame, Cache.diskWrite, hno] at hfile
          rw [hc₁] at hno hfile
          exact absurd rfl hfile
        · rw [hsame]
          exact hno
        · rw [hc₁] at hno
          rw [hstop] at hno
          cases hno
        · rw [hc₁] at hsome hnone hgo
          rw [hstart, hp hrec ⟨hsome, hnone, hgo⟩]
          simp

end Cache

/-! ## Runs -/

/-- The operations on a cache, and those that stop the recording. -/
inductive Control where
  | cache (l : Label)
  | stopRequest
  | stopJoin

namespace Session

open Cache

variable {n : ℕ} [NeZero n] {s s' : Session n} {p : Platform}

/-- One step of a session whose recording may be stopped. -/
def control (s : Session n) : Control → Option (Session n)
  | .cache l => s.step l
  | .stopRequest => some { s with cache := s.cache.stopRequest }
  | .stopJoin => s.cache.stopJoin.map fun c => { s with cache := c }

/-- Where the step comes to create the migration thread, the thread can be created. -/
def threadsCreated (s : Session n) : Control → Prop
  | .cache (.startRecording, p) => s.cache.StartsThread → p.threadCreate = true
  | .cache (.push _, p) =>
    s.cache.isRecording = false → s.cache.StartsThread → p.threadCreate = true
  | _ => True

theorem attended_push {c : Cache n} (h : Attended c) {data : Block UInt8}
    (hp : c.isRecording = false → c.StartsThread → p.threadCreate = true) :
    Attended (c.push data p) := by
  cases hrec : c.isRecording with
  | true =>
      rcases SameDisk.push c data p with hsame | ⟨hno, -⟩
      · exact h.sameDisk hsame (push_stopRecording c data p)
      · rw [hno] at hrec
        cases hrec
  | false =>
      rcases push_frame hrec data p with ⟨c₁, hframe, heq | ⟨k, heq⟩⟩
      · have hstop := push_stopRecording c data p
        rw [heq] at hstop ⊢
        exact h.sameDisk (.ring hframe) hstop
      · have hstop : c₁.stopRecording = c.stopRecording := by
          rcases hframe with ⟨_, _, _, _, _, _, hc₁⟩
          rw [hc₁]
        have h₁ := h.sameDisk (.ring hframe) hstop
        have hp₁ : c₁.StartsThread → p.threadCreate = true := by
          intro hstarts
          rcases hframe with ⟨_, _, _, _, _, _, hc₁⟩
          rw [hc₁] at hstarts
          exact hp hrec hstarts
        rw [heq]
        exact (h₁.startRecording hp₁).sameDisk (.diskWrite _ _ _) (diskWrite_stopRecording _ _ _)

theorem attended_step (h : Attended s.cache) {l : Control} (hok : threadsCreated s l)
    (hs : s.control l = some s') : Attended s'.cache := by
  cases l with
  | cache l =>
      rcases l with ⟨op, p⟩
      have hs : s.step (op, p) = some s' := hs
      cases op with
      | push data =>
          rw [step_push hs]
          exact attended_push h hok
      | pop drain =>
          rw [step_pop hs, afterPop_cache]
          exact h.sameDisk (.pop _ drain p) (pop_stopRecording _ drain p)
      | release k =>
          rcases step_release hs with ⟨b, -, rfl⟩
          exact h.sameDisk ⟨rfl, rfl, rfl, rfl, rfl⟩ rfl
      | seek offset =>
          rcases step_seek hs with ⟨-, c, hc, rfl⟩
          exact h.sameDisk (.seek hc) (seek_stopRecording hc)
      | startRecording =>
          rw [step_startRecording hs]
          exact h.startRecording hok
      | migrate =>
          rw [step_migrate hs]
          exact h.migrationThread p
      | reload drain =>
          rw [step_reload hs]
          exact h.sameDisk (.reload _ drain p) (reload_stopRecording _ drain p)
  | stopRequest =>
      cases hs
      intro habs
      cases habs
  | stopJoin =>
      simp only [control, Option.map_eq_some_iff] at hs
      rcases hs with ⟨c, hc, rfl⟩
      rcases stopJoin_eq hc with ⟨-, rfl⟩
      intro _ habs
      cases habs

/-- In every run in which the platform creates the threads it is asked for: a start that
returns `FALSE` changes nothing, exactly as long as it does not fail to create a thread;
until the recording is stopped it has a thread; and a push that writes to the file leaves
one that migrates the ring. -/
theorem failed_start_changes_nothing {memory : Fin n → ℕ → UInt8} {file : Option File}
    (h : Reach control threadsCreated (init n memory file) s) :
    (∀ p, ((s.cache.startRecording p).2 = false → (s.cache.startRecording p).1 = s.cache) ↔
      (s.cache.StartsThread → p.threadCreate = true)) ∧
    (s.cache.stopRecording = false → s.cache.isRecording = true → s.cache.thread ≠ none) ∧
    ∀ data p, s.cache.stopRecording = false → threadsCreated s (.cache (.push data, p)) →
      (s.cache.push data p).file ≠ s.cache.file → (s.cache.push data p).thread ≠ none := by
  have hattended : Attended s.cache :=
    h.invariant (P := fun s => Attended s.cache) (fun _ habs => nomatch habs)
      fun _ _ _ hinv hok hs => attended_step hinv hok hs
  refine ⟨?_, hattended, ?_⟩
  · intro p
    exact hattended.startRecording_unchanged_iff
  · intro data p hstop hok hfile
    exact hattended.push_file hstop hok hfile

/-- A push starts the recording, with a thread. When the thread has ended at the stop and has
been joined, the next start returns `FALSE`, and changes nothing. -/
theorem failed_start_changes_nothing_stopped : ∃ s s' : Session 1,
    Reach control threadsCreated (init 1 (fun _ _ => 0) (some .new)) s ∧
      s.cache.isRecording = true ∧ s.cache.thread ≠ none ∧
      Reach control threadsCreated (init 1 (fun _ _ => 0) (some .new)) s' ∧
      ∀ p, (s'.cache.startRecording p).2 = false ∧ (s'.cache.startRecording p).1 = s'.cache := by
  have h₀ : Reach control threadsCreated (init 1 (fun _ _ => 0) (some .new)) _ := .refl
  have h₁ := h₀.extend (.cache (.push ⟨2 * cacheSlotSize, fun _ => 7⟩, .allOk))
    (fun _ _ => rfl) rfl
  have h₂ := h₁.extend (.cache (.migrate, .allOk)) trivial rfl
  have h₃ := h₂.extend .stopRequest trivial rfl
  have h₄ := h₃.extend (.cache (.migrate, .allOk)) trivial rfl
  have h₅ := h₄.extend .stopJoin trivial rfl
  refine ⟨_, _, h₁, rfl, (failed_start_changes_nothing h₁).2.1 rfl rfl, h₅, ?_⟩
  intro p
  exact ⟨rfl, ((failed_start_changes_nothing h₅).1 p).mpr (fun habs => nomatch habs.2.2) rfl⟩

/-- On a new cache with a file, a start whose thread cannot be created returns `FALSE` and
leaves the cache recording. -/
theorem failed_start_leaves_recording :
    ¬∀ (s : Session 1) (p : Platform),
      Reach control (fun _ _ => True) (init 1 (fun _ _ => 0) (some .new)) s →
        (s.cache.startRecording p).2 = false → (s.cache.startRecording p).1 = s.cache := by
  intro hall
  have hsame := hall _ { Platform.allOk with threadCreate := false } .refl rfl
  have hrec : true = false := congrArg Cache.isRecording hsame
  cases hrec

end Session

end TimeShift
