import TimeShift.Cache.Recording
import TimeShift.Cache.Stopping

/-!
# The file of a stopped recording

When the file is to be kept, a stop waits for the whole ring to be copied: the thread does
not heed the request, so that the rounds it still makes are those of a recording that
nobody stops (`Keeping`). The file is then the stream since the position that the
recording reaches back to, up to its end, and holds nothing else
(`recording_kept_whole`); when nothing has been recorded it is empty.
-/

set_option linter.unusedSectionVars false

namespace TimeShift

open Bytes Machine

namespace Cache

variable {n : ℕ} [NeZero n] {c c' : Cache n} {p : Platform} {σ : List UInt8} {b : Bool}

/-! ## How long the file is -/

/-- The file is no longer than what the recording has written to it; before a recording it
is empty. -/
structure Tight (c : Cache n) : Prop where
  unstarted : c.isRecording = false → c.mDkOffset = none ∧ ∀ f ∈ c.file, f.len = 0
  bounded : c.isRecording = true → ∀ f ∈ c.file, f.len ≤ c.wDkPos

namespace Tight

/-- Only the recording, where it starts, the file and the write position matter. -/
theorem congr (h : Tight c) (hrec : c'.isRecording = c.isRecording)
    (hstart : c'.mDkOffset = c.mDkOffset) (hfile : c'.file = c.file)
    (hpos : c'.wDkPos = c.wDkPos) : Tight c' := by
  constructor
  · rw [hrec, hstart, hfile]
    exact h.unstarted
  · rw [hrec, hfile, hpos]
    exact h.bounded

theorem ring (h : Tight c) (hf : RingFrame c c') : Tight c' := by
  rcases hf with ⟨_, _, _, _, _, _, rfl⟩
  exact h.congr rfl rfl rfl rfl

theorem restate (h : Tight c) (hr : Restate c c') : Tight c' := by
  rcases hr.frame with ⟨_, _, _, _, rfl⟩
  exact h.congr rfl rfl rfl rfl

theorem reload (h : Tight c) (drain : Bool) (p : Platform) : Tight (c.reload drain p) := by
  rcases c.reload_frame drain p with ⟨_, _, _, _, _, _, heq⟩
  rw [heq]
  exact h.congr rfl rfl rfl rfl

theorem pop (h : Tight c) (drain : Bool) (p : Platform) : Tight (c.pop drain p).1 := by
  apply pop_induct (P := Tight) ?_ ?_ ?_ h
  · intro c₁ h₁
    rcases (SameContent.promote c₁).frame with ⟨_, _, _, _, _, heq⟩
    rw [heq]
    exact h₁.congr rfl rfl rfl rfl
  · intro c₁ hfull h₁
    exact h₁.restate (take_restate hfull)
  · intro c₁ _ _ h₁
    exact h₁.reload drain p

theorem seek (h : Tight c) {o : ℕ} (hs : c.seek o p = some c') : Tight c' := by
  rcases seek_cases hs with ⟨-, -, hring⟩ | ⟨-, -, rfl⟩ | ⟨-, -, rfl⟩
  · exact h.restate (seekRing_restate hring)
  · -- the reader is moved, and the ring reloaded from there
    unfold seekDisk
    refine Tight.reload ?_ false p
    exact h.congr rfl rfl rfl rfl
  · exact h

/-- A write at the end of what has been written takes the bound with it. -/
theorem diskWrite (h : Tight c) (hrec : c.isRecording = true) (hp : p.FilesOk)
    {data : Block UInt8} (hsize : data.size < 2 ^ 32) : Tight (c.diskWrite data p) := by
  cases hfile : c.file with
  | none =>
      have hsame : c.diskWrite data p = c := by simp [Cache.diskWrite, hfile]
      rw [hsame]
      exact h
  | some f =>
      have hlen := h.bounded hrec f hfile
      rw [diskWrite_ok hfile hp.writeSeek hp.fwrite hsize]
      constructor
      · intro hno
        rw [hrec] at hno
        cases hno
      · intro _ g hg
        cases hg
        show (f.write c.wDkPos data.byte data.size).len ≤ c.wDkPos + data.size
        unfold File.write
        dsimp only
        split <;> omega

/-- Before the recording the file is empty, so that any place to write at will do. -/
theorem startRecording (h : Tight c) (hcan : c.isRecording = true → c.thread ≠ none)
    (p : Platform) : Tight (c.startRecording p).1 := by
  rcases c.startRecording_cases p with ⟨heq, -⟩ | ⟨-, hnone, -, heq⟩
  · rw [heq]
    exact h
  · have hno : c.isRecording = false := by
      cases hrec : c.isRecording with
      | false => rfl
      | true => exact absurd hnone (hcan hrec)
    rw [heq]
    constructor
    · intro habs
      cases habs
    · intro _ f hf
      have := (h.unstarted hno).2 f hf
      omega

/-- A push starts the recording at an empty file, or writes at its end. -/
theorem push (h : Tight c) (hidle : c.isRecording = false → Idle c) (hp : p.FilesOk)
    {data : Block UInt8} (hsize : data.size < 2 ^ 32) : Tight (c.push data p) := by
  cases hrec : c.isRecording with
  | true =>
      rw [push_recording hrec]
      split
      · exact (h.diskWrite hrec hp hsize).reload false p
      · exact h.diskWrite hrec hp hsize
  | false =>
      rcases push_frame hrec data p with ⟨c₁, hframe, heq | ⟨k, heq⟩⟩
      · rw [heq]
        exact h.ring hframe
      · have h₁ := h.ring hframe
        have hidle₁ := (hidle hrec).frame hframe
        rw [heq]
        rcases c₁.startRecording_cases p with ⟨hsame, hno⟩ | ⟨-, -, -, hstart⟩
        · -- there is no file to write to
          have hnone : c₁.file = none := by
            rcases hno with hno | hno | hno
            · exact hno
            · exact absurd hidle₁.noThread hno
            · rw [hidle₁.notStopped] at hno
              cases hno
          have hskip : c₁.diskWrite (data.drop k) p = c₁ := by simp [Cache.diskWrite, hnone]
          rw [hsame, hskip]
          exact h₁
        · have hgo : (c₁.startRecording p).1.isRecording = true := by rw [hstart]
          refine (h₁.startRecording ?_ p).diskWrite hgo hp ?_
          · intro habs
            rw [hidle₁.notRecording] at habs
            cases habs
          · rw [Block.size_drop]
            omega

/-- The ring is copied into the room in front of what has been written. -/
theorem migrationThread (h : Tight c) (hr : Recorder c σ b) (hp : p.FilesOk) :
    Tight (c.migrationThread p) := by
  rcases hr with hbefore | ⟨-, ⟨l, e, hcopying⟩ | ⟨l, hcopied⟩⟩
  · -- there is no thread
    have hsame : c.migrationThread p = c := by
      simp [Cache.migrationThread, hbefore.idle.noThread]
    rw [hsame]
    exact h
  · unfold Cache.migrationThread
    cases hthread : c.thread with
    | none => exact h
    | some t =>
        cases t with
        | created => exact h.congr rfl rfl rfl rfl
        | finished => exact h
        | walking i j =>
            dsimp only
            by_cases hi : i < n
            · rw [if_pos hi]
              by_cases hst : (c.slots j).state = .empty
              · rw [if_pos hst]
                exact h.congr rfl rfl rfl rfl
              · -- the slot ends before what the recording has written behind the ring
                rcases hcopying.file with ⟨f, hf, -⟩
                have hnext := (hcopying.copy hthread hi hst hf).le
                have hwritten := hcopying.written
                have hsince := hcopying.since
                have hlen := h.bounded hcopying.recording f hf
                have hgo : ¬(c.stopRecording && c.autoremove) = true := by
                  simp [hcopying.notStopped]
                rw [if_neg hst, if_neg hgo]
                simp only [hf, hp.writeSeek, hp.fwrite, Bool.not_true, Bool.false_eq_true, if_false,
                  fwriteCount]
                constructor
                · intro habs
                  exact absurd (hcopying.recording.symm.trans habs) (by decide)
                · intro _ g hg
                  cases hg
                  show (f.write c.mDkPos (c.slots j).data (c.slots j).size).len ≤ c.wDkPos
                  unfold File.write
                  dsimp only at hnext ⊢
                  split <;> omega
            · rw [if_neg hi]
              exact h.congr rfl rfl rfl rfl
  · -- it has finished
    have hsame : c.migrationThread p = c := by
      simp [Cache.migrationThread, hcopied.finished]
    rw [hsame]
    exact h

end Tight

/-! ## What does not matter to a recording -/

/-- Whether the file is to be removed does not matter to the stage. -/
theorem Recorder.setAutoremove (h : Recorder c σ b) (value : Bool) :
    Recorder { c with autoremove := value } σ b := by
  rcases h with h | ⟨hb, ⟨l, e, h⟩ | ⟨l, h⟩⟩
  · left
    rcases h.ring with ⟨L, T, off, hring, htail⟩
    have hsame : SameRing c { c with autoremove := value } := ⟨rfl, rfl, rfl, rfl, rfl, rfl, rfl⟩
    have hwindow := hring.window.sameRing hsame
    exact ⟨⟨L, T, off, ⟨hwindow, hring.stores, hring.length, hring.received⟩, htail⟩,
      ⟨h.idle.notRecording, h.idle.notStopped, h.idle.noThread⟩, h.notMigrated, h.notCopied,
      h.file⟩
  · refine Or.inr ⟨hb, Or.inl ⟨l, e, ?_⟩⟩
    have htodo : todo { c with autoremove := value } = c.todo :=
      todo_congr rfl rfl (pending_of_slots rfl)
    have htiles := h.todo
    rw [← htodo] at htiles
    exact ⟨h.recording, h.notMigrated, h.notStopped, h.notFinished, h.low, h.start, h.length,
      h.written, h.since, h.stores, h.labelled, htiles, h.file⟩
  · exact Or.inr ⟨hb, Or.inr ⟨l, h.congr rfl rfl rfl rfl rfl rfl rfl rfl⟩⟩

/-- The cache as if nobody had asked its thread to stop. -/
def unstopped (c : Cache n) : Cache n := { c with stopRecording := false }

/-- Nobody has asked. -/
theorem unstopped_of_not (h : c.stopRecording = false) : c.unstopped = c := by
  cases c
  cases h
  rfl

/-- When the file is to be kept, the thread does not heed the request. -/
theorem migrationThread_unstopped (h : c.autoremove = false) (p : Platform) :
    (c.migrationThread p).unstopped = c.unstopped.migrationThread p := by
  unfold Cache.migrationThread
  rw [show c.unstopped.thread = c.thread from rfl]
  cases hthread : c.thread with
  | none => rfl
  | some t =>
      cases t with
      | created => rfl
      | finished => rfl
      | walking i j =>
          dsimp only [unstopped]
          rw [h, Bool.and_false, Bool.and_false]
          by_cases hi : i < n
          · rw [if_pos hi, if_pos hi]
            by_cases hst : (c.slots j).state = .empty
            · rw [if_pos hst, if_pos hst]
            · rw [if_neg hst, if_neg hst]
              cases hfile : c.file with
              | none => rfl
              | some f =>
                  cases hseek : p.writeSeek with
                  | true => rfl
                  | false => rfl
          · rw [if_neg hi, if_neg hi]

end Cache

namespace Session

open Cache

variable {n : ℕ} [NeZero n] {s s' : Session n} {p : Platform} {b : Bool}

/-- A session whose recording, if there is one, has a thread that nobody has asked to
stop. -/
structure Keeps (s : Session n) : Prop where
  recorded : Recorded s true
  attended : Attended s.cache
  notStopped : s.cache.stopRecording = false
  tight : Tight s.cache

/-- The file is the stream from the start of the recording up to its end, and nothing
else. -/
structure Whole (s : Session n) : Prop where
  unstarted : s.cache.mDkOffset = none → ∃ f, s.cache.file = some f ∧ f.len = 0
  recorded : ∀ l, s.cache.mDkOffset = some l → ∃ f, s.cache.file = some f ∧
    s.pushed.length = l + f.len ∧ ∀ i < f.len, s.pushed[l + i]? = some (f.byte i)

namespace Keeps

/-- A new cache with an empty file. -/
theorem of_init (memory : Fin n → ℕ → UInt8) : Keeps (init n memory (some .new)) where
  recorded := .of_init memory (some .new)
  attended _ habs := by cases habs
  notStopped := rfl
  tight := by
    constructor
    · intro _
      refine ⟨rfl, ?_⟩
      intro f hf
      cases hf
      rfl
    · intro habs
      cases habs

/-- Without a recording there is no thread. -/
theorem idle (h : Keeps s) (hrec : s.cache.isRecording = false) : Idle s.cache := by
  rcases h.recorded.recorder with hbefore | ⟨-, ⟨l, e, hcopying⟩ | ⟨l, hcopied⟩⟩
  · exact hbefore.idle
  · rw [hcopying.recording] at hrec
    cases hrec
  · rw [hcopied.recording] at hrec
    cases hrec

/-- The bound on the file, through each of the operations. -/
theorem tight_step (h : Keeps s) {l : Label} (hl : recordStep s l) (hok : keepsOrder s l)
    (hs : s.step l = some s') : Tight s'.cache := by
  rcases l with ⟨op, p⟩
  cases op with
  | push data =>
      rw [step_push hs]
      exact h.tight.push h.idle hl hok.1
  | pop drain =>
      rw [step_pop hs, afterPop_cache]
      exact h.tight.pop drain p
  | release k =>
      rcases step_release hs with ⟨x, -, rfl⟩
      exact h.tight.congr rfl rfl rfl rfl
  | seek offset =>
      rcases step_seek hs with ⟨-, c, hc, rfl⟩
      exact h.tight.seek hc
  | startRecording =>
      rw [step_startRecording hs]
      exact h.tight.startRecording (h.attended h.notStopped) p
  | migrate =>
      rw [step_migrate hs]
      exact h.tight.migrationThread h.recorded.recorder hl
  | reload drain => cases hl

theorem step (h : Keeps s) {l : Label} (hl : recordStep s l) (hok : keepsOrder s l)
    (hthread : threadsCreated s (.cache l)) (hs : s.step l = some s') : Keeps s' where
  recorded := h.recorded.step hl hok hs
  attended := attended_step h.attended hthread hs
  notStopped := (step_controls hs).stopRecording.trans h.notStopped
  tight := h.tight_step hl hok hs

theorem setAutoremove (h : Keeps s) (value : Bool) :
    Keeps { s with cache := { s.cache with autoremove := value } } where
  recorded := ⟨h.recorded.recorder.setAutoremove value,
    ⟨h.recorded.live.nodup, h.recorded.live.pop_iff, h.recorded.live.intact⟩, h.recorded.stream⟩
  attended := h.attended
  notStopped := h.notStopped
  tight := h.tight.congr rfl rfl rfl rfl

/-- When the thread has ended, or there is none, nothing is left to be copied. -/
theorem whole (h : Keeps s) (hended : s.cache.thread = none ∨ s.cache.thread = some .finished) :
    Whole s := by
  have hstream := h.recorded.stream rfl
  rcases h.recorded.recorder with hbefore | ⟨-, ⟨l, e, hcopying⟩ | ⟨l, hcopied⟩⟩
  · have hunstarted := h.tight.unstarted hbefore.idle.notRecording
    rcases Option.isSome_iff_exists.mp hbefore.file with ⟨f, hf⟩
    refine ⟨fun _ => ⟨f, hf, hunstarted.2 f hf⟩, ?_⟩
    intro l hl
    rw [hunstarted.1] at hl
    cases hl
  · -- a recording that is still copying has a thread that has not ended
    exfalso
    rcases hended with hnone | hfinished
    · exact h.attended h.notStopped hcopying.recording hnone
    · exact hcopying.notFinished _ hfinished rfl
  · refine ⟨?_, ?_⟩
    · intro habs
      rw [hcopied.start] at habs
      cases habs
    · intro l' hl'
      rw [hcopied.start] at hl'
      cases hl'
      rcases hcopied.mirror.file with ⟨f, hf, hlen, hholds⟩
      have htight := h.tight.bounded hcopied.recording f hf
      have hlength := hcopied.mirror.length
      rw [hstream] at hlength hholds
      -- what the recording has written is there, and nothing behind it
      refine ⟨f, hf, by omega, ?_⟩
      intro i hi
      exact hholds i (by omega)

end Keeps

end Session

/-! ## Runs -/

namespace Closing

open Cache Session

variable {n : ℕ} [NeZero n] {s s' : Closing n}

/-- The steps of a recorder, on a platform that creates the threads it is asked for. -/
def closingOk (s : Closing n) : ClosingOp → Prop
  | .cache l =>
    recordStep s.session l ∧ keepsOrder s.session l ∧ threadsCreated s.session (.cache l)
  | _ => True

/-- The session as if nobody had asked its thread to stop. -/
def unstopped (s : Closing n) : Session n :=
  { s.session with cache := s.session.cache.unstopped }

/-- The session keeps its recording, and the file is whole when it has been stopped. -/
structure Keeping (s : Closing n) : Prop where
  running : s.phase = .running → Keeps s.session
  stopping : s.phase = .stopping → s.session.cache.autoremove = false → Keeps s.unstopped
  stopped : s.phase = .stopped → s.session.cache.autoremove = false → Whole s.session

namespace Keeping

theorem of_running (hphase : s.phase = .running) (h : Keeps s.session) : Keeping s := by
  refine ⟨fun _ => h, ?_, ?_⟩
  · intro habs
    rw [hphase] at habs
    cases habs
  · intro habs
    rw [hphase] at habs
    cases habs

theorem of_stopping (hphase : s.phase = .stopping)
    (h : s.session.cache.autoremove = false → Keeps s.unstopped) : Keeping s := by
  refine ⟨?_, fun _ => h, ?_⟩
  · intro habs
    rw [hphase] at habs
    cases habs
  · intro habs
    rw [hphase] at habs
    cases habs

theorem of_stopped (hphase : s.phase = .stopped)
    (h : s.session.cache.autoremove = false → Whole s.session) : Keeping s := by
  refine ⟨?_, ?_, fun _ => h⟩
  · intro habs
    rw [hphase] at habs
    cases habs
  · intro habs
    rw [hphase] at habs
    cases habs

/-- While the element waits for the thread, only its rounds and freed buffers come. -/
theorem cache_stopping (h : Keeping s) (hphase : s.phase = .stopping) {l : Label}
    (hok : closingOk s (.cache l)) (hs : s.step (.cache l) = some s') : Keeping s' := by
  rcases step_cache hs with ⟨hallows, t, ht, rfl⟩
  refine of_stopping hphase ?_
  intro hkeep
  have hkeep' : s.session.cache.autoremove = false := by
    rw [← (step_controls ht).autoremove]
    exact hkeep
  have hkeeps := h.stopping hphase hkeep'
  rw [hphase] at hallows
  rcases l with ⟨op, p⟩
  rcases of_allows_stopping hallows with rfl | ⟨k, rfl⟩
  · -- the round is the one of a recording that nobody stops
    have hround : s.unstopped.step (.migrate, p) =
        some { t with cache := t.cache.unstopped } := by
      rw [step_migrate ht, migrationThread_unstopped hkeep']
      rfl
    exact hkeeps.step (l := (.migrate, p)) hok.1 trivial trivial hround
  · rcases step_release ht with ⟨x, hx, rfl⟩
    have hfreed : s.unstopped.step (.release k, p) = some { s.session with
        cache := (s.session.cache.release x.slot).unstopped
        live := s.session.live.eraseIdx k } := by
      simp only [Session.step, unstopped, hx]
      rfl
    exact hkeeps.step (l := (.release k, p)) hok.1 trivial trivial hfreed

/-- After the stop only buffers are freed, which leaves the file alone. -/
theorem cache_stopped (h : Keeping s) (hphase : s.phase = .stopped) {l : Label}
    (hs : s.step (.cache l) = some s') : Keeping s' := by
  rcases step_cache hs with ⟨hallows, t, ht, rfl⟩
  refine of_stopped hphase ?_
  rw [hphase] at hallows
  rcases l with ⟨op, p⟩
  rcases of_allows_stopped hallows with ⟨k, rfl⟩
  rcases step_release ht with ⟨x, -, rfl⟩
  intro hkeep
  have hwhole := h.stopped hphase hkeep
  exact ⟨hwhole.unstarted, hwhole.recorded⟩

/-- The request changes nothing that the recording depends on, and the join finds it done. -/
theorem step (h : Keeping s) {l : ClosingOp} (hok : closingOk s l) (hs : s.step l = some s') :
    Keeping s' := by
  cases l with
  | cache l =>
      cases hphase : s.phase with
      | running =>
          rcases step_cache hs with ⟨-, t, ht, rfl⟩
          exact of_running hphase ((h.running hphase).step hok.1 hok.2.1 hok.2.2 ht)
      | stopping => exact h.cache_stopping hphase hok hs
      | stopped => exact h.cache_stopped hphase hs
  | setAutoremove value =>
      rcases step_setAutoremove hs with ⟨hphase, rfl⟩
      exact of_running hphase ((h.running hphase).setAutoremove value)
  | stopRequest =>
      rcases step_stopRequest hs with ⟨hphase, rfl⟩
      refine of_stopping rfl ?_
      intro _
      have hkeeps := h.running hphase
      have hsame : s.session.cache.stopRequest.unstopped = s.session.cache := by
        show s.session.cache.unstopped = s.session.cache
        exact unstopped_of_not hkeeps.notStopped
      show Keeps { s.session with cache := s.session.cache.stopRequest.unstopped }
      rw [hsame]
      exact hkeeps
  | stopJoin =>
      -- the join finds the thread ended, and with it the copying
      rcases step_stopJoin hs with ⟨hphase, hended, rfl⟩
      refine of_stopped rfl ?_
      intro hkeep
      have hwhole := (h.stopping hphase hkeep).whole hended
      exact ⟨hwhole.unstarted, hwhole.recorded⟩

end Keeping

/-- In every run whose steps keep the slots in order, with a platform whose calls succeed:
a stop of a recording whose file is to be kept leaves the stream in the file, from the
position that the recording reaches back to up to the end of what was pushed, and nothing
else; when nothing has been recorded, the file is empty. -/
theorem recording_kept_whole {memory : Fin n → ℕ → UInt8}
    (h : Reach step closingOk (init n memory (some .new)) s) (hstopped : s.phase = .stopped)
    (hkeep : s.session.cache.autoremove = false) :
    (s.session.cache.mDkOffset = none → ∃ f, s.session.cache.file = some f ∧ f.len = 0) ∧
      ∀ l, s.session.cache.mDkOffset = some l → ∃ f, s.session.cache.file = some f ∧
        s.session.pushed.length = l + f.len ∧
        ∀ i < f.len, s.session.pushed[l + i]? = some (f.byte i) := by
  have hkeeping : Keeping s :=
    h.invariant (.of_running rfl (.of_init memory)) fun _ _ _ hinv hok hs => hinv.step hok hs
  have hwhole := hkeeping.stopped hstopped hkeep
  exact ⟨hwhole.unstarted, hwhole.recorded⟩

/-- Two slots are full when the recording starts; the stop is asked for before any has been
copied. -/
theorem recording_kept_whole_late : ∃ s : Closing 2,
    Reach step closingOk (init 2 (fun _ _ => 0) (some .new)) s ∧ s.phase = .stopped ∧
      s.session.cache.mDkOffset = some 0 ∧
      ∀ l, s.session.cache.mDkOffset = some l → ∃ f, s.session.cache.file = some f ∧
        s.session.pushed.length = l + f.len ∧
        ∀ i < f.len, s.session.pushed[l + i]? = some (f.byte i) := by
  have h₀ : Reach step closingOk (init 2 (fun _ _ => 0) (some .new)) _ := .refl
  have h₁ := h₀.extend (.setAutoremove false) trivial rfl
  have h₂ := h₁.extend (.cache (.push ⟨3 * cacheSlotSize, fun _ => 7⟩, .allOk))
    ⟨Platform.allOk_filesOk, ⟨by decide, fun _ _ => Or.inl rfl,
      fun habs => absurd habs (by decide)⟩, fun _ _ => rfl⟩ rfl
  have h₃ := h₂.extend .stopRequest trivial rfl
  have h₄ := h₃.extend (.cache (.migrate, .allOk))
    ⟨Platform.allOk_filesOk, trivial, trivial⟩ rfl
  have h₅ := h₄.extend (.cache (.migrate, .allOk))
    ⟨Platform.allOk_filesOk, trivial, trivial⟩ rfl
  have h₆ := h₅.extend (.cache (.migrate, .allOk))
    ⟨Platform.allOk_filesOk, trivial, trivial⟩ rfl
  have h₇ := h₆.extend (.cache (.migrate, .allOk))
    ⟨Platform.allOk_filesOk, trivial, trivial⟩ rfl
  have h₈ := h₇.extend .stopJoin trivial rfl
  exact ⟨_, h₈, rfl, rfl, (recording_kept_whole h₈ rfl rfl).2⟩

end Closing

end TimeShift
