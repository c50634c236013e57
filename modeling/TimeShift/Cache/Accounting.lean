import TimeShift.Cache.Numbering

/-!
# Accounting for what is stored

Three counters go with the bytes that a recording cache takes: `h_offset`, the
write position of the file and `h_dk_offset`. They move together as long as every
write of a push gets all of its bytes through, or fails at its seek
(`push_accounts`). A write that fails half way is counted in `h_offset`, but not in
the write position, and everything that is written later stands in the wrong place.
-/

set_option linter.unusedSectionVars false

namespace TimeShift

open Bytes Machine Cache

namespace Cache

variable {n : ℕ} [NeZero n] {c c' : Cache n} {p : Platform} {o : ℕ}

/-! ## What belongs to the recording -/

/-- The state of the recording, and where its file begins. -/
structure SameDisk (c c' : Cache n) : Prop where
  isRecording : c'.isRecording = c.isRecording
  isRbMigrated : c'.isRbMigrated = c.isRbMigrated
  thread : c'.thread = c.thread
  lDkOffset : c'.lDkOffset = c.lDkOffset
  mDkOffset : c'.mDkOffset = c.mDkOffset

namespace SameDisk

theorem rfl : SameDisk c c := ⟨.refl _, .refl _, .refl _, .refl _, .refl _⟩

theorem trans {c'' : Cache n} (h : SameDisk c c') (h' : SameDisk c' c'') : SameDisk c c'' where
  isRecording := h'.isRecording.trans h.isRecording
  isRbMigrated := h'.isRbMigrated.trans h.isRbMigrated
  thread := h'.thread.trans h.thread
  lDkOffset := h'.lDkOffset.trans h.lDkOffset
  mDkOffset := h'.mDkOffset.trans h.mDkOffset

theorem ring (h : RingFrame c c') : SameDisk c c' := by
  rcases h with ⟨_, _, _, _, _, _, rfl⟩
  exact ⟨.refl _, .refl _, .refl _, .refl _, .refl _⟩

theorem restate (h : Restate c c') : SameDisk c c' := by
  rcases h.frame with ⟨_, _, _, _, rfl⟩
  exact ⟨.refl _, .refl _, .refl _, .refl _, .refl _⟩

theorem reload (c : Cache n) (drain : Bool) (p : Platform) : SameDisk c (c.reload drain p) := by
  rcases c.reload_frame drain p with ⟨_, _, _, _, _, _, heq⟩
  rw [heq]
  exact ⟨.refl _, .refl _, .refl _, .refl _, .refl _⟩

theorem diskWrite (c : Cache n) (data : Block UInt8) (p : Platform) :
    SameDisk c (c.diskWrite data p) := by
  rcases c.diskWrite_eq data p with ⟨_, _, _, _, heq⟩
  rw [heq]
  exact ⟨.refl _, .refl _, .refl _, .refl _, .refl _⟩

theorem promote (c : Cache n) : SameDisk c c.promote := by
  unfold Cache.promote
  dsimp only
  split
  · exact ⟨.refl _, .refl _, .refl _, .refl _, .refl _⟩
  · exact .rfl

theorem pop (c : Cache n) (drain : Bool) (p : Platform) : SameDisk c (c.pop drain p).1 := by
  refine pop_induct (P := SameDisk c) ?_ ?_ ?_ .rfl
  · intro c₁ h₁
    exact h₁.trans (promote c₁)
  · intro c₁ hfull h₁
    exact h₁.trans (restate (take_restate hfull))
  · intro c₁ _ _ h₁
    exact h₁.trans (reload c₁ drain p)

theorem seek (hseek : c.seek o p = some c') : SameDisk c c' := by
  rcases seek_cases hseek with ⟨-, -, hring⟩ | ⟨-, -, rfl⟩ | ⟨-, -, rfl⟩
  · exact restate (seekRing_restate hring)
  · have hflush : SameDisk c { c.flush with
        rDkPos := gsizeSub (c.clamp o) c.lDkOffset.val
        hRbOffset := c.clamp o
        lRbOffset := c.clamp o } := ⟨.refl _, .refl _, .refl _, .refl _, .refl _⟩
    exact hflush.trans (reload _ false p)
  · exact .rfl

/-- A push changes nothing of it, or starts the recording. -/
theorem push (c : Cache n) (data : Block UInt8) (p : Platform) :
    SameDisk c (c.push data p) ∨
      (c.isRecording = false ∧
        ∃ c₁, SameDisk c c₁ ∧ SameDisk (c₁.startRecording p).1 (c.push data p)) := by
  cases hrec : c.isRecording with
  | true =>
      left
      rw [push_recording hrec]
      split
      · exact (diskWrite c data p).trans (reload _ false p)
      · exact diskWrite c data p
  | false =>
      rcases push_frame hrec data p with ⟨c₁, hframe, heq | ⟨k, heq⟩⟩
      · left
        rw [heq]
        exact ring hframe
      · right
        rw [heq]
        exact ⟨.refl _, c₁, ring hframe, diskWrite _ _ p⟩

end SameDisk

/-- Once the ring is migrated, the file begins with the first byte migrated. -/
def MigratedFrom (c : Cache n) : Prop :=
  c.isRbMigrated = true → c.thread ≠ none ∧ c.lDkOffset = c.mDkOffset

namespace MigratedFrom

theorem same (h : MigratedFrom c) (hs : SameDisk c c') : MigratedFrom c' := by
  intro hm
  rw [hs.isRbMigrated] at hm
  rw [hs.thread, hs.lDkOffset, hs.mDkOffset]
  exact h hm

theorem startRecording (h : MigratedFrom c) (p : Platform) :
    MigratedFrom (c.startRecording p).1 := by
  rcases c.startRecording_cases p with ⟨heq, -⟩ | ⟨-, hnone, -, heq⟩
  · rw [heq]
    exact h
  · rw [heq]
    intro hm
    exact absurd hnone (h hm).1

theorem migrate (h : MigratedFrom c) (p : Platform) : MigratedFrom (c.migrationThread p) := by
  unfold migrationThread
  split
  · intro hm
    exact ⟨by simp, (h hm).2⟩
  · dsimp only
    split
    · -- a round of the walk
      repeat' split
      all_goals
        intro hm
        exact ⟨by simp, (h hm).2⟩
    · intro _
      exact ⟨by simp, rfl⟩
  · exact h

end MigratedFrom

end Cache

/-! ## Runs -/

namespace Session

variable {n : ℕ} [NeZero n] {s s' : Session n} {p : Platform} {data : Block UInt8}

/-- The labels and the count of the cache agree in this state, and the reader stands in
the ring. -/
structure Counts (s : Session n) : Prop where
  settled : s.IsSettled
  live : LiveOk s.cache s.live
  numbered : s.cache.Numbered

/-- A step that is not a reload; those are parts of other steps only. -/
def calls (_ : Session n) : Label → Prop
  | (.reload _, _) => False
  | _ => True

/-- Moreover, no write of a push stops half way, and a recording whose thread could not
be created is started again only as long as the ring still begins where the file does. -/
def writesOk (s : Session n) : Label → Prop
  | (.push data, p) => s.cache.WritesOk data p
  | (.startRecording, _) => s.cache.isRecording = true →
      s.cache.thread ≠ none ∨ s.cache.mDkOffset = some s.cache.lRbOffset
  | (.reload _, _) => False
  | _ => True

namespace Counts

theorem of_init (memory : Fin n → ℕ → UInt8) (file : Option File) :
    (Session.init n memory file).Counts where
  settled := ⟨0, 0, _, _, .of_new memory file (fun _ => 0) fun _ => 0⟩
  live := init_liveOk memory file
  numbered := Or.inl (.of_new memory file)

/-- A push counts the bytes that it stores. -/
theorem push (h : s.Counts) (hok : s.cache.WritesOk data p)
    (hs : s.step (.push data, p) = some s') :
    s'.Counts ∧ s.cache.TakesFirst s'.cache data (s.cache.stored data p) := by
  have hsettled := h.settled.step h.live hs
  have hlive := step_liveOk h.live hs
  rcases h.settled with ⟨L, T, lo, hi, hring⟩
  have htakes : s.cache.TakesFirst s'.cache data (s.cache.stored data p) := by
    rw [step_push hs]
    exact h.numbered.push_stored hring hok
  exact ⟨⟨hsettled, hlive, htakes.1⟩, htakes⟩

/-- Nothing else counts. -/
theorem other (h : s.Counts) {op : Op} (hok : writesOk s (op, p))
    (hop : ∀ data, op ≠ .push data) (hs : s.step (op, p) = some s') :
    s'.Counts ∧ s'.cache.hOffset = s.cache.hOffset := by
  have hsettled := h.settled.step h.live hs
  have hlive := step_liveOk h.live hs
  rcases h.settled with ⟨L, T, lo, hi, hring⟩
  have hcache : s'.cache.Numbered ∧ s'.cache.hOffset = s.cache.hOffset := by
    cases op with
    | push data => exact absurd rfl (hop data)
    | pop drain =>
        rw [step_pop hs, afterPop_cache]
        exact h.numbered.pop hring drain p
    | release k =>
        rcases step_release hs with ⟨b, hb, rfl⟩
        exact h.numbered.restate (release_restate (h.live.state (List.mem_of_getElem? hb)))
    | seek offset =>
        rcases step_seek hs with ⟨-, c, hc, rfl⟩
        exact h.numbered.seek hc
    | startRecording =>
        rw [step_startRecording hs]
        refine ⟨?_, startRecording_hOffset _ _⟩
        rcases h.numbered with hidle | hdisk
        · rcases Option.eq_none_or_eq_some s.cache.file with hnone | ⟨f, hf⟩
          · have hsame : (s.cache.startRecording p).1 = s.cache := by
              simp [Cache.startRecording, hnone]
            rw [hsame]
            exact Or.inl hidle
          · exact Or.inr (hidle.startRecording (by rw [hf]; rfl) p).1
        · -- the recording runs already
          right
          rcases hok hdisk.recording with hthread | hlow
          · have hsame := (s.cache.startRecording_cases p).resolve_right fun h => hthread h.2.1
            rw [hsame.1]
            exact hdisk
          · exact hdisk.restart hlow p
    | migrate =>
        rw [step_migrate hs]
        exact h.numbered.migrate p
    | reload drain => exact hok.elim
  exact ⟨⟨hsettled, hlive, hcache.1⟩, hcache.2⟩

theorem step (h : s.Counts) {l : Label} (hok : writesOk s l) (hs : s.step l = some s') :
    s'.Counts := by
  rcases l with ⟨op, p⟩
  cases op with
  | push data => exact (h.push hok hs).1
  | _ => exact (h.other hok (by simp) hs).1

end Counts

/-- What a step does to the recording: nothing, or a round of the migration, or it
starts the recording, which a push does only when none runs. -/
theorem step_disk {op : Op} (hs : s.step (op, p) = some s') :
    SameDisk s.cache s'.cache ∨ s'.cache = s.cache.migrationThread p ∨
      (op = .startRecording ∧ s'.cache = (s.cache.startRecording p).1) ∨
      (s.cache.isRecording = false ∧
        ∃ c, SameDisk s.cache c ∧ SameDisk (c.startRecording p).1 s'.cache) := by
  cases op with
  | push data =>
      rw [step_push hs]
      -- what the ring has no room for starts the recording
      rcases SameDisk.push s.cache data p with hsame | ⟨hidle, hstart⟩
      · exact Or.inl hsame
      · exact Or.inr (Or.inr (Or.inr ⟨hidle, hstart⟩))
  | pop drain =>
      rw [step_pop hs, afterPop_cache]
      exact Or.inl (SameDisk.pop s.cache drain p)
  | release k =>
      rcases step_release hs with ⟨b, hb, rfl⟩
      exact Or.inl ⟨rfl, rfl, rfl, rfl, rfl⟩
  | seek offset =>
      rcases step_seek hs with ⟨-, c, hc, rfl⟩
      exact Or.inl (.seek hc)
  | startRecording =>
      rw [step_startRecording hs]
      exact Or.inr (Or.inr (Or.inl ⟨rfl, rfl⟩))
  | migrate =>
      rw [step_migrate hs]
      exact Or.inr (Or.inl rfl)
  | reload drain =>
      rw [step_reload hs]
      exact Or.inl (.reload _ drain p)

/-- The recording runs, and its file begins at `m`. -/
def RecordsFrom (s : Session n) (m : ℕ) : Prop :=
  s.cache.isRecording = true ∧ s.cache.mDkOffset = some m

/-- A recording goes on, with the same file. -/
theorem RecordsFrom.step {m : ℕ} (h : s.RecordsFrom m) {l : Label} (hok : writesOk s l)
    (hs : s.step l = some s') : s'.RecordsFrom m := by
  rcases l with ⟨op, p⟩
  rcases step_disk hs with hsame | heq | ⟨rfl, heq⟩ | ⟨hidle, -⟩
  · exact ⟨hsame.isRecording.trans h.1, hsame.mDkOffset.trans h.2⟩
  · rcases s.cache.migrationThread_eq p with ⟨_, _, _, _, _, heq', -⟩
    rw [RecordsFrom, heq, heq']
    exact h
  · -- the recording is not started again, or at the place where its file begins
    rw [RecordsFrom, heq]
    rcases s.cache.startRecording_cases p with ⟨hsame, -⟩ | ⟨-, hnone, -, hstart⟩
    · rw [hsame]
      exact h
    · have hlow := (hok h.1).resolve_left fun hthread => hthread hnone
      rw [hstart]
      exact ⟨rfl, hlow.symm.trans h.2⟩
  · rw [h.1] at hidle
    cases hidle

end Session

end TimeShift
