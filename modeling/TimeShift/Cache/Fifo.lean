import TimeShift.Cache.ReaderWindow

/-!
# First in, first out

Without seeks, the popped buffers together are a prefix of the pushed bytes,
also after the ring has overflowed and the recording has started, as long as no
slot is refilled from the disk: nothing has set the read position in the file,
so that a refill reads the file from its start, whatever offset the slot is
labelled with.
-/

set_option linter.unusedSectionVars false

namespace TimeShift

open Bytes Cyclic Machine

namespace Session

open Cache

variable {n : ℕ} [NeZero n] {s s' : Session n} {p : Platform} {L R T : ℕ} {off : ℕ → ℕ}

/-- Reading, writing and migrating, with a working file. -/
def fifoStep (_ : Session n) : Label → Prop
  | (.push _, p) | (.pop false, p) | (.release _, p) | (.migrate, p) => p.FilesOk
  | _ => False

/-- The step does not refill the tail slot: it makes no reload, or the tail
slot is full or popped when it does. -/
def noRefill (s : Session n) : Label → Prop
  | (.push _, _) => s.cache.isRecording = true → s.cache.fslots = 0 →
      s.cache.Closed s.cache.tail
  | (.pop _, _) => s.cache.isDiskUsable = true → (s.cache.slots s.cache.head).state = .full →
      s.cache.head = s.cache.tail ∨ s.cache.Closed s.cache.tail
  | _ => True

/-- The popped buffers are a prefix of the pushed bytes, and each is labelled
with its place in them. -/
def Fifo (s : Session n) : Prop :=
  s.popped.flatMap (fun b => b.piece.bytes) <+: s.pushed ∧
    Reads s.pushed 0 (s.popped.map Buffer.piece) s.readPos

/-- The ring holds a stretch of what was pushed, and the reader has got
everything before its position. Before the recording, the ring also takes every
byte. -/
structure FifoInv (s : Session n) (L R T : ℕ) (off : ℕ → ℕ) : Prop where
  window : Window s.cache L T off
  tail : s.cache.tail = idx n T
  fulls : Fulls s.cache L R T
  head : s.cache.head = idx n R
  pos : s.readPos = off R
  stores : Stores s.cache s.pushed
  live : LiveOk s.cache s.live
  reads : Reads s.pushed 0 (s.popped.map Buffer.piece) s.readPos
  file : s.cache.file.isSome
  ring : s.cache.isRecording = false → Idle s.cache ∧ RingOk s.cache s.pushed L T off

namespace FifoInv

theorem of_init (memory : Fin n → ℕ → UInt8) (f : File) :
    FifoInv (init n memory (some f)) 0 0 0 (fun _ => 0) where
  window := .of_new memory _
  tail := rfl
  fulls := .of_new memory _
  head := rfl
  pos := rfl
  stores := .of_new memory _ _
  live := init_liveOk memory _
  reads := rfl
  file := rfl
  ring _ := ⟨⟨rfl, rfl, rfl⟩, .of_new memory _⟩

theorem fifo (h : FifoInv s L R T off) : Fifo s := by
  refine ⟨?_, h.reads⟩
  have hprefix := h.reads.flatMap_initial
  rwa [List.flatMap_map] at hprefix

/-- The ring has not changed, whatever went to the disk. -/
theorem sameRing (h : FifoInv s L R T off) (hr : SameRing s.cache s'.cache) (τ : List UInt8)
    (hpushed : s'.pushed = s.pushed ++ τ) (hpopped : s'.popped = s.popped)
    (hpos : s'.readPos = s.readPos) (hlive : LiveOk s'.cache s'.live)
    (hfile : s'.cache.file.isSome)
    (hring : s'.cache.isRecording = false → Idle s'.cache ∧ RingOk s'.cache s'.pushed L T off) :
    FifoInv s' L R T off where
  window := h.window.sameRing hr
  tail := hr.tail.trans h.tail
  fulls := h.fulls.sameRing hr
  head := hr.head.trans h.head
  pos := hpos.trans h.pos
  stores := by
    rw [hpushed]
    exact (h.stores.append τ).of_slots hr.slots
  live := hlive
  reads := by
    rw [hpushed, hpopped, hpos]
    exact h.reads.append τ
  file := hfile
  ring := hring

theorem diskWrite_file {c : Cache n} (h : c.file.isSome) (data : Block UInt8) (p : Platform) :
    (c.diskWrite data p).file.isSome := by
  unfold diskWrite
  cases hfile : c.file with
  | none => rw [hfile] at h; cases h
  | some f =>
      dsimp only
      split
      · rw [hfile]
        rfl
      · rfl

theorem push_ring (h : FifoInv s L R T off) {data : Block UInt8}
    (hrec : s.cache.isRecording = false) (hs : s.step (.push data, p) = some s') :
    ∃ L' T' off', FifoInv s' L' R T' off' := by
  have hlive := step_liveOk h.live hs
  rw [step_push hs] at hlive ⊢
  obtain ⟨hidle, hring⟩ := h.ring hrec
  obtain ⟨c₁, k, L', T', off', hk, hframe, hring₁, htail, hgrows, hfulls, -, hres⟩ :=
    hring.push (p := p) h.tail hrec data
  have hidle₁ := hidle.frame hframe
  have hhead : c₁.head = s.cache.head := by
    obtain ⟨_, _, _, _, _, _, rfl⟩ := hframe
    rfl
  have hfile : c₁.file.isSome := by
    obtain ⟨_, _, _, _, _, _, rfl⟩ := hframe
    exact h.file
  have hpos : s.readPos = off' R := h.pos.trans (hgrows.2 R h.fulls.upper).symm
  rcases hres with ⟨hkeq, heq⟩ | ⟨hklt, -, -, heq⟩
  · -- everything went to the ring
    have hall : data.toList.take k = data.toList := by
      rw [hkeq, List.take_of_length_le (by rw [Block.length_toList])]
    rw [hall] at hring₁
    rw [heq] at hlive ⊢
    exact ⟨L', T', off', hring₁.window, htail, hfulls R h.fulls, hhead.trans h.head, hpos,
      hring₁.stores, hlive, h.reads.append _, hfile, fun _ => ⟨hidle₁, hring₁⟩⟩
  · -- the rest went to the disk: the recording has started
    have hsame : SameRing c₁ ((c₁.startRecording p).1.diskWrite (data.drop k) p) :=
      (c₁.startRecording_sameRing p).trans (diskWrite_sameRing _ _ _)
    obtain ⟨hstart, hfile'⟩ : ((c₁.startRecording p).1.diskWrite (data.drop k) p).isRecording =
        true ∧ ((c₁.startRecording p).1.diskWrite (data.drop k) p).file.isSome := by
      rcases hidle₁.overflow (data.drop k) p with ⟨hnone, -⟩ | ⟨-, hstart⟩
      · rw [hnone] at hfile
        cases hfile
      · refine ⟨hstart, diskWrite_file ?_ _ _⟩
        rcases c₁.startRecording_cases p with ⟨hc, -⟩ | ⟨-, -, -, hc⟩ <;> rw [hc] <;> exact hfile
    rw [heq] at hlive ⊢
    refine ⟨L', T', off', hring₁.window.sameRing hsame, hsame.tail.trans htail,
      (hfulls R h.fulls).sameRing hsame, (hsame.head.trans hhead).trans h.head, hpos, ?_,
      hlive, h.reads.append _, hfile', ?_⟩
    · have hsplit : s.pushed ++ data.toList =
          s.pushed ++ data.toList.take k ++ data.toList.drop k := by
        rw [List.append_assoc, List.take_append_drop]
      show Stores _ (s.pushed ++ data.toList)
      rw [hsplit]
      exact (hring₁.stores.append _).of_slots hsame.slots
    · intro habs
      rw [hstart] at habs
      cases habs

theorem push_recording (h : FifoInv s L R T off) {data : Block UInt8}
    (hrec : s.cache.isRecording = true) (hok : noRefill s (.push data, p))
    (hs : s.step (.push data, p) = some s') : FifoInv s' L R T off := by
  have hlive := step_liveOk h.live hs
  rw [step_push hs] at hlive ⊢
  have hsame := s.cache.diskWrite_sameRing data p
  have heq : s.cache.push data p = s.cache.diskWrite data p := by
    rw [Cache.push_recording hrec]
    split
    · rename_i hzero
      refine reload_closed ?_ false
      unfold Closed
      rw [hsame.slots, hsame.tail]
      exact hok hrec hzero
    · rfl
  rw [heq] at hlive ⊢
  refine h.sameRing hsame data.toList rfl rfl rfl hlive (diskWrite_file h.file _ _) ?_
  intro habs
  rw [diskWrite_isRecording, hrec] at habs
  cases habs

theorem pop (h : FifoInv s L R T off) (hok : noRefill s (.pop false, p))
    (hs : s.step (.pop false, p) = some s') : ∃ R', FifoInv s' L R' T off := by
  have hlive := step_liveOk h.live hs
  have heq := step_pop hs
  obtain ⟨c₁, hc₁, hpop⟩ := s.cache.pop_cases false p
  simp only [Bool.false_eq_true, if_false] at hc₁
  subst hc₁
  rcases hpop with ⟨-, hpop⟩ | ⟨hfull, hpop⟩
  · rw [hpop] at heq
    subst heq
    exact ⟨R, h⟩
  · -- the refill after the pop does nothing
    have hreload : (if (s.cache.isRecording && s.cache.isRbMigrated) = true
        then s.cache.take.reload false p else s.cache.take) = s.cache.take := by
      split
      · rename_i hdisk
        refine reload_closed ?_ false
        unfold Closed
        have htail : s.cache.take.tail = s.cache.tail := rfl
        rw [htail]
        by_cases hsame : s.cache.tail = s.cache.head
        · exact Or.inr (by simp [Cache.take, hsame])
        · have := (hok hdisk hfull).resolve_left fun heq => hsame heq.symm
          simpa [Cache.take, hsame, Closed] using this
      · rfl
    rw [hpop, hreload] at heq
    subst heq
    have hlt := h.fulls.lt_of_head_full h.window hfull
    obtain ⟨hfulls, hhead⟩ := h.fulls.take h.window.fits h.head hlt
    obtain ⟨hoff, hend⟩ := h.window.slotBuffer_range h.head h.fulls.lower hlt
    have hrestate := take_restate hfull
    have hspan := h.window.spans R h.fulls.lower hlt
    rw [← h.head] at hspan
    have hnew := (h.stores.head_buffer hspan).reads
    rw [hoff, ← h.pos] at hnew
    refine ⟨R + 1, h.window.restate hrestate, h.tail, hfulls, hhead, hend,
      h.stores.restate hrestate, hlive, ?_, h.file, ?_⟩
    · show Reads s.pushed 0 ((s.popped ++ [s.cache.slotBuffer]).map Buffer.piece) _
      rw [List.map_append]
      exact h.reads.trans hnew
    · intro hrec
      obtain ⟨hidle, hring⟩ := h.ring hrec
      exact ⟨hidle.restate hrestate, hring.restate hrestate⟩

theorem release (h : FifoInv s L R T off) {k : ℕ} (hs : s.step (.release k, p) = some s') :
    FifoInv s' L R T off := by
  have hlive := step_liveOk h.live hs
  obtain ⟨b, hb, rfl⟩ := step_release hs
  have hstate := h.live.state (List.mem_of_getElem? hb)
  have hrestate := release_restate hstate
  refine ⟨h.window.restate hrestate, h.tail, h.fulls.release hstate, h.head, h.pos,
    h.stores.restate hrestate, hlive, h.reads, h.file, ?_⟩
  intro hrec
  obtain ⟨hidle, hring⟩ := h.ring hrec
  exact ⟨hidle.restate hrestate, hring.restate hrestate⟩

theorem migrate (h : FifoInv s L R T off) (hs : s.step (.migrate, p) = some s') :
    FifoInv s' L R T off := by
  have hlive := step_liveOk h.live hs
  rw [step_migrate hs] at hlive ⊢
  have hfile : (s.cache.migrationThread p).file.isSome :=
    s.cache.migrationThread_file p h.file
  refine h.sameRing (s.cache.migrationThread_sameRing p) [] (by simp) rfl rfl hlive hfile ?_
  intro hrec
  obtain ⟨hidle, hring⟩ := h.ring (by rwa [migrationThread_isRecording] at hrec)
  have hsame : s.cache.migrationThread p = s.cache := by
    simp [migrationThread, hidle.noThread]
  rw [hsame]
  exact ⟨hidle, hring⟩

theorem step (h : FifoInv s L R T off) {l : Label} (hl : fifoStep s l) (hok : noRefill s l)
    (hs : s.step l = some s') : ∃ L' R' T' off', FifoInv s' L' R' T' off' := by
  obtain ⟨op, p⟩ := l
  cases op with
  | push data =>
      cases hrec : s.cache.isRecording with
      | false =>
          obtain ⟨L', T', off', h'⟩ := h.push_ring hrec hs
          exact ⟨L', R, T', off', h'⟩
      | true => exact ⟨L, R, T, off, h.push_recording hrec hok hs⟩
  | pop drain =>
      cases drain with
      | false =>
          obtain ⟨R', h'⟩ := h.pop hok hs
          exact ⟨L, R', T, off, h'⟩
      | true => cases hl
  | release k => exact ⟨L, R, T, off, h.release hs⟩
  | seek offset => cases hl
  | startRecording => cases hl
  | migrate => exact ⟨L, R, T, off, h.migrate hs⟩
  | reload drain => cases hl

end FifoInv

/-- In every run of pushes, pops, releases and migration rounds in which no
slot is refilled, across the overflow of the ring and the start of the
recording, what was popped is a prefix of what was pushed. -/
theorem fifo_without_refill {memory : Fin n → ℕ → UInt8} {f : File}
    (h : Reach Session.step (fun s l => fifoStep s l ∧ noRefill s l)
      (init n memory (some f)) s) : Fifo s := by
  have hinv : ∃ L R T off, FifoInv s L R T off := by
    refine h.invariant (P := fun s => ∃ L R T off, FifoInv s L R T off)
      ⟨0, 0, 0, _, .of_init memory f⟩ ?_
    rintro s l s' ⟨L, R, T, off, hinv⟩ hok hs
    exact hinv.step hok.1 hok.2 hs
  obtain ⟨L, R, T, off, hinv⟩ := hinv
  exact hinv.fifo

theorem fifo_without_refill_trip : ∃ s : Session 2,
    Reach Session.step (fun s l => fifoStep s l ∧ noRefill s l)
      (init 2 (fun _ _ => 0) (some .new)) s ∧
      s.cache.isRecording = true ∧ s.popped.length = 1 ∧ Fifo s := by
  have h₀ : Reach Session.step (fun s l => fifoStep s l ∧ noRefill s l)
    (init 2 (fun _ _ => 0) (some .new)) _ := .refl
  have h₁ := h₀.extend (.push ⟨3 * cacheSlotSize, fun _ => 7⟩, .allOk)
    ⟨Platform.allOk_filesOk, fun habs => absurd habs (by decide)⟩ rfl
  have h₂ := h₁.extend (.pop false, .allOk)
    ⟨Platform.allOk_filesOk, fun habs => absurd habs (by decide)⟩ rfl
  exact ⟨_, h₂, rfl, rfl, fifo_without_refill h₂⟩

/-- Three slots' worth of bytes for a ring of two slots, the last third of them
ones. -/
def threeSlots : Block UInt8 where
  size := 3 * cacheSlotSize
  byte i := if i < 2 * cacheSlotSize then 0 else 1

/-- The third slot's worth goes to the disk; the slot refilled for it carries its
offset, but the bytes at the start of the file. -/
theorem refilled_third_slot : ∃ s : Session 2,
    Reach Session.step fifoStep (init 2 (fun _ _ => 0) (some .new)) s ∧
      s.pushed = threeSlots.toList ∧
      ∃ b ∈ s.popped, b.offset = 2 * cacheSlotSize ∧ 0 < b.size ∧ b.data 0 = 0 := by
  have h₀ : Reach Session.step fifoStep (init 2 (fun _ _ => 0) (some .new)) _ := .refl
  have h₁ := h₀.extend (.push threeSlots, .allOk) Platform.allOk_filesOk rfl
  have h₂ := h₁.extend (.migrate, .allOk) Platform.allOk_filesOk rfl
  have h₃ := h₂.extend (.migrate, .allOk) Platform.allOk_filesOk rfl
  have h₄ := h₃.extend (.migrate, .allOk) Platform.allOk_filesOk rfl
  have h₅ := h₄.extend (.migrate, .allOk) Platform.allOk_filesOk rfl
  have h₆ := h₅.extend (.pop false, .allOk) Platform.allOk_filesOk rfl
  have h₇ := h₆.extend (.release 0, .allOk) Platform.allOk_filesOk rfl
  have h₈ := h₇.extend (.pop false, .allOk) Platform.allOk_filesOk rfl
  have h₉ := h₈.extend (.pop false, .allOk) Platform.allOk_filesOk rfl
  exact ⟨_, h₉, List.nil_append _, _, List.mem_of_getElem? (i := 2) rfl, rfl, by decide,
    by decide⟩

/-- A buffer that was refilled from the disk need not carry the bytes it is
labelled with. -/
theorem refill_reads_start_of_file :
    ¬∀ s : Session 2, Reach Session.step fifoStep (init 2 (fun _ _ => 0) (some .new)) s →
      Fifo s := by
  intro hall
  obtain ⟨s, hs, hpushed, b, hb, hoffset, hsize, hdata⟩ := refilled_third_slot
  have hbytes := (hall s hs).2.getElem? (List.mem_map_of_mem hb) (i := 0)
    (by rw [Buffer.piece, Block.length_toList]; exact hsize)
  -- the popped byte is 0, the pushed one is 1
  have hpopped : b.piece.bytes[0]? = some 0 := by
    rw [Buffer.piece, Block.getElem?_toList _ hsize]
    exact congrArg some hdata
  have hstream : s.pushed[b.piece.start + 0]? = some 1 := by
    have hstart : b.piece.start + 0 = 2 * cacheSlotSize := hoffset
    rw [hstart, hpushed, Block.getElem?_toList _ (by decide)]
    rfl
  rw [hpopped, hstream] at hbytes
  exact absurd hbytes (by decide)

end Session

end TimeShift
