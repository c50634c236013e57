import TimeShift.Cache.Recording
import TimeShift.Cache.Numbering

/-!
# The offsets that the cache answers for

`gst_shifter_cache_has_offset` compares an offset with two of the counters of the
cache. Before the migration is over they are the bounds of what the ring and the
file have; after it they are those of the file, where `h_dk_offset` is set by the
first write only. Until then every offset from `l_dk_offset` on is answered with
yes, and a seek to one of them moves the read position beyond the write position
(`answers_for_anything`). When something is written before the migration ends, the
answer is right, and no read starts behind the write position (`has_offset_sound`).
-/

set_option linter.unusedSectionVars false

namespace TimeShift

open Bytes Cyclic Tiling Machine

namespace Cache

variable {n : ℕ} [NeZero n] {c c' : Cache n} {p : Platform} {L T l e o : ℕ} {off : ℕ → ℕ}
  {σ : List UInt8} {b : Bool}

/-! ## What is kept -/

/-- A slot of the ring has byte `x` at offset `o`, or the file has it at its place. -/
def Keeps (c : Cache n) (o : ℕ) (x : UInt8) : Prop :=
  (∃ i, (c.slots i).Carries o x) ∨
    ∃ f m, c.file = some f ∧ c.mDkOffset = some m ∧ m ≤ o ∧ o < m + c.wDkPos ∧ f.byte (o - m) = x

/-- Byte `o` of the stream is kept. -/
def KeepsByte (c : Cache n) (σ : List UInt8) (o : ℕ) : Prop :=
  ∃ x, σ[o]? = some x ∧ c.Keeps o x

/-- A slot keeps the bytes of its range. -/
theorem Stores.keepsByte (h : Stores c σ) {i : Fin n} {a : ℕ} (ha : (c.slots i).offset = some a)
    (hlow : a ≤ o) (hhigh : o < a + (c.slots i).size) : c.KeepsByte σ o := by
  have hbyte := h i a ha (o - a) (by omega)
  rw [Nat.add_sub_cancel' hlow] at hbyte
  refine ⟨_, hbyte, Or.inl ⟨i, ?_, ?_⟩⟩
  · exact (Slot.contains_iff ha).mpr ⟨hlow, hhigh⟩
  · rw [ha, Offset.val_some]

/-- The file keeps the bytes from `a` on that it holds. -/
theorem keepsByte_of_file {f : File} {m a k : ℕ} (hf : c.file = some f)
    (hm : c.mDkOffset = some m) (hma : m ≤ a) (hholds : Holds σ a k fun i => f.byte (a - m + i))
    (hlow : a ≤ o) (hhigh : o < a + k) (hend : o < m + c.wDkPos) : c.KeepsByte σ o := by
  have hbyte := hholds (o - a) (by omega)
  dsimp only at hbyte
  rw [Nat.add_sub_cancel' hlow, show a - m + (o - a) = o - m by omega] at hbyte
  exact ⟨_, hbyte, Or.inr ⟨f, m, hf, hm, by omega, hend, rfl⟩⟩

/-- A range that is still to be copied is that of a slot in use. -/
theorem mem_pending {k : ℕ} {j : Fin n} {r : ℕ × ℕ} (hr : r ∈ c.pending k j) :
    ∃ i, (c.slots i).state ≠ .empty ∧ (c.slots i).range = r := by
  -- on the slots that are left; the empty ones have no range
  induction k generalizing j with
  | zero => cases hr
  | succ k ih =>
      by_cases hst : (c.slots j).state = .empty
      · rw [pending_succ_of_empty hst] at hr
        exact ih hr
      · rw [pending_succ_of_ne hst] at hr
        rcases List.mem_cons.mp hr with rfl | hr
        · exact ⟨j, hst, rfl⟩
        · exact ih hr

theorem mem_todo {r : ℕ × ℕ} (hr : r ∈ c.todo) :
    ∃ i, (c.slots i).state ≠ .empty ∧ (c.slots i).range = r := by
  unfold todo at hr
  split at hr
  · exact mem_pending hr
  · exact mem_pending hr

/-- The ring keeps the stream from `l_rb_offset` to its end. -/
theorem RingOk.keepsByte (h : RingOk c σ L T off) (ht : TailOk c L T) (hlow : c.lRbOffset ≤ o)
    (hhigh : o < c.hOffset) : c.KeepsByte σ o := by
  have hw := h.window
  rw [hw.low] at hlow
  by_cases hring : o < c.hRbOffset
  · -- a complete slot has the offset
    rw [hw.high] at hring
    rcases Window.exists_slot hw.le hlow hring with ⟨q, hL, hT, hq⟩
    have hspan := hw.spans q hL hT
    have hend := hspan.2.1
    exact h.stores.keepsByte hspan.1 hq.1 (by omega)
  · -- the tail slot has it
    have hreceived := h.received
    have hpart : (c.slots c.tail).state = .part := by
      by_contra hne
      rw [tailBytes_of_ne_part hne] at hreceived
      omega
    have havail : (c.slots c.tail).available := (Slot.available_iff _).mpr (Or.inr hpart)
    rw [tailBytes_of_available havail] at hreceived
    rcases ht with ht | ⟨-, hLT, ht⟩
    · have hlt := hw.lt_of_available ht havail
      rcases hw.free T (Nat.le_refl T) hlt with hst | ⟨-, -, -, a, hspan⟩
      · rw [← ht, hpart] at hst
        cases hst
      · rw [← ht, ← hw.high] at hspan
        exact h.stores.keepsByte hspan.1 (by omega) (by omega)
    · -- a lagging tail slot is complete
      have hcomplete := hw.complete (T - 1) (by omega) (by omega)
      rw [← ht, Slot.complete_iff_not_available, havail] at hcomplete
      cases hcomplete

/-- While the ring is copied, the ring and the file together keep the stream. -/
theorem Copying.keepsByte (h : Copying c σ l e) (hlow : l ≤ o) (hhigh : o < c.hOffset) :
    c.KeepsByte σ o := by
  rcases h.file with ⟨f, hf, -, -, hcopied, happended⟩
  have hwritten := h.written
  have hle := h.le
  have hend : o < l + c.wDkPos := by omega
  rcases Nat.lt_or_ge o (l + c.mDkPos) with hdone | hdone
  · -- it has been copied
    refine keepsByte_of_file hf h.start (Nat.le_refl l) ?_ hlow hdone hend
    simpa using hcopied
  rcases Nat.lt_or_ge o e with htodo | htodo
  · -- it is in a slot that is still to be copied
    rcases h.todo.exists_mem hdone htodo with ⟨r, hr, hin⟩
    rcases mem_todo hr with ⟨i, hst, rfl⟩
    rcases h.labelled i hst with ⟨a, ha⟩
    rw [Slot.range, Slot.offsetEnd, ha, Offset.val_some] at hin
    exact h.stores.keepsByte ha hin.1 hin.2
  · -- it was pushed since
    exact keepsByte_of_file hf h.start (by omega) happended htodo (by omega) hend

/-- Once the ring is copied, the file keeps the stream. -/
theorem Copied.keepsByte (h : Copied c σ l) (hlow : l ≤ o) (hhigh : o < c.hOffset) :
    c.KeepsByte σ o := by
  rcases h.mirror.file with ⟨f, hf, -, hholds⟩
  have hlength := h.mirror.length
  have hcount := h.length
  refine keepsByte_of_file hf h.start (Nat.le_refl l) ?_ hlow (k := c.wDkPos) (by omega) (by omega)
  simpa using hholds

/-! ## The counters that the answer compares with -/

/-- The read position is not beyond the write position, and `h_dk_offset` is the
end of the stream from the first write on; with that the ring is migrated. -/
structure DiskBounds (c : Cache n) : Prop where
  behind : c.rDkPos ≤ c.wDkPos
  idle : c.isRecording = false → c.rDkPos = 0 ∧ c.hDkOffset = none
  high : ∀ h, c.hDkOffset = some h → h = c.hOffset
  written : c.isRbMigrated = true → c.hDkOffset ≠ none

/-- What a read adds to the read position does not reach beyond the write position. -/
theorem readSize_le_behind (h : c.rDkPos ≤ c.wDkPos) : c.rDkPos + c.readSize ≤ c.wDkPos := by
  have hle := Nat.min_le_left (gsizeSub c.wDkPos c.rDkPos) cacheSlotSize
  -- behind the write position the difference does not wrap around
  unfold readSize
  rw [gsizeSub, if_pos h] at hle ⊢
  omega

theorem recycle_behind (i : Fin n) (h : c.rDkPos ≤ c.wDkPos) :
    (c.recycle i).rDkPos ≤ (c.recycle i).wDkPos := by
  rcases c.recycle_frame i with ⟨_, _, _, _, _, _, heq⟩
  rw [heq]
  exact h

theorem diskWrite_behind (h : c.rDkPos ≤ c.wDkPos) (data : Block UInt8) (p : Platform) :
    (c.diskWrite data p).rDkPos ≤ (c.diskWrite data p).wDkPos := by
  unfold Cache.diskWrite
  repeat' split
  · exact h
  · exact h
  · dsimp only
    split <;> omega

theorem diskRead_behind (h : c.rDkPos ≤ c.wDkPos) {i : Fin n} {k : ℕ} {drain ok : Bool}
    (hread : c.diskRead i o drain p k = (c', ok)) : c'.rDkPos ≤ c'.wDkPos := by
  cases ok with
  | true =>
      rcases diskRead_true hread with ⟨f, -, -, -, -, -, rfl⟩
      exact readSize_le_behind h
  | false =>
      rcases diskRead_false hread with rfl | ⟨-, bytes, m, rfl⟩
      · exact h
      · exact h

theorem reload_behind (h : c.rDkPos ≤ c.wDkPos) (drain : Bool) (p : Platform) :
    (c.reload drain p).rDkPos ≤ (c.reload drain p).wDkPos := by
  refine reload_induct (P := fun c => c.rDkPos ≤ c.wDkPos) ?_ ?_ ?_ h
  · intro c hc
    exact recycle_behind c.tail hc
  · intro c c' k hc _ hread
    have hbehind : c'.rDkPos ≤ c'.wDkPos := diskRead_behind hc hread
    exact hbehind
  · intro c c' k hc hread
    exact diskRead_behind hc hread

namespace DiskBounds

theorem of_new (memory : Fin n → ℕ → UInt8) (file : Option File) :
    DiskBounds (Cache.new n memory file) where
  behind := Nat.le_refl _
  idle _ := ⟨rfl, rfl⟩
  high _ h := by cases h
  written h := by cases h

/-- None of the counters has changed. -/
theorem congr (h : DiskBounds c) (hread : c'.rDkPos = c.rDkPos) (hwrite : c'.wDkPos = c.wDkPos)
    (hhigh : c'.hDkOffset = c.hDkOffset) (hcount : c'.hOffset = c.hOffset)
    (hrec : c'.isRecording = c.isRecording) (hmig : c'.isRbMigrated = c.isRbMigrated) :
    DiskBounds c' := by
  constructor
  · rw [hread, hwrite]
    exact h.behind
  · rw [hrec, hread, hhigh]
    exact h.idle
  · rw [hhigh, hcount]
    exact h.high
  · rw [hmig, hhigh]
    exact h.written

theorem restate (h : DiskBounds c) (hr : Restate c c') : DiskBounds c' := by
  rcases hr.frame with ⟨_, _, _, _, rfl⟩
  exact h.congr rfl rfl rfl rfl rfl rfl

theorem promote (h : DiskBounds c) : DiskBounds c.promote := by
  rcases (SameContent.promote c).frame with ⟨_, _, _, _, _, heq⟩
  rw [heq]
  exact h.congr rfl rfl rfl rfl rfl rfl

/-- Nothing has been written to the file while the bytes go to the ring. -/
theorem frame (h : DiskBounds c) (hrec : c.isRecording = false) (hf : RingFrame c c') :
    DiskBounds c' := by
  have hnone := (h.idle hrec).2
  rcases hf with ⟨_, _, _, _, _, _, rfl⟩
  refine ⟨h.behind, h.idle, ?_, h.written⟩
  intro o ho
  rw [hnone] at ho
  cases ho

theorem reload (h : DiskBounds c) (hrec : c.isRecording = true) (drain : Bool) (p : Platform) :
    DiskBounds (c.reload drain p) := by
  have hbehind := reload_behind h.behind drain p
  rcases c.reload_frame drain p with ⟨_, _, _, _, _, _, heq⟩
  rw [heq] at hbehind ⊢
  refine ⟨hbehind, ?_, h.high, h.written⟩
  intro hidle
  rw [hrec] at hidle
  cases hidle

/-- A write sets `h_dk_offset`. -/
theorem diskWrite (h : DiskBounds c) (hrec : c.isRecording = true) (hp : p.FilesOk)
    (data : Block UInt8) : DiskBounds (c.diskWrite data p) := by
  rcases Option.eq_none_or_eq_some c.file with hf | ⟨f, hf⟩
  · rw [Cache.diskWrite, hf]
    exact h
  · have hbehind := h.behind
    rw [diskWrite_guint hf hp.writeSeek (by rw [hp.fwrite]; rfl)]
    constructor
    · show c.rDkPos ≤ c.wDkPos + guint data.size
      omega
    · intro hidle
      rw [hrec] at hidle
      cases hidle
    · intro o ho
      exact (Option.some.inj ho).symm
    · intro _
      simp

/-- The recording starts with the read position at the beginning of the file. -/
theorem startRecording (h : DiskBounds c) (hrec : c.isRecording = false) (p : Platform) :
    DiskBounds (c.startRecording p).1 := by
  rcases c.startRecording_cases p with ⟨heq, -⟩ | ⟨-, -, -, heq⟩
  · rw [heq]
    exact h
  · have hzero := (h.idle hrec).1
    rw [heq]
    refine ⟨?_, ?_, h.high, h.written⟩
    · show c.rDkPos ≤ gsizeSub c.hOffset c.lRbOffset
      rw [hzero]
      exact Nat.zero_le _
    · intro hidle
      cases hidle

/-- A recording that could not create its thread is started again. -/
theorem restart (h : DiskBounds c) (hcopying : Copying c σ l e) (p : Platform) :
    DiskBounds (c.startRecording p).1 := by
  have hwritten := hcopying.written
  have hwritten' := (hcopying.startRecording p).written
  rw [startRecording_hOffset] at hwritten'
  have hrec := hcopying.recording
  rcases c.startRecording_cases p with ⟨heq, -⟩ | ⟨-, -, -, heq⟩
  · rw [heq]
    exact h
  · rw [heq] at hwritten' ⊢
    refine h.congr rfl ?_ rfl rfl ?_ rfl
    · dsimp only at hwritten' ⊢
      omega
    · exact hrec.symm

theorem push (h : DiskBounds c) (hidle : c.isRecording = false → Idle c) (hp : p.FilesOk)
    (data : Block UInt8) : DiskBounds (c.push data p) := by
  cases hrec : c.isRecording with
  | true =>
      have hwrite := h.diskWrite hrec hp data
      rw [push_recording hrec]
      split
      · exact hwrite.reload ((diskWrite_isRecording _ _ _).trans hrec) false p
      · exact hwrite
  | false =>
      rcases push_frame hrec data p with ⟨c₁, hframe, heq | ⟨k, heq⟩⟩
      · rw [heq]
        exact h.frame hrec hframe
      · have h₁ := h.frame hrec hframe
        have hidle₁ := (hidle hrec).frame hframe
        rw [heq]
        rcases hidle₁.overflow (data.drop k) p with ⟨-, hsame⟩ | ⟨-, hstart⟩
        · rw [hsame]
          exact h₁
        · rw [diskWrite_isRecording] at hstart
          exact (h₁.startRecording hidle₁.notRecording p).diskWrite hstart hp _

theorem pop (h : DiskBounds c) (drain : Bool) (p : Platform) : DiskBounds (c.pop drain p).1 := by
  refine pop_induct (P := DiskBounds) ?_ ?_ ?_ h
  · intro c₁ h₁
    exact h₁.promote
  · intro c₁ hfull h₁
    exact h₁.restate (take_restate hfull)
  · intro c₁ hrec _ h₁
    exact h₁.reload hrec drain p

/-- Only the end of the walk makes the disk usable. -/
theorem migrate (h : DiskBounds c) (p : Platform)
    (hend : ∀ i j, c.thread = some (.walking i j) → n ≤ i → c.hDkOffset ≠ none) :
    DiskBounds (c.migrationThread p) := by
  unfold Cache.migrationThread
  split
  · exact h.congr rfl rfl rfl rfl rfl rfl
  · rename_i i j hthread
    dsimp only
    split
    · -- a round of the walk
      repeat' split
      all_goals exact h.congr rfl rfl rfl rfl rfl rfl
    · rename_i hi
      refine ⟨h.behind, h.idle, h.high, ?_⟩
      intro _
      exact hend i j hthread (by omega)
  · exact h

end DiskBounds

/-! ## Disk seeks -/

/-- The cache that a disk seek refills: the ring is empty, and the read position is
that of the offset. -/
def sought (c : Cache n) (offset : ℕ) : Cache n :=
  { c.flush with
    rDkPos := gsizeSub offset c.lDkOffset.val
    hRbOffset := offset
    lRbOffset := offset }

theorem seekDisk_eq (c : Cache n) (offset : ℕ) (p : Platform) :
    c.seekDisk offset p = (c.sought offset).reload false p := rfl

/-- A disk seek moves the read position to the write position at most, because the
offset is clamped to the range of the file. -/
theorem DiskBounds.sought (h : DiskBounds c) (hc : Copied c σ l) (o : ℕ) :
    DiskBounds (c.sought (c.clamp o)) := by
  have hlength := hc.mirror.length
  have hcount := hc.length
  have hdisk : c.isDiskUsable = true := by
    rw [isDiskUsable, hc.recording, hc.migrated]
    rfl
  rcases Option.ne_none_iff_exists'.mp (h.written hc.migrated) with ⟨hi, hhi⟩
  have hend := h.high hi hhi
  have htarget : l ≤ c.clamp o ∧ c.clamp o ≤ l + c.wDkPos := by
    simp only [clamp, hdisk, if_true, hhi, hc.low, Offset.val_some]
    omega
  refine ⟨?_, ?_, h.high, h.written⟩
  · show gsizeSub (c.clamp o) c.lDkOffset.val ≤ c.wDkPos
    rw [hc.low, Offset.val_some, gsizeSub, if_pos htarget.1]
    omega
  · intro hidle
    have hrec : c.isRecording = false := hidle
    rw [hc.recording] at hrec
    cases hrec

/-! ## The reads of an operation -/

/-- The states of the cache in which the rounds of a reload call
`gst_shifter_cache_disk_read`. -/
def reloadReads (drain : Bool) (p : Platform) : ℕ → ℕ → Cache n → List (Cache n)
  | 0, _, _ => []
  | rounds + 1, k, c =>
    let c := c.recycle c.tail
    c :: match c.diskRead c.tail c.hRbOffset drain p k with
      | (c, true) => reloadReads drain p rounds (k + 1) c.advance
      | (_, false) => []

/-- The states in which a reload reads. -/
def reads (c : Cache n) (drain : Bool) (p : Platform) : List (Cache n) :=
  reloadReads drain p (c.reloadRounds drain) 0 c

/-- All reads of a reload start at a position that has been written. -/
theorem reads_behind (h : c.rDkPos ≤ c.wDkPos) (drain : Bool) (p : Platform) :
    ∀ c' ∈ c.reads drain p, c'.rDkPos ≤ c'.wDkPos := by
  unfold reads
  generalize c.reloadRounds drain = rounds
  generalize 0 = k
  -- each round reads from where the last one has stopped
  induction rounds generalizing c k with
  | zero =>
      intro c' hc'
      cases hc'
  | succ rounds ih =>
      intro c' hc'
      have hrec := recycle_behind c.tail h
      rw [reloadReads] at hc'
      generalize c.recycle c.tail = c₁ at hrec hc'
      generalize hread : c₁.diskRead c₁.tail c₁.hRbOffset drain p k = res at hc'
      rcases res with ⟨c₂, ok⟩
      have hnext := diskRead_behind hrec hread
      rcases List.mem_cons.mp hc' with rfl | hc'
      · exact hrec
      · cases ok with
        | true => exact ih (c := c₂.advance) hnext (k + 1) c' hc'
        | false => cases hc'

/-! ## What the answer means -/

/-- An offset that the cache answers for with yes is that of a byte that is kept. -/
theorem Recorder.keepsByte (h : Recorder c σ b) (hb : DiskBounds c)
    (ho : c.hasOffset o = true) : o < c.hOffset ∧ c.KeepsByte σ o := by
  have hring : c.isRbMigrated = false → c.lRbOffset ≤ o ∧ o < c.hOffset := by
    intro hmig
    rw [hasOffset, isDiskUsable, hmig, Bool.and_false, if_neg Bool.false_ne_true] at ho
    simpa using ho
  rcases h with h | ⟨-, ⟨l, e, h⟩ | ⟨l, h⟩⟩
  · have hin := hring h.notMigrated
    rcases h.ring with ⟨L, T, off, hok, ht⟩
    exact ⟨hin.2, hok.keepsByte ht hin.1 hin.2⟩
  · have hin := hring h.notMigrated
    rw [h.low] at hin
    exact ⟨hin.2, h.keepsByte hin.1 hin.2⟩
  · rcases Option.ne_none_iff_exists'.mp (hb.written h.migrated) with ⟨hi, hhi⟩
    have hend := hb.high hi hhi
    have hin : l ≤ o ∧ o < hi := by
      rw [hasOffset, isDiskUsable, h.recording, h.migrated, h.low, hhi] at ho
      simpa using ho
    rw [hend] at hin
    exact ⟨hin.2, h.keepsByte hin.1 hin.2⟩

end Cache

/-! ## Runs -/

namespace Session

open Cache

variable {n : ℕ} [NeZero n] {s s' : Session n} {p : Platform} {b : Bool}

/-- The walk of the migration thread does not end before something has been written
to the file. -/
def writtenBefore (s : Session n) : Label → Prop
  | (.migrate, _) => ∀ i j, s.cache.thread = some (.walking i j) → n ≤ i →
      s.cache.hDkOffset ≠ none
  | _ => True

/-- A seek goes to an offset that the cache has answered for with yes. -/
def seeksKnown (s : Session n) : Label → Prop
  | (.seek offset, _) => s.cache.hasOffset offset = true
  | _ => True

/-- The states of the cache in which the step calls `gst_shifter_cache_disk_read`. -/
def diskReads (s : Session n) : Label → List (Cache n)
  | (.push data, p) =>
    if s.cache.isRecording then
      let c := s.cache.diskWrite data p
      if c.isEmpty then c.reads false p else []
    else []
  | (.pop drain, p) =>
    let c := if drain then s.cache.promote else s.cache
    if (c.slots c.head).state = .full then
      let c := c.take
      if c.isRecording && c.isRbMigrated then c.reads drain p else []
    else []
  | (.seek offset, p) =>
    let target := s.cache.clamp offset
    if s.cache.lRbOffset ≤ target ∧ target < s.cache.hRbOffset then []
    else if s.cache.isDiskUsable then (s.cache.sought target).reads false p
    else []
  | (.reload drain, p) => s.cache.reads drain p
  | _ => []

/-- A session on a recorder whose counters are in order. -/
structure Answering (s : Session n) (b : Bool) : Prop where
  recorded : Recorded s b
  bounds : DiskBounds s.cache

namespace Answering

theorem of_init (memory : Fin n → ℕ → UInt8) (file : Option File) :
    Answering (init n memory file) file.isSome :=
  ⟨.of_init memory file, .of_new memory file⟩

theorem bounds_step (h : Answering s b) {l : Label} (hl : recordStep s l)
    (hok : writtenBefore s l) (hs : s.step l = some s') : DiskBounds s'.cache := by
  rcases l with ⟨op, p⟩
  cases op with
  | push data =>
      rw [step_push hs]
      refine h.bounds.push ?_ hl data
      intro hrec
      rcases h.recorded.recorder with hbefore | ⟨-, ⟨l, e, hcopying⟩ | ⟨l, hcopied⟩⟩
      · exact hbefore.idle
      · rw [hcopying.recording] at hrec
        cases hrec
      · rw [hcopied.recording] at hrec
        cases hrec
  | pop drain =>
      rw [step_pop hs, afterPop_cache]
      exact h.bounds.pop drain p
  | release k =>
      rcases step_release hs with ⟨x, hx, rfl⟩
      exact h.bounds.congr rfl rfl rfl rfl rfl rfl
  | seek offset =>
      rcases step_seek hs with ⟨-, c, hc, rfl⟩
      rcases seek_cases hc with ⟨-, -, hring⟩ | ⟨-, hdisk, rfl⟩ | ⟨-, -, rfl⟩
      · exact h.bounds.restate (seekRing_restate hring)
      · rw [isDiskUsable, Bool.and_eq_true] at hdisk
        rcases h.recorded.recorder.copied hdisk.2 with ⟨-, l, hcopied⟩
        rw [seekDisk_eq]
        exact (h.bounds.sought hcopied offset).reload hdisk.1 false p
      · exact h.bounds
  | startRecording =>
      rw [step_startRecording hs]
      rcases h.recorded.recorder with hbefore | ⟨-, ⟨l, e, hcopying⟩ | ⟨l, hcopied⟩⟩
      · exact h.bounds.startRecording hbefore.idle.notRecording p
      · exact h.bounds.restart hcopying p
      · -- the thread has been created, so that nothing is started
        rcases s.cache.startRecording_cases p with ⟨heq, -⟩ | ⟨-, habs, -⟩
        · rw [heq]
          exact h.bounds
        · rw [hcopied.finished] at habs
          cases habs
  | migrate =>
      rw [step_migrate hs]
      exact h.bounds.migrate p hok
  | reload drain => cases hl

/-- Every read of the next step starts at a position that has been written. -/
theorem diskReads_behind (h : Answering s b) (l : Label) :
    ∀ c ∈ s.diskReads l, c.rDkPos ≤ c.wDkPos := by
  have hbehind := h.bounds.behind
  intro c hc
  rcases l with ⟨op, p⟩
  cases op with
  | push data =>
      simp only [diskReads] at hc
      split at hc
      · split at hc
        · exact reads_behind (diskWrite_behind hbehind data p) false p c hc
        · cases hc
      · cases hc
  | pop drain =>
      have hhead : (if drain then s.cache.promote else s.cache).rDkPos ≤
          (if drain then s.cache.promote else s.cache).wDkPos := by
        cases drain with
        | true => exact h.bounds.promote.behind
        | false => exact hbehind
      dsimp only [diskReads] at hc
      generalize (if drain = true then s.cache.promote else s.cache) = c₁ at hhead hc
      split at hc
      · split at hc
        · exact reads_behind (c := c₁.take) hhead drain p c hc
        · cases hc
      · cases hc
  | seek offset =>
      simp only [diskReads] at hc
      split at hc
      · cases hc
      · split at hc
        · rename_i hdisk
          rw [isDiskUsable, Bool.and_eq_true] at hdisk
          rcases h.recorded.recorder.copied hdisk.2 with ⟨-, l, hcopied⟩
          exact reads_behind (h.bounds.sought hcopied offset).behind false p c hc
        · cases hc
  | reload drain => exact reads_behind hbehind drain p c hc
  | release k => cases hc
  | startRecording => cases hc
  | migrate => cases hc

end Answering

/-- In every run whose steps keep the slots in order, and whose migration does not end
before something has been written to the file: an offset that the cache answers for with
yes is one of the stream, and its byte is kept in a slot or at its place in the file; the
read position is never beyond the write position, in whatever state a step reads; and a
cache with a file takes all that is pushed. -/
theorem has_offset_sound {memory : Fin n → ℕ → UInt8} {file : Option File}
    (h : Reach Session.step (fun s l => recordStep s l ∧ keepsOrder s l ∧ writtenBefore s l)
      (init n memory file) s) :
    (∀ o, s.cache.hasOffset o = true →
        o < s.cache.hOffset ∧ s.cache.KeepsByte s.accepted o) ∧
      s.cache.rDkPos ≤ s.cache.wDkPos ∧
      (∀ l, ∀ c ∈ s.diskReads l, c.rDkPos ≤ c.wDkPos) ∧
      (file.isSome = true → s.accepted = s.pushed) := by
  have hinv : Answering s file.isSome := by
    refine h.invariant (P := fun s => Answering s file.isSome) (.of_init memory file) ?_
    intro s l s' hinv hok hs
    exact ⟨hinv.recorded.step hok.1 hok.2.1 hs, hinv.bounds_step hok.1 hok.2.2 hs⟩
  refine ⟨?_, hinv.bounds.behind, hinv.diskReads_behind, hinv.recorded.stream⟩
  intro o ho
  exact hinv.recorded.recorder.keepsByte hinv.bounds ho

/-- A slot and a byte: the byte is in the file when the migration ends. -/
theorem has_offset_sound_overflow : ∃ s : Session 1,
    Reach Session.step (fun s l => recordStep s l ∧ keepsOrder s l ∧ writtenBefore s l)
      (init 1 (fun _ _ => 0) (some .new)) s ∧
      s.cache.hasOffset cacheSlotSize = true ∧
      s.cache.KeepsByte s.accepted cacheSlotSize := by
  have h₀ : Reach Session.step
    (fun s l => recordStep s l ∧ keepsOrder s l ∧ writtenBefore s l)
    (init 1 (fun _ _ => 0) (some .new)) _ := .refl
  -- the byte behind the slot starts the recording, and is written at once
  have h₁ := h₀.extend (.push ⟨cacheSlotSize + 1, fun _ => 7⟩, .allOk)
    ⟨Platform.allOk_filesOk, ⟨by decide, fun _ _ => Or.inl rfl,
      fun habs => absurd habs (by decide)⟩, trivial⟩ rfl
  have h₂ := h₁.extend (.migrate, .allOk)
    ⟨Platform.allOk_filesOk, trivial, fun _ _ _ _ habs => nomatch habs⟩ rfl
  have h₃ := h₂.extend (.migrate, .allOk)
    ⟨Platform.allOk_filesOk, trivial, fun _ _ _ _ habs => nomatch habs⟩ rfl
  have h₄ := h₃.extend (.migrate, .allOk)
    ⟨Platform.allOk_filesOk, trivial, fun _ _ _ _ habs => nomatch habs⟩ rfl
  exact ⟨_, h₄, rfl, ((has_offset_sound h₄).1 cacheSlotSize rfl).2⟩

/-- A recording that is started on an empty cache, and migrated before anything is
pushed: every offset is answered for with yes, and a seek to one of them moves the read
position beyond the write position. -/
theorem answers_for_anything :
    (¬∀ s : Session 1, Reach Session.step (fun s l => recordStep s l ∧ seeksKnown s l)
        (init 1 (fun _ _ => 0) (some .new)) s →
      ∀ o, s.cache.hasOffset o = true → o < s.cache.hOffset) ∧
    ¬∀ s : Session 1, Reach Session.step (fun s l => recordStep s l ∧ seeksKnown s l)
        (init 1 (fun _ _ => 0) (some .new)) s → s.cache.rDkPos ≤ s.cache.wDkPos := by
  have h₀ : Reach Session.step (fun s l => recordStep s l ∧ seeksKnown s l)
    (init 1 (fun _ _ => 0) (some .new)) _ := .refl
  have h₁ := h₀.extend (.startRecording, .allOk) ⟨Platform.allOk_filesOk, trivial⟩ rfl
  -- the thread begins, walks over the empty slot and ends
  have h₂ := h₁.extend (.migrate, .allOk) ⟨Platform.allOk_filesOk, trivial⟩ rfl
  have h₃ := h₂.extend (.migrate, .allOk) ⟨Platform.allOk_filesOk, trivial⟩ rfl
  have h₄ := h₃.extend (.migrate, .allOk) ⟨Platform.allOk_filesOk, trivial⟩ rfl
  constructor
  · intro hall
    exact absurd (hall _ h₄ 5 rfl) (by decide)
  · intro hall
    -- the file is empty, and the read position 5
    have h₅ := h₄.extend (.seek 5, .allOk) ⟨Platform.allOk_filesOk, rfl⟩ rfl
    exact absurd (hall _ h₅) (by decide)

end Session

end TimeShift
