import TimeShift.Cache.Disk
import TimeShift.Cache.Isolation

/-!
# Reading on from a disk seek

A seek to an offset that is on the disk only flushes the ring and sets the read
position in the file and the offsets of the ring in step. From then on the
reader gets the stream from exactly that offset, whatever is pushed, popped,
drained and released, as long as the writer hands over less than `2 ^ 32` bytes
at a time: a disk write takes its size as a `guint`.
-/

set_option linter.unusedSectionVars false

namespace TimeShift

open Bytes Cyclic Machine

namespace Session

open Cache

variable {n : ℕ} [NeZero n] {s s' : Session n} {p : Platform} {o l L R T : ℕ} {off : ℕ → ℕ}

/-- Reading, draining and writing, with a working file. -/
def diskStep (_ : Session n) : Label → Prop
  | (.push _, p) | (.pop _, p) | (.release _, p) => p.FilesOk
  | _ => False

/-- The size of a push fits a `guint`. -/
def pushFits (_ : Session n) : Label → Prop
  | (.push data, _) => data.size < 2 ^ 32
  | _ => True

/-- A session on a migrated cache whose reader has got the stream from `o` to
position `R` of the ring. -/
structure AtDisk (s : Session n) (o l L R T : ℕ) (off : ℕ → ℕ) : Prop where
  ring : DiskRing s.cache s.pushed l L T off
  nonePart : NonePart s.cache
  fulls : Fulls s.cache L R T
  head : s.cache.head = idx n R
  pos : s.readPos = off R
  live : LiveOk s.cache s.live
  reads : Reads s.pushed o (s.popped.map Buffer.piece) s.readPos
  recording : s.cache.isRecording = true

namespace AtDisk

/-- A reload, after something that has left the reader where it was. -/
theorem reload (h : AtDisk s o l L R T off) (hp : p.FilesOk) (drain : Bool) :
    ∃ L' T' off', AtDisk { s with cache := s.cache.reload drain p } o l L' R T' off' := by
  obtain ⟨L', T', off', hring, hgrows, hfulls, hpart⟩ := h.ring.reload hp drain
  have hhead := s.cache.reload_head drain p
  have hrec := s.cache.reload_isRecording drain p
  exact ⟨L', T', off', hring, hpart h.nonePart, hfulls R h.fulls, hhead.trans h.head,
    h.pos.trans (hgrows.2 R h.fulls.upper).symm, h.live.frozen (s.cache.reload_frozen drain p),
    h.reads, hrec.trans h.recording⟩

theorem push (h : AtDisk s o l L R T off) (hp : p.FilesOk) {data : Block UInt8}
    (hsize : data.size < 2 ^ 32) (hs : s.step (.push data, p) = some s') :
    ∃ L' T' off', AtDisk s' o l L' R T' off' := by
  have hsame := s.cache.diskWrite_sameRing data p
  -- the session after the write, before the refill
  have hwrite : AtDisk { s with
      cache := s.cache.diskWrite data p
      pushed := s.pushed ++ data.toList } o l L R T off := by
    refine ⟨h.ring.diskWrite hp hsize, ?_, h.fulls.sameRing hsame, hsame.head.trans h.head,
      h.pos, h.live.frozen hsame.frozen, h.reads.append _, ?_⟩
    · intro i
      show ((s.cache.diskWrite data p).slots i).state ≠ .part
      rw [hsame.slots]
      exact h.nonePart i
    · exact (diskWrite_isRecording _ _ _).trans h.recording
  have hgoal : ∀ {t : Session n} {L' T' : ℕ} {off' : ℕ → ℕ},
      AtDisk t o l L' R T' off' →
        ∀ accepted, AtDisk { t with accepted := accepted } o l L' R T' off' :=
    fun ht _ => ⟨ht.ring, ht.nonePart, ht.fulls, ht.head, ht.pos, ht.live, ht.reads, ht.recording⟩
  rw [step_push hs, Cache.push_recording h.recording]
  split
  · obtain ⟨L', T', off', hreload⟩ := hwrite.reload hp false
    exact ⟨L', T', off', hgoal hreload _⟩
  · exact ⟨L, T, off, hgoal hwrite _⟩

theorem pop (h : AtDisk s o l L R T off) (hp : p.FilesOk) {drain : Bool}
    (hs : s.step (.pop drain, p) = some s') :
    ∃ L' R' T' off', AtDisk s' o l L' R' T' off' := by
  have heq := step_pop hs
  obtain ⟨c₁, hc₁, hpop⟩ := s.cache.pop_cases drain p
  -- there is no partly written slot to drain
  have hsame : c₁ = s.cache := by
    rw [hc₁]
    split
    · simp [promote, h.nonePart s.cache.head]
    · rfl
  subst hsame
  rcases hpop with ⟨-, hpop⟩ | ⟨hfull, hpop⟩
  · rw [hpop] at heq
    subst heq
    exact ⟨L, R, T, off, h⟩
  · have hlt := h.fulls.lt_of_head_full h.ring.window hfull
    obtain ⟨hfulls, hhead⟩ := h.fulls.take h.ring.window.fits h.head hlt
    obtain ⟨hoff, hend⟩ := h.ring.window.slotBuffer_range h.head h.fulls.lower hlt
    have hspan := h.ring.window.spans R h.fulls.lower hlt
    rw [← h.head] at hspan
    have hnew := (h.ring.stores.head_buffer hspan).reads
    rw [hoff, ← h.pos] at hnew
    -- the session after the slot is taken, before the refill
    have htake : AtDisk (s.afterPop (s.cache.take, some s.cache.slotBuffer)) o l L (R + 1) T
        off := by
      refine ⟨h.ring.restate (take_restate hfull), ?_, hfulls, hhead, hend, h.live.take hfull, ?_,
        h.recording⟩
      · exact h.nonePart.update (i := s.cache.head) rfl (by simp)
      · show Reads s.pushed o ((s.popped ++ [s.cache.slotBuffer]).map Buffer.piece) _
        rw [List.map_append]
        exact h.reads.trans hnew
    rw [hpop] at heq
    split at heq
    · obtain ⟨L', T', off', hreload⟩ := htake.reload hp drain
      subst heq
      exact ⟨L', R + 1, T', off', hreload⟩
    · subst heq
      exact ⟨L, R + 1, T, off, htake⟩

theorem release (h : AtDisk s o l L R T off) {k : ℕ} (hs : s.step (.release k, p) = some s') :
    AtDisk s' o l L R T off := by
  have hlive := step_liveOk h.live hs
  obtain ⟨b, hb, rfl⟩ := step_release hs
  have hstate := h.live.state (List.mem_of_getElem? hb)
  exact ⟨h.ring.restate (release_restate hstate),
    h.nonePart.update (i := b.slot) rfl (by simp), h.fulls.release hstate, h.head, h.pos,
    hlive, h.reads, h.recording⟩

theorem step (h : AtDisk s o l L R T off) {k : Label} (hk : diskStep s k) (hfits : pushFits s k)
    (hs : s.step k = some s') : ∃ L' R' T' off', AtDisk s' o l L' R' T' off' := by
  obtain ⟨op, p⟩ := k
  cases op with
  | push data =>
      obtain ⟨L', T', off', h'⟩ := h.push hk hfits hs
      exact ⟨L', R, T', off', h'⟩
  | pop drain => exact h.pop hk hs
  | release k => exact ⟨L, R, T, off, h.release hs⟩
  | seek offset => cases hk
  | startRecording => cases hk
  | migrate => cases hk
  | reload drain => cases hk

end AtDisk

/-- A migrated cache whose file mirrors the stream `σ`, with no popped buffer
outstanding. -/
structure Migrated (c : Cache n) (σ : List UInt8) (l : ℕ) : Prop where
  recording : c.isRecording = true
  migrated : c.isRbMigrated = true
  low : c.lDkOffset = some l
  high : c.hDkOffset = some c.hOffset
  le : l ≤ c.hOffset
  written : c.wDkPos = c.hOffset - l
  length : σ.length = c.hOffset
  file : ∃ f, c.file = some f ∧ c.wDkPos ≤ f.len ∧ Holds σ l c.wDkPos f.byte
  nonePopped : ∀ i, (c.slots i).state ≠ .pop

/-- The ring right after a disk seek has flushed it. -/
theorem Migrated.flushed {c : Cache n} {σ : List UInt8} (h : Migrated c σ l) (hlow : l ≤ o)
    (hhigh : o < c.hOffset) (pos : ℕ) :
    AtDisk { ofCache { c.flush with
        rDkPos := gsizeSub o (Offset.val c.lDkOffset)
        hRbOffset := o
        lRbOffset := o } σ pos with readPos := o } o l 0 0 0 (fun _ => o) := by
  have hr : gsizeSub o (Offset.val c.lDkOffset) = o - l := by
    rw [h.low, Offset.val_some, gsizeSub, if_pos hlow]
  have hle := h.le
  have hwritten := h.written
  refine ⟨⟨⟨Nat.le_refl _, Nat.zero_le _, rfl, rfl, ?_, ?_, ?_⟩, rfl, ?_, ⟨h.file, ?_⟩, ?_, ?_⟩,
    ?_, ⟨Nat.le_refl _, Nat.le_refl _, rfl, ?_⟩, rfl, rfl, ?_, rfl, h.recording⟩
  · intro q _ hq
    omega
  · intro q _ hq
    omega
  · intro q _ _
    exact Or.inl rfl
  · intro i a ha
    cases ha
  · show σ.length = l + c.wDkPos
    rw [h.length]
    omega
  · show o = l + gsizeSub o (Offset.val c.lDkOffset)
    rw [hr]
    omega
  · show gsizeSub o (Offset.val c.lDkOffset) ≤ c.wDkPos
    rw [hr]
    omega
  · intro i hi
    cases hi
  · intro q _ hq
    omega
  · refine liveOk_nil.mpr ?_
    intro i hi
    cases hi

/-- After a seek to an offset that is on the disk only, in every run of pushes
that fit a `guint`, pops, draining or not, and releases, the popped buffers are
the stream from exactly that offset on. -/
theorem disk_seek_exact {c : Cache n} {σ : List UInt8} (h : Migrated c σ l) (hlow : l ≤ o)
    (hhigh : o < c.hOffset) (hout : ¬(c.lRbOffset ≤ o ∧ o < c.hRbOffset)) (hp : p.FilesOk)
    (pos : ℕ) :
    ∃ s₁, (ofCache c σ pos).step (.seek o, p) = some s₁ ∧
      ∀ s, Reach Session.step (fun s k => diskStep s k ∧ pushFits s k) s₁ s →
        Reads s.pushed o (s.popped.map Buffer.piece) s.readPos := by
  have hdisk : c.isDiskUsable = true := by simp [isDiskUsable, h.recording, h.migrated]
  have hclamp : c.clamp o = o := by
    simp only [clamp, hdisk, if_true, h.high, h.low, Offset.val_some]
    omega
  have hseek : c.seek o p = some (c.seekDisk o p) := by
    rw [Cache.seek, hclamp, if_neg hout, if_pos hdisk]
  have hpos : c.seekPos o pos = o := by
    rw [seekPos, hclamp, if_neg hout, if_pos hdisk]
  refine ⟨{ ofCache c σ pos with cache := c.seekDisk o p, readPos := o }, ?_, ?_⟩
  · simp only [step, ofCache, List.isEmpty_nil, if_true, hseek, hpos]
  · intro s hs
    have hinv : ∃ L R T off, AtDisk s o l L R T off := by
      refine hs.invariant (P := fun s => ∃ L R T off, AtDisk s o l L R T off) ?_ ?_
      · obtain ⟨L', T', off', hreload⟩ := (h.flushed hlow hhigh pos).reload hp false
        exact ⟨L', 0, T', off', hreload⟩
      · rintro s k s' ⟨L, R, T, off, hat⟩ hok hstep
        exact hat.step hok.1 hok.2 hstep
    obtain ⟨L, R, T, off, hat⟩ := hinv
    exact hat.reads

/-- One slot's worth of zeros. -/
def zeroSlot : Block UInt8 := ⟨cacheSlotSize, fun _ => 0⟩

/-- A cache that has read and migrated one slot's worth of zeros. -/
def oneSlotMigrated : Cache 2 :=
  { Cache.new 2 (fun _ _ => 0) (some ⟨cacheSlotSize, zeroSlot.byte⟩) with
    hOffset := cacheSlotSize
    lRbOffset := cacheSlotSize
    hRbOffset := cacheSlotSize
    lDkOffset := some 0
    hDkOffset := some cacheSlotSize
    mDkOffset := some 0
    wDkPos := cacheSlotSize
    isRecording := true
    isRbMigrated := true
    thread := some .finished }

theorem oneSlotMigrated_migrated : Migrated oneSlotMigrated zeroSlot.toList 0 where
  recording := rfl
  migrated := rfl
  low := rfl
  high := rfl
  le := Nat.zero_le _
  written := rfl
  length := Block.length_toList _
  file := by
    refine ⟨_, rfl, Nat.le_refl _, ?_⟩
    intro i hi
    rw [Nat.zero_add]
    exact Block.getElem?_toList zeroSlot hi
  nonePopped i hi := by cases hi

theorem disk_seek_exact_zero :
    ∃ s₁, (ofCache oneSlotMigrated zeroSlot.toList 0).step (.seek 0, .allOk) = some s₁ ∧
      ∀ s, Reach Session.step (fun s k => diskStep s k ∧ pushFits s k) s₁ s →
        Reads s.pushed 0 (s.popped.map Buffer.piece) s.readPos :=
  disk_seek_exact oneSlotMigrated_migrated (Nat.zero_le _) (by decide) (by decide)
    Platform.allOk_filesOk 0

/-- A push of `2 ^ 32` ones, of which the file gets none, and one of twos. -/
def onesThenTwos : List Label :=
  [(.push ⟨2 ^ 32, fun _ => 1⟩, .allOk), (.push ⟨cacheSlotSize, fun _ => 2⟩, .allOk),
    (.pop false, .allOk), (.pop false, .allOk)]

/-- The session right after the seek. -/
def soughtZero : Session 2 :=
  { ofCache oneSlotMigrated zeroSlot.toList 0 with cache := oneSlotMigrated.seekDisk 0 .allOk }

/-- The buffer at the offset of the ones carries twos. -/
theorem twos_for_ones : (run Session.step soughtZero onesThenTwos).map
    (fun s => s.popped.map fun b => (b.offset, b.size, b.data 0)) =
      some [(0, cacheSlotSize, 0), (cacheSlotSize, cacheSlotSize, 2)] := by decide

/-- The stream does not continue from the disk after a push that a `guint`
cannot count. -/
theorem huge_push_breaks_stream :
    ¬∀ s₁ s : Session 2,
      (ofCache oneSlotMigrated zeroSlot.toList 0).step (.seek 0, .allOk) = some s₁ →
      Reach Session.step diskStep s₁ s →
        Reads s.pushed 0 (s.popped.map Buffer.piece) s.readPos := by
  intro hall
  obtain ⟨s, hrun, hpopped⟩ := Option.map_eq_some_iff.mp twos_for_ones
  have hs : Reach Session.step diskStep soughtZero s := by
    refine reach_of_run ?_ hrun
    simp [onesThenTwos, diskStep, Platform.allOk_filesOk]
  obtain ⟨b, hb, hlabel⟩ : ∃ b ∈ s.popped, (b.offset, b.size, b.data 0) =
      (cacheSlotSize, cacheSlotSize, 2) := List.mem_map.mp (by rw [hpopped]; simp)
  simp only [Prod.mk.injEq] at hlabel
  obtain ⟨hoffset, hsize, hdata⟩ := hlabel
  have hpos : 0 < b.size := by
    rw [hsize]
    exact cacheSlotSize_pos
  have hbytes := (hall soughtZero s rfl hs).getElem? (List.mem_map_of_mem hb) (i := 0)
    (by rw [Buffer.piece, Block.length_toList]; exact hpos)
  -- the popped byte is 2, the one pushed at its offset is 1
  have hgot : b.piece.bytes[0]? = some 2 := by
    rw [Buffer.piece, Block.getElem?_toList _ hpos]
    exact congrArg some hdata
  have hpushed : s.pushed[b.piece.start + 0]? = some 1 := by
    have hstart : b.piece.start + 0 = cacheSlotSize := hoffset
    have hzeros : zeroSlot.toList.length = cacheSlotSize := Block.length_toList _
    have hfirst : soughtZero.pushed = zeroSlot.toList := by simp only [soughtZero, ofCache]
    rw [hstart, run_pushed hrun, hfirst, onesThenTwos, List.flatMap_cons,
      List.getElem?_append_right (by omega), hzeros, Nat.sub_self, Op.bytes,
      List.getElem?_append_left (by rw [Block.length_toList]; decide),
      Block.getElem?_toList _ (by decide)]
  rw [hgot, hpushed] at hbytes
  exact absurd hbytes (by decide)

end Session

end TimeShift
