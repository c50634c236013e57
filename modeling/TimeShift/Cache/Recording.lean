import TimeShift.Cache.Isolation
import TimeShift.Cache.Migration

/-!
# From the ring to a file that mirrors the stream

A cache goes through three stages: it is not recording (`Before`), the ring is
being copied (`Copying`), and the file mirrors the stream (`Copied`). Each
operation keeps the stage or leads to the next one. It takes some care at the two
places where the walk of the migration thread could meet the slots out of order:
when the recording starts, the tail slot has to be empty or the oldest one, and a
push must not refill a slot while the ring is copied, unless the ring is still unused.
-/

set_option linter.unusedSectionVars false

namespace TimeShift

open Bytes Cyclic Tiling Machine

namespace Cache

variable {n : ℕ} [NeZero n] {c c' : Cache n} {p : Platform} {L T l e : ℕ} {off : ℕ → ℕ}
  {σ : List UInt8} {b : Bool}

/-! ## Not recording -/

/-- No recording has been started, and the ring stores the stream `σ`. -/
structure Before (c : Cache n) (σ : List UInt8) (b : Bool) : Prop where
  ring : ∃ L T off, RingOk c σ L T off ∧ TailOk c L T
  idle : Idle c
  notMigrated : c.isRbMigrated = false
  notCopied : c.mDkPos = 0
  file : c.file.isSome = b

namespace Before

theorem of_new (memory : Fin n → ℕ → UInt8) (file : Option File) :
    Before (Cache.new n memory file) [] file.isSome where
  ring := ⟨0, 0, _, .of_new memory file, Or.inl rfl⟩
  idle := ⟨rfl, rfl, rfl⟩
  notMigrated := rfl
  notCopied := rfl
  file := rfl

theorem length (h : Before c σ b) : σ.length = c.hOffset := by
  rcases h.ring with ⟨L, T, off, hring, -⟩
  exact hring.length

theorem restate (h : Before c σ b) (hr : Restate c c') : Before c' σ b := by
  rcases h.ring with ⟨L, T, off, hring, ht⟩
  have hring' := hring.restate hr
  have hidle := h.idle.restate hr
  rcases hr.frame with ⟨_, _, _, _, rfl⟩
  exact ⟨⟨L, T, off, hring', ht⟩, hidle, h.notMigrated, h.notCopied, h.file⟩

theorem promote (h : Before c σ b) : Before c.promote σ b := by
  rcases h.ring with ⟨L, T, off, hring, ht⟩
  rcases hring.promote ht with ⟨T', off', hring', ht', -, -⟩
  have hidle := h.idle
  refine ⟨⟨L, T', off', hring', ht'⟩, ?_, ?_, ?_, ?_⟩
  · rcases (SameContent.promote c).frame with ⟨_, _, _, _, _, heq⟩
    rw [heq]
    exact ⟨hidle.notRecording, hidle.notStopped, hidle.noThread⟩
  all_goals
    rcases (SameContent.promote c).frame with ⟨_, _, _, _, _, heq⟩
    rw [heq]
  · exact h.notMigrated
  · exact h.notCopied
  · exact h.file

/-- Only the ring has changed. -/
theorem frame (h : Before c σ b) (hf : RingFrame c c') {τ : List UInt8}
    (hring : ∃ L T off, RingOk c' τ L T off ∧ TailOk c' L T) : Before c' τ b := by
  have hidle := h.idle.frame hf
  rcases hf with ⟨_, _, _, _, _, _, rfl⟩
  exact ⟨hring, hidle, h.notMigrated, h.notCopied, h.file⟩

/-- The recording starts, with nothing copied yet. -/
theorem startRecording (h : Before c σ true) (hfirst : c.TailFirst) (p : Platform) :
    Copying (c.startRecording p).1 σ c.lRbOffset c.hOffset := by
  rcases h.ring with ⟨L, T, off, hring, ht⟩
  have hidle := h.idle
  have htiles := hring.todo_of_first ht hfirst
  have hle := htiles.le (pending_forward _ _)
  rcases Option.isSome_iff_exists.mp h.file with ⟨f, hf⟩
  rcases c.startRecording_cases p with ⟨-, habs⟩ | ⟨-, -, -, heq⟩
  · rcases habs with habs | habs | habs
    · rw [hf] at habs
      cases habs
    · exact absurd hidle.noThread habs
    · rw [hidle.notStopped] at habs
      cases habs
  · have hthread : ∀ t, (c.startRecording p).1.thread = some t → t = .created := by
      intro t ht
      rw [heq] at ht
      dsimp only at ht
      split at ht
      · exact (Option.some.inj ht).symm
      · cases ht
    have htodo : (c.startRecording p).1.todo = c.pending n c.tail := by
      rw [todo_of_not_walking]
      · rw [heq]
        exact pending_of_slots (by rfl) _ _
      · intro i j hij
        cases hthread _ hij
    have hzero := h.notCopied
    have hpos : gsizeSub c.hOffset c.lRbOffset = c.hOffset - c.lRbOffset := by
      rw [gsizeSub, if_pos hle]
    have hstart : Tiles (c.lRbOffset + c.mDkPos) (c.startRecording p).1.todo c.hOffset := by
      rw [htodo, hzero]
      exact htiles
    rw [heq, hpos] at hthread hstart ⊢
    refine ⟨rfl, h.notMigrated, hidle.notStopped, ?_, rfl, rfl, hring.length, ?_, Nat.le_refl _,
      hring.stores, fun i hi => hring.window.labelled hi, hstart, f, hf, ?_, Or.inr ?_, ?_, ?_⟩
    · intro t ht
      rw [hthread t ht]
      simp
    · show c.hOffset = c.lRbOffset + (c.hOffset - c.lRbOffset)
      omega
    · show c.mDkPos ≤ f.len
      rw [hzero]
      exact Nat.zero_le _
    · show c.lRbOffset + (c.hOffset - c.lRbOffset) = c.hOffset
      omega
    · show Holds σ c.lRbOffset c.mDkPos f.byte
      rw [hzero]
      exact holds_zero _ _ _
    · show Holds σ c.hOffset (c.hOffset - c.hOffset) _
      rw [Nat.sub_self]
      exact holds_zero _ _ _

end Before

/-! ## After the copy -/

namespace Copied

/-- Neither the recording nor the file is touched. -/
theorem congr (h : Copied c σ l) (hrec : c'.isRecording = c.isRecording)
    (hmig : c'.isRbMigrated = c.isRbMigrated) (hstart : c'.mDkOffset = c.mDkOffset)
    (hlow : c'.lDkOffset = c.lDkOffset)
    (hhigh : c'.hOffset = c.hOffset) (hthread : c'.thread = c.thread) (hfile : c'.file = c.file)
    (hpos : c'.wDkPos = c.wDkPos) : Copied c' σ l where
  recording := hrec.trans h.recording
  migrated := hmig.trans h.migrated
  start := hstart.trans h.start
  low := hlow.trans h.low
  length := h.length.trans hhigh.symm
  finished := hthread.trans h.finished
  mirror := by
    constructor
    · rw [hfile, hpos]
      exact h.mirror.file
    · rw [hpos]
      exact h.mirror.length

theorem sameContent (h : Copied c σ l) (hs : SameContent c c') : Copied c' σ l := by
  rcases hs.frame with ⟨_, _, _, _, _, rfl⟩
  exact h.congr rfl rfl rfl rfl rfl rfl rfl rfl

theorem reload (h : Copied c σ l) (drain : Bool) (p : Platform) :
    Copied (c.reload drain p) σ l := by
  rcases c.reload_frame drain p with ⟨_, _, _, _, _, _, heq⟩
  rw [heq]
  exact h.congr rfl rfl rfl rfl rfl rfl rfl rfl

theorem diskWrite (h : Copied c σ l) (hp : p.FilesOk) {data : Block UInt8}
    (hsize : data.size < 2 ^ 32) : Copied (c.diskWrite data p) (σ ++ data.toList) l := by
  have hmirror := h.mirror.diskWrite hp hsize
  rcases h.mirror.file with ⟨f, hf, -⟩
  have hlength := h.length
  rw [diskWrite_ok hf hp.writeSeek hp.fwrite hsize] at hmirror ⊢
  refine ⟨h.recording, h.migrated, h.start, h.low, ?_, h.finished, hmirror⟩
  show (σ ++ data.toList).length = c.hOffset + data.size
  rw [List.length_append, Block.length_toList, hlength]

theorem seekDisk (h : Copied c σ l) (o : ℕ) (p : Platform) : Copied (c.seekDisk o p) σ l := by
  unfold Cache.seekDisk
  refine Copied.reload ?_ false p
  exact h.congr rfl rfl rfl rfl rfl rfl rfl rfl

end Copied

/-! ## The three stages -/

/-- The stages of a cache that has taken the stream `σ`; `b` says whether it has
a file. -/
def Recorder (c : Cache n) (σ : List UInt8) (b : Bool) : Prop :=
  Before c σ b ∨ (b = true ∧ ((∃ l e, Copying c σ l e) ∨ ∃ l, Copied c σ l))

/-- The push does not look for bytes to read back: its reload finds the tail slot
in use, or less than a slot's worth of bytes in the file. -/
def NoRefill (c : Cache n) (data : Block UInt8) : Prop :=
  c.Closed c.tail ∨ ((c.slots c.tail).state ≠ .recycle ∧
    gsizeSub (c.wDkPos + data.size) c.rDkPos < cacheSlotSize)

/-- The reload of such a push does nothing. -/
theorem NoRefill.reload {data : Block UInt8} (h : c.NoRefill data) {f : File}
    (hf : c.file = some f) (hp : p.FilesOk) (hsize : data.size < 2 ^ 32) :
    (c.diskWrite data p).reload false p = c.diskWrite data p := by
  have hsame := c.diskWrite_sameRing data p
  rcases h with hclosed | ⟨hst, hshort⟩
  · refine reload_closed ?_ false
    unfold Closed
    rw [hsame.slots, hsame.tail]
    exact hclosed
  · refine reload_short ?_ ?_ p
    · rw [hsame.slots, hsame.tail]
      exact hst
    · rw [diskWrite_ok hf hp.writeSeek hp.fwrite hsize]
      exact lt_of_le_of_lt (Nat.min_le_left _ _) hshort

/-- A write to the file leaves an unused ring as it is. -/
theorem Unused.diskWrite (h : c.Unused) (data : Block UInt8) (p : Platform) :
    (c.diskWrite data p).Unused := by
  rcases c.diskWrite_eq data p with ⟨_, _, _, _, heq⟩
  rw [heq]
  exact ⟨h.empty, h.high, h.unread, h.uncopied, h.begun⟩

/-- What the ring has no room for starts the recording, when there is a file. -/
theorem Before.overflow (h : Before c σ b) (hp : p.FilesOk) (hfirst : c.TailFirst)
    {data : Block UInt8} (hsize : data.size < 2 ^ 32) :
    ∃ k, k ≤ data.size ∧ (b = true → k = data.size) ∧
      Recorder ((c.startRecording p).1.diskWrite data p) (σ ++ data.toList.take k) b := by
  cases b with
  | false =>
      have hnone : c.file = none := by simpa using h.file
      refine ⟨0, Nat.zero_le _, by simp, Or.inl ?_⟩
      rcases h.idle.overflow data p with ⟨-, heq⟩ | ⟨habs, -⟩
      · rw [heq, List.take_zero, List.append_nil]
        exact h
      · rw [hnone] at habs
        cases habs
  | true =>
      have hcopying := (h.startRecording hfirst p).diskWrite hp hsize
      refine ⟨data.size, Nat.le_refl _, fun _ => rfl, Or.inr ⟨rfl, Or.inl ?_⟩⟩
      rw [List.take_of_length_le (by rw [Block.length_toList])]
      exact ⟨_, _, hcopying⟩

/-- A push with the tail behind the window. -/
theorem Before.push_of_tail (h : Before c σ b) (hring : RingOk c σ L T off)
    (ht : c.tail = idx n T) (hp : p.FilesOk) {data : Block UInt8} (hsize : data.size < 2 ^ 32) :
    ∃ k, k ≤ data.size ∧ (b = true → k = data.size) ∧
      Recorder (c.push data p) (σ ++ data.toList.take k) b := by
  rcases hring.push (p := p) ht h.idle.notRecording data with
    ⟨c₁, k, L', T', off', hk, hframe, hring₁, ht₁, -, -, -, hres⟩
  have h₁ := h.frame hframe ⟨L', T', off', hring₁, Or.inl ht₁⟩
  rcases hres with ⟨hall, heq⟩ | ⟨-, hfull, -, heq⟩
  · rw [heq]
    exact ⟨k, hk, fun _ => hall, Or.inl h₁⟩
  · -- the tail slot is the oldest one of a full ring
    have hcomplete := (Slot.complete_iff_not_available _).mpr hfull
    rcases hring₁.window.full_turn ht₁ hcomplete with ⟨-, hlt, hL⟩
    have hfirst : c₁.TailFirst := by
      right
      rw [hL, (hring₁.window.spans L' (Nat.le_refl _) hlt).1, hring₁.window.low]
    have hrest : (data.drop k).size < 2 ^ 32 := by
      rw [Block.size_drop]
      omega
    rcases h₁.overflow hp hfirst hrest with ⟨k', hk', hall, hrecorder⟩
    rw [Block.size_drop] at hk' hall
    rw [Block.toList_drop, List.append_assoc, ← List.take_add] at hrecorder
    rw [heq]
    exact ⟨k + k', by omega, fun hb => by have := hall hb; omega, hrecorder⟩

/-- Recycling the slot of a lagging tail, when it is the only one in use, leaves an
empty ring with the tail in its place. -/
theorem RingOk.recycle_lagging (h : RingOk c σ L T off) (hn : 2 ≤ n) (hT : T = L + 1)
    (ht : c.tail = idx n L) (hst : (c.slots c.tail).state = .recycle) :
    RingOk (c.recycle c.tail) σ L L (fun _ => c.hRbOffset) := by
  refine ⟨h.window.recycle_lagging hn hT ht hst, h.stores.recycle _, ?_, ?_⟩
  · rw [recycle_hOffset]
    exact h.length
  · have hempty : ((c.recycle c.tail).slots (c.recycle c.tail).tail).state ≠ .part := by
      simp [Cache.recycle, hst]
    rw [tailBytes_of_ne_part hempty, recycle_hOffset, recycle_hRbOffset, h.received,
      tailBytes_of_complete (Slot.Complete.of_recycle hst)]

/-- A push before the recording, with the tail slot open or the oldest one. -/
theorem Before.push (h : Before c σ b) (hp : p.FilesOk) {data : Block UInt8}
    (hsize : data.size < 2 ^ 32) (hok : 0 < data.size →
      (c.slots c.tail).available = true ∨ (c.slots c.tail).offset = some c.lRbOffset) :
    ∃ k, k ≤ data.size ∧ (b = true → k = data.size) ∧
      Recorder (c.push data p) (σ ++ data.toList.take k) b := by
  rcases h.ring with ⟨L, T, off, hring, ht | ⟨hn, hLT, ht⟩⟩
  · exact h.push_of_tail hring ht hp hsize
  have hrec := h.idle.notRecording
  rcases Nat.eq_zero_or_pos data.size with hzero | hpos
  · -- nothing is pushed
    refine ⟨0, Nat.zero_le _, fun _ => hzero.symm, Or.inl ?_⟩
    rw [push_ring hrec, hzero, List.take_zero, List.append_nil]
    exact h
  -- the tail lags, so that its slot is the only one in use
  have hw := hring.window
  have hspan := hw.spans (T - 1) (by omega) (by omega)
  have hcomplete := hw.complete (T - 1) (by omega) (by omega)
  rw [← ht] at hspan hcomplete
  have hlow : (c.slots c.tail).offset = some c.lRbOffset := by
    refine (hok hpos).resolve_left fun havail => ?_
    rw [Slot.complete_iff_not_available, havail] at hcomplete
    cases hcomplete
  by_cases hst : (c.slots c.tail).state = .recycle
  · have hTL : T - 1 = L := by
      rw [hspan.1, Option.some.injEq, hw.low] at hlow
      exact hw.eq_low (by omega) (by omega) hlow
    rw [hTL] at ht
    have hring' := hring.recycle_lagging hn (by omega) ht hst
    have ht' : (c.recycle c.tail).tail = idx n L := (c.recycle_tail _).trans ht
    have h' := h.frame (c.recycle_frame c.tail) ⟨L, L, _, hring', Or.inl ht'⟩
    have hpush := h'.push_of_tail (p := p) hring' ht' hp hsize
    rwa [push_ring h'.idle.notRecording, pushLoop_recycle data p hpos, ← push_ring hrec] at hpush
  · have hclosed : c.Closed c.tail := by
      rcases hcomplete with hc | hc | hc
      · exact Or.inl hc
      · exact Or.inr hc
      · exact absurd hc hst
    rw [push_ring hrec]
    rcases pushLoop_closed hclosed data p with ⟨hzero, -⟩ | ⟨-, heq⟩
    · omega
    · rw [heq]
      exact h.overflow hp (Or.inr hlow) hsize

/-! ## Steps of the recorder -/

namespace Recorder

theorem length (h : Recorder c σ b) : σ.length = c.hOffset := by
  rcases h with h | ⟨-, ⟨l, e, h⟩ | ⟨l, h⟩⟩
  · exact h.length
  · exact h.length
  · exact h.length

theorem copied (h : Recorder c σ b) (hm : c.isRbMigrated = true) :
    b = true ∧ ∃ l, Copied c σ l := by
  rcases h with h | ⟨hb, ⟨l, e, h⟩ | h⟩
  · rw [h.notMigrated] at hm
    cases hm
  · rw [h.notMigrated] at hm
    cases hm
  · exact ⟨hb, h⟩

theorem restate (h : Recorder c σ b) (hr : Restate c c') : Recorder c' σ b := by
  rcases h with h | ⟨hb, ⟨l, e, h⟩ | ⟨l, h⟩⟩
  · exact Or.inl (h.restate hr)
  · exact Or.inr ⟨hb, Or.inl ⟨l, e, h.sameContent (.of_restate hr)⟩⟩
  · exact Or.inr ⟨hb, Or.inr ⟨l, h.sameContent (.of_restate hr)⟩⟩

theorem promote (h : Recorder c σ b) : Recorder c.promote σ b := by
  rcases h with h | ⟨hb, ⟨l, e, h⟩ | ⟨l, h⟩⟩
  · exact Or.inl h.promote
  · exact Or.inr ⟨hb, Or.inl ⟨l, e, h.sameContent (.promote c)⟩⟩
  · exact Or.inr ⟨hb, Or.inr ⟨l, h.sameContent (.promote c)⟩⟩

/-- Once the ring is copied, refilling it does not matter to the file. -/
theorem reload (h : Recorder c σ b) (hm : c.isRbMigrated = true) (drain : Bool) (p : Platform) :
    Recorder (c.reload drain p) σ b := by
  rcases h.copied hm with ⟨hb, l, h⟩
  exact Or.inr ⟨hb, Or.inr ⟨l, h.reload drain p⟩⟩

theorem pop (h : Recorder c σ b) (drain : Bool) (p : Platform) :
    Recorder (c.pop drain p).1 σ b := by
  refine pop_induct (P := fun c₁ => Recorder c₁ σ b) ?_ ?_ ?_ h
  · intro c₁ h₁
    exact h₁.promote
  · intro c₁ hfull h₁
    exact h₁.restate (take_restate hfull)
  · intro c₁ _ hmig h₁
    exact h₁.reload hmig drain p

theorem seek (h : Recorder c σ b) {o : ℕ} (hseek : c.seek o p = some c') : Recorder c' σ b := by
  rcases seek_cases hseek with ⟨-, -, hring⟩ | ⟨-, hdisk, rfl⟩ | ⟨-, -, rfl⟩
  · exact h.restate (seekRing_restate hring)
  · rw [isDiskUsable, Bool.and_eq_true] at hdisk
    rcases h.copied hdisk.2 with ⟨hb, l, h⟩
    exact Or.inr ⟨hb, Or.inr ⟨l, h.seekDisk _ p⟩⟩
  · exact h

theorem startRecording (h : Recorder c σ b) (hfirst : c.isRecording = false → c.TailFirst)
    (p : Platform) : Recorder (c.startRecording p).1 σ b := by
  rcases h with h | ⟨hb, ⟨l, e, h⟩ | ⟨l, h⟩⟩
  · cases b with
    | true =>
        have hstart := h.startRecording (hfirst h.idle.notRecording) p
        exact Or.inr ⟨rfl, Or.inl ⟨_, _, hstart⟩⟩
    | false =>
        -- there is no file to record to
        have hnone : c.file = none := by simpa using h.file
        rcases c.startRecording_cases p with ⟨heq, -⟩ | ⟨habs, -⟩
        · rw [heq]
          exact Or.inl h
        · rw [hnone] at habs
          cases habs
  · exact Or.inr ⟨hb, Or.inl ⟨l, e, h.startRecording p⟩⟩
  · rcases c.startRecording_cases p with ⟨heq, -⟩ | ⟨-, habs, -⟩
    · rw [heq]
      exact Or.inr ⟨hb, Or.inr ⟨l, h⟩⟩
    · rw [h.finished] at habs
      cases habs

theorem migrationThread (h : Recorder c σ b) (hp : p.FilesOk) :
    Recorder (c.migrationThread p) σ b := by
  rcases h with h | ⟨hb, ⟨l, e, h⟩ | ⟨l, h⟩⟩
  · have hsame : c.migrationThread p = c := by simp [Cache.migrationThread, h.idle.noThread]
    rw [hsame]
    exact Or.inl h
  · rcases h.migrationThread hp with h' | h'
    · exact Or.inr ⟨hb, Or.inl ⟨l, e, h'⟩⟩
    · exact Or.inr ⟨hb, Or.inr ⟨l, h'⟩⟩
  · have hsame : c.migrationThread p = c := by simp [Cache.migrationThread, h.finished]
    rw [hsame]
    exact Or.inr ⟨hb, Or.inr ⟨l, h⟩⟩

/-- A push in any stage. -/
theorem push (h : Recorder c σ b) (hp : p.FilesOk) {data : Block UInt8}
    (hsize : data.size < 2 ^ 32)
    (hopen : c.isRecording = false → 0 < data.size →
      (c.slots c.tail).available = true ∨ (c.slots c.tail).offset = some c.lRbOffset)
    (hrefill : c.isRecording = true → c.isRbMigrated = false → c.fslots = 0 →
      c.NoRefill data ∨ c.Unused) :
    ∃ k, k ≤ data.size ∧ (b = true → k = data.size) ∧
      Recorder (c.push data p) (σ ++ data.toList.take k) b := by
  have hall : data.toList.take data.size = data.toList :=
    List.take_of_length_le (by rw [Block.length_toList])
  rcases h with h | ⟨hb, ⟨l, e, h⟩ | ⟨l, h⟩⟩
  · exact h.push hp hsize (hopen h.idle.notRecording)
  · -- the ring is being copied, and the push writes to the file
    refine ⟨data.size, Nat.le_refl _, fun _ => rfl, Or.inr ⟨hb, Or.inl ?_⟩⟩
    have hwrite := h.diskWrite hp hsize
    rcases h.file with ⟨f, hf, -⟩
    rw [hall, push_recording h.recording]
    split
    · rename_i hempty
      rcases hrefill h.recording h.notMigrated hempty with hno | hunused
      · rw [hno.reload hf hp hsize]
        exact ⟨l, e, hwrite⟩
      · exact ⟨l, hwrite.reload_unused (hunused.diskWrite data p) hp false⟩
    · exact ⟨l, e, hwrite⟩
  · refine ⟨data.size, Nat.le_refl _, fun _ => rfl, Or.inr ⟨hb, Or.inr ⟨l, ?_⟩⟩⟩
    have hwrite := h.diskWrite hp hsize
    rw [hall, push_recording h.recording]
    split
    · exact hwrite.reload false p
    · exact hwrite

end Recorder

end Cache

/-! ## Runs -/

namespace Session

open Cache

variable {n : ℕ} [NeZero n] {s s' : Session n} {p : Platform} {b : Bool}

/-- The calls of the users of a cache and the rounds of its thread, with a
working file. -/
def recordStep (_ : Session n) : Label → Prop
  | (.reload _, _) => False
  | (_, p) => p.FilesOk

/-- The step keeps the slots in the order of the migration: the recording starts
at an empty tail slot or the oldest one, a push finds the tail slot open or the
oldest one, and no slot is refilled while the ring is copied, unless the ring has not
been used yet. A push fits a `guint`. -/
def keepsOrder (s : Session n) : Label → Prop
  | (.push data, _) => data.size < 2 ^ 32 ∧
      (s.cache.isRecording = false → 0 < data.size →
        (s.cache.slots s.cache.tail).available = true ∨
          (s.cache.slots s.cache.tail).offset = some s.cache.lRbOffset) ∧
      (s.cache.isRecording = true → s.cache.isRbMigrated = false → s.cache.fslots = 0 →
        s.cache.NoRefill data ∨ s.cache.Unused)
  | (.startRecording, _) => s.cache.isRecording = false → s.cache.TailFirst
  | _ => True

/-- A session on a recorder. -/
structure Recorded (s : Session n) (b : Bool) : Prop where
  recorder : Recorder s.cache s.accepted b
  live : LiveOk s.cache s.live
  stream : b = true → s.accepted = s.pushed

namespace Recorded

theorem of_init (memory : Fin n → ℕ → UInt8) (file : Option File) :
    Recorded (init n memory file) file.isSome where
  recorder := Or.inl (.of_new memory file)
  live := init_liveOk memory file
  stream _ := rfl

theorem push (h : Recorded s b) {data : Block UInt8} (hp : p.FilesOk)
    (hok : keepsOrder s (.push data, p)) (hs : s.step (.push data, p) = some s') :
    Recorded s' b := by
  have hlive := step_liveOk h.live hs
  rcases h.recorder.push hp hok.1 hok.2.1 hok.2.2 with ⟨k, hk, hall, hrecorder⟩
  -- the offsets tell how many bytes were taken
  have hlen := h.recorder.length
  have hlen' := hrecorder.length
  rw [List.length_append, List.length_take, Block.length_toList] at hlen'
  have htaken : (s.cache.push data p).hOffset - s.cache.hOffset = k := by omega
  rw [step_push hs] at hlive ⊢
  refine ⟨?_, hlive, ?_⟩
  · show Recorder _ (s.accepted ++ data.toList.take _) b
    rw [htaken]
    exact hrecorder
  · intro hb
    show s.accepted ++ data.toList.take _ = s.pushed ++ data.toList
    rw [htaken, hall hb, List.take_of_length_le (by rw [Block.length_toList]), h.stream hb]

theorem step (h : Recorded s b) {l : Label} (hl : recordStep s l) (hok : keepsOrder s l)
    (hs : s.step l = some s') : Recorded s' b := by
  have hlive := step_liveOk h.live hs
  rcases l with ⟨op, p⟩
  cases op with
  | push data => exact h.push hl hok hs
  | pop drain =>
      rw [step_pop hs] at hlive ⊢
      constructor
      · simpa using h.recorder.pop drain p
      · exact hlive
      · simpa using h.stream
  | release k =>
      rcases step_release hs with ⟨x, hx, rfl⟩
      have hstate := h.live.state (List.mem_of_getElem? hx)
      exact ⟨h.recorder.restate (release_restate hstate), hlive, h.stream⟩
  | seek offset =>
      rcases step_seek hs with ⟨-, c, hc, rfl⟩
      exact ⟨h.recorder.seek hc, hlive, h.stream⟩
  | startRecording =>
      rw [step_startRecording hs] at hlive ⊢
      exact ⟨h.recorder.startRecording hok p, hlive, h.stream⟩
  | migrate =>
      rw [step_migrate hs] at hlive ⊢
      exact ⟨h.recorder.migrationThread hl, hlive, h.stream⟩
  | reload drain => cases hl

end Recorded

theorem reach_recorded {memory : Fin n → ℕ → UInt8} {file : Option File}
    (h : Reach Session.step (fun s l => recordStep s l ∧ keepsOrder s l)
      (init n memory file) s) : Recorded s file.isSome :=
  h.invariant (P := fun s => Recorded s file.isSome) (.of_init memory file)
    fun _ _ _ hinv hok hs => hinv.step hok.1 hok.2 hs

/-- In every run whose steps keep the slots in order, whatever is pushed, popped,
drained, released and sought before, during and after the migration, a migrated
file is the received stream from `l_dk_offset` on. -/
theorem migration_mirrors {memory : Fin n → ℕ → UInt8} {f : File}
    (h : Reach Session.step (fun s l => recordStep s l ∧ keepsOrder s l)
      (init n memory (some f)) s) (hm : s.cache.isRbMigrated = true) :
    ∃ l g, s.cache.lDkOffset = some l ∧ s.cache.file = some g ∧
      s.pushed.length = l + s.cache.wDkPos ∧
      ∀ i < s.cache.wDkPos, s.pushed[l + i]? = some (g.byte i) := by
  have hinv := reach_recorded h
  rcases hinv.recorder.copied hm with ⟨-, l, hcopied⟩
  rcases hcopied.mirror.file with ⟨g, hg, -, hholds⟩
  have hlength := hcopied.mirror.length
  rw [hinv.stream rfl] at hholds hlength
  exact ⟨l, g, hcopied.low, hg, hlength, hholds⟩

theorem migration_mirrors_overflow : ∃ s : Session 2,
    Reach Session.step (fun s l => recordStep s l ∧ keepsOrder s l)
      (init 2 (fun _ _ => 0) (some .new)) s ∧ s.cache.isRbMigrated = true ∧
    ∃ l g, s.cache.lDkOffset = some l ∧ s.cache.file = some g ∧
      s.pushed.length = l + s.cache.wDkPos ∧
      ∀ i < s.cache.wDkPos, s.pushed[l + i]? = some (g.byte i) := by
  have h₀ : Reach Session.step (fun s l => recordStep s l ∧ keepsOrder s l)
    (init 2 (fun _ _ => 0) (some .new)) _ := .refl
  have h₁ := h₀.extend (.push ⟨3 * cacheSlotSize, fun _ => 7⟩, .allOk)
    ⟨Platform.allOk_filesOk, by decide, fun _ _ => Or.inl rfl,
      fun habs => absurd habs (by decide)⟩ rfl
  have h₂ := h₁.extend (.migrate, .allOk) ⟨Platform.allOk_filesOk, trivial⟩ rfl
  have h₃ := h₂.extend (.migrate, .allOk) ⟨Platform.allOk_filesOk, trivial⟩ rfl
  have h₄ := h₃.extend (.migrate, .allOk) ⟨Platform.allOk_filesOk, trivial⟩ rfl
  have h₅ := h₄.extend (.migrate, .allOk) ⟨Platform.allOk_filesOk, trivial⟩ rfl
  exact ⟨_, h₅, rfl, migration_mirrors h₅ rfl⟩

/-- A slot's worth of zeros and a one. -/
def zerosThenOne : Block UInt8 where
  size := cacheSlotSize + 1
  byte i := if i < cacheSlotSize then 0 else 1

/-- When the recording is started on a partly written tail slot, the walk begins
with that slot: the file begins with the newest byte. -/
theorem newest_byte_first : ∃ s : Session 2,
    Reach Session.step recordStep (init 2 (fun _ _ => 0) (some .new)) s ∧
      s.cache.isRbMigrated = true ∧ s.pushed = zerosThenOne.toList ∧
      s.cache.lDkOffset = some 0 ∧ 0 < s.cache.wDkPos ∧
      ∃ g, s.cache.file = some g ∧ g.byte 0 = 1 := by
  have h₀ : Reach Session.step recordStep (init 2 (fun _ _ => 0) (some .new)) _ := .refl
  have h₁ := h₀.extend (.push zerosThenOne, .allOk) Platform.allOk_filesOk rfl
  have h₂ := h₁.extend (.startRecording, .allOk) Platform.allOk_filesOk rfl
  have h₃ := h₂.extend (.migrate, .allOk) Platform.allOk_filesOk rfl
  have h₄ := h₃.extend (.migrate, .allOk) Platform.allOk_filesOk rfl
  have h₅ := h₄.extend (.migrate, .allOk) Platform.allOk_filesOk rfl
  have h₆ := h₅.extend (.migrate, .allOk) Platform.allOk_filesOk rfl
  exact ⟨_, h₆, rfl, List.nil_append _, rfl, by decide, _, rfl, by decide⟩

/-- A migrated file need not be the stream in order. -/
theorem migration_out_of_order :
    ¬∀ s : Session 2, Reach Session.step recordStep (init 2 (fun _ _ => 0) (some .new)) s →
      s.cache.isRbMigrated = true → ∃ l g, s.cache.lDkOffset = some l ∧ s.cache.file = some g ∧
        ∀ i < s.cache.wDkPos, s.pushed[l + i]? = some (g.byte i) := by
  intro hall
  rcases newest_byte_first with ⟨s, hs, hm, hpushed, hlow, hpos, g, hg, hbyte⟩
  rcases hall s hs hm with ⟨l, g', hl, hg', hmirror⟩
  cases hlow.symm.trans hl
  cases hg.symm.trans hg'
  have hfirst := hmirror 0 hpos
  rw [hbyte, hpushed, Block.getElem?_toList _ (by decide)] at hfirst
  exact absurd hfirst (by decide)

end Session

end TimeShift
