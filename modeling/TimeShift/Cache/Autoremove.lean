import TimeShift.Cache.Session

/-!
# What `autoremove` does not matter to

Only a migration thread that has been asked to stop looks at `autoremove`. Every other
operation does the same whatever it says (`mark_push` and so on), so that a cache whose
property `recording-remove` is set at any time behaves like one where it never is.
-/

set_option linter.unusedSectionVars false

namespace TimeShift

open Bytes

namespace Cache

variable {n : ℕ} [NeZero n]

/-- `gst_shifter_cache_set_autoremove`. -/
def markRemove (c : Cache n) (value : Bool) : Cache n := { c with autoremove := value }

variable (c : Cache n) (v : Bool) (p : Platform)

@[simp] theorem mark_slots : (c.markRemove v).slots = c.slots := rfl
@[simp] theorem mark_head : (c.markRemove v).head = c.head := rfl
@[simp] theorem mark_tail : (c.markRemove v).tail = c.tail := rfl
@[simp] theorem mark_file : (c.markRemove v).file = c.file := rfl
@[simp] theorem mark_thread : (c.markRemove v).thread = c.thread := rfl
@[simp] theorem mark_hOffset : (c.markRemove v).hOffset = c.hOffset := rfl
@[simp] theorem mark_lRbOffset : (c.markRemove v).lRbOffset = c.lRbOffset := rfl
@[simp] theorem mark_hRbOffset : (c.markRemove v).hRbOffset = c.hRbOffset := rfl
@[simp] theorem mark_isRecording : (c.markRemove v).isRecording = c.isRecording := rfl
@[simp] theorem mark_isRbMigrated : (c.markRemove v).isRbMigrated = c.isRbMigrated := rfl
@[simp] theorem mark_stopRecording : (c.markRemove v).stopRecording = c.stopRecording := rfl

theorem mark_mark (w : Bool) : (c.markRemove v).markRemove w = c.markRemove w := rfl

theorem mark_diskWrite (data : Block UInt8) :
    (c.markRemove v).diskWrite data p = (c.diskWrite data p).markRemove v := by
  unfold diskWrite
  rw [mark_file]
  cases c.file with
  | none => rfl
  | some f => cases p.writeSeek <;> rfl

theorem mark_recycle (i : Fin n) : (c.markRemove v).recycle i = (c.recycle i).markRemove v := by
  unfold recycle
  rw [mark_slots]
  dsimp only
  split
  · rfl
  · rfl

theorem mark_diskRead (i : Fin n) (offset : ℕ) (drain : Bool) (k : ℕ) :
    (c.markRemove v).diskRead i offset drain p k =
      ((c.diskRead i offset drain p k).1.markRemove v, (c.diskRead i offset drain p k).2) := by
  unfold diskRead
  rw [mark_file]
  cases c.file with
  | none => rfl
  | some f =>
      dsimp only [markRemove, readSize]
      repeat' split
      all_goals rfl

theorem mark_reloadLoop (drain : Bool) (rounds k : ℕ) :
    reloadLoop drain p rounds k (c.markRemove v) =
      (reloadLoop drain p rounds k c).markRemove v := by
  induction rounds generalizing k c with
  | zero => rfl
  | succ rounds ih =>
      rw [reloadLoop, reloadLoop, mark_tail, mark_recycle, mark_tail, mark_hRbOffset,
        mark_diskRead]
      rcases (c.recycle c.tail).diskRead (c.recycle c.tail).tail (c.recycle c.tail).hRbOffset
        drain p k with ⟨c₁, read⟩
      cases read with
      | false => rfl
      | true => exact ih c₁.advance (k + 1)

theorem mark_reload (drain : Bool) :
    (c.markRemove v).reload drain p = (c.reload drain p).markRemove v :=
  c.mark_reloadLoop v p drain _ 0

theorem mark_promote : (c.markRemove v).promote = c.promote.markRemove v := by
  unfold promote
  rw [mark_slots, mark_head]
  dsimp only
  split
  · rfl
  · rfl

theorem mark_pop (drain : Bool) : (c.markRemove v).pop drain p =
    ((c.pop drain p).1.markRemove v, (c.pop drain p).2) := by
  unfold pop
  have hpromote : (if drain then (c.markRemove v).promote else c.markRemove v) =
      (if drain then c.promote else c).markRemove v := by
    split
    · exact c.mark_promote v
    · rfl
  dsimp only
  rw [hpromote]
  generalize (if drain then c.promote else c) = c₁
  rw [mark_slots, mark_head]
  split
  · rw [show (c₁.markRemove v).take = c₁.take.markRemove v from rfl, mark_reload,
      mark_isRecording, mark_isRbMigrated]
    split
    · rfl
    · rfl
  · rfl

theorem mark_startRecording : (c.markRemove v).startRecording p =
    ((c.startRecording p).1.markRemove v, (c.startRecording p).2) := by
  unfold startRecording
  rw [mark_file, mark_thread, mark_stopRecording]
  split
  · rfl
  split
  · rfl
  split
  · rfl
  cases p.threadCreate with
  | true => rfl
  | false => rfl

theorem mark_fill (data : Block UInt8) (k : ℕ) (h : (c.slots c.tail).available)
    (hk : k ≤ (c.slots c.tail).room) :
    (c.markRemove v).fill data k h hk = (c.fill data k h hk).markRemove v := by
  unfold fill
  simp only [mark_slots, mark_tail, mark_hRbOffset]
  rcases (c.slots c.tail).write data.byte k c.hRbOffset h hk with ⟨slot, _ | _⟩
  · rfl
  · rfl

theorem mark_pushLoop (fuel : ℕ) (data : Block UInt8) :
    pushLoop p fuel (c.markRemove v) data = (pushLoop p fuel c data).markRemove v := by
  induction fuel generalizing c data with
  | zero => rfl
  | succ fuel ih =>
      rw [pushLoop, pushLoop, mark_tail, mark_recycle]
      split
      · rfl
      · generalize c.recycle c.tail = c₁
        by_cases h : (c₁.slots c₁.tail).available
        · have hmark : ((c₁.markRemove v).slots (c₁.markRemove v).tail).available := h
          simp only [dif_pos h, dif_pos hmark]
          rw [← ih]
          congr 1
          exact c₁.mark_fill v data _ h _
        · have hmark : ¬((c₁.markRemove v).slots (c₁.markRemove v).tail).available := h
          simp only [dif_neg h, dif_neg hmark, mark_startRecording]
          exact mark_diskWrite _ v p data

theorem mark_push (data : Block UInt8) :
    (c.markRemove v).push data p = (c.push data p).markRemove v := by
  unfold push
  rw [mark_isRecording, mark_diskWrite, mark_pushLoop]
  split
  · dsimp only
    rw [show ((c.diskWrite data p).markRemove v).isEmpty = (c.diskWrite data p).isEmpty from rfl,
      mark_reload]
    split
    · rfl
    · rfl
  · rfl

/-- Unless the thread has been asked to stop. -/
theorem mark_migrationThread (h : c.stopRecording = false) :
    (c.markRemove v).migrationThread p = (c.migrationThread p).markRemove v := by
  unfold migrationThread
  rw [mark_thread]
  cases c.thread with
  | none => rfl
  | some t =>
      cases t with
      | created => rfl
      | finished => rfl
      | walking i j =>
          dsimp only [mark_slots, mark_stopRecording]
          by_cases hi : i < n
          · rw [if_pos hi, if_pos hi, h, Bool.false_and]
            by_cases hst : (c.slots j).state = .empty
            · rw [if_pos hst, if_pos hst]
              rfl
            · rw [if_neg hst, if_neg hst, mark_file]
              cases hfile : c.file with
              | none => rfl
              | some f =>
                  cases hseek : p.writeSeek with
                  | true => rfl
                  | false => rfl
          · rw [if_neg hi, if_neg hi]
            rfl

theorem mark_release (i : Fin n) : (c.markRemove v).release i = (c.release i).markRemove v := rfl

/-! ## Seeks -/

theorem mark_rollback (i : Fin n) : (c.markRemove v).rollback i =
    ((c.rollback i).1.markRemove v, (c.rollback i).2) := by
  unfold rollback
  rw [mark_slots]
  dsimp only
  split
  · rfl
  · rfl

theorem mark_rollforward (i : Fin n) :
    (c.markRemove v).rollforward i = (c.rollforward i).markRemove v := by
  unfold rollforward
  rw [mark_slots]
  dsimp only
  split
  · rfl
  · rfl

/-- Apart from the mark, the same place has been found. -/
def marked (r : Option (Cache n × Fin n)) : Option (Cache n × Fin n) :=
  r.map fun r => (r.1.markRemove v, r.2)

theorem mark_seekForward (offset rounds : ℕ) (i : Fin n) :
    seekForward offset rounds (c.markRemove v) i = marked v (seekForward offset rounds c i) := by
  induction rounds generalizing c i with
  | zero => rfl
  | succ rounds ih =>
      rw [seekForward, seekForward, mark_rollforward, mark_slots, ih]
      split
      · rfl
      · rfl

theorem mark_seekBackward (offset rounds : ℕ) (i : Fin n) :
    seekBackward offset rounds (c.markRemove v) i = marked v (seekBackward offset rounds c i) := by
  induction rounds generalizing c i with
  | zero => rfl
  | succ rounds ih =>
      rw [seekBackward, seekBackward, mark_rollback]
      rcases c.rollback (i - 1) with ⟨c₁, rolled⟩
      cases rolled with
      | false => rfl
      | true =>
          dsimp only
          rw [mark_slots, ih]
          split
          · rfl
          · rfl

theorem mark_seekRing (offset : ℕ) :
    (c.markRemove v).seekRing offset = (c.seekRing offset).map fun c => c.markRemove v := by
  unfold seekRing
  rw [mark_slots, mark_head, mark_rollback, mark_seekForward]
  dsimp only
  rw [mark_seekBackward]
  split
  · split
    · rfl
    · cases seekForward offset n c c.head with
      | none => rfl
      | some r =>
          dsimp only [marked, Option.map_some]
          rw [mark_rollback]
          rfl
  · cases seekBackward offset n (c.rollback c.head).1 c.head with
    | none => rfl
    | some r => rfl

theorem mark_seekDisk (offset : ℕ) :
    (c.markRemove v).seekDisk offset p = (c.seekDisk offset p).markRemove v := by
  unfold seekDisk
  rw [← mark_reload]
  rfl

theorem mark_seek (offset : ℕ) :
    (c.markRemove v).seek offset p = (c.seek offset p).map fun c => c.markRemove v := by
  unfold seek
  dsimp only
  rw [show (c.markRemove v).clamp offset = c.clamp offset from rfl, mark_seekRing, mark_lRbOffset,
    mark_hRbOffset, show (c.markRemove v).isDiskUsable = c.isDiskUsable from rfl]
  split
  · rfl
  · split
    · rw [mark_seekDisk]
      rfl
    · rfl

end Cache

end TimeShift
