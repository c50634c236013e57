import TimeShift.Cache.Lands
import TimeShift.Cache.ReaderWindow
import TimeShift.Cache.Recording

/-!
# The reader through the three stages

Where the reader stands, whatever the stage of the recording: the full slots are
those from its position on (`Reader`). Two things can go wrong once the ring is
refilled from the disk, and `Reader` keeps track of both:

* `behind`: the read position in the file is at or before the place in the file
  that belongs to `h_rb_offset`. A refill is right only when it is at that place
  (`InStep`), which nothing but a seek to the disk arranges;
* a tail that lags behind a draining pop is never in step.
-/

set_option linter.unusedSectionVars false

namespace TimeShift

open Bytes Cyclic Machine

namespace Cache

variable {n : ℕ} [NeZero n] {c c' : Cache n} {p : Platform} {pos L R T l e o : ℕ}
  {off : ℕ → ℕ} {σ : List UInt8} {b : Bool}

/-- The next byte to be read from the file is the one at `h_rb_offset`. -/
def InStep (c : Cache n) : Prop := c.lDkOffset.val + c.rDkPos = c.hRbOffset

instance (c : Cache n) : Decidable c.InStep := inferInstanceAs (Decidable (_ = _))

/-- The reader stands at position `R` of the window, which is stream position
`pos`, and the slots from there on are full. -/
structure Reader (c : Cache n) (σ : List UInt8) (pos L R T : ℕ) (off : ℕ → ℕ) : Prop where
  window : Window c L T off
  tail : TailOk c L T
  stores : Stores c σ
  fulls : Fulls c L R T
  head : c.head = idx n R
  pos : pos = off R
  high : c.hRbOffset ≤ c.hOffset
  fresh : c.isRecording = false → c.rDkPos = 0
  behind : ∀ l, c.isRecording = true → c.mDkOffset = some l → l + c.rDkPos ≤ c.hRbOffset ∧
    (c.tail = idx n T ∨ l + c.rDkPos < c.hRbOffset)

namespace Reader

theorem of_new (memory : Fin n → ℕ → UInt8) (file : Option File) :
    Reader (Cache.new n memory file) [] 0 0 0 0 (fun _ => 0) where
  window := .of_new memory file
  tail := Or.inl rfl
  stores := .of_new memory file []
  fulls := .of_new memory file
  head := rfl
  pos := rfl
  high := Nat.le_refl _
  fresh _ := rfl
  behind l hrec _ := by cases hrec

/-! ## Reading from the ring -/

/-- State words have changed, and the reader with them. -/
theorem restate (h : Reader c σ pos L R T off) (hr : Restate c c') {R' : ℕ}
    (hfulls : Fulls c' L R' T) (hhead : c'.head = idx n R') :
    Reader c' σ (off R') L R' T off := by
  have hw := h.window.restate hr
  have hst := h.stores.restate hr
  rcases hr.frame with ⟨_, _, _, _, rfl⟩
  exact ⟨hw, h.tail, hst, hfulls, hhead, rfl, h.high, h.fresh, h.behind⟩

/-- The slot at the reader's position is taken; its buffer is the next piece of
the stream. -/
theorem take (h : Reader c σ pos L R T off) (hfull : (c.slots c.head).state = .full) :
    R < T ∧ Reader c.take σ (off (R + 1)) L (R + 1) T off ∧
      c.slotBuffer.offsetEnd = off (R + 1) ∧ Reads σ pos [c.slotBuffer.piece] (off (R + 1)) := by
  have hw := h.window
  have hlt := h.fulls.lt_of_head_full hw hfull
  rcases h.fulls.take hw.fits h.head hlt with ⟨hfulls, hhead⟩
  rcases hw.slotBuffer_range h.head h.fulls.lower hlt with ⟨hoff, hend⟩
  have hspan := hw.spans R h.fulls.lower hlt
  rw [← h.head] at hspan
  have hreads := (h.stores.head_buffer hspan).reads
  rw [hoff, hend, ← h.pos] at hreads
  exact ⟨hlt, h.restate (take_restate hfull) hfulls hhead, hend, hreads⟩

theorem release (h : Reader c σ pos L R T off) {i : Fin n} (hi : (c.slots i).state = .pop) :
    Reader (c.release i) σ pos L R T off := by
  rw [h.pos]
  exact h.restate (release_restate hi) (h.fulls.release hi) h.head

/-- A draining pop completes the partly written slot, and leaves the read position
in the file behind. -/
theorem promote_part (h : Reader c σ pos L R T off) (hlen : σ.length = c.hOffset)
    (hst : (c.slots c.head).state = .part) : Reader c.promote σ pos L R (T + 1)
      (Function.update off (T + 1) (c.slots c.head).offsetEnd) := by
  rcases h.window.promote hst with ⟨e, hw, hspan, ht, hfulls⟩
  have hhigh := h.window.high
  have hupper := h.fulls.upper
  have hstores : Stores c.promote σ := (SameContent.promote c).stores h.stores
  have hend : e ≤ c.hOffset := by
    have hpos : 0 < (c.slots c.head).size := by
      have := hspan.2
      omega
    have hle := (h.stores c.head _ hspan.1).le_length hpos
    have := hspan.2.1
    omega
  rw [hspan.offsetEnd]
  refine ⟨hw, ht, hstores, hfulls R h.fulls, ?_, ?_, ?_, ?_, ?_⟩
  · rw [promote_of_part hst]
    exact h.head
  · rw [Function.update_of_ne (by omega)]
    exact h.pos
  · rw [promote_of_part hst]
    show (c.slots c.head).offsetEnd ≤ c.hOffset
    rw [hspan.offsetEnd]
    exact hend
  · rw [promote_of_part hst]
    exact h.fresh
  · rw [promote_of_part hst]
    intro l hrec hl
    have hold := (h.behind l hrec hl).1
    have hlt := hspan.2.2
    show l + c.rDkPos ≤ (c.slots c.head).offsetEnd ∧
      (c.tail = idx n (T + 1) ∨ l + c.rDkPos < (c.slots c.head).offsetEnd)
    rw [hspan.offsetEnd]
    exact ⟨by omega, Or.inr (by omega)⟩

theorem promote (h : Reader c σ pos L R T off) (hlen : σ.length = c.hOffset) :
    ∃ T' off', Reader c.promote σ pos L R T' off' := by
  by_cases hst : (c.slots c.head).state = .part
  · exact ⟨T + 1, _, h.promote_part hlen hst⟩
  · rw [promote_of_ne hst]
    exact ⟨T, off, h⟩

/-- A seek within the ring, from a head slot that has not been given back. -/
theorem seekRing (h : Reader c σ pos L R T off) (hpop : NonePopped c)
    (hhead : (c.slots c.head).state ≠ .recycle) (hlow : c.lRbOffset ≤ o) (hhigh : o < c.hRbOffset)
    (hseek : c.seekRing o = some c') : ∃ R', Reader c' σ (c.slotStart o) L R' T off := by
  have hw := h.window
  rcases h.fulls.seekRing hw hpop h.head (hw.low ▸ hlow) (hw.high ▸ hhigh) (Or.inl hhead) with
    ⟨m, c₁, hLm, hmT, hm, hm', heq, hfulls, hhead'⟩
  rw [hseek] at heq
  cases heq
  rw [hw.slotStart hLm hmT hm hm']
  exact ⟨m, h.restate (seekRing_restate hseek) hfulls hhead'⟩

/-! ## What goes to the disk -/

/-- The ring, the read position and the start of the recording are the same. -/
theorem sameRing (h : Reader c σ pos L R T off) (hr : SameRing c c')
    (hread : c'.rDkPos = c.rDkPos) (hoffset : c.hOffset ≤ c'.hOffset)
    (hrec : c'.isRecording = c.isRecording) (hstart : c'.mDkOffset = c.mDkOffset)
    (τ : List UInt8) : Reader c' (σ ++ τ) pos L R T off where
  window := h.window.sameRing hr
  tail := by
    unfold TailOk
    rw [hr.tail]
    exact h.tail
  stores := (h.stores.append τ).of_slots hr.slots
  fulls := h.fulls.sameRing hr
  head := hr.head.trans h.head
  pos := h.pos
  high := by
    rw [hr.hRbOffset]
    exact h.high.trans hoffset
  fresh := by
    rw [hrec, hread]
    exact h.fresh
  behind := by
    rw [hrec, hstart, hread, hr.hRbOffset, hr.tail]
    exact h.behind

theorem diskWrite (h : Reader c σ pos L R T off) (data : Block UInt8) (p : Platform)
    (τ : List UInt8) : Reader (c.diskWrite data p) (σ ++ τ) pos L R T off := by
  have hsame := c.diskWrite_sameRing data p
  have hoffset := c.diskWrite_hOffset_le data p
  rcases c.diskWrite_eq data p with ⟨_, _, _, _, heq⟩
  refine h.sameRing hsame ?_ hoffset ?_ ?_ τ
  all_goals rw [heq]

theorem migrationThread (h : Reader c σ pos L R T off) (p : Platform) :
    Reader (c.migrationThread p) σ pos L R T off := by
  have hsame := c.migrationThread_sameRing p
  rcases c.migrationThread_eq p with ⟨_, _, _, _, _, heq, -⟩
  rw [← List.append_nil σ]
  rw [heq] at hsame ⊢
  exact h.sameRing hsame rfl (Nat.le_refl _) rfl rfl []

/-- When the recording starts, the read position belongs to the oldest byte of the
ring. -/
theorem startRecording (h : Reader c σ pos L R T off)
    (hagain : c.thread = none → c.isRecording = true → c.mDkOffset = some c.lRbOffset)
    (p : Platform) : Reader (c.startRecording p).1 σ pos L R T off := by
  rcases c.startRecording_cases p with ⟨heq, -⟩ | ⟨-, hthread, -, heq⟩
  · rw [heq]
    exact h
  · have hw := h.window
    have hsame := c.startRecording_sameRing p
    have hlow := hw.low_le_high
    have hbehind : c.lRbOffset + c.rDkPos ≤ c.hRbOffset ∧
        (c.tail = idx n T ∨ c.lRbOffset + c.rDkPos < c.hRbOffset) := by
      cases hrec : c.isRecording with
      | true => exact h.behind _ hrec (hagain hthread hrec)
      | false =>
          rw [h.fresh hrec, Nat.add_zero]
          refine ⟨hlow, ?_⟩
          rcases h.tail with ht | ⟨-, hLT, -⟩
          · exact Or.inl ht
          · -- a lagging tail stands in a window that is not empty
            right
            have hfirst := hw.off_lt (Nat.le_refl L) hLT
            have hrest := hw.off_mono (show L ≤ L + 1 by omega) (show L + 1 ≤ T by omega)
              (Nat.le_refl T)
            rw [hw.low, hw.high]
            omega
    rw [heq] at hsame ⊢
    refine ⟨hw.sameRing hsame, h.tail, h.stores, h.fulls.sameRing hsame, h.head, h.pos, h.high,
      ?_, ?_⟩
    · intro habs
      cases habs
    · intro l _ hl
      cases hl
      exact hbehind

/-! ## Pushes -/

/-- A push while the cache is not recording, which does not reuse the slot of a
lagging tail. -/
theorem push_ring (h : Reader c σ pos L R T off) (hring : RingOk c σ L T off)
    (hrec : c.isRecording = false) {data : Block UInt8} (hd : 0 < data.size → ¬c.Drained)
    (p : Platform) : ∃ L' T' off', Reader (c.push data p)
      (σ ++ data.toList.take ((c.push data p).hOffset - c.hOffset)) pos L' R T' off' := by
  have hnotAgain : ∀ c₁ : Cache n, c₁.isRecording = false → c₁.thread = none →
      c₁.isRecording = true → c₁.mDkOffset = some c₁.lRbOffset := by
    intro c₁ hfalse _ htrue
    rw [hfalse] at htrue
    cases htrue
  rcases Nat.eq_zero_or_pos data.size with hzero | hpos
  · refine ⟨L, T, off, ?_⟩
    rw [Cache.push_ring hrec, hzero]
    show Reader c (σ ++ data.toList.take (c.hOffset - c.hOffset)) pos L R T off
    rw [Nat.sub_self, List.take_zero, List.append_nil]
    exact h
  rcases h.tail.of_not_drained h.window (hd hpos) with ht | hclosed
  · rcases hring.push (p := p) ht hrec data with
      ⟨c₁, k, L', T', off', hk, hframe, hring₁, ht₁, hgrows, hfulls, -, hres⟩
    -- the ring after the loop, before what is left goes to the disk
    have h₁ : ∀ τ, Reader c₁ (σ ++ data.toList.take k ++ τ) pos L' R T' off' := by
      intro τ
      have hfulls₁ := hfulls R h.fulls
      have hpos₁ : pos = off' R := h.pos.trans (hgrows.2 R h.fulls.upper).symm
      have hhigh : c₁.hRbOffset ≤ c₁.hOffset := by
        rw [hring₁.received]
        exact Nat.le_add_right _ _
      rcases hframe with ⟨_, _, _, _, _, _, rfl⟩
      refine ⟨hring₁.window, Or.inl ht₁, hring₁.stores.append τ, hfulls₁, h.head, hpos₁, hhigh,
        h.fresh, ?_⟩
      intro l habs
      rw [show c.isRecording = true from habs] at hrec
      cases hrec
    have hrec₁ : c₁.isRecording = false := by
      rcases hframe with ⟨_, _, _, _, _, _, rfl⟩
      exact hrec
    have hlen := hring.length
    have hlen₁ := hring₁.length
    rw [List.length_append, List.length_take, Block.length_toList] at hlen₁
    -- the accepted bytes begin with those that the ring took
    have hsplit : ∀ m, k ≤ m → ∃ τ, σ ++ data.toList.take m = σ ++ data.toList.take k ++ τ := by
      intro m hm
      refine ⟨(data.toList.drop k).take (m - k), ?_⟩
      rw [List.append_assoc, ← List.take_add, show k + (m - k) = m by omega]
    rcases hres with ⟨-, heq⟩ | ⟨-, -, -, heq⟩
    · rw [heq]
      rcases hsplit (c₁.hOffset - c.hOffset) (by omega) with ⟨τ, hτ⟩
      rw [hτ]
      exact ⟨L', T', off', h₁ τ⟩
    · have hstart := (h₁ []).startRecording (hnotAgain c₁ hrec₁) p
      have hmono : c₁.hOffset ≤ (c.push data p).hOffset := by
        rw [heq, ← c₁.startRecording_hOffset p]
        exact diskWrite_hOffset_le _ _ _
      rcases hsplit ((c.push data p).hOffset - c.hOffset) (by omega) with ⟨τ, hτ⟩
      rw [hτ, heq]
      rw [List.append_nil] at hstart
      exact ⟨L', T', off', hstart.diskWrite _ p τ⟩
  · rw [Cache.push_ring hrec]
    rcases pushLoop_closed hclosed data p with ⟨hzero, -⟩ | ⟨-, heq⟩
    · omega
    · rw [heq]
      exact ⟨L, T, off, (h.startRecording (hnotAgain c hrec) p).diskWrite data p _⟩

/-! ## Refilling from the disk -/

/-- A reader in step stands in a ring that is refilled with the stream. -/
theorem diskRing (h : Reader c σ pos L R T off) (hc : Copied c σ l) (hstep : c.InStep) :
    DiskRing c σ l L T off := by
  have hhigh := h.high
  have hlen := hc.length
  have hmirror := hc.mirror
  have hwritten := hmirror.length
  rw [InStep, hc.low, Offset.val_some] at hstep
  have htail : c.tail = idx n T := by
    rcases (h.behind l hc.recording hc.start).2 with ht | hlt
    · exact ht
    · omega
  exact ⟨h.window, htail, h.stores, hmirror, hstep.symm, by omega⟩

theorem of_diskRing (h : DiskRing c' σ l L T off) (hrec : c'.isRecording = true)
    (hstart : c'.mDkOffset = some l) (hlen : σ.length = c'.hOffset) (hfulls : Fulls c' L R T)
    (hhead : c'.head = idx n R) : Reader c' σ (off R) L R T off := by
  have hwritten := h.mirror.length
  have hinStep := h.inStep
  have hbehind := h.behind
  refine ⟨h.window, Or.inl h.tail, h.stores, hfulls, hhead, rfl, by omega, ?_, ?_⟩
  · intro habs
    rw [hrec] at habs
    cases habs
  · intro l' _ hl'
    cases hstart.symm.trans hl'
    exact ⟨by omega, Or.inl h.tail⟩

/-- A reload of a recorder's ring from a file that mirrors the stream, in step with it. -/
theorem reload_diskRing (h : Reader c σ pos L R T off) (hring : DiskRing c σ l L T off)
    (hrec : c.isRecording = true) (hstart : c.mDkOffset = some l) (hlen : σ.length = c.hOffset)
    (hp : p.FilesOk) (drain : Bool) :
    ∃ L' T' off', Reader (c.reload drain p) σ pos L' R T' off' ∧ Grows T off T' off' ∧
      (c.reload drain p).hRbOffset = l + (c.reload drain p).rDkPos := by
  rcases hring.reload hp drain with ⟨L', T', off', hring', hgrows, hfulls, -⟩
  have hfulls' := hfulls R h.fulls
  have hhead : (c.reload drain p).head = idx n R := (c.reload_head drain p).trans h.head
  have hframe := c.reload_frame drain p
  generalize c.reload drain p = c' at hring' hfulls' hhead hframe ⊢
  rcases hframe with ⟨_, _, _, _, _, _, rfl⟩
  have hreader := of_diskRing hring' hrec hstart hlen hfulls' hhead
  rw [hgrows.2 R h.fulls.upper, ← h.pos] at hreader
  exact ⟨L', T', off', hreader, hgrows, hring'.inStep⟩

/-- A reload that is in step, with a working file. -/
theorem reload_inStep (h : Reader c σ pos L R T off) (hc : Copied c σ l) (hp : p.FilesOk)
    (hstep : c.InStep) (drain : Bool) :
    ∃ L' T' off', Reader (c.reload drain p) σ pos L' R T' off' ∧ Grows T off T' off' ∧
      (c.reload drain p).InStep := by
  rcases h.reload_diskRing (h.diskRing hc hstep) hc.recording hc.start hc.length hp drain with
    ⟨L', T', off', hreader, hgrows, hinStep⟩
  refine ⟨L', T', off', hreader, hgrows, ?_⟩
  rw [InStep, (hc.reload drain p).low, Offset.val_some]
  exact hinStep.symm

/-- A reload of a ring that has not been used yet. -/
theorem reload_unused (h : Reader c σ pos L R T off) (hc : Copying c σ l e) (hu : c.Unused)
    (hp : p.FilesOk) (drain : Bool) :
    ∃ L' T' off', Reader (c.reload drain p) σ pos L' R T' off' := by
  rcases hc.diskRing hu with ⟨_, -, hempty⟩
  have htail : c.tail = idx n T := by
    rcases h.tail with ht | ⟨-, hLT, ht⟩
    · exact ht
    · -- a tail that lags is at a slot in use
      have hcomplete := h.window.complete (T - 1) (by omega) (by omega)
      rw [← ht] at hcomplete
      simp [Slot.Complete, hu.empty] at hcomplete
  have hring : DiskRing c σ l L T off :=
    ⟨h.window, htail, h.stores, hempty.mirror, hempty.inStep, hempty.behind⟩
  rcases h.reload_diskRing hring hc.recording hc.start hc.length hp drain with
    ⟨L', T', off', h', -, -⟩
  exact ⟨L', T', off', h'⟩

/-- A reload that finds the tail slot in use, or is in step. -/
theorem reload (h : Reader c σ pos L R T off) (hc : Copied c σ l) (hp : p.FilesOk)
    (hok : c.Closed c.tail ∨ c.InStep) (drain : Bool) :
    ∃ L' T' off', Reader (c.reload drain p) σ pos L' R T' off' := by
  rcases hok with hclosed | hstep
  · rw [reload_closed hclosed]
    exact ⟨L, T, off, h⟩
  · rcases h.reload_inStep hc hp hstep drain with ⟨L', T', off', h', -⟩
    exact ⟨L', T', off', h'⟩

/-- A seek to the disk puts the reader in step. -/
theorem of_seekDisk (hc : Copied c σ l) (hp : p.FilesOk) (hlow : l ≤ o) (hhigh : o ≤ c.hOffset) :
    ∃ L' T' off', Reader (c.seekDisk o p) σ o L' 0 T' off' := by
  unfold Cache.seekDisk
  set c₁ : Cache n := { c.flush with
    rDkPos := gsizeSub o c.lDkOffset.val
    hRbOffset := o
    lRbOffset := o } with hdef
  have hc₁ : Copied c₁ σ l := hc.congr rfl rfl rfl rfl rfl rfl rfl rfl
  have hpos : c₁.rDkPos = o - l := by
    show gsizeSub o c.lDkOffset.val = o - l
    rw [hc.low, Offset.val_some, gsizeSub, if_pos hlow]
  have h₁ : Reader c₁ σ o 0 0 0 (fun _ => o) := by
    refine ⟨(Placed.flushed c _ o).window, Or.inl rfl, ?_, ⟨Nat.le_refl _, Nat.le_refl _, rfl, ?_⟩,
      rfl, rfl, hhigh, ?_, ?_⟩
    · intro i a ha
      cases ha
    · intro q _ hq
      omega
    · intro habs
      rw [hc₁.recording] at habs
      cases habs
    · intro l' _ hl'
      cases hc.start.symm.trans hl'
      rw [hpos]
      exact ⟨show l + (o - l) ≤ o by omega, Or.inl rfl⟩
  refine h₁.reload hc₁ hp (Or.inr ?_) false
  show c.lDkOffset.val + c₁.rDkPos = o
  rw [hpos, hc.low, Offset.val_some]
  omega

end Reader

end Cache

end TimeShift
