import TimeShift.Cache.Reader

/-!
# Draining at the end of the stream

At the end of the stream the cache is popped with drain set until it returns no
buffer. What is left of the stream then sits in full slots, in the partly written
tail slot, or on the disk. `drain_end` is about the second, `drain_ring` about the
first and `drain_disk` about the last: there the refill of each pop has to come in
time for the next one.
-/

set_option linter.unusedSectionVars false

namespace TimeShift

open Bytes Cyclic Machine

namespace Cache

variable {n : ℕ} [NeZero n] {c c' : Cache n} {p : Platform} {pos L R T l o : ℕ}
  {off : ℕ → ℕ} {σ : List UInt8} {b : Bool}

/-- Pop with drain set and release each buffer, until there is none; `none` when
`fuel` pops do not come to that end. -/
def drainLoop (p : Platform) : ℕ → Cache n → Option (List (Buffer n))
  | 0, _ => none
  | fuel + 1, c =>
    match c.pop true p with
    | (_, none) => some []
    | (c, some b) => (drainLoop p fuel (c.release b.slot)).map (b :: ·)

/-- The draining ends, and the buffers are the stream from `pos` to `e`. -/
def Drains (c : Cache n) (p : Platform) (σ : List UInt8) (pos e : ℕ) : Prop :=
  ∃ fuel bufs, drainLoop p fuel c = some bufs ∧ Reads σ pos (bufs.map Buffer.piece) e

/-- The first pop returns nothing. -/
theorem Drains.nil (hpart : (c.slots c.head).state ≠ .part)
    (hfull : (c.slots c.head).state ≠ .full) (p : Platform) (σ : List UInt8) (pos : ℕ) :
    Drains c p σ pos pos := by
  have hpop : c.pop true p = (c, none) := by
    simp only [Cache.pop, if_true, promote_of_ne hpart, if_neg hfull]
  exact ⟨1, [], by rw [drainLoop, hpop], rfl⟩

/-- The first pop returns the next piece of the stream. -/
theorem Drains.cons {x : Buffer n} {e : ℕ} (hpop : c.pop true p = (c', some x))
    (hx : Reads σ pos [x.piece] x.offsetEnd)
    (h : Drains (c'.release x.slot) p σ x.offsetEnd e) : Drains c p σ pos e := by
  rcases h with ⟨fuel, bufs, hloop, hreads⟩
  refine ⟨fuel + 1, x :: bufs, ?_, hx.trans hreads⟩
  rw [drainLoop, hpop]
  dsimp only
  rw [hloop]
  rfl

/-- A full slot at the head is popped. -/
theorem pop_of_full (hfull : (c.slots c.head).state = .full) (p : Platform) :
    c.pop true p =
      (if c.isDiskUsable then c.take.reload true p else c.take, some c.slotBuffer) := by
  have hne : (c.slots c.head).state ≠ .part := by simp [hfull]
  simp only [Cache.pop, if_true, promote_of_ne hne, hfull]
  by_cases hdisk : c.isDiskUsable = true
  · have : (c.take.isRecording && c.take.isRbMigrated) = true := hdisk
    simp [hdisk, this]
  · have : ¬(c.take.isRecording && c.take.isRbMigrated) = true := hdisk
    simp [hdisk, this]

/-! ## The slot that is popped -/

theorem closed_take (h : c.head = c.tail ∨ c.Closed c.tail) : c.take.Closed c.take.tail := by
  show c.take.Closed c.tail
  by_cases hsame : c.tail = c.head
  · exact Or.inr (by simp [Cache.take, hsame])
  · have hclosed := h.resolve_left fun heq => hsame heq.symm
    simpa [Cache.take, hsame, Closed] using hclosed

/-- The slot that was taken is released, and nothing else is popped. -/
theorem NonePopped.afterTake (h : NonePopped c) (hf : Frozen c.take c') :
    NonePopped (c'.release c.head) := by
  intro i
  by_cases hi : i = c.head
  · subst hi
    simp [Cache.release, setSlot]
  · simp only [Cache.release, setSlot, Function.update_of_ne hi]
    intro hpop
    have hold := hf.pop i hpop
    simp only [Cache.take, Function.update_of_ne hi] at hold
    exact h i hold

theorem taken_state (hf : Frozen c.take c') : (c'.slots c.head).state = .pop := by
  have hpop : (c.take.slots c.head).state = .pop := by simp [Cache.take]
  rw [hf.closed c.head (Or.inr hpop)]
  exact hpop

/-- Only the tail slot can be partly written. -/
theorem Window.head_not_part (h : Window c L T off) (hst : (c.slots c.tail).state ≠ .part) :
    (c.slots c.head).state ≠ .part := by
  intro hpart
  rcases h.head_part hpart with ⟨-, hhead, htail, -⟩
  rw [hhead, ← htail] at hpart
  exact hst hpart

namespace Reader

/-- When all full slots are read, what is left is in the partly written slot. -/
theorem drain_end (h : Reader c σ pos L T T off) (hend : c.hOffset = c.hRbOffset + c.tailBytes)
    (hlen : σ.length = c.hOffset) (p : Platform) : Drains c p σ pos c.hOffset := by
  have hw := h.window
  have hpos := h.pos
  have hhigh := hw.high
  have hnotFull : (c.slots c.head).state ≠ .full := by
    intro hfull
    exact Nat.lt_irrefl T (h.fulls.lt_of_head_full hw hfull)
  by_cases hst : (c.slots c.head).state = .part
  · -- the partly written slot is taken as it is
    rcases hw.head_part hst with ⟨hlt, hhead, htail, e, hspan⟩
    have h₁ := h.promote_part hlen hst
    have heq := promote_of_part hst
    have hfull₁ : (c.promote.slots c.promote.head).state = .full := by
      rw [heq]
      simp
    have hsame : c.promote.head = c.promote.tail := by
      rw [heq]
      exact hhead.trans htail.symm
    rcases h₁.take hfull₁ with ⟨-, h₂, hbend, hreads⟩
    rw [← hbend] at hreads h₂
    have hpop : c.pop true p = (c.promote.take, some c.promote.slotBuffer) := by
      have hclosed := closed_take (Or.inl hsame)
      simp only [Cache.pop, if_true, hfull₁, reload_closed hclosed, ite_self]
    have hstop : c.promote.slotBuffer.offsetEnd = c.hOffset := by
      have havail : (c.slots c.tail).available := by
        rw [htail, ← hhead, Slot.available_iff]
        exact Or.inr hst
      rw [hbend, Function.update_self, hspan.offsetEnd, hend, tailBytes_of_available havail, htail,
        ← hhead, hhigh, hspan.2.1]
    refine Drains.cons hpop hreads ?_
    have h₃ := h₂.release (taken_state .rfl)
    rw [hstop] at h₃ ⊢
    refine Drains.nil ?_ ?_ p σ _
    · -- the tail slot has just been released
      refine h₃.window.head_not_part ?_
      show ((c.promote.take.release c.promote.head).slots c.promote.tail).state ≠ .part
      rw [← hsame]
      simp [Cache.release, setSlot]
    · intro hfull
      exact Nat.lt_irrefl _ (h₃.fulls.lt_of_head_full h₃.window hfull)
  · have hzero : c.tailBytes = 0 := by
      by_cases havail : (c.slots c.tail).available = true
      · rcases h.tail with ht | ⟨-, hLT, ht⟩
        · rw [tailBytes_of_available havail]
          rw [Slot.available_iff, ht, ← h.head] at havail
          rw [ht, ← h.head]
          exact ((c.slots c.head).empty_clean (havail.resolve_right hst)).2
        · have hcomplete := hw.complete (T - 1) (by omega) (by omega)
          rw [← ht, Slot.complete_iff_not_available, havail] at hcomplete
          cases hcomplete
      · simp [tailBytes, havail]
    have hsame : c.hOffset = pos := by omega
    rw [hsame]
    exact Drains.nil hst hnotFull p σ pos

/-- While the disk takes no part, the full slots are taken one after the other. -/
theorem drain_ring {k : ℕ} (hk : R + k = T) (h : Reader c σ pos L R T off)
    (hring : RingOk c σ L T off) (hdisk : c.isDiskUsable = false) (p : Platform) :
    Drains c p σ pos c.hOffset := by
  induction k generalizing c pos R with
  | zero =>
      have hRT : R = T := hk
      subst hRT
      exact h.drain_end hring.received hring.length p
  | succ k ih =>
      have hfull := h.fulls.head_full h.head (show R < T by omega)
      have hpop := pop_of_full hfull p
      simp only [hdisk, Bool.false_eq_true, if_false] at hpop
      rcases h.take hfull with ⟨-, h₁, hend, hreads⟩
      rw [← hend] at h₁ hreads
      have hstate := taken_state (c := c) .rfl
      have hring₂ := (hring.restate (take_restate hfull)).restate (release_restate hstate)
      exact Drains.cons hpop hreads (ih (by omega) (h₁.release hstate) hring₂ hdisk)

/-! ## With the disk -/

/-- What the reader sees of the stream ends at `h_offset`. -/
theorem tail_le (h : Reader c σ pos L R T off) (hlen : σ.length = c.hOffset) :
    c.hRbOffset + c.tailBytes ≤ c.hOffset := by
  have hhigh := h.high
  by_cases havail : (c.slots c.tail).available = true
  · rw [tailBytes_of_available havail]
    rcases (Slot.available_iff _).mp havail with hst | hst
    · rw [((c.slots c.tail).empty_clean hst).2]
      exact hhigh
    · rcases h.tail with ht | ⟨-, hLT, ht⟩
      · have hlt := h.window.lt_of_available ht havail
        rcases h.window.free T (Nat.le_refl T) hlt with hst' | ⟨-, -, -, e, hspan⟩
        · rw [← ht, hst] at hst'
          cases hst'
        · rw [← ht] at hspan
          have hpos : 0 < (c.slots c.tail).size := by
            have := hspan.2
            omega
          have := (h.stores c.tail _ hspan.1).le_length hpos
          rw [h.window.high]
          omega
      · have hcomplete := h.window.complete (T - 1) (by omega) (by omega)
        rw [← ht, Slot.complete_iff_not_available, havail] at hcomplete
        cases hcomplete
  · simp only [tailBytes, havail, if_false, Bool.false_eq_true]
    exact hhigh

end Reader

/-- A draining reload reads something, if there is something to read and room for
it. -/
theorem reload_progress (hm : Mirror c σ l) (hp : p.FilesOk) (hlt : c.rDkPos < c.wDkPos)
    (hready : ((c.recycle c.tail).slots c.tail).available = true) :
    c.hRbOffset < (c.reload true p).hRbOffset := by
  have hrounds : c.reloadRounds true = 1 := rfl
  rw [Cache.reload, hrounds, reloadLoop]
  have hhigh := c.recycle_hRbOffset c.tail
  have htail := c.recycle_tail c.tail
  have hm₁ : Mirror (c.recycle c.tail) σ l ∧ (c.recycle c.tail).rDkPos = c.rDkPos ∧
      (c.recycle c.tail).wDkPos = c.wDkPos := by
    rcases c.recycle_frame c.tail with ⟨_, _, _, _, _, _, heq⟩
    rw [heq]
    exact ⟨⟨hm.file, hm.length⟩, rfl, rfl⟩
  rcases hm₁ with ⟨hm₁, hr₁, hw₁⟩
  generalize c.recycle c.tail = c₁ at hhigh htail hready hm₁ hr₁ hw₁ ⊢
  rw [← htail] at hready
  generalize hres : c₁.diskRead c₁.tail c₁.hRbOffset true p 0 = res
  rcases res with ⟨c₂, ok⟩
  cases ok with
  | false =>
      rcases (hm₁.diskRead_false hp (by omega) hres).2 with habs | ⟨habs, -⟩ | habs
      · omega
      · cases habs
      · rw [hready] at habs
        cases habs
  | true =>
      rcases diskRead_true hres with ⟨f, -, -, hpos, -, -, rfl⟩
      show c.hRbOffset < (Function.update c₁.slots c₁.tail _ c₁.tail).offsetEnd
      rw [Function.update_self, Slot.offsetEnd, Slot.load_offset, Slot.load_size,
        Offset.val_some, hhigh]
      omega

/-- When the last full slot has been taken, there is room at the tail: in a ring of
two or more slots the tail slot is another one. -/
theorem Fulls.take_ready (h : Fulls c L R T) (hw : Window c L T off) (hhead : c.head = idx n R)
    (htail : c.tail = idx n T) (hnone : NonePopped c) (hn : 2 ≤ n) (hlast : R + 1 = T) :
    ((c.take.recycle c.take.tail).slots c.take.tail).available = true := by
  have hne : c.tail ≠ c.head := by
    have hfits := hw.fits
    have hlower := h.lower
    rw [htail, hhead]
    exact idx_ne (by omega) (by omega) (by omega)
  have hslot : c.take.slots c.take.tail = c.slots c.tail := Function.update_of_ne hne _ _
  by_cases hc : (c.slots c.tail).Complete
  · -- the ring is full, and its oldest slot is read and released
    rcases hw.full_turn htail hc with ⟨hT, hLT, hL⟩
    have hst : (c.slots c.tail).state = .recycle := by
      rcases hc with hst | hst | hst
      · rw [hL] at hst
        have := (h.full L (Nat.le_refl L) hLT).mp hst
        omega
      · exact absurd hst (hnone _)
      · exact hst
    rw [← hslot] at hst
    have hempty : ((c.take.recycle c.take.tail).slots c.take.tail).state = .empty := by
      simp [Cache.recycle, hst]
    exact (Slot.available_iff _).mpr (Or.inl hempty)
  · have havail : (c.slots c.tail).available = true := by
      simpa [Slot.complete_iff_not_available] using hc
    have hst : (c.take.slots c.take.tail).state ≠ .recycle := by
      rw [hslot]
      intro hst
      exact hc (Slot.Complete.of_recycle hst)
    rw [recycle_of_ne hst, hslot]
    exact havail

namespace Reader

/-- The only slot of the ring is full: while it is popped there is no other one to refill. -/
theorem drain_single (h : Reader c σ pos L R T off) (hn : n < 2) (hlt : R < T)
    (hall : c.hRbOffset = c.hOffset) (hlen : σ.length = c.hOffset) (p : Platform) :
    Drains c p σ pos c.hOffset := by
  have hfits := h.window.fits
  have hlower := h.fulls.lower
  have hlast : R + 1 = T := by omega
  have hsame : c.head = c.tail := Fin.ext (by omega)
  have hfull := h.fulls.head_full h.head hlt
  have hclosed := closed_take (Or.inl hsame)
  have hpop : c.pop true p = (c.take, some c.slotBuffer) := by
    rw [pop_of_full hfull, reload_closed hclosed, ite_self]
  rcases h.take hfull with ⟨-, h₁, hend, hreads⟩
  rw [← hend] at h₁ hreads
  subst hlast
  have h₂ := h₁.release (taken_state (c := c) .rfl)
  have hle := h₂.tail_le hlen
  have hall₂ : (c.take.release c.head).hRbOffset = (c.take.release c.head).hOffset := hall
  exact Drains.cons hpop hreads (h₂.drain_end (by omega) hlen p)

/-- When the last full slot is taken, the refill gets some of what the disk has more. -/
theorem take_refill (h : Reader c σ pos L R T off) (hc : Copied c σ l) (hp : p.FilesOk)
    (hstep : c.InStep) (hnone : NonePopped c) (hn : 2 ≤ n) (hlast : R + 1 = T)
    (hmore : c.hRbOffset < c.hOffset) : c.hRbOffset < (c.take.reload true p).hRbOffset := by
  have hring := h.diskRing hc hstep
  have hlen := hc.length
  have hwritten := hc.mirror.length
  have hinStep := hring.inStep
  have hfull := h.fulls.head_full h.head (show R < T by omega)
  have hc₁ : Copied c.take σ l := hc.sameContent (.of_restate (take_restate hfull))
  exact reload_progress hc₁.mirror hp (show c.rDkPos < c.wDkPos by omega)
    (h.fulls.take_ready h.window h.head hring.tail hnone hn hlast)

/-- A pop with the disk, and the release of its slot: the ring is refilled, and there is a
full slot again unless the ring has all of the stream. -/
theorem pop_disk (h : Reader c σ pos L R T off) (hc : Copied c σ l) (hp : p.FilesOk)
    (hstep : c.InStep) (hnone : NonePopped c) (hn : 2 ≤ n) (hlt : R < T) :
    ∃ L' T' off',
      Reader ((c.take.reload true p).release c.head) σ (off (R + 1)) L' (R + 1) T' off' ∧
      Copied ((c.take.reload true p).release c.head) σ l ∧ (c.take.reload true p).InStep ∧
      off' (R + 1) = off (R + 1) ∧
      (R + 1 < T' ∨ (c.take.reload true p).hRbOffset = (c.take.reload true p).hOffset) := by
  have hle := h.high
  have hfull := h.fulls.head_full h.head hlt
  rcases h.take hfull with ⟨-, h₁, -, -⟩
  have hc₁ : Copied c.take σ l := hc.sameContent (.of_restate (take_restate hfull))
  rcases h₁.reload_inStep hc₁ hp hstep true with ⟨L', T', off', h₂, hgrows, hstep₂⟩
  have hstate := taken_state (c.take.reload_frozen true p)
  have hc₃ := (hc₁.reload true p).sameContent (.of_restate (release_restate hstate))
  have hsame : (c.take.reload true p).hOffset = c.hOffset := c.take.reload_hOffset true p
  have hhigh : c.hRbOffset = off' T := by
    rw [h.window.high, hgrows.2 T (Nat.le_refl T)]
  have hhigh₂ := h₂.window.high
  have hgrown := h₂.window.off_mono (h₂.fulls.lower.trans hlt) hgrows.1 (Nat.le_refl T')
  have hle₂ := h₂.high
  refine ⟨L', T', off', h₂.release hstate, hc₃, hstep₂, hgrows.2 (R + 1) hlt, ?_⟩
  by_cases hlast : R + 1 = T
  · by_cases hmore : c.hRbOffset = c.hOffset
    · right
      omega
    · -- there is more on the disk, so that the refill moves the end of the ring
      left
      have hprogress := h.take_refill hc hp hstep hnone hn hlast (by omega)
      have hne : T' ≠ T := by
        rintro rfl
        omega
      have := hgrows.1
      omega
  · exact Or.inl (lt_of_lt_of_le (show R + 1 < T by omega) hgrows.1)

/-- Once the ring is migrated and the reader in step, every pop reads on from the
disk what the next ones need. -/
theorem drain_disk {m : ℕ} (hm : c.hOffset ≤ off R + m) (h : Reader c σ pos L R T off)
    (hc : Copied c σ l) (hp : p.FilesOk) (hstep : c.InStep) (hnone : NonePopped c)
    (hready : R < T ∨ c.hRbOffset = c.hOffset) (hn : 2 ≤ n) :
    Drains c p σ pos c.hOffset := by
  induction m generalizing c pos L R T off with
  | zero =>
      -- nothing is left of the stream, so nothing is left in the ring
      have hw := h.window
      have hhigh := hw.high
      have hle := h.high
      have hlower := h.fulls.lower
      have hupper := h.fulls.upper
      have hRT : R = T := by
        by_contra hne
        have hfirst := hw.off_lt hlower (show R < T by omega)
        have := hw.off_mono (show L ≤ R + 1 by omega) (show R + 1 ≤ T by omega) (Nat.le_refl T)
        omega
      subst hRT
      have := h.tail_le hc.length
      exact h.drain_end (by omega) hc.length p
  | succ m ih =>
      have hupper := h.fulls.upper
      by_cases hRT : R = T
      · subst hRT
        have hall : c.hRbOffset = c.hOffset := hready.resolve_left (Nat.lt_irrefl R)
        have := h.tail_le hc.length
        exact h.drain_end (by omega) hc.length p
      -- the slot is taken, the ring refilled, and the slot released
      have hlt : R < T := by omega
      have hfirst := h.window.off_lt h.fulls.lower hlt
      have hfull := h.fulls.head_full h.head hlt
      have hdisk : c.isDiskUsable = true := by
        simp [isDiskUsable, hc.recording, hc.migrated]
      have hpop := pop_of_full hfull p
      rw [if_pos hdisk] at hpop
      rcases h.take hfull with ⟨-, -, hend, hreads⟩
      rcases h.pop_disk hc hp hstep hnone hn hlt with ⟨L', T', off', h₃, hc₃, hstep₃, hoff, hready₃⟩
      have hnone₃ := hnone.afterTake (c.take.reload_frozen true p)
      have hsame : ((c.take.reload true p).release c.head).hOffset = c.hOffset :=
        c.take.reload_hOffset true p
      have hgoal := ih (by omega) h₃ hc₃ hstep₃ hnone₃ hready₃
      rw [hsame, ← hend] at hgoal
      rw [← hend] at hreads
      exact Drains.cons hpop hreads hgoal

end Reader

/-- The bytes that are left for a draining reader are in the ring, or the disk takes
part: before the recording; with the full slots all read and nothing on the disk
behind the partly written slot; or with a full slot left to pop, and either the read
position in the file in step and a second slot to refill meanwhile, or no second slot
and nothing more on the disk. -/
def Drainable (c : Cache n) : Prop :=
  c.isRecording = false ∨ (c.fslots = 0 ∧ c.hOffset = c.hRbOffset + c.tailBytes) ∨
    (c.fslots ≠ 0 ∧ (2 ≤ n ∧ c.InStep ∨ n < 2 ∧ c.hRbOffset = c.hOffset))

theorem Recorder.ringOk (h : Recorder c σ b) (hr : Reader c σ pos L R T off)
    (hrec : c.isRecording = false) : RingOk c σ L T off := by
  rcases h with h | ⟨-, ⟨l, e, h⟩ | ⟨l, h⟩⟩
  · rcases h.ring with ⟨_, _, _, hring, -⟩
    exact ⟨hr.window, hr.stores, hring.length, hring.received⟩
  · rw [h.recording] at hrec
    cases hrec
  · rw [h.recording] at hrec
    cases hrec

/-- The draining of a reader, before the recording or after the migration. -/
theorem Reader.drains (h : Reader c σ pos L R T off) (hc : Recorder c σ b)
    (hmode : c.isRecording = false ∨ c.isRbMigrated = true) (hnone : NonePopped c)
    (hend : c.Drainable) (hp : p.FilesOk) : Drains c p σ pos c.hOffset := by
  have hupper := h.fulls.upper
  have hcount := h.fulls.fslots_eq_zero
  cases hrec : c.isRecording with
  | false =>
      have hdisk : c.isDiskUsable = false := by simp [isDiskUsable, hrec]
      exact h.drain_ring (show R + (T - R) = T by omega) (hc.ringOk h hrec) hdisk p
  | true =>
      have hm := hmode.resolve_left (by simp [hrec])
      rcases hc.copied hm with ⟨-, l, hcopied⟩
      rcases hend with habs | ⟨hzero, hlast⟩ | ⟨hne, hleft⟩
      · rw [hrec] at habs
        cases habs
      · have hRT := hcount.mp hzero
        subst hRT
        exact h.drain_end hlast hc.length p
      · have hlt : R < T := by
          by_contra hge
          exact hne (hcount.mpr (by omega))
        rcases hleft with ⟨hn, hstep⟩ | ⟨hn, hall⟩
        · exact h.drain_disk (Nat.le_add_left _ _) hcopied hp hstep hnone (Or.inl hlt) hn
        · exact h.drain_single hn hlt hall hc.length p

end Cache

/-! ## Runs -/

namespace Session

open Cache

variable {n : ℕ} [NeZero n] {s s' : Session n} {p : Platform} {b : Bool}

/-- The step keeps the reader in its place: no push reuses the slot of a lagging
tail, no slot is refilled out of step, a seek within the ring starts at a slot that
has not been given back, and a seek to the disk goes to received bytes. -/
def keepsReader (s : Session n) : Label → Prop
  | (.push data, _) =>
      (s.cache.isRecording = false → 0 < data.size → ¬s.cache.Drained) ∧
      (s.cache.isDiskUsable = true → s.cache.fslots = 0 →
        s.cache.Closed s.cache.tail ∨ s.cache.InStep)
  | (.pop _, _) => s.cache.isDiskUsable = true →
      (s.cache.slots s.cache.head).state = .full →
        (s.cache.head = s.cache.tail ∨ s.cache.Closed s.cache.tail) ∨ s.cache.InStep
  | (.seek o, _) =>
      (s.cache.lRbOffset ≤ s.cache.clamp o → s.cache.clamp o < s.cache.hRbOffset →
        (s.cache.slots s.cache.head).state ≠ .recycle) ∧
      (s.cache.isDiskUsable = true → s.cache.clamp o ≤ s.cache.hOffset)
  | _ => True

/-- A session on a recorder whose reader is in its place. -/
structure Reading (s : Session n) (b : Bool) : Prop where
  recorded : Recorded s b
  reader : ∃ L R T off, Reader s.cache s.accepted s.readPos L R T off

namespace Reading

theorem of_init (memory : Fin n → ℕ → UInt8) (file : Option File) :
    Reading (init n memory file) file.isSome where
  recorded := .of_init memory file
  reader := ⟨0, 0, 0, _, .of_new memory file⟩

theorem push (h : Reading s b) {data : Block UInt8} (hp : p.FilesOk)
    (horder : keepsOrder s (.push data, p)) (hok : keepsReader s (.push data, p)) :
    ∃ L R T off, Reader (s.cache.push data p) (s.accepted ++ data.toList.take
      ((s.cache.push data p).hOffset - s.cache.hOffset)) s.readPos L R T off := by
  rcases h.reader with ⟨L, R, T, off, hr⟩
  cases hrec : s.cache.isRecording with
  | false =>
      have hring := h.recorded.recorder.ringOk hr hrec
      rcases hr.push_ring hring hrec (hok.1 hrec) p with ⟨L', T', off', h'⟩
      exact ⟨L', R, T', off', h'⟩
  | true =>
      have hwrite := hr.diskWrite data p data.toList
      have heq := push_recording hrec data p
      -- all of it is written
      have hall : ∀ f, s.cache.file = some f → data.toList.take
          ((s.cache.push data p).hOffset - s.cache.hOffset) = data.toList := by
        intro f hf
        have hoffset : (s.cache.push data p).hOffset = s.cache.hOffset + data.size := by
          rw [heq]
          split
          · rw [reload_hOffset, diskWrite_ok hf hp.writeSeek hp.fwrite horder.1]
          · rw [diskWrite_ok hf hp.writeSeek hp.fwrite horder.1]
        rw [hoffset, Nat.add_sub_cancel_left,
          List.take_of_length_le (by rw [Block.length_toList])]
      rcases h.recorded.recorder with habs | ⟨-, ⟨l, e, hc⟩ | ⟨l, hc⟩⟩
      · rw [habs.idle.notRecording] at hrec
        cases hrec
      · -- the ring is being copied: nothing is read back, or into a ring not used yet
        rcases hc.file with ⟨f, hf, -⟩
        rw [hall f hf, heq]
        split
        · rename_i hempty
          rcases horder.2.2 hrec hc.notMigrated hempty with hno | hunused
          · rw [hno.reload hf hp horder.1]
            exact ⟨L, R, T, off, hwrite⟩
          · rcases hwrite.reload_unused (hc.diskWrite hp horder.1) (hunused.diskWrite data p) hp
              false with ⟨L', T', off', h'⟩
            exact ⟨L', R, T', off', h'⟩
        · exact ⟨L, R, T, off, hwrite⟩
      · have hc' := hc.diskWrite hp horder.1
        have hsame := s.cache.diskWrite_sameRing data p
        rcases hc.mirror.file with ⟨f, hf, -⟩
        have hdisk := diskWrite_ok hf hp.writeSeek hp.fwrite horder.1
        -- the reload of an empty ring is in step
        have hreload : s.cache.fslots = 0 →
            (s.cache.diskWrite data p).Closed (s.cache.diskWrite data p).tail ∨
              (s.cache.diskWrite data p).InStep := by
          intro hempty
          rcases hok.2 (by simp [isDiskUsable, hrec, hc.migrated]) hempty with hclosed | hstep
          · left
            unfold Closed
            rw [hsame.slots, hsame.tail]
            exact hclosed
          · right
            unfold InStep
            rw [hdisk]
            exact hstep
        rw [hall f hf, heq]
        split
        · rename_i hempty
          rcases hwrite.reload hc' hp (hreload hempty) false with ⟨L', T', off', h'⟩
          exact ⟨L', R, T', off', h'⟩
        · exact ⟨L, R, T, off, hwrite⟩

theorem pop (h : Reading s b) {drain : Bool} (hp : p.FilesOk)
    (hok : keepsReader s (.pop drain, p)) : ∃ L R T off,
      Reader (s.afterPop (s.cache.pop drain p)).cache (s.afterPop (s.cache.pop drain p)).accepted
        (s.afterPop (s.cache.pop drain p)).readPos L R T off := by
  rcases h.reader with ⟨L, R, T, off, hr⟩
  have hlen := h.recorded.recorder.length
  rcases s.cache.pop_cases drain p with ⟨c₁, hc₁, hpop⟩
  -- the cache after the draining part of the pop
  have hr₁ : ∃ T' off', Reader c₁ s.accepted s.readPos L R T' off' := by
    rw [hc₁]
    split
    · exact hr.promote hlen
    · exact ⟨T, off, hr⟩
  have hrecorder₁ : Recorder c₁ s.accepted b := by
    rw [hc₁]
    split
    · exact h.recorded.recorder.promote
    · exact h.recorded.recorder
  have hrefill : (c₁.isRecording && c₁.isRbMigrated) = true →
      (c₁.slots c₁.head).state = .full → (c₁.head = c₁.tail ∨ c₁.Closed c₁.tail) ∨ c₁.InStep := by
    intro hdisk hfull
    by_cases hst : (s.cache.slots s.cache.head).state = .part
    · -- a partly written slot is the tail slot
      left
      left
      rcases hr.window.head_part hst with ⟨-, hhead, htail, -⟩
      rw [hc₁]
      split
      · rw [promote_of_part hst]
        exact hhead.trans htail.symm
      · exact hhead.trans htail.symm
    · have hsame : c₁ = s.cache := by rw [hc₁, promote_of_ne hst, ite_self]
      rw [hsame] at hdisk hfull ⊢
      exact hok hdisk hfull
  rcases hr₁ with ⟨T', off', hr₁⟩
  rcases hpop with ⟨-, heq⟩ | ⟨hfull, heq⟩
  · rw [heq]
    exact ⟨L, R, T', off', hr₁⟩
  · rcases hr₁.take hfull with ⟨-, hr₂, hend, -⟩
    rw [← hend] at hr₂
    rw [heq]
    split
    · rename_i hdisk
      have hm : c₁.isRbMigrated = true := by
        rw [Bool.and_eq_true] at hdisk
        exact hdisk.2
      rcases (hrecorder₁.restate (take_restate hfull)).copied hm with ⟨-, l, hcopied⟩
      rcases hr₂.reload hcopied hp ((hrefill hdisk hfull).imp_left closed_take) drain with
        ⟨L', T'', off'', hr₃⟩
      exact ⟨L', R + 1, T'', off'', hr₃⟩
    · exact ⟨L, R + 1, T', off', hr₂⟩

theorem seek (h : Reading s b) {o : ℕ} (hp : p.FilesOk) (hok : keepsReader s (.seek o, p))
    (hlive : s.live = []) {c : Cache n} (hseek : s.cache.seek o p = some c) :
    ∃ L R T off, Reader c s.accepted (s.cache.seekPos o s.readPos) L R T off := by
  rcases h.reader with ⟨L, R, T, off, hr⟩
  have hnone : NonePopped s.cache := by
    have := h.recorded.live
    rw [hlive, liveOk_nil] at this
    exact this
  unfold seekPos
  rcases seek_cases hseek with ⟨hlow, hhigh, hring⟩ | ⟨hout, hdisk, rfl⟩ | ⟨hout, hdisk, rfl⟩
  · dsimp only
    rw [if_pos ⟨hlow, hhigh⟩]
    rcases hr.seekRing hnone (hok.1 hlow hhigh) hlow hhigh hring with ⟨R', h'⟩
    exact ⟨L, R', T, off, h'⟩
  · dsimp only
    rw [if_neg hout, if_pos hdisk]
    have hm : s.cache.isRbMigrated = true := by
      rw [isDiskUsable, Bool.and_eq_true] at hdisk
      exact hdisk.2
    rcases h.recorded.recorder.copied hm with ⟨-, l, hc⟩
    have hlow : l ≤ s.cache.clamp o := by
      simp only [clamp, hdisk, if_true, hc.low, Offset.val_some]
      exact Nat.le_max_right _ _
    rcases Reader.of_seekDisk hc hp hlow (hok.2 hdisk) with ⟨L', T', off', h'⟩
    exact ⟨L', 0, T', off', h'⟩
  · dsimp only
    rw [if_neg hout, if_neg (by simp [hdisk])]
    exact ⟨L, R, T, off, hr⟩

theorem step (h : Reading s b) {l : Label} (hl : recordStep s l) (horder : keepsOrder s l)
    (hok : keepsReader s l) (hs : s.step l = some s') : Reading s' b := by
  refine ⟨h.recorded.step hl horder hs, ?_⟩
  rcases l with ⟨op, p⟩
  cases op with
  | push data =>
      rw [step_push hs]
      exact h.push hl horder hok
  | pop drain =>
      rw [step_pop hs]
      exact h.pop hl hok
  | release k =>
      rcases step_release hs with ⟨x, hx, rfl⟩
      rcases h.reader with ⟨L, R, T, off, hr⟩
      exact ⟨L, R, T, off, hr.release (h.recorded.live.state (List.mem_of_getElem? hx))⟩
  | seek offset =>
      rcases step_seek hs with ⟨hlive, c, hc, rfl⟩
      exact h.seek hl hok hlive hc
  | startRecording =>
      rw [step_startRecording hs]
      rcases h.reader with ⟨L, R, T, off, hr⟩
      refine ⟨L, R, T, off, hr.startRecording ?_ p⟩
      intro hthread hrec
      rcases h.recorded.recorder with habs | ⟨-, ⟨l, e, hc⟩ | ⟨l, hc⟩⟩
      · rw [habs.idle.notRecording] at hrec
        cases hrec
      · rw [hc.low]
        exact hc.start
      · rw [hc.finished] at hthread
        cases hthread
  | migrate =>
      rw [step_migrate hs]
      rcases h.reader with ⟨L, R, T, off, hr⟩
      exact ⟨L, R, T, off, hr.migrationThread p⟩
  | reload drain => cases hl

end Reading

/-- In every run whose steps keep the slots in order and the reader in its place,
draining a cache that is `Drainable`, before the recording or after the migration,
delivers the received stream from the read position to `h_offset`, and ends. -/
theorem drain_delivers {memory : Fin n → ℕ → UInt8} {file : Option File}
    (h : Reach Session.step (fun s l => recordStep s l ∧ keepsOrder s l ∧ keepsReader s l)
      (init n memory file) s)
    (hmode : s.cache.isRecording = false ∨ s.cache.isRbMigrated = true) (hlive : s.live = [])
    (hend : s.cache.Drainable) (hp : p.FilesOk) :
    ∃ fuel bufs, drainLoop p fuel s.cache = some bufs ∧
      Reads s.accepted s.readPos (bufs.map Buffer.piece) s.cache.hOffset := by
  have hinv : Reading s file.isSome :=
    h.invariant (P := fun s => Reading s file.isSome) (.of_init memory file)
      fun _ _ _ hinv hok hs => hinv.step hok.1 hok.2.1 hok.2.2 hs
  rcases hinv.reader with ⟨L, R, T, off, hr⟩
  have hnone : NonePopped s.cache := by
    have := hinv.recorded.live
    rw [hlive, liveOk_nil] at this
    exact this
  exact hr.drains hinv.recorded.recorder hmode hnone hend hp

theorem drain_delivers_from_disk : ∃ s : Session 2,
    Reach Session.step (fun s l => recordStep s l ∧ keepsOrder s l ∧ keepsReader s l)
      (init 2 (fun _ _ => 0) (some .new)) s ∧ s.cache.isRbMigrated = true ∧
      s.readPos = 2 * cacheSlotSize ∧ ∃ fuel bufs, drainLoop .allOk fuel s.cache = some bufs ∧
        Reads s.accepted s.readPos (bufs.map Buffer.piece) s.cache.hOffset := by
  have h₀ : Reach Session.step (fun s l => recordStep s l ∧ keepsOrder s l ∧ keepsReader s l)
    (init 2 (fun _ _ => 0) (some .new)) _ := .refl
  have h₁ := h₀.extend (.push ⟨3 * cacheSlotSize, fun _ => 7⟩, .allOk)
    ⟨Platform.allOk_filesOk,
      ⟨by decide, fun _ _ => Or.inl rfl, fun habs => absurd habs (by decide)⟩,
      ⟨fun _ _ hd => (nomatch hd.2.1), fun habs => absurd habs (by decide)⟩⟩ rfl
  have h₂ := h₁.extend (.migrate, .allOk) ⟨Platform.allOk_filesOk, trivial, trivial⟩ rfl
  have h₃ := h₂.extend (.migrate, .allOk) ⟨Platform.allOk_filesOk, trivial, trivial⟩ rfl
  have h₄ := h₃.extend (.migrate, .allOk) ⟨Platform.allOk_filesOk, trivial, trivial⟩ rfl
  have h₅ := h₄.extend (.migrate, .allOk) ⟨Platform.allOk_filesOk, trivial, trivial⟩ rfl
  have h₆ := h₅.extend (.seek (2 * cacheSlotSize), .allOk)
    ⟨Platform.allOk_filesOk, trivial, fun _ _ => by decide, fun _ => by decide⟩ rfl
  exact ⟨_, h₆, rfl, rfl, drain_delivers h₆ (Or.inr rfl) rfl
    (Or.inr (Or.inr ⟨by decide, Or.inl ⟨Nat.le_refl 2, by decide⟩⟩)) Platform.allOk_filesOk⟩

/-- A recording is started on an empty cache, and one byte is pushed: it goes to the
disk, no pop ever gets there, and the draining ends with nothing delivered. -/
theorem drain_misses_remainder :
    ¬∀ (s : Session 2) (p : Platform),
      Reach Session.step recordStep (init 2 (fun _ _ => 0) (some .new)) s →
      (s.cache.isRecording = false ∨ s.cache.isRbMigrated = true) → s.live = [] → p.FilesOk →
        ∃ fuel bufs, drainLoop p fuel s.cache = some bufs ∧
          Reads s.accepted s.readPos (bufs.map Buffer.piece) s.cache.hOffset := by
  intro hall
  have h₀ : Reach Session.step recordStep (init 2 (fun _ _ => 0) (some .new)) _ := .refl
  have h₁ := h₀.extend (.startRecording, .allOk) Platform.allOk_filesOk rfl
  have h₂ := h₁.extend (.migrate, .allOk) Platform.allOk_filesOk rfl
  have h₃ := h₂.extend (.migrate, .allOk) Platform.allOk_filesOk rfl
  have h₄ := h₃.extend (.migrate, .allOk) Platform.allOk_filesOk rfl
  have h₅ := h₄.extend (.migrate, .allOk) Platform.allOk_filesOk rfl
  have h₆ := h₅.extend (.push ⟨1, fun _ => 7⟩, .allOk) Platform.allOk_filesOk rfl
  rcases hall _ .allOk h₆ (Or.inr rfl) rfl Platform.allOk_filesOk with ⟨fuel, bufs, hloop, hreads⟩
  cases fuel with
  | zero => cases hloop
  | succ fuel =>
      -- the first pop returns no buffer
      cases hloop
      have hend : 0 = 1 := hreads
      cases hend

end Session

end TimeShift
