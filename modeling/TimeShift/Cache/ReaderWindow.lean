import TimeShift.Cache.Storage
import TimeShift.Cache.Walk

/-!
# The reader's window

While the cache is not recording, the full slots are to be the ones that the
reader still has to get: those from the head on, from the read position to
`h_rb_offset`. Pushes, pops and releases keep it so. A seek keeps it unless its
walk starts at a slot that has been given back already; this is where the head
stands after the reader has caught up in a full ring, and the walk then leaves
all slots but the one it stops at as they were.
-/

set_option linter.unusedSectionVars false

namespace TimeShift

open Bytes Cyclic Tiling Machine

namespace Cache

variable {n : ℕ} [NeZero n] {c c' : Cache n} {p : Platform} {L R T m o : ℕ} {off : ℕ → ℕ}
  {σ : List UInt8}

/-- The full slots are the `fslots` slots from the head on, and they hold the
stream from `pos` to `h_rb_offset`. -/
structure ReaderWindow (c : Cache n) (σ : List UInt8) (pos : ℕ) : Prop where
  count : 0 ≤ c.fslots
  full : ∀ s ∈ c.slotsFrom c.fslots.toNat c.head, s.state = .full
  only : ∀ i, (c.slots i).state = .full →
    ∃ j, j < c.fslots.toNat ∧ i = idx n (c.head.val + j)
  tiles : Tiles pos ((c.slotsFrom c.fslots.toNat c.head).map Slot.range) c.hRbOffset
  bytes : ∀ s ∈ c.slotsFrom c.fslots.toNat c.head,
    ∃ o, s.offset = some o ∧ Holds σ o s.size s.data

/-- Pop, without draining, until `k` buffers are popped or there are no more. -/
def popMany (p : Platform) : ℕ → Cache n → List (Buffer n)
  | 0, _ => []
  | k + 1, c =>
    match c.pop false p with
    | (_, none) => []
    | (c, some b) => b :: popMany p k c

/-! ## From positions to the head -/

theorem mem_slotsFrom (c : Cache n) {k q : ℕ} {s : Slot} (hs : s ∈ c.slotsFrom k (idx n q)) :
    ∃ j, j < k ∧ s = c.slots (idx n (q + j)) := by
  induction k generalizing q with
  | zero => cases hs
  | succ k ih =>
      rw [slotsFrom, idx_add_one] at hs
      rcases List.mem_cons.mp hs with rfl | hs
      · exact ⟨0, Nat.succ_pos k, rfl⟩
      · obtain ⟨j, hj, rfl⟩ := ih hs
        exact ⟨j + 1, by omega, by rw [Nat.add_right_comm, Nat.add_assoc]⟩

theorem Fulls.readerWindow (h : Fulls c L R T) (hw : Window c L T off) (hst : Stores c σ)
    (hhead : c.head = idx n R) : ReaderWindow c σ (off R) := by
  have hlower := h.lower
  have hupper := h.upper
  have hk : R + (T - R) = T := by omega
  constructor
  · have := h.count
    omega
  · intro s hs
    rw [h.toNat, hhead] at hs
    obtain ⟨j, hj, rfl⟩ := c.mem_slotsFrom hs
    exact (h.full (R + j) (by omega) (by omega)).mpr (by omega)
  · intro i hi
    obtain ⟨q, hL, hT, rfl⟩ := hw.exists_pos (Slot.Complete.of_full hi)
    have hRq := (h.full q hL hT).mp hi
    refine ⟨q - R, by rw [h.toNat]; omega, ?_⟩
    rw [hhead, idx_val_add, show R + (q - R) = q by omega]
  · have htiles := hw.tiles (P := fun _ => true) (fun _ _ => rfl) (T - R) hlower (by omega)
    rw [List.filter_true, hk, ← hw.high] at htiles
    rwa [h.toNat, hhead]
  · intro s hs
    rw [h.toNat, hhead] at hs
    obtain ⟨j, hj, rfl⟩ := c.mem_slotsFrom hs
    have hspan := hw.spans (R + j) (by omega) (by omega)
    exact ⟨_, hspan.1, hst _ _ hspan.1⟩

/-- Popping the reader's window reads the stream from the reader's position to
`h_rb_offset`, one slot after the other. -/
theorem Fulls.popMany (h : Fulls c L R T) (hw : Window c L T off) (hst : Stores c σ)
    (hhead : c.head = idx n R) (hrec : c.isRecording = false) {k : ℕ} (hk : T - R ≤ k) :
    (popMany p k c).length = T - R ∧
      Reads σ (off R) ((Cache.popMany p k c).map Buffer.piece) (off T) ∧
      (R < T → ∃ b bs, Cache.popMany p k c = b :: bs ∧ b.offset = off R ∧
        b.offsetEnd = off (R + 1)) := by
  have hlower := h.lower
  have hupper := h.upper
  -- on the pops that are left; each one moves the reader on by a slot
  induction k generalizing c R with
  | zero =>
      have hRT : R = T := by omega
      subst hRT
      exact ⟨by simp [Cache.popMany], Eq.refl _, fun habs => by omega⟩
  | succ k ih =>
      obtain ⟨c₁, hc₁, hpop⟩ := c.pop_cases false p
      simp only [Bool.false_eq_true, if_false] at hc₁
      subst hc₁
      rcases hpop with ⟨hne, hpop⟩ | ⟨hfull, hpop⟩
      · -- nothing is full, so the reader is at the end
        have hRT : R = T := by
          by_contra hlt
          exact hne (h.head_full hhead (by omega))
        subst hRT
        simp only [Cache.popMany, hpop, List.length_nil, List.map_nil, Nat.sub_self]
        exact ⟨trivial, Eq.refl _, fun habs => by omega⟩
      · have hlt := h.lt_of_head_full hw hfull
        obtain ⟨hfulls, hhead'⟩ := h.take hw.fits hhead hlt
        have hrestate := take_restate hfull
        obtain ⟨hlen, hreads, -⟩ := ih hfulls (hw.restate hrestate) (hst.restate hrestate) hhead'
          hrec (by omega) (by omega) (by omega)
        obtain ⟨hoff, hend⟩ := hw.slotBuffer_range hhead hlower hlt
        have hspan := hw.spans R hlower hlt
        rw [← hhead] at hspan
        have hfirst := (hst.head_buffer hspan).reads
        rw [hoff, hend] at hfirst
        simp only [hrec, Bool.false_and, Bool.false_eq_true, if_false] at hpop
        simp only [Cache.popMany, hpop, List.length_cons, hlen, List.map_cons]
        refine ⟨by omega, hfirst.trans hreads, fun _ => ⟨_, _, rfl, hoff, hend⟩⟩

end Cache

/-! ## Runs -/

namespace Session

open Cache

variable {n : ℕ} [NeZero n] {s s' : Session n} {p : Platform} {L R T o : ℕ} {off : ℕ → ℕ}

/-- A seek starts at a slot that has not been given back, or goes to the newest
slot of the ring or beyond. -/
def seekOk (s : Session n) : Label → Prop
  | (.seek offset, _) => (s.cache.slots s.cache.head).state ≠ .recycle ∨
      s.cache.hRbOffset ≤ s.cache.clamp offset + cacheSlotSize
  | _ => True

/-- A session in the ring whose reader has read up to position `R`. -/
structure AtReader (s : Session n) (L R T : ℕ) (off : ℕ → ℕ) : Prop where
  inRing : InRing s L T off
  fulls : Fulls s.cache L R T
  head : s.cache.head = idx n R
  pos : s.readPos = off R

namespace AtReader

theorem of_init (memory : Fin n → ℕ → UInt8) (file : Option File) :
    AtReader (init n memory file) 0 0 0 (fun _ => 0) :=
  ⟨.of_init memory file, .of_new memory file, rfl, rfl⟩

theorem push (h : AtReader s L R T off) {data : Block UInt8}
    (hs : s.step (.push data, p) = some s') (hafter : s'.cache.isRecording = false) :
    ∃ L' T' off', AtReader s' L' R T' off' := by
  obtain ⟨L', T', off', hring, hgrows, hfulls⟩ := h.inRing.push hs hafter
  have hhead : s'.cache.head = s.cache.head := by
    obtain ⟨k, _, _, _, -, hframe, -⟩ := h.inRing.ring.push_idle (p := p) h.inRing.tail
      h.inRing.idle data (by rw [step_push hs] at hafter; exact hafter)
    rw [step_push hs]
    obtain ⟨_, _, _, _, _, _, heq⟩ := hframe
    show (s.cache.push data p).head = _
    rw [heq]
  have hpos : s'.readPos = s.readPos := by rw [step_push hs]
  exact ⟨L', T', off', hring, hfulls R h.fulls, hhead.trans h.head,
    by rw [hpos, h.pos, hgrows.2 R h.fulls.upper]⟩

theorem pop (h : AtReader s L R T off) (hs : s.step (.pop false, p) = some s') :
    ∃ R', AtReader s' L R' T off := by
  obtain ⟨hring, hres⟩ := h.inRing.pop hs
  rcases hres with ⟨-, rfl⟩ | ⟨hfull, hcache, -, hpos, -⟩
  · exact ⟨R, h⟩
  · have hlt := h.fulls.lt_of_head_full h.inRing.ring.window hfull
    obtain ⟨hfulls, hhead⟩ := h.fulls.take h.inRing.ring.window.fits h.head hlt
    obtain ⟨-, hend⟩ := h.inRing.ring.window.slotBuffer_range h.head h.fulls.lower hlt
    rw [← hcache] at hfulls hhead
    exact ⟨R + 1, hring, hfulls, hhead, hpos.trans hend⟩

theorem release (h : AtReader s L R T off) {k : ℕ} (hs : s.step (.release k, p) = some s') :
    AtReader s' L R T off := by
  have hring := h.inRing.release hs
  obtain ⟨b, hb, rfl⟩ := step_release hs
  have hstate := h.inRing.live.state (List.mem_of_getElem? hb)
  exact ⟨hring, h.fulls.release hstate, h.head, h.pos⟩

/-- A seek into the ring that meets the condition. -/
theorem seekRing (h : AtReader s L R T off) (hlive : s.live = [])
    (hok : seekOk s (.seek o, p)) (hlow : s.cache.lRbOffset ≤ s.cache.clamp o)
    (hhigh : s.cache.clamp o < s.cache.hRbOffset) :
    ∃ m s', L ≤ m ∧ m < T ∧ off m ≤ s.cache.clamp o ∧ s.cache.clamp o < off (m + 1) ∧
      s.step (.seek o, p) = some s' ∧ AtReader s' L m T off := by
  have hw := h.inRing.ring.window
  have hnone : NonePopped s.cache := by
    have := h.inRing.live
    rw [hlive, liveOk_nil] at this
    exact this
  have hlow' := hw.low
  have hhigh' := hw.high
  have hcond : (s.cache.slots s.cache.head).state ≠ .recycle ∨ off (T - 1) ≤ s.cache.clamp o := by
    have hLT : L < T := by
      by_contra hge
      have hLT : L = T := by
        have := hw.le
        omega
      rw [hLT] at hlow'
      omega
    refine hok.imp_right fun hnew => ?_
    have hwhole := h.inRing.whole _ (hw.complete (T - 1) (by omega) (by omega))
    have hspan := hw.spans (T - 1) (by omega) (by omega)
    rw [show T - 1 + 1 = T by omega] at hspan
    have := hspan.2.1
    omega
  obtain ⟨m, c', hLm, hmT, hm, hm', hseek, hfulls, hhead⟩ := h.fulls.seekRing hw hnone h.head
    (by omega) (by omega) hcond
  have hcache : s.cache.seek o p = some c' := by
    rw [Cache.seek, if_pos ⟨hlow, hhigh⟩, hseek]
  have hstep : s.step (.seek o, p) =
      some { s with cache := c', readPos := s.cache.seekPos o s.readPos } := by
    simp only [step, hlive, List.isEmpty_nil, if_true, hcache]
  refine ⟨m, _, hLm, hmT, hm, hm', hstep, h.inRing.seek hstep, hfulls, hhead, ?_⟩
  show s.cache.seekPos o s.readPos = off m
  rw [seekPos, if_pos ⟨hlow, hhigh⟩, hw.slotStart hLm hmT hm hm']

theorem seek (h : AtReader s L R T off) (hok : seekOk s (.seek o, p))
    (hs : s.step (.seek o, p) = some s') : ∃ R', AtReader s' L R' T off := by
  obtain ⟨hlive, c, hc, heq⟩ := step_seek hs
  rcases seek_cases hc with ⟨hlow, hhigh, -⟩ | ⟨-, hdisk, -⟩ | ⟨hout, hdisk, hsame⟩
  · obtain ⟨m, s₁, -, -, -, -, hs₁, h₁⟩ := h.seekRing hlive hok hlow hhigh
    rw [hs] at hs₁
    cases hs₁
    exact ⟨m, h₁⟩
  · simp [isDiskUsable, h.inRing.idle.notRecording] at hdisk
  · -- the offset is outside the ring: nothing happens
    subst hsame
    have hpos : s.cache.seekPos o s.readPos = s.readPos := by
      simp [seekPos, hout, hdisk]
    rw [hpos] at heq
    exact ⟨R, heq ▸ h⟩

theorem step (h : AtReader s L R T off) {l : Label} (hl : l.1.ofRing) (hok : seekOk s l)
    (hs : s.step l = some s') (hafter : s'.cache.isRecording = false) :
    ∃ L' R' T' off', AtReader s' L' R' T' off' := by
  obtain ⟨op, p⟩ := l
  cases op with
  | push data =>
      obtain ⟨L', T', off', h'⟩ := h.push hs hafter
      exact ⟨L', R, T', off', h'⟩
  | pop drain =>
      cases drain with
      | false =>
          obtain ⟨R', h'⟩ := h.pop hs
          exact ⟨L, R', T, off, h'⟩
      | true => cases hl
  | release k => exact ⟨L, R, T, off, h.release hs⟩
  | seek offset =>
      obtain ⟨R', h'⟩ := h.seek hok hs
      exact ⟨L, R', T, off, h'⟩
  | startRecording => cases hl
  | migrate => cases hl
  | reload drain => cases hl

end AtReader

/-- In every run whose seeks meet `seekOk`, the full slots are the reader's
window; a cache that is not empty has a buffer to pop; and after a seek into the
ring that meets the condition, pops return one slot after the other from the one
that contains the offset to the end of the ring. -/
theorem reader_window {memory : Fin n → ℕ → UInt8} {file : Option File}
    (h : Reach Session.step (fun s l => ringStep s l ∧ seekOk s l) (init n memory file) s)
    (hrec : s.cache.isRecording = false) :
    ReaderWindow s.cache s.accepted s.readPos ∧
    (s.cache.isEmpty = false → ∀ p, (s.cache.pop false p).2.isSome) ∧
    ∀ o p, s.cache.lRbOffset ≤ o → o < s.cache.hRbOffset → s.live = [] →
      seekOk s (.seek o, p) → ∃ s', s.step (.seek o, p) = some s' ∧
        ∀ k, s'.cache.fslots.toNat ≤ k → ∃ b bs, popMany p k s'.cache = b :: bs ∧
          b.offset ≤ o ∧ o < b.offsetEnd ∧ (b :: bs).length = s'.cache.fslots.toNat ∧
          Reads s.accepted b.offset ((b :: bs).map Buffer.piece) s.cache.hRbOffset := by
  have hinv : s.cache.isRecording = false → ∃ L R T off, AtReader s L R T off := by
    refine h.invariant
      (P := fun s => s.cache.isRecording = false → ∃ L R T off, AtReader s L R T off)
      (fun _ => ⟨0, 0, 0, _, .of_init memory file⟩) ?_
    intro s l s' hinv hok hs hafter
    obtain ⟨L, R, T, off, hat⟩ := hinv hok.1.1
    exact hat.step hok.1.2 hok.2 hs hafter
  obtain ⟨L, R, T, off, hat⟩ := hinv hrec
  have hw := hat.inRing.ring.window
  refine ⟨?_, ?_, ?_⟩
  · rw [hat.pos]
    exact hat.fulls.readerWindow hw hat.inRing.ring.stores hat.head
  · intro hempty p
    have hne : R ≠ T := by
      intro hRT
      rw [isEmpty, decide_eq_false_iff_not, hat.fulls.fslots_eq_zero] at hempty
      exact hempty hRT
    have hupper := hat.fulls.upper
    have hfull := hat.fulls.head_full hat.head (show R < T by omega)
    simp [Cache.pop, hfull, hrec, Cache.take]
  · intro o p hlow hhigh hlive hok
    have hclamp : s.cache.clamp o = o := by
      simp only [clamp, isDiskUsable, hrec, Bool.false_and, Bool.false_eq_true, if_false]
      omega
    obtain ⟨m, s', hLm, hmT, hm, hm', hs, hat'⟩ := hat.seekRing (p := p) hlive hok
      (by rw [hclamp]; exact hlow) (by rw [hclamp]; exact hhigh)
    rw [hclamp] at hm hm'
    refine ⟨s', hs, ?_⟩
    intro k hk
    rw [hat'.fulls.toNat] at hk
    obtain ⟨hlen, hreads, hfirst⟩ := hat'.fulls.popMany (p := p) hat'.inRing.ring.window
      hat'.inRing.ring.stores hat'.head hat'.inRing.idle.notRecording hk
    obtain ⟨b, bs, hbs, hb, hb'⟩ := hfirst hmT
    have haccepted : s'.accepted = s.accepted := by
      obtain ⟨-, c, -, rfl⟩ := step_seek hs
      rfl
    refine ⟨b, bs, hbs, by omega, by omega, ?_, ?_⟩
    · rw [← hbs, hlen, hat'.fulls.toNat]
    · rw [← hbs, hb, hw.high, ← haccepted]
      exact hreads

theorem reader_window_trip : ∃ s : Session 2,
    Reach Session.step (fun s l => ringStep s l ∧ seekOk s l) (init 2 (fun _ _ => 0) none) s ∧
      s.readPos = 0 ∧ ReaderWindow s.cache s.accepted s.readPos := by
  have h₀ : Reach Session.step (fun s l => ringStep s l ∧ seekOk s l)
    (init 2 (fun _ _ => 0) none) _ := .refl
  have h₁ := h₀.extend (.push ⟨cacheSlotSize, fun _ => 7⟩, .allOk) ⟨⟨rfl, trivial⟩, trivial⟩ rfl
  have h₂ := h₁.extend (.pop false, .allOk) ⟨⟨rfl, trivial⟩, trivial⟩ rfl
  have h₃ := h₂.extend (.release 0, .allOk) ⟨⟨rfl, trivial⟩, trivial⟩ rfl
  have h₄ := h₃.extend (.seek 3, .allOk) ⟨⟨rfl, trivial⟩, Or.inl (by decide)⟩ rfl
  exact ⟨_, h₄, rfl, (reader_window h₄ rfl).1⟩

/-- A reader that has caught up in a full ring of two slots seeks back to the
oldest byte: only that one slot is full afterwards. -/
theorem caught_up_seek_loses_window :
    ¬∀ s : Session 2, Reach Session.step ringStep (init 2 (fun _ _ => 0) none) s →
      s.cache.isRecording = false → ReaderWindow s.cache s.accepted s.readPos := by
  intro hall
  have h₀ : Reach Session.step ringStep (init 2 (fun _ _ => 0) none) _ := .refl
  have h₁ := h₀.extend (.push ⟨2 * cacheSlotSize, fun _ => 7⟩, .allOk) ⟨rfl, trivial⟩ rfl
  have h₂ := h₁.extend (.pop false, .allOk) ⟨rfl, trivial⟩ rfl
  have h₃ := h₂.extend (.pop false, .allOk) ⟨rfl, trivial⟩ rfl
  have h₄ := h₃.extend (.release 0, .allOk) ⟨rfl, trivial⟩ rfl
  have h₅ := h₄.extend (.release 0, .allOk) ⟨rfl, trivial⟩ rfl
  have h₆ := h₅.extend (.seek 0, .allOk) ⟨rfl, trivial⟩ rfl
  have htiles := (hall _ h₆ rfl).tiles
  -- the one full slot would have to reach to the end of the ring
  have hend : cacheSlotSize = 2 * cacheSlotSize := htiles.2
  exact absurd hend (by decide)

end Session

end TimeShift
