import Mathlib.Data.List.Chain
import TimeShift.Cache.HasOffset
import TimeShift.Cache.Lands

/-!
# Discontinuities

A buffer that does not start where the last one has ended is to carry
`GST_BUFFER_FLAG_DISCONT`. The flag is set by `need_discont`, which only a flush of the
ring sets: a seek on the disk flushes the ring, but one within the ring does not. So a
seek within the ring leads to a jump that is not flagged, unless the flag is pending or
another seek leads the reader back before the next pop (`discontinuities_flagged`).

Moreover, the reader has to go on through the ring from there: `Standing` says that it
has the full slots in front of it, in every mode.
-/

set_option linter.unusedSectionVars false

namespace TimeShift

open Bytes Cyclic Machine

namespace Cache

variable {n : ℕ} [NeZero n] {c c' : Cache n} {p : Platform} {L R T o pos : ℕ} {off : ℕ → ℕ}

/-! ## Where the reader stands -/

/-- The reader stands at position `R` of the window, which starts at `pos` in the stream;
the full slots are those from there on. -/
structure Standing (c : Cache n) (L R T : ℕ) (off : ℕ → ℕ) (pos : ℕ) : Prop where
  window : Window c L T off
  tail : TailOk c L T
  fulls : Fulls c L R T
  head : c.head = idx n R
  pos : off R = pos

/-- The reader stands at `pos`, wherever that is in the ring. -/
def StandsAt (c : Cache n) (pos : ℕ) : Prop := ∃ L R T off, Standing c L R T off pos

namespace Standing

theorem of_new (memory : Fin n → ℕ → UInt8) (file : Option File) :
    Standing (Cache.new n memory file) 0 0 0 (fun _ => 0) 0 :=
  ⟨.of_new memory file, Or.inl rfl, .of_new memory file, rfl, rfl⟩

theorem placed (h : Standing c L R T off pos) : Placed c L T off :=
  ⟨h.window, h.tail, Or.inl ⟨R, h.fulls.lower, h.fulls.upper, h.head⟩⟩

theorem sameRing (h : Standing c L R T off pos) (hr : SameRing c c') :
    Standing c' L R T off pos := by
  have hplaced := h.placed.sameRing hr
  exact ⟨hplaced.window, hplaced.tail, h.fulls.sameRing hr, hr.head.trans h.head, h.pos⟩

/-! ### The tail -/

/-- Recycling the slot at the tail; it is none that the reader still has to get. -/
theorem recycle (h : Standing c L R T off pos) (ht : c.tail = idx n T) :
    ∃ L', Standing (c.recycle c.tail) L' R T off pos ∧ (c.recycle c.tail).tail = idx n T := by
  rcases h.window.recycle ht with ⟨L', -, hw, hfulls⟩
  have ht' : (c.recycle c.tail).tail = idx n T := (c.recycle_tail _).trans ht
  have hhead : (c.recycle c.tail).head = idx n R := by
    rcases c.recycle_frame c.tail with ⟨_, _, _, _, _, _, heq⟩
    rw [heq]
    exact h.head
  exact ⟨L', ⟨hw, Or.inl ht', hfulls R h.fulls, hhead, h.pos⟩, ht'⟩

theorem fill (h : Standing c L R T off pos) (ht : c.tail = idx n T) (data : Block UInt8) {k : ℕ}
    (ha : (c.slots c.tail).available) (hk : k ≤ (c.slots c.tail).room) (hpos : 0 < k) :
    ∃ T' off', Standing (c.fill data k ha hk) L R T' off' pos ∧
      (c.fill data k ha hk).tail = idx n T' := by
  rcases h.window.fill ht data ha hk hpos with ⟨T', off', hw, ht', hgrows, hfulls, -⟩
  have hhead : (c.fill data k ha hk).head = idx n R := by
    rcases c.fill_frame data k ha hk with ⟨_, _, _, _, _, _, heq⟩
    rw [heq]
    exact h.head
  exact ⟨T', off', ⟨hw, Or.inl ht', hfulls R h.fulls, hhead,
    (hgrows.2 R h.fulls.upper).trans h.pos⟩, ht'⟩

theorem read (h : Standing c L R T off pos) (ht : c.tail = idx n T) {k : ℕ} {drain : Bool}
    (hread : c.diskRead c.tail c.hRbOffset drain p k = (c', true)) :
    ∃ off', Standing c'.advance L R (T + 1) off' pos ∧ c'.advance.tail = idx n (T + 1) := by
  rcases h.window.read ht hread with ⟨hw, ht', hfulls, -⟩
  have hupper := h.fulls.upper
  have hhead : c'.advance.head = idx n R := by
    rcases diskRead_true hread with ⟨f, -, -, -, -, -, rfl⟩
    exact h.head
  refine ⟨_, ⟨hw, Or.inl ht', hfulls R h.fulls, hhead, ?_⟩, ht'⟩
  rw [Function.update_of_ne (by omega)]
  exact h.pos

theorem read_fail (h : Standing c L R T off pos) {i : Fin n} {o k : ℕ} {drain : Bool}
    (hread : c.diskRead i o drain p k = (c', false)) :
    Standing c' L R T off pos ∧ c'.tail = c.tail := by
  rcases h.placed.read_fail hread with ⟨hplaced, ht⟩
  refine ⟨⟨hplaced.window, hplaced.tail, ?_, ?_, h.pos⟩, ht⟩
  · rcases diskRead_false hread with rfl | ⟨-, bytes, m, rfl⟩
    · exact h.fulls
    · -- the state words are the same
      refine ⟨h.fulls.lower, h.fulls.upper, h.fulls.count, ?_⟩
      intro q hL hT
      rw [(c.setSlot_smear i bytes m _).1]
      exact h.fulls.full q hL hT
  · rcases diskRead_false hread with rfl | ⟨-, bytes, m, rfl⟩
    · exact h.head
    · exact h.head

end Standing

namespace StandsAt

theorem sameRing (h : StandsAt c pos) (hr : SameRing c c') : StandsAt c' pos := by
  rcases h with ⟨L, R, T, off, h⟩
  exact ⟨L, R, T, off, h.sameRing hr⟩

/-- A reload refills the ring in front of the reader. -/
theorem reload (h : StandsAt c pos) (hd : ¬c.Drained) (drain : Bool) (p : Platform) :
    StandsAt (c.reload drain p) pos := by
  rcases h with ⟨L, R, T, off, h⟩
  rcases h.tail.of_not_drained h.window hd with ht | hclosed
  · have hloop : ∃ L' T' off', Standing (c.reload drain p) L' R T' off' pos ∧
        (c.reload drain p).tail = idx n T' := by
      refine reload_induct (P := fun c₁ => ∃ L' T' off', Standing c₁ L' R T' off' pos ∧
        c₁.tail = idx n T') ?_ ?_ ?_ ⟨L, T, off, h, ht⟩
      · rintro c₁ ⟨L', T', off', h₁, ht₁⟩
        rcases h₁.recycle ht₁ with ⟨L'', h₂⟩
        exact ⟨L'', T', off', h₂⟩
      · rintro c₁ c₂ k ⟨L', T', off', h₁, ht₁⟩ - hread
        rcases h₁.read ht₁ hread with ⟨off'', h₂⟩
        exact ⟨L', T' + 1, off'', h₂⟩
      · rintro c₁ c₂ k ⟨L', T', off', h₁, ht₁⟩ hread
        rcases h₁.read_fail hread with ⟨h₂, ht₂⟩
        exact ⟨L', T', off', h₂, ht₂.trans ht₁⟩
    rcases hloop with ⟨L', T', off', h', -⟩
    exact ⟨L', R, T', off', h'⟩
  · rw [reload_closed hclosed]
    exact ⟨L, R, T, off, h⟩

theorem pushLoop (h : StandsAt c pos) (hd : ¬c.Drained) (data : Block UInt8) (p : Platform) :
    StandsAt (Cache.pushLoop p data.size c data) pos := by
  rcases h with ⟨L, R, T, off, h⟩
  rcases h.tail.of_not_drained h.window hd with ht | hclosed
  · apply pushLoop_rule
      (P := fun c₁ => ∃ L' T' off', Standing c₁ L' R T' off' pos ∧ c₁.tail = idx n T')
      (Q := fun c₁ => StandsAt c₁ pos) ?_ ?_ ?_ ?_ ⟨L, T, off, h, ht⟩
    · rintro c₁ ⟨L', T', off', h₁, ht₁⟩
      rcases h₁.recycle ht₁ with ⟨L'', h₂⟩
      exact ⟨L'', T', off', h₂⟩
    · rintro c₁ d k ha hk ⟨L', T', off', h₁, ht₁⟩ hpos
      rcases h₁.fill ht₁ d ha hk hpos with ⟨T'', off'', h₂⟩
      exact ⟨L', T'', off'', h₂⟩
    · rintro c₁ ⟨L', T', off', h₁, -⟩
      exact ⟨L', R, T', off', h₁⟩
    · rintro c₁ d ⟨L', T', off', h₁, -⟩
      exact ⟨L', R, T', off', (h₁.sameRing (c₁.startRecording_sameRing p)).sameRing
        (diskWrite_sameRing _ _ _)⟩
  · exact ⟨L, R, T, off, h.sameRing (pushLoop_closed_sameRing hclosed data p)⟩

end StandsAt

/-! ### The head -/

/-- A partly written slot that is taken is the next one for the reader. -/
theorem Standing.promote (h : Standing c L R T off pos) :
    ∃ T' off', Standing c.promote L R T' off' pos := by
  by_cases hst : (c.slots c.head).state = .part
  · rcases h.window.promote hst with ⟨b, hw, -, htail, hfulls⟩
    have hupper := h.fulls.upper
    have hhead : c.promote.head = idx n R := by
      rw [promote_of_part hst]
      exact h.head
    refine ⟨T + 1, _, hw, htail, hfulls R h.fulls, hhead, ?_⟩
    rw [Function.update_of_ne (by omega)]
    exact h.pos
  · rw [promote_of_ne hst]
    exact ⟨T, off, h⟩

/-- The reader gets the slot that starts where it stands, and stands at its end. -/
theorem Standing.take (h : Standing c L R T off pos) (hfull : (c.slots c.head).state = .full) :
    c.slotBuffer.offset = pos ∧ Standing c.take L (R + 1) T off c.slotBuffer.offsetEnd := by
  have hlt := h.fulls.lt_of_head_full h.window hfull
  rcases h.fulls.take h.window.fits h.head hlt with ⟨hfulls, hhead⟩
  rcases h.window.slotBuffer_range h.head h.fulls.lower hlt with ⟨hoff, hend⟩
  have hplaced := h.placed.take hfull
  exact ⟨hoff.trans h.pos, hplaced.window, hplaced.tail, hfulls, hhead, hend.symm⟩

theorem Standing.release (h : Standing c L R T off pos) {i : Fin n}
    (hi : (c.slots i).state = .pop) : Standing (c.release i) L R T off pos := by
  have hplaced := h.placed.restate (release_restate hi) h.fulls.lower h.fulls.upper h.head
  exact ⟨hplaced.window, hplaced.tail, h.fulls.release hi, h.head, h.pos⟩

/-- The offset is in the newest slot of the ring. -/
def InNewest (c : Cache n) (o : ℕ) : Prop :=
  ∃ i, (c.slots i).Complete ∧ (c.slots i).contains o = true ∧ (c.slots i).offsetEnd = c.hRbOffset

/-- A seek within the ring puts the reader to the start of the slot with the offset. From
a slot that has been given back already, it only keeps the slots behind that one full
when there are none. -/
theorem Standing.seekRing (h : Standing c L R T off pos) (hnone : NonePopped c)
    (hlow : c.lRbOffset ≤ o) (hhigh : o < c.hRbOffset)
    (hok : (c.slots c.head).state ≠ .recycle ∨ c.InNewest o) (hseek : c.seekRing o = some c') :
    StandsAt c' (c.slotStart o) := by
  have hw := h.window
  rw [hw.low] at hlow
  rw [hw.high] at hhigh
  have hcond : (c.slots c.head).state ≠ .recycle ∨ off (T - 1) ≤ o := by
    apply hok.imp_right
    rintro ⟨i, hcomplete, hcontains, hend⟩
    rcases hw.exists_pos hcomplete with ⟨q, hL, hT, rfl⟩
    have hspan := hw.spans q hL hT
    rw [hspan.offsetEnd, hw.high] at hend
    -- the cut points ascend, so this is the last one
    have hlast : q = T - 1 := by
      by_contra hne
      have hstep : off (q + 1) < off (q + 2) := hw.off_lt (by omega) (by omega)
      have hmono := hw.off_mono (show L ≤ q + 2 by omega) (show q + 2 ≤ T by omega) (Nat.le_refl T)
      omega
    rw [← hlast]
    exact ((hspan.contains_iff o).mp hcontains).1
  rcases h.fulls.seekRing hw hnone h.head hlow hhigh hcond with
    ⟨m, c₁, hLm, hmT, hm, hm', heq, hfulls, hhead⟩
  cases heq.symm.trans hseek
  have hplaced := h.placed.restate (seekRing_restate hseek) hLm (Nat.le_of_lt hmT) hhead
  refine ⟨L, m, T, off, hplaced.window, hplaced.tail, hfulls, hhead, ?_⟩
  rw [hw.slotStart hLm hmT hm hm']

theorem standsAt_sought (c : Cache n) (o : ℕ) : StandsAt (c.sought o) o := by
  have hplaced : Placed (c.sought o) 0 0 (fun _ => o) := Placed.flushed c _ o
  refine ⟨0, 0, 0, _, hplaced.window, hplaced.tail, ⟨Nat.le_refl _, Nat.le_refl _, rfl, ?_⟩,
    rfl, rfl⟩
  intro q _ hq
  omega

/-! ## The pending flag -/

theorem reload_needDiscont (c : Cache n) (drain : Bool) (p : Platform) :
    (c.reload drain p).needDiscont = c.needDiscont := by
  rcases c.reload_frame drain p with ⟨_, _, _, _, _, _, heq⟩
  rw [heq]

theorem push_needDiscont (c : Cache n) (data : Block UInt8) (p : Platform) :
    (c.push data p).needDiscont = c.needDiscont := by
  cases hrec : c.isRecording with
  | false =>
      rcases push_frame hrec data p with ⟨c₁, ⟨_, _, _, _, _, _, rfl⟩, heq | ⟨k, heq⟩⟩
      · rw [heq]
      · rw [heq, (diskWrite_sameRing _ _ _).needDiscont, (startRecording_sameRing _ p).needDiscont]
  | true =>
      rw [push_recording hrec]
      split
      · rw [reload_needDiscont, (c.diskWrite_sameRing data p).needDiscont]
      · exact (c.diskWrite_sameRing data p).needDiscont

theorem promote_needDiscont (c : Cache n) : c.promote.needDiscont = c.needDiscont := by
  by_cases hst : (c.slots c.head).state = .part
  · rw [promote_of_part hst]
  · rw [promote_of_ne hst]

theorem seekRing_needDiscont (h : c.seekRing o = some c') : c'.needDiscont = c.needDiscont := by
  apply seekRing_induct (P := fun c₁ => c₁.needDiscont = c.needDiscont) ?_ ?_ ?_ h rfl
  · intro c₁ i h₁
    by_cases hst : (c₁.slots i).state = .full
    · rw [rollforward_of_full hst]
      exact h₁
    · rw [rollforward_of_ne hst]
      exact h₁
  · intro c₁ i h₁
    by_cases hst : (c₁.slots i).state = .recycle
    · rw [rollback_of_recycle hst]
      exact h₁
    · rw [rollback_of_ne hst]
      exact h₁
  · intro c₁ i h₁
    exact h₁

end Cache

/-! ## Runs -/

namespace Session

open Cache

variable {n : ℕ} [NeZero n] {s s' : Session n} {p : Platform} {bs : List (Buffer n)} {b : Buffer n}

/-- The first buffer has the flag, and so has each one that does not start where the one
before it has ended. -/
def Flagged (bs : List (Buffer n)) : Prop :=
  (∀ b ∈ bs.head?, b.discont = true) ∧
    bs.IsChain fun b b' => b'.offset ≠ b.offsetEnd → b'.discont = true

theorem Flagged.snoc (h : Flagged bs)
    (hb : b.discont = true ∨ ∃ b' ∈ bs.getLast?, b'.offsetEnd = b.offset) :
    Flagged (bs ++ [b]) := by
  constructor
  · intro b' hb'
    cases bs with
    | nil =>
        cases hb'
        rcases hb with hflag | ⟨b', hb', -⟩
        · exact hflag
        · cases hb'
    | cons b₀ bs => exact h.1 b' hb'
  · rw [List.isChain_append]
    refine ⟨h.2, List.isChain_singleton b, ?_⟩
    intro x hx y hy hne
    cases hy
    rcases hb with hflag | ⟨b', hb', hend⟩
    · exact hflag
    · cases hx.symm.trans hb'
      exact absurd hend.symm hne

/-- The step does not write the slot of a lagging tail, not even when it is the only one
in use: the reader has got past it. -/
def leavesTail (s : Session n) (l : Label) : Prop :=
  s.looksForRoom l → ¬s.cache.Drained

/-- The seeks that have been made since the last pop, if any, have led the reader back. -/
def ledBack (s : Session n) : Prop := ∀ b ∈ s.popped.getLast?, b.offsetEnd = s.readPos

/-- When a pop finds the head slot ready, the flag is pending, or no seek has led the reader
elsewhere. And when the slot at the head has been given back already, a seek within the ring
goes to the newest slot. -/
def seekMarked (s : Session n) : Label → Prop
  | (.pop drain, _) => s.cache.headReady drain → s.cache.needDiscont = true ∨ s.ledBack
  | (.seek offset, _) =>
    s.cache.lRbOffset ≤ s.cache.clamp offset → s.cache.clamp offset < s.cache.hRbOffset →
      (s.cache.slots s.cache.head).state ≠ .recycle ∨ s.cache.InNewest (s.cache.clamp offset)
  | _ => True

/-- Every jump so far is flagged, and the first buffer will be flagged. -/
structure Flagging (s : Session n) : Prop where
  stands : StandsAt s.cache s.readPos
  live : LiveOk s.cache s.live
  flagged : Flagged s.popped
  first : s.popped = [] → s.cache.needDiscont = true

namespace Flagging

theorem of_init (memory : Fin n → ℕ → UInt8) (file : Option File) :
    Flagging (init n memory file) where
  stands := ⟨0, 0, 0, _, .of_new memory file⟩
  live := init_liveOk memory file
  flagged := ⟨by simp [init, ofCache], List.isChain_nil⟩
  first _ := rfl

/-- What does not pop, nor clear the flag. -/
theorem keep (h : Flagging s) (hstands : StandsAt s'.cache s'.readPos)
    (hlive : LiveOk s'.cache s'.live)
    (hflag : s.cache.needDiscont = true → s'.cache.needDiscont = true)
    (hpopped : s'.popped = s.popped) : Flagging s' := by
  constructor
  · exact hstands
  · exact hlive
  · rw [hpopped]
    exact h.flagged
  · intro hnil
    rw [hpopped] at hnil
    exact hflag (h.first hnil)

theorem push (h : Flagging s) {data : Block UInt8} (hok : leavesTail s (.push data, p)) :
    StandsAt (s.cache.push data p) s.readPos := by
  cases hrec : s.cache.isRecording with
  | false =>
      simp only [leavesTail, looksForRoom, hrec, Bool.false_eq_true, if_false] at hok
      rw [push_ring hrec]
      rcases Nat.eq_zero_or_pos data.size with hzero | hpos
      · rw [hzero]
        exact h.stands
      · exact h.stands.pushLoop (hok hpos) data p
  | true =>
      simp only [leavesTail, looksForRoom, hrec, if_true] at hok
      have hsame := s.cache.diskWrite_sameRing data p
      rw [push_recording hrec]
      split
      · rename_i hempty
        exact (h.stands.sameRing hsame).reload (fun hd => hok hempty (hd.sameRing hsame)) false p
      · exact h.stands.sameRing hsame

/-- A buffer that is popped starts where the reader stands, and has the flag if it is
pending. -/
theorem pop (h : Flagging s) {drain : Bool} (hok : leavesTail s (.pop drain, p))
    (hmark : seekMarked s (.pop drain, p)) (hs : s.step (.pop drain, p) = some s') :
    Flagging s' := by
  have hlive := step_liveOk h.live hs
  rw [step_pop hs] at hlive ⊢
  rcases s.cache.pop_cases drain p with ⟨c₁, hc₁, hpop⟩
  -- the cache after the draining part of the pop
  have hpending : c₁.needDiscont = s.cache.needDiscont := by
    rw [hc₁]
    split
    · exact promote_needDiscont _
    · rfl
  rcases h.stands with ⟨L₀, R₀, T₀, off₀, hstanding⟩
  have hwindow := hstanding.window
  have hstands : StandsAt c₁ s.readPos := by
    rw [hc₁]
    split
    · rcases hstanding.promote with ⟨T', off', h'⟩
      exact ⟨L₀, R₀, T', off', h'⟩
    · exact ⟨L₀, R₀, T₀, off₀, hstanding⟩
  rcases hpop with ⟨-, hpop⟩ | ⟨hfull, hpop⟩
  · rw [hpop] at hlive ⊢
    exact h.keep hstands hlive hpending.trans rfl
  · have hready := hmark (headReady_of_full hc₁ hfull)
    rw [hpop] at hlive ⊢
    rcases hstands with ⟨L, R, T, off, hstanding⟩
    rcases hstanding.take hfull with ⟨hoffset, htaken⟩
    have hstands' : StandsAt c₁.take c₁.slotBuffer.offsetEnd := ⟨L, R + 1, T, off, htaken⟩
    constructor
    · rw [afterPop_cache]
      show StandsAt _ c₁.slotBuffer.offsetEnd
      split
      · rename_i hdisk
        refine hstands'.reload ?_ drain p
        intro hd
        have hlag := drained_of_pop (p := p) hwindow hc₁ hdisk hfull hd.take
        exact hok hlag.2 (hlag.1 ▸ hd.take)
      · exact hstands'
    · exact hlive
    · rw [afterPop_popped]
      apply h.flagged.snoc
      rw [hoffset]
      -- before the first buffer the flag is pending
      cases hlast : s.popped.getLast? with
      | none => exact Or.inl (hpending.trans (h.first (List.getLast?_eq_none_iff.mp hlast)))
      | some b =>
          refine hready.imp (fun hflag => hpending.trans hflag) ?_
          intro hend
          exact ⟨b, rfl, hend b hlast⟩
    · intro hnil
      rw [afterPop_popped] at hnil
      simp at hnil

/-- A seek on the disk makes the flag pending. -/
theorem seek (h : Flagging s) {offset : ℕ} (hok : seekMarked s (.seek offset, p))
    (hs : s.step (.seek offset, p) = some s') : Flagging s' := by
  have hlive := step_liveOk h.live hs
  rcases step_seek hs with ⟨hnone, c, hc, rfl⟩
  have hnonePopped : NonePopped s.cache := by
    have hok := h.live
    rw [hnone, liveOk_nil] at hok
    exact hok
  rcases seek_cases hc with ⟨hlow, hhigh, hring⟩ | ⟨hout, hdisk, rfl⟩ | ⟨hout, hdisk, rfl⟩
  · -- the slots stay, and the reader is put to the start of one of them
    have hpos : s.cache.seekPos offset s.readPos = s.cache.slotStart (s.cache.clamp offset) :=
      if_pos ⟨hlow, hhigh⟩
    rcases h.stands with ⟨L, R, T, off, hstanding⟩
    refine h.keep ?_ hlive (fun hflag => (seekRing_needDiscont hring).trans hflag) rfl
    show StandsAt c (s.cache.seekPos offset s.readPos)
    rw [hpos]
    exact hstanding.seekRing hnonePopped hlow hhigh (hok hlow hhigh) hring
  · have hpos : s.cache.seekPos offset s.readPos = s.cache.clamp offset := by
      unfold seekPos
      rw [if_neg hout, if_pos hdisk]
    have hnotDrained : ¬(s.cache.sought (s.cache.clamp offset)).Drained := by
      rintro ⟨-, hst, -⟩
      cases hst
    refine h.keep ?_ hlive ?_ rfl
    · show StandsAt (s.cache.seekDisk _ p) (s.cache.seekPos offset s.readPos)
      rw [hpos, seekDisk_eq]
      exact (standsAt_sought _ _).reload hnotDrained false p
    · intro _
      show (s.cache.seekDisk _ p).needDiscont = true
      rw [seekDisk_eq, reload_needDiscont]
      rfl
  · -- nothing happens
    have hpos : s.cache.seekPos offset s.readPos = s.readPos := by
      simp [seekPos, hout, hdisk]
    refine h.keep ?_ hlive id rfl
    show StandsAt s.cache (s.cache.seekPos offset s.readPos)
    rw [hpos]
    exact h.stands

theorem step (h : Flagging s) {l : Label} (hok : leavesTail s l) (hmark : seekMarked s l)
    (hs : s.step l = some s') : Flagging s' := by
  have hlive := step_liveOk h.live hs
  rcases l with ⟨op, p⟩
  cases op with
  | push data =>
      rw [step_push hs] at hlive ⊢
      exact h.keep (h.push hok) hlive (push_needDiscont _ data p).trans rfl
  | pop drain => exact h.pop hok hmark hs
  | release k =>
      rcases step_release hs with ⟨b, hb, rfl⟩
      rcases h.stands with ⟨L, R, T, off, hstanding⟩
      have hstate := h.live.state (List.mem_of_getElem? hb)
      exact h.keep ⟨L, R, T, off, hstanding.release hstate⟩ hlive id rfl
  | seek offset => exact h.seek hmark hs
  | startRecording =>
      have hsame := s.cache.startRecording_sameRing p
      rw [step_startRecording hs] at hlive ⊢
      exact h.keep (h.stands.sameRing hsame) hlive hsame.needDiscont.trans rfl
  | migrate =>
      have hsame := s.cache.migrationThread_sameRing p
      rw [step_migrate hs] at hlive ⊢
      exact h.keep (h.stands.sameRing hsame) hlive hsame.needDiscont.trans rfl
  | reload drain =>
      rw [step_reload hs] at hlive ⊢
      exact h.keep (h.stands.reload (hok trivial) drain p) hlive
        (reload_needDiscont _ drain p).trans rfl

end Flagging

end Session

end TimeShift
