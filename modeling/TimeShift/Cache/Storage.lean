import TimeShift.Lib.Tiling
import TimeShift.Cache.Isolation
import TimeShift.Cache.Ring

/-!
# What the ring stores

While the cache is not recording, the ring holds the newest bytes that the cache
took, without a gap, whatever was pushed, popped, released and sought before:
taken in cyclic order up to the tail, the slots in use tile the stream from
`l_rb_offset` to `h_offset`.
-/

set_option linter.unusedSectionVars false

namespace TimeShift

open Bytes Cyclic Tiling Machine

/-- The range of the stream that the slot is labelled with. -/
def Slot.range (s : Slot) : ℕ × ℕ := (s.offset.val, s.offsetEnd)

theorem Slot.Spans.range_eq {s : Slot} {a b : ℕ} (h : s.Spans a b) : s.range = (a, b) := by
  rw [Slot.range, h.offsetEnd, h.1, Offset.val_some]

namespace Cache

variable {n : ℕ} [NeZero n] {c c' : Cache n} {L T : ℕ} {off : ℕ → ℕ} {σ : List UInt8}

/-- `m` slots in cyclic order, from slot `i` on. -/
def slotsFrom (c : Cache n) : ℕ → Fin n → List Slot
  | 0, _ => []
  | m + 1, i => c.slots i :: slotsFrom c m (i + 1)

/-- The slots in cyclic order up to the tail: a partly written tail slot comes
last, any other tail slot is the next one to be written and comes first. -/
def inOrder (c : Cache n) : List Slot :=
  c.slotsFrom n (if (c.slots c.tail).state = .part then c.tail + 1 else c.tail)

/-- What the ring stores of the stream `σ`. -/
structure Storage (c : Cache n) (σ : List UInt8) : Prop where
  /-- The slots in use tile the stream from `l_rb_offset` to `h_offset`. -/
  tiles : Tiles c.lRbOffset
    ((c.inOrder.filter fun s => s.state ≠ .empty).map Slot.range) c.hOffset
  /-- The complete ones end at `h_rb_offset`. -/
  complete_tiles : Tiles c.lRbOffset
    ((c.inOrder.filter fun s => s.Complete).map Slot.range) c.hRbOffset
  /-- Only the tail slot can be partly written; every other one is used to its end. -/
  whole : ∀ i, (c.slots i).state ≠ .empty →
    (i = c.tail ∧ (c.slots i).state = .part) ∨ (c.slots i).size = cacheSlotSize
  /-- Every slot in use holds its range of the stream. -/
  bytes : ∀ i, (c.slots i).state ≠ .empty →
    ∃ o, (c.slots i).offset = some o ∧ Holds σ o (c.slots i).size (c.slots i).data

/-! ## From the window to the tiling -/

theorem slotsFrom_append (c : Cache n) {k m l : ℕ} (hl : l = k + m) (q : ℕ) :
    c.slotsFrom l (idx n q) = c.slotsFrom k (idx n q) ++ c.slotsFrom m (idx n (q + k)) := by
  subst hl
  induction k generalizing q with
  | zero => simp [slotsFrom]
  | succ k ih =>
      have hsum : k + 1 + m = (k + m) + 1 := by omega
      have hpos : q + (k + 1) = q + 1 + k := by omega
      rw [hsum, slotsFrom, slotsFrom, idx_add_one, ih, hpos, List.cons_append]

/-- The slots of the window, in order, tile it. -/
theorem Window.tiles (h : Window c L T off) {P : Slot → Bool}
    (hP : ∀ s : Slot, s.Complete → P s = true) (k : ℕ) {q : ℕ} (hL : L ≤ q) (hT : q + k ≤ T) :
    Tiles (off q) (((c.slotsFrom k (idx n q)).filter P).map Slot.range) (off (q + k)) := by
  induction k generalizing q with
  | zero => exact Eq.refl _
  | succ k ih =>
      have hkeep := hP _ (h.complete q hL (by omega))
      have hspan := h.spans q hL (by omega)
      rw [slotsFrom, List.filter_cons_of_pos hkeep, List.map_cons, hspan.range_eq, idx_add_one]
      refine ⟨rfl, ?_⟩
      have hnext := ih (show L ≤ q + 1 by omega) (by omega)
      rwa [Nat.add_right_comm] at hnext

/-- A stretch of empty slots contributes nothing. -/
theorem filter_slotsFrom_empty {P : Slot → Bool}
    (hP : ∀ s : Slot, s.state = .empty → P s = false) (k : ℕ) {q : ℕ}
    (h : ∀ r, q ≤ r → r < q + k → (c.slots (idx n r)).state = .empty) :
    (c.slotsFrom k (idx n q)).filter P = [] := by
  induction k generalizing q with
  | zero => rfl
  | succ k ih =>
      have hdrop := hP _ (h q (Nat.le_refl q) (by omega))
      rw [slotsFrom, List.filter_cons_of_neg (by simp [hdrop]), idx_add_one]
      exact ih fun r hr hrk => h r (by omega) (by omega)

/-- The slots in cyclic order, without those that fail `P`: the window, and
behind it the partly written tail slot when `P` keeps that. -/
theorem Window.tiles_inOrder (h : Window c L T off) (htail : c.tail = idx n T) {P : Slot → Bool}
    (hcomplete : ∀ s : Slot, s.Complete → P s = true)
    (hempty : ∀ s : Slot, s.state = .empty → P s = false) :
    Tiles c.lRbOffset ((c.inOrder.filter P).map Slot.range)
      (if (c.slots c.tail).state = .part ∧ P (c.slots c.tail) = true
        then (c.slots c.tail).offsetEnd else c.hRbOffset) := by
  obtain ⟨b, rfl⟩ : ∃ b, T = L + b := ⟨T - L, by have := h.le; omega⟩
  have hfits := h.fits
  have htiles := h.tiles hcomplete b (Nat.le_refl L) (Nat.le_refl _)
  rw [← h.low, ← h.high] at htiles
  by_cases hpart : (c.slots c.tail).state = .part
  · -- the order starts behind the tail slot and ends with it
    have hlt := h.lt_of_available htail ((Slot.available_iff _).mpr (Or.inr hpart))
    obtain ⟨a, ha⟩ : ∃ a, n = a + (b + 1) := ⟨n - (b + 1), by omega⟩
    have hturn : idx n (L + b + 1 + a) = idx n L := by
      rw [show L + b + 1 + a = L + n by omega, idx_add_self]
    have hlast : c.slotsFrom 1 (idx n (L + b)) = [c.slots c.tail] := by
      rw [htail]
      rfl
    have horder : c.inOrder = c.slotsFrom a (idx n (L + b + 1)) ++
        (c.slotsFrom b (idx n L) ++ [c.slots c.tail]) := by
      rw [inOrder, if_pos hpart, htail, idx_add_one, c.slotsFrom_append ha, hturn,
        c.slotsFrom_append rfl L, hlast, htail]
    have hfront := filter_slotsFrom_empty (c := c) hempty a (q := L + b + 1) <| by
      intro r hr hra
      rcases h.free r (by omega) (by omega) with hst | ⟨habs, -⟩
      · exact hst
      · omega
    have hspan : ∃ e, (c.slots c.tail).Spans c.hRbOffset e := by
      have hfree := h.free (L + b) (Nat.le_refl _) hlt
      rw [Free, ← htail, hpart, ← h.high] at hfree
      rcases hfree with habs | ⟨-, -, -, hspan⟩
      · cases habs
      · exact hspan
    obtain ⟨e, hspan⟩ := hspan
    rw [horder, List.filter_append, List.filter_append, hfront, List.nil_append, List.map_append]
    by_cases hkeep : P (c.slots c.tail) = true
    · rw [if_pos ⟨hpart, hkeep⟩, List.filter_cons_of_pos hkeep, List.filter_nil]
      refine htiles.append ?_
      rw [hspan.offsetEnd, List.map_cons, hspan.range_eq]
      exact ⟨rfl, rfl⟩
    · rw [if_neg (fun hand => hkeep hand.2), List.filter_cons_of_neg (by simpa using hkeep)]
      simpa using htiles
  · -- the order starts with the tail slot, which is empty or the oldest one
    obtain ⟨a, ha⟩ : ∃ a, n = a + b := ⟨n - b, by omega⟩
    have hturn : idx n (L + b + a) = idx n L := by
      rw [show L + b + a = L + n by omega, idx_add_self]
    have horder : c.inOrder = c.slotsFrom a (idx n (L + b)) ++ c.slotsFrom b (idx n L) := by
      rw [inOrder, if_neg hpart, htail, c.slotsFrom_append ha, hturn]
    have hfront := filter_slotsFrom_empty (c := c) hempty a (q := L + b) <| by
      intro r hr hra
      rcases h.free r hr (by omega) with hst | ⟨rfl, -, hst, -⟩
      · exact hst
      · rw [htail] at hpart
        exact absurd hst hpart
    rw [horder, List.filter_append, hfront, List.nil_append, if_neg (fun hand => hpart hand.1)]
    exact htiles

/-- A ring that is written as `RingOk` says is stored as `Storage` says. -/
theorem RingOk.storage (h : RingOk c σ L T off) (htail : c.tail = idx n T) (hwhole : AllWhole c) :
    Storage c σ := by
  -- every slot in use is the partly written tail slot or a complete one
  have hcases : ∀ i, (c.slots i).state ≠ .empty →
      (i = c.tail ∧ (c.slots i).state = .part) ∨ (c.slots i).Complete := by
    intro i hi
    by_cases hc : (c.slots i).Complete
    · exact Or.inr hc
    · left
      obtain ⟨q, hL, hq, rfl⟩ := exists_idx L i
      have hT : T ≤ q := by
        by_contra hlt
        exact hc (h.window.complete q hL (by omega))
      rcases h.window.free q hT hq with hst | ⟨rfl, -, hst, -⟩
      · exact absurd hst hi
      · exact ⟨htail.symm, hst⟩
  have hspans : ∀ i, (c.slots i).state ≠ .empty → ∃ a b, (c.slots i).Spans a b := by
    intro i hi
    rcases hcases i hi with ⟨rfl, hpart⟩ | hc
    · have hlt := h.window.lt_of_available htail ((Slot.available_iff _).mpr (Or.inr hpart))
      rcases h.window.free T (Nat.le_refl T) hlt with hst | ⟨-, -, -, b, hspan⟩
      · rw [← htail] at hst
        exact absurd hst hi
      · rw [← htail] at hspan
        exact ⟨_, b, hspan⟩
    · obtain ⟨q, hL, hT, rfl⟩ := h.window.exists_pos hc
      exact ⟨_, _, h.window.spans q hL hT⟩
  constructor
  · have htiles := h.window.tiles_inOrder htail (P := fun s => s.state ≠ .empty)
      (fun s hs => by rcases hs with hs | hs | hs <;> simp [hs]) (fun s hs => by simp [hs])
    have hend : (if (c.slots c.tail).state = .part ∧
        decide ((c.slots c.tail).state ≠ .empty) = true
        then (c.slots c.tail).offsetEnd else c.hRbOffset) = c.hOffset := by
      rw [h.received]
      by_cases hpart : (c.slots c.tail).state = .part
      · have ha := (Slot.available_iff _).mpr (Or.inr hpart)
        have hlt := h.window.lt_of_available htail ha
        rcases h.window.free T (Nat.le_refl T) hlt with hst | ⟨-, -, -, b, hspan⟩
        · rw [← htail, hpart] at hst
          cases hst
        · rw [← htail, ← h.window.high] at hspan
          rw [if_pos ⟨hpart, by simp [hpart]⟩, hspan.offsetEnd, tailBytes_of_available ha]
          exact hspan.2.1.symm
      · rw [if_neg (fun hand => hpart hand.1)]
        by_cases ha : (c.slots c.tail).available
        · have hst : (c.slots c.tail).state = .empty := by
            rw [Slot.available_iff] at ha
            exact ha.resolve_right hpart
          rw [tailBytes_of_available ha, ((c.slots c.tail).empty_clean hst).2, Nat.add_zero]
        · simp [tailBytes, ha]
    rwa [hend] at htiles
  · have htiles := h.window.tiles_inOrder htail (P := fun s => s.Complete)
      (fun s hs => by simpa using hs) (fun s hs => by simp [Slot.Complete, hs])
    have hend : ¬((c.slots c.tail).state = .part ∧
        decide (c.slots c.tail).Complete = true) := by
      rintro ⟨hpart, hc⟩
      simp [Slot.Complete, hpart] at hc
    rwa [if_neg hend] at htiles
  · intro i hi
    exact (hcases i hi).imp_right (hwhole i)
  · intro i hi
    obtain ⟨a, b, hspan⟩ := hspans i hi
    exact ⟨a, hspan.1, h.stores i a hspan.1⟩

end Cache

/-! ## Runs that stay in the ring -/

/-- The operations of a reader and a writer that are not at the end of the stream. -/
def Op.ofRing : Op → Prop
  | .push _ | .pop false | .release _ | .seek _ => True
  | _ => False

namespace Session

open Cache

variable {n : ℕ} [NeZero n] {s s' : Session n} {p : Platform} {L T : ℕ} {off : ℕ → ℕ}

/-- A step that a cache takes which is not recording. -/
def ringStep (s : Session n) (l : Label) : Prop :=
  s.cache.isRecording = false ∧ l.1.ofRing

/-- A session whose bytes have all gone to the ring. -/
structure InRing (s : Session n) (L T : ℕ) (off : ℕ → ℕ) : Prop where
  ring : RingOk s.cache s.accepted L T off
  tail : s.cache.tail = idx n T
  whole : AllWhole s.cache
  idle : Idle s.cache
  live : LiveOk s.cache s.live
  popped : ∀ b ∈ s.popped, b.Carries s.accepted

namespace InRing

theorem of_init (memory : Fin n → ℕ → UInt8) (file : Option File) :
    InRing (init n memory file) 0 0 (fun _ => 0) where
  ring := .of_new memory file
  tail := rfl
  whole i hi := by simp [init, ofCache, Cache.new, Slot.Complete] at hi
  idle := ⟨rfl, rfl, rfl⟩
  live := init_liveOk memory file
  popped b hb := by cases hb

/-- Only state words and the head have changed. -/
theorem restate (h : InRing s L T off) {c : Cache n} (hr : Restate s.cache c)
    (hcache : s'.cache = c) (haccepted : s'.accepted = s.accepted)
    (hlive : LiveOk c s'.live) (hpopped : ∀ b ∈ s'.popped, b.Carries s.accepted) :
    InRing s' L T off := by
  subst hcache
  refine ⟨?_, ?_, ?_, h.idle.restate hr, hlive, ?_⟩
  · rw [haccepted]
    exact h.ring.restate hr
  · obtain ⟨_, _, _, _, heq⟩ := hr.frame
    rw [heq]
    exact h.tail
  · intro i hi
    rw [(hr.slot i).size]
    exact h.whole i ((hr.slot i).complete_iff.mp hi)
  · rw [haccepted]
    exact hpopped

theorem push (h : InRing s L T off) {data : Block UInt8}
    (hs : s.step (.push data, p) = some s') (hafter : s'.cache.isRecording = false) :
    ∃ L' T' off', InRing s' L' T' off' ∧ Grows T off T' off' ∧
      ∀ R, Fulls s.cache L R T → Fulls s'.cache L' R T' := by
  have hlive := step_liveOk h.live hs
  rw [step_push hs] at hafter hlive ⊢
  obtain ⟨k, L', T', off', hk, hframe, hring, htail, hgrows, hfulls, hwhole⟩ :=
    h.ring.push_idle h.tail h.idle data hafter
  refine ⟨L', T', off', ⟨?_, htail, hwhole h.whole, h.idle.frame hframe, hlive, ?_⟩, hgrows,
    hfulls⟩
  · show RingOk _ (s.accepted ++ data.toList.take _) L' T' off'
    rw [h.ring.accepted_eq hk hring]
    exact hring
  · intro b hb
    obtain ⟨hend, hholds⟩ := h.popped b hb
    exact ⟨hend, hholds.append _⟩

/-- A pop either finds no full slot at the head, or takes it. -/
theorem pop (h : InRing s L T off) (hs : s.step (.pop false, p) = some s') :
    InRing s' L T off ∧
      (((s.cache.slots s.cache.head).state ≠ .full ∧ s' = s) ∨
       ((s.cache.slots s.cache.head).state = .full ∧ s'.cache = s.cache.take ∧
        s'.popped = s.popped ++ [s.cache.slotBuffer] ∧
        s'.readPos = s.cache.slotBuffer.offsetEnd ∧ s'.accepted = s.accepted)) := by
  have hlive := step_liveOk h.live hs
  have heq := step_pop hs
  obtain ⟨c₁, hc₁, hres⟩ := s.cache.pop_cases false p
  simp only [Bool.false_eq_true, if_false] at hc₁
  subst hc₁
  rcases hres with ⟨hne, hpop⟩ | ⟨hfull, hpop⟩
  · rw [hpop] at heq
    subst heq
    exact ⟨h, Or.inl ⟨hne, rfl⟩⟩
  · simp only [h.idle.notRecording, Bool.false_and, Bool.false_eq_true, if_false] at hpop
    rw [hpop] at heq
    subst heq
    refine ⟨?_, Or.inr ⟨hfull, rfl, rfl, rfl, rfl⟩⟩
    refine h.restate (take_restate hfull) rfl rfl hlive ?_
    intro b hb
    rcases List.mem_append.mp hb with hb | hb
    · exact h.popped b hb
    · obtain ⟨q, -, -, -, -, -, hspan⟩ := h.ring.window.head_buffer hfull
      rw [List.mem_singleton.mp hb]
      exact h.ring.stores.head_buffer hspan

theorem release (h : InRing s L T off) {k : ℕ} (hs : s.step (.release k, p) = some s') :
    InRing s' L T off := by
  have hlive := step_liveOk h.live hs
  obtain ⟨b, hb, rfl⟩ := step_release hs
  have hstate := h.live.state (List.mem_of_getElem? hb)
  exact h.restate (release_restate hstate) rfl rfl hlive h.popped

theorem seek (h : InRing s L T off) {offset : ℕ} (hs : s.step (.seek offset, p) = some s') :
    InRing s' L T off := by
  have hlive := step_liveOk h.live hs
  obtain ⟨-, c, hc, rfl⟩ := step_seek hs
  rcases seek_cases hc with ⟨-, -, hring⟩ | ⟨-, hdisk, -⟩ | ⟨-, -, rfl⟩
  · exact h.restate (seekRing_restate hring) rfl rfl hlive h.popped
  · simp [isDiskUsable, h.idle.notRecording] at hdisk
  · exact h.restate .rfl rfl rfl hlive h.popped

theorem step (h : InRing s L T off) {l : Label} (hl : l.1.ofRing) (hs : s.step l = some s')
    (hafter : s'.cache.isRecording = false) : ∃ L' T' off', InRing s' L' T' off' := by
  obtain ⟨op, p⟩ := l
  cases op with
  | push data =>
      obtain ⟨L', T', off', h', -, -⟩ := h.push hs hafter
      exact ⟨L', T', off', h'⟩
  | pop drain =>
      cases drain with
      | false => exact ⟨L, T, off, (h.pop hs).1⟩
      | true => cases hl
  | release k => exact ⟨L, T, off, h.release hs⟩
  | seek offset => exact ⟨L, T, off, h.seek hs⟩
  | startRecording => cases hl
  | migrate => cases hl
  | reload drain => cases hl

end InRing

/-- Whatever is pushed, popped, released and sought while the cache is not
recording, the ring stores the newest accepted bytes without a gap, and every
popped buffer carries the bytes of its range. -/
theorem ring_storage {memory : Fin n → ℕ → UInt8} {file : Option File}
    (h : Reach Session.step ringStep (init n memory file) s)
    (hrec : s.cache.isRecording = false) :
    Storage s.cache s.accepted ∧ ∀ b ∈ s.popped, b.Carries s.accepted := by
  have hinv : s.cache.isRecording = false → ∃ L T off, InRing s L T off := by
    refine h.invariant (P := fun s => s.cache.isRecording = false → ∃ L T off, InRing s L T off)
      (fun _ => ⟨0, 0, _, .of_init memory file⟩) ?_
    intro s l s' hinv hok hs hafter
    obtain ⟨L, T, off, hring⟩ := hinv hok.1
    exact hring.step hok.2 hs hafter
  obtain ⟨L, T, off, hring⟩ := hinv hrec
  exact ⟨hring.ring.storage hring.tail hring.whole, hring.popped⟩

theorem ring_storage_trip : ∃ s : Session 2,
    Reach Session.step ringStep (init 2 (fun _ _ => 0) none) s ∧ s.popped.length = 2 ∧
      Storage s.cache s.accepted := by
  have h₀ : Reach Session.step ringStep (init 2 (fun _ _ => 0) none) _ := .refl
  have h₁ := h₀.extend (.push ⟨cacheSlotSize, fun _ => 7⟩, .allOk) ⟨rfl, trivial⟩ rfl
  have h₂ := h₁.extend (.pop false, .allOk) ⟨rfl, trivial⟩ rfl
  have h₃ := h₂.extend (.release 0, .allOk) ⟨rfl, trivial⟩ rfl
  have h₄ := h₃.extend (.seek 3, .allOk) ⟨rfl, trivial⟩ rfl
  have h₅ := h₄.extend (.pop false, .allOk) ⟨rfl, trivial⟩ rfl
  exact ⟨_, h₅, rfl, (ring_storage h₅ rfl).1⟩

end Session

end TimeShift
