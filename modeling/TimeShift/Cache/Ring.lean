import TimeShift.Cache.Window

/-!
# Writing into the ring

What a push does to the ring while the cache is not recording. Next to the
window there are three more facts about the ring that the loop of a push keeps:

* `Fulls`: exactly the slots from the reader's position on are full;
* `Stores`: every slot holds the bytes of the stream that it is labelled with;
* `RingOk`: behind the window come only the bytes of the partly written tail slot.

`RingOk.push` is the specification of a push: it says where the bytes went.
-/

set_option linter.unusedSectionVars false

namespace TimeShift

open Bytes Cyclic

/-- The buffer is labelled with its place in the stream and carries the bytes
from there. -/
def Buffer.Carries {n : ℕ} (b : Buffer n) (σ : List UInt8) : Prop :=
  b.offsetEnd = b.offset + b.size ∧ Holds σ b.offset b.size b.data

/-- Such a buffer is one piece of the stream. -/
theorem Buffer.Carries.reads {n : ℕ} {b : Buffer n} {σ : List UInt8} (h : b.Carries σ) :
    Reads σ b.offset [b.piece] b.offsetEnd := by
  have hlen : b.piece.bytes.length = b.size := Block.length_toList _
  refine ⟨rfl, ?_, ?_, rfl⟩
  · rw [hlen]
    exact h.1
  · rw [hlen]
    exact h.2.toList_eq

namespace Cache

variable {n : ℕ} [NeZero n] {c c' : Cache n} {p : Platform} {L R T : ℕ} {off : ℕ → ℕ}
  {σ : List UInt8}

/-! ## The full slots -/

/-- In the window, the full slots are those from position `R` on, and `fslots`
counts them. -/
structure Fulls (c : Cache n) (L R T : ℕ) : Prop where
  lower : L ≤ R
  upper : R ≤ T
  count : c.fslots = (T : ℤ) - R
  full : ∀ q, L ≤ q → q < T → ((c.slots (idx n q)).state = .full ↔ R ≤ q)

namespace Fulls

theorem of_new (memory : Fin n → ℕ → UInt8) (file : Option File) :
    Fulls (Cache.new n memory file) 0 0 0 :=
  ⟨Nat.le_refl _, Nat.le_refl _, rfl, fun q _ h => by omega⟩

theorem of_slots (h : Fulls c L R T) (hslots : c'.slots = c.slots)
    (hcount : c'.fslots = c.fslots) : Fulls c' L R T :=
  ⟨h.lower, h.upper, hcount.trans h.count, by rw [hslots]; exact h.full⟩

theorem sameRing (h : Fulls c L R T) (hr : SameRing c c') : Fulls c' L R T :=
  h.of_slots hr.slots hr.fslots

theorem fslots_eq_zero (h : Fulls c L R T) : c.fslots = 0 ↔ R = T := by
  have := h.count
  omega

/-- The slot at `T` joins as a full one. -/
theorem append (h : Fulls c L R T) {t : Slot} (ht : t.state = .full) (hlt : T < L + n)
    (hslots : c'.slots = Function.update c.slots (idx n T) t)
    (hcount : c'.fslots = c.fslots + 1) : Fulls c' L R (T + 1) := by
  have hlower := h.lower
  have hupper := h.upper
  refine ⟨hlower, by omega, ?_, ?_⟩
  · rw [hcount, h.count]
    push_cast
    omega
  · intro q hL hT
    rw [hslots]
    rcases Nat.lt_succ_iff_lt_or_eq.mp hT with hT | rfl
    · rw [update_idx_ne _ _ (by omega) (by omega) (by omega)]
      exact h.full q hL hT
    · rw [Function.update_self, ht]
      exact iff_of_true (Eq.refl _) hupper

/-- A slot behind the window is written. -/
theorem write (h : Fulls c L R T) {t : Slot} (hlt : T < L + n)
    (hslots : c'.slots = Function.update c.slots (idx n T) t)
    (hcount : c'.fslots = c.fslots) : Fulls c' L R T := by
  refine ⟨h.lower, h.upper, hcount.trans h.count, ?_⟩
  intro q hL hT
  rw [hslots, update_idx_ne _ _ (by omega) (by omega) (by omega)]
  exact h.full q hL hT

/-- The oldest slot is recycled: it was not full, so the reader is behind it. -/
theorem recycle (h : Fulls c L R T) (hlt : L < T) (hT : T = L + n) (htail : c.tail = idx n L)
    (hst : (c.slots c.tail).state = .recycle) : Fulls (c.recycle c.tail) (L + 1) R T := by
  have hupper := h.upper
  have hR : L < R := by
    by_contra hle
    have hfull := (h.full L (Nat.le_refl _) hlt).mpr (by omega)
    rw [← htail, hst] at hfull
    cases hfull
  refine ⟨hR, hupper, ?_, ?_⟩
  · simp only [Cache.recycle, hst, if_true]
    exact h.count
  · intro q hL hqT
    have hne : idx n q ≠ c.tail := by
      rw [htail]
      exact idx_ne (by omega) (by omega) (by omega)
    simp only [Cache.recycle, hst, if_true, Function.update_of_ne hne]
    exact h.full q (by omega) hqT

end Fulls

/-! ## The slot at the head -/

theorem Fulls.toNat (h : Fulls c L R T) : c.fslots.toNat = T - R := by
  have := h.count
  have := h.upper
  omega

/-- The slot at the reader's position is full as long as there is one. -/
theorem Fulls.head_full (h : Fulls c L R T) (hhead : c.head = idx n R) (hlt : R < T) :
    (c.slots c.head).state = .full := by
  rw [hhead]
  exact (h.full R h.lower hlt).mpr (Nat.le_refl R)

/-- A full slot at the head is the slot of the reader's position. -/
theorem Fulls.lt_of_head_full (h : Fulls c L R T) (hw : Window c L T off)
    (hfull : (c.slots c.head).state = .full) : R < T := by
  obtain ⟨q, hL, hT, hq⟩ := hw.exists_pos (Slot.Complete.of_full hfull)
  rw [← hq] at hfull
  have hRq := (h.full q hL hT).mp hfull
  omega

/-- The slot of the reader's position is full no more, and the reader goes on. -/
theorem Fulls.leave (h : Fulls c L R T) (hfits : T ≤ L + n) (hlt : R < T) {t : Slot}
    (ht : t.state ≠ .full) (hslots : c'.slots = Function.update c.slots (idx n R) t)
    (hcount : c'.fslots = c.fslots - 1) : Fulls c' L (R + 1) T := by
  have hlower := h.lower
  refine ⟨by omega, hlt, ?_, ?_⟩
  · rw [hcount, h.count]
    push_cast
    omega
  · intro q hL hT
    rw [hslots]
    by_cases hq : q = R
    · subst hq
      rw [Function.update_self]
      exact iff_of_false ht (by omega)
    · rw [update_idx_ne _ _ hq (by omega) (by omega), h.full q hL hT]
      omega

theorem Fulls.take (h : Fulls c L R T) (hfits : T ≤ L + n) (hhead : c.head = idx n R)
    (hlt : R < T) : Fulls c.take L (R + 1) T ∧ c.take.head = idx n (R + 1) := by
  constructor
  · refine h.leave hfits hlt (t := (c.slots c.head).setState .pop CacheState.pop_closed) (by simp)
      ?_ rfl
    rw [← hhead]
    rfl
  · simp only [Cache.take, hhead, idx_add_one]

/-- A popped slot is given back; it was not full. -/
theorem Fulls.release (h : Fulls c L R T) {i : Fin n} (hi : (c.slots i).state = .pop) :
    Fulls (c.release i) L R T := by
  refine ⟨h.lower, h.upper, h.count, ?_⟩
  intro q hL hT
  by_cases hq : idx n q = i
  · rw [← h.full q hL hT, hq, hi]
    simp [Cache.release, setSlot]
  · simp only [Cache.release, setSlot, Function.update_of_ne hq]
    exact h.full q hL hT

/-- The buffer made of the slot at the reader's position. -/
theorem Window.slotBuffer_range (h : Window c L T off) (hhead : c.head = idx n R) (hL : L ≤ R)
    (hT : R < T) : c.slotBuffer.offset = off R ∧ c.slotBuffer.offsetEnd = off (R + 1) := by
  have hspan := h.spans R hL hT
  rw [← hhead] at hspan
  exact ⟨by simp [slotBuffer, hspan.1], hspan.offsetEnd⟩

/-- Recycling the tail slot keeps the window and the full slots, whether or not
it does something. -/
theorem Window.recycle (h : Window c L T off) (ht : c.tail = idx n T) :
    ∃ L', L ≤ L' ∧ Window (c.recycle c.tail) L' T off ∧
      ∀ R, Fulls c L R T → Fulls (c.recycle c.tail) L' R T := by
  by_cases hst : (c.slots c.tail).state = .recycle
  · obtain ⟨hlt, hT, htail, -, hw⟩ := h.recycle_tail ht hst
    exact ⟨L + 1, Nat.le_succ L, hw, fun R hfulls => hfulls.recycle hlt hT htail hst⟩
  · rw [recycle_of_ne hst]
    exact ⟨L, Nat.le_refl L, h, fun _ hf => hf⟩

/-! ## Filling the tail slot -/

/-- The bytes in the tail slot that no complete slot accounts for. -/
def tailBytes (c : Cache n) : ℕ := if (c.slots c.tail).available then (c.slots c.tail).size else 0

theorem tailBytes_of_available (h : (c.slots c.tail).available) :
    c.tailBytes = (c.slots c.tail).size := by
  simp [tailBytes, h]

theorem tailBytes_of_complete (h : (c.slots c.tail).Complete) : c.tailBytes = 0 := by
  rw [Slot.complete_iff_not_available] at h
  simp [tailBytes, h]

theorem tailBytes_of_ne_part (h : (c.slots c.tail).state ≠ .part) : c.tailBytes = 0 := by
  unfold tailBytes
  split
  · rename_i ha
    exact ((c.slots c.tail).empty_clean
      (((Slot.available_iff _).mp ha).resolve_right h)).2
  · rfl

theorem tailBytes_restate (hr : Restate c c') : c'.tailBytes = c.tailBytes := by
  have hslot := hr.slot c.tail
  obtain ⟨slots, head, fslots, d, rfl⟩ := hr.frame
  by_cases ho : (c.slots c.tail).Complete
  · rw [tailBytes_of_complete ho, tailBytes_of_complete (hslot.complete_iff.mpr ho)]
  · unfold tailBytes
    rw [hslot.eq_of_not_complete ho]

/-- One round of a push, seen from the window: the slot at `T` takes `k` bytes, and
joins the window when it is full. -/
theorem Window.fill (h : Window c L T off) (ht : c.tail = idx n T) (data : Block UInt8) {k : ℕ}
    (ha : (c.slots c.tail).available) (hk : k ≤ (c.slots c.tail).room) (hpos : 0 < k) :
    ∃ T' off', Window (c.fill data k ha hk) L T' off' ∧
      (c.fill data k ha hk).tail = idx n T' ∧ Grows T off T' off' ∧
      (∀ R, Fulls c L R T → Fulls (c.fill data k ha hk) L R T') ∧
      (c.fill data k ha hk).hRbOffset + (c.fill data k ha hk).tailBytes =
        off T + (c.slots c.tail).size + k := by
  have hle := h.le
  have hlt := h.lt_of_available ht ha
  have hhigh := h.high
  have hslots := c.fill_slots data k ha hk
  have heq := c.fill_eq data k ha hk
  -- the slot after the write
  set t := ((c.slots c.tail).write data.byte k c.hRbOffset ha hk).1 with hdef
  have htsize : t.size = (c.slots c.tail).size + k := by rw [hdef, Slot.write_size]
  have hspan : t.Spans (off T) (off T + (c.slots c.tail).size + k) := by
    refine ⟨?_, by omega, by omega⟩
    rw [hdef, Slot.write_offset, hhigh]
  by_cases hfull : (c.slots c.tail).size + k = cacheSlotSize
  · -- the slot is full and joins the window
    have hstate : t.state = .full := by simp [hdef, hfull]
    have hw := h.append (c.tail + 1) (c.fslots + 1) (c.hOffset + k) c.rDkPos hlt
      (Slot.Complete.of_full hstate) hspan
    have hb : c.hRbOffset + cacheSlotSize = off T + (c.slots c.tail).size + k := by omega
    simp only [hfull, if_true, hb] at heq
    rw [← ht, ← heq] at hw
    have htail : (c.fill data k ha hk).tail = idx n (T + 1) := by
      rw [heq, ← idx_add_one, ← ht]
    refine ⟨T + 1, _, hw, htail, .succ T off _, ?_, ?_⟩
    · intro R hfulls
      refine hfulls.append hstate hlt ?_ ?_
      · rw [hslots, ht]
      · rw [heq]
    · -- the next slot is empty, or the oldest one
      have hzero : (c.fill data k ha hk).tailBytes = 0 := by
        by_cases hnext : T + 1 < L + n
        · have hne : idx n (T + 1) ≠ c.tail := by
            rw [ht]
            exact idx_ne (by omega) (by omega) (by omega)
          rcases h.free (T + 1) (by omega) hnext with hst | ⟨habs, -⟩
          · refine tailBytes_of_ne_part ?_
            rw [htail, hslots, Function.update_of_ne hne, hst]
            simp
          · omega
        · have hL := hw.complete L (Nat.le_refl L) (by omega)
          refine tailBytes_of_complete ?_
          rwa [htail, show T + 1 = L + n by omega, idx_add_self]
      rw [hzero, heq, Nat.add_zero]
  · -- the slot has still room
    have hstate : t.state = .part := by simp [hdef, hfull]
    have hw := h.write_part (c.hOffset + k) ht hlt hstate hspan
    simp only [hfull, if_false] at heq
    rw [← ht, ← heq] at hw
    have htail : (c.fill data k ha hk).tail = c.tail := by rw [heq]
    refine ⟨T, off, hw, htail.trans ht, .rfl, ?_, ?_⟩
    · intro R hfulls
      refine hfulls.write (t := t) hlt ?_ ?_
      · rw [hslots, ht]
      · rw [heq]
    · have htslot : (c.fill data k ha hk).slots (c.fill data k ha hk).tail = t := by
        rw [htail, hslots, Function.update_self]
      have havail : ((c.fill data k ha hk).slots (c.fill data k ha hk).tail).available := by
        rw [htslot, Slot.available_iff]
        exact Or.inr hstate
      rw [tailBytes_of_available havail, htslot, htsize, heq]
      show c.hRbOffset + ((c.slots c.tail).size + k) = _
      omega

/-! ## The stored bytes -/

/-- Every slot holds the bytes of the stream that it is labelled with. -/
def Stores (c : Cache n) (σ : List UInt8) : Prop :=
  ∀ i o, (c.slots i).offset = some o → Holds σ o (c.slots i).size (c.slots i).data

namespace Stores

theorem of_new (memory : Fin n → ℕ → UInt8) (file : Option File) (σ : List UInt8) :
    Stores (Cache.new n memory file) σ := by
  intro i o ho
  cases ho

theorem append (h : Stores c σ) (τ : List UInt8) : Stores c (σ ++ τ) :=
  fun i o ho => (h i o ho).append τ

theorem of_slots (h : Stores c σ) (hslots : c'.slots = c.slots) : Stores c' σ := by
  unfold Stores
  rw [hslots]
  exact h

theorem restate (h : Stores c σ) (hr : Restate c c') : Stores c' σ := by
  intro i o ho
  have hslot := hr.slot i
  rw [hslot.offset] at ho
  rw [hslot.size, hslot.data]
  exact h i o ho

theorem update (h : Stores c σ) {i : Fin n} {t : Slot}
    (hslots : c'.slots = Function.update c.slots i t)
    (ht : ∀ o, t.offset = some o → Holds σ o t.size t.data) : Stores c' σ := by
  rw [Stores, hslots, Function.forall_update_iff c.slots fun _ s =>
    ∀ o, s.offset = some o → Holds σ o s.size s.data]
  exact ⟨ht, fun j _ => h j⟩

theorem recycle (h : Stores c σ) (i : Fin n) : Stores (c.recycle i) σ := by
  by_cases hst : (c.slots i).state = .recycle
  · refine h.update (i := i) (t := (c.slots i).reset) (by simp [Cache.recycle, hst]) ?_
    intro o ho
    cases ho
  · rw [recycle_of_ne hst]
    exact h

end Stores

/-! ## The ring while it is written -/

/-- The ring is a window, its slots hold the stream `σ`, and together with the
partly written tail slot they reach to its end. -/
structure RingOk (c : Cache n) (σ : List UInt8) (L T : ℕ) (off : ℕ → ℕ) : Prop where
  window : Window c L T off
  stores : Stores c σ
  length : σ.length = c.hOffset
  received : c.hOffset = c.hRbOffset + c.tailBytes

/-- Every complete slot is used to its end. -/
def AllWhole (c : Cache n) : Prop :=
  ∀ i, (c.slots i).Complete → (c.slots i).size = cacheSlotSize

namespace RingOk

theorem of_new (memory : Fin n → ℕ → UInt8) (file : Option File) :
    RingOk (Cache.new n memory file) [] 0 0 (fun _ => 0) where
  window := .of_new memory file
  stores := .of_new memory file []
  length := Eq.refl _
  received := by
    unfold tailBytes
    split <;> rfl

theorem restate (h : RingOk c σ L T off) (hr : Restate c c') : RingOk c' σ L T off := by
  have hbytes := tailBytes_restate hr
  refine ⟨h.window.restate hr, h.stores.restate hr, ?_, ?_⟩
  · obtain ⟨slots, head, fslots, d, rfl⟩ := hr.frame
    exact h.length
  · rw [hbytes]
    obtain ⟨slots, head, fslots, d, rfl⟩ := hr.frame
    exact h.received

/-- Recycling the tail slot, as a push does before it looks for room. -/
theorem recycle (h : RingOk c σ L T off) (ht : c.tail = idx n T) :
    ∃ L', L ≤ L' ∧ RingOk (c.recycle c.tail) σ L' T off ∧
      (∀ R, Fulls c L R T → Fulls (c.recycle c.tail) L' R T) ∧
      (AllWhole c → AllWhole (c.recycle c.tail)) := by
  obtain ⟨L', hL, hw, hfulls⟩ := h.window.recycle ht
  refine ⟨L', hL, ⟨hw, h.stores.recycle _, ?_, ?_⟩, hfulls, ?_⟩
  · rw [recycle_hOffset]
    exact h.length
  · have hreceived := h.received
    rw [recycle_hOffset, recycle_hRbOffset]
    by_cases hst : (c.slots c.tail).state = .recycle
    · rw [tailBytes_of_complete (Slot.Complete.of_recycle hst)] at hreceived
      simpa [Cache.recycle, hst, tailBytes] using hreceived
    · rwa [recycle_of_ne hst]
  · intro hwhole i hi
    by_cases hst : (c.slots c.tail).state = .recycle
    · by_cases heq : i = c.tail
      · subst heq
        simp [Cache.recycle, hst, Slot.Complete] at hi
      · simp only [Cache.recycle, hst, if_true, Function.update_of_ne heq] at hi ⊢
        exact hwhole i hi
    · rw [recycle_of_ne hst] at hi ⊢
      exact hwhole i hi

/-- What is in the slot at the tail while it takes bytes. -/
theorem tail_slot (h : RingOk c σ L T off) (ht : c.tail = idx n T)
    (ha : (c.slots c.tail).available) :
    (c.slots c.tail).wptr = (c.slots c.tail).size ∧
      Holds σ (off T) (c.slots c.tail).size (c.slots c.tail).data ∧
      σ.length = off T + (c.slots c.tail).size := by
  have hlen : σ.length = off T + (c.slots c.tail).size := by
    rw [h.length, h.received, tailBytes_of_available ha, h.window.high]
  refine ⟨((c.slots c.tail).open_room ha).1, ?_, hlen⟩
  have hfree := h.window.free T (Nat.le_refl T) (h.window.lt_of_available ht ha)
  rw [Free, ← ht] at hfree
  rcases hfree with hst | ⟨-, -, -, b, hspan⟩
  · rw [((c.slots c.tail).empty_clean hst).2]
    exact holds_zero σ _ _
  · exact h.stores c.tail (off T) hspan.1

/-- One round of a push: the tail slot takes `k` bytes. -/
theorem fill (h : RingOk c σ L T off) (ht : c.tail = idx n T) (data : Block UInt8) {k : ℕ}
    (ha : (c.slots c.tail).available) (hk : k ≤ (c.slots c.tail).room) (hpos : 0 < k)
    (hsize : k ≤ data.size) :
    ∃ T' off', RingOk (c.fill data k ha hk) (σ ++ data.toList.take k) L T' off' ∧
      (c.fill data k ha hk).tail = idx n T' ∧ Grows T off T' off' ∧
      (∀ R, Fulls c L R T → Fulls (c.fill data k ha hk) L R T') ∧
      (AllWhole c → AllWhole (c.fill data k ha hk)) := by
  obtain ⟨hwptr, hholds, hlen⟩ := h.tail_slot ht ha
  have hhigh := h.window.high
  have hslots := c.fill_slots data k ha hk
  obtain ⟨T', off', hw, htail, hgrows, hfulls, hend⟩ := h.window.fill ht data ha hk hpos
  refine ⟨T', off', ⟨hw, ?_, ?_, ?_⟩, htail, hgrows, hfulls, ?_⟩
  · -- the new bytes stand behind the old ones, in the slot and in the stream
    refine (h.stores.append _).update hslots ?_
    intro o ho
    rw [Slot.write_offset, hhigh] at ho
    cases ho
    rw [Slot.write_size, Slot.write_data, hwptr]
    exact hholds.memcpy hlen data hsize
  · rw [fill_hOffset, ← h.length, List.length_append, List.length_take, Block.length_toList]
    omega
  · rw [hend, fill_hOffset, h.received, tailBytes_of_available ha, hhigh]
  · intro hwhole i hi
    rw [hslots] at hi ⊢
    by_cases hit : i = c.tail
    · -- the slot that was written is complete only when it is full
      subst hit
      rw [Function.update_self] at hi ⊢
      rw [Slot.write_size]
      by_contra hroom
      simp [Slot.Complete, hroom] at hi
    · rw [Function.update_of_ne hit] at hi ⊢
      exact hwhole i hi

/-- A push while the cache is not recording: the ring takes `k` bytes, and when
these are not all, its tail slot is still in use and the rest goes to the disk. -/
theorem push (h : RingOk c σ L T off) (htail : c.tail = idx n T)
    (hrec : c.isRecording = false) (data : Block UInt8) :
    ∃ c₁ k L' T' off', k ≤ data.size ∧ RingFrame c c₁ ∧
      RingOk c₁ (σ ++ data.toList.take k) L' T' off' ∧ c₁.tail = idx n T' ∧
      Grows T off T' off' ∧
      (∀ R, Fulls c L R T → Fulls c₁ L' R T') ∧ (AllWhole c → AllWhole c₁) ∧
      ((k = data.size ∧ c.push data p = c₁) ∨
        (k < data.size ∧ (c₁.slots c₁.tail).available = false ∧
          (c₁.slots c₁.tail).state ≠ .recycle ∧
          c.push data p = (c₁.startRecording p).1.diskWrite (data.drop k) p)) := by
  -- what every round of the loop keeps
  let P : Cache n → List UInt8 → Prop := fun c₁ σ₁ =>
    ∃ L' T' off', RingFrame c c₁ ∧ RingOk c₁ σ₁ L' T' off' ∧ c₁.tail = idx n T' ∧
      Grows T off T' off' ∧
      (∀ R, Fulls c L R T → Fulls c₁ L' R T') ∧ (AllWhole c → AllWhole c₁)
  have hrecycle : ∀ c₁ σ₁, P c₁ σ₁ → P (c₁.recycle c₁.tail) σ₁ := by
    rintro c₁ σ₁ ⟨L', T', off', hframe, hring, ht, hgrows, hfulls, hwhole⟩
    obtain ⟨L'', -, hring', hfulls', hwhole'⟩ := hring.recycle ht
    exact ⟨L'', T', off', hframe.trans (c₁.recycle_frame _), hring',
      (c₁.recycle_tail _).trans ht, hgrows, fun R hR => hfulls' R (hfulls R hR),
      fun hw => hwhole' (hwhole hw)⟩
  have hfill : ∀ c₁ σ₁ (d : Block UInt8) k ha hk, P c₁ σ₁ → 0 < k → k ≤ d.size →
      P (c₁.fill d k ha hk) (σ₁ ++ d.toList.take k) := by
    rintro c₁ σ₁ d k ha hk ⟨L', T', off', hframe, hring, ht, hgrows, hfulls, hwhole⟩ hpos hsize
    obtain ⟨T'', off'', hring', ht', hgrows', hfulls', hwhole'⟩ := hring.fill ht d ha hk hpos hsize
    exact ⟨L', T'', off'', hframe.trans (c₁.fill_frame d k ha hk), hring', ht',
      hgrows.trans hgrows', fun R hR => hfulls' R (hfulls R hR), fun hw => hwhole' (hwhole hw)⟩
  have hstart : P c σ := ⟨L, T, off, .rfl, h, htail, .rfl, fun _ hf => hf, fun hw => hw⟩
  obtain ⟨c₁, k, hk, ⟨L', T', off', hframe, hring, ht, hgrows, hfulls, hwhole⟩, hres⟩ :=
    pushLoop_induct (p := p) hrecycle hfill σ (Nat.le_refl data.size) hstart
  rw [push_ring hrec]
  exact ⟨c₁, k, L', T', off', hk, hframe, hring, ht, hgrows, hfulls, hwhole, hres⟩

end RingOk

/-! ## Pushes that stay in the ring -/

/-- No recording has been started or stopped. -/
structure Idle (c : Cache n) : Prop where
  notRecording : c.isRecording = false
  notStopped : c.stopRecording = false
  noThread : c.thread = none

theorem Idle.frame (h : Idle c) (hf : RingFrame c c') : Idle c' := by
  obtain ⟨_, _, _, _, _, _, rfl⟩ := hf
  exact ⟨h.notRecording, h.notStopped, h.noThread⟩

theorem Idle.restate (h : Idle c) (hr : Restate c c') : Idle c' := by
  obtain ⟨_, _, _, _, rfl⟩ := hr.frame
  exact ⟨h.notRecording, h.notStopped, h.noThread⟩

/-- What does not fit into the ring is dropped when there is no file; otherwise
the recording starts. -/
theorem Idle.overflow (h : Idle c) (data : Block UInt8) (p : Platform) :
    (c.file = none ∧ (c.startRecording p).1.diskWrite data p = c) ∨
      (c.file.isSome ∧ ((c.startRecording p).1.diskWrite data p).isRecording = true) := by
  rcases c.startRecording_cases p with ⟨heq, hwhy⟩ | ⟨hfile, -, -, heq⟩
  · rcases hwhy with hnone | hthread | hstop
    · exact Or.inl ⟨hnone, by simp [heq, diskWrite, hnone]⟩
    · exact absurd h.noThread hthread
    · rw [h.notStopped] at hstop
      cases hstop
  · exact Or.inr ⟨hfile, by rw [heq, diskWrite_isRecording]⟩

/-- A push after which the cache is still not recording has only written the
ring. -/
theorem RingOk.push_idle (h : RingOk c σ L T off) (htail : c.tail = idx n T) (hidle : Idle c)
    (data : Block UInt8) (hafter : (c.push data p).isRecording = false) :
    ∃ k L' T' off', k ≤ data.size ∧ RingFrame c (c.push data p) ∧
      RingOk (c.push data p) (σ ++ data.toList.take k) L' T' off' ∧
      (c.push data p).tail = idx n T' ∧ Grows T off T' off' ∧
      (∀ R, Fulls c L R T → Fulls (c.push data p) L' R T') ∧
      (AllWhole c → AllWhole (c.push data p)) := by
  obtain ⟨c₁, k, L', T', off', hk, hframe, hring, ht, hgrows, hfulls, hwhole, hres⟩ :=
    h.push (p := p) htail hidle.notRecording data
  have heq : c.push data p = c₁ := by
    rcases hres with ⟨-, heq⟩ | ⟨-, -, -, heq⟩
    · exact heq
    · rcases (hidle.frame hframe).overflow (data.drop k) p with ⟨-, hsame⟩ | ⟨-, hstart⟩
      · exact heq.trans hsame
      · rw [heq, hstart] at hafter
        cases hafter
  rw [heq]
  exact ⟨k, L', T', off', hk, hframe, hring, ht, hgrows, hfulls, hwhole⟩

/-- The bytes that a push added, read off the offsets. -/
theorem RingOk.accepted_eq (h : RingOk c σ L T off) {data : Block UInt8} {k L' T' : ℕ}
    {off' : ℕ → ℕ} (hk : k ≤ data.size) (h' : RingOk c' (σ ++ data.toList.take k) L' T' off') :
    c'.hOffset - c.hOffset = k := by
  have hlen := h'.length
  rw [List.length_append, List.length_take, Block.length_toList, h.length] at hlen
  omega

/-! ## The buffer made of the head slot -/

theorem Window.head_buffer (h : Window c L T off) (hst : (c.slots c.head).state = .full) :
    ∃ q, L ≤ q ∧ q < T ∧ idx n q = c.head ∧ c.slotBuffer.offset = off q ∧
      c.slotBuffer.offsetEnd = off (q + 1) ∧ (c.slots c.head).Spans (off q) (off (q + 1)) := by
  obtain ⟨q, hL, hT, hq⟩ := h.exists_pos (Slot.Complete.of_full hst)
  have hspan := h.spans q hL hT
  rw [hq] at hspan
  exact ⟨q, hL, hT, hq, by simp [slotBuffer, hspan.1], hspan.offsetEnd, hspan⟩

theorem Stores.head_buffer (h : Stores c σ) {a b : ℕ} (hspan : (c.slots c.head).Spans a b) :
    c.slotBuffer.Carries σ := by
  have hoffset : c.slotBuffer.offset = a := by simp [slotBuffer, hspan.1]
  have hend : c.slotBuffer.offsetEnd = b := hspan.offsetEnd
  constructor
  · rw [hoffset, hend]
    exact hspan.2.1.symm
  · rw [hoffset]
    exact h c.head a hspan.1

end Cache

end TimeShift
