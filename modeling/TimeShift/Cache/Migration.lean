import TimeShift.Cache.Storage
import TimeShift.Cache.Placed

/-!
# The migration of the ring to the disk

When the recording starts, the file gets two writers: what is pushed from then on
goes to `w_dk_pos`, behind the room that is left for the ring, and the migration
thread copies the slots of the ring into that room, one after the other from the
tail on. `Copying` is the invariant of the time between:

* `copied`: the file holds the stream up to `m_dk_pos`;
* `appended`: behind the room it holds the stream since the start;
* `todo`: the slots still to be copied, in the order of the walk, tile what is
  missing in between.

The last of these is what the start has to provide: `RingOk.todo_of_first` gets it
from the ring, when the tail slot is empty or the oldest one.
-/

set_option linter.unusedSectionVars false

namespace TimeShift

open Bytes Cyclic Tiling

namespace Cache

variable {n : ℕ} [NeZero n] {c c' : Cache n} {p : Platform} {L T l e : ℕ} {off : ℕ → ℕ}
  {σ : List UInt8}

/-! ## The slots still to be copied -/

/-- The ranges of `k` slots from slot `j` on, without those of empty slots. -/
def pending (c : Cache n) (k : ℕ) (j : Fin n) : List (ℕ × ℕ) :=
  ((c.slotsFrom k j).filter fun s => s.state ≠ .empty).map Slot.range

/-- The ranges that the migration has still to copy, the next one first. -/
def todo (c : Cache n) : List (ℕ × ℕ) :=
  match c.thread with
  | some (.walking i j) => c.pending (n - i) j
  | _ => c.pending n c.tail

theorem pending_succ_of_empty {j : Fin n} (h : (c.slots j).state = .empty) (k : ℕ) :
    c.pending (k + 1) j = c.pending k (j + 1) := by
  rw [pending, slotsFrom, List.filter_cons_of_neg (by simp [h]), pending]

theorem pending_succ_of_ne {j : Fin n} (h : (c.slots j).state ≠ .empty) (k : ℕ) :
    c.pending (k + 1) j = (c.slots j).range :: c.pending k (j + 1) := by
  rw [pending, slotsFrom, List.filter_cons_of_pos (by simp [h]), List.map_cons, pending]

theorem pending_append {k m r : ℕ} (hr : r = k + m) (q : ℕ) :
    c.pending r (idx n q) = c.pending k (idx n q) ++ c.pending m (idx n (q + k)) := by
  rw [pending, c.slotsFrom_append hr q, List.filter_append, List.map_append, pending, pending]

theorem pending_of_empty (k : ℕ) {q : ℕ}
    (h : ∀ r, q ≤ r → r < q + k → (c.slots (idx n r)).state = .empty) :
    c.pending k (idx n q) = [] := by
  rw [pending, filter_slotsFrom_empty (fun s hs => by simp [hs]) k h, List.map_nil]

theorem Window.pending (h : Window c L T off) (k : ℕ) {q : ℕ} (hL : L ≤ q) (hT : q + k ≤ T) :
    Tiles (off q) (c.pending k (idx n q)) (off (q + k)) :=
  h.tiles (fun s hs => by rcases hs with hs | hs | hs <;> simp [hs]) k hL hT

/-- Only the ranges of the slots matter, and which slots are empty. -/
theorem pending_congr (hrange : ∀ i, (c'.slots i).range = (c.slots i).range)
    (hempty : ∀ i, (c'.slots i).state = .empty ↔ (c.slots i).state = .empty) (k : ℕ)
    (j : Fin n) : c'.pending k j = c.pending k j := by
  induction k generalizing j with
  | zero => rfl
  | succ k ih =>
      by_cases h : (c.slots j).state = .empty
      · rw [pending_succ_of_empty h, pending_succ_of_empty ((hempty j).mpr h), ih]
      · rw [pending_succ_of_ne h, pending_succ_of_ne (fun h' => h ((hempty j).mp h')), hrange, ih]

theorem todo_of_walking {i : ℕ} {j : Fin n} (h : c.thread = some (.walking i j)) :
    c.todo = c.pending (n - i) j := by
  simp only [todo, h]

theorem todo_of_not_walking (h : ∀ i j, c.thread ≠ some (.walking i j)) :
    c.todo = c.pending n c.tail := by
  unfold todo
  split
  · rename_i i j hij
    exact absurd hij (h i j)
  · rfl

theorem todo_congr (hthread : c'.thread = c.thread) (htail : c'.tail = c.tail)
    (hpending : ∀ k j, c'.pending k j = c.pending k j) : c'.todo = c.todo := by
  unfold todo
  rw [hthread, htail]
  split
  · exact hpending _ _
  · exact hpending _ _

/-- Nothing that leaves the slots alone changes what is pending. -/
theorem pending_of_slots (hslots : c'.slots = c.slots) (k : ℕ) (j : Fin n) :
    c'.pending k j = c.pending k j :=
  pending_congr (fun i => by rw [hslots]) (fun i => by rw [hslots]) k j

theorem pending_forward (k : ℕ) (j : Fin n) : ∀ r ∈ c.pending k j, r.1 ≤ r.2 := by
  intro r hr
  rcases List.mem_map.mp hr with ⟨s, -, rfl⟩
  exact Nat.le_add_right _ _

/-- The tail slot is empty, or its bytes are the oldest of the ring. -/
def TailFirst (c : Cache n) : Prop :=
  (c.slots c.tail).state = .empty ∨ (c.slots c.tail).offset = some c.lRbOffset

/-- Behind an empty tail slot come only empty slots and then the window. -/
theorem Window.pending_of_empty_tail (h : Window c L T off) (ht : c.tail = idx n T)
    (hlt : T < L + n) (hst : (c.slots c.tail).state = .empty) :
    Tiles (off L) (c.pending n c.tail) (off T) := by
  have hle := h.le
  rw [ht] at hst
  have hfree : ∀ r, T ≤ r → r < T + (L + n - T) → (c.slots (idx n r)).state = .empty := by
    intro r hr hrn
    rcases h.free r hr (by omega) with hr' | ⟨rfl, -, hr', -⟩
    · exact hr'
    · rw [hst] at hr'
      cases hr'
  rw [ht, pending_append (show n = (L + n - T) + (T - L) by omega) T,
    Cache.pending_of_empty _ hfree, List.nil_append, show T + (L + n - T) = L + n by omega,
    idx_add_self]
  have htiles := h.pending (T - L) (Nat.le_refl L) (by omega)
  rwa [show L + (T - L) = T by omega] at htiles

/-- From the oldest slot on come the window and then only empty slots, when none is partly
written. -/
theorem Window.pending_of_low (h : Window c L T off) (hpart : NonePart c) :
    Tiles (off L) (c.pending n (idx n L)) (off T) := by
  have hle := h.le
  have hfits := h.fits
  have hfree : ∀ r, T ≤ r → r < T + (L + n - T) → (c.slots (idx n r)).state = .empty := by
    intro r hr hrn
    rcases h.free r hr (by omega) with hr' | ⟨-, -, hr', -⟩
    · exact hr'
    · exact absurd hr' (hpart _)
  have htiles := h.pending (T - L) (Nat.le_refl L) (by omega)
  rw [show L + (T - L) = T by omega] at htiles
  rwa [pending_append (show n = (T - L) + (L + n - T) by omega) L,
    show L + (T - L) = T by omega, Cache.pending_of_empty _ hfree, List.append_nil]

/-- From a tail slot that is not partly written on come the bytes in the full order. -/
theorem Window.pending_of_tail (h : Window c L T off) (ht : c.tail = idx n T)
    (hst : (c.slots c.tail).state ≠ .part) : Tiles (off L) (c.pending n c.tail) (off T) := by
  rcases Nat.lt_or_ge T (L + n) with hlt | hge
  · rcases h.free T (Nat.le_refl T) hlt with hst' | ⟨-, -, hst', -⟩
    · rw [← ht] at hst'
      exact h.pending_of_empty_tail ht hlt hst'
    · rw [← ht] at hst'
      exact absurd hst' hst
  · -- the ring is full, and the tail slot is the oldest one
    have hT : T = L + n := Nat.le_antisymm h.fits hge
    rw [ht, hT, idx_add_self]
    exact h.pending n (Nat.le_refl L) (by omega)

/-- The slot of position `L` comes first, and the others are empty. -/
theorem pending_of_first {b : ℕ} (hspan : (c.slots (idx n L)).Spans (off L) b)
    (hst : (c.slots (idx n L)).state ≠ .empty)
    (hrest : ∀ r, L + 1 ≤ r → r < L + n → (c.slots (idx n r)).state = .empty) :
    Tiles (off L) (c.pending n (idx n L)) b := by
  have hn : 0 < n := Nat.pos_of_ne_zero (NeZero.ne n)
  have hempty : c.pending (n - 1) (idx n (L + 1)) = [] :=
    pending_of_empty _ fun r hr hrn => hrest r hr (by omega)
  rw [pending_append (show n = 1 + (n - 1) by omega) L, hempty, List.append_nil,
    pending_succ_of_ne hst, hspan.range_eq]
  exact ⟨rfl, rfl⟩

/-- From a tail slot that is empty or the oldest one, the walk through the slots
meets the stored bytes in their order. -/
theorem RingOk.todo_of_first (h : RingOk c σ L T off) (ht : TailOk c L T)
    (hfirst : c.TailFirst) : Tiles c.lRbOffset (c.pending n c.tail) c.hOffset := by
  have hw := h.window
  have hle := hw.le
  rw [hw.low, h.received, hw.high]
  rcases ht with ht | ⟨hn2, hLT, ht⟩
  · by_cases hst : (c.slots c.tail).state = .part
    · -- the tail slot is partly written, and the only one in use
      have havail : (c.slots c.tail).available := (Slot.available_iff _).mpr (Or.inr hst)
      have hlt := hw.lt_of_available ht havail
      rw [ht] at hst
      rcases hw.free T (Nat.le_refl T) hlt with habs | ⟨-, -, -, b, hspan⟩
      · rw [hst] at habs
        cases habs
      have hlow := hfirst.resolve_left (by rw [ht, hst]; simp)
      rw [ht, hspan.1, Option.some.injEq, hw.low] at hlow
      have hTL := hw.eq_low hle (Nat.le_refl T) hlow
      subst hTL
      rw [tailBytes_of_available havail, ht, hspan.2.1]
      refine pending_of_first hspan (by rw [hst]; simp) ?_
      intro r hr hrn
      rcases hw.free r (by omega) hrn with hr' | ⟨rfl, -⟩
      · exact hr'
      · omega
    · rw [tailBytes_of_ne_part hst, Nat.add_zero]
      exact hw.pending_of_tail ht hst
  · -- the tail lags, and its slot is the only one in use
    have hspan := hw.spans (T - 1) (by omega) (by omega)
    have hcomplete := hw.complete (T - 1) (by omega) (by omega)
    rw [← ht] at hspan hcomplete
    have hne : (c.slots c.tail).state ≠ .empty := by
      intro hst
      simp [Slot.Complete, hst] at hcomplete
    have hlow := hfirst.resolve_left hne
    rw [hspan.1, Option.some.injEq, hw.low] at hlow
    have hTL := hw.eq_low (by omega) (by omega) hlow
    rw [ht, hTL, show L + 1 = T by omega] at hspan
    rw [ht, hTL] at hne
    rw [tailBytes_of_complete hcomplete, Nat.add_zero, ht, hTL]
    refine pending_of_first hspan hne ?_
    intro r hr hrn
    rcases hw.free r (by omega) hrn with hr' | ⟨rfl, htail, -⟩
    · exact hr'
    · rw [ht] at htail
      exact absurd htail (idx_ne (by omega) (by omega) (by omega))

/-! ## What reading leaves alone -/

/-- The slots hold what they held, and the same ones are empty; only state words
and what the reader moves have changed. -/
structure SameContent (c c' : Cache n) : Prop where
  frame : ∃ slots head hRbOffset fslots d, c' = { c with
    slots := slots
    head := head
    hRbOffset := hRbOffset
    fslots := fslots
    needDiscont := d }
  bytes : ∀ i, (c.slots i).SameBytes (c'.slots i)
  empty_iff : ∀ i, (c'.slots i).state = .empty ↔ (c.slots i).state = .empty

namespace SameContent

theorem rfl : SameContent c c :=
  ⟨⟨_, _, _, _, _, Eq.refl _⟩, fun _ => ⟨Eq.refl _, Eq.refl _, Eq.refl _⟩, fun _ => Iff.rfl⟩

theorem of_restate (h : Restate c c') : SameContent c c' := by
  constructor
  · rcases h.frame with ⟨slots, head, fslots, d, rfl⟩
    exact ⟨slots, head, c.hRbOffset, fslots, d, Eq.refl _⟩
  · intro i
    exact ⟨(h.slot i).offset, (h.slot i).size, (h.slot i).data⟩
  · intro i
    rcases h.slot i with heq | ⟨hc, st, hst, heq⟩
    · rw [heq]
    · -- a complete slot has got another state word of a complete slot
      have hc' := (c.slots i).setState_complete st hst
      rw [← heq] at hc'
      refine iff_of_false ?_ ?_
      · intro hempty
        simp [Slot.Complete, hempty] at hc'
      · intro hempty
        simp [Slot.Complete, hempty] at hc

theorem promote (c : Cache n) : SameContent c c.promote := by
  by_cases hst : (c.slots c.head).state = .part
  · rw [promote_of_part hst]
    refine ⟨⟨_, _, _, _, _, Eq.refl _⟩, ?_, ?_⟩
    · intro i
      by_cases hi : i = c.head
      · subst hi
        simp [Slot.SameBytes]
      · simp [Slot.SameBytes, hi]
    · intro i
      by_cases hi : i = c.head
      · subst hi
        simp [hst]
      · simp [hi]
  · rw [promote_of_ne hst]
    exact .rfl

theorem pending (h : SameContent c c') (k : ℕ) (j : Fin n) : c'.pending k j = c.pending k j := by
  refine pending_congr ?_ h.empty_iff k j
  intro i
  rcases h.bytes i with ⟨ho, hs, -⟩
  rw [Slot.range, Slot.range, Slot.offsetEnd, Slot.offsetEnd, ho, hs]

theorem todo (h : SameContent c c') : c'.todo = c.todo := by
  have hpending := h.pending
  rcases h.frame with ⟨_, _, _, _, _, rfl⟩
  exact todo_congr (Eq.refl _) (Eq.refl _) hpending

theorem stores (h : SameContent c c') (hst : Stores c σ) : Stores c' σ := by
  intro i o ho
  rcases h.bytes i with ⟨ho', hs', hd'⟩
  rw [ho'] at ho
  rw [hs', hd']
  exact hst i o ho

end SameContent

/-! ## While the ring is copied -/

/-- What is not empty has an offset. -/
theorem Window.labelled (h : Window c L T off) {i : Fin n} (hi : (c.slots i).state ≠ .empty) :
    ∃ o, (c.slots i).offset = some o := by
  rcases exists_idx L i with ⟨q, hL, hq, rfl⟩
  rcases Nat.lt_or_ge q T with hT | hT
  · exact ⟨_, (h.spans q hL hT).1⟩
  · rcases h.free q hT hq with hst | ⟨-, -, -, b, hspan⟩
    · exact absurd hst hi
    · exact ⟨_, hspan.1⟩

/-- The recording has started at stream position `e`, with the ring reaching back
to position `l`, and the ring is being copied. -/
structure Copying (c : Cache n) (σ : List UInt8) (l e : ℕ) : Prop where
  recording : c.isRecording = true
  notMigrated : c.isRbMigrated = false
  notStopped : c.stopRecording = false
  notFinished : ∀ t, c.thread = some t → t ≠ .finished
  low : c.lRbOffset = l
  start : c.mDkOffset = some l
  length : σ.length = c.hOffset
  written : c.hOffset = l + c.wDkPos
  since : e ≤ c.hOffset
  stores : Stores c σ
  labelled : ∀ i, (c.slots i).state ≠ .empty → ∃ o, (c.slots i).offset = some o
  todo : Tiles (l + c.mDkPos) c.todo e
  file : ∃ f, c.file = some f ∧ c.mDkPos ≤ f.len ∧ (c.wDkPos ≤ f.len ∨ l + c.wDkPos = e) ∧
    Holds σ l c.mDkPos f.byte ∧ Holds σ e (c.hOffset - e) fun i => f.byte (e - l + i)

/-- The ring is empty, nothing has been read back into it or copied from it, and the walk
through its slots has not got past the first one. -/
structure Unused (c : Cache n) : Prop where
  empty : ∀ i, (c.slots i).state = .empty
  high : c.hRbOffset = c.lRbOffset
  unread : c.rDkPos = 0
  uncopied : c.mDkPos = 0
  begun : ∀ i j, c.thread = some (.walking i j) → i = 0 ∧ j = c.tail

/-- The recording runs and the ring has been copied. -/
structure Copied (c : Cache n) (σ : List UInt8) (l : ℕ) : Prop where
  recording : c.isRecording = true
  migrated : c.isRbMigrated = true
  start : c.mDkOffset = some l
  low : c.lDkOffset = some l
  length : σ.length = c.hOffset
  finished : c.thread = some .finished
  mirror : Mirror c σ l

/-- Once such a ring has been filled, the walk begins at the oldest slot, or at the first
empty one. -/
theorem Unused.todo (h : c.Unused) (hL : c.tail = idx n L) (hthread : c'.thread = c.thread)
    (hw : Window c' L T off) (ht : c'.tail = idx n T) (hpart : NonePart c') :
    Tiles (off L) c'.todo (off T) := by
  by_cases hwalk : ∃ i j, c.thread = some (.walking i j)
  · rcases hwalk with ⟨i, j, hwalk⟩
    rcases h.begun i j hwalk with ⟨rfl, rfl⟩
    rw [todo_of_walking (hthread.trans hwalk), Nat.sub_zero, hL]
    exact hw.pending_of_low hpart
  · rw [todo_of_not_walking fun i j hij => hwalk ⟨i, j, hthread.symm.trans hij⟩]
    exact hw.pending_of_tail ht (hpart _)

namespace Copying

/-- The rest of what has to be copied lies before what was appended. -/
theorem le (h : Copying c σ l e) : l + c.mDkPos ≤ e := by
  refine h.todo.le ?_
  -- no range that is still to be copied ends before it starts
  unfold Cache.todo
  split
  · exact pending_forward _ _
  · exact pending_forward _ _

theorem sameContent (h : Copying c σ l e) (hs : SameContent c c') : Copying c' σ l e := by
  have htodo := h.todo
  rw [← hs.todo] at htodo
  have hstores := hs.stores h.stores
  have hlabelled : ∀ i, (c'.slots i).state ≠ .empty → ∃ o, (c'.slots i).offset = some o := by
    intro i hi
    rw [(hs.bytes i).1]
    exact h.labelled i (fun hst => hi ((hs.empty_iff i).mpr hst))
  rcases hs.frame with ⟨_, _, _, _, _, rfl⟩
  exact ⟨h.recording, h.notMigrated, h.notStopped, h.notFinished, h.low, h.start, h.length,
    h.written, h.since, hstores, hlabelled, htodo, h.file⟩

/-- What is pushed meanwhile is appended. -/
theorem diskWrite (h : Copying c σ l e) (hp : p.FilesOk) {data : Block UInt8}
    (hsize : data.size < 2 ^ 32) : Copying (c.diskWrite data p) (σ ++ data.toList) l e := by
  rcases h.file with ⟨f, hf, hm, hw, hcopied, happended⟩
  have hle := h.le
  have hlength := h.length
  have hwritten := h.written
  have hsince := h.since
  have htodo : (c.diskWrite data p).todo = c.todo := by
    have hslots := (c.diskWrite_sameRing data p).slots
    refine todo_congr ?_ (c.diskWrite_sameRing data p).tail (pending_of_slots hslots)
    rcases c.diskWrite_eq data p with ⟨_, _, _, _, heq⟩
    rw [heq]
  have htiles := h.todo
  rw [← htodo] at htiles
  rw [diskWrite_ok hf hp.writeSeek hp.fwrite hsize] at htiles ⊢
  refine ⟨h.recording, h.notMigrated, h.notStopped, h.notFinished, h.low, h.start, ?_, ?_, ?_,
    h.stores.append _, h.labelled, htiles, _, rfl, ?_, ?_, ?_, ?_⟩
  · show (σ ++ data.toList).length = c.hOffset + data.size
    rw [List.length_append, Block.length_toList, hlength]
  · show c.hOffset + data.size = l + (c.wDkPos + data.size)
    omega
  · show e ≤ c.hOffset + data.size
    omega
  · show c.mDkPos ≤ (f.write c.wDkPos data.byte data.size).len
    simp only [File.write]
    split <;> omega
  · show c.wDkPos + data.size ≤ (f.write c.wDkPos data.byte data.size).len ∨
      l + (c.wDkPos + data.size) = e
    simp only [File.write]
    split <;> omega
  · -- the copied part lies before the write position
    intro i hi
    have hi' : i < c.mDkPos := hi
    show (σ ++ data.toList)[l + i]? = some (memcpy f.byte c.wDkPos data.byte data.size i)
    rw [memcpy_outside _ _ (Or.inl (by omega))]
    exact hcopied.append _ i hi
  · -- the new bytes follow those that were appended before
    have hpos : c.wDkPos = e - l + (c.hOffset - e) := by omega
    have hnew := happended.memcpy (by omega) data (Nat.le_refl data.size)
    rw [List.take_of_length_le (by rw [Block.length_toList]), ← memcpy_shift, ← hpos] at hnew
    rw [show c.hOffset + data.size - e = c.hOffset - e + data.size by omega]
    exact hnew

/-- Starting again, after the thread could not be created, changes nothing. -/
theorem startRecording (h : Copying c σ l e) (p : Platform) :
    Copying (c.startRecording p).1 σ l e := by
  rcases c.startRecording_cases p with ⟨heq, -⟩ | ⟨-, hthread, -, heq⟩
  · rw [heq]
    exact h
  · have hwritten := h.written
    have hlow := h.low
    have hpos : gsizeSub c.hOffset c.lRbOffset = c.wDkPos := by
      rw [gsizeSub, if_pos (by omega)]
      omega
    have htodo : (c.startRecording p).1.todo = c.todo := by
      have hidle : ∀ i j, (c.startRecording p).1.thread ≠ some (.walking i j) := by
        rw [heq]
        cases p.threadCreate <;> simp
      rw [todo_of_not_walking hidle, todo_of_not_walking (c := c) (by simp [hthread]), heq]
      exact pending_of_slots (by rfl) _ _
    have htiles := h.todo
    rw [← htodo] at htiles
    rw [heq, hpos] at htiles ⊢
    refine ⟨rfl, h.notMigrated, h.notStopped, ?_, h.low, ?_, h.length, h.written, h.since,
      h.stores, h.labelled, htiles, h.file⟩
    · intro t ht
      dsimp only at ht
      split at ht
      · cases ht
        simp
      · cases ht
    · show some c.lRbOffset = some l
      rw [hlow]

/-- An empty ring is one that the file, read from its start, refills with the stream. -/
theorem diskRing (h : Copying c σ l e) (hu : c.Unused) :
    ∃ L, c.tail = idx n L ∧ DiskRing c σ l L L fun _ => l := by
  rcases exists_idx 0 c.tail with ⟨L, -, -, htail⟩
  have hlow := h.low
  have hhigh := hu.high.trans hlow
  have hwritten := h.written
  -- nothing is left to be copied, so that the file has it all
  have htodo : c.todo = [] := by
    have hnone : ∀ k j, c.pending k j = [] := by
      intro k j
      rcases exists_idx 0 j with ⟨q, -, -, rfl⟩
      exact pending_of_empty k fun r _ _ => hu.empty _
    unfold Cache.todo
    split
    · exact hnone _ _
    · exact hnone _ _
  have hend : l + c.mDkPos = e := by
    have htiles := h.todo
    rw [htodo] at htiles
    exact htiles
  rw [hu.uncopied, Nat.add_zero] at hend
  subst hend
  rcases h.file with ⟨f, hf, -, hlen, -, hholds⟩
  have hmirror : Mirror c σ l := by
    refine ⟨⟨f, hf, by omega, ?_⟩, by rw [h.length, hwritten]⟩
    rw [hwritten, Nat.sub_self, Nat.add_sub_cancel_left] at hholds
    simpa using hholds
  refine ⟨L, htail.symm, ⟨Nat.le_refl L, Nat.le_add_right L n, hlow, hhigh, ?_, ?_, ?_⟩,
    htail.symm, h.stores, hmirror, ?_, ?_⟩
  · intro q hL hT
    omega
  · intro q hL hT
    omega
  · exact fun q _ _ => Or.inl (hu.empty _)
  · rw [hhigh, hu.unread, Nat.add_zero]
  · rw [hu.unread]
    exact Nat.zero_le _

/-- What a reload puts into an empty ring is what the file has, and will be copied to where
it has come from. -/
theorem reload_unused (h : Copying c σ l e) (hu : c.Unused) (hp : p.FilesOk) (drain : Bool) :
    ∃ e', Copying (c.reload drain p) σ l e' := by
  rcases h.diskRing hu with ⟨L, htail, hring⟩
  have hclean : ∀ i, (c.slots i).state ≠ .recycle := by
    intro i
    rw [hu.empty i]
    simp
  have hpart : NonePart c := by
    intro i
    rw [hu.empty i]
    simp
  rcases hring.reload_clean hp hclean hpart drain with ⟨T', off', hring', hgrows, hpart'⟩
  have hlow : off' L = l := hgrows.2 L (Nat.le_refl L)
  have hframe := c.reload_frame drain p
  generalize c.reload drain p = c' at hring' hpart' hframe ⊢
  rcases hframe with ⟨_, _, _, _, _, read, rfl⟩
  have hw := hring'.window
  have hbehind : read ≤ c.wDkPos := hring'.behind
  have hhigh : off' T' = l + read := hw.high.symm.trans hring'.inStep
  have hwritten := h.written
  rcases hring'.mirror.file with ⟨f, hf, hlen, hholds⟩
  refine ⟨l + read, h.recording, h.notMigrated, h.notStopped, h.notFinished, hw.low.trans hlow,
    h.start, h.length, h.written, ?_, hring'.stores, fun i hi => hw.labelled hi, ?_, f, hf, ?_,
    Or.inl hlen, ?_, ?_⟩
  · show l + read ≤ c.hOffset
    omega
  · have hstart : l + c.mDkPos = off' L := by rw [hu.uncopied, hlow, Nat.add_zero]
    show Tiles (l + c.mDkPos) _ (l + read)
    rw [hstart, ← hhigh]
    exact hu.todo htail rfl hw hring'.tail hpart'
  · show c.mDkPos ≤ f.len
    rw [hu.uncopied]
    exact Nat.zero_le _
  · show Holds σ l c.mDkPos f.byte
    rw [hu.uncopied]
    exact holds_zero _ _ _
  · have hrest := hholds.drop read
    show Holds σ (l + read) (c.hOffset - (l + read)) fun i => f.byte (l + read - l + i)
    rw [Nat.add_sub_cancel_left, hwritten, Nat.add_sub_add_left]
    exact hrest

/-- A round that finds nothing to copy. -/
theorem setThread (h : Copying c σ l e) {t : MigrationThread n} (ht : t ≠ .finished)
    (htodo : Cache.todo { c with thread := some t } = c.todo) :
    Copying { c with thread := some t } σ l e := by
  have htiles := h.todo
  rw [← htodo] at htiles
  refine ⟨h.recording, h.notMigrated, h.notStopped, ?_, h.low, h.start, h.length, h.written,
    h.since, h.stores, h.labelled, htiles, h.file⟩
  intro t' ht'
  cases ht'
  exact ht

/-- A round that copies the next slot. -/
theorem copy (h : Copying c σ l e) {i : ℕ} {j : Fin n}
    (hthread : c.thread = some (.walking i j)) (hi : i < n)
    (hst : (c.slots j).state ≠ .empty) {f : File} (hf : c.file = some f) :
    Copying { c with
      file := some (f.write c.mDkPos (c.slots j).data (c.slots j).size)
      mDkPos := c.mDkPos + (c.slots j).size
      thread := some (.walking (i + 1) (j + 1)) } σ l e := by
  rcases h.file with ⟨f', hf', hm, hw, hcopied, happended⟩
  cases hf.symm.trans hf'
  rcases h.labelled j hst with ⟨o, ho⟩
  have hwritten := h.written
  have hsince := h.since
  have htiles := h.todo
  rw [todo_of_walking hthread, show n - i = n - (i + 1) + 1 by omega,
    pending_succ_of_ne hst, Slot.range, Slot.offsetEnd, ho, Offset.val_some] at htiles
  have hstart : o = l + c.mDkPos := htiles.1
  have hrest : Tiles (l + (c.mDkPos + (c.slots j).size)) (c.pending (n - (i + 1)) (j + 1)) e := by
    rw [← Nat.add_assoc, ← hstart]
    exact htiles.2
  have hend := hrest.le (pending_forward _ _)
  have hholds := h.stores j o ho
  rw [hstart] at hholds
  refine ⟨h.recording, h.notMigrated, h.notStopped, ?_, h.low, h.start, h.length, h.written,
    h.since, h.stores, h.labelled, ?_, _, rfl, ?_, ?_, hcopied.copy hholds, ?_⟩
  · intro t ht
    cases ht
    simp
  · have hsame : ∀ c' : Cache n, c'.slots = c.slots →
        Tiles (l + (c.mDkPos + (c.slots j).size)) (c'.pending (n - (i + 1)) (j + 1)) e := by
      intro c' hslots
      rw [pending_of_slots hslots]
      exact hrest
    rw [todo_of_walking rfl]
    exact hsame _ rfl
  · show c.mDkPos + (c.slots j).size ≤ (f.write c.mDkPos _ (c.slots j).size).len
    simp only [File.write]
    split <;> omega
  · show c.wDkPos ≤ (f.write c.mDkPos _ (c.slots j).size).len ∨ l + c.wDkPos = e
    simp only [File.write]
    split <;> omega
  · -- the appended part lies behind the room that is filled
    exact happended.behind (by omega)

/-- When nothing is left to copy, the file mirrors the stream. -/
theorem mirror (h : Copying c σ l e) (htodo : c.todo = []) : Mirror c σ l := by
  rcases h.file with ⟨f, hf, hm, hw, hcopied, happended⟩
  have htiles := h.todo
  rw [htodo] at htiles
  have hend : l + c.mDkPos = e := htiles
  have hwritten := h.written
  have hsince := h.since
  have hlength := h.length
  refine ⟨⟨f, hf, by omega, ?_⟩, by omega⟩
  rw [show c.wDkPos = c.mDkPos + (c.hOffset - e) by omega]
  refine hcopied.join ?_
  rw [hend]
  rwa [show e - l = c.mDkPos by omega] at happended

/-- One round of the migration thread. -/
theorem migrationThread (h : Copying c σ l e) (hp : p.FilesOk) :
    Copying (c.migrationThread p) σ l e ∨ Copied (c.migrationThread p) σ l := by
  unfold Cache.migrationThread
  cases hthread : c.thread with
  | none =>
      left
      simpa [hthread] using h
  | some t =>
      cases t with
      | finished => exact absurd rfl (h.notFinished _ hthread)
      | created =>
          -- the thread is scheduled for the first time
          left
          refine h.setThread (by simp) ?_
          rw [todo_of_walking rfl, Nat.sub_zero, todo_of_not_walking (c := c) (by simp [hthread])]
          exact pending_of_slots (by rfl) _ _
      | walking i j =>
          dsimp only
          by_cases hi : i < n
          · left
            rw [if_pos hi]
            by_cases hst : (c.slots j).state = .empty
            · rw [if_pos hst]
              refine h.setThread (by simp) ?_
              rw [todo_of_walking rfl, todo_of_walking hthread,
                show n - i = n - (i + 1) + 1 by omega, pending_succ_of_empty hst]
              exact pending_of_slots (by rfl) _ _
            · rcases h.file with ⟨f, hf, -⟩
              have hcopy := h.copy hthread hi hst hf
              have hgo : ¬(c.stopRecording && c.autoremove) = true := by simp [h.notStopped]
              rw [if_neg hst, if_neg hgo]
              simp only [hf, hp.writeSeek, hp.fwrite, Bool.not_true, Bool.false_eq_true, if_false,
                fwriteCount]
              by_cases hzero : (c.slots j).size = 0
              · simpa [hzero] using hcopy
              · simpa [hzero] using hcopy
          · -- the walk is over
            right
            rw [if_neg hi]
            have hdone : c.todo = [] := by
              rw [todo_of_walking hthread, show n - i = 0 by omega]
              rfl
            have hmirror := h.mirror hdone
            exact ⟨h.recording, rfl, h.start, h.start, h.length, rfl, hmirror.file, hmirror.length⟩

end Copying

end Cache

end TimeShift
