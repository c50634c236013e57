import Mathlib.Algebra.Group.Nat.Defs
import TimeShift.Lib.Bytes

/-!
# Ring buffer slots

The slot manager of `flucache.c`: the state word of a slot, its fields and the
operations that fill, load and reset it. `data` is the `CACHE_SLOT_SIZE` bytes
that the slot points to, `wptr` the distance of the write pointer from them.
-/

namespace TimeShift

open Bytes

/-- `CACHE_SLOT_SIZE`, the ring buffer data unit. -/
def cacheSlotSize : ℕ := 32 * 1024

theorem cacheSlotSize_pos : 0 < cacheSlotSize := by decide

/-- A `guint64` stream offset; `none` is `INVALID_OFFSET`, which lies above
every offset of the stream. -/
abbrev Offset := Option ℕ

/-- `(guint64) -1`, the bits of `INVALID_OFFSET`. -/
def invalidOffset : ℕ := 2 ^ 64 - 1

/-- The bits of an offset, for the arithmetic the code does on it. -/
def Offset.val : Offset → ℕ
  | none => invalidOffset
  | some o => o

/-- `offset >= o`. -/
def Offset.le : Offset → ℕ → Bool
  | none, _ => false
  | some o, offset => o ≤ offset

@[simp] theorem Offset.val_some (o : ℕ) : Offset.val (some o) = o := rfl

@[simp] theorem Offset.le_some (o offset : ℕ) :
    Offset.le (some o) offset = decide (o ≤ offset) := rfl

@[simp] theorem Offset.le_none (offset : ℕ) : Offset.le none offset = false := rfl

/-- The state word of a slot. -/
inductive CacheState where
  | empty
  | part
  | full
  | pop
  | recycle
deriving DecidableEq, Repr

/-- `state <= STATE_PART`: the slot takes more bytes. -/
def CacheState.isAvailable : CacheState → Bool
  | .empty | .part => true
  | .full | .pop | .recycle => false

theorem CacheState.full_closed : CacheState.full.isAvailable = false := rfl
theorem CacheState.pop_closed : CacheState.pop.isAvailable = false := rfl
theorem CacheState.recycle_closed : CacheState.recycle.isAvailable = false := rfl

/-- A slot of the ring. A slot that is open for writing has its write pointer
behind its bytes and room for at least one more; an empty one has no bytes. -/
structure Slot where
  state : CacheState
  offset : Offset
  data : ℕ → UInt8
  wptr : ℕ
  size : ℕ
  size_le : size ≤ cacheSlotSize
  open_room : state.isAvailable → wptr = size ∧ size < cacheSlotSize
  empty_clean : state = .empty → offset = none ∧ size = 0

namespace Slot

/-- An empty slot is open from its first byte on. -/
theorem empty_room (_ : CacheState.empty.isAvailable) : 0 = 0 ∧ 0 < cacheSlotSize :=
  ⟨rfl, cacheSlotSize_pos⟩

/-- An empty slot has no offset and no bytes. -/
theorem empty_blank (_ : CacheState.empty = .empty) : (none : Offset) = none ∧ 0 = 0 :=
  ⟨rfl, rfl⟩

/-- `slot_available`. -/
def available (s : Slot) : Bool := s.state.isAvailable

/-- The size that `slot_available` returns: what is left behind `wptr`. -/
def room (s : Slot) : ℕ := cacheSlotSize - s.wptr

/-- `slot->offset + slot->size`. -/
def offsetEnd (s : Slot) : ℕ := s.offset.val + s.size

/-- `offset >= slot->offset && offset < slot->offset + slot->size`. -/
def contains (s : Slot) (offset : ℕ) : Bool :=
  s.offset.le offset && offset < s.offsetEnd

/-- `slot_write`: copy `k` bytes behind the write pointer; the result says
whether the slot is full now. -/
def write (s : Slot) (data : ℕ → UInt8) (k offset : ℕ) (h : s.available)
    (hk : k ≤ s.room) : Slot × Bool :=
  ({ state := if s.size + k = cacheSlotSize then .full else .part
     offset := some offset
     data := memcpy s.data s.wptr data k
     wptr := s.wptr + k
     size := s.size + k
     size_le := by
       have := s.open_room h
       have := s.size_le
       unfold room at hk
       omega
     open_room := by
       have := s.open_room h
       have := s.size_le
       unfold room at hk
       split <;> intro hst
       · simp [CacheState.isAvailable] at hst
       · omega
     empty_clean := by split <;> simp },
   s.size + k = cacheSlotSize)

/-- The slot after a successful `fread` of `k` bytes for stream position
`offset`. The write pointer stays where it was. -/
def load (s : Slot) (bytes : ℕ → UInt8) (k offset : ℕ) (hk : k ≤ cacheSlotSize) : Slot where
  state := .full
  offset := some offset
  data := memcpy s.data 0 bytes k
  wptr := s.wptr
  size := k
  size_le := hk
  open_room h := by simp [CacheState.isAvailable] at h
  empty_clean h := by simp at h

/-- The slot after an `fread` that stopped after `k` bytes. -/
def smear (s : Slot) (bytes : ℕ → UInt8) (k : ℕ) : Slot :=
  { s with data := memcpy s.data 0 bytes k }

/-- An empty slot over the same memory. -/
def reset (s : Slot) : Slot where
  state := .empty
  offset := none
  data := s.data
  wptr := 0
  size := 0
  size_le := Nat.zero_le _
  open_room := empty_room
  empty_clean := empty_blank

/-- Store a state word that closes the slot for writing. -/
def setState (s : Slot) (st : CacheState) (h : st.isAvailable = false) : Slot :=
  { s with
    state := st
    open_room := by simp [h]
    empty_clean := by
      rintro rfl
      simp [CacheState.isAvailable] at h }

@[ext] theorem ext {s t : Slot} (h1 : s.state = t.state) (h2 : s.offset = t.offset)
    (h3 : s.data = t.data) (h4 : s.wptr = t.wptr) (h5 : s.size = t.size) : s = t := by
  cases s
  cases t
  simp_all

section Projections

variable (s : Slot) (data : ℕ → UInt8) (k o : ℕ)

@[simp] theorem write_state (h hk) : (s.write data k o h hk).1.state =
    if s.size + k = cacheSlotSize then .full else .part := rfl
@[simp] theorem write_offset (h hk) : (s.write data k o h hk).1.offset = some o := rfl
@[simp] theorem write_data (h hk) :
    (s.write data k o h hk).1.data = memcpy s.data s.wptr data k := rfl
@[simp] theorem write_wptr (h hk) : (s.write data k o h hk).1.wptr = s.wptr + k := rfl
@[simp] theorem write_size (h hk) : (s.write data k o h hk).1.size = s.size + k := rfl
@[simp] theorem write_full (h hk) :
    (s.write data k o h hk).2 = decide (s.size + k = cacheSlotSize) := rfl

@[simp] theorem load_state (hk) : (s.load data k o hk).state = .full := rfl
@[simp] theorem load_offset (hk) : (s.load data k o hk).offset = some o := rfl
@[simp] theorem load_data (hk) : (s.load data k o hk).data = memcpy s.data 0 data k := rfl
@[simp] theorem load_size (hk) : (s.load data k o hk).size = k := rfl

@[simp] theorem smear_state : (s.smear data k).state = s.state := rfl
@[simp] theorem smear_offset : (s.smear data k).offset = s.offset := rfl
@[simp] theorem smear_size : (s.smear data k).size = s.size := rfl

@[simp] theorem reset_state : s.reset.state = .empty := rfl
@[simp] theorem reset_offset : s.reset.offset = none := rfl
@[simp] theorem reset_data : s.reset.data = s.data := rfl
@[simp] theorem reset_wptr : s.reset.wptr = 0 := rfl
@[simp] theorem reset_size : s.reset.size = 0 := rfl

@[simp] theorem setState_state (st h) : (s.setState st h).state = st := rfl
@[simp] theorem setState_offset (st h) : (s.setState st h).offset = s.offset := rfl
@[simp] theorem setState_data (st h) : (s.setState st h).data = s.data := rfl
@[simp] theorem setState_wptr (st h) : (s.setState st h).wptr = s.wptr := rfl
@[simp] theorem setState_size (st h) : (s.setState st h).size = s.size := rfl

end Projections

/-- A slot that is neither empty nor partly written: its bytes are complete. -/
def Complete (s : Slot) : Prop := s.state = .full ∨ s.state = .pop ∨ s.state = .recycle

instance (s : Slot) : Decidable s.Complete := inferInstanceAs (Decidable (_ ∨ _ ∨ _))

/-- Two slots that differ in nothing but the state words of complete slots. -/
def Restated (s t : Slot) : Prop :=
  t = s ∨ (s.Complete ∧ ∃ st h, t = s.setState st h)

theorem available_iff (s : Slot) : s.available ↔ s.state = .empty ∨ s.state = .part := by
  unfold available
  cases s.state <;> simp [CacheState.isAvailable]

theorem complete_iff_not_available (s : Slot) : s.Complete ↔ s.available = false := by
  unfold available Complete
  cases s.state <;> simp [CacheState.isAvailable]

theorem setState_complete (s : Slot) (st h) : (s.setState st h).Complete := by
  rw [complete_iff_not_available]
  exact h

theorem Complete.of_full {s : Slot} (h : s.state = .full) : s.Complete := Or.inl h
theorem Complete.of_pop {s : Slot} (h : s.state = .pop) : s.Complete := Or.inr (Or.inl h)
theorem Complete.of_recycle {s : Slot} (h : s.state = .recycle) : s.Complete :=
  Or.inr (Or.inr h)

namespace Restated

variable {s t u : Slot}

theorem rfl : Restated s s := Or.inl (Eq.refl _)

theorem trans (h : Restated s t) (h' : Restated t u) : Restated s u := by
  rcases h with rfl | ⟨hc, st, hst, rfl⟩
  · exact h'
  · rcases h' with rfl | ⟨-, st', hst', rfl⟩
    · exact Or.inr ⟨hc, st, hst, Eq.refl _⟩
    · exact Or.inr ⟨hc, st', hst', Eq.refl _⟩

theorem offset (h : Restated s t) : t.offset = s.offset := by
  rcases h with rfl | ⟨-, st, hst, rfl⟩ <;> exact Eq.refl _

theorem data (h : Restated s t) : t.data = s.data := by
  rcases h with rfl | ⟨-, st, hst, rfl⟩ <;> exact Eq.refl _

theorem size (h : Restated s t) : t.size = s.size := by
  rcases h with rfl | ⟨-, st, hst, rfl⟩ <;> exact Eq.refl _

theorem complete_iff (h : Restated s t) : t.Complete ↔ s.Complete := by
  rcases h with rfl | ⟨hc, st, hst, rfl⟩
  · exact Iff.rfl
  · exact iff_of_true (s.setState_complete st hst) hc

/-- An open slot is not touched. -/
theorem eq_of_not_complete (h : Restated s t) (ho : ¬s.Complete) : t = s := by
  rcases h with rfl | ⟨hc, -⟩
  · exact Eq.refl _
  · exact absurd hc ho

end Restated

theorem room_eq (s : Slot) (h : s.available) : s.room = cacheSlotSize - s.size := by
  rw [room, (s.open_room h).1]

theorem room_pos (s : Slot) (h : s.available) : 0 < s.room := by
  have := s.open_room h
  unfold room
  omega

end Slot

end TimeShift
