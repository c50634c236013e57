import Mathlib.Data.List.Basic
import Mathlib.Data.List.TakeDrop

/-!
# Memory blocks and pieces of a stream

A memory block is a pointer and a length: its contents are a function on
positions, of which the first `size` count. A stream is a list. `Holds` relates
the two (a region of memory holds a range of the stream), and `Reads` says that
pieces handed out one after the other are consecutive ranges of the stream.
-/

namespace Bytes

variable {α : Type*}

/-- A pointer with the number of bytes it is good for. -/
structure Block (α : Type*) where
  size : ℕ
  byte : ℕ → α

/-- The contents of a block, as a list. -/
def Block.toList (b : Block α) : List α := (List.range b.size).map b.byte

/-- Move the pointer `k` bytes on. -/
def Block.drop (b : Block α) (k : ℕ) : Block α where
  size := b.size - k
  byte i := b.byte (i + k)

/-- The byte at position `i`; `none` is outside of the block. -/
def Block.read (b : Block α) (i : ℕ) : Option α := if i < b.size then some (b.byte i) else none

/-- Copy `k` bytes of `src` to position `pos` of `dst`. -/
def memcpy (dst : ℕ → α) (pos : ℕ) (src : ℕ → α) (k : ℕ) : ℕ → α :=
  fun i => if pos ≤ i ∧ i < pos + k then src (i - pos) else dst i

@[simp] theorem Block.length_toList (b : Block α) : b.toList.length = b.size := by
  simp [Block.toList]

@[simp] theorem Block.size_drop (b : Block α) (k : ℕ) : (b.drop k).size = b.size - k := rfl

@[simp] theorem Block.byte_drop (b : Block α) (k i : ℕ) : (b.drop k).byte i = b.byte (i + k) := rfl

@[simp] theorem Block.drop_zero (b : Block α) : b.drop 0 = b := rfl

theorem Block.drop_drop (b : Block α) (j k : ℕ) : (b.drop j).drop k = b.drop (j + k) := by
  simp only [Block.drop, Nat.sub_sub, Nat.add_assoc, Nat.add_comm k j]

theorem Block.read_eq (b : Block α) {i : ℕ} (hi : i < b.size) : b.read i = some (b.byte i) :=
  if_pos hi

theorem Block.getElem?_toList (b : Block α) {i : ℕ} (hi : i < b.size) :
    b.toList[i]? = some (b.byte i) := by
  simp [Block.toList, hi]

theorem Block.toList_drop (b : Block α) (k : ℕ) : (b.drop k).toList = b.toList.drop k := by
  apply List.ext_getElem?
  intro i
  rw [List.getElem?_drop]
  by_cases hi : k + i < b.size
  · rw [b.getElem?_toList hi, Block.getElem?_toList _ (by rw [size_drop]; omega)]
    simp [Block.drop, Nat.add_comm]
  · rw [List.getElem?_eq_none (by simp; omega), List.getElem?_eq_none (by simp; omega)]

theorem memcpy_inside (dst : ℕ → α) (pos : ℕ) (src : ℕ → α) {k i : ℕ} (hi : i < k) :
    memcpy dst pos src k (pos + i) = src i := by
  simp [memcpy, hi]

theorem memcpy_outside (dst : ℕ → α) {pos : ℕ} (src : ℕ → α) {k i : ℕ}
    (hi : i < pos ∨ pos + k ≤ i) : memcpy dst pos src k i = dst i := by
  have : ¬(pos ≤ i ∧ i < pos + k) := by omega
  simp [memcpy, this]

/-- Copying behind the first `a` bytes, seen from there. -/
theorem memcpy_shift (dst : ℕ → α) (a pos : ℕ) (src : ℕ → α) (k : ℕ) :
    (fun i => memcpy dst (a + pos) src k (a + i)) = memcpy (fun i => dst (a + i)) pos src k := by
  funext i
  have hiff : (a + pos ≤ a + i ∧ a + i < a + pos + k) ↔ (pos ≤ i ∧ i < pos + k) := by omega
  simp only [memcpy, hiff, Nat.add_sub_add_left]

/-! ## One block behind the other -/

/-- The bytes of `a` with those of `b` behind them. -/
def Block.append (a b : Block α) : Block α where
  size := a.size + b.size
  byte i := if i < a.size then a.byte i else b.byte (i - a.size)

@[simp] theorem Block.append_size (a b : Block α) : (a.append b).size = a.size + b.size := rfl

theorem Block.append_left (a b : Block α) {i : ℕ} (hi : i < a.size) :
    (a.append b).byte i = a.byte i :=
  if_pos hi

theorem Block.append_right (a b : Block α) (i : ℕ) :
    (a.append b).byte (a.size + i) = b.byte i := by
  have hi : ¬a.size + i < a.size := by omega
  simp only [append, hi, if_false, Nat.add_sub_cancel_left]

theorem Block.append_toList (a b : Block α) : (a.append b).toList = a.toList ++ b.toList := by
  apply List.ext_getElem?
  intro i
  by_cases hi : i < a.size
  · rw [List.getElem?_append_left (by simpa using hi), a.getElem?_toList hi,
      Block.getElem?_toList _ (by rw [append_size]; omega), a.append_left b hi]
  · rcases Nat.exists_eq_add_of_le (Nat.le_of_not_lt hi) with ⟨j, rfl⟩
    rw [List.getElem?_append_right (by simp), length_toList, Nat.add_sub_cancel_left]
    by_cases hj : j < b.size
    · rw [b.getElem?_toList hj, Block.getElem?_toList _ (by rw [append_size]; omega),
        append_right]
    · rw [List.getElem?_eq_none (by simp; omega), List.getElem?_eq_none (by simp; omega)]

theorem Block.nil_append {a : Block α} (b : Block α) (h : a.size = 0) : a.append b = b := by
  simp [append, h]

/-- Bytes are dropped from the front. -/
theorem Block.drop_append (a b : Block α) {k : ℕ} (hk : k ≤ a.size) :
    (a.append b).drop k = (a.drop k).append b := by
  have hsize : a.size + b.size - k = a.size - k + b.size := by omega
  have hbyte : ∀ i, (a.append b).byte (i + k) = ((a.drop k).append b).byte i := by
    intro i
    by_cases hi : i + k < a.size
    · have hi' : i < a.size - k := by omega
      simp [append, hi, hi']
    · have hi' : ¬i < a.size - k := by omega
      have hsub : i + k - a.size = i - (a.size - k) := by omega
      simp [append, hi, hi', hsub]
  simp only [drop, append_size, hsize, funext hbyte]
  rfl

theorem Block.drop_append_add (a b : Block α) (k : ℕ) :
    (a.append b).drop (a.size + k) = b.drop k := by
  have hsize : a.size + b.size - (a.size + k) = b.size - k := by omega
  have hbyte : ∀ i, (a.append b).byte (i + (a.size + k)) = b.byte (i + k) := by
    intro i
    rw [show i + (a.size + k) = a.size + (i + k) by omega, append_right]
  simp only [drop, append_size, hsize, funext hbyte]

/-- Only the bytes that are copied matter. -/
theorem memcpy_congr (dst : ℕ → α) (pos : ℕ) {src src' : ℕ → α} {k : ℕ}
    (h : ∀ i < k, src i = src' i) : memcpy dst pos src k = memcpy dst pos src' k := by
  funext i
  unfold memcpy
  split
  · exact h (i - pos) (by omega)
  · rfl

/-- Copying behind what has just been copied. -/
theorem memcpy_memcpy (dst : ℕ → α) (pos : ℕ) (a b : Block α) (m : ℕ) :
    memcpy (memcpy dst pos a.byte a.size) (pos + a.size) b.byte m =
      memcpy dst pos (a.append b).byte (a.size + m) := by
  funext i
  by_cases hlow : i < pos
  · rw [memcpy_outside _ _ (Or.inl (by omega)), memcpy_outside _ _ (Or.inl hlow),
      memcpy_outside _ _ (Or.inl hlow)]
  rcases Nat.exists_eq_add_of_le (Nat.le_of_not_lt hlow) with ⟨j, rfl⟩
  by_cases hfirst : j < a.size
  · rw [memcpy_outside _ _ (Or.inl (by omega)), memcpy_inside _ _ _ hfirst,
      memcpy_inside _ _ _ (by omega), a.append_left b hfirst]
  rcases Nat.exists_eq_add_of_le (Nat.le_of_not_lt hfirst) with ⟨j, rfl⟩
  by_cases hsecond : j < m
  · rw [← Nat.add_assoc, memcpy_inside _ _ _ hsecond, Nat.add_assoc,
      memcpy_inside _ _ _ (by omega), a.append_right]
  · rw [memcpy_outside _ _ (Or.inr (by omega)), memcpy_outside _ _ (Or.inr (by omega)),
      memcpy_outside _ _ (Or.inr (by omega))]

/-! ## Memory that holds a range of a stream -/

/-- The first `k` bytes of `mem` are the stream's bytes from position `o` on. -/
def Holds (σ : List α) (o k : ℕ) (mem : ℕ → α) : Prop :=
  ∀ i < k, σ[o + i]? = some (mem i)

theorem holds_zero (σ : List α) (o : ℕ) (mem : ℕ → α) : Holds σ o 0 mem := by
  intro i hi
  omega

/-- What is held stays held when the stream grows. -/
theorem Holds.append {σ : List α} {o k : ℕ} {mem : ℕ → α} (h : Holds σ o k mem)
    (τ : List α) : Holds (σ ++ τ) o k mem := by
  intro i hi
  obtain ⟨hlt, -⟩ := List.getElem?_eq_some_iff.mp (h i hi)
  rw [List.getElem?_append_left hlt]
  exact h i hi

/-- The memory from a later place on. -/
theorem Holds.drop {σ : List α} {o k : ℕ} {mem : ℕ → α} (h : Holds σ o k mem) (m : ℕ) :
    Holds σ (o + m) (k - m) fun i => mem (m + i) := by
  intro i hi
  rw [Nat.add_assoc]
  exact h (m + i) (by omega)

theorem Holds.le_length {σ : List α} {o k : ℕ} {mem : ℕ → α} (h : Holds σ o k mem)
    (hk : 0 < k) : o + k ≤ σ.length := by
  obtain ⟨hlt, -⟩ := List.getElem?_eq_some_iff.mp (h (k - 1) (by omega))
  omega

/-- The held bytes are the stream's range. -/
theorem Holds.toList_eq {σ : List α} {o k : ℕ} {mem : ℕ → α} (h : Holds σ o k mem) :
    (Block.mk k mem).toList = (σ.drop o).take k := by
  apply List.ext_getElem?
  intro i
  by_cases hi : i < k
  · rw [Block.getElem?_toList _ hi, List.getElem?_take_of_lt hi, List.getElem?_drop, h i hi]
  · rw [List.getElem?_eq_none (by simp; omega), List.getElem?_eq_none (by simp; omega)]

/-- Appending `k` bytes both to the stream and behind the held range. -/
theorem Holds.memcpy {σ : List α} {o w : ℕ} {mem : ℕ → α} (h : Holds σ o w mem)
    (hlen : σ.length = o + w) (d : Block α) {k : ℕ} (hk : k ≤ d.size) :
    Holds (σ ++ d.toList.take k) o (w + k) (Bytes.memcpy mem w d.byte k) := by
  intro i hi
  by_cases hold : i < w
  · rw [memcpy_outside _ _ (Or.inl hold)]
    exact h.append _ i hold
  · -- a new byte: position `i` is `i - w` bytes behind the old end
    obtain ⟨j, rfl⟩ : ∃ j, i = w + j := ⟨i - w, by omega⟩
    rw [memcpy_inside _ _ _ (by omega), List.getElem?_append_right (by omega)]
    have hpos : o + (w + j) - σ.length = j := by omega
    rw [hpos, List.getElem?_take_of_lt (by omega), d.getElem?_toList (by omega)]

/-- Two regions that follow each other, in memory and in the stream. -/
theorem Holds.join {σ : List α} {o k m : ℕ} {mem : ℕ → α} (h : Holds σ o k mem)
    (h' : Holds σ (o + k) m fun i => mem (k + i)) : Holds σ o (k + m) mem := by
  intro i hi
  by_cases hik : i < k
  · exact h i hik
  · obtain ⟨j, rfl⟩ : ∃ j, i = k + j := ⟨i - k, by omega⟩
    rw [← Nat.add_assoc]
    exact h' j (by omega)

/-- Copying the next bytes of the stream behind the held region. -/
theorem Holds.copy {σ : List α} {o k m : ℕ} {mem src : ℕ → α} (h : Holds σ o k mem)
    (h' : Holds σ (o + k) m src) : Holds σ o (k + m) (Bytes.memcpy mem k src m) := by
  refine Holds.join ?_ ?_
  · intro i hi
    rw [memcpy_outside _ _ (Or.inl hi)]
    exact h i hi
  · intro i hi
    dsimp only
    rw [memcpy_inside _ _ _ hi]
    exact h' i hi

/-- A region at `a` is not touched by what is copied before it. -/
theorem Holds.behind {σ : List α} {o k m a pos : ℕ} {mem src : ℕ → α}
    (h : Holds σ o k fun i => mem (a + i)) (ha : pos + m ≤ a) :
    Holds σ o k fun i => Bytes.memcpy mem pos src m (a + i) := by
  intro i hi
  dsimp only
  rw [memcpy_outside _ _ (Or.inr (by omega))]
  exact h i hi

/-! ## Consecutive pieces -/

/-- Bytes handed out together with the range they are labelled with. -/
structure Piece (α : Type*) where
  start : ℕ
  stop : ℕ
  bytes : List α

/-- The pieces are consecutive ranges of `σ`, the first one starting at `p` and
the last one ending at `q`, each labelled with its range. -/
def Reads (σ : List α) : ℕ → List (Piece α) → ℕ → Prop
  | p, [], q => p = q
  | p, x :: xs, q =>
      x.start = p ∧ x.stop = p + x.bytes.length ∧
        x.bytes = (σ.drop p).take x.bytes.length ∧ Reads σ x.stop xs q

theorem Reads.trans {σ : List α} {p m q : ℕ} {xs ys : List (Piece α)}
    (h : Reads σ p xs m) (h' : Reads σ m ys q) : Reads σ p (xs ++ ys) q := by
  induction xs generalizing p with
  | nil =>
      have : p = m := h
      exact this ▸ h'
  | cons x xs ih =>
      obtain ⟨h1, h2, h3, h4⟩ := h
      exact ⟨h1, h2, h3, ih h4⟩

/-- Reading on a longer stream gives the same pieces. -/
theorem Reads.append {σ : List α} {p q : ℕ} {xs : List (Piece α)} (h : Reads σ p xs q)
    (τ : List α) : Reads (σ ++ τ) p xs q := by
  induction xs generalizing p with
  | nil => exact h
  | cons x xs ih =>
      obtain ⟨h1, h2, h3, h4⟩ := h
      refine ⟨h1, h2, ?_, ih h4⟩
      have hlen := congrArg List.length h3
      rw [List.length_take, List.length_drop] at hlen
      rcases Nat.eq_zero_or_pos x.bytes.length with hz | hpos
      · rw [hz, List.take_zero]
        exact List.eq_nil_of_length_eq_zero hz
      · rw [List.drop_append_of_le_length (by omega),
          List.take_append_of_le_length (by rw [List.length_drop]; omega)]
        exact h3

theorem Reads.le {σ : List α} {p q : ℕ} {xs : List (Piece α)} (h : Reads σ p xs q) :
    p ≤ q := by
  induction xs generalizing p with
  | nil => exact Nat.le_of_eq h
  | cons x xs ih =>
      obtain ⟨-, h2, -, h4⟩ := h
      have := ih h4
      omega

/-- Every byte of a piece is the stream's byte at its place. -/
theorem Reads.getElem? {σ : List α} {p q : ℕ} {xs : List (Piece α)} (h : Reads σ p xs q)
    {x : Piece α} (hx : x ∈ xs) {i : ℕ} (hi : i < x.bytes.length) :
    x.bytes[i]? = σ[x.start + i]? := by
  induction xs generalizing p with
  | nil => cases hx
  | cons y ys ih =>
      obtain ⟨h1, -, h3, h4⟩ := h
      rcases List.mem_cons.mp hx with rfl | hx
      · rw [h3, List.getElem?_take_of_lt hi, List.getElem?_drop, h1]
      · exact ih h4 hx

/-- Put together, consecutive pieces are one range of the stream. -/
theorem Reads.flatMap_bytes {σ : List α} {p q : ℕ} {xs : List (Piece α)}
    (h : Reads σ p xs q) : xs.flatMap Piece.bytes = (σ.drop p).take (q - p) := by
  induction xs generalizing p with
  | nil =>
      have : p = q := h
      simp [this]
  | cons x xs ih =>
      obtain ⟨-, h2, h3, h4⟩ := h
      have hle := h4.le
      have hsplit : q - p = x.bytes.length + (q - x.stop) := by omega
      rw [List.flatMap_cons, ih h4, hsplit, List.take_add, List.drop_drop, ← h2, ← h3]

/-- Read from the start, the pieces together are a prefix of the stream. -/
theorem Reads.flatMap_initial {σ : List α} {q : ℕ} {xs : List (Piece α)} (h : Reads σ 0 xs q) :
    xs.flatMap Piece.bytes <+: σ := by
  rw [h.flatMap_bytes, List.drop_zero]
  exact List.take_prefix _ _

end Bytes
