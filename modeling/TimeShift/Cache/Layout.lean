import TimeShift.Cache.Basic

/-!
# The memory of the slots

The cache allocates one block for all of its slots and gives each of them a region
of it. The number of slots, the length of the block and the starts of the regions
are computed with 32 bits, although the size of a cache has 64: the layout is as
intended for sizes below 4 GiB, counted modulo 2^47 (`layout_fits_iff`).
-/

namespace TimeShift

open Cache

/-- The length of the block that `gst_shifter_cache_new` allocates. -/
def memorySize (size : ℕ) : ℕ := guint (nslots size * cacheSlotSize)

/-- Where `gst_shifter_cache_flush` places the data of slot `i` in the block. -/
def slotData (i : ℕ) : ℕ := guint (i * cacheSlotSize)

/-- There is a slot, the region of every slot lies in the block, and no two regions
overlap. -/
structure LayoutFits (size : ℕ) : Prop where
  someSlot : 1 ≤ nslots size
  inside : ∀ i < nslots size, slotData i + cacheSlotSize ≤ memorySize size
  disjoint : ∀ i < nslots size, ∀ j < nslots size, i ≠ j →
    slotData i + cacheSlotSize ≤ slotData j ∨ slotData j + cacheSlotSize ≤ slotData i

theorem nslots_eq (size : ℕ) : nslots size = size % 2 ^ 47 / cacheSlotSize := by
  unfold nslots guint cacheSlotSize
  omega

/-- Up to 2^17 slots, the products do not wrap around. -/
theorem slotData_eq {i : ℕ} (hi : i < 2 ^ 17) : slotData i = i * cacheSlotSize := by
  unfold slotData guint cacheSlotSize
  omega

/-- With fewer than 2^17 slots, each region follows the one before it. -/
theorem layoutFits_of_lt {size : ℕ} (hsome : 1 ≤ nslots size) (hlt : nslots size < 2 ^ 17) :
    LayoutFits size := by
  have hmemory : memorySize size = nslots size * cacheSlotSize := slotData_eq hlt
  -- a slot before another one ends before that one starts
  have hbefore : ∀ i j, i < j → j ≤ nslots size →
      slotData i + cacheSlotSize ≤ j * cacheSlotSize := by
    intro i j hij hj
    rw [slotData_eq (show i < 2 ^ 17 by omega), ← Nat.succ_mul]
    exact Nat.mul_le_mul_right _ hij
  constructor
  · exact hsome
  · intro i hi
    rw [hmemory]
    exact hbefore i _ hi (Nat.le_refl _)
  · intro i hi j hj hne
    rcases Nat.lt_or_gt_of_ne hne with hlt' | hgt
    · left
      rw [slotData_eq (show j < 2 ^ 17 by omega)]
      exact hbefore i j hlt' (Nat.le_of_lt hj)
    · right
      rw [slotData_eq (show i < 2 ^ 17 by omega)]
      exact hbefore j i hgt (Nat.le_of_lt hi)

/-- With 2^17 slots or more, the block is empty, or the slot numbered 2^17 starts
where slot 0 does. -/
theorem lt_of_layoutFits {size : ℕ} (h : LayoutFits size) : nslots size < 2 ^ 17 := by
  have hsome := h.someSlot
  by_contra hge
  rcases Nat.eq_or_lt_of_le (Nat.le_of_not_lt hge) with heq | hlt
  · have hinside := h.inside 0 (by omega)
    rw [memorySize, ← heq] at hinside
    exact absurd hinside (by decide)
  · have hdisjoint := h.disjoint 0 (by omega) (2 ^ 17) hlt (by decide)
    exact absurd hdisjoint (by decide)

/-- The slots of a cache have their regions in the block, one beside the other, if and
only if its size modulo 2^47 is at least a slot's and below 4 GiB. -/
theorem layout_fits_iff (size : ℕ) :
    LayoutFits size ↔ cacheSlotSize ≤ size % 2 ^ 47 ∧ size % 2 ^ 47 < 2 ^ 32 := by
  have heq := nslots_eq size
  unfold cacheSlotSize at heq ⊢
  constructor
  · intro h
    have hsome := h.someSlot
    have hlt := lt_of_layoutFits h
    omega
  · rintro ⟨hsome, hlt⟩
    exact layoutFits_of_lt (by omega) (by omega)

/-- A cache of 4 GiB has slots, but an empty block. -/
theorem huge_cache_has_no_memory :
    ¬∀ size, 4 * cacheSlotSize ≤ size → size < 2 ^ 64 → LayoutFits size := by
  intro hall
  have hfits := hall (2 ^ 32) (by decide) (by decide)
  have hinside := hfits.inside 0 (by decide)
  exact absurd hinside (by decide)

end TimeShift
