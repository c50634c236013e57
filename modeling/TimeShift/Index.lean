import Mathlib.Data.List.Induction
import Mathlib.Data.List.Pairwise
import Mathlib.Logic.Function.Basic
import Mathlib.Tactic.Set
import TimeShift.Glib
import TimeShift.Lib.SearchTree

/-!
# The index

A model of `flutsmemindex.c`. An entry associates values of several formats with
each other; per format, the index keeps a search tree of its entries, larger
values to the left. A lookup that finds no exact match falls back on the nearest
entries that it has passed on its way down the tree.

The index has one writer, and its callers set and ask for no association flags,
which every entry meets; neither is modelled. `GTree` is a search tree of any
shape: what a lookup finds depends on the entries only (`Sorted.lookup_before`).
-/

namespace TimeShift

open SearchTree

/-- `GstFormat`. -/
inductive Format where
  | undefined
  | default
  | bytes
  | time
  | buffers
  | percent
deriving DecidableEq, Repr

/-- `GstFluTSIndexAssociation`. -/
structure IndexAssociation where
  format : Format
  value : ℤ
deriving DecidableEq, Repr

/-- `GstFluTSIndexEntry`, for an association. -/
structure IndexEntry where
  assocs : List IndexAssociation
deriving DecidableEq, Repr

namespace IndexEntry

/-- `GST_FLUTSINDEX_ASSOC_VALUE`. -/
def assocValue (entry : IndexEntry) (i : ℕ) : ℤ :=
  match entry.assocs[i]? with
  | some assoc => assoc.value
  | none => 0

/-- `gst_flutsindex_entry_assoc_map`. -/
def assocMap (entry : IndexEntry) (format : Format) : Option ℤ :=
  (entry.assocs.find? fun assoc => assoc.format = format).map IndexAssociation.value

end IndexEntry

/-- `GstFluTSMemIndexFormatIndex`: `offset` is the place of the format's value in
the entries. -/
structure MemIndexFormatIndex where
  format : Format
  offset : ℕ
  tree : Tree IndexEntry IndexEntry

/-- `GstFluTSMemIndex`, with the format table of its writer. -/
structure MemIndex where
  formatIndex : Format → Option MemIndexFormatIndex

/-- `GstFluTSIndexLookupMethod`. -/
inductive LookupMethod where
  | exact
  | before
  | after
deriving DecidableEq, Repr

/-- `mem_index_compare`. -/
def memIndexCompare (offset : ℕ) (a b : IndexEntry) : Ordering :=
  let diff := gint64 (b.assocValue offset - a.assocValue offset)
  if diff = 0 then .eq else if 0 < diff then .gt else .lt

/-- `GstFluTSMemIndexSearchData`. -/
structure SearchData where
  value : ℤ
  offset : ℕ
  exact : Bool
  lower : Option IndexEntry
  lowDiff : ℤ
  higher : Option IndexEntry
  highDiff : ℤ

/-- `mem_index_search`. -/
def memIndexSearch (a : IndexEntry) (data : SearchData) : Ordering × SearchData :=
  let diff := gint64 (a.assocValue data.offset - data.value)
  if diff = 0 then (.eq, data)
  -- exact matching, don't update low/high
  else if data.exact then (if 0 < diff then .gt else .lt, data)
  else if diff < 0 then
    (.lt, if data.lowDiff < diff then { data with lowDiff := diff, lower := some a } else data)
  else
    (.gt, if diff < data.highDiff then { data with highDiff := diff, higher := some a } else data)

namespace MemIndex

/-- `gst_flutsmemindex_new`. -/
def new : MemIndex where
  formatIndex _ := none

/-- `gst_flutsmemindex_index_format`. -/
def indexFormat (index : MemIndex) (entry : IndexEntry) (format : Format) (assoc : ℕ) :
    MemIndex :=
  let formatIndex := (index.formatIndex format).getD ⟨format, assoc, .leaf⟩
  { formatIndex := Function.update index.formatIndex format (some { formatIndex with
      tree := formatIndex.tree.insert (memIndexCompare formatIndex.offset) entry entry }) }

/-- `gst_flutsmemindex_add_association`. -/
def addAssociation (index : MemIndex) (entry : IndexEntry) : MemIndex :=
  entry.assocs.zipIdx.foldl (fun index a => index.indexFormat entry a.1.format a.2) index

/-- `gst_flutsmemindex_get_assoc_entry`. -/
def getAssocEntry (index : MemIndex) (method : LookupMethod) (format : Format) (value : ℤ) :
    Option IndexEntry :=
  match index.formatIndex format with
  | none => none
  | some formatIndex =>
    let data : SearchData :=
      { value := value
        offset := formatIndex.offset
        exact := method = .exact
        lower := none
        lowDiff := -2 ^ 63
        higher := none
        highDiff := 2 ^ 63 - 1 }
    match formatIndex.tree.search memIndexSearch data, method with
    | (some entry, _), _ => some entry
    | (none, data), .before => data.lower
    | (none, data), .after => data.higher
    | (none, _), .exact => none

end MemIndex

/-! ## Looking up the nearest entry -/

/-- The index keeps the entries for a format, by their value number `i`. -/
def MemIndex.Sorted (index : MemIndex) (format : Format) (i : ℕ) (entries : List IndexEntry) :
    Prop :=
  ∃ tree, (index.formatIndex format).getD ⟨format, i, .leaf⟩ = ⟨format, i, tree⟩ ∧
    tree.Ordered (fun a b => b.assocValue i < a.assocValue i) ∧
    ∀ x, x ∈ tree.toList ↔ ∃ entry ∈ entries, x = (entry, entry)

/-- A value that is neither negative nor too large for a `gint64`. -/
def InRange (value : ℤ) : Prop := 0 ≤ value ∧ value < 2 ^ 63

/-- The difference to a value in range fits a `gint64`, so that the comparison of the
search is the one of the values. -/
theorem memIndexSearch_inRange {k : IndexEntry} {data : SearchData} {i : ℕ} {value : ℤ}
    (hval : data.value = value) (hoffset : data.offset = i) (hinexact : data.exact = false)
    (hk : InRange (k.assocValue i)) (hvalue : InRange value) :
    memIndexSearch k data =
      if k.assocValue i = value then (.eq, data)
      else if k.assocValue i < value then
        (.lt, if data.lowDiff < k.assocValue i - value then
            { data with lowDiff := k.assocValue i - value, lower := some k } else data)
      else
        (.gt, if k.assocValue i - value < data.highDiff then
            { data with highDiff := k.assocValue i - value, higher := some k } else data) := by
  unfold InRange at hk hvalue
  have hdiff : gint64 (k.assocValue i - value) = k.assocValue i - value :=
    gint64_of_lt (by omega) (by omega)
  have hneg : k.assocValue i - value < 0 ↔ k.assocValue i < value := by omega
  simp only [memIndexSearch, hinexact, hoffset, hval, hdiff, Bool.false_eq_true, if_false,
    Int.sub_eq_zero, hneg]

/-- What a search for `value` has seen, when it has come to the subtree `tree`:
entries that are not in it any more are no match, and of those below the value the
greatest is noted. -/
structure Passed (entries : List IndexEntry) (i : ℕ) (value : ℤ)
    (tree : Tree IndexEntry IndexEntry) (data : SearchData) : Prop where
  value_eq : data.value = value
  offset_eq : data.offset = i
  inexact : data.exact = false
  ordered : tree.Ordered fun a b => b.assocValue i < a.assocValue i
  sub : ∀ x ∈ tree.toList, x.1 ∈ entries ∧ x.2 = x.1
  exact : ∀ e ∈ entries, e.assocValue i = value → (e, e) ∈ tree.toList
  lower : ∀ e ∈ entries, e.assocValue i < value → (e, e) ∈ tree.toList ∨
    ∃ l, data.lower = some l ∧ e.assocValue i ≤ l.assocValue i
  noted : ∀ l, data.lower = some l → l ∈ entries ∧ l.assocValue i < value ∧
    data.lowDiff = l.assocValue i - value
  fresh : data.lower = none → data.lowDiff = -2 ^ 63

namespace Passed

variable {entries : List IndexEntry} {i : ℕ} {value : ℤ} {data data' : SearchData}
  {l r : Tree IndexEntry IndexEntry} {k v : IndexEntry}

theorem search_eq (h : Passed entries i value (.node l k v r) data)
    (hrange : ∀ e ∈ entries, InRange (e.assocValue i)) (hvalue : InRange value) :
    memIndexSearch k data =
      if k.assocValue i = value then (.eq, data)
      else if k.assocValue i < value then
        (.lt, if data.lowDiff < k.assocValue i - value then
            { data with lowDiff := k.assocValue i - value, lower := some k } else data)
      else
        (.gt, if k.assocValue i - value < data.highDiff then
            { data with highDiff := k.assocValue i - value, higher := some k } else data) := by
  have hk := (h.sub (k, v) (Tree.mem_toList_node.mpr (Or.inr (Or.inl rfl)))).1
  exact memIndexSearch_inRange h.value_eq h.offset_eq h.inexact (hrange k hk) hvalue

/-- An entry below the value is noted, and the search goes on among the larger ones. -/
theorem left (h : Passed entries i value (.node l k v r) data)
    (hrange : ∀ e ∈ entries, InRange (e.assocValue i)) (hvalue : InRange value)
    (hdir : memIndexSearch k data = (.lt, data')) : Passed entries i value l data' := by
  have hk := (h.sub (k, v) (Tree.mem_toList_node.mpr (Or.inr (Or.inl rfl)))).1
  have hin := hrange k hk
  rcases Tree.ordered_node.mp h.ordered with ⟨hl, -, hlk, hkr, -⟩
  rw [h.search_eq hrange hvalue] at hdir
  unfold InRange at hin hvalue
  split at hdir
  · cases hdir
  split at hdir
  · rename_i hne hneg
    -- what is not to the left is at most the key
    have hgone : ∀ e, (e, e) ∈ (SearchTree.Tree.node l k v r).toList → (e, e) ∈ l.toList ∨
        e.assocValue i ≤ k.assocValue i := by
      intro e he
      rcases Tree.mem_toList_node.mp he with he | he | he
      · exact Or.inl he
      · rw [(Prod.mk.inj he).1]
        exact Or.inr (Int.le_refl _)
      · exact Or.inr (Int.le_of_lt (hkr _ he))
    have hsub : ∀ x ∈ l.toList, x.1 ∈ entries ∧ x.2 = x.1 :=
      fun x hx => h.sub x (Tree.mem_toList_node.mpr (Or.inl hx))
    have hexact : ∀ e ∈ entries, e.assocValue i = value → (e, e) ∈ l.toList := by
      intro e he heq
      rcases hgone e (h.exact e he heq) with hmem | hle
      · exact hmem
      · omega
    simp only [Prod.mk.injEq, true_and] at hdir
    subst hdir
    by_cases hlow : data.lowDiff < k.assocValue i - value
    · rw [if_pos hlow]
      refine ⟨h.value_eq, h.offset_eq, h.inexact, hl, hsub, hexact, ?_, ?_, ?_⟩
      · intro e he hlt
        rcases h.lower e he hlt with hmem | ⟨l', hl', hle⟩
        · rcases hgone e hmem with hmem | hle
          · exact Or.inl hmem
          · exact Or.inr ⟨k, rfl, hle⟩
        · -- the entry noted before is below the key
          have hdiff := (h.noted l' hl').2.2
          exact Or.inr ⟨k, rfl, by omega⟩
      · intro l' hl'
        cases hl'
        exact ⟨hk, by omega, rfl⟩
      · intro hnone
        cases hnone
    · rw [if_neg hlow]
      refine ⟨h.value_eq, h.offset_eq, h.inexact, hl, hsub, hexact, ?_, h.noted, h.fresh⟩
      intro e he hlt
      rcases h.lower e he hlt with hmem | hnoted
      · rcases hgone e hmem with hmem | hle
        · exact Or.inl hmem
        · cases hlower : data.lower with
          | none =>
              have := h.fresh hlower
              omega
          | some l' =>
              have hdiff := (h.noted l' hlower).2.2
              exact Or.inr ⟨l', rfl, by omega⟩
      · exact Or.inr hnoted
  · cases hdir

/-- An entry above the value is passed, and the search goes on among the smaller
ones. -/
theorem right (h : Passed entries i value (.node l k v r) data)
    (hrange : ∀ e ∈ entries, InRange (e.assocValue i)) (hvalue : InRange value)
    (hdir : memIndexSearch k data = (.gt, data')) : Passed entries i value r data' := by
  rcases Tree.ordered_node.mp h.ordered with ⟨-, hr, hlk, -, -⟩
  rw [h.search_eq hrange hvalue] at hdir
  split at hdir
  · cases hdir
  split at hdir
  · cases hdir
  · rename_i hne hpos
    -- what is not to the right is at least the key
    have hgone : ∀ e, (e, e) ∈ (SearchTree.Tree.node l k v r).toList → (e, e) ∈ r.toList ∨
        value < e.assocValue i := by
      intro e he
      rcases Tree.mem_toList_node.mp he with he | he | he
      · have := hlk _ he
        exact Or.inr (by dsimp only at this; omega)
      · rw [(Prod.mk.inj he).1]
        exact Or.inr (by omega)
      · exact Or.inl he
    have hsame : data'.lower = data.lower ∧ data'.lowDiff = data.lowDiff ∧
        data'.value = value ∧ data'.offset = i ∧ data'.exact = false := by
      simp only [Prod.mk.injEq, true_and] at hdir
      subst hdir
      split
      · exact ⟨rfl, rfl, h.value_eq, h.offset_eq, h.inexact⟩
      · exact ⟨rfl, rfl, h.value_eq, h.offset_eq, h.inexact⟩
    rcases hsame with ⟨hlower, hdiff, hval, hoff, hex⟩
    refine ⟨hval, hoff, hex, hr, ?_, ?_, ?_, ?_, ?_⟩
    · exact fun x hx => h.sub x (Tree.mem_toList_node.mpr (Or.inr (Or.inr hx)))
    · intro e he heq
      rcases hgone e (h.exact e he heq) with hmem | hlt
      · exact hmem
      · omega
    · intro e he hlt
      rw [hlower]
      rcases h.lower e he hlt with hmem | hnoted
      · rcases hgone e hmem with hmem | habs
        · exact Or.inl hmem
        · omega
      · exact Or.inr hnoted
    · rw [hlower, hdiff]
      exact h.noted
    · rw [hlower, hdiff]
      exact h.fresh

end Passed

/-- Of the entries up to the value, the result is the one with the greatest value;
there is no result when there are none. -/
def LastUpTo (entries : List IndexEntry) (i : ℕ) (value : ℤ) : Option IndexEntry → Prop
  | none => ∀ e ∈ entries, value < e.assocValue i
  | some r => r ∈ entries ∧ r.assocValue i ≤ value ∧
      ∀ e ∈ entries, e.assocValue i ≤ value → e.assocValue i ≤ r.assocValue i

section Lookup

variable {entries : List IndexEntry} {i : ℕ} {value : ℤ} {data data' : SearchData}
  {l r : Tree IndexEntry IndexEntry} {k v : IndexEntry}

/-- When nothing is left of the tree, the entry noted is the one to be found. -/
theorem Passed.leaf (h : Passed entries i value .leaf data) :
    LastUpTo entries i value data.lower := by
  have hexact : ∀ e ∈ entries, e.assocValue i ≠ value := by
    intro e he heq
    have := h.exact e he heq
    simp [Tree.toList] at this
  have hlower : ∀ e ∈ entries, e.assocValue i < value →
      ∃ l, data.lower = some l ∧ e.assocValue i ≤ l.assocValue i := by
    intro e he hlt
    rcases h.lower e he hlt with habs | hnoted
    · simp [Tree.toList] at habs
    · exact hnoted
  cases hl : data.lower with
  | none =>
      intro e he
      have := hexact e he
      by_contra hle
      rcases hlower e he (by omega) with ⟨l, hl', -⟩
      rw [hl] at hl'
      cases hl'
  | some l =>
      rcases h.noted l hl with ⟨hmem, hlt, -⟩
      refine ⟨hmem, Int.le_of_lt hlt, ?_⟩
      intro e he hle
      have := hexact e he
      rcases hlower e he (by omega) with ⟨l', hl', hle'⟩
      rw [hl] at hl'
      cases hl'
      exact hle'

/-- The search ends at an entry with the value. -/
theorem Passed.met (h : Passed entries i value (.node l k v r) data)
    (hrange : ∀ e ∈ entries, InRange (e.assocValue i)) (hvalue : InRange value)
    (hdir : memIndexSearch k data = (.eq, data')) : LastUpTo entries i value (some v) := by
  have hsub := h.sub (k, v) (Tree.mem_toList_node.mpr (Or.inr (Or.inl rfl)))
  dsimp only at hsub
  rcases hsub with ⟨hk, rfl⟩
  have hmeet : v.assocValue i = value := by
    by_contra hne
    rw [h.search_eq hrange hvalue, if_neg hne] at hdir
    split at hdir <;> cases hdir
  exact ⟨hk, Int.le_of_eq hmeet, fun e _ hle => by omega⟩

/-- A lookup with `GST_FLUTSINDEX_LOOKUP_BEFORE` is a search of the tree of the format. -/
theorem MemIndex.getAssocEntry_before {index : MemIndex} {format : Format}
    {tree : Tree IndexEntry IndexEntry}
    (h : (index.formatIndex format).getD ⟨format, i, .leaf⟩ = ⟨format, i, tree⟩) :
    let data : SearchData := ⟨value, i, false, none, -2 ^ 63, none, 2 ^ 63 - 1⟩
    index.getAssocEntry .before format value =
      (tree.search memIndexSearch data).1.or (tree.search memIndexSearch data).2.lower := by
  intro data
  unfold getAssocEntry
  cases hformat : index.formatIndex format with
  | none =>
      -- no entry of the format has been added yet
      rw [hformat, Option.getD_none] at h
      cases h
      rfl
  | some formatIndex =>
      rw [hformat, Option.getD_some] at h
      subst h
      dsimp only
      rw [show decide (LookupMethod.before = LookupMethod.exact) = false from rfl,
        show (⟨value, i, false, none, -2 ^ 63, none, 2 ^ 63 - 1⟩ : SearchData) = data from rfl]
      rcases tree.search memIndexSearch data with ⟨_ | e, data'⟩ <;> rfl

/-- A lookup with `GST_FLUTSINDEX_LOOKUP_BEFORE`, whatever the shape of the tree. -/
theorem MemIndex.Sorted.lookup_before {index : MemIndex} {format : Format}
    (h : index.Sorted format i entries) (hrange : ∀ e ∈ entries, InRange (e.assocValue i))
    (hvalue : InRange value) :
    LastUpTo entries i value (index.getAssocEntry .before format value) := by
  rcases h with ⟨tree, hindex, hordered, hentries⟩
  have hstart : Passed entries i value tree
      ⟨value, i, false, none, -2 ^ 63, none, 2 ^ 63 - 1⟩ := by
    refine ⟨rfl, rfl, rfl, hordered, ?_, ?_, ?_, ?_, fun _ => rfl⟩
    · intro x hx
      rcases (hentries x).mp hx with ⟨e, he, rfl⟩
      exact ⟨he, rfl⟩
    · exact fun e he _ => (hentries _).mpr ⟨e, he, rfl⟩
    · exact fun e he _ => Or.inl ((hentries _).mpr ⟨e, he, rfl⟩)
    · intro l hl
      cases hl
  rw [getAssocEntry_before hindex]
  refine Tree.search_rule (P := Passed entries i value)
    (Q := fun r data => LastUpTo entries i value (r.or data.lower)) ?_ ?_ ?_ ?_ hstart
  · intro data hp
    rw [Option.none_or]
    exact hp.leaf
  · intro l k v r data data' hp hdir
    rw [Option.some_or]
    exact hp.met hrange hvalue hdir
  · intro l k v r data data' hp hdir
    exact hp.left hrange hvalue hdir
  · intro l k v r data data' hp hdir
    exact hp.right hrange hvalue hdir

end Lookup

/-! ## Associations of times with byte offsets -/

/-- A time and the byte offset it is at. -/
structure Association where
  time : ℕ
  offset : ℕ
deriving DecidableEq, Repr

namespace Association

/-- The entry that is made of an association. -/
def entry (a : Association) : IndexEntry :=
  ⟨[⟨.time, gint64 a.time⟩, ⟨.bytes, gint64 a.offset⟩]⟩

@[simp] theorem assocMap_time (a : Association) :
    a.entry.assocMap .time = some (gint64 a.time) := by
  simp [IndexEntry.assocMap, entry]

@[simp] theorem assocMap_bytes (a : Association) :
    a.entry.assocMap .bytes = some (gint64 a.offset) := by
  simp [IndexEntry.assocMap, entry]

/-- The association is earlier in both values. -/
def Before (a b : Association) : Prop := a.time < b.time ∧ a.offset < b.offset

/-- Both values are `gint64` values as they are. -/
def Fits (a : Association) : Prop := a.time < 2 ^ 63 ∧ a.offset < 2 ^ 63

theorem Fits.time_eq {a : Association} (h : a.Fits) : a.entry.assocValue 0 = a.time := by
  have := h.1
  simp only [IndexEntry.assocValue, entry, List.getElem?_cons_zero]
  exact gint64_of_lt (by omega) (by omega)

theorem Fits.offset_eq {a : Association} (h : a.Fits) : a.entry.assocValue 1 = a.offset := by
  have := h.2
  simp only [IndexEntry.assocValue, entry, List.getElem?_cons_succ, List.getElem?_cons_zero]
  exact gint64_of_lt (by omega) (by omega)

end Association

/-- The associations are strictly increasing in both time and byte offset, and all
of them fit. -/
structure Increasing (es : List Association) : Prop where
  fits : ∀ e ∈ es, e.Fits
  ascending : es.Pairwise Association.Before

/-- The index keeps exactly these associations. -/
structure MemIndex.Holds (index : MemIndex) (es : List Association) : Prop where
  time : index.Sorted .time 0 (es.map Association.entry)
  bytes : index.Sorted .bytes 1 (es.map Association.entry)

namespace Increasing

variable {es : List Association} {a b : Association}

theorem singleton (h : a.Fits) : Increasing [a] :=
  ⟨by simpa using h, List.pairwise_singleton _ _⟩

theorem pair (ha : a.Fits) (hb : b.Fits) (h : a.Before b) : Increasing [a, b] :=
  ⟨by simp [ha, hb], by simpa using h⟩

/-- Of two associations one is before the other, or they are the same. -/
theorem trichotomy (h : Increasing es) (ha : a ∈ es) (hb : b ∈ es) :
    a.Before b ∨ a = b ∨ b.Before a := by
  let R : Association → Association → Prop := fun a b => a.Before b ∨ a = b ∨ b.Before a
  have hsymm : Std.Symm R := by
    constructor
    rintro x y (hlt | rfl | hgt)
    · exact Or.inr (Or.inr hlt)
    · exact Or.inr (Or.inl rfl)
    · exact Or.inl hgt
  have hsome : es.Pairwise R := h.ascending.imp Or.inl
  exact List.Pairwise.forall_of_forall (R := R) (fun x _ => Or.inr (Or.inl rfl)) hsome ha hb

/-- Times and offsets put the associations into the same order. -/
theorem time_le_iff (h : Increasing es) (ha : a ∈ es) (hb : b ∈ es) :
    a.time ≤ b.time ↔ a.offset ≤ b.offset := by
  rcases h.trichotomy ha hb with ⟨htime, hoffset⟩ | rfl | ⟨htime, hoffset⟩
  · omega
  · exact ⟨fun _ => Nat.le_refl _, fun _ => Nat.le_refl _⟩
  · omega

/-- A time belongs to one association only. -/
theorem eq_of_time_eq (h : Increasing es) (ha : a ∈ es) (hb : b ∈ es) (heq : a.time = b.time) :
    a = b := by
  rcases h.trichotomy ha hb with hlt | hsame | hgt
  · exact absurd hlt.1 (by omega)
  · exact hsame
  · exact absurd hgt.1 (by omega)

/-- So does an offset. -/
theorem eq_of_offset_eq (h : Increasing es) (ha : a ∈ es) (hb : b ∈ es)
    (heq : a.offset = b.offset) : a = b := by
  apply h.eq_of_time_eq ha hb
  apply Nat.le_antisymm
  · exact (h.time_le_iff ha hb).mpr (Nat.le_of_eq heq)
  · exact (h.time_le_iff hb ha).mpr (Nat.le_of_eq heq.symm)

end Increasing

/-! ## Finding associations -/

section Find

variable {index : MemIndex} {es : List Association} {v : ℕ}

/-- A lookup by one of the two values: it finds the last association up to the
value, if there is one. -/
theorem MemIndex.Sorted.find {format : Format} {i : ℕ} {f : Association → ℕ}
    (h : index.Sorted format i (es.map Association.entry))
    (hf : ∀ e ∈ es, e.entry.assocValue i = f e ∧ f e < 2 ^ 63) (hv : v < 2 ^ 63) :
    (∃ k ∈ es, f k ≤ v ∧ (∀ e ∈ es, f e ≤ v → f e ≤ f k) ∧
        index.getAssocEntry .before format v = some k.entry) ∨
      ((∀ e ∈ es, v < f e) ∧ index.getAssocEntry .before format v = none) := by
  have hrange : ∀ e ∈ es.map Association.entry, InRange (e.assocValue i) := by
    intro e he
    rcases List.mem_map.mp he with ⟨a, ha, rfl⟩
    rw [(hf a ha).1]
    exact ⟨by omega, by have := (hf a ha).2; omega⟩
  have hlast := h.lookup_before hrange (show InRange (v : ℤ) from ⟨by omega, by omega⟩)
  have hentry : ∀ e ∈ es, e.entry ∈ es.map Association.entry :=
    fun e he => List.mem_map.mpr ⟨e, he, rfl⟩
  cases hres : index.getAssocEntry .before format v with
  | none =>
      rw [hres] at hlast
      refine Or.inr ⟨?_, rfl⟩
      intro e he
      have := hlast e.entry (hentry e he)
      rw [(hf e he).1] at this
      omega
  | some r =>
      rw [hres] at hlast
      rcases hlast with ⟨hr, hle, hmax⟩
      rcases List.mem_map.mp hr with ⟨k, hk, rfl⟩
      rw [(hf k hk).1] at hle hmax
      refine Or.inl ⟨k, hk, by omega, ?_, rfl⟩
      intro e he hev
      have := hmax e.entry (hentry e he)
      rw [(hf e he).1] at this
      omega

theorem MemIndex.Holds.find_time (h : index.Holds es) (hes : Increasing es) (hv : v < 2 ^ 63) :
    (∃ k ∈ es, k.time ≤ v ∧ (∀ e ∈ es, e.time ≤ v → e.time ≤ k.time) ∧
        index.getAssocEntry .before .time v = some k.entry) ∨
      ((∀ e ∈ es, v < e.time) ∧ index.getAssocEntry .before .time v = none) :=
  h.time.find (f := Association.time)
    (fun e he => ⟨(hes.fits e he).time_eq, (hes.fits e he).1⟩) hv

theorem MemIndex.Holds.find_offset (h : index.Holds es) (hes : Increasing es)
    (hv : v < 2 ^ 63) :
    (∃ k ∈ es, k.offset ≤ v ∧ (∀ e ∈ es, e.offset ≤ v → e.offset ≤ k.offset) ∧
        index.getAssocEntry .before .bytes v = some k.entry) ∨
      ((∀ e ∈ es, v < e.offset) ∧ index.getAssocEntry .before .bytes v = none) :=
  h.bytes.find (f := Association.offset)
    (fun e he => ⟨(hes.fits e he).offset_eq, (hes.fits e he).2⟩) hv

end Find

/-! ## Adding associations -/

namespace MemIndex

variable {index : MemIndex} {format format' : Format} {entry : IndexEntry} {i j : ℕ}
  {entries : List IndexEntry} {es : List Association} {a : Association}

/-- An entry with a new value joins the entries of the format. -/
theorem Sorted.indexFormat (h : index.Sorted format i entries)
    (hrange : ∀ e ∈ entries, InRange (e.assocValue i)) (hentry : InRange (entry.assocValue i))
    (hnew : ∀ e ∈ entries, e.assocValue i ≠ entry.assocValue i) :
    (index.indexFormat entry format i).Sorted format i (entries ++ [entry]) := by
  rcases h with ⟨tree, hindex, hordered, hentries⟩
  -- the comparison tells on which side of the new value an entry is
  have hcmp : ∀ x ∈ tree.toList,
      memIndexCompare i entry x.1 ≠ .eq ∧
      (memIndexCompare i entry x.1 = .lt → x.1.assocValue i < entry.assocValue i) ∧
      (memIndexCompare i entry x.1 = .gt → entry.assocValue i < x.1.assocValue i) := by
    intro x hx
    rcases (hentries x).mp hx with ⟨e, he, rfl⟩
    have hin := hrange e he
    have hne := hnew e he
    unfold InRange at hin hentry
    simp only [memIndexCompare,
      gint64_of_lt (show -2 ^ 63 ≤ e.assocValue i - entry.assocValue i by omega)
        (show e.assocValue i - entry.assocValue i < 2 ^ 63 by omega)]
    rw [if_neg (by omega)]
    split
    · exact ⟨by simp, by simp, fun _ => by omega⟩
    · exact ⟨by simp, fun _ => by omega, by simp⟩
  refine ⟨tree.insert (memIndexCompare i) entry entry, ?_, ?_, ?_⟩
  · simp only [MemIndex.indexFormat, Function.update_self, Option.getD_some, hindex]
  · exact hordered.insert (fun a b c hab hbc => Int.lt_trans hbc hab) (fun x hx => (hcmp x hx).1)
      (fun x hx => (hcmp x hx).2.1) (fun x hx => (hcmp x hx).2.2)
  · intro x
    rw [Tree.mem_toList_insert fun x hx => (hcmp x hx).1, hentries]
    simp only [List.mem_append, List.mem_singleton]
    constructor
    · rintro (rfl | ⟨e, he, rfl⟩)
      · exact ⟨entry, Or.inr rfl, rfl⟩
      · exact ⟨e, Or.inl he, rfl⟩
    · rintro ⟨e, he | rfl, rfl⟩
      · exact Or.inr ⟨e, he, rfl⟩
      · exact Or.inl rfl

/-- The same for the entries of associations, by one of their values. -/
theorem Sorted.indexFormat_map {f : Association → ℕ}
    (h : index.Sorted format i (es.map Association.entry))
    (hf : ∀ e ∈ es ++ [a], e.entry.assocValue i = f e ∧ f e < 2 ^ 63)
    (hlast : ∀ e ∈ es, f e < f a) :
    (index.indexFormat a.entry format i).Sorted format i
      ((es ++ [a]).map Association.entry) := by
  have hrange : ∀ e ∈ es ++ [a], InRange (e.entry.assocValue i) := by
    intro e he
    rw [(hf e he).1]
    exact ⟨by omega, by have := (hf e he).2; omega⟩
  rw [List.map_append]
  refine h.indexFormat ?_ (hrange a (by simp)) ?_
  · intro e he
    rcases List.mem_map.mp he with ⟨b, hb, rfl⟩
    exact hrange b (by simp [hb])
  · intro e he
    rcases List.mem_map.mp he with ⟨b, hb, rfl⟩
    have := hlast b hb
    rw [(hf b (by simp [hb])).1, (hf a (by simp)).1]
    omega

/-- The entries of another format stay. -/
theorem Sorted.indexFormat_of_ne (h : index.Sorted format i entries) (hne : format ≠ format') :
    (index.indexFormat entry format' j).Sorted format i entries := by
  rcases h with ⟨tree, hindex, htree⟩
  refine ⟨tree, ?_, htree⟩
  simp only [MemIndex.indexFormat, Function.update_of_ne hne]
  exact hindex

theorem holds_new : new.Holds [] := by
  constructor <;> exact ⟨.leaf, rfl, by simp [Tree.Ordered, Tree.toList], by simp [Tree.toList]⟩

/-- An association that is later than all others joins them. -/
theorem Holds.addAssociation (h : index.Holds es) (hes : Increasing (es ++ [a])) :
    (index.addAssociation a.entry).Holds (es ++ [a]) := by
  have hlast : ∀ e ∈ es, e.Before a := by
    intro e he
    have hascending := hes.ascending
    rw [List.pairwise_append] at hascending
    exact hascending.2.2 e he a (by simp)
  have hadd : index.addAssociation a.entry =
      (index.indexFormat a.entry .time 0).indexFormat a.entry .bytes 1 := rfl
  rw [hadd]
  constructor
  · exact (h.time.indexFormat_map (f := Association.time)
      (fun e he => ⟨(hes.fits e he).time_eq, (hes.fits e he).1⟩)
      fun e he => (hlast e he).1).indexFormat_of_ne (by simp)
  · exact (h.bytes.indexFormat_of_ne (by simp)).indexFormat_map (f := Association.offset)
      (fun e he => ⟨(hes.fits e he).offset_eq, (hes.fits e he).2⟩)
      fun e he => (hlast e he).2

/-- The index that associations are added to one after the other. -/
def ofAssociations (es : List Association) : MemIndex :=
  es.foldl (fun index a => index.addAssociation a.entry) new

theorem ofAssociations_append (es : List Association) (a : Association) :
    ofAssociations (es ++ [a]) = (ofAssociations es).addAssociation a.entry := by
  rw [ofAssociations, List.foldl_append]
  rfl

/-- When each association is later than the last, the index keeps all of them. -/
theorem holds_of_increasing (hes : Increasing es) : (ofAssociations es).Holds es := by
  induction es using List.reverseRecOn with
  | nil => exact holds_new
  | append_singleton es a ih =>
      rw [ofAssociations_append]
      have hbefore : Increasing es :=
        ⟨fun e he => hes.fits e (by simp [he]), (List.pairwise_append.mp hes.ascending).1⟩
      exact (ih hbefore).addAssociation hes

end MemIndex

end TimeShift
