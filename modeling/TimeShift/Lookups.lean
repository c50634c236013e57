import Mathlib.Data.List.Sort
import TimeShift.EqualTimes

/-!
# Lookups of all methods

A lookup before a value finds the nearest association up to it, one after it the nearest
one from it on, and an exact one only the association at the value itself: `nearest` says
so for any list in order. The search for a lookup after a value takes the same way through
the tree as the one before it, and notes the larger keys instead of the smaller ones; it
starts with the largest `gint64` as the difference, so that a key at that difference is
never noted. The largest value is left out here for this.

`lookups_nearest` is the result for the index, in trees of any shape. `nearest_self` and
`nearest_between` say what `nearest` comes to.
-/

namespace TimeShift

open SearchTree

/-! ## The nearest of a list -/

section Nearest

variable {α β : Type*} {f : α → ℕ} {v : ℕ} {xs ys : List α} {x : α}

/-- The element of a list in order that is nearest to the value, on the side that the
method says. -/
def nearest (f : α → ℕ) (v : ℕ) : LookupMethod → List α → Option α
  | .exact, xs => xs.find? fun x => f x = v
  | .before, xs => xs.reverse.find? fun x => f x ≤ v
  | .after, xs => xs.find? fun x => v ≤ f x

/-- In a list in order, an element at the value is the nearest one for every method. -/
theorem nearest_self (h : (xs ++ x :: ys).Pairwise fun a b => f a < f b) (method : LookupMethod) :
    nearest f (f x) method (xs ++ x :: ys) = some x := by
  rcases List.pairwise_append.mp h with ⟨-, hys, hxs⟩
  have hbefore : ∀ y ∈ xs, f y < f x := fun y hy => hxs y hy x (by simp)
  have hafter : ∀ y ∈ ys, f x < f y := (List.pairwise_cons.mp hys).1
  cases method with
  | exact =>
      have hnone : (xs.find? fun y => f y = f x) = none := by
        rw [List.find?_eq_none]
        intro y hy
        have := hbefore y hy
        simp only [decide_eq_true_eq]
        omega
      simp [nearest, List.find?_append, hnone]
  | before =>
      have hnone : (ys.reverse.find? fun y => f y ≤ f x) = none := by
        rw [List.find?_eq_none]
        intro y hy
        have := hafter y (List.mem_reverse.mp hy)
        simp only [decide_eq_true_eq]
        omega
      simp [nearest, List.find?_append, hnone]
  | after =>
      have hnone : (xs.find? fun y => f x ≤ f y) = none := by
        rw [List.find?_eq_none]
        intro y hy
        have := hbefore y hy
        simp only [decide_eq_true_eq]
        omega
      simp [nearest, List.find?_append, hnone]

/-- Where the value falls between two parts of a list, the nearest one is at the end of
the first part or at the start of the second one. -/
theorem nearest_between (hxs : ∀ x ∈ xs, f x < v) (hys : ∀ y ∈ ys, v < f y)
    (method : LookupMethod) :
    nearest f v method (xs ++ ys) =
      match method with
      | .exact => none
      | .before => xs.getLast?
      | .after => ys.head? := by
  cases method with
  | exact =>
      show (xs ++ ys).find? _ = none
      rw [List.find?_eq_none]
      intro x hx
      simp only [decide_eq_true_eq]
      rcases List.mem_append.mp hx with hx | hx
      · have := hxs x hx
        omega
      · have := hys x hx
        omega
  | before =>
      have hnone : (ys.reverse.find? fun y => f y ≤ v) = none := by
        rw [List.find?_eq_none]
        intro y hy
        have := hys y (List.mem_reverse.mp hy)
        simp only [decide_eq_true_eq]
        omega
      have hlast : (xs.reverse.find? fun y => f y ≤ v) = xs.getLast? := by
        rw [← List.head?_reverse]
        cases hrev : xs.reverse with
        | nil => rfl
        | cons y rest =>
            have hy : y ∈ xs := by rw [← List.mem_reverse, hrev]; simp
            have hle : f y ≤ v := Nat.le_of_lt (hxs y hy)
            simp [hle]
      simp only [nearest, List.reverse_append, List.find?_append, hnone, Option.none_or, hlast]
  | after =>
      have hnone : (xs.find? fun y => v ≤ f y) = none := by
        rw [List.find?_eq_none]
        intro y hy
        have := hxs y hy
        simp only [decide_eq_true_eq]
        omega
      have hhead : (ys.find? fun y => v ≤ f y) = ys.head? := by
        cases ys with
        | nil => rfl
        | cons y rest =>
            have hle : v ≤ f y := Nat.le_of_lt (hys y (by simp))
            simp [hle]
      simp only [nearest, List.find?_append, hnone, Option.none_or, hhead]

/-- Nothing up to the value is above what is nearest to it. -/
theorem nearest_before_max (h : xs.Pairwise fun a b => f a < f b) (hx : x ∈ xs) (hle : f x ≤ v) :
    ∃ y, nearest f v .before xs = some y ∧ f x ≤ f y ∧ f y ≤ v := by
  have hfound : (xs.reverse.find? fun y => f y ≤ v).isSome := by
    rw [List.find?_isSome]
    exact ⟨x, List.mem_reverse.mpr hx, by simpa using hle⟩
  rcases Option.isSome_iff_exists.mp hfound with ⟨y, hy⟩
  rcases List.find?_eq_some_iff_append.mp hy with ⟨hyv, pre, post, hsplit, hpre⟩
  refine ⟨y, hy, ?_, by simpa using hyv⟩
  have horder : xs.reverse.Pairwise fun a b => f b < f a := List.pairwise_reverse.mpr h
  rw [hsplit, List.pairwise_append, List.pairwise_cons] at horder
  have hmem : x ∈ pre ++ y :: post := by rw [← hsplit]; exact List.mem_reverse.mpr hx
  rcases List.mem_append.mp hmem with habove | hmem
  · have := hpre x habove
    simp only [Bool.not_eq_true', decide_eq_false_iff_not] at this
    exact absurd hle this
  · rcases List.mem_cons.mp hmem with rfl | hbelow
    · exact Nat.le_refl _
    · exact Nat.le_of_lt (horder.2.1.1 x hbelow)

/-- What comes later does not matter to a value before it. -/
theorem nearest_before_snoc (h : v < f x) :
    nearest f v .before (xs ++ [x]) = nearest f v .before xs := by
  have hout : ¬f x ≤ v := Nat.not_le.mpr h
  simp [nearest, hout]

/-- What is nearest is in the list. -/
theorem mem_of_nearest {method : LookupMethod} (h : nearest f v method xs = some x) : x ∈ xs := by
  cases method with
  | exact => exact List.mem_of_find?_eq_some h
  | before => exact List.mem_reverse.mp (List.mem_of_find?_eq_some h)
  | after => exact List.mem_of_find?_eq_some h

end Nearest

/-! ## The three searches -/

namespace MemIndex

variable {index : MemIndex} {format : Format} {i : ℕ} {value : ℤ}
  {xs l r pre post : List (IndexEntry × IndexEntry)} {x : IndexEntry × IndexEntry}
  {data data' : SearchData}

/-- Moreover, a search has noted the smallest one of the larger keys. -/
structure SeenBoth (i : ℕ) (value : ℤ) (pre post : List (IndexEntry × IndexEntry))
    (data : SearchData) : Prop where
  seen : Seen i value pre post data
  higher : data.higher = pre.getLast?.map Prod.fst
  highDiff : data.highDiff = pre.getLast?.elim (2 ^ 63 - 1) fun x => x.1.assocValue i - value

theorem SeenBoth.left (h : SeenBoth i value pre post data) (hxs : Descending xs i)
    (hvalue : InRange value) (hall : xs = pre ++ l ++ x :: (r ++ post))
    (hdir : memIndexSearch x.1 data = (.lt, data')) :
    SeenBoth i value pre (x :: (r ++ post)) data' := by
  have hx := hxs.range x (by simp [hall])
  have hseen := h.seen.left hxs hvalue hall hdir
  rw [memIndexSearch_inRange h.seen.value_eq h.seen.offset_eq h.seen.inexact hx hvalue] at hdir
  have hsame : data'.higher = data.higher ∧ data'.highDiff = data.highDiff := by
    split at hdir
    · cases hdir
    split at hdir
    · simp only [Prod.mk.injEq, true_and] at hdir
      subst hdir
      split <;> exact ⟨rfl, rfl⟩
    · cases hdir
  exact ⟨hseen, hsame.1.trans h.higher, hsame.2.trans h.highDiff⟩

theorem SeenBoth.right (h : SeenBoth i value pre post data) (hxs : Descending xs i)
    (hmax : ∀ x ∈ xs, x.1.assocValue i < 2 ^ 63 - 1) (hvalue : InRange value)
    (hall : xs = pre ++ l ++ x :: (r ++ post))
    (hdir : memIndexSearch x.1 data = (.gt, data')) :
    SeenBoth i value (pre ++ l ++ [x]) post data' := by
  have hx := hxs.range x (by simp [hall])
  have hlt := hmax x (by simp [hall])
  have hseen := h.seen.right hxs hvalue hall hdir
  have horder := hxs.order
  rw [hall, List.pairwise_append] at horder
  rcases horder with ⟨-, -, hbefore⟩
  rw [memIndexSearch_inRange h.seen.value_eq h.seen.offset_eq h.seen.inexact hx hvalue] at hdir
  -- the key noted before is further to the left
  have hhigh : x.1.assocValue i - value < data.highDiff := by
    rw [h.highDiff]
    cases hpre : pre.getLast? with
    | none =>
        unfold InRange at hvalue
        show x.1.assocValue i - value < 2 ^ 63 - 1
        omega
    | some y =>
        have hy := hbefore y (by simp [List.mem_of_getLast? hpre]) x (by simp)
        show _ < y.1.assocValue i - value
        omega
  split at hdir
  · cases hdir
  split at hdir
  · cases hdir
  · cases hdir
    exact ⟨hseen, by simp, by simp⟩

/-- An exact search notes nothing. -/
theorem memIndexSearch_exact {k : IndexEntry} (hval : data.value = value)
    (hoffset : data.offset = i) (hexact : data.exact = true) (hk : InRange (k.assocValue i))
    (hvalue : InRange value) :
    memIndexSearch k data =
      (if k.assocValue i = value then .eq else if value < k.assocValue i then .gt else .lt,
        data) := by
  unfold InRange at hk hvalue
  have hdiff : gint64 (k.assocValue i - value) = k.assocValue i - value :=
    gint64_of_lt (by omega) (by omega)
  have hpos : 0 < k.assocValue i - value ↔ value < k.assocValue i := by omega
  simp only [memIndexSearch, hexact, hoffset, hval, hdiff, if_true, Int.sub_eq_zero, hpos]
  split <;> rfl

/-- Where the search for a value has come to: its place among the keys. -/
def Parts (i : ℕ) (value : ℤ) (pre post : List (IndexEntry × IndexEntry)) : Prop :=
  (∀ x ∈ pre, value < x.1.assocValue i) ∧ ∀ x ∈ post, x.1.assocValue i < value

theorem Parts.left (h : Parts i value pre post) (hxs : Descending xs i)
    (hall : xs = pre ++ l ++ x :: (r ++ post)) (hlt : x.1.assocValue i < value) :
    Parts i value pre (x :: (r ++ post)) := by
  have horder := hxs.order
  rw [hall, List.pairwise_append, List.pairwise_cons] at horder
  rcases horder with ⟨-, ⟨hxr, -⟩, -⟩
  refine ⟨h.1, ?_⟩
  intro y hy
  rcases List.mem_cons.mp hy with rfl | hy
  · exact hlt
  · exact Int.lt_trans (hxr y hy) hlt

theorem Parts.right (h : Parts i value pre post) (hxs : Descending xs i)
    (hall : xs = pre ++ l ++ x :: (r ++ post)) (hgt : value < x.1.assocValue i) :
    Parts i value (pre ++ l ++ [x]) post := by
  have horder := hxs.order
  rw [hall, List.pairwise_append] at horder
  rcases horder with ⟨-, -, hbefore⟩
  refine ⟨?_, h.2⟩
  intro y hy
  rcases List.mem_append.mp hy with hy | hy
  · exact Int.lt_trans hgt (hbefore y hy x (by simp))
  · cases List.mem_singleton.mp hy
    exact hgt

/-- What a lookup comes to in the tree of a format: the value of a key that it meets, or
else one of the keys on either side. -/
def Comes (xs : List (IndexEntry × IndexEntry)) (i : ℕ) (value : ℤ) (method : LookupMethod)
    (res : Option IndexEntry) : Prop :=
  (∃ x ∈ xs, x.1.assocValue i = value ∧ res = some x.2) ∨
    ∃ pre post, xs = pre ++ post ∧ Parts i value pre post ∧
      res = match method with
        | .exact => none
        | .before => post.head?.map Prod.fst
        | .after => pre.getLast?.map Prod.fst

/-- An exact lookup is a search that ignores the notes. -/
theorem getAssocEntry_exact {tree : Tree IndexEntry IndexEntry}
    (h : (index.formatIndex format).getD ⟨format, i, .leaf⟩ = ⟨format, i, tree⟩) :
    index.getAssocEntry .exact format value =
      (tree.search memIndexSearch ⟨value, i, true, none, -2 ^ 63, none, 2 ^ 63 - 1⟩).1 := by
  unfold getAssocEntry
  cases hformat : index.formatIndex format with
  | none =>
      rw [hformat, Option.getD_none] at h
      cases h
      rfl
  | some formatIndex =>
      rw [hformat, Option.getD_some] at h
      subst h
      dsimp only
      rw [show decide (LookupMethod.exact = LookupMethod.exact) = true from rfl]
      rcases tree.search memIndexSearch ⟨value, i, true, none, -2 ^ 63, none, 2 ^ 63 - 1⟩ with
        ⟨_ | e, data'⟩ <;> rfl

/-- A lookup after a value falls back on the larger key that was noted. -/
theorem getAssocEntry_after {tree : Tree IndexEntry IndexEntry}
    (h : (index.formatIndex format).getD ⟨format, i, .leaf⟩ = ⟨format, i, tree⟩) :
    let data : SearchData := ⟨value, i, false, none, -2 ^ 63, none, 2 ^ 63 - 1⟩
    index.getAssocEntry .after format value =
      (tree.search memIndexSearch data).1.or (tree.search memIndexSearch data).2.higher := by
  intro data
  unfold getAssocEntry
  cases hformat : index.formatIndex format with
  | none =>
      rw [hformat, Option.getD_none] at h
      cases h
      rfl
  | some formatIndex =>
      rw [hformat, Option.getD_some] at h
      subst h
      dsimp only
      rw [show decide (LookupMethod.after = LookupMethod.exact) = false from rfl,
        show (⟨value, i, false, none, -2 ^ 63, none, 2 ^ 63 - 1⟩ : SearchData) = data from rfl]
      rcases tree.search memIndexSearch data with ⟨_ | e, data'⟩ <;> rfl

theorem Lists.comes_exact (h : index.Lists format i xs) (hxs : Descending xs i)
    (hvalue : InRange value) :
    Comes xs i value .exact (index.getAssocEntry .exact format value) := by
  rcases h with ⟨tree, hindex, rfl⟩
  rw [getAssocEntry_exact hindex]
  apply Tree.search_between (Q := fun res _ => Comes tree.toList i value .exact res)
    (P := fun pre post data => Parts i value pre post ∧
      data = ⟨value, i, true, none, -2 ^ 63, none, 2 ^ 63 - 1⟩)
  · rintro pre post data hall ⟨hparts, -⟩
    exact Or.inr ⟨pre, post, hall, hparts, rfl⟩
  · rintro pre l x r post data data' hall ⟨-, rfl⟩ hdir
    have hx : x ∈ tree.toList := by simp [hall]
    rw [memIndexSearch_exact rfl rfl rfl (hxs.range x hx) hvalue] at hdir
    refine Or.inl ⟨x, hx, ?_, rfl⟩
    by_contra hne
    rw [if_neg hne] at hdir
    split at hdir <;> cases hdir
  · rintro pre l x r post data data' hall ⟨hparts, rfl⟩ hdir
    have hx : x ∈ tree.toList := by simp [hall]
    rw [memIndexSearch_exact rfl rfl rfl (hxs.range x hx) hvalue] at hdir
    split at hdir
    · cases hdir
    split at hdir
    · cases hdir
    · rename_i hne hle
      cases hdir
      have hlt : x.1.assocValue i < value := by
        dsimp only at hne hle
        omega
      exact ⟨hparts.left hxs hall hlt, rfl⟩
  · rintro pre l x r post data data' hall ⟨hparts, rfl⟩ hdir
    have hx : x ∈ tree.toList := by simp [hall]
    rw [memIndexSearch_exact rfl rfl rfl (hxs.range x hx) hvalue] at hdir
    split at hdir
    · cases hdir
    split at hdir
    · rename_i hgt
      cases hdir
      exact ⟨hparts.right hxs hall hgt, rfl⟩
    · cases hdir
  · exact ⟨⟨by simp, by simp⟩, rfl⟩

theorem Lists.comes_after (h : index.Lists format i xs) (hxs : Descending xs i)
    (hmax : ∀ x ∈ xs, x.1.assocValue i < 2 ^ 63 - 1) (hvalue : InRange value) :
    Comes xs i value .after (index.getAssocEntry .after format value) := by
  rcases h with ⟨tree, hindex, rfl⟩
  rw [getAssocEntry_after hindex]
  apply Tree.search_between (P := SeenBoth i value)
    (Q := fun res data => Comes tree.toList i value .after (res.or data.higher))
  · intro pre post data hall hseen
    rw [Option.none_or]
    exact Or.inr ⟨pre, post, hall, ⟨hseen.seen.above, hseen.seen.below⟩, hseen.higher⟩
  · intro pre l x r post data data' hall hseen hdir
    rw [Option.some_or]
    have hx : x ∈ tree.toList := by simp [hall]
    refine Or.inl ⟨x, hx, ?_, rfl⟩
    by_contra hne
    rw [memIndexSearch_inRange hseen.seen.value_eq hseen.seen.offset_eq hseen.seen.inexact
      (hxs.range x hx) hvalue, if_neg hne] at hdir
    split at hdir <;> cases hdir
  · intro pre l x r post data data' hall hseen hdir
    exact hseen.left hxs hvalue hall hdir
  · intro pre l x r post data data' hall hseen hdir
    exact hseen.right hxs hmax hvalue hall hdir
  · exact ⟨⟨rfl, rfl, rfl, by simp, by simp, rfl, rfl⟩, rfl, rfl⟩

/-- A lookup in a tree of any shape, for each of the methods. -/
theorem Lists.comes (h : index.Lists format i xs) (hxs : Descending xs i)
    (hmax : ∀ x ∈ xs, x.1.assocValue i < 2 ^ 63 - 1) (hvalue : InRange value)
    (method : LookupMethod) :
    Comes xs i value method (index.getAssocEntry method format value) := by
  cases method with
  | exact => exact h.comes_exact hxs hvalue
  | before =>
      rcases h.lookup hxs hvalue with hmet | ⟨pre, post, hall, habove, hbelow, hres⟩
      · exact Or.inl hmet
      · exact Or.inr ⟨pre, post, hall, ⟨habove, hbelow⟩, hres⟩
  | after => exact h.comes_after hxs hmax hvalue

end MemIndex

/-! ## Associations in order -/

namespace MemIndex

variable {index : MemIndex} {format : Format} {i v : ℕ} {es : List Association}
  {f : Association → ℕ}

/-- A key with its value, for an association that is its own. -/
def pairOf (a : Association) : IndexEntry × IndexEntry := (a.entry, a.entry)

/-- The value of the format puts the associations into order. -/
structure OrdersBy (f : Association → ℕ) (i : ℕ) (es : List Association) : Prop where
  value : ∀ e ∈ es, e.entry.assocValue i = f e
  bound : ∀ e ∈ es, f e < 2 ^ 63 - 1
  order : es.Pairwise fun a b => f a < f b

theorem OrdersBy.descending (h : OrdersBy f i es) : Descending (es.reverse.map pairOf) i := by
  constructor
  · intro x hx
    rcases List.mem_map.mp hx with ⟨e, he, rfl⟩
    have he := List.mem_reverse.mp he
    have hlt := h.bound e he
    show InRange (e.entry.assocValue i)
    rw [h.value e he]
    constructor <;> omega
  · rw [List.pairwise_map, List.pairwise_reverse]
    apply h.order.imp_of_mem
    intro a b ha hb hlt
    show a.entry.assocValue i < b.entry.assocValue i
    rw [h.value a ha, h.value b hb]
    omega

/-- The tree of the format lists them, the latest first. -/
theorem OrdersBy.lists (h : OrdersBy f i es)
    (hsorted : index.Sorted format i (es.map Association.entry)) :
    index.Lists format i (es.reverse.map pairOf) := by
  rcases hsorted with ⟨tree, hindex, hordered, hentries⟩
  refine ⟨tree, hindex, ?_⟩
  have hirrefl : Std.Irrefl fun x y : IndexEntry × IndexEntry =>
      y.1.assocValue i < x.1.assocValue i := ⟨fun _ => Int.lt_irrefl _⟩
  apply List.Pairwise.eq_of_mem_iff hordered h.descending.order
  intro x
  rw [hentries]
  simp [pairOf, eq_comm]

/-- A lookup finds the nearest association. -/
theorem OrdersBy.lookup (h : OrdersBy f i es)
    (hsorted : index.Sorted format i (es.map Association.entry)) (hv : v < 2 ^ 63)
    (method : LookupMethod) :
    index.getAssocEntry method format v = (nearest f v method es).map Association.entry := by
  have hmax : ∀ x ∈ es.reverse.map pairOf, x.1.assocValue i < 2 ^ 63 - 1 := by
    intro x hx
    rcases List.mem_map.mp hx with ⟨e, he, rfl⟩
    have he := List.mem_reverse.mp he
    have := h.bound e he
    show e.entry.assocValue i < _
    rw [h.value e he]
    omega
  have hvalue : InRange (v : ℤ) := by constructor <;> omega
  rcases (h.lists hsorted).comes h.descending hmax hvalue method with
    ⟨x, hx, hmeet, hres⟩ | ⟨pre, post, hall, ⟨habove, hbelow⟩, hres⟩
  · -- an association at the value
    rcases List.mem_map.mp hx with ⟨e, he, rfl⟩
    have he := List.mem_reverse.mp he
    replace hmeet : e.entry.assocValue i = v := hmeet
    rw [h.value e he] at hmeet
    have hfe : f e = v := by omega
    rcases List.append_of_mem he with ⟨before, rest, rfl⟩
    have hself := nearest_self h.order method
    rw [hfe] at hself
    rw [hres, hself]
    rfl
  · -- the value falls between two parts
    rcases List.map_eq_append_iff.mp hall with ⟨later, earlier, hsplit, rfl, rfl⟩
    have hes : es = earlier.reverse ++ later.reverse := by
      rw [← List.reverse_append, ← hsplit, List.reverse_reverse]
    have hlater : ∀ e ∈ later.reverse, v < f e := by
      intro e he
      have := habove (pairOf e) (List.mem_map_of_mem (List.mem_reverse.mp he))
      replace this : (v : ℤ) < e.entry.assocValue i := this
      rw [h.value e (by rw [hes]; simp [List.mem_reverse.mp he])] at this
      omega
    have hearlier : ∀ e ∈ earlier.reverse, f e < v := by
      intro e he
      have := hbelow (pairOf e) (List.mem_map_of_mem (List.mem_reverse.mp he))
      replace this : e.entry.assocValue i < (v : ℤ) := this
      rw [h.value e (by rw [hes]; simp [List.mem_reverse.mp he])] at this
      omega
    rw [hres, hes, nearest_between hearlier hlater]
    cases method with
    | exact => rfl
    | before =>
        rw [List.getLast?_reverse, List.head?_map, Option.map_map]
        rfl
    | after =>
        rw [List.head?_reverse, List.getLast?_map, Option.map_map]
        rfl

/-- No value of the associations is the largest `gint64`. -/
def BelowMax (es : List Association) : Prop :=
  ∀ e ∈ es, e.time < 2 ^ 63 - 1 ∧ e.offset < 2 ^ 63 - 1

theorem orders_time (hes : Increasing es) (hmax : BelowMax es) :
    OrdersBy Association.time 0 es :=
  ⟨fun e he => (hes.fits e he).time_eq, fun e he => (hmax e he).1,
    hes.ascending.imp fun h => h.1⟩

theorem orders_offset (hes : Increasing es) (hmax : BelowMax es) :
    OrdersBy Association.offset 1 es :=
  ⟨fun e he => (hes.fits e he).offset_eq, fun e he => (hmax e he).2,
    hes.ascending.imp fun h => h.2⟩

/-- The tree of offsets has all associations, also those at equal times. -/
theorem sorted_bytes (h : Advancing es) :
    (ofAssociations es).Sorted .bytes 1 (es.map Association.entry) := by
  induction es using List.reverseRecOn with
  | nil => exact holds_new.bytes
  | append_singleton es a ih =>
      rw [ofAssociations_append]
      exact ((ih h.init).indexFormat_of_ne (by simp)).indexFormat_map (f := Association.offset)
        (fun e he => ⟨(h.fits e he).offset_eq, (h.fits e he).2⟩) fun e he => (h.last e he).1

/-- A lookup of an offset finds the last association up to it. -/
theorem lookup_bytes (h : Advancing es) (hmax : ∀ e ∈ es, e.offset < 2 ^ 63 - 1)
    (hv : v < 2 ^ 63) : (ofAssociations es).getAssocEntry .before .bytes v =
      (nearest Association.offset v .before es).map Association.entry :=
  OrdersBy.lookup ⟨fun e he => (h.fits e he).offset_eq, hmax, h.offsets⟩ (sorted_bytes h) hv
    .before

/-- What a lookup of a time finds is an association up to it. -/
theorem lookup_time (h : Advancing es) (hv : v < 2 ^ 63) {entry : IndexEntry}
    (hget : (ofAssociations es).getAssocEntry .before .time v = some entry) :
    ∃ k ∈ es, k.time ≤ v ∧ entry = k.entry := by
  have hvalue : InRange (v : ℤ) := by constructor <;> omega
  have hpairs := h.paired
  rcases (lists_ofAssociations h).lookup (descending_byTime h) hvalue with
    ⟨x, hx, heq, hfound⟩ | ⟨pre, post, hall, -, hbelow, hfound⟩
  · -- the value of the key with this time
    rcases List.mem_map.mp hx with ⟨p, hp, rfl⟩
    rcases hpairs.mem p hp with ⟨hkey, hmem⟩
    have hkeyTime : p.1.entry.assocValue 0 = v := heq
    rw [(h.fits p.1 hkey).time_eq] at hkeyTime
    have hsame := hpairs.same p hp
    cases hfound.symm.trans hget
    exact ⟨p.2, hmem, by omega, rfl⟩
  · -- the key before the time
    cases post with
    | nil =>
        rw [hget] at hfound
        cases hfound
    | cons x post =>
        have hx : x ∈ (byTime es).map entries := by simp [hall]
        rcases List.mem_map.mp hx with ⟨p, hp, rfl⟩
        have hkey := (hpairs.mem p hp).1
        have hlt : p.1.entry.assocValue 0 < v := hbelow (entries p) (by simp)
        rw [(h.fits p.1 hkey).time_eq] at hlt
        cases hfound.symm.trans hget
        exact ⟨p.1, hkey, by omega, rfl⟩

/-- After increasing associations have been added, and with any shape of the trees, a
lookup of any method by either value finds the nearest association on the side that the
method says; in particular every association is found exactly, by its time and by its
offset. -/
theorem lookups_nearest (hes : Increasing es) (hmax : BelowMax es)
    (hshape : index.Rebalances (ofAssociations es)) (method : LookupMethod) (hv : v < 2 ^ 63) :
    index.getAssocEntry method .time v =
        (nearest Association.time v method es).map Association.entry ∧
      index.getAssocEntry method .bytes v =
        (nearest Association.offset v method es).map Association.entry := by
  have hholds := holds_of_increasing hes
  constructor
  · exact (orders_time hes hmax).lookup (hshape.sorted hholds.time) hv method
  · exact (orders_offset hes hmax).lookup (hshape.sorted hholds.bytes) hv method

/-- Two associations: a time between them leads to the second one when it is looked up
after. -/
theorem lookups_nearest_pair :
    (ofAssociations [⟨0, 0⟩, ⟨500, 2000⟩]).getAssocEntry .after .time (1 : ℕ) =
      some (Association.entry ⟨500, 2000⟩) := by
  have hes : Increasing [⟨0, 0⟩, ⟨500, 2000⟩] :=
    .pair ⟨by decide, by decide⟩ ⟨by decide, by decide⟩ ⟨by decide, by decide⟩
  have hlookup := lookups_nearest (v := 1) hes (by simp [BelowMax]) (fun _ _ _ h => h) .after
    (by decide)
  exact hlookup.1

end MemIndex

end TimeShift
