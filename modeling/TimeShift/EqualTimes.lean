import TimeShift.Indexing
import TimeShift.Seeker

/-!
# Associations with equal times

With a `delta` of zero, the indexer adds associations with equal times. The tree of
times keeps the first of them as the key and the last one as the value; a seek to their
time comes to the value, and one to a later time comes to the key. So a later time
leads to an earlier offset, unless no two associations have equal times
(`seek_later_iff`). `GTree` may have any shape: only the keys and values from left to
right count (`Rebalances`).
-/

namespace TimeShift

open Bytes Machine SearchTree

/-! ## Keys with other values -/

namespace MemIndex

/-- The tree of a format has these keys with their values, from left to right. -/
def Lists (index : MemIndex) (format : Format) (i : ℕ) (xs : List (IndexEntry × IndexEntry)) :
    Prop :=
  ∃ tree, (index.formatIndex format).getD ⟨format, i, .leaf⟩ = ⟨format, i, tree⟩ ∧
    tree.toList = xs

/-- The index has the keys and values of the other one, in trees of any shape. -/
def Rebalances (index index' : MemIndex) : Prop :=
  ∀ format i xs, index'.Lists format i xs → index.Lists format i xs

variable {index index' : MemIndex} {format : Format} {i : ℕ} {value : ℤ}
  {xs pre post : List (IndexEntry × IndexEntry)} {data data' : SearchData}

theorem Rebalances.sorted (h : index.Rebalances index') {entries : List IndexEntry}
    (hsorted : index'.Sorted format i entries) : index.Sorted format i entries := by
  rcases hsorted with ⟨tree', hindex', hordered, hentries⟩
  rcases h format i tree'.toList ⟨tree', hindex', rfl⟩ with ⟨tree, hindex, hlist⟩
  refine ⟨tree, hindex, ?_, ?_⟩
  · unfold Tree.Ordered
    rw [hlist]
    exact hordered
  · rw [hlist]
    exact hentries

/-- Larger values are to the left, and all are in range. -/
structure Descending (xs : List (IndexEntry × IndexEntry)) (i : ℕ) : Prop where
  range : ∀ x ∈ xs, InRange (x.1.assocValue i)
  order : xs.Pairwise fun x y => y.1.assocValue i < x.1.assocValue i

/-- What a search for `value` has seen, with the larger keys `pre` and the smaller keys
`post` left aside: it has noted the greatest one of the latter. -/
structure Seen (i : ℕ) (value : ℤ) (pre post : List (IndexEntry × IndexEntry))
    (data : SearchData) : Prop where
  value_eq : data.value = value
  offset_eq : data.offset = i
  inexact : data.exact = false
  above : ∀ x ∈ pre, value < x.1.assocValue i
  below : ∀ x ∈ post, x.1.assocValue i < value
  lower : data.lower = post.head?.map Prod.fst
  lowDiff : data.lowDiff = post.head?.elim (-2 ^ 63) fun x => x.1.assocValue i - value

variable {l r : List (IndexEntry × IndexEntry)} {x : IndexEntry × IndexEntry}

/-- A smaller key is noted, and left aside with all keys to its right. -/
theorem Seen.left (h : Seen i value pre post data) (hxs : Descending xs i)
    (hvalue : InRange value) (hall : xs = pre ++ l ++ x :: (r ++ post))
    (hdir : memIndexSearch x.1 data = (.lt, data')) :
    Seen i value pre (x :: (r ++ post)) data' := by
  have hx := hxs.range x (by simp [hall])
  have horder := hxs.order
  rw [hall, List.pairwise_append, List.pairwise_cons] at horder
  rcases horder with ⟨-, ⟨hxr, -⟩, -⟩
  rw [memIndexSearch_inRange h.value_eq h.offset_eq h.inexact hx hvalue] at hdir
  split at hdir
  · cases hdir
  split at hdir
  case isFalse => cases hdir
  case isTrue hlt =>
    -- the key noted before is further to the right
    have hlow : data.lowDiff < x.1.assocValue i - value := by
      rw [h.lowDiff]
      cases post with
      | nil =>
          unfold InRange at hx hvalue
          show -2 ^ 63 < x.1.assocValue i - value
          omega
      | cons y post =>
          have hy := hxr y (by simp)
          show y.1.assocValue i - value < _
          omega
    rw [if_pos hlow] at hdir
    cases hdir
    constructor
    · exact h.value_eq
    · exact h.offset_eq
    · exact h.inexact
    · exact h.above
    · intro y hy
      rcases List.mem_cons.mp hy with rfl | hy
      · exact hlt
      · exact Int.lt_trans (hxr y hy) hlt
    · rfl
    · rfl

/-- A larger key is left aside with all keys to its left. -/
theorem Seen.right (h : Seen i value pre post data) (hxs : Descending xs i)
    (hvalue : InRange value) (hall : xs = pre ++ l ++ x :: (r ++ post))
    (hdir : memIndexSearch x.1 data = (.gt, data')) :
    Seen i value (pre ++ l ++ [x]) post data' := by
  have hx := hxs.range x (by simp [hall])
  have horder := hxs.order
  rw [hall, List.pairwise_append] at horder
  rcases horder with ⟨-, -, hbefore⟩
  rw [memIndexSearch_inRange h.value_eq h.offset_eq h.inexact hx hvalue] at hdir
  split at hdir
  · cases hdir
  split at hdir
  · cases hdir
  · rename_i hne hge
    have hsame : data'.value = data.value ∧ data'.offset = data.offset ∧
        data'.exact = data.exact ∧ data'.lower = data.lower ∧ data'.lowDiff = data.lowDiff := by
      simp only [Prod.mk.injEq, true_and] at hdir
      subst hdir
      split
      · exact ⟨rfl, rfl, rfl, rfl, rfl⟩
      · exact ⟨rfl, rfl, rfl, rfl, rfl⟩
    rcases hsame with ⟨hval, hoff, hexact, hlower, hdiff⟩
    constructor
    · exact hval.trans h.value_eq
    · exact hoff.trans h.offset_eq
    · exact hexact.trans h.inexact
    · intro y hy
      rcases List.mem_append.mp hy with hy | hy
      · have := hbefore y hy x (by simp)
        omega
      · cases List.mem_singleton.mp hy
        omega
    · exact h.below
    · exact hlower.trans h.lower
    · exact hdiff.trans h.lowDiff

/-- A lookup comes to the value of the key that it meets, or else to the greatest key
below. -/
theorem Lists.lookup (h : index.Lists format i xs) (hxs : Descending xs i)
    (hvalue : InRange value) :
    (∃ x ∈ xs, x.1.assocValue i = value ∧
        index.getAssocEntry .before format value = some x.2) ∨
      ∃ pre post, xs = pre ++ post ∧ (∀ x ∈ pre, value < x.1.assocValue i) ∧
        (∀ x ∈ post, x.1.assocValue i < value) ∧
        index.getAssocEntry .before format value = post.head?.map Prod.fst := by
  rcases h with ⟨tree, hindex, rfl⟩
  rw [getAssocEntry_before hindex]
  apply Tree.search_between (P := Seen i value)
    (Q := fun res data => (∃ x ∈ tree.toList, x.1.assocValue i = value ∧
        res.or data.lower = some x.2) ∨
      ∃ pre post, tree.toList = pre ++ post ∧ (∀ x ∈ pre, value < x.1.assocValue i) ∧
        (∀ x ∈ post, x.1.assocValue i < value) ∧
        res.or data.lower = post.head?.map Prod.fst)
  · intro pre post data hall hseen
    rw [Option.none_or]
    exact Or.inr ⟨pre, post, hall, hseen.above, hseen.below, hseen.lower⟩
  · intro pre l x r post data data' hall hseen hdir
    rw [Option.some_or]
    have hx : x ∈ tree.toList := by simp [hall]
    refine Or.inl ⟨x, hx, ?_, rfl⟩
    by_contra hne
    rw [memIndexSearch_inRange hseen.value_eq hseen.offset_eq hseen.inexact (hxs.range x hx)
      hvalue, if_neg hne] at hdir
    split at hdir <;> cases hdir
  · intro pre l x r post data data' hall hseen hdir
    exact hseen.left hxs hvalue hall hdir
  · intro pre l x r post data data' hall hseen hdir
    exact hseen.right hxs hvalue hall hdir
  · exact ⟨rfl, rfl, rfl, by simp, by simp, rfl, rfl⟩

end MemIndex

/-! ## The tree of times -/

/-- The keys of the tree of times with their values, the latest first: an association
with the latest time once more becomes the value of its key. -/
def keep (pairs : List (Association × Association)) (a : Association) :
    List (Association × Association) :=
  match pairs with
  | [] => [(a, a)]
  | (k, v) :: rest => if k.time = a.time then (k, a) :: rest else (a, a) :: (k, v) :: rest

/-- The keys with their values, after all associations have been added. -/
def byTime (es : List Association) : List (Association × Association) := es.foldl keep []

/-- The associations are at increasing offsets and times that do not decrease, and all of
them fit. -/
structure Advancing (es : List Association) : Prop where
  fits : ∀ e ∈ es, e.Fits
  offsets : es.Pairwise fun a b => a.offset < b.offset
  times : es.Pairwise fun a b => a.time ≤ b.time

theorem byTime_append (es : List Association) (a : Association) :
    byTime (es ++ [a]) = keep (byTime es) a := by
  rw [byTime, List.foldl_append]
  rfl

/-- What the pairs of a key with its value are like. -/
structure Paired (es : List Association) (pairs : List (Association × Association)) : Prop where
  mem : ∀ p ∈ pairs, p.1 ∈ es ∧ p.2 ∈ es
  same : ∀ p ∈ pairs, p.1.time = p.2.time
  later : pairs.Pairwise fun p q => q.1.time < p.1.time
  latest : ∀ e ∈ es, ∃ p, pairs.head? = some p ∧ e.time ≤ p.1.time
  order : ∀ p ∈ pairs, p.1.offset ≤ p.2.offset
  -- each key is its own value if and only if all times are different
  single : (∀ p ∈ pairs, p.1 = p.2) ↔ es.Pairwise fun a b => a.time ≠ b.time

namespace Advancing

variable {es : List Association} {a : Association}

theorem init (h : Advancing (es ++ [a])) : Advancing es :=
  ⟨fun e he => h.fits e (by simp [he]), (List.pairwise_append.mp h.offsets).1,
    (List.pairwise_append.mp h.times).1⟩

theorem last (h : Advancing (es ++ [a])) : ∀ e ∈ es, e.offset < a.offset ∧ e.time ≤ a.time :=
  fun e he => ⟨(List.pairwise_append.mp h.offsets).2.2 e he a (by simp),
    (List.pairwise_append.mp h.times).2.2 e he a (by simp)⟩

variable {k v : Association} {rest : List (Association × Association)}

/-- The latest time once more: its key gets another value. -/
theorem paired_again (h : Advancing (es ++ [a])) (hpairs : Paired es ((k, v) :: rest))
    (htime : k.time = a.time) : Paired (es ++ [a]) ((k, a) :: rest) := by
  have hk := (hpairs.mem (k, v) (by simp)).1
  have hoffset := (h.last k hk).1
  constructor
  · intro p hp
    rcases List.mem_cons.mp hp with rfl | hp
    · exact ⟨by simp [hk], by simp⟩
    · rcases hpairs.mem p (by simp [hp]) with ⟨hfst, hsnd⟩
      exact ⟨by simp [hfst], by simp [hsnd]⟩
  · intro p hp
    rcases List.mem_cons.mp hp with rfl | hp
    · exact htime
    · exact hpairs.same p (by simp [hp])
  · have hlater := hpairs.later
    rw [List.pairwise_cons] at hlater ⊢
    exact hlater
  · intro e he
    refine ⟨(k, a), rfl, ?_⟩
    rcases List.mem_append.mp he with he | he
    · exact Nat.le_trans (h.last e he).2 (Nat.le_of_eq htime.symm)
    · cases List.mem_singleton.mp he
      exact Nat.le_of_eq htime.symm
  · intro p hp
    rcases List.mem_cons.mp hp with rfl | hp
    · exact Nat.le_of_lt hoffset
    · exact hpairs.order p (by simp [hp])
  · -- there are two associations with the time now
    apply iff_of_false
    · intro hall
      have hsame : k = a := hall (k, a) (by simp)
      rw [hsame] at hoffset
      omega
    · intro hne
      exact (List.pairwise_append.mp hne).2.2 k hk a (by simp) htime

/-- A later time: the association becomes a key of its own. -/
theorem paired_later (h : Advancing (es ++ [a])) (hpairs : Paired es rest)
    (htime : ∀ e ∈ es, e.time < a.time) : Paired (es ++ [a]) ((a, a) :: rest) := by
  constructor
  · intro p hp
    rcases List.mem_cons.mp hp with rfl | hp
    · exact ⟨by simp, by simp⟩
    · rcases hpairs.mem p hp with ⟨hfst, hsnd⟩
      exact ⟨by simp [hfst], by simp [hsnd]⟩
  · intro p hp
    rcases List.mem_cons.mp hp with rfl | hp
    · rfl
    · exact hpairs.same p hp
  · rw [List.pairwise_cons]
    exact ⟨fun p hp => htime p.1 (hpairs.mem p hp).1, hpairs.later⟩
  · intro e he
    refine ⟨(a, a), rfl, ?_⟩
    rcases List.mem_append.mp he with he | he
    · exact (h.last e he).2
    · cases List.mem_singleton.mp he
      exact Nat.le_refl _
  · intro p hp
    rcases List.mem_cons.mp hp with rfl | hp
    · exact Nat.le_refl _
    · exact hpairs.order p hp
  · have hne : ∀ e ∈ es, e.time ≠ a.time := fun e he => Nat.ne_of_lt (htime e he)
    have hsingle := hpairs.single
    rw [List.forall_mem_cons, hsingle, List.pairwise_append]
    constructor
    · rintro ⟨-, hes⟩
      exact ⟨hes, List.pairwise_singleton _ _, by simpa using hne⟩
    · rintro ⟨hes, -, -⟩
      exact ⟨rfl, hes⟩

/-- The pairs of all associations. -/
theorem paired (h : Advancing es) : Paired es (byTime es) := by
  induction es using List.reverseRecOn with
  | nil => constructor <;> simp [byTime]
  | append_singleton es a ih =>
      have hpairs := ih h.init
      have htimes : ∀ e ∈ es, ∀ p, (byTime es).head? = some p → e.time ≤ p.1.time := by
        intro e he p hp
        rcases hpairs.latest e he with ⟨p', hp', hle⟩
        cases hp'.symm.trans hp
        exact hle
      rw [byTime_append]
      unfold keep
      split
      case h_1 hnil =>
        rw [hnil] at hpairs
        apply h.paired_later hpairs
        intro e he
        rcases hpairs.latest e he with ⟨p, hp, -⟩
        cases hp
      case h_2 k v rest hcons =>
        rw [hcons] at hpairs htimes
        have hk := (hpairs.mem (k, v) (by simp)).1
        split
        case isTrue htime => exact h.paired_again hpairs htime
        case isFalse hne =>
          have hle := (h.last k hk).2
          apply h.paired_later hpairs
          intro e he
          have := htimes e he (k, v) rfl
          dsimp only at this
          omega

end Advancing

/-- The entries of a key and its value. -/
def entries (p : Association × Association) : IndexEntry × IndexEntry := (p.1.entry, p.2.entry)

namespace MemIndex

variable {index : MemIndex} {es : List Association} {a : Association}

theorem lists_new : new.Lists .time 0 [] := ⟨.leaf, rfl, rfl⟩

/-- The tree of times does not change when a byte offset is added. -/
theorem Lists.addAssociation {xs xs' : List (IndexEntry × IndexEntry)}
    (h : index.Lists .time 0 xs)
    (hinsert : ∀ tree : Tree IndexEntry IndexEntry, tree.toList = xs →
      (tree.insert (memIndexCompare 0) a.entry a.entry).toList = xs') :
    (index.addAssociation a.entry).Lists .time 0 xs' := by
  rcases h with ⟨tree, hindex, hlist⟩
  have hadd : index.addAssociation a.entry =
      (index.indexFormat a.entry .time 0).indexFormat a.entry .bytes 1 := rfl
  refine ⟨tree.insert (memIndexCompare 0) a.entry a.entry, ?_, hinsert tree hlist⟩
  rw [hadd]
  simp only [indexFormat, Function.update_of_ne (show Format.time ≠ Format.bytes by simp),
    Function.update_self, Option.getD_some, hindex]

/-- The comparison of two entries is that of their times, the larger one first. -/
theorem memIndexCompare_time {k : Association} (ha : a.Fits) (hk : k.Fits) :
    memIndexCompare 0 a.entry k.entry =
      if k.time = a.time then .eq else if a.time < k.time then .gt else .lt := by
  have hka := hk.1
  have haa := ha.1
  have heq : (k.time : ℤ) - a.time = 0 ↔ k.time = a.time := by omega
  have hpos : 0 < (k.time : ℤ) - a.time ↔ a.time < k.time := by omega
  rw [memIndexCompare, hk.time_eq, ha.time_eq, gint64_of_lt (by omega) (by omega)]
  simp only [heq, hpos]

/-- The tree of times has the pairs of the associations added. -/
theorem lists_ofAssociations (h : Advancing es) :
    (ofAssociations es).Lists .time 0 ((byTime es).map entries) := by
  induction es using List.reverseRecOn with
  | nil => exact lists_new
  | append_singleton es a ih =>
      have hpairs := h.init.paired
      have ha := h.fits a (by simp)
      rw [ofAssociations_append, byTime_append]
      apply (ih h.init).addAssociation
      intro tree htree
      -- the keys but the first one are smaller
      have hlt : ∀ p ∈ byTime es, p.1.time ≠ a.time →
          memIndexCompare 0 a.entry p.1.entry = .lt := by
        intro p hp hne
        have hmem := (hpairs.mem p hp).1
        have hle := (h.last p.1 hmem).2
        rw [memIndexCompare_time ha (h.init.fits p.1 hmem), if_neg hne, if_neg (by omega)]
      unfold keep
      split
      case h_1 hnil =>
        have hnone : tree.toList = [] := by
          rw [htree, hnil]
          rfl
        rw [Tree.toList_insert_first (by simp [hnone]), hnone]
        rfl
      case h_2 k v rest hcons =>
        have hk := (hpairs.mem (k, v) (by simp [hcons])).1
        have hkfits := h.init.fits k hk
        have hlater := hpairs.later
        rw [hcons, List.pairwise_cons] at hlater
        have hle := (h.last k hk).2
        split
        case isTrue htime =>
          rw [hcons] at htree
          apply Tree.toList_insert_same htree
          · rw [memIndexCompare_time ha hkfits, if_pos htime]
          · intro x hx
            rcases List.mem_map.mp hx with ⟨p, hp, rfl⟩
            have hless := hlater.1 p hp
            exact hlt p (by simp [hcons, hp]) (by dsimp only at hless; omega)
        case isFalse hne =>
          rw [← hcons, List.map_cons, ← htree]
          apply Tree.toList_insert_first
          rw [htree]
          intro x hx
          rcases List.mem_map.mp hx with ⟨p, hp, rfl⟩
          apply hlt p hp
          rw [hcons] at hp
          rcases List.mem_cons.mp hp with rfl | hp
          · exact hne
          · have hless := hlater.1 p hp
            dsimp only at hless
            omega

/-- The keys are in descending order. -/
theorem descending_byTime (h : Advancing es) : Descending ((byTime es).map entries) 0 := by
  have hpairs := h.paired
  constructor
  · intro x hx
    rcases List.mem_map.mp hx with ⟨p, hp, rfl⟩
    have hfits := h.fits p.1 (hpairs.mem p hp).1
    have hlt := hfits.1
    show InRange (p.1.entry.assocValue 0)
    rw [hfits.time_eq]
    constructor <;> omega
  · rw [List.pairwise_map]
    apply hpairs.later.imp_of_mem
    intro p q hp hq hlt
    show q.1.entry.assocValue 0 < p.1.entry.assocValue 0
    rw [(h.fits p.1 (hpairs.mem p hp).1).time_eq, (h.fits q.1 (hpairs.mem q hq).1).time_eq]
    omega

variable {p : Association × Association}

/-- A lookup of the time of a key comes to its value. -/
theorem lookup_at (h : Advancing es) (hindex : index.Lists .time 0 ((byTime es).map entries))
    (hp : p ∈ byTime es) : index.getAssocEntry .before .time p.1.time = some p.2.entry := by
  have hpairs := h.paired
  have hlt := (h.fits p.1 (hpairs.mem p hp).1).1
  have hentry : ∀ q ∈ byTime es, (entries q).1.assocValue 0 = q.1.time :=
    fun q hq => (h.fits q.1 (hpairs.mem q hq).1).time_eq
  have hmem : entries p ∈ (byTime es).map entries := List.mem_map.mpr ⟨p, hp, rfl⟩
  have hvalue : InRange (p.1.time : ℤ) := by constructor <;> omega
  rcases hindex.lookup (descending_byTime h) hvalue with
    ⟨x, hx, heq, hget⟩ | ⟨pre, post, hall, habove, hbelow, -⟩
  · rcases List.mem_map.mp hx with ⟨q, hq, rfl⟩
    rw [hentry q hq] at heq
    -- no two keys have the same time
    have hsame : q = p := by
      by_contra hne
      have hdiff : (byTime es).Pairwise fun p q => q.1.time ≠ p.1.time :=
        hpairs.later.imp Nat.ne_of_lt
      have hsymm : Std.Symm fun p q : Association × Association => q.1.time ≠ p.1.time :=
        ⟨fun _ _ h => Ne.symm h⟩
      exact hdiff.forall hp hq (Ne.symm hne) (by omega)
    rw [hget, hsame]
    rfl
  · rw [hall] at hmem
    rcases List.mem_append.mp hmem with hmem | hmem
    · have := habove _ hmem
      rw [hentry p hp] at this
      omega
    · have := hbelow _ hmem
      rw [hentry p hp] at this
      omega

/-- A lookup of a time after that of a key, up to the next one, comes to the key. -/
theorem lookup_after (h : Advancing es)
    (hindex : index.Lists .time 0 ((byTime es).map entries)) (hp : p ∈ byTime es) {t : ℕ}
    (ht : t < 2 ^ 63) (hpt : p.1.time < t) (hgap : ∀ e ∈ es, e.time ≤ t → e.time ≤ p.1.time) :
    index.getAssocEntry .before .time t = some p.1.entry := by
  have hpairs := h.paired
  have hentry : ∀ q ∈ byTime es, (entries q).1.assocValue 0 = q.1.time :=
    fun q hq => (h.fits q.1 (hpairs.mem q hq).1).time_eq
  have hmem : entries p ∈ (byTime es).map entries := List.mem_map.mpr ⟨p, hp, rfl⟩
  have hvalue : InRange (t : ℤ) := by constructor <;> omega
  have hdesc := descending_byTime h
  rcases hindex.lookup hdesc hvalue with ⟨x, hx, heq, -⟩ | ⟨pre, post, hall, habove, hbelow, hget⟩
  · rcases List.mem_map.mp hx with ⟨q, hq, rfl⟩
    rw [hentry q hq] at heq
    have := hgap q.1 (hpairs.mem q hq).1 (by omega)
    omega
  · have hpost : entries p ∈ post := by
      rw [hall] at hmem
      rcases List.mem_append.mp hmem with hmem | hmem
      · have := habove _ hmem
        rw [hentry p hp] at this
        omega
      · exact hmem
    cases post with
    | nil => cases hpost
    | cons x post =>
        have hx : x ∈ (byTime es).map entries := by simp [hall]
        rcases List.mem_map.mp hx with ⟨q, hq, rfl⟩
        have horder := hdesc.order
        rw [hall, List.pairwise_append, List.pairwise_cons] at horder
        have hle : q.1.time ≤ p.1.time := by
          have := hbelow (entries q) (by simp)
          rw [hentry q hq] at this
          exact hgap q.1 (hpairs.mem q hq).1 (by omega)
        rw [hget]
        rcases List.mem_cons.mp hpost with heq | hpost
        · rw [← heq]
          rfl
        · -- the keys further to the right are smaller
          have hless := horder.2.1.1 _ hpost
          rw [hentry p hp, hentry q hq] at hless
          omega

end MemIndex

/-! ## Times come in ticks of the clock -/

namespace TsIndexer

variable {ts ts' : TsIndexer} {data : Block UInt8} {added : Option Association} {pcr : ℕ}

/-- A time is the difference of two times on the clock of the references. -/
def OnClock (base time : ℕ) : Prop := ∃ pcr, time + base = mpegtimeToGsttime pcr

/-- Different times are more than 11 microseconds apart. -/
theorem OnClock.apart {base time time' : ℕ} (h : OnClock base time) (h' : OnClock base time') :
    time = time' ∨ time + 11111 ≤ time' ∨ time' + 11111 ≤ time := by
  rcases h with ⟨pcr, hpcr⟩
  rcases h' with ⟨pcr', hpcr'⟩
  unfold mpegtimeToGsttime at hpcr hpcr'
  rcases Nat.lt_trichotomy pcr pcr' with hlt | rfl | hgt
  · omega
  · omega
  · omega

/-- The time of an association that is due has not wrapped around. -/
theorem Timed.onClock (h : ts.Timed) (hpcr : pcr < 2 ^ 33)
    (hdue : (ts.see pcr).isDue ((ts.see pcr).timeOf pcr)) :
    (ts.see pcr).baseTime ≠ clockTimeNone ∧
      OnClock (ts.see pcr).baseTime ((ts.see pcr).timeOf pcr) := by
  have hconv := mpegtimeToGsttime_lt hpcr
  have hlt := (h.timeOf_due hpcr hdue).1
  by_cases hbase : ts.baseTime = clockTimeNone
  · have hsee : (ts.see pcr).baseTime = mpegtimeToGsttime pcr := by
      rw [see_eq]
      exact if_pos hbase
    rw [Timed.timeOf_first hbase, hsee]
    refine ⟨?_, pcr, Nat.zero_add _⟩
    unfold clockTimeNone
    omega
  · have hsee : (ts.see pcr).baseTime = ts.baseTime := by
      rw [see_eq]
      exact if_neg hbase
    have hrange := h.base hbase
    unfold timeOf at hlt ⊢
    rw [hsee] at hlt ⊢
    refine ⟨hbase, pcr, ?_⟩
    unfold guint64 at hlt ⊢
    omega

/-- What a buffer does to the base of the times. -/
structure Based (ts ts' : TsIndexer) (added : Option Association) : Prop where
  kept : ts.baseTime ≠ clockTimeNone → ts'.baseTime = ts.baseTime
  onClock : ∀ a ∈ added, ts'.baseTime ≠ clockTimeNone ∧ OnClock ts'.baseTime a.time

theorem Timed.collectTimeLoop_based (h : ts.Timed) (data : Block UInt8) (offset : ℕ) :
    ∃ ts' added, TsIndexer.collectTimeLoop (data.size + 1) ts data offset = some (ts', added) ∧
      ts.Based ts' added := by
  apply collectTimeLoop_rule (i := 0) (Q := ts.Based)
    (P := fun ts' _ => ts'.Timed ∧ ts'.baseTime = ts.baseTime)
  · rintro ts' _ ⟨-, hbase⟩ -
    exact ⟨fun _ => hbase, by simp⟩
  · rintro ts' i pcr k ⟨htimed, hbase⟩ hpacket - hparse
    have hpcr := parsePcr_lt (Nat.le_trans (by decide) hpacket) hparse
    have hkept : ts'.baseTime ≠ clockTimeNone → (ts'.see pcr).baseTime = ts'.baseTime := by
      intro hsome
      rw [see_eq]
      exact if_neg hsome
    split
    case isTrue hdue =>
      constructor
      · intro hsome
        rw [← hbase] at hsome ⊢
        exact hkept hsome
      · intro a ha
        cases ha
        exact htimed.onClock hpcr hdue
    case isFalse hearly =>
      -- nothing comes too early before the first association
      have hsome : ts'.baseTime ≠ clockTimeNone := by
        intro hnone
        exact hearly (Or.inl ((see_lastTime ts' pcr).trans (htimed.started.mp hnone)))
      exact ⟨htimed.see hsome, (hkept hsome).trans hbase⟩
  · exact ⟨h, rfl⟩
  · exact Nat.lt_succ_self data.size

theorem Timed.collectTime_based (h : ts.Timed) (hc : ts.collectTime data = some (ts', added)) :
    ts.Based ts' added := by
  unfold TsIndexer.collectTime at hc
  split at hc
  · cases hc
    exact ⟨fun _ => rfl, by simp⟩
  · rcases h.collectTimeLoop_based data ts.currentOffset with ⟨ts₁, added₁, hloop, hbased⟩
    rw [hloop] at hc
    cases hc
    exact ⟨hbased.kept, hbased.onClock⟩

end TsIndexer

/-! ## Seeking in the index of a run -/

namespace Indexing

variable {s s' : Indexing}

/-- Moreover, the times of the associations have one base. -/
structure Clocked (s : Indexing) : Prop where
  ordered : s.Ordered
  onClock : ∀ x ∈ s.added, s.ts.baseTime ≠ clockTimeNone ∧
    TsIndexer.OnClock s.ts.baseTime x.association.time

theorem Clocked.of_init : init.Clocked := ⟨.of_init, by simp [init]⟩

theorem Clocked.step (h : s.Clocked) {l : IndexerOp} (hok : deltaNonneg s l)
    (hs : s.step l = some s') : s'.Clocked := by
  have hordered := h.ordered.step hok hs
  cases l with
  | buffer data =>
      rcases step_buffer hs with ⟨added, hcollect, -, -, hadded⟩
      have hbased := h.ordered.timed.collectTime_based hcollect
      refine ⟨hordered, ?_⟩
      intro x hx
      rw [hadded, List.mem_append] at hx
      rcases hx with hx | hx
      · rcases h.onClock x hx with ⟨hsome, hclock⟩
        rw [hbased.kept hsome]
        exact ⟨hsome, hclock⟩
      · rw [Option.mem_toList, Option.map_eq_some_iff] at hx
        rcases hx with ⟨a, ha, rfl⟩
        exact hbased.onClock a ha
  | setPcrPid value =>
      cases hs
      exact ⟨hordered, h.onClock⟩
  | setDelta value =>
      cases hs
      exact ⟨hordered, h.onClock⟩

/-- The associations of a run that fit advance. -/
theorem Ordered.advancing (h : s.Ordered) (hsize : s.ts.currentOffset ≤ 2 ^ 63) :
    Advancing (s.added.map Added.association) := by
  constructor
  · intro e he
    rcases List.mem_map.mp he with ⟨x, hx, rfl⟩
    have htime := h.bounded x hx
    have hoffset := h.passed x hx
    constructor <;> omega
  · rw [List.pairwise_map]
    exact h.ordered.imp fun hfollows => hfollows.1
  · rw [List.pairwise_map]
    exact h.ordered.imp fun hfollows => hfollows.2

end Indexing

section Seek

variable {index : MemIndex} {seeker : Seeker} {es : List Association} {t : ℕ}

/-- A seek goes to the offset of the entry that the lookup finds. -/
theorem Seeker.seek_of_lookup {k : Association} (hindex : seeker.index = some index)
    (hk : k.Fits) (ht : t < 2 ^ 63) (hget : index.getAssocEntry .before .time t = some k.entry)
    (duration : Option ℤ) : seeker.seek .set t duration = k.offset := by
  have hpos : gint64 (guint64 (t : ℤ)) = t := by
    rw [guint64_of_lt (by omega) (by omega), Int.toNat_natCast]
    exact gint64_of_lt (by omega) (by omega)
  have hoffset := hk.2
  simp only [Seeker.seek, hindex, hpos, hget, Association.assocMap_bytes]
  exact gint64_of_lt (by omega) (by omega)

/-- With different times, the associations increase in both values. -/
theorem Advancing.increasing (h : Advancing es)
    (hne : es.Pairwise fun a b => a.time ≠ b.time) : Increasing es := by
  refine ⟨h.fits, ?_⟩
  apply (h.offsets.and (h.times.and hne)).imp
  rintro a b ⟨hoffset, htime, hne⟩
  exact ⟨by omega, hoffset⟩

/-- A later time does not lead to an earlier offset. -/
def SeeksForward (seeker : Seeker) (duration : Option ℤ) : Prop :=
  ∀ t t' : ℕ, t ≤ t' → t' < 2 ^ 63 → 0 ≤ seeker.seek .set t duration →
    seeker.seek .set t duration ≤ seeker.seek .set t' duration

/-- Where different times are at least two apart, seeks are monotone if and only if all
times are different. -/
theorem Advancing.seeksForward_iff (h : Advancing es)
    (hgap : ∀ a ∈ es, ∀ b ∈ es, a.time = b.time ∨ a.time + 2 ≤ b.time ∨ b.time + 2 ≤ a.time)
    (hbound : ∀ a ∈ es, a.time + 1 < 2 ^ 63) (hindex : seeker.index = some index)
    (hshape : index.Rebalances (MemIndex.ofAssociations es)) (duration : Option ℤ) :
    SeeksForward seeker duration ↔ es.Pairwise fun a b => a.time ≠ b.time := by
  have hpairs := h.paired
  have hlists := hshape _ _ _ (MemIndex.lists_ofAssociations h)
  constructor
  · intro hforward
    rw [← hpairs.single]
    intro p hp
    by_contra hne
    rcases hpairs.mem p hp with ⟨hkey, hvalue⟩
    have htime := hpairs.same p hp
    -- the value is at a greater offset than the key
    have hoffset : p.1.offset < p.2.offset := by
      apply Nat.lt_of_le_of_ne (hpairs.order p hp)
      intro hsame
      apply hne
      rcases p with ⟨⟨time, offset⟩, ⟨time', offset'⟩⟩
      simp only at htime hsame
      rw [htime, hsame]
    have hlt := hbound p.1 hkey
    have hat : seeker.seek .set p.1.time duration = p.2.offset :=
      Seeker.seek_of_lookup hindex (h.fits p.2 hvalue) (by omega)
        (MemIndex.lookup_at h hlists hp) duration
    have hafter : seeker.seek .set ((p.1.time + 1 : ℕ) : ℤ) duration = p.1.offset := by
      apply Seeker.seek_of_lookup hindex (h.fits p.1 hkey) (by omega)
      apply MemIndex.lookup_after h hlists hp (by omega) (by omega)
      intro e he hle
      rcases hgap e he p.1 hkey with heq | hlow | hhigh
      · omega
      · omega
      · omega
    have hmono := hforward p.1.time (p.1.time + 1) (by omega) (by omega) (by rw [hat]; omega)
    rw [hat, hafter] at hmono
    omega
  · intro hne t t' hle ht' _
    have hes := h.increasing hne
    have hholds := MemIndex.holds_of_increasing hes
    have hholds' : index.Holds es := ⟨hshape.sorted hholds.time, hshape.sorted hholds.bytes⟩
    exact Seeker.seek_mono hindex hholds' hes duration hle ht'

end Seek

namespace Indexing

variable {s : Indexing} {seeker : Seeker} {index : MemIndex}

/-- In every run with values of `delta` that are not negative, whose byte offsets fit a
`gint64`, and with any shape of the trees: a seek to a later time never leads to an
earlier offset if and only if no two associations have equal times. -/
theorem seek_later_iff (h : Reach step deltaNonneg init s) (hsize : s.ts.currentOffset ≤ 2 ^ 63)
    (hindex : seeker.index = some index) (hshape : index.Rebalances s.ts.index)
    (duration : Option ℤ) :
    SeeksForward seeker duration ↔
      s.added.Pairwise fun x y => x.association.time ≠ y.association.time := by
  have hclocked : s.Clocked :=
    h.invariant .of_init fun _ _ _ hclocked hok hs => hclocked.step hok hs
  rw [hclocked.ordered.index] at hshape
  rw [(hclocked.ordered.advancing hsize).seeksForward_iff ?_ ?_ hindex hshape duration,
    List.pairwise_map]
  · intro a ha b hb
    rcases List.mem_map.mp ha with ⟨x, hx, rfl⟩
    rcases List.mem_map.mp hb with ⟨y, hy, rfl⟩
    have hapart := (hclocked.onClock x hx).2.apart (hclocked.onClock y hy).2
    omega
  · intro a ha
    rcases List.mem_map.mp ha with ⟨x, hx, rfl⟩
    have := hclocked.ordered.bounded x hx
    omega

/-- With the same reference twice, a seek to time 0 leads to offset 188, and one to time 1 to
offset 0. -/
theorem later_seek_lands_earlier :
    ¬∀ (s : Indexing) (seeker : Seeker), Reach step deltaNonneg init s →
      s.ts.currentOffset ≤ 2 ^ 63 → seeker.index = some s.ts.index →
        SeeksForward seeker none := by
  intro hall
  have h₀ : Reach step deltaNonneg init _ := .refl
  have h₁ := h₀.extend (.setPcrPid 0x100) trivial rfl
  have h₂ := h₁.extend (.setDelta 0) ⟨by decide, by decide⟩ rfl
  have h₃ := h₂.extend (.buffer (referencePacket 1)) trivial rfl
  have h₄ := h₃.extend (.buffer (referencePacket 1)) trivial rfl
  have hforward := hall _ ⟨some _, false⟩ h₄ (by decide) rfl
  have hmono := hforward 0 1 (by decide) (by decide) (by decide)
  revert hmono
  decide

/-- With references at different times, later seeks lead to later offsets. -/
theorem seek_later_iff_two : ∃ s, Reach step deltaNonneg init s ∧
    s.added = [⟨⟨0, 0⟩, 0x100⟩, ⟨⟨372827022222, 188⟩, 0x100⟩] ∧
    SeeksForward ⟨some s.ts.index, false⟩ none := by
  have h₀ : Reach step deltaNonneg init _ := .refl
  have h₁ := h₀.extend (.setPcrPid 0x100) trivial rfl
  have h₂ := h₁.extend (.setDelta 0) ⟨by decide, by decide⟩ rfl
  have h₃ := h₂.extend (.buffer (referencePacket 1)) trivial rfl
  have h₄ := h₃.extend (.buffer (referencePacket 2)) trivial rfl
  refine ⟨_, h₄, rfl, (seek_later_iff h₄ (by decide) rfl (fun _ _ _ h => h) none).mpr ?_⟩
  decide

end Indexing

end TimeShift
