import Mathlib.Data.List.Basic

/-!
# Search trees

A binary tree of keys with values. The user of the tree brings a comparison for
inserting, and for searching a function that is shown one key after the other on
the way down: it says where to go on, and may keep notes in a state of its own.
How a tree is balanced does not matter for what a search finds; `Ordered` is all
that it relies on.

* `search_rule` is the induction rule for a search: `P t s` says what holds when
  the search has come to the subtree `t` with the notes `s`;
* `search_between` is the same rule with the lists of keys that the search has left on
  either side;
* `Ordered.insert` and `mem_toList_insert` say what inserting a new key does, and
  `toList_insert_first` and `toList_insert_same` what inserting in front does;
* `insert_map` and `search_map` carry insertions and searches over to a tree whose keys
  have lost what the comparison and the search do not look at.
-/

namespace SearchTree

variable {κ ν σ : Type*}

/-- A binary tree of keys with values. -/
inductive Tree (κ ν : Type*) where
  | leaf
  | node (left : Tree κ ν) (key : κ) (value : ν) (right : Tree κ ν)

namespace Tree

/-- The keys with their values, from left to right. -/
def toList : Tree κ ν → List (κ × ν)
  | leaf => []
  | node l k v r => l.toList ++ (k, v) :: r.toList

/-- The keys are in the order `r` from left to right. -/
def Ordered (r : κ → κ → Prop) (t : Tree κ ν) : Prop := t.toList.Pairwise fun a b => r a.1 b.1

/-- Walk down from the root: left on `.lt`, right on `.gt`, until `.eq`. -/
def search (dir : κ → σ → Ordering × σ) : Tree κ ν → σ → Option ν × σ
  | leaf, s => (none, s)
  | node l k v r, s =>
    match dir k s with
    | (.eq, s) => (some v, s)
    | (.lt, s) => l.search dir s
    | (.gt, s) => r.search dir s

/-- Insert a key with its value. An equal key stays, and gets the new value. -/
def insert (cmp : κ → κ → Ordering) (key : κ) (value : ν) : Tree κ ν → Tree κ ν
  | leaf => node leaf key value leaf
  | node l k v r =>
    match cmp key k with
    | .eq => node l k value r
    | .lt => node (l.insert cmp key value) k v r
    | .gt => node l k v (r.insert cmp key value)

variable {r : κ → κ → Prop} {cmp : κ → κ → Ordering} {key : κ} {value : ν}

theorem ordered_node {l t : Tree κ ν} {k : κ} {v : ν} :
    Ordered r (node l k v t) ↔ Ordered r l ∧ Ordered r t ∧ (∀ x ∈ l.toList, r x.1 k) ∧
      (∀ y ∈ t.toList, r k y.1) ∧ ∀ x ∈ l.toList, ∀ y ∈ t.toList, r x.1 y.1 := by
  simp only [Ordered, toList, List.pairwise_append, List.pairwise_cons, List.mem_cons]
  constructor
  · rintro ⟨hl, ⟨hk, ht⟩, hlt⟩
    exact ⟨hl, ht, fun x hx => hlt x hx (k, v) (Or.inl rfl), hk,
      fun x hx y hy => hlt x hx y (Or.inr hy)⟩
  · rintro ⟨hl, ht, hlk, hk, hlt⟩
    refine ⟨hl, ⟨hk, ht⟩, ?_⟩
    rintro x hx y (rfl | hy)
    · exact hlk x hx
    · exact hlt x hx y hy

theorem mem_toList_node {l t : Tree κ ν} {k : κ} {v : ν} {x : κ × ν} :
    x ∈ (node l k v t).toList ↔ x ∈ l.toList ∨ x = (k, v) ∨ x ∈ t.toList := by
  simp [toList]

/-- The rule for a search. -/
theorem search_rule {dir : κ → σ → Ordering × σ} {P : Tree κ ν → σ → Prop}
    {Q : Option ν → σ → Prop} (hleaf : ∀ s, P leaf s → Q none s)
    (heq : ∀ l k v r s s', P (node l k v r) s → dir k s = (.eq, s') → Q (some v) s')
    (hlt : ∀ l k v r s s', P (node l k v r) s → dir k s = (.lt, s') → P l s')
    (hgt : ∀ l k v r s s', P (node l k v r) s → dir k s = (.gt, s') → P r s')
    {t : Tree κ ν} {s : σ} (h : P t s) : Q (t.search dir s).1 (t.search dir s).2 := by
  induction t generalizing s with
  | leaf => exact hleaf s h
  | node l k v r ihl ihr =>
      rw [search]
      split
      · rename_i s' hdir
        exact heq l k v r s s' h hdir
      · rename_i s' hdir
        exact ihl (hlt l k v r s s' h hdir)
      · rename_i s' hdir
        exact ihr (hgt l k v r s s' h hdir)

/-! ## Inserting a new key -/

theorem mem_toList_insert {t : Tree κ ν} (hnew : ∀ x ∈ t.toList, cmp key x.1 ≠ .eq)
    {x : κ × ν} : x ∈ (t.insert cmp key value).toList ↔ x = (key, value) ∨ x ∈ t.toList := by
  induction t with
  | leaf => simp [insert, toList]
  | node l k v t ihl iht =>
      rw [insert]
      split
      · rename_i hcmp
        exact absurd hcmp (hnew (k, v) (mem_toList_node.mpr (Or.inr (Or.inl rfl))))
      · rw [mem_toList_node, ihl fun y hy => hnew y (mem_toList_node.mpr (Or.inl hy)),
          mem_toList_node, or_assoc]
      · rw [mem_toList_node, iht fun y hy => hnew y (mem_toList_node.mpr (Or.inr (Or.inr hy))),
          mem_toList_node, or_left_comm (b := x = (key, value)),
          or_left_comm (b := x = (key, value))]

/-- A tree stays in order when a new key is inserted where the comparison puts it. -/
theorem Ordered.insert {t : Tree κ ν} (h : Ordered r t)
    (htrans : ∀ a b c, r a b → r b c → r a c) (hnew : ∀ x ∈ t.toList, cmp key x.1 ≠ .eq)
    (hlt : ∀ x ∈ t.toList, cmp key x.1 = .lt → r key x.1)
    (hgt : ∀ x ∈ t.toList, cmp key x.1 = .gt → r x.1 key) :
    Ordered r (t.insert cmp key value) := by
  induction t with
  | leaf => simp [Tree.insert, Ordered, toList]
  | node l k v t ihl iht =>
      rcases ordered_node.mp h with ⟨hl, ht, hlk, hkt, hlt'⟩
      have hinl : ∀ x ∈ l.toList, x ∈ (node l k v t).toList :=
        fun x hx => mem_toList_node.mpr (Or.inl hx)
      have hint : ∀ x ∈ t.toList, x ∈ (node l k v t).toList :=
        fun x hx => mem_toList_node.mpr (Or.inr (Or.inr hx))
      have hroot : (k, v) ∈ (node l k v t).toList := mem_toList_node.mpr (Or.inr (Or.inl rfl))
      have hnewl : ∀ x ∈ l.toList, cmp key x.1 ≠ .eq := fun x hx => hnew x (hinl x hx)
      have hnewt : ∀ x ∈ t.toList, cmp key x.1 ≠ .eq := fun x hx => hnew x (hint x hx)
      rw [Tree.insert]
      split
      · rename_i hcmp
        exact absurd hcmp (hnew (k, v) hroot)
      · -- the key goes to the left
        rename_i hcmp
        have hkey := hlt (k, v) hroot hcmp
        refine ordered_node.mpr ⟨ihl hl hnewl (fun x hx => hlt x (hinl x hx))
          (fun x hx => hgt x (hinl x hx)), ht, ?_, hkt, ?_⟩
        · intro x hx
          rcases (mem_toList_insert hnewl).mp hx with rfl | hx
          · exact hkey
          · exact hlk x hx
        · intro x hx y hy
          rcases (mem_toList_insert hnewl).mp hx with rfl | hx
          · exact htrans _ _ _ hkey (hkt y hy)
          · exact hlt' x hx y hy
      · -- the key goes to the right
        rename_i hcmp
        have hkey := hgt (k, v) hroot hcmp
        refine ordered_node.mpr ⟨hl, iht ht hnewt (fun x hx => hlt x (hint x hx))
          (fun x hx => hgt x (hint x hx)), hlk, ?_, ?_⟩
        · intro y hy
          rcases (mem_toList_insert hnewt).mp hy with rfl | hy
          · exact hkey
          · exact hkt y hy
        · intro x hx y hy
          rcases (mem_toList_insert hnewt).mp hy with rfl | hy
          · exact htrans _ _ _ (hlk x hx) hkey
          · exact hlt' x hx y hy

/-! ## Inserting in front -/

/-- A key before all others ends up in front of them. -/
theorem toList_insert_first {t : Tree κ ν} (h : ∀ x ∈ t.toList, cmp key x.1 = .lt) :
    (t.insert cmp key value).toList = (key, value) :: t.toList := by
  induction t with
  | leaf => rfl
  | node l k v t ihl iht =>
      have hroot := h (k, v) (mem_toList_node.mpr (Or.inr (Or.inl rfl)))
      have hleft := ihl fun x hx => h x (mem_toList_node.mpr (Or.inl hx))
      simp only [insert, hroot, toList, hleft, List.cons_append]

/-- The first key once more stays, and gets the new value. -/
theorem toList_insert_same {t : Tree κ ν} {k : κ} {v : ν} {rest : List (κ × ν)}
    (ht : t.toList = (k, v) :: rest) (hkey : cmp key k = .eq)
    (hrest : ∀ x ∈ rest, cmp key x.1 = .lt) :
    (t.insert cmp key value).toList = (k, value) :: rest := by
  induction t generalizing rest with
  | leaf => cases ht
  | node l k' v' t ihl iht =>
      rw [toList] at ht
      cases hl : l.toList with
      | nil =>
          rw [hl, List.nil_append] at ht
          cases ht
          simp only [insert, hkey, toList, hl, List.nil_append]
      | cons x l' =>
          rw [hl, List.cons_append] at ht
          cases ht
          have hroot := hrest (k', v') (by simp)
          have hleft := ihl hl fun x hx => hrest x (by simp [hx])
          simp only [insert, hroot, toList, hleft, List.cons_append]

/-! ## What a search leaves on either side -/

/-- The rule for a search that keeps account of what it has passed: `P pre post s` says
what holds with the notes `s` when all between `pre` and `post` is still to be searched. -/
theorem search_between {t : Tree κ ν} {dir : κ → σ → Ordering × σ}
    {P : List (κ × ν) → List (κ × ν) → σ → Prop} {Q : Option ν → σ → Prop} {s : σ}
    (hleaf : ∀ pre post s, t.toList = pre ++ post → P pre post s → Q none s)
    (heq : ∀ pre l x r post s s', t.toList = pre ++ l ++ x :: (r ++ post) → P pre post s →
      dir x.1 s = (.eq, s') → Q (some x.2) s')
    (hlt : ∀ pre l x r post s s', t.toList = pre ++ l ++ x :: (r ++ post) → P pre post s →
      dir x.1 s = (.lt, s') → P pre (x :: (r ++ post)) s')
    (hgt : ∀ pre l x r post s s', t.toList = pre ++ l ++ x :: (r ++ post) → P pre post s →
      dir x.1 s = (.gt, s') → P (pre ++ l ++ [x]) post s')
    (h : P [] [] s) : Q (t.search dir s).1 (t.search dir s).2 := by
  apply search_rule
    (P := fun u s => ∃ pre post, t.toList = pre ++ u.toList ++ post ∧ P pre post s)
  · rintro s ⟨pre, post, hall, hP⟩
    exact hleaf pre post s (by simpa [toList] using hall) hP
  · rintro l k v r s s' ⟨pre, post, hall, hP⟩ hdir
    exact heq pre l.toList (k, v) r.toList post s s' (by simpa [toList] using hall) hP hdir
  · rintro l k v r s s' ⟨pre, post, hall, hP⟩ hdir
    have hall : t.toList = pre ++ l.toList ++ (k, v) :: (r.toList ++ post) := by
      simpa [toList] using hall
    exact ⟨pre, _, hall, hlt pre l.toList (k, v) r.toList post s s' hall hP hdir⟩
  · rintro l k v r s s' ⟨pre, post, hall, hP⟩ hdir
    have hall : t.toList = pre ++ l.toList ++ (k, v) :: (r.toList ++ post) := by
      simpa [toList] using hall
    exact ⟨_, post, by simpa using hall,
      hgt pre l.toList (k, v) r.toList post s s' hall hP hdir⟩
  · exact ⟨[], [], by simp, h⟩

/-! ## Trees with other keys -/

section Map

variable {κ' ν' σ' : Type*}

/-- The tree with other keys and values in the same places. -/
def map (f : κ → κ') (g : ν → ν') : Tree κ ν → Tree κ' ν'
  | leaf => leaf
  | node l k v r => node (l.map f g) (f k) (g v) (r.map f g)

theorem toList_map (f : κ → κ') (g : ν → ν') (t : Tree κ ν) :
    (t.map f g).toList = t.toList.map fun x => (f x.1, g x.2) := by
  induction t with
  | leaf => rfl
  | node l k v t ihl iht => simp [map, toList, ihl, iht]

/-- A comparison that does not tell a key from its image inserts in the same place. -/
theorem insert_map {f : κ → κ'} {g : ν → ν'} {cmp' : κ' → κ' → Ordering}
    (hcmp : ∀ a b, cmp' (f a) (f b) = cmp a b) (t : Tree κ ν) :
    (t.map f g).insert cmp' (f key) (g value) = (t.insert cmp key value).map f g := by
  induction t with
  | leaf => rfl
  | node l k v t ihl iht =>
      rw [map, insert, insert, hcmp]
      split
      · rfl
      · rw [ihl]
        rfl
      · rw [iht]
        rfl

/-- A search that does not tell them apart, with notes that are images too, takes the same
way. -/
theorem search_map {f : κ → κ'} {g : ν → ν'} {h : σ → σ'} {dir : κ → σ → Ordering × σ}
    {dir' : κ' → σ' → Ordering × σ'}
    (hdir : ∀ k s, dir' (f k) (h s) = ((dir k s).1, h (dir k s).2)) (t : Tree κ ν) (s : σ) :
    (t.map f g).search dir' (h s) = ((t.search dir s).1.map g, h (t.search dir s).2) := by
  induction t generalizing s with
  | leaf => rfl
  | node l k v t ihl iht =>
      rw [map, search, search, hdir]
      rcases dir k s with ⟨_ | _ | _, s'⟩
      · exact ihl s'
      · rfl
      · exact iht s'

end Map

/-- What holds of all keys and of all values holds after an insertion, whether the key is
new or not. -/
theorem forall_insert {P : κ → Prop} {Q : ν → Prop} {t : Tree κ ν}
    (h : ∀ x ∈ t.toList, P x.1 ∧ Q x.2) (hkey : P key) (hvalue : Q value) :
    ∀ x ∈ (t.insert cmp key value).toList, P x.1 ∧ Q x.2 := by
  induction t with
  | leaf =>
      intro x hx
      rw [insert, toList, toList, List.nil_append, List.mem_singleton] at hx
      rw [hx]
      exact ⟨hkey, hvalue⟩
  | node l k v t ihl iht =>
      have hl : ∀ x ∈ l.toList, P x.1 ∧ Q x.2 := fun x hx => h x (mem_toList_node.mpr (Or.inl hx))
      have hroot := h (k, v) (mem_toList_node.mpr (Or.inr (Or.inl rfl)))
      have ht : ∀ x ∈ t.toList, P x.1 ∧ Q x.2 :=
        fun x hx => h x (mem_toList_node.mpr (Or.inr (Or.inr hx)))
      intro x hx
      rw [insert] at hx
      split at hx
      · rcases mem_toList_node.mp hx with hx | rfl | hx
        · exact hl x hx
        · exact ⟨hroot.1, hvalue⟩
        · exact ht x hx
      · rcases mem_toList_node.mp hx with hx | rfl | hx
        · exact ihl hl x hx
        · exact hroot
        · exact ht x hx
      · rcases mem_toList_node.mp hx with hx | rfl | hx
        · exact hl x hx
        · exact hroot
        · exact iht ht x hx

end Tree

end SearchTree
