import Mathlib.Data.List.Find
import TimeShift.WriterIndex

/-!
# Lookups with flags

An index that is writable at its first use keeps every entry that is added under its id,
in the trees as in the list (`Registered`, which is about any fact that holds of the empty
index and is kept when an entry is added).

* `lookups_refine`: without flags, it finds what an index without writers finds, to which
  the same entries have been added and whose trees have taken the same shapes;
* `flagged_nearest`: with flags, and for increasing associations, it finds the nearest entry
  that has them. When there is none on that side, the walk ends at the oldest or the newest
  entry, which is then found although it does not have the flags.
-/

namespace TimeShift

open Machine SearchTree

/-! ## Shapes -/

namespace MemIndex

variable {index index' : MemIndex}

/-- The trees have the same keys and values in another shape. -/
def Reshapes (index' index : MemIndex) : Prop :=
  ∀ format, (index'.formatIndex format).map
      (fun index => (index.format, index.offset, index.tree.toList)) =
    (index.formatIndex format).map fun index => (index.format, index.offset, index.tree.toList)

theorem Reshapes.rebalances (h : index'.Reshapes index) : index'.Rebalances index := by
  rintro format i xs ⟨tree, hindex, hxs⟩
  have hsame := h format
  unfold Lists
  cases hold : index.formatIndex format with
  | none =>
      rw [hold, Option.map_none] at hsame
      rw [Option.map_eq_none_iff.mp hsame]
      rw [hold] at hindex
      exact ⟨tree, hindex, hxs⟩
  | some old =>
      rw [hold, Option.map_some] at hsame
      rcases Option.map_eq_some_iff.mp hsame with ⟨new, hnew, heq⟩
      simp only [Prod.mk.injEq] at heq
      rcases heq with ⟨hformat, hoffset, hlist⟩
      rw [hold, Option.getD_some] at hindex
      subst hindex
      rw [hnew, Option.getD_some]
      refine ⟨new.tree, ?_, hlist.trans hxs⟩
      cases new
      dsimp only at hformat hoffset ⊢
      rw [hformat, hoffset]

end MemIndex

namespace MemIndexId

variable {idIndex idIndex' : MemIndexId}

theorem Reshapes.toMemIndex (h : idIndex'.Reshapes idIndex) :
    idIndex'.toMemIndex.Reshapes idIndex.toMemIndex := by
  intro format
  have hsame := congrArg (Option.map fun x => (x.1, x.2.1, x.2.2.map fun p : AssociationEntry ×
    AssociationEntry => (p.1.entry, p.2.entry))) (h format)
  simp only [Option.map_map] at hsame
  unfold MemIndexId.toMemIndex
  dsimp only
  rw [Option.map_map, Option.map_map]
  simpa only [Function.comp_def, Tree.toList_map] using hsame

/-- The empty index has one shape only. -/
theorem Reshapes.of_new (h : idIndex'.Reshapes idIndex) (hnew : idIndex.toMemIndex = .new) :
    idIndex'.toMemIndex = .new := by
  have hnone : ∀ format, idIndex.formatIndex format = none := by
    intro format
    have hformat := congrFun (congrArg MemIndex.formatIndex hnew) format
    exact Option.map_eq_none_iff.mp hformat
  unfold MemIndexId.toMemIndex MemIndex.new
  congr 1
  funext format
  have hsame := h format
  rw [hnone format, Option.map_none] at hsame
  rw [Option.map_eq_none_iff.mp hsame]
  rfl

end MemIndexId

namespace FluTSIndex

variable {s s' : FluTSIndex} {P : List IndexEntry → MemIndex → Prop}

/-! ## Runs of an index that is writable at its first use -/

/-- The fact is true of the empty index, and stays true when an entry is added. -/
structure Grows (P : List IndexEntry → MemIndex → Prop) : Prop where
  new : P [] MemIndex.new
  add : ∀ es index e, P es index → P (es ++ [e]) (index.addAssociation e)

/-- The fact is about the entries that have been added, and the trees of the id. -/
structure Registered (P : List IndexEntry → MemIndex → Prop) (s : FluTSIndex) : Prop where
  sound : s.Sound
  fresh : s.id = -1 → s.writable = true ∧
    ∀ idIndex, s.idIndex 1 = some idIndex → idIndex.toMemIndex = .new
  table : s.id ≠ -1 → ∃ idIndex, s.idIndex 1 = some idIndex ∧ P s.kept idIndex.toMemIndex

namespace Registered

theorem of_new : new.Registered P := by
  refine ⟨.of_new, fun _ => ⟨rfl, ?_⟩, fun h => absurd rfl h⟩
  intro idIndex h
  cases h

/-- The table of the id 1, before and after an id is added. -/
theorem idIndex_addId (s : FluTSIndex) (id : ℤ) :
    (s.addId id).idIndex 1 = s.idIndex 1 ∨
      (s.idIndex 1 = none ∧ (s.addId id).idIndex 1 = some ⟨1, fun _ => none⟩) := by
  rcases s.addId_cases id with hsame | ⟨-, hnone, hadd⟩
  · rw [hsame]
    exact Or.inl rfl
  · rw [hadd]
    by_cases hid : id = 1
    · subst hid
      exact Or.inr ⟨hnone, by simp⟩
    · exact Or.inl (Function.update_of_ne (Ne.symm hid) _ _)

theorem addId (h : s.Registered P) (id : ℤ) : (s.addId id).Registered P := by
  rcases s.addId_same id with ⟨hwritable, hassocs, hid⟩
  refine ⟨h.sound.addId id, ?_, ?_⟩
  · intro hfresh
    rw [hid] at hfresh
    rcases h.fresh hfresh with ⟨hwrite, hnew⟩
    refine ⟨hwritable.trans hwrite, ?_⟩
    intro idIndex hindex
    rcases idIndex_addId s id with hsame | ⟨-, hblank⟩
    · exact hnew idIndex (hsame ▸ hindex)
    · rw [hblank] at hindex
      cases hindex
      rfl
  · intro hused
    rw [hid] at hused
    rcases h.table hused with ⟨idIndex, hindex, hP⟩
    rcases idIndex_addId s id with hsame | ⟨hnone, -⟩
    · refine ⟨idIndex, hsame.trans hindex, ?_⟩
      unfold kept
      rw [hassocs]
      exact hP
    · rw [hindex] at hnone
      cases hnone

theorem getId (h : s.Registered P) (hP : Grows P) : s.getId.Registered P := by
  rcases h.sound.getId_cases with ⟨-, hsame⟩ | ⟨hfresh, hnone, hfirst⟩
  · rw [hsame]
    exact h
  · refine ⟨h.sound.getId, ?_, fun _ => ?_⟩
    · intro hid
      rw [h.sound.getId_same.1] at hid
      cases hid
    · rcases h.fresh hfresh with ⟨hwrite, hnew⟩
      have hkept : s.getId.kept = [] := by
        unfold kept
        rw [h.sound.getId_same.2.2, hnone]
        rfl
      have hindex : s.getId.idIndex 1 = (s.addId 1).idIndex 1 := by rw [hfirst]
      rw [hkept, hindex]
      cases hold : s.idIndex 1 with
      | none =>
          refine ⟨⟨1, fun _ => none⟩, ?_, hP.new⟩
          unfold FluTSIndex.addId memIndexAddId
          rw [if_neg (by rw [hwrite]; decide), hold]
          simp
      | some idIndex =>
          refine ⟨idIndex, ?_, hnew idIndex hold ▸ hP.new⟩
          rcases idIndex_addId s 1 with hsame | ⟨habs, -⟩
          · rw [hsame, hold]
          · rw [hold] at habs
            cases habs

theorem memIndexAddAssociation (h : s.Registered P) (hP : Grows P) {entry : AssociationEntry}
    (hid : entry.id = s.id) (hused : s.id ≠ -1) (haddress : entry.address = s.associations.length) :
    (s.memIndexAddAssociation entry).Registered P := by
  have hsound := h.sound.memIndexAddAssociation hid hused haddress
  have hone := h.sound.used hused
  rcases h.table hused with ⟨idIndex, hindex, hfact⟩
  have hentry : s.idIndex entry.id = some idIndex := by rw [hid, hone, hindex]
  have hadd : s.memIndexAddAssociation entry =
      { s with
        associations := entry :: s.associations
        idIndex := Function.update s.idIndex entry.id (some (idIndex.addAssociation entry)) } := by
    rw [memIndexAddAssociation_eq, hentry]
  refine ⟨hsound, ?_, ?_⟩
  · intro hfresh
    rw [hadd] at hfresh
    exact absurd hfresh hused
  · intro _
    rw [hadd]
    refine ⟨idIndex.addAssociation entry, ?_, ?_⟩
    · dsimp only
      rw [hid, hone, Function.update_self]
    · rw [MemIndexId.toMemIndex_addAssociation]
      have hkept : ({ s with
          associations := entry :: s.associations
          idIndex := Function.update s.idIndex entry.id
            (some (idIndex.addAssociation entry)) } : FluTSIndex).kept =
          s.kept ++ [entry.entry] := by
        unfold kept
        simp
      rw [hkept]
      exact hP.add _ _ _ hfact

theorem step (h : s.Registered P) (hP : Grows P) {l : IndexOp} (hok : s.usedFirst l)
    (hshape : ∀ id x es index index', l = .rebalance id x → P es index →
      index'.Reshapes index → P es index') (hs : s.step l = some s') : s'.Registered P := by
  have hsound := h.sound.step hok.1 hs
  cases l with
  | add flags list =>
      cases hs
      have hused := h.getId hP
      rcases h.sound.addAssociationv_cases flags list with hsame | ⟨-, hadd⟩
      · rw [hsame]
        exact hused
      · rw [hadd]
        rcases h.sound.getId_same with ⟨hid, -, hassocs⟩
        exact hused.memIndexAddAssociation hP hid.symm (by rw [hid]; decide) (by rw [hassocs])
  | addId id =>
      cases hs
      exact h.addId id
  | lookup method flags format value =>
      cases hs
      rw [getAssocEntry_fst]
      exact h.getId hP
  | setWritable writable =>
      cases hs
      exact ⟨hsound, fun hfresh => absurd hfresh (hok.2 writable rfl), h.table⟩
  | rebalance id idIndex' =>
      cases hs
      rcases hok.1 with ⟨idIndex, hindex, hreshapes⟩
      refine ⟨hsound, ?_, ?_⟩
      · intro hfresh
        rcases h.fresh hfresh with ⟨hwrite, hnew⟩
        refine ⟨hwrite, ?_⟩
        intro x hx
        dsimp only at hx
        by_cases hid : id = 1
        · subst hid
          rw [Function.update_self] at hx
          cases hx
          exact hreshapes.of_new (hnew idIndex hindex)
        · rw [Function.update_of_ne (Ne.symm hid)] at hx
          exact hnew x hx
      · intro hused
        rcases h.table hused with ⟨x, hx, hfact⟩
        by_cases hid : id = 1
        · subst hid
          cases hindex.symm.trans hx
          exact ⟨idIndex', by simp, hshape _ _ _ _ _ rfl hfact hreshapes.toMemIndex⟩
        · exact ⟨x, (Function.update_of_ne (Ne.symm hid) _ _).trans hx, hfact⟩

end Registered

/-! ## Lookups without flags -/

theorem hasFlags_zero (entry : AssociationEntry) : entry.hasFlags 0 = true := by
  simp [AssociationEntry.hasFlags]

/-- Where the table of the id is known, a lookup is one in its trees, and then a matter of
flags. -/
theorem Registered.getAssocEntry_snd (h : s.Registered P) (hP : Grows P) :
    ∃ idIndex, s.getId.idIndex 1 = some idIndex ∧ P s.kept idIndex.toMemIndex ∧
      idIndex.Within s.associations ∧ ∀ method flags format value,
        (s.getAssocEntry method flags format value).2 =
          s.getId.memIndexGetAssocEntry 1 method flags format value := by
  have hused := h.getId hP
  rcases h.sound.getId_same with ⟨hid, -, hassocs⟩
  rcases hused.table (by rw [hid]; decide) with ⟨idIndex, hindex, hfact⟩
  refine ⟨idIndex, hindex, ?_, ?_, ?_⟩
  · have hkept : s.getId.kept = s.kept := by
      unfold kept
      rw [hassocs]
    rw [← hkept]
    exact hfact
  · rw [← hassocs]
    exact hused.sound.within 1 idIndex hindex
  · intro method flags format value
    unfold getAssocEntry
    dsimp only
    rw [hid]
    rfl

end FluTSIndex

/-- An index without ids and writers, and the entries that have been added to it. -/
structure PlainIndex where
  index : MemIndex
  added : List IndexEntry

inductive PlainOp where
  | add (entry : IndexEntry)
  | rebalance (index : MemIndex)

namespace PlainIndex

def new : PlainIndex := ⟨.new, []⟩

def step (s : PlainIndex) : PlainOp → Option PlainIndex
  | .add entry => some ⟨s.index.addAssociation entry, s.added ++ [entry]⟩
  | .rebalance index => some ⟨index, s.added⟩

/-- As for the index with writers. -/
def reshaping (s : PlainIndex) : PlainOp → Prop
  | .add _ => True
  | .rebalance index => index.Reshapes s.index

/-- The index is one to which these entries have been added. -/
def Runs (es : List IndexEntry) (index : MemIndex) : Prop :=
  Reach step reshaping new ⟨index, es⟩

theorem grows_runs : FluTSIndex.Grows Runs :=
  ⟨.refl, fun _ _ e h => Reach.extend h (.add e) trivial rfl⟩

end PlainIndex

namespace FluTSIndex

variable {s : FluTSIndex}

/-- In every run that does not make the index read-only before its first use, with entries
of any formats and values, and whatever the shapes that its trees are given on the way: the
trees of its id, with what they know of the entries, are those of an index without writers
in a run that adds the same entries, and a lookup without flags finds what a lookup finds
there. -/
theorem lookups_refine (h : Reach step usedFirst new s) :
    ∃ index, Reach PlainIndex.step PlainIndex.reshaping .new ⟨index, s.kept⟩ ∧
      (s.getId.idIndex 1).map MemIndexId.toMemIndex = some index ∧
      ∀ method format value,
        (s.getAssocEntry method 0 format value).2.map AssociationEntry.entry =
          index.getAssocEntry method format value := by
  have hregistered : s.Registered PlainIndex.Runs := by
    refine h.invariant .of_new ?_
    intro s l s' hs hok hstep
    exact hs.step PlainIndex.grows_runs hok
      (fun _ _ _ _ index' _ hruns hshape => Reach.extend hruns (.rebalance index') hshape rfl) hstep
  rcases hregistered.getAssocEntry_snd PlainIndex.grows_runs with
    ⟨idIndex, hindex, hruns, -, hget⟩
  refine ⟨idIndex.toMemIndex, hruns, by rw [hindex, Option.map_some], ?_⟩
  intro method format value
  rw [hget, ← MemIndexId.getAssocEntry_toMemIndex]
  unfold memIndexGetAssocEntry
  rw [hindex]
  dsimp only
  cases idIndex.getAssocEntry method format value with
  | none => rfl
  | some entry =>
      dsimp only
      rw [hasFlags_zero, if_pos rfl]

/-- An entry of bytes, as the `i`-th one. -/
def bytesEntry (i : ℕ) (value : ℤ) : AssociationEntry := ⟨i, 1, 0, ⟨[⟨.bytes, value⟩]⟩⟩

/-- The tree of three ascending entries, as `g_tree_insert` balances it. -/
def balanced : MemIndexId where
  id := 1
  formatIndex := Function.update (fun _ => none) .bytes (some ⟨.bytes, 0,
    .node (.node .leaf (bytesEntry 2 30) (bytesEntry 2 30) .leaf) (bytesEntry 1 20)
      (bytesEntry 1 20) (.node .leaf (bytesEntry 0 10) (bytesEntry 0 10) .leaf)⟩)

/-- Three ascending entries, behind the last of which the tree is balanced. -/
theorem lookups_refine_bytes : ∃ s index, Reach step usedFirst new s ∧ s.kept.length = 3 ∧
    Reach PlainIndex.step PlainIndex.reshaping .new ⟨index, s.kept⟩ ∧
    (s.getId.idIndex 1).map MemIndexId.toMemIndex = some index ∧
    (s.getAssocEntry .before 0 .bytes 25).2.map AssociationEntry.entry =
      index.getAssocEntry .before .bytes 25 := by
  have h₀ : Reach step usedFirst new _ := .refl
  have h₁ := h₀.extend (.add 0 [⟨.bytes, 10⟩]) ⟨trivial, by simp⟩ rfl
  have h₂ := h₁.extend (.add 0 [⟨.bytes, 20⟩]) ⟨trivial, by simp⟩ rfl
  have h₃ := h₂.extend (.add 0 [⟨.bytes, 30⟩]) ⟨trivial, by simp⟩ rfl
  have h₄ := h₃.extend (.rebalance 1 balanced)
    ⟨⟨_, rfl, by intro format; cases format <;> rfl⟩, by simp⟩ rfl
  rcases lookups_refine h₄ with ⟨index, hruns, htrees, hlookups⟩
  exact ⟨_, index, h₄, rfl, hruns, htrees, hlookups .before .bytes 25⟩

end FluTSIndex

/-! ## The walk along the list -/

section Walk

variable {fits fits' : AssociationEntry → Bool} {q : AssociationEntry → Bool}
  {zs : List AssociationEntry} {entry e : AssociationEntry}

/-- The walk ends at the first entry that fits, or else at the last one. -/
theorem walk_eq (fits : AssociationEntry → Bool) (entry : Option AssociationEntry)
    (zs : List AssociationEntry) :
    FluTSIndex.walk fits entry zs = ((zs.find? fits).or zs.getLast?).or entry := by
  induction zs generalizing entry with
  | nil => rfl
  | cons e rest ih =>
      rw [FluTSIndex.walk]
      split
      · rename_i hfits
        rw [List.find?_cons_of_pos hfits]
        rfl
      · rename_i hfits
        rw [ih, List.find?_cons_of_neg hfits, List.getLast?_cons]
        cases rest.find? fits with
        | some x => rfl
        | none => cases rest.getLast? <;> rfl

/-- From an entry on: the first entry that fits, among those for which a condition holds,
when it holds from this entry on only. -/
theorem walk_from (haddress : zs.Pairwise fun a b => a.address ≠ b.address)
    (hrest : zs.Pairwise fun a b => q a → q b) (hfind : zs.find? q = some e)
    (hfits : ∀ x ∈ zs, fits x = fits' x) :
    FluTSIndex.walk fits none (zs.dropWhile fun x => x.address ≠ e.address) =
      ((zs.filter fits').find? q).or zs.getLast? := by
  rcases List.find?_eq_some_iff_append.mp hfind with ⟨hq, before, after, rfl, hbefore⟩
  rw [List.pairwise_append, List.pairwise_cons] at haddress hrest
  have hdrop : (before ++ e :: after).dropWhile (fun x => x.address ≠ e.address) = e :: after := by
    rw [List.dropWhile_append_of_pos, List.dropWhile_cons_of_neg (by simp)]
    intro x hx
    simpa using haddress.2.2 x hx e (by simp)
  have hafter : ∀ x ∈ e :: after, q x = true := by
    intro x hx
    rcases List.mem_cons.mp hx with rfl | hx
    · exact hq
    · exact hrest.2.1.1 x hx hq
  have hnone : before.find? (fun x => fits' x && q x) = none := by
    rw [List.find?_eq_none]
    intro x hx
    have := hbefore x hx
    simp_all
  have hsome : (e :: after).find? (fun x => fits' x && q x) = (e :: after).find? fits := by
    apply List.find?_congr
    intro x hx
    rw [hafter x hx, Bool.and_true, hfits x (by simp only [List.mem_append]; exact Or.inr hx)]
  rw [hdrop, walk_eq, Option.or_none, List.find?_filter, List.find?_append]
  simp only [Bool.decide_and, Bool.decide_eq_true]
  rw [hnone, hsome, Option.none_or, List.getLast?_append]
  cases hlast : (e :: after).getLast? with
  | none => simp at hlast
  | some x => rfl

/-- What is found first is found first among those that fit, when it does. -/
theorem find?_filter_of_find? (hfind : zs.find? q = some e) (hfits : fits e = true) :
    (zs.filter fits).find? q = some e := by
  rcases List.find?_eq_some_iff_append.mp hfind with ⟨hq, before, after, rfl, hbefore⟩
  rw [List.filter_append, List.filter_cons_of_pos hfits]
  apply List.find?_eq_some_iff_append.mpr
  refine ⟨hq, _, _, rfl, ?_⟩
  intro x hx
  exact hbefore x (List.mem_filter.mp hx).1

end Walk

/-! ## Lookups with flags -/

section Nearest

variable {α β : Type*} {f f' : α → ℕ} {v : ℕ} {xs : List α}

theorem nearest_map (g : β → α) (method : LookupMethod) (ys : List β) :
    nearest f v method (ys.map g) = (nearest (fun y => f (g y)) v method ys).map g := by
  cases method with
  | exact => exact List.find?_map
  | before =>
      show (ys.map g).reverse.find? _ = _
      rw [← List.map_reverse]
      exact List.find?_map
  | after => exact List.find?_map

theorem nearest_congr (h : ∀ x ∈ xs, f x = f' x) (method : LookupMethod) :
    nearest f v method xs = nearest f' v method xs := by
  cases method with
  | exact => exact List.find?_congr fun x hx => by rw [h x hx]
  | before => exact List.find?_congr fun x hx => by rw [h x (List.mem_reverse.mp hx)]
  | after => exact List.find?_congr fun x hx => by rw [h x hx]

/-- Elements at different values are told apart by them. -/
theorem eq_of_value_eq (h : xs.Pairwise fun a b => f a < f b) :
    ∀ a ∈ xs, ∀ b ∈ xs, f a = f b → a = b := by
  intro a ha b hb heq
  have hsymm : Std.Symm fun a b : α => f a = f b → a = b :=
    ⟨fun _ _ h heq => (h heq.symm).symm⟩
  exact List.Pairwise.forall_of_forall (R := fun a b : α => f a = f b → a = b)
    (fun _ _ _ => rfl) (h.imp fun hlt heq => absurd heq (Nat.ne_of_lt hlt)) ha hb heq

end Nearest

/-- What a lookup with flags finds among entries in order: where there is a nearest one, the
nearest one that has the flags, or else an entry at the end of the list. -/
def flaggedNearest (f : AssociationEntry → ℕ) (v : ℕ) (method : LookupMethod)
    (flags : BitVec 32) (entries : List AssociationEntry) : Option AssociationEntry :=
  (nearest f v method entries).bind fun _ =>
    (nearest f v method (entries.filter fun e => e.hasFlags flags)).or
      (match method with
        | .exact => none
        | .before => entries.head?
        | .after => entries.getLast?)

namespace FluTSIndex

variable {s : FluTSIndex} {f : AssociationEntry → ℕ} {v : ℕ} {flags : BitVec 32}
  {idIndex : MemIndexId} {format : Format} {value : ℤ}

/-- What the walk from the nearest entry comes to. -/
theorem Sound.flagged (h : s.Sound) (hused : s.id = 1)
    (hindex : s.idIndex 1 = some idIndex)
    (horder : s.associations.reverse.Pairwise fun a b => f a < f b) (method : LookupMethod)
    (hget : idIndex.getAssocEntry method format value =
      nearest f v method s.associations.reverse) :
    s.memIndexGetAssocEntry 1 method flags format value =
      flaggedNearest f v method flags s.associations.reverse := by
  have hfits : ∀ e ∈ s.associations,
      (decide (e.id = 1) && e.hasFlags flags) = e.hasFlags flags := by
    intro e he
    rw [h.ids e he, hused]
    rfl
  have haddress : s.associations.Pairwise fun a b => a.address ≠ b.address :=
    h.addresses.imp fun hlt => Nat.ne_of_gt hlt
  unfold memIndexGetAssocEntry flaggedNearest
  rw [hindex]
  dsimp only
  rw [hget]
  cases hnearest : nearest f v method s.associations.reverse with
  | none => rfl
  | some entry =>
      dsimp only [Option.bind_some]
      have hmem := mem_of_nearest hnearest
      cases method with
      | exact =>
          have hfind : s.associations.reverse.find? (fun e => f e = v) = some entry := hnearest
          have hvalue : f entry = v := by simpa using List.find?_some hfind
          show _ = ((s.associations.reverse.filter _).find? fun e => f e = v).or none
          rw [Option.or_none]
          by_cases hhas : entry.hasFlags flags = true
          · rw [if_pos hhas, find?_filter_of_find? hfind hhas]
          · rw [if_neg hhas, if_pos rfl]
            symm
            rw [List.find?_eq_none]
            intro e he heq
            rcases List.mem_filter.mp he with ⟨he, hhas'⟩
            have hsame := eq_of_value_eq horder e he entry hmem (by simp at heq; omega)
            exact hhas (hsame ▸ hhas')
      | before =>
          have hfind : s.associations.find? (fun e => f e ≤ v) = some entry := by
            have : s.associations.reverse.reverse.find? (fun e => f e ≤ v) = some entry := hnearest
            rwa [List.reverse_reverse] at this
          have hrest : s.associations.Pairwise fun a b => f a ≤ v → f b ≤ v := by
            rw [List.pairwise_reverse] at horder
            exact horder.imp fun hlt hle => by omega
          have hwalk := walk_from haddress (by simpa using hrest) hfind hfits
          show _ = ((s.associations.reverse.filter _).reverse.find? fun e => f e ≤ v).or
            s.associations.reverse.head?
          rw [← List.filter_reverse, List.reverse_reverse, List.head?_reverse]
          by_cases hhas : entry.hasFlags flags = true
          · rw [if_pos hhas, find?_filter_of_find? hfind hhas]
            rfl
          · rw [if_neg hhas, if_neg (by decide)]
            exact hwalk
      | after =>
          have hfind : s.associations.reverse.find? (fun e => v ≤ f e) = some entry := hnearest
          have hrest : s.associations.reverse.Pairwise fun a b => v ≤ f a → v ≤ f b :=
            horder.imp fun hlt hle => by omega
          have haddress' : s.associations.reverse.Pairwise fun a b => a.address ≠ b.address := by
            rw [List.pairwise_reverse]
            exact haddress.imp Ne.symm
          have hwalk := walk_from haddress' (by simpa using hrest) hfind
            fun e he => hfits e (List.mem_reverse.mp he)
          show _ = ((s.associations.reverse.filter _).find? fun e => v ≤ f e).or
            s.associations.reverse.getLast?
          by_cases hhas : entry.hasFlags flags = true
          · rw [if_pos hhas, find?_filter_of_find? hfind hhas]
            rfl
          · rw [if_neg hhas, if_neg (by decide)]
            exact hwalk

/-- The list of the walk has no other entries than those of the index. -/
theorem mem_walkFrom {method : LookupMethod} {entry e : AssociationEntry}
    (h : e ∈ s.walkFrom method entry) : e ∈ s.associations := by
  unfold walkFrom at h
  split at h
  · exact List.mem_reverse.mp ((List.dropWhile_sublist _).subset h)
  · exact (List.dropWhile_sublist _).subset h

/-- In every run, also of an index that is read-only from the start or that others add ids
to: a lookup finds nothing but entries that have been added, under the id of the index; an
exact one finds only entries that have the flags. -/
theorem found_is_kept (h : Reach step reshaping new s) {method : LookupMethod}
    {entry : AssociationEntry}
    (hget : (s.getAssocEntry method flags format value).2 = some entry) :
    entry ∈ s.associations ∧ entry.id = 1 ∧ (method = .exact → entry.hasFlags flags = true) := by
  have hsound : s.Sound :=
    h.invariant .of_new fun _ _ _ hsound hok hstep => hsound.step hok hstep
  rcases hsound.getId_same with ⟨hid, -, hassocs⟩
  have hsound' := hsound.getId
  have hown : ∀ e ∈ s.getId.associations, e ∈ s.associations ∧ e.id = 1 := by
    intro e he
    exact ⟨hassocs ▸ he, (hsound'.ids e he).trans hid⟩
  unfold getAssocEntry at hget
  dsimp only at hget
  rw [hid, if_neg (by decide)] at hget
  unfold memIndexGetAssocEntry at hget
  dsimp only at hget
  split at hget
  · cases hget
  rename_i idIndex hindex
  split at hget
  · cases hget
  rename_i found hfound
  have hmem := (hsound'.within 1 idIndex hindex).getAssocEntry hfound
  split at hget
  · rename_i hhas
    cases hget
    exact ⟨(hown entry hmem).1, (hown entry hmem).2, fun _ => hhas⟩
  split at hget
  · cases hget
  · -- found on the walk
    rename_i hinexact
    rw [walk_eq, Option.or_none] at hget
    have hwalk : entry ∈ s.getId.walkFrom method found := by
      rcases Option.or_eq_some_iff.mp hget with hfirst | ⟨-, hlast⟩
      · exact List.mem_of_find?_eq_some hfirst
      · exact List.mem_of_getLast? hlast
    have hown := hown entry (mem_walkFrom hwalk)
    exact ⟨hown.1, hown.2, fun hexact => absurd hexact hinexact⟩

/-- Others add the id 1 to an index that is read-only at its first use. -/
theorem found_is_kept_readOnly : ∃ s entry, Reach step reshaping new s ∧
    (s.getAssocEntry .after 2 .bytes 4).2 = some entry ∧ entry ∈ s.associations := by
  have h₀ : Reach step reshaping new _ := .refl
  have h₁ := h₀.extend (.setWritable false) trivial rfl
  have h₂ := h₁.extend (.add 2 [⟨.bytes, 3⟩]) trivial rfl
  have h₃ := h₂.extend (.setWritable true) trivial rfl
  have h₄ := h₃.extend (.addId 1) trivial rfl
  have h₅ := h₄.extend (.add 2 [⟨.bytes, 5⟩]) trivial rfl
  refine ⟨_, ⟨0, 1, 2, ⟨[⟨.bytes, 5⟩]⟩⟩, h₅, rfl, ?_⟩
  exact (found_is_kept h₅ (show (getAssocEntry _ .after 2 .bytes 4).2 = some _ from rfl)).1

/-- A value of an entry, when it is not negative. -/
def valueOf (i : ℕ) (e : AssociationEntry) : ℕ := (e.entry.assocValue i).toNat

variable {es : List Association} {g : Association → ℕ} {i : ℕ}
  {entries : List AssociationEntry}

/-- The entries of associations in order are in order. -/
theorem valueOf_ordered (hkept : entries.map AssociationEntry.entry = es.map Association.entry)
    (horders : MemIndex.OrdersBy g i es) :
    entries.Pairwise fun a b => valueOf i a < valueOf i b := by
  have hlist : (es.map Association.entry).Pairwise
      fun x y => (x.assocValue i).toNat < (y.assocValue i).toNat := by
    rw [List.pairwise_map]
    apply horders.order.imp_of_mem
    intro a b ha hb hlt
    rw [horders.value a ha, horders.value b hb]
    omega
  rw [← hkept, List.pairwise_map] at hlist
  exact hlist

/-- Without flags, the nearest one of the entries is found. -/
theorem getAssocEntry_nearest
    (hkept : entries.map AssociationEntry.entry = es.map Association.entry)
    (horders : MemIndex.OrdersBy g i es)
    (hsorted : idIndex.toMemIndex.Sorted format i (es.map Association.entry))
    (hwithin : idIndex.Within entries) (hv : v < 2 ^ 63) (method : LookupMethod) :
    idIndex.getAssocEntry method format v = nearest (valueOf i) v method entries := by
  have hordered := valueOf_ordered hkept horders
  -- both find an entry with the same values
  have hentry : (idIndex.getAssocEntry method format v).map AssociationEntry.entry =
      (nearest (valueOf i) v method entries).map AssociationEntry.entry := by
    have hvalue : nearest g v method es =
        nearest (fun a => (a.entry.assocValue i).toNat) v method es := by
      apply nearest_congr
      intro a ha
      rw [horders.value a ha]
      omega
    rw [MemIndexId.getAssocEntry_toMemIndex, horders.lookup hsorted hv, hvalue,
      ← nearest_map (f := fun x : IndexEntry => (x.assocValue i).toNat), ← hkept, nearest_map]
    rfl
  cases hnearest : nearest (valueOf i) v method entries with
  | none =>
      rw [hnearest, Option.map_none, Option.map_eq_none_iff] at hentry
      exact hentry
  | some e =>
      rw [hnearest, Option.map_some] at hentry
      rcases Option.map_eq_some_iff.mp hentry with ⟨e', hget, hsame⟩
      rw [hget, eq_of_value_eq hordered e' (hwithin.getAssocEntry hget) e
        (mem_of_nearest hnearest)]
      unfold valueOf
      rw [hsame]

/-- When they are increasing associations, the trees hold the entries. -/
def Holding (es : List IndexEntry) (index : MemIndex) : Prop :=
  ∀ as, es = as.map Association.entry → Increasing as → index.Holds as

theorem grows_holding : Grows Holding := by
  constructor
  · intro as hmap _
    rw [List.map_eq_nil_iff.mp hmap.symm]
    exact MemIndex.holds_new
  · intro es index e hholding as hmap has
    rcases List.map_eq_append_iff.mp hmap.symm with ⟨before, rest, rfl, hbefore, hrest⟩
    rcases List.map_eq_singleton_iff.mp hrest with ⟨a, rfl, rfl⟩
    have hearlier : Increasing before :=
      ⟨fun e he => has.fits e (by simp [he]), (List.pairwise_append.mp has.ascending).1⟩
    exact (hholding before hbefore.symm hearlier).addAssociation has

theorem Holding.rebalances {es : List IndexEntry} {index index' : MemIndex}
    (h : Holding es index) (hshape : index'.Rebalances index) : Holding es index' :=
  fun as hmap has =>
    ⟨hshape.sorted (h as hmap has).time, hshape.sorted (h as hmap has).bytes⟩

/-- In every run that does not make the index read-only before its first use, whatever the
shapes that its trees are given on the way, and with increasing associations: a lookup of
any method, with any flags and by either value, finds the nearest entry that has the flags.
Where there is an entry on that side, but none that has them, it finds the oldest entry
(before a value) or the newest one (after it). -/
theorem flagged_nearest (h : Reach step usedFirst new s)
    (hkept : s.kept = es.map Association.entry) (hes : Increasing es)
    (hmax : MemIndex.BelowMax es) (method : LookupMethod) (flags : BitVec 32) (hv : v < 2 ^ 63) :
    (s.getAssocEntry method flags .time v).2 =
        flaggedNearest (valueOf 0) v method flags s.associations.reverse ∧
      (s.getAssocEntry method flags .bytes v).2 =
        flaggedNearest (valueOf 1) v method flags s.associations.reverse := by
  have hregistered : s.Registered Holding := by
    refine h.invariant .of_new ?_
    intro s l s' hs hok hstep
    exact hs.step grows_holding hok
      (fun _ _ _ _ _ _ hfact hshape => hfact.rebalances hshape.rebalances) hstep
  rcases hregistered.getAssocEntry_snd grows_holding with
    ⟨idIndex, hindex, hholding, hwithin, hget⟩
  rcases hregistered.sound.getId_same with ⟨hid, -, hassocs⟩
  have hsound := hregistered.sound.getId
  have hholds := hholding es hkept hes
  have hwithin' : idIndex.Within s.associations.reverse := by
    intro format index hformat x hx
    simpa using hwithin format index hformat x hx
  have htime := MemIndex.orders_time hes hmax
  have hoffset := MemIndex.orders_offset hes hmax
  rw [hget, hget, ← hassocs]
  rw [← hassocs] at hwithin'
  have hkept' : s.getId.associations.reverse.map AssociationEntry.entry =
      es.map Association.entry := by
    rw [hassocs]
    exact hkept
  constructor
  · exact hsound.flagged hid hindex (valueOf_ordered hkept' htime) method
      (getAssocEntry_nearest hkept' htime hholds.time hwithin' hv method)
  · exact hsound.flagged hid hindex (valueOf_ordered hkept' hoffset) method
      (getAssocEntry_nearest hkept' hoffset hholds.bytes hwithin' hv method)

/-- Two entries, of which only the later one has the flag: it is found at its time, and at
the time of the other one the walk ends at an entry without the flag. -/
theorem flagged_nearest_pair : ∃ s, Reach step usedFirst new s ∧
    s.associations.map AssociationEntry.flags = [1, 0] ∧
    (s.getAssocEntry .before 1 .time (500 : ℕ)).2.map AssociationEntry.flags = some 1 ∧
    (s.getAssocEntry .before 1 .time (499 : ℕ)).2.map AssociationEntry.flags = some 0 := by
  have h₀ : Reach step usedFirst new _ := .refl
  have h₁ := h₀.extend (.add 0 (Association.entry ⟨0, 0⟩).assocs) ⟨trivial, by simp⟩ rfl
  have h₂ := h₁.extend (.add 1 (Association.entry ⟨500, 2000⟩).assocs) ⟨trivial, by simp⟩ rfl
  have hes : Increasing [⟨0, 0⟩, ⟨500, 2000⟩] :=
    .pair ⟨by decide, by decide⟩ ⟨by decide, by decide⟩ ⟨by decide, by decide⟩
  have hmax : MemIndex.BelowMax [⟨0, 0⟩, ⟨500, 2000⟩] := by simp [MemIndex.BelowMax]
  have hat := (flagged_nearest h₂ (v := 500) rfl hes hmax .before 1 (by decide)).1
  have hbefore := (flagged_nearest h₂ (v := 499) rfl hes hmax .before 1 (by decide)).1
  refine ⟨_, h₂, rfl, ?_, ?_⟩
  · rw [hat]
    rfl
  · rw [hbefore]
    rfl

end FluTSIndex

end TimeShift
