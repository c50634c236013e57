import TimeShift.Lookups

/-!
# Writers and flags

A model of `flutsindex.c`, and of what `flutsmemindex.c` does with writers and flags. The
index is its own and only writer: it takes an id at its first use, and adds the id to
itself unless it is read-only then. Entries are added under this id, in front of a list,
and each format of the id has its tree. A lookup that asks for flags walks along the list
from the entry that the tree leads to, to older or to newer entries, until one has the
flags.

With what its trees know of the entries, it is the index of `Index.lean`, which has neither
(`toMemIndex`): it inserts and searches alike. A run may add entries in any order, look them
up, switch the index to read-only and back, and give its trees another shape (`Sound`).
-/

namespace TimeShift

open Machine SearchTree

/-- `GstFluTSIndexEntry`, for an association: `address` tells one entry from another. -/
structure AssociationEntry where
  address : ℕ
  id : ℤ
  flags : BitVec 32
  entry : IndexEntry
deriving DecidableEq, Repr

/-- `GstFluTSMemIndexFormatIndex`, with the entries of its id. -/
structure IdFormatIndex where
  format : Format
  offset : ℕ
  tree : Tree AssociationEntry AssociationEntry

/-- `GstFluTSMemIndexId`. -/
structure MemIndexId where
  id : ℤ
  formatIndex : Format → Option IdFormatIndex

/-- `GstFluTSMemIndexSearchData`. -/
structure IdSearchData where
  value : ℤ
  offset : ℕ
  exact : Bool
  lower : Option AssociationEntry
  lowDiff : ℤ
  higher : Option AssociationEntry
  highDiff : ℤ

/-- `GstFluTSIndex` and `GstFluTSMemIndex`: `writer` is the id that the table of writers
has for the index itself, and the newest of the `associations` is in front. -/
structure FluTSIndex where
  writable : Bool
  writer : Option ℤ
  lastId : ℤ
  id : ℤ
  associations : List AssociationEntry
  idIndex : ℤ → Option MemIndexId

namespace MemIndexId

/-- `mem_index_compare`. -/
def compare (offset : ℕ) (a b : AssociationEntry) : Ordering :=
  memIndexCompare offset a.entry b.entry

/-- `gst_flutsmemindex_index_format`. -/
def indexFormat (idIndex : MemIndexId) (entry : AssociationEntry) (format : Format)
    (assoc : ℕ) : MemIndexId :=
  let index := (idIndex.formatIndex format).getD ⟨format, assoc, .leaf⟩
  { idIndex with
    formatIndex := Function.update idIndex.formatIndex format (some { index with
      tree := index.tree.insert (compare index.offset) entry entry }) }

/-- The loop of `gst_flutsmemindex_add_association`. -/
def addAssociation (idIndex : MemIndexId) (entry : AssociationEntry) : MemIndexId :=
  entry.entry.assocs.zipIdx.foldl
    (fun idIndex a => idIndex.indexFormat entry a.1.format a.2) idIndex

/-- `mem_index_search`. -/
def search (a : AssociationEntry) (data : IdSearchData) : Ordering × IdSearchData :=
  let diff := gint64 (a.entry.assocValue data.offset - data.value)
  if diff = 0 then (.eq, data)
  else if data.exact then (if 0 < diff then .gt else .lt, data)
  else if diff < 0 then
    (.lt, if data.lowDiff < diff then { data with lowDiff := diff, lower := some a } else data)
  else
    (.gt, if diff < data.highDiff then { data with highDiff := diff, higher := some a } else data)

/-- The first half of `gst_flutsmemindex_get_assoc_entry`: the entry without regard to
flags. -/
def getAssocEntry (idIndex : MemIndexId) (method : LookupMethod) (format : Format) (value : ℤ) :
    Option AssociationEntry :=
  match idIndex.formatIndex format with
  | none => none
  | some formatIndex =>
    let data : IdSearchData :=
      { value := value
        offset := formatIndex.offset
        exact := method = .exact
        lower := none
        lowDiff := -2 ^ 63
        higher := none
        highDiff := 2 ^ 63 - 1 }
    match formatIndex.tree.search search data, method with
    | (some entry, _), _ => some entry
    | (none, data), .before => data.lower
    | (none, data), .after => data.higher
    | (none, _), .exact => none

end MemIndexId

/-- `(GST_FLUTSINDEX_ASSOC_FLAGS (entry) & flags) == flags`. -/
def AssociationEntry.hasFlags (entry : AssociationEntry) (flags : BitVec 32) : Bool :=
  entry.flags &&& flags == flags

namespace FluTSIndex

/-- `gst_flutsindex_init` and `gst_flutsmemindex_init`. -/
def new : FluTSIndex where
  writable := true
  writer := none
  lastId := 0
  id := -1
  associations := []
  idIndex _ := none

/-- `gst_flutsmemindex_add_id`. -/
def memIndexAddId (index : FluTSIndex) (id : ℤ) : FluTSIndex :=
  match index.idIndex id with
  | some _ => index
  | none =>
    { index with idIndex := Function.update index.idIndex id (some ⟨id, fun _ => none⟩) }

/-- `gst_flutsindex_add_id`. -/
def addId (index : FluTSIndex) (id : ℤ) : FluTSIndex :=
  if ¬index.writable ∨ id = -1 then index else index.memIndexAddId id

/-- `gst_flutsindex_get_writer_id`, for the index itself. No class of the repository maps
writers to ids. -/
def getWriterId (index : FluTSIndex) : FluTSIndex × ℤ :=
  match index.writer with
  | some id => (index, id)
  | none =>
    let id := index.lastId + 1
    let index := { index with lastId := id }.addId id
    -- when the index is not writable, an entry is made for the cache anyway
    ({ index with writer := some id }, id)

/-- `gst_flutsindex_get_id`. -/
def getId (index : FluTSIndex) : FluTSIndex :=
  if index.id = -1 then
    let (index, id) := index.getWriterId
    { index with id := id }
  else index

/-- `gst_flutsmemindex_add_association`. -/
def memIndexAddAssociation (index : FluTSIndex) (entry : AssociationEntry) : FluTSIndex :=
  let associations := entry :: index.associations
  match index.idIndex entry.id with
  | none => { index with associations := associations }
  | some idIndex =>
    { index with
      associations := associations
      idIndex := Function.update index.idIndex entry.id (some (idIndex.addAssociation entry)) }

/-- `gst_flutsindex_add_associationv`: the entry is allocated at an address of its own. -/
def addAssociationv (index : FluTSIndex) (flags : BitVec 32) (list : List IndexAssociation) :
    FluTSIndex :=
  let index := index.getId
  if list = [] then index
  else if ¬index.writable ∨ index.id = -1 then index
  else index.memIndexAddAssociation ⟨index.associations.length, index.id, flags, ⟨list⟩⟩

/-- The loop of `gst_flutsmemindex_get_assoc_entry` over the list, with `entry` from the
round before. -/
def walk (fits : AssociationEntry → Bool) (entry : Option AssociationEntry) :
    List AssociationEntry → Option AssociationEntry
  | [] => entry
  | e :: rest => if fits e then some e else walk fits (some e) rest

/-- `g_list_find`, and the list in the direction of the walk. -/
def walkFrom (index : FluTSIndex) (method : LookupMethod) (entry : AssociationEntry) :
    List AssociationEntry :=
  match method with
  | .after => index.associations.reverse.dropWhile fun e => e.address ≠ entry.address
  | _ => index.associations.dropWhile fun e => e.address ≠ entry.address

/-- `gst_flutsmemindex_get_assoc_entry`. -/
def memIndexGetAssocEntry (index : FluTSIndex) (id : ℤ) (method : LookupMethod)
    (flags : BitVec 32) (format : Format) (value : ℤ) : Option AssociationEntry :=
  match index.idIndex id with
  | none => none
  | some idIndex =>
    match idIndex.getAssocEntry method format value with
    | none => none
    | some entry =>
      if entry.hasFlags flags then some entry
      else if method = .exact then none
      else walk (fun e => e.id = id && e.hasFlags flags) none (index.walkFrom method entry)

/-- `gst_flutsindex_get_assoc_entry` and `gst_flutsindex_get_assoc_entry_full`: the
comparison function is not used. -/
def getAssocEntry (index : FluTSIndex) (method : LookupMethod) (flags : BitVec 32)
    (format : Format) (value : ℤ) : FluTSIndex × Option AssociationEntry :=
  let index := index.getId
  if index.id = -1 then (index, none)
  else (index, index.memIndexGetAssocEntry index.id method flags format value)

end FluTSIndex

/-! ## The index without writers -/

namespace MemIndexId

variable {idIndex : MemIndexId} {entry : AssociationEntry} {format : Format} {assoc : ℕ}

/-- The trees of the id, with what they know of the entries. -/
def toMemIndex (idIndex : MemIndexId) : MemIndex where
  formatIndex format := (idIndex.formatIndex format).map fun index =>
    ⟨index.format, index.offset, index.tree.map AssociationEntry.entry AssociationEntry.entry⟩

theorem toMemIndex_indexFormat :
    (idIndex.indexFormat entry format assoc).toMemIndex =
      idIndex.toMemIndex.indexFormat entry.entry format assoc := by
  unfold toMemIndex indexFormat MemIndex.indexFormat
  congr 1
  funext format'
  by_cases hformat : format' = format
  · subst hformat
    dsimp only
    rw [Function.update_self, Function.update_self]
    cases idIndex.formatIndex format' with
    | none => rfl
    | some index =>
        have hinsert : (index.tree.map AssociationEntry.entry AssociationEntry.entry).insert
            (memIndexCompare index.offset) entry.entry entry.entry =
              (index.tree.insert (compare index.offset) entry entry).map
                AssociationEntry.entry AssociationEntry.entry :=
          Tree.insert_map (fun _ _ => rfl) index.tree
        simp only [Option.getD_some, Option.map_some, hinsert]
  · simp only [Function.update_of_ne hformat]

theorem toMemIndex_addAssociation :
    (idIndex.addAssociation entry).toMemIndex =
      idIndex.toMemIndex.addAssociation entry.entry := by
  unfold addAssociation MemIndex.addAssociation
  generalize entry.entry.assocs.zipIdx = assocs
  induction assocs generalizing idIndex with
  | nil => rfl
  | cons a assocs ih => rw [List.foldl_cons, List.foldl_cons, ih, toMemIndex_indexFormat]

/-- The notes of a search, with what they know of the entries. -/
def toSearchData (data : IdSearchData) : SearchData :=
  ⟨data.value, data.offset, data.exact, data.lower.map AssociationEntry.entry, data.lowDiff,
    data.higher.map AssociationEntry.entry, data.highDiff⟩

theorem search_toSearchData (a : AssociationEntry) (data : IdSearchData) :
    memIndexSearch a.entry (toSearchData data) =
      ((search a data).1, toSearchData (search a data).2) := by
  unfold memIndexSearch search toSearchData
  dsimp only
  split
  · rfl
  split
  · rfl
  split
  · split <;> rfl
  · split <;> rfl

/-- A lookup finds the same in the index without writers. -/
theorem getAssocEntry_toMemIndex (idIndex : MemIndexId) (method : LookupMethod)
    (format : Format) (value : ℤ) :
    (idIndex.getAssocEntry method format value).map AssociationEntry.entry =
      idIndex.toMemIndex.getAssocEntry method format value := by
  unfold getAssocEntry MemIndex.getAssocEntry toMemIndex
  dsimp only
  cases idIndex.formatIndex format with
  | none => rfl
  | some index =>
      have hsearch := Tree.search_map (f := AssociationEntry.entry)
        (g := AssociationEntry.entry) (h := toSearchData) search_toSearchData index.tree
        ⟨value, index.offset, method = .exact, none, -2 ^ 63, none, 2 ^ 63 - 1⟩
      simp only [Option.map_some]
      rw [show (⟨value, index.offset, method = .exact, none, -2 ^ 63, none, 2 ^ 63 - 1⟩ :
        SearchData) = toSearchData ⟨value, index.offset, method = .exact, none, -2 ^ 63, none,
          2 ^ 63 - 1⟩ from rfl, hsearch]
      rcases index.tree.search search
        ⟨value, index.offset, method = .exact, none, -2 ^ 63, none, 2 ^ 63 - 1⟩ with
        ⟨_ | e, data⟩
      · cases method <;> rfl
      · rfl

/-! ### What the trees refer to -/

/-- The trees refer to these entries only. -/
def Within (idIndex : MemIndexId) (entries : List AssociationEntry) : Prop :=
  ∀ format index, idIndex.formatIndex format = some index →
    ∀ x ∈ index.tree.toList, x.1 ∈ entries ∧ x.2 ∈ entries

variable {entries : List AssociationEntry}

theorem Within.indexFormat (h : idIndex.Within entries) (hentry : entry ∈ entries) :
    (idIndex.indexFormat entry format assoc).Within entries := by
  intro format' index hindex
  unfold MemIndexId.indexFormat at hindex
  dsimp only at hindex
  by_cases hformat : format' = format
  · subst hformat
    rw [Function.update_self] at hindex
    cases hindex
    refine Tree.forall_insert ?_ hentry hentry
    cases hold : idIndex.formatIndex format' with
    | none => simp [Tree.toList]
    | some old => exact h format' old hold
  · rw [Function.update_of_ne hformat] at hindex
    exact h format' index hindex

theorem Within.addAssociation (h : idIndex.Within entries) (hentry : entry ∈ entries) :
    (idIndex.addAssociation entry).Within entries := by
  unfold MemIndexId.addAssociation
  generalize entry.entry.assocs.zipIdx = assocs
  induction assocs generalizing idIndex with
  | nil => exact h
  | cons a assocs ih => exact ih (h.indexFormat hentry)

theorem Within.cons (h : idIndex.Within entries) : idIndex.Within (entry :: entries) := by
  intro format index hindex x hx
  rcases h format index hindex x hx with ⟨hkey, hvalue⟩
  exact ⟨List.mem_cons_of_mem _ hkey, List.mem_cons_of_mem _ hvalue⟩

/-- The notes of a search refer to these entries only. -/
def Notes (entries : List AssociationEntry) (data : IdSearchData) : Prop :=
  (∀ e ∈ data.lower, e ∈ entries) ∧ ∀ e ∈ data.higher, e ∈ entries

/-- A step of the search notes its key or nothing new. -/
theorem Notes.search {k : AssociationEntry} {data data' : IdSearchData} {o : Ordering}
    (h : Notes entries data) (hk : k ∈ entries) (hdir : search k data = (o, data')) :
    Notes entries data' := by
  have hdata : data' = (MemIndexId.search k data).2 := by rw [hdir]
  subst hdata
  have hnoted : ∀ e ∈ some k, e ∈ entries := by
    intro e he
    cases he
    exact hk
  unfold MemIndexId.search
  dsimp only
  split
  · exact h
  split
  · exact h
  split
  · split
    · exact ⟨hnoted, h.2⟩
    · exact h
  · split
    · exact ⟨h.1, hnoted⟩
    · exact h

/-- So a search finds one of the entries, or ends with notes on them. -/
theorem search_within {tree : Tree AssociationEntry AssociationEntry} {data : IdSearchData}
    (htree : ∀ x ∈ tree.toList, x.1 ∈ entries ∧ x.2 ∈ entries) (hdata : Notes entries data) :
    (∀ e ∈ (tree.search search data).1, e ∈ entries) ∧
      Notes entries (tree.search search data).2 := by
  apply Tree.search_rule (Q := fun r data => (∀ e ∈ r, e ∈ entries) ∧ Notes entries data)
    (P := fun t data => (∀ x ∈ t.toList, x.1 ∈ entries ∧ x.2 ∈ entries) ∧ Notes entries data)
  · rintro data ⟨-, hnotes⟩
    exact ⟨by simp, hnotes⟩
  · rintro l k v r data data' ⟨htree, hnotes⟩ hdir
    have hroot := htree (k, v) (Tree.mem_toList_node.mpr (Or.inr (Or.inl rfl)))
    refine ⟨?_, hnotes.search hroot.1 hdir⟩
    intro e he
    cases he
    exact hroot.2
  · rintro l k v r data data' ⟨htree, hnotes⟩ hdir
    have hroot := htree (k, v) (Tree.mem_toList_node.mpr (Or.inr (Or.inl rfl)))
    exact ⟨fun x hx => htree x (Tree.mem_toList_node.mpr (Or.inl hx)),
      hnotes.search hroot.1 hdir⟩
  · rintro l k v r data data' ⟨htree, hnotes⟩ hdir
    have hroot := htree (k, v) (Tree.mem_toList_node.mpr (Or.inr (Or.inl rfl)))
    exact ⟨fun x hx => htree x (Tree.mem_toList_node.mpr (Or.inr (Or.inr hx))),
      hnotes.search hroot.1 hdir⟩
  · exact ⟨htree, hdata⟩

/-- A lookup finds one of the entries. -/
theorem Within.getAssocEntry (h : idIndex.Within entries) {method : LookupMethod} {value : ℤ}
    (hget : idIndex.getAssocEntry method format value = some entry) : entry ∈ entries := by
  unfold MemIndexId.getAssocEntry at hget
  cases hformat : idIndex.formatIndex format with
  | none =>
      rw [hformat] at hget
      cases hget
  | some index =>
      rw [hformat] at hget
      dsimp only at hget
      have hnotes : Notes entries
          ⟨value, index.offset, method = .exact, none, -2 ^ 63, none, 2 ^ 63 - 1⟩ :=
        ⟨by simp, by simp⟩
      have hsearch := search_within (h format index hformat) hnotes
      rcases hsearch with ⟨hfound, hlower, hhigher⟩
      split at hget
      · rename_i e data hres
        cases hget
        rw [hres] at hfound
        exact hfound entry rfl
      · rename_i data hres
        rw [hres] at hlower
        exact hlower entry hget
      · rename_i data hres
        rw [hres] at hhigher
        exact hhigher entry hget
      · cases hget

end MemIndexId

/-! ## Runs -/

/-- A step of an index in use: `rebalance` gives the trees of an id another shape. -/
inductive IndexOp where
  | add (flags : BitVec 32) (list : List IndexAssociation)
  | addId (id : ℤ)
  | lookup (method : LookupMethod) (flags : BitVec 32) (format : Format) (value : ℤ)
  | setWritable (writable : Bool)
  | rebalance (id : ℤ) (idIndex : MemIndexId)

/-- The trees have the same keys and values in another shape. -/
def MemIndexId.Reshapes (idIndex' idIndex : MemIndexId) : Prop :=
  ∀ format, (idIndex'.formatIndex format).map
      (fun index => (index.format, index.offset, index.tree.toList)) =
    (idIndex.formatIndex format).map fun index => (index.format, index.offset, index.tree.toList)

namespace FluTSIndex

/-- One step of a run. -/
def step (s : FluTSIndex) : IndexOp → Option FluTSIndex
  | .add flags list => some (s.addAssociationv flags list)
  | .addId id => some (s.addId id)
  | .lookup method flags format value => some (s.getAssocEntry method flags format value).1
  | .setWritable writable => some { s with writable := writable }
  | .rebalance id idIndex =>
    some { s with idIndex := Function.update s.idIndex id (some idIndex) }

/-- A balancing step keeps the keys and values. -/
def reshaping (s : FluTSIndex) : IndexOp → Prop
  | .rebalance id idIndex' => ∃ idIndex, s.idIndex id = some idIndex ∧ idIndex'.Reshapes idIndex
  | _ => True

/-- Moreover, the index is made read-only after its first use at the earliest. -/
def usedFirst (s : FluTSIndex) (l : IndexOp) : Prop :=
  s.reshaping l ∧ ∀ writable, l = .setWritable writable → s.id ≠ -1

/-- The entries that have been added, in their order. -/
def kept (s : FluTSIndex) : List IndexEntry := s.associations.reverse.map AssociationEntry.entry

variable {s s' : FluTSIndex} {id : ℤ} {entry : AssociationEntry}

/-! ### What every run keeps -/

/-- The index has no id before its first use, and the id 1 from then on; its trees refer to
entries of the list only. -/
structure Sound (s : FluTSIndex) : Prop where
  fresh : s.id = -1 → s.writer = none ∧ s.lastId = 0 ∧ s.associations = []
  used : s.id ≠ -1 → s.id = 1
  ids : ∀ e ∈ s.associations, e.id = s.id
  addresses : s.associations.Pairwise fun a b => b.address < a.address
  bound : ∀ e ∈ s.associations, e.address < s.associations.length
  within : ∀ id idIndex, s.idIndex id = some idIndex → idIndex.Within s.associations

theorem Sound.of_new : new.Sound := by
  constructor
  · intro _
    exact ⟨rfl, rfl, rfl⟩
  · intro h
    exact absurd rfl h
  · simp [new]
  · simp [new]
  · simp [new]
  · intro id idIndex h
    cases h

/-- What adding an id does to the tables. -/
theorem addId_cases (s : FluTSIndex) (id : ℤ) :
    s.addId id = s ∨ (s.writable ∧ s.idIndex id = none ∧
      s.addId id = { s with
        idIndex := Function.update s.idIndex id (some ⟨id, fun _ => none⟩) }) := by
  unfold addId memIndexAddId
  split
  · exact Or.inl rfl
  · rename_i hwrite
    push Not at hwrite
    split
    · exact Or.inl rfl
    · rename_i hnone
      exact Or.inr ⟨hwrite.1, hnone, rfl⟩

theorem within_update {idIndex : ℤ → Option MemIndexId} {entries : List AssociationEntry}
    {new : MemIndexId} (h : ∀ id x, idIndex id = some x → x.Within entries)
    (hnew : new.Within entries) :
    ∀ id' x, Function.update idIndex id (some new) id' = some x → x.Within entries := by
  intro id' x hx
  by_cases hid : id' = id
  · rw [hid, Function.update_self] at hx
    cases hx
    exact hnew
  · rw [Function.update_of_ne hid] at hx
    exact h id' x hx

theorem within_blank (id : ℤ) (entries : List AssociationEntry) :
    (⟨id, fun _ => none⟩ : MemIndexId).Within entries := by
  intro format index h
  cases h

theorem Sound.addId (h : s.Sound) (id : ℤ) : (s.addId id).Sound := by
  rcases s.addId_cases id with hsame | ⟨-, -, hadd⟩
  · rw [hsame]
    exact h
  · rw [hadd]
    exact ⟨h.fresh, h.used, h.ids, h.addresses, h.bound,
      within_update h.within (within_blank id _)⟩

theorem addId_with (s : FluTSIndex) (writer : Option ℤ) (lastId id : ℤ) :
    ({ s with writer := writer, lastId := lastId } : FluTSIndex).addId id =
      { s.addId id with writer := writer, lastId := lastId } := by
  unfold addId memIndexAddId
  dsimp only
  split
  · rfl
  · cases s.idIndex id <;> rfl

/-- The first use gives the index the id 1, and adds it to the index where that is
writable. -/
theorem Sound.getId_cases (h : s.Sound) :
    (s.id = 1 ∧ s.getId = s) ∨ (s.id = -1 ∧ s.associations = [] ∧
      s.getId = { (s.addId 1) with lastId := 1, writer := some 1, id := 1 }) := by
  unfold getId getWriterId
  split
  · rename_i hid
    rcases h.fresh hid with ⟨hwriter, hlast, hnone⟩
    refine Or.inr ⟨hid, hnone, ?_⟩
    rw [hwriter, hlast]
    dsimp only
    rw [addId_with s none (0 + 1) (0 + 1)]
    rfl
  · rename_i hid
    exact Or.inl ⟨h.used hid, rfl⟩

theorem addId_same (s : FluTSIndex) (id : ℤ) :
    (s.addId id).writable = s.writable ∧ (s.addId id).associations = s.associations ∧
      (s.addId id).id = s.id := by
  rcases s.addId_cases id with hsame | ⟨-, -, hadd⟩
  · rw [hsame]
    exact ⟨rfl, rfl, rfl⟩
  · rw [hadd]
    exact ⟨rfl, rfl, rfl⟩

theorem Sound.getId_same (h : s.Sound) : s.getId.id = 1 ∧ s.getId.writable = s.writable ∧
    s.getId.associations = s.associations := by
  rcases h.getId_cases with ⟨hid, hsame⟩ | ⟨-, -, hfirst⟩
  · rw [hsame]
    exact ⟨hid, rfl, rfl⟩
  · rw [hfirst]
    exact ⟨rfl, (s.addId_same 1).1, (s.addId_same 1).2.1⟩

theorem Sound.getId (h : s.Sound) : s.getId.Sound := by
  rcases h.getId_cases with ⟨-, hsame⟩ | ⟨-, hnone, hfirst⟩
  · rw [hsame]
    exact h
  · have hadd := h.addId 1
    have hnone' := (s.addId_same 1).2.1.trans hnone
    rw [hfirst]
    constructor
    · intro hid
      cases hid
    · intro _
      rfl
    · show ∀ e ∈ (s.addId 1).associations, _
      simp [hnone']
    · exact hadd.addresses
    · exact hadd.bound
    · exact hadd.within

/-- A new entry comes in front, and into the trees of the id if there are any. -/
theorem memIndexAddAssociation_eq (s : FluTSIndex) (entry : AssociationEntry) :
    s.memIndexAddAssociation entry =
      { s with
        associations := entry :: s.associations
        idIndex := match s.idIndex entry.id with
          | none => s.idIndex
          | some idIndex =>
            Function.update s.idIndex entry.id (some (idIndex.addAssociation entry)) } := by
  unfold memIndexAddAssociation
  dsimp only
  split <;> rfl

theorem Sound.memIndexAddAssociation (h : s.Sound) (hid : entry.id = s.id) (hused : s.id ≠ -1)
    (haddress : entry.address = s.associations.length) :
    (s.memIndexAddAssociation entry).Sound := by
  rw [memIndexAddAssociation_eq]
  have hwithin : ∀ id x, s.idIndex id = some x → x.Within (entry :: s.associations) :=
    fun id x hx => (h.within id x hx).cons
  constructor
  · intro hfresh
    exact absurd hfresh hused
  · exact h.used
  · intro e he
    rcases List.mem_cons.mp he with rfl | he
    · exact hid
    · exact h.ids e he
  · rw [List.pairwise_cons]
    refine ⟨?_, h.addresses⟩
    intro e he
    rw [haddress]
    exact h.bound e he
  · intro e he
    rcases List.mem_cons.mp he with rfl | he
    · rw [haddress]
      exact Nat.lt_succ_self _
    · exact Nat.lt_succ_of_lt (h.bound e he)
  · dsimp only
    cases hindex : s.idIndex entry.id with
    | none => exact hwithin
    | some idIndex =>
        exact within_update hwithin
          ((hwithin entry.id idIndex hindex).addAssociation (by simp))

/-- Adding an association: nothing but the id changes, or the entry joins the others. -/
theorem Sound.addAssociationv_cases (h : s.Sound) (flags : BitVec 32)
    (list : List IndexAssociation) :
    s.addAssociationv flags list = s.getId ∨
      (s.writable ∧ s.addAssociationv flags list =
        s.getId.memIndexAddAssociation ⟨s.associations.length, 1, flags, ⟨list⟩⟩) := by
  rcases h.getId_same with ⟨hid, hwritable, hassocs⟩
  unfold addAssociationv
  dsimp only
  rw [hid, hwritable, hassocs]
  split
  · exact Or.inl rfl
  split
  · exact Or.inl rfl
  · rename_i hwrite
    push Not at hwrite
    exact Or.inr ⟨hwrite.1, rfl⟩

theorem getAssocEntry_fst (s : FluTSIndex) (method : LookupMethod) (flags : BitVec 32)
    (format : Format) (value : ℤ) : (s.getAssocEntry method flags format value).1 = s.getId := by
  unfold getAssocEntry
  dsimp only
  split <;> rfl

theorem Reshapes.within {idIndex idIndex' : MemIndexId} {entries : List AssociationEntry}
    (h : idIndex'.Reshapes idIndex) (hwithin : idIndex.Within entries) :
    idIndex'.Within entries := by
  intro format index' hindex' x hx
  have hsame := h format
  rw [hindex', Option.map_some] at hsame
  rcases Option.map_eq_some_iff.mp hsame.symm with ⟨index, hindex, heq⟩
  simp only [Prod.mk.injEq] at heq
  exact hwithin format index hindex x (heq.2.2 ▸ hx)

theorem Sound.step (h : s.Sound) {l : IndexOp} (hok : s.reshaping l) (hs : s.step l = some s') :
    s'.Sound := by
  cases l with
  | add flags list =>
      cases hs
      rcases h.addAssociationv_cases flags list with hsame | ⟨-, hadd⟩
      · rw [hsame]
        exact h.getId
      · rw [hadd]
        rcases h.getId_same with ⟨hid, -, hassocs⟩
        exact h.getId.memIndexAddAssociation hid.symm (by rw [hid]; decide)
          (by rw [hassocs])
  | addId id =>
      cases hs
      exact h.addId id
  | lookup method flags format value =>
      cases hs
      rw [getAssocEntry_fst]
      exact h.getId
  | setWritable writable =>
      cases hs
      exact ⟨h.fresh, h.used, h.ids, h.addresses, h.bound, h.within⟩
  | rebalance id idIndex' =>
      cases hs
      rcases hok with ⟨idIndex, hindex, hshape⟩
      exact ⟨h.fresh, h.used, h.ids, h.addresses, h.bound,
        within_update h.within (Reshapes.within hshape (h.within id idIndex hindex))⟩

end FluTSIndex

end TimeShift
