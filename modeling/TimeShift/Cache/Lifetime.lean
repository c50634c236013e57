import TimeShift.Cache.Controls
import TimeShift.Lib.RefCount

/-!
# The lifetime of caches

A cache is counted: the element, every buffer that wraps one of its slots, and the
migration thread refer to it, and whoever drops the last reference frees it, which closes
its file and removes it unless it is to be kept. A FLUSH_STOP or a new start gives the
element a new cache, while buffers and the thread of the old one may live on; so there
may be any number of caches at a time.

* `caches_counted`: in every run, whatever order the threads take their steps in, the count
  of each cache is the number of those that refer to it, and nobody touches a cache that
  has been freed. A thread that could not be created has been given a reference, which
  nobody drops.
* `files_accounted`: the files in the directory are those of the caches that are still
  referred to, those that were to be kept when they were closed, and those that were made
  but could not be opened.
-/

set_option linter.unusedSectionVars false

namespace TimeShift

open Bytes Machine RefCount

/-- A cache in the heap; `filename` is the name of its file. -/
structure SharedCache (n : ℕ) where
  cache : Cache n
  filename : Option ℕ

/-- What `gst_shifter_cache_disk_open` comes to: there is no template or no file can be
made, a file is made but `fdopen` fails, or the file is open. `g_mkstemp` picks a name that
is not in the directory. -/
inductive DiskOpen where
  | none
  | unopened (name : ℕ)
  | opened (name : ℕ)

/-- The name is new. -/
def DiskOpen.isFresh (directory : List ℕ) : DiskOpen → Bool
  | .none => true
  | .unopened name => name ∉ directory
  | .opened name => name ∉ directory

/-- The heap of caches and the directory of their files. The rest is history: the files
that were closed and not removed, and those that could not be opened. -/
structure Shared (n : ℕ) where
  heap : Store (SharedCache n)
  directory : List ℕ
  kept : List ℕ
  unopened : List ℕ

namespace Shared

variable {n : ℕ} [NeZero n]

/-- `gst_shifter_cache_new`, and the setting of `autoremove` after it. The cache is at the
address `heap.next`. -/
def new (s : Shared n) (memory : Fin n → ℕ → UInt8) (autoremove : Bool) (disk : DiskOpen) :
    Shared n :=
  let make (file : Option File) : Cache n :=
    { Cache.new n memory file with autoremove := autoremove }
  match disk with
  | .none => { s with heap := s.heap.alloc ⟨make none, none⟩ }
  | .unopened name =>
    { s with
      heap := s.heap.alloc ⟨make none, none⟩
      directory := name :: s.directory
      unopened := name :: s.unopened }
  | .opened name =>
    { s with
      heap := s.heap.alloc ⟨make (some .new), some name⟩
      directory := name :: s.directory }

/-- `gst_shifter_cache_disk_close`. -/
def diskClose (s : Shared n) (x : SharedCache n) : Shared n :=
  if x.cache.file.isNone then s
  else
    match x.filename with
    | none => s
    | some name =>
      if x.cache.autoremove then
        { s with directory := s.directory.filter fun other => other ≠ name }
      else { s with kept := name :: s.kept }

/-- `gst_shifter_cache_unref`, and `gst_shifter_cache_free` for the last reference. -/
def unref (s : Shared n) (a : ℕ) : Shared n :=
  match s.heap.value a, s.heap.frees a with
  | some x, true => { s with heap := s.heap.unref a }.diskClose x
  | _, _ => { s with heap := s.heap.unref a }

/-- `gst_shifter_cache_ref`. -/
def ref (s : Shared n) (a : ℕ) : Shared n := { s with heap := s.heap.ref a }

/-- Something happens to the cache at an address. -/
def modify (s : Shared n) (a : ℕ) (f : Cache n → Cache n) : Shared n :=
  { s with heap := s.heap.modify a fun x => { x with cache := f x.cache } }

end Shared

/-- The element with the caches that are about: `cache` is the address of its own one, and
`stopping` says that it waits for the thread of this cache in
`gst_shifter_cache_stop_recording`. `live` are the buffers that somebody owns, each with
the address of its cache, `threads` the caches of the threads that run, and `failed` those
of the threads that could not be created. -/
structure Shifter (n : ℕ) where
  cache : Option ℕ
  recordingRemove : Bool
  stopping : Bool
  shared : Shared n
  live : List (ℕ × Buffer n)
  threads : List ℕ
  failed : List ℕ

/-- A step: the start that comes with a new cache, the two parts of a stop, the property,
the operations of the element on its cache, a buffer that its owner frees, a round of a
migration thread and the end of the thread. -/
inductive ShifterOp (n : ℕ) where
  | start (memory : Fin n → ℕ → UInt8) (disk : DiskOpen)
  | stopRequest
  | stopJoin
  | setRecordingRemove (value : Bool)
  | push (data : Block UInt8) (p : Platform)
  | pop (drain : Bool) (p : Platform)
  | seek (offset : ℕ) (p : Platform)
  | startRecording (p : Platform)
  | free (k : ℕ)
  | migrate (k : ℕ) (p : Platform)
  | threadExit (k : ℕ)

namespace Shifter

variable {n : ℕ} [NeZero n]

def init (n : ℕ) : Shifter n where
  cache := none
  recordingRemove := true
  stopping := false
  shared := ⟨.empty, [], [], []⟩
  live := []
  threads := []
  failed := []

/-- Drop the reference of the element, if it has a cache. -/
def unrefCache (s : Shifter n) : Shared n := s.cache.elim s.shared s.shared.unref

/-- The creation of a migration thread: the thread is given a reference before anybody
knows whether it can be created. -/
def createThread (s : Shifter n) (a : ℕ) (created : Bool) : Shifter n :=
  { s with
    shared := s.shared.ref a
    threads := if created then a :: s.threads else s.threads
    failed := if created then s.failed else a :: s.failed }

/-- What the element does to its cache; to read a cache that is not there is a fault. The
element does nothing while it waits for the thread. -/
def withCache (s : Shifter n) (f : ℕ → Cache n → Option (Shifter n)) : Option (Shifter n) :=
  if s.stopping then none
  else
    s.cache.bind fun a =>
      match s.shared.heap.value a with
      | none =>
        some { s with shared := { s.shared with heap := { s.shared.heap with fault := true } } }
      | some x => f a x.cache

/-- The cache at the address is `c` now. -/
def put (s : Shifter n) (a : ℕ) (c : Cache n) : Shifter n :=
  { s with shared := s.shared.modify a fun _ => c }

/-- `gst_shifter_cache_push`, with the reference for a thread that it comes to create. -/
def push (s : Shifter n) (data : Block UInt8) (p : Platform) : Option (Shifter n) :=
  s.withCache fun a c =>
    let s' := s.put a (c.push data p)
    some (if c.pushAttempts data p then s'.createThread a p.threadCreate else s')

/-- `gst_shifter_cache_pop`: a buffer refers to its cache. -/
def pop (s : Shifter n) (drain : Bool) (p : Platform) : Option (Shifter n) :=
  s.withCache fun a c =>
    let s' := s.put a (c.pop drain p).1
    some (match (c.pop drain p).2 with
      | none => s'
      | some b => { s' with shared := s'.shared.ref a, live := (a, b) :: s'.live })

/-- `gst_shifter_cache_start_recording`. -/
def startRecording (s : Shifter n) (p : Platform) : Option (Shifter n) :=
  s.withCache fun a c =>
    let s' := s.put a (c.startRecording p).1
    some (if c.attempts then s'.createThread a p.threadCreate else s')

/-- One step of one of the threads; `none` when it cannot be made. -/
def step (s : Shifter n) : ShifterOp n → Option (Shifter n)
  -- `gst_flutsbase_start`
  | .start memory disk =>
    if s.stopping || !disk.isFresh s.unrefCache.directory then none
    else
      some { s with
        shared := s.unrefCache.new memory s.recordingRemove disk
        cache := some s.unrefCache.heap.next }
  -- `gst_flutsbase_stop`, until it joins the thread
  | .stopRequest => s.withCache fun a c => some { s.put a c.stopRequest with stopping := true }
  -- the rest of it, when the thread has ended
  | .stopJoin =>
    if !s.stopping then none
    else
      s.cache.bind fun a =>
        if a ∈ s.threads then none
        else
          let joined := s.shared.modify a fun c => { c with thread := none, isRecording := false }
          some { s with shared := joined.unref a, cache := none, stopping := false }
  | .setRecordingRemove value =>
    if s.stopping then none
    else
      some { s with
        recordingRemove := value
        shared := s.cache.elim s.shared fun a =>
          s.shared.modify a fun c => { c with autoremove := value } }
  | .push data p => s.push data p
  | .pop drain p => s.pop drain p
  | .seek offset p => s.withCache fun a c => (c.seek offset p).map (s.put a)
  | .startRecording p => s.startRecording p
  -- `_slot_meta_free`
  | .free k =>
    (s.live[k]?).map fun b =>
      { s with
        shared := (s.shared.modify b.1 fun c => c.release b.2.slot).unref b.1
        live := s.live.eraseIdx k }
  | .migrate k p =>
    (s.threads[k]?).map fun a =>
      { s with shared := s.shared.modify a fun c => c.migrationThread p }
  -- the end of `gst_shifter_cache_migration_thread`
  | .threadExit k =>
    (s.threads[k]?).bind fun a =>
      match (s.shared.heap.value a).bind fun x => x.cache.thread with
      | some .finished =>
        some { s with shared := s.shared.unref a, threads := s.threads.eraseIdx k }
      | _ => none

/-- All those who have a reference to a cache, by its address. -/
def holders (s : Shifter n) : List ℕ :=
  s.cache.toList ++ (s.live.map Prod.fst ++ (s.threads ++ s.failed))

end Shifter

/-! ## The ledger -/

/-- Who owns the files in a directory: `owns a name` says that the file is that of the cache
at an address. The other files are kept, or could not be opened. -/
structure Filed (owns : ℕ → ℕ → Prop) (directory kept unopened : List ℕ) : Prop where
  listed : ∀ name, name ∈ directory ↔ (∃ a, owns a name) ∨ name ∈ kept ∨ name ∈ unopened
  distinct : ∀ name a b, owns a name → owns b name → a = b
  apart : ∀ name a, owns a name → name ∉ kept ∧ name ∉ unopened

namespace Filed

variable {owns owns' : ℕ → ℕ → Prop} {directory kept unopened : List ℕ} {a new own : ℕ}

theorem congr (h : Filed owns directory kept unopened)
    (howns : ∀ b name, owns' b name ↔ owns b name) : Filed owns' directory kept unopened := by
  have hsame : owns' = owns := by
    funext b name
    exact propext (howns b name)
  rw [hsame]
  exact h

/-- A file is made and cannot be opened. -/
theorem make (h : Filed owns directory kept unopened) (hnew : new ∉ directory) :
    Filed owns (new :: directory) kept (new :: unopened) := by
  refine ⟨?_, h.distinct, ?_⟩
  · intro name
    rw [List.mem_cons, List.mem_cons, h.listed name]
    tauto
  · intro name b hb
    rcases h.apart name b hb with ⟨hkept, hunopened⟩
    refine ⟨hkept, ?_⟩
    intro hmem
    rcases List.mem_cons.mp hmem with rfl | hmem
    · exact hnew ((h.listed name).mpr (Or.inl ⟨b, hb⟩))
    · exact hunopened hmem

/-- A file is made, and opened for the cache at the address `a`. -/
theorem assign (h : Filed owns directory kept unopened) (hnew : new ∉ directory)
    (howns : ∀ b name, owns' b name ↔ (b = a ∧ name = new) ∨ owns b name) :
    Filed owns' (new :: directory) kept unopened := by
  -- nobody has owned a file of this name
  have hnobody : ∀ b, ¬owns b new := fun b hb => hnew ((h.listed new).mpr (Or.inl ⟨b, hb⟩))
  constructor
  · intro name
    rw [List.mem_cons, h.listed name]
    constructor
    · rintro (rfl | ⟨b, hb⟩ | hleft)
      · exact Or.inl ⟨a, (howns a name).mpr (Or.inl ⟨rfl, rfl⟩)⟩
      · exact Or.inl ⟨b, (howns b name).mpr (Or.inr hb)⟩
      · exact Or.inr hleft
    · rintro (⟨b, hb⟩ | hleft)
      · rcases (howns b name).mp hb with ⟨-, rfl⟩ | hb
        · exact Or.inl rfl
        · exact Or.inr (Or.inl ⟨b, hb⟩)
      · exact Or.inr (Or.inr hleft)
  · intro name b b' hb hb'
    rcases (howns b name).mp hb with ⟨rfl, rfl⟩ | hb
    · rcases (howns b' name).mp hb' with ⟨rfl, -⟩ | hb'
      · rfl
      · exact absurd hb' (hnobody b')
    · rcases (howns b' name).mp hb' with ⟨-, rfl⟩ | hb'
      · exact absurd hb (hnobody b)
      · exact h.distinct name b b' hb hb'
  · intro name b hb
    rcases (howns b name).mp hb with ⟨-, rfl⟩ | hb
    · constructor
      · exact fun hmem => hnew ((h.listed name).mpr (Or.inr (Or.inl hmem)))
      · exact fun hmem => hnew ((h.listed name).mpr (Or.inr (Or.inr hmem)))
    · exact h.apart name b hb

section Closed

variable (hown : ∀ name, owns a name ↔ name = own)
  (howns : ∀ b name, owns' b name ↔ b ≠ a ∧ owns b name)

include hown howns

/-- What the others own is not the file of the cache at the address `a`. -/
theorem other_name (h : Filed owns directory kept unopened) {b name : ℕ} (hb : owns' b name) :
    name ≠ own := by
  rcases (howns b name).mp hb with ⟨hne, hb⟩
  intro hname
  exact hne (h.distinct name b a hb ((hown name).mpr hname))

/-- The file of the cache at the address `a` is closed and removed. -/
theorem remove (h : Filed owns directory kept unopened) :
    Filed owns' (directory.filter fun other => other ≠ own) kept unopened := by
  refine ⟨?_, ?_, fun name b hb => h.apart name b ((howns b name).mp hb).2⟩
  · intro name
    rw [List.mem_filter, h.listed name]
    simp only [decide_eq_true_eq]
    constructor
    · rintro ⟨⟨b, hb⟩ | hleft, hne⟩
      · refine Or.inl ⟨b, (howns b name).mpr ⟨?_, hb⟩⟩
        rintro rfl
        exact hne ((hown name).mp hb)
      · exact Or.inr hleft
    · rintro (⟨b, hb⟩ | hleft)
      · exact ⟨Or.inl ⟨b, ((howns b name).mp hb).2⟩, h.other_name hown howns hb⟩
      · refine ⟨Or.inr hleft, ?_⟩
        rintro rfl
        rcases h.apart name a ((hown name).mpr rfl) with ⟨hkept, hunopened⟩
        exact hleft.elim hkept hunopened
  · exact fun name b b' hb hb' =>
      h.distinct name b b' ((howns b name).mp hb).2 ((howns b' name).mp hb').2

/-- The file of the cache at the address `a` is closed and kept. -/
theorem keep (h : Filed owns directory kept unopened) :
    Filed owns' directory (own :: kept) unopened := by
  constructor
  · intro name
    rw [h.listed name, List.mem_cons]
    constructor
    · rintro (⟨b, hb⟩ | hkept | hunopened)
      · by_cases hname : b = a
        · rw [hname] at hb
          exact Or.inr (Or.inl (Or.inl ((hown name).mp hb)))
        · exact Or.inl ⟨b, (howns b name).mpr ⟨hname, hb⟩⟩
      · exact Or.inr (Or.inl (Or.inr hkept))
      · exact Or.inr (Or.inr hunopened)
    · rintro (⟨b, hb⟩ | (hname | hkept) | hunopened)
      · exact Or.inl ⟨b, ((howns b name).mp hb).2⟩
      · exact Or.inl ⟨a, (hown name).mpr hname⟩
      · exact Or.inr (Or.inl hkept)
      · exact Or.inr (Or.inr hunopened)
  · exact fun name b b' hb hb' =>
      h.distinct name b b' ((howns b name).mp hb).2 ((howns b' name).mp hb').2
  · intro name b hb
    rcases h.apart name b ((howns b name).mp hb).2 with ⟨hkept, hunopened⟩
    refine ⟨?_, hunopened⟩
    intro hmem
    rcases List.mem_cons.mp hmem with hname | hmem
    · exact h.other_name hown howns hb hname
    · exact hkept hmem

end Closed

end Filed

namespace Shared

variable {n : ℕ} [NeZero n] {s : Shared n} {hs hs' : List ℕ} {a : ℕ}

/-- The cache at an address has the file of this name. -/
def Owns (heap : Store (SharedCache n)) (a name : ℕ) : Prop :=
  ∃ x, heap.value a = some x ∧ x.filename = some name

/-- A cache without a file is made. -/
theorem owns_alloc_none {heap : Store (SharedCache n)} (hnone : heap.value heap.next = none)
    {c : Cache n} {b name : ℕ} : Owns (heap.alloc ⟨c, none⟩) b name ↔ Owns heap b name := by
  unfold Owns
  rw [Store.value_alloc]
  split
  · rename_i hb
    rw [hb, hnone]
    simp
  · rfl

/-- A cache with a file is made. -/
theorem owns_alloc_some {heap : Store (SharedCache n)} (hnone : heap.value heap.next = none)
    {c : Cache n} {new b name : ℕ} :
    Owns (heap.alloc ⟨c, some new⟩) b name ↔ (b = heap.next ∧ name = new) ∨ Owns heap b name := by
  unfold Owns
  rw [Store.value_alloc]
  split
  · rename_i hb
    rw [hb, hnone]
    simp [eq_comm]
  · rename_i hb
    simp [hb]

/-- A reference is dropped, and with the last one the cache. -/
theorem owns_unref {heap : Store (SharedCache n)} {b name : ℕ} :
    Owns (heap.unref a) b name ↔ ¬(b = a ∧ heap.frees a = true) ∧ Owns heap b name := by
  unfold Owns
  rw [Store.value_unref]
  split
  · rename_i hfreed
    simp [hfreed]
  · rename_i hfreed
    rw [and_iff_right hfreed]

/-- The heap and the directory agree, when these have references. -/
structure Ledger (s : Shared n) (hs : List ℕ) : Prop where
  counted : Counted s.heap hs
  named : ∀ a x, s.heap.value a = some x → x.cache.file.isSome = x.filename.isSome
  filed : Filed (Owns s.heap) s.directory s.kept s.unopened

namespace Ledger

theorem perm (h : s.Ledger hs) (hp : hs.Perm hs') : s.Ledger hs' :=
  ⟨h.counted.perm hp, h.named, h.filed⟩

theorem ref (h : s.Ledger hs) (ha : a ∈ hs) : (s.ref a).Ledger (a :: hs) := by
  have hvalue : ∀ b, (s.ref a).heap.value b = s.heap.value b := s.heap.value_ref a
  refine ⟨h.counted.ref ha, ?_, h.filed.congr ?_⟩
  · intro b x hx
    exact h.named b x ((hvalue b).symm.trans hx)
  · intro b name
    unfold Owns
    rw [hvalue]

/-- The names of the files stay, and so does which of the caches have one. -/
theorem modify (h : s.Ledger hs) (ha : a ∈ hs) {f : Cache n → Cache n}
    (hf : ∀ x, s.heap.value a = some x → (f x.cache).file.isSome = x.cache.file.isSome) :
    (s.modify a f).Ledger hs := by
  have hvalue : ∀ b, (s.modify a f).heap.value b =
      if b = a then (s.heap.value b).map fun x => { x with cache := f x.cache }
      else s.heap.value b := s.heap.value_modify a _
  refine ⟨h.counted.modify ha fun x => { x with cache := f x.cache }, ?_, h.filed.congr ?_⟩
  · intro b y hy
    rw [hvalue] at hy
    split at hy
    · rename_i hb
      rcases Option.map_eq_some_iff.mp hy with ⟨x, hx, rfl⟩
      exact (hf x (hb ▸ hx)).trans (h.named b x hx)
    · exact h.named b y hy
  · intro b name
    unfold Owns
    rw [hvalue]
    split
    · simp
    · rfl

/-- A cache that somebody else refers to stays as it is. -/
theorem value_unref (h : s.Ledger (a :: hs)) {b : ℕ} (hb : b ∈ hs) :
    (s.unref a).heap.value b = s.heap.value b := by
  have hstay : (s.heap.unref a).value b = s.heap.value b := by
    rw [Store.value_unref, if_neg]
    rintro ⟨rfl, hfrees⟩
    exact h.counted.freed_iff.mp hfrees hb
  unfold Shared.unref
  split
  · unfold diskClose
    repeat' split
    all_goals exact hstay
  · exact hstay

/-- The last reference removes the file, or leaves it to be kept. -/
theorem unref (h : s.Ledger (a :: hs)) : (s.unref a).Ledger hs := by
  have hcounted := h.counted.unref
  have hnamed : ∀ b y, (s.heap.unref a).value b = some y →
      y.cache.file.isSome = y.filename.isSome := by
    intro b y hy
    rw [Store.value_unref] at hy
    split at hy
    · cases hy
    · exact h.named b y hy
  rcases h.counted.value_present List.mem_cons_self with ⟨x, hx⟩
  unfold Shared.unref
  rw [hx]
  cases hfrees : s.heap.frees a with
  | false =>
      refine ⟨hcounted, hnamed, h.filed.congr ?_⟩
      intro b name
      rw [owns_unref, hfrees]
      simp
  | true =>
      have howns : ∀ b name, Owns (s.heap.unref a) b name ↔ b ≠ a ∧ Owns s.heap b name := by
        intro b name
        rw [owns_unref, hfrees]
        simp
      have hname := h.named a x hx
      dsimp only
      unfold diskClose
      cases hfile : x.filename with
      | none =>
          rw [hfile, Option.isSome_none] at hname
          rw [if_pos (by simpa using hname)]
          refine ⟨hcounted, hnamed, h.filed.congr ?_⟩
          intro b name
          rw [howns, and_iff_right_iff_imp]
          rintro ⟨y, hy, hyname⟩ rfl
          cases hx.symm.trans hy
          cases hfile.symm.trans hyname
      | some own =>
          rw [hfile, Option.isSome_some] at hname
          have hopen : x.cache.file.isNone = false := by simpa using hname
          have hown : ∀ name, Owns s.heap a name ↔ name = own := by
            intro name
            simp [Owns, hx, hfile, eq_comm]
          rw [hopen]
          dsimp only
          split
          · exact absurd ‹_› Bool.false_ne_true
          · split
            · exact ⟨hcounted, hnamed, h.filed.remove hown howns⟩
            · exact ⟨hcounted, hnamed, h.filed.keep hown howns⟩

/-- A new cache, with a file under a new name or without a file. -/
theorem new (h : s.Ledger hs) {memory : Fin n → ℕ → UInt8} {autoremove : Bool} {disk : DiskOpen}
    (hfresh : disk.isFresh s.directory = true) :
    (s.new memory autoremove disk).Ledger (s.heap.next :: hs) := by
  -- there is nothing at the new address
  have hnone : s.heap.value s.heap.next = none := by
    cases hvalue : s.heap.value s.heap.next with
    | none => rfl
    | some x => exact absurd (h.counted.held hvalue) h.counted.fresh
  have hnamed : ∀ v : SharedCache n, v.cache.file.isSome = v.filename.isSome →
      ∀ b y, (s.heap.alloc v).value b = some y → y.cache.file.isSome = y.filename.isSome := by
    intro v hv b y hy
    rw [Store.value_alloc] at hy
    split at hy
    · cases hy
      exact hv
    · exact h.named b y hy
  cases disk with
  | none =>
      refine ⟨h.counted.alloc _, hnamed _ rfl, h.filed.congr ?_⟩
      exact fun b name => owns_alloc_none hnone
  | unopened name =>
      have hnew : name ∉ s.directory := by simpa [DiskOpen.isFresh] using hfresh
      refine ⟨h.counted.alloc _, hnamed _ rfl, (h.filed.make hnew).congr ?_⟩
      exact fun b other => owns_alloc_none hnone
  | opened name =>
      have hnew : name ∉ s.directory := by simpa [DiskOpen.isFresh] using hfresh
      refine ⟨h.counted.alloc _, hnamed _ rfl, h.filed.assign (a := s.heap.next) hnew ?_⟩
      exact fun b other => owns_alloc_some hnone

end Ledger

end Shared

/-! ## Runs -/

namespace Shifter

variable {n : ℕ} [NeZero n] {s s' : Shifter n} {a : ℕ}

/-- The ledger is right, and a cache whose thread runs has one only. -/
structure Books (s : Shifter n) : Prop where
  ledger : s.shared.Ledger s.holders
  running : ∀ a ∈ s.threads, ∃ x, s.shared.heap.value a = some x ∧ x.cache.thread.isSome
  single : s.threads.Nodup

namespace Books

theorem of_init : (init n).Books where
  ledger := by
    refine ⟨.empty, ?_, ?_, ?_, ?_⟩
    · intro a x h
      cases h
    · simp [init, Store.empty, Store.value, Shared.Owns]
    · rintro name a b ⟨x, h, -⟩
      cases h
    · rintro name a ⟨x, h, -⟩
      cases h
  running := by simp [init]
  single := .nil

theorem cache_mem (hcache : s.cache = some a) : a ∈ s.holders := by
  simp [holders, hcache]

theorem thread_mem (ha : a ∈ s.threads) : a ∈ s.holders := by
  simp [holders, ha]

/-- The cache of the element is there. -/
theorem withCache (h : s.Books) {f : ℕ → Cache n → Option (Shifter n)}
    (hs : s.withCache f = some s') :
    ∃ a x, s.cache = some a ∧ s.shared.heap.value a = some x ∧ f a x.cache = some s' := by
  unfold Shifter.withCache at hs
  split at hs
  · cases hs
  · rcases Option.bind_eq_some_iff.mp hs with ⟨a, hcache, hs⟩
    rcases h.ledger.counted.value_present (cache_mem hcache) with ⟨x, hx⟩
    rw [hx] at hs
    exact ⟨a, x, hcache, hx, hs⟩

/-- Something happens to one of the caches. -/
theorem modify (h : s.Books) (ha : a ∈ s.holders) {f : Cache n → Cache n}
    (hf : ∀ x, s.shared.heap.value a = some x → (f x.cache).file.isSome = x.cache.file.isSome)
    (hthread : a ∈ s.threads → ∀ x, s.shared.heap.value a = some x → x.cache.Threaded (f x.cache)) :
    ({ s with shared := s.shared.modify a f } : Shifter n).Books := by
  refine ⟨h.ledger.modify ha hf, ?_, h.single⟩
  intro b hb
  rcases h.running b hb with ⟨x, hx, hsome⟩
  unfold Shared.modify
  dsimp only
  rw [Store.value_modify, hx]
  split
  · rename_i hsame
    subst hsame
    exact ⟨_, rfl, hthread hb x hx hsome⟩
  · exact ⟨x, rfl, hsome⟩

theorem put (h : s.Books) (hcache : s.cache = some a) {x : SharedCache n} {c : Cache n}
    (hx : s.shared.heap.value a = some x) (hfile : c.file.isSome = x.cache.file.isSome)
    (hthread : x.cache.Threaded c) : (s.put a c).Books := by
  refine h.modify (cache_mem hcache) ?_ ?_
  · intro y hy
    cases hx.symm.trans hy
    exact hfile
  · intro _ y hy
    cases hx.symm.trans hy
    exact hthread

theorem put_value (hx : s.shared.heap.value a = some x) (c : Cache n) :
    (s.put a c).shared.heap.value a = some { x with cache := c } := by
  unfold Shifter.put Shared.modify
  dsimp only
  rw [Store.value_modify, if_pos rfl, hx]
  rfl

/-- A thread gets its reference, whether it can be created or not. -/
theorem createThread (h : s.Books) (ha : a ∈ s.holders) (hnew : a ∉ s.threads) {created : Bool}
    (hsome : created = true → ∃ x, s.shared.heap.value a = some x ∧ x.cache.thread.isSome) :
    (s.createThread a created).Books := by
  have hvalue : ∀ b, (s.shared.ref a).heap.value b = s.shared.heap.value b :=
    fun b => s.shared.heap.value_ref a b
  cases created with
  | true =>
      refine ⟨(h.ledger.ref ha).perm ?_, ?_, List.nodup_cons.mpr ⟨hnew, h.single⟩⟩
      · rw [List.perm_iff_count]
        intro b
        simp only [Shifter.createThread, holders, List.count_append, List.count_cons, if_true]
        omega
      · intro b hb
        show ∃ x, (s.shared.ref a).heap.value b = some x ∧ _
        rw [hvalue]
        rcases List.mem_cons.mp hb with rfl | hb
        · exact hsome rfl
        · exact h.running b hb
  | false =>
      refine ⟨(h.ledger.ref ha).perm ?_, ?_, h.single⟩
      · rw [List.perm_iff_count]
        intro b
        simp only [Shifter.createThread, holders, List.count_append, List.count_cons,
          Bool.false_eq_true, if_false]
        omega
      · intro b hb
        show ∃ x, (s.shared.ref a).heap.value b = some x ∧ _
        rw [hvalue]
        exact h.running b hb

/-- A reference is dropped. -/
theorem unref (h : s.Books) (hshared : s'.shared = s.shared.unref a)
    (hperm : s.holders.Perm (a :: s'.holders)) (hthreads : s'.threads.Sublist s.threads) :
    s'.Books := by
  have hledger := h.ledger.perm hperm
  refine ⟨hshared ▸ hledger.unref, ?_, h.single.sublist hthreads⟩
  intro b hb
  rw [hshared, hledger.value_unref (thread_mem hb)]
  exact h.running b (hthreads.subset hb)

theorem push (h : s.Books) {data : Block UInt8} {p : Platform}
    (hs : s.push data p = some s') : s'.Books := by
  rcases h.withCache hs with ⟨a, x, hcache, hx, heq⟩
  cases heq
  have hput := h.put hcache hx (Cache.SameControls.push _ data p).file
    (x.cache.threaded_push data p)
  split
  · rename_i hattempts
    rcases Cache.pushAttempts_thread hattempts with ⟨hnone, hsome⟩
    refine hput.createThread (cache_mem hcache) ?_ ?_
    · intro hrunning
      rcases h.running a hrunning with ⟨y, hy, hthread⟩
      cases hx.symm.trans hy
      rw [hnone] at hthread
      cases hthread
    · exact fun hcreated => ⟨_, put_value hx _, hsome hcreated⟩
  · exact hput

theorem pop (h : s.Books) {drain : Bool} {p : Platform} (hs : s.pop drain p = some s') :
    s'.Books := by
  rcases h.withCache hs with ⟨a, x, hcache, hx, heq⟩
  cases heq
  have hthread : x.cache.Threaded (x.cache.pop drain p).1 := by
    intro hsome
    rw [(Cache.SameDisk.pop x.cache drain p).thread]
    exact hsome
  have hput := h.put hcache hx (Cache.SameControls.pop _ drain p).file hthread
  split
  · exact hput
  · rename_i b _
    refine ⟨(hput.ledger.ref (cache_mem hcache)).perm ?_, ?_, hput.single⟩
    · rw [List.perm_iff_count]
      intro b'
      simp only [holders, List.count_append, List.count_cons, List.map_cons]
      omega
    · intro b' hb'
      rcases hput.running b' hb' with ⟨y, hy, hsome⟩
      exact ⟨y, (Store.value_ref _ _ _).trans hy, hsome⟩

theorem startRecording (h : s.Books) {p : Platform} (hs : s.startRecording p = some s') :
    s'.Books := by
  rcases h.withCache hs with ⟨a, x, hcache, hx, heq⟩
  cases heq
  have hput := h.put hcache hx (Cache.SameControls.startRecording _ p).file
    (x.cache.threaded_startRecording p)
  split
  · rename_i hattempts
    refine hput.createThread (cache_mem hcache) ?_ ?_
    · intro hrunning
      rcases h.running a hrunning with ⟨y, hy, hthread⟩
      cases hx.symm.trans hy
      unfold Cache.attempts at hattempts
      simp only [Bool.and_eq_true, Option.isNone_iff_eq_none] at hattempts
      rw [hattempts.1.2] at hthread
      cases hthread
    · exact fun hcreated => ⟨_, put_value hx _, Cache.startRecording_attempts hattempts hcreated⟩
  · exact hput

/-- The element drops its cache, if it has one. -/
theorem unrefCache (h : s.Books) :
    ({ s with shared := s.unrefCache, cache := none } : Shifter n).Books := by
  cases hcache : s.cache with
  | none =>
      have hsame : s.unrefCache = s.shared := by
        unfold Shifter.unrefCache
        rw [hcache]
        rfl
      refine ⟨?_, ?_, h.single⟩
      · rw [hsame]
        refine h.ledger.perm ?_
        unfold holders
        rw [hcache]
      · rw [hsame]
        exact h.running
  | some a =>
      refine h.unref (a := a) ?_ ?_ (List.Sublist.refl _)
      · unfold Shifter.unrefCache
        rw [hcache]
        rfl
      · unfold holders
        rw [hcache]
        exact .refl _

theorem start (h : s.Books) {memory : Fin n → ℕ → UInt8} {disk : DiskOpen}
    (hs : s.step (.start memory disk) = some s') : s'.Books := by
  unfold step at hs
  dsimp only at hs
  split at hs
  · cases hs
  rename_i hfresh
  rw [Bool.or_eq_true, not_or] at hfresh
  cases hs
  have hbare := h.unrefCache
  refine ⟨hbare.ledger.new (by simpa using hfresh.2), ?_, h.single⟩
  intro b hb
  rcases hbare.running b hb with ⟨x, hx, hsome⟩
  refine ⟨x, ?_, hsome⟩
  have hne : b ≠ s.unrefCache.heap.next := by
    rintro rfl
    exact hbare.ledger.counted.fresh (thread_mem hb)
  have hstay : ∀ v, (s.unrefCache.heap.alloc v).value b = some x := by
    intro v
    rw [Store.value_alloc, if_neg hne]
    exact hx
  show (Shared.new _ memory _ disk).heap.value b = some x
  cases disk <;> exact hstay _

theorem stopJoin (h : s.Books) (hs : s.step .stopJoin = some s') : s'.Books := by
  unfold step at hs
  dsimp only at hs
  split at hs
  · cases hs
  rcases Option.bind_eq_some_iff.mp hs with ⟨a, hcache, hs⟩
  split at hs
  · cases hs
  rename_i hidle
  cases hs
  have hjoined := h.modify (cache_mem hcache)
    (f := fun c => { c with thread := none, isRecording := false }) (fun _ _ => rfl)
    fun hrunning => absurd hrunning hidle
  refine hjoined.unref (a := a) rfl ?_ (List.Sublist.refl _)
  unfold holders
  dsimp only
  rw [hcache]
  exact .refl _

/-- An entry of a list comes to the front. -/
theorem perm_eraseIdx {α : Type*} {xs : List α} {x : α} {k : ℕ} (hk : xs[k]? = some x) :
    xs.Perm (x :: xs.eraseIdx k) := by
  rcases List.getElem?_eq_some_iff.mp hk with ⟨hlt, rfl⟩
  exact (List.getElem_cons_eraseIdx_perm hlt).symm

theorem free (h : s.Books) {k : ℕ} (hs : s.step (.free k) = some s') : s'.Books := by
  unfold step at hs
  rcases Option.map_eq_some_iff.mp hs with ⟨b, hb, rfl⟩
  have hperm := perm_eraseIdx hb
  have hmem : b.1 ∈ s.holders := by
    have := List.mem_of_getElem? hb
    simp only [holders, List.mem_append, List.mem_map]
    exact Or.inr (Or.inl ⟨b, this, rfl⟩)
  have hreleased := h.modify hmem (f := fun c => c.release b.2.slot) (fun _ _ => rfl)
    fun _ _ _ hsome => hsome
  refine hreleased.unref (a := b.1) rfl ?_ (List.Sublist.refl _)
  rw [List.perm_iff_count]
  intro a
  have hcount := (hperm.map Prod.fst).count_eq a
  rw [List.map_cons, List.count_cons] at hcount
  simp only [holders, List.count_append, List.count_cons]
  omega

theorem threadExit (h : s.Books) {k : ℕ} (hs : s.step (.threadExit k) = some s') : s'.Books := by
  unfold step at hs
  rcases Option.bind_eq_some_iff.mp hs with ⟨a, ha, hs⟩
  split at hs
  · cases hs
    refine h.unref (a := a) rfl ?_ (List.eraseIdx_sublist _ _)
    rw [List.perm_iff_count]
    intro b
    have hcount := (perm_eraseIdx ha).count_eq b
    rw [List.count_cons] at hcount
    simp only [holders, List.count_append, List.count_cons]
    omega
  · cases hs

theorem setRecordingRemove (h : s.Books) {value : Bool}
    (hs : s.step (.setRecordingRemove value) = some s') : s'.Books := by
  unfold Shifter.step at hs
  dsimp only at hs
  split at hs
  · cases hs
  · cases hs
    have hbooks : ∀ cache, s.cache = cache → ({ s with
        shared := cache.elim s.shared fun a =>
          s.shared.modify a fun c => { c with autoremove := value } } : Shifter n).Books := by
      intro cache hcache
      cases cache with
      | none => exact ⟨h.ledger, h.running, h.single⟩
      | some a =>
          exact h.modify (cache_mem hcache) (f := fun c => { c with autoremove := value })
            (fun _ _ => rfl) fun _ _ _ hsome => hsome
    have h' := hbooks s.cache rfl
    exact ⟨h'.ledger, h'.running, h'.single⟩

theorem step (h : s.Books) {l : ShifterOp n} (hs : s.step l = some s') : s'.Books := by
  cases l with
  | start memory disk => exact h.start hs
  | stopRequest =>
      unfold Shifter.step at hs
      rcases h.withCache hs with ⟨a, x, hcache, hx, heq⟩
      cases heq
      have hput := h.put (c := x.cache.stopRequest) hcache hx rfl fun hsome => hsome
      exact ⟨hput.ledger, hput.running, hput.single⟩
  | stopJoin => exact h.stopJoin hs
  | setRecordingRemove value => exact h.setRecordingRemove hs
  | push data p => exact h.push hs
  | pop drain p => exact h.pop hs
  | seek offset p =>
      unfold Shifter.step at hs
      rcases h.withCache hs with ⟨a, x, hcache, hx, heq⟩
      rcases Option.map_eq_some_iff.mp heq with ⟨c, hc, rfl⟩
      refine h.put hcache hx (Cache.SameControls.seek hc).file ?_
      intro hsome
      rw [(Cache.SameDisk.seek hc).thread]
      exact hsome
  | startRecording p => exact h.startRecording hs
  | free k => exact h.free hs
  | migrate k p =>
      rcases Option.map_eq_some_iff.mp hs with ⟨a, ha, rfl⟩
      exact h.modify (thread_mem (List.mem_of_getElem? ha))
        (fun x _ => (Cache.SameControls.migrationThread x.cache p).file)
        fun _ x _ => x.cache.threaded_migrationThread p
  | threadExit k => exact h.threadExit hs

end Books

/-- In every run, in any order of the steps of the element, of the migration threads and of
those who own buffers: nobody touches a cache that has been freed; a cache is there exactly
while somebody refers to it, and is counted by the number of those who do; and no cache has
two migration threads at a time. -/
theorem caches_counted (h : Reach step (fun _ _ => True) (init n) s) :
    s.shared.heap.fault = false ∧
      (∀ a, (∃ x, s.shared.heap.value a = some x) ↔ a ∈ s.holders) ∧
      (∀ a c, s.shared.heap.cell a = some c → c.count = s.holders.count a) ∧
      s.threads.Nodup := by
  have hbooks : s.Books := h.invariant .of_init fun _ _ _ hb _ hs => hb.step hs
  have hcounted := hbooks.ledger.counted
  refine ⟨hcounted.sound, ?_, fun a c hc => (hcounted.count a c hc).1, hbooks.single⟩
  intro a
  exact ⟨fun ⟨x, hx⟩ => hcounted.held hx, hcounted.value_present⟩

/-- A thread cannot be created; a second cache takes over while a buffer of the first one is
still owned by somebody. -/
theorem caches_counted_two : ∃ s : Shifter 1, Reach step (fun _ _ => True) (init 1) s ∧
    s.holders = [1, 0, 0] ∧ (∃ x, s.shared.heap.value 0 = some x) ∧
    ∀ c, s.shared.heap.cell 0 = some c → c.count = 2 := by
  have h₀ : Reach step (fun _ _ => True) (init 1) _ := .refl
  have h₁ := h₀.extend (.start (fun _ _ => 0) (.opened 7)) trivial rfl
  have h₂ := h₁.extend (.push ⟨1, fun _ => 7⟩ .allOk) trivial rfl
  have h₃ := h₂.extend (.pop true .allOk) trivial rfl
  have h₄ := h₃.extend (.startRecording { Platform.allOk with threadCreate := false }) trivial rfl
  have h₅ := h₄.extend (.start (fun _ _ => 0) .none) trivial rfl
  have hcounted := caches_counted h₅
  exact ⟨_, h₅, rfl, (hcounted.2.1 0).mpr (by decide), fun c hc => hcounted.2.2.1 0 c hc⟩

/-! ## Files -/

/-- In every run: a file is in the directory exactly while its cache is referred to, or when
it was to be kept as its cache was freed, or when it could not be opened. No two caches
have the same file, and a file that is in use is not one of those to be kept. -/
theorem files_accounted (h : Reach step (fun _ _ => True) (init n) s) :
    (∀ name, name ∈ s.shared.directory ↔
      (∃ a ∈ s.holders, ∃ x, s.shared.heap.value a = some x ∧ x.filename = some name) ∨
        name ∈ s.shared.kept ∨ name ∈ s.shared.unopened) ∧
      ∀ name a b x y, s.shared.heap.value a = some x → s.shared.heap.value b = some y →
        x.filename = some name → y.filename = some name → a = b ∧ name ∉ s.shared.kept := by
  have hbooks : s.Books := h.invariant .of_init fun _ _ _ hb _ hs => hb.step hs
  have hledger := hbooks.ledger
  constructor
  · intro name
    rw [hledger.filed.listed name]
    apply or_congr_left
    constructor
    · rintro ⟨a, x, hx, hname⟩
      exact ⟨a, hledger.counted.held hx, x, hx, hname⟩
    · rintro ⟨a, -, x, hx, hname⟩
      exact ⟨a, x, hx, hname⟩
  · intro name a b x y hx hy hxname hyname
    exact ⟨hledger.filed.distinct name a b ⟨x, hx, hxname⟩ ⟨y, hy, hyname⟩,
      (hledger.filed.apart name a ⟨x, hx, hxname⟩).1⟩

/-- The file of a cache that is to be kept stays when the cache has been freed. -/
theorem files_accounted_kept : ∃ s : Shifter 1, Reach step (fun _ _ => True) (init 1) s ∧
    s.holders = [] ∧ 7 ∈ s.shared.directory ∧ 8 ∈ s.shared.directory := by
  have h₀ : Reach step (fun _ _ => True) (init 1) _ := .refl
  have h₁ := h₀.extend (.start (fun _ _ => 0) (.unopened 8)) trivial rfl
  have h₂ := h₁.extend (.start (fun _ _ => 0) (.opened 7)) trivial rfl
  have h₃ := h₂.extend (.setRecordingRemove false) trivial rfl
  have h₄ := h₃.extend .stopRequest trivial rfl
  have h₅ := h₄.extend .stopJoin trivial rfl
  have hfiles := (files_accounted h₅).1
  refine ⟨_, h₅, rfl, (hfiles 7).mpr ?_, (hfiles 8).mpr ?_⟩
  · exact Or.inr (Or.inl (by decide))
  · exact Or.inr (Or.inr (by decide))

end Shifter

namespace Shared

variable {n : ℕ} [NeZero n] {s : Shared n} {a : ℕ}

/-- All files are to be removed. -/
structure Removing (s : Shared n) : Prop where
  autoremove : ∀ a x, s.heap.value a = some x → x.cache.autoremove = true
  kept : s.kept = []

namespace Removing

theorem ref (h : s.Removing) (a : ℕ) : (s.ref a).Removing := by
  refine ⟨?_, h.kept⟩
  intro b x hx
  exact h.autoremove b x ((Store.value_ref _ _ _).symm.trans hx)

theorem modify (h : s.Removing) {f : Cache n → Cache n}
    (hf : ∀ x, s.heap.value a = some x → (f x.cache).autoremove = true) :
    (s.modify a f).Removing := by
  refine ⟨?_, h.kept⟩
  intro b y hy
  unfold Shared.modify at hy
  dsimp only at hy
  rw [Store.value_modify] at hy
  split at hy
  · rename_i hb
    rcases Option.map_eq_some_iff.mp hy with ⟨x, hx, rfl⟩
    exact hf x (hb ▸ hx)
  · exact h.autoremove b y hy

theorem unref (h : s.Removing) (a : ℕ) : (s.unref a).Removing := by
  have hgone : ∀ b x, (s.heap.unref a).value b = some x → x.cache.autoremove = true := by
    intro b x hx
    rw [Store.value_unref] at hx
    split at hx
    · cases hx
    · exact h.autoremove b x hx
  unfold Shared.unref
  split
  · rename_i x hx _
    have hremove := h.autoremove a x hx
    unfold diskClose
    split
    · exact ⟨hgone, h.kept⟩
    · split
      · exact ⟨hgone, h.kept⟩
      · exact ⟨hgone, h.kept⟩
  · exact ⟨hgone, h.kept⟩

theorem new (h : s.Removing) (memory : Fin n → ℕ → UInt8) (disk : DiskOpen) :
    (s.new memory true disk).Removing := by
  have hvalue : ∀ v : SharedCache n, v.cache.autoremove = true →
      ∀ b x, (s.heap.alloc v).value b = some x → x.cache.autoremove = true := by
    intro v hv b x hx
    rw [Store.value_alloc] at hx
    split at hx
    · cases hx
      exact hv
    · exact h.autoremove b x hx
  cases disk with
  | none => exact ⟨hvalue _ rfl, h.kept⟩
  | unopened name => exact ⟨hvalue _ rfl, h.kept⟩
  | opened name => exact ⟨hvalue _ rfl, h.kept⟩

end Removing

end Shared

namespace Shifter

variable {n : ℕ} [NeZero n] {s s' : Shifter n} {a : ℕ}

/-- The property `recording-remove` stays set. -/
def removes (_ : Shifter n) (l : ShifterOp n) : Prop := l ≠ .setRecordingRemove false

/-- All files of the caches, of the next one too, are to be removed. -/
structure Removing (s : Shifter n) : Prop where
  books : s.Books
  property : s.recordingRemove = true
  shared : s.shared.Removing

namespace Removing

/-- An operation of the element on its cache. -/
theorem put (h : s.Removing) {x : SharedCache n} {c : Cache n}
    (hx : s.shared.heap.value a = some x) (hc : c.autoremove = x.cache.autoremove) :
    (s.put a c).shared.Removing := by
  refine h.shared.modify (a := a) (f := fun _ => c) ?_
  intro y hy
  cases hx.symm.trans hy
  rw [hc]
  exact h.shared.autoremove a x hx

theorem unrefCache (h : s.Removing) : s.unrefCache.Removing := by
  unfold Shifter.unrefCache
  cases s.cache with
  | none => exact h.shared
  | some a => exact h.shared.unref a

theorem start (h : s.Removing) {memory : Fin n → ℕ → UInt8} {disk : DiskOpen}
    (hs : s.step (.start memory disk) = some s') : s'.Removing := by
  have hbooks := h.books.step hs
  unfold Shifter.step at hs
  dsimp only at hs
  split at hs
  · cases hs
  · cases hs
    refine ⟨hbooks, h.property, ?_⟩
    rw [h.property]
    exact h.unrefCache.new memory disk

theorem stopJoin (h : s.Removing) (hs : s.step .stopJoin = some s') : s'.Removing := by
  have hbooks := h.books.step hs
  unfold Shifter.step at hs
  dsimp only at hs
  split at hs
  · cases hs
  rcases Option.bind_eq_some_iff.mp hs with ⟨a, hcache, hs⟩
  split at hs
  · cases hs
  · cases hs
    refine ⟨hbooks, h.property, Shared.Removing.unref ?_ a⟩
    exact h.shared.modify (f := fun c => { c with thread := none, isRecording := false })
      fun x hx => h.shared.autoremove a x hx

/-- The property is set once more. -/
theorem setRecordingRemove (h : s.Removing) (hs : s.step (.setRecordingRemove true) = some s') :
    s'.Removing := by
  have hbooks := h.books.step hs
  unfold Shifter.step at hs
  dsimp only at hs
  split at hs
  · cases hs
  · cases hs
    refine ⟨hbooks, rfl, ?_⟩
    show (s.cache.elim s.shared _).Removing
    cases s.cache with
    | none => exact h.shared
    | some a =>
        exact h.shared.modify (a := a) (f := fun c => { c with autoremove := true })
          fun _ _ => rfl

theorem push (h : s.Removing) {data : Block UInt8} {p : Platform}
    (hs : s.step (.push data p) = some s') : s'.Removing := by
  have hbooks := h.books.step hs
  have hs : s.push data p = some s' := hs
  unfold Shifter.push at hs
  rcases h.books.withCache hs with ⟨a, x, hcache, hx, heq⟩
  cases heq
  have hput := h.put hx (Cache.SameControls.push x.cache data p).autoremove
  refine ⟨hbooks, ?_, ?_⟩
  · split <;> exact h.property
  · split
    · exact hput.ref a
    · exact hput

theorem pop (h : s.Removing) {drain : Bool} {p : Platform} (hs : s.step (.pop drain p) = some s') :
    s'.Removing := by
  have hbooks := h.books.step hs
  have hs : s.pop drain p = some s' := hs
  unfold Shifter.pop at hs
  rcases h.books.withCache hs with ⟨a, x, hcache, hx, heq⟩
  cases heq
  have hput := h.put hx (Cache.SameControls.pop x.cache drain p).autoremove
  refine ⟨hbooks, ?_, ?_⟩
  · split <;> exact h.property
  · split
    · exact hput
    · exact hput.ref a

theorem startRecording (h : s.Removing) {p : Platform}
    (hs : s.step (.startRecording p) = some s') : s'.Removing := by
  have hbooks := h.books.step hs
  have hs : s.startRecording p = some s' := hs
  unfold Shifter.startRecording at hs
  rcases h.books.withCache hs with ⟨a, x, hcache, hx, heq⟩
  cases heq
  have hput := h.put hx (Cache.SameControls.startRecording x.cache p).autoremove
  refine ⟨hbooks, ?_, ?_⟩
  · split <;> exact h.property
  · split
    · exact hput.ref a
    · exact hput

theorem threadExit (h : s.Removing) {k : ℕ} (hs : s.step (.threadExit k) = some s') :
    s'.Removing := by
  have hbooks := h.books.step hs
  unfold Shifter.step at hs
  rcases Option.bind_eq_some_iff.mp hs with ⟨a, ha, hs⟩
  split at hs
  · cases hs
    exact ⟨hbooks, h.property, h.shared.unref a⟩
  · cases hs

theorem step (h : s.Removing) {l : ShifterOp n} (hok : removes s l) (hs : s.step l = some s') :
    s'.Removing := by
  have hbooks := h.books.step hs
  cases l with
  | start memory disk => exact h.start hs
  | stopRequest =>
      unfold Shifter.step at hs
      rcases h.books.withCache hs with ⟨a, x, hcache, hx, heq⟩
      cases heq
      exact ⟨hbooks, h.property, h.put (c := x.cache.stopRequest) hx rfl⟩
  | stopJoin => exact h.stopJoin hs
  | setRecordingRemove value =>
      cases value with
      | true => exact h.setRecordingRemove hs
      | false => exact absurd rfl hok
  | push data p => exact h.push hs
  | pop drain p => exact h.pop hs
  | seek offset p =>
      unfold Shifter.step at hs
      rcases h.books.withCache hs with ⟨a, x, hcache, hx, heq⟩
      rcases Option.map_eq_some_iff.mp heq with ⟨c, hc, rfl⟩
      exact ⟨hbooks, h.property, h.put hx (Cache.SameControls.seek hc).autoremove⟩
  | startRecording p => exact h.startRecording hs
  | free k =>
      rcases Option.map_eq_some_iff.mp hs with ⟨b, hb, rfl⟩
      refine ⟨hbooks, h.property, Shared.Removing.unref ?_ b.1⟩
      exact h.shared.modify (f := fun c => c.release b.2.slot)
        fun x hx => h.shared.autoremove b.1 x hx
  | migrate k p =>
      rcases Option.map_eq_some_iff.mp hs with ⟨a, ha, rfl⟩
      refine ⟨hbooks, h.property, h.shared.modify (f := fun c => c.migrationThread p) ?_⟩
      intro x hx
      rw [(Cache.SameControls.migrationThread x.cache p).autoremove]
      exact h.shared.autoremove a x hx
  | threadExit k => exact h.threadExit hs

end Removing

/-- In every run that leaves `recording-remove` set: a file is in the directory only while
its cache is referred to, or when it could not be opened. Once the element is stopped, all
threads have ended, all buffers are freed and no thread has failed to be created, no cache
is left, and only the files that could not be opened. -/
theorem files_removed (h : Reach step removes (init n) s) :
    (∀ name, name ∈ s.shared.directory ↔
      (∃ a ∈ s.holders, ∃ x, s.shared.heap.value a = some x ∧ x.filename = some name) ∨
        name ∈ s.shared.unopened) ∧
      (s.cache = none → s.live = [] → s.threads = [] → s.failed = [] →
        (∀ a, s.shared.heap.value a = none) ∧
          ∀ name, name ∈ s.shared.directory ↔ name ∈ s.shared.unopened) := by
  have hinit : (init n).Removing := by
    refine ⟨.of_init, rfl, ?_, rfl⟩
    intro a x hx
    cases hx
  have hremoving : s.Removing := h.invariant hinit fun _ _ _ hr hok hs => hr.step hok hs
  have hledger := hremoving.books.ledger
  have hlisted : ∀ name, name ∈ s.shared.directory ↔
      (∃ a ∈ s.holders, ∃ x, s.shared.heap.value a = some x ∧ x.filename = some name) ∨
        name ∈ s.shared.unopened := by
    intro name
    rw [hledger.filed.listed name, hremoving.shared.kept]
    constructor
    · rintro (⟨a, x, hx, hname⟩ | hkept | hunopened)
      · exact Or.inl ⟨a, hledger.counted.held hx, x, hx, hname⟩
      · cases hkept
      · exact Or.inr hunopened
    · rintro (⟨a, -, x, hx, hname⟩ | hunopened)
      · exact Or.inl ⟨a, x, hx, hname⟩
      · exact Or.inr (Or.inr hunopened)
  refine ⟨hlisted, ?_⟩
  intro hcache hlive hthreads hfailed
  have hholders : s.holders = [] := by simp [holders, hcache, hlive, hthreads, hfailed]
  constructor
  · intro a
    cases hvalue : s.shared.heap.value a with
    | none => rfl
    | some x =>
        have hheld := hledger.counted.held hvalue
        rw [hholders] at hheld
        cases hheld
  · intro name
    rw [hlisted, hholders]
    simp

/-- The old cache is freed by the last owner of a buffer, long after the element was
stopped. -/
theorem files_removed_late : ∃ s : Shifter 1, Reach step removes (init 1) s ∧
    s.shared.directory = [] ∧ ∀ a, s.shared.heap.value a = none := by
  have h₀ : Reach step removes (init 1) _ := .refl
  have h₁ := h₀.extend (.start (fun _ _ => 0) (.opened 7)) (by simp [removes]) rfl
  have h₂ := h₁.extend (.push ⟨1, fun _ => 7⟩ .allOk) (by simp [removes]) rfl
  have h₃ := h₂.extend (.pop true .allOk) (by simp [removes]) rfl
  have h₄ := h₃.extend .stopRequest (by simp [removes]) rfl
  have h₅ := h₄.extend .stopJoin (by simp [removes]) rfl
  have h₆ := h₅.extend (.free 0) (by simp [removes]) rfl
  exact ⟨_, h₆, rfl, ((files_removed h₆).2 rfl rfl rfl rfl).1⟩

end Shifter

end TimeShift
