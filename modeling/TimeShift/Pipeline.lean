import TimeShift.Cache.Accounting
import TimeShift.TsIndexer

/-!
# The indexer in front of the time shifter

Every buffer passes through the indexer and then into the time shifter. Both count
the bytes: the indexer in `current_offset`, the cache of the time shifter in
`h_offset`, and the index is of use only as long as the two counts agree. They do
when every buffer fits into the cache and no flush comes after the first byte,
because the indexer counts every byte while the cache drops what it has no room
for, and a flush replaces the cache but leaves the indexer's count
(`offsets_agree`).

Next to what the source does with a buffer, the reader pops, releases and seeks,
and the migration thread takes its rounds.
-/

namespace TimeShift

open Bytes Machine Cache

/-- What happens to the cache between two buffers. -/
inductive ReadOp where
  | pop (drain : Bool)
  | release (k : ℕ)
  | seek (offset : ℕ)
  | migrate

/-- The operation on the cache. -/
def ReadOp.op : ReadOp → Op
  | .pop drain => .pop drain
  | .release k => .release k
  | .seek offset => .seek offset
  | .migrate => .migrate

/-- The steps of the pipeline. `flushStop` is an upstream FLUSH_STOP: the time shifter
makes a new cache, in `memory` and with `file`. -/
inductive PipelineOp (n : ℕ) where
  | buffer (data : Block UInt8)
  | read (op : ReadOp)
  | flushStop (memory : Fin n → ℕ → UInt8) (file : Option File)
  | setPcrPid (value : ℤ)
  | setDelta (value : ℤ)

/-- The indexer and the time shifter behind it. -/
structure Pipeline (n : ℕ) where
  indexer : TsIndexer
  shifter : Session n

namespace Pipeline

variable {n : ℕ} [NeZero n]

/-- Both elements have been started. -/
def init (n : ℕ) [NeZero n] (memory : Fin n → ℕ → UInt8) (file : Option File) : Pipeline n where
  indexer := TsIndexer.init
  shifter := Session.init n memory file

/-- One step of the pipeline. -/
def step (s : Pipeline n) : PipelineOp n × Platform → Option (Pipeline n)
  | (.buffer data, p) => do
    let (indexer, _) ← s.indexer.collectTime data
    let shifter ← s.shifter.step (.push data, p)
    return { indexer := indexer, shifter := shifter }
  | (.read r, p) => do
    let shifter ← s.shifter.step (r.op, p)
    return { s with shifter := shifter }
  | (.flushStop memory file, _) => some { s with shifter := Session.init n memory file }
  | (.setPcrPid value, _) => some { s with indexer := s.indexer.setPcrPid value }
  | (.setDelta value, _) => some { s with indexer := s.indexer.setDelta value }

variable {s s' : Pipeline n} {p : Platform} {data : Block UInt8}

/-- A buffer always passes: the indexer counts its bytes, and the cache gets them. -/
theorem step_buffer (s : Pipeline n) (data : Block UInt8) (p : Platform) :
    ∃ s', s.step (.buffer data, p) = some s' ∧
      s'.indexer.currentOffset = s.indexer.currentOffset + data.size ∧
      s.shifter.step (.push data, p) = some s'.shifter := by
  rcases s.indexer.collectTime_spec data with ⟨indexer, added, hcollect, hcount, -⟩
  exact ⟨⟨indexer, _⟩, by simp only [step, hcollect]; rfl, hcount, rfl⟩

theorem step_read {r : ReadOp} (h : s.step (.read r, p) = some s') :
    s'.indexer = s.indexer ∧ s.shifter.step (r.op, p) = some s'.shifter := by
  simp only [step, Option.bind_eq_bind, Option.bind_eq_some_iff] at h
  rcases h with ⟨shifter, hs, heq⟩
  cases heq
  exact ⟨rfl, hs⟩

end Pipeline

/-! ## The two counts -/

section Counts

variable {n : ℕ} [NeZero n] {p : Platform} {data : Block UInt8}

namespace Session.Counts

variable {s s' : Session n}

/-- Reading does not count. -/
theorem read (h : s.Counts) {r : ReadOp} (hs : s.step (r.op, p) = some s') :
    s'.Counts ∧ s'.cache.hOffset = s.cache.hOffset := by
  have hok : s.writesOk (r.op, p) := by cases r <;> trivial
  exact h.other hok (by cases r <;> simp [ReadOp.op]) hs

/-- A push of bytes that fit counts all of them, and stores them under their numbers. -/
theorem push_fits (h : s.Counts) (hfits : s.cache.Fits data p)
    (hs : s.step (.push data, p) = some s') :
    s'.Counts ∧ s.cache.Takes s'.cache data := by
  rcases hfits.stored with ⟨hok, hall⟩
  rcases h.push hok hs with ⟨hcounts, htakes⟩
  rw [hall] at htakes
  exact ⟨hcounts, htakes⟩

end Session.Counts

end Counts

namespace Pipeline

variable {n : ℕ} [NeZero n] {s s' : Pipeline n} {p : Platform} {data : Block UInt8}

/-- The indexer and the cache agree on the number of bytes. -/
structure InStep (s : Pipeline n) : Prop where
  counts : s.shifter.Counts
  agree : s.indexer.currentOffset = s.shifter.cache.hOffset

/-- Every buffer fits into the cache, and a flush comes before the first byte. -/
def fitting (s : Pipeline n) : PipelineOp n × Platform → Prop
  | (.buffer data, p) => s.shifter.cache.Fits data p
  | (.flushStop _ _, _) => s.indexer.currentOffset = 0
  | _ => True

namespace InStep

/-- A buffer that fits is counted by both elements alike. -/
theorem buffer (h : InStep s) (hfits : s.shifter.cache.Fits data p)
    (hs : s.step (.buffer data, p) = some s') :
    InStep s' ∧ s.shifter.cache.Takes s'.shifter.cache data := by
  rcases s.step_buffer data p with ⟨s₁, hs₁, hcount, hshifter⟩
  cases hs₁.symm.trans hs
  rcases h.counts.push_fits hfits hshifter with ⟨hcounts, htakes⟩
  refine ⟨⟨hcounts, ?_⟩, htakes⟩
  rw [hcount, h.agree, htakes.2.1]

theorem step (h : InStep s) {l : PipelineOp n × Platform} (hok : fitting s l)
    (hs : s.step l = some s') : InStep s' := by
  rcases l with ⟨op, p⟩
  cases op with
  | buffer data => exact (h.buffer hok hs).1
  | read r =>
      rcases step_read hs with ⟨hindexer, hshifter⟩
      rcases h.counts.read hshifter with ⟨hcounts, hcount⟩
      exact ⟨hcounts, by rw [hindexer, hcount]; exact h.agree⟩
  | flushStop memory file =>
      cases hs
      exact ⟨.of_init memory file, hok⟩
  | setPcrPid value =>
      cases hs
      exact ⟨h.counts, h.agree⟩
  | setDelta value =>
      cases hs
      exact ⟨h.counts, h.agree⟩

end InStep

/-- In every run in which each buffer fits into the cache and no flush comes after the
first byte: when the indexer adds an association for a place in a buffer, the cache
stores the byte at that place under the offset of the association. -/
theorem offsets_agree {memory : Fin n → ℕ → UInt8} {file : Option File} {indexer : TsIndexer}
    {a : Association} (h : Reach Pipeline.step fitting (init n memory file) s)
    (hfits : s.shifter.cache.Fits data p) (hs : s.step (.buffer data, p) = some s')
    (hadd : s.indexer.collectTime data = some (indexer, some a)) :
    s.indexer.currentOffset ≤ a.offset ∧ a.offset - s.indexer.currentOffset < data.size ∧
      s'.shifter.cache.byteAt a.offset =
        some (data.byte (a.offset - s.indexer.currentOffset)) := by
  have hinv : InStep s := h.invariant ⟨.of_init memory file, rfl⟩
    fun _ _ _ hinv hok hs => hinv.step hok hs
  rcases hinv.buffer hfits hs with ⟨-, -, -, hbytes⟩
  rcases s.indexer.collectTime_spec data with ⟨indexer', added, hcollect, -, hadded⟩
  cases hcollect.symm.trans hadd
  rcases hadded a rfl with ⟨hlow, hhigh⟩
  have hplace : a.offset - s.indexer.currentOffset < data.size := by omega
  refine ⟨hlow, hplace, ?_⟩
  have hbyte := hbytes _ hplace
  rwa [← hinv.agree, Nat.add_sub_cancel' hlow] at hbyte

/-- A transport packet on PID 0x100, with a program clock reference. -/
def pcrPacket : Block UInt8 where
  size := 188
  byte i := ([0x47, 0x01, 0x00, 0x20, 0x07, 0x10] : List UInt8).getD i 0

/-- Twenty bytes without a packet have come before the one with the reference. -/
theorem offsets_agree_behind_bytes : ∃ (s s' : Pipeline 2) (indexer : TsIndexer),
    Reach Pipeline.step fitting (init 2 (fun _ _ => 0) none) s ∧
      s.step (.buffer pcrPacket, .allOk) = some s' ∧
      s.indexer.collectTime pcrPacket = some (indexer, some ⟨0, 20⟩) ∧
      s'.shifter.cache.byteAt 20 = some 0x47 := by
  have h₀ : Reach Pipeline.step fitting (init 2 (fun _ _ => 0) none) _ := .refl
  have h₁ := h₀.extend (.setPcrPid 0x100, .allOk) trivial rfl
  have h₂ := h₁.extend (.buffer ⟨20, fun _ => 0⟩, .allOk) (Or.inl (by decide)) rfl
  have hagree := offsets_agree (a := ⟨0, 20⟩) h₂
    (show Cache.Fits _ pcrPacket .allOk from Or.inl (by decide +kernel)) rfl rfl
  exact ⟨_, _, _, h₂, rfl, rfl, hagree.2.2⟩

/-- A packet goes through, then a flush, then another packet: the indexer associates its
time with the offset behind the first packet, where the new cache has nothing. -/
theorem flush_breaks_offsets :
    ¬∀ (s s' : Pipeline 2) (data : Block UInt8) (p : Platform) (indexer : TsIndexer)
      (a : Association), Reach Pipeline.step (fun _ _ => True) (init 2 (fun _ _ => 0) none) s →
      s.step (.buffer data, p) = some s' →
      s.indexer.collectTime data = some (indexer, some a) →
      s'.shifter.cache.byteAt a.offset =
        some (data.byte (a.offset - s.indexer.currentOffset)) := by
  intro hall
  have h₀ : Reach Pipeline.step (fun _ _ => True) (init 2 (fun _ _ => 0) none) _ := .refl
  have h₁ := h₀.extend (.buffer pcrPacket, .allOk) trivial rfl
  have h₂ := h₁.extend (.flushStop (fun _ _ => 0) none, .allOk) trivial rfl
  have h₃ := h₂.extend (.setPcrPid 0x100, .allOk) trivial rfl
  have hbyte := hall _ _ pcrPacket .allOk _ ⟨0, 188⟩ h₃ rfl rfl
  -- the new cache has taken the bytes from 0 to 187
  cases hbyte

end Pipeline

end TimeShift
