import TimeShift.Cache.Disk
import TimeShift.Cache.Settled

/-!
# How the cache numbers the bytes it takes

The cache counts what it takes in `h_offset`, while a slot labels its bytes by
`h_rb_offset` and the file by `m_dk_offset`. `Numbered` says that the labels and
the count agree: behind `h_rb_offset` come only the bytes of a partly written tail
slot, and the write position of the file is `h_offset - m_dk_offset`. It holds
whatever is read, sought or migrated, and a push keeps it when it `Fits`: then the
cache takes all of its bytes, and stores each of them under its number
(`Numbered.push_stored`).
-/

set_option linter.unusedSectionVars false

namespace TimeShift

open Bytes Cyclic Machine

/-- The slot has byte `b` at stream position `o`. -/
def Slot.Carries (s : Slot) (o : ℕ) (b : UInt8) : Prop :=
  s.contains o = true ∧ s.data (o - s.offset.val) = b

namespace Slot

variable {s : Slot} {data : ℕ → UInt8} {k h o m : ℕ} {b : UInt8}

theorem contains_iff (hoffset : s.offset = some h) :
    s.contains o = true ↔ h ≤ o ∧ o < h + s.size := by
  rw [contains, offsetEnd, hoffset, Offset.le_some, Offset.val_some, Bool.and_eq_true,
    decide_eq_true_iff, decide_eq_true_iff]

/-- What a slot has is not touched when more is written behind it. -/
theorem Carries.write (hs : s.Carries o b) (hoffset : s.offset = some h) (ha : s.available)
    (hk : k ≤ s.room) : (s.write data k h ha hk).1.Carries o b := by
  rcases hs with ⟨hcontains, hbyte⟩
  rw [contains_iff hoffset] at hcontains
  rw [hoffset, Offset.val_some] at hbyte
  constructor
  · rw [contains_iff (write_offset _ _ _ _ _ _), write_size]
    omega
  · have hwptr := (s.open_room ha).1
    rw [write_offset, write_data, Offset.val_some, memcpy_outside _ _ (Or.inl (by omega))]
    exact hbyte

/-- The bytes that are written stand behind those that are there. -/
theorem write_carries (ha : s.available) (hk : k ≤ s.room) (hm : m < k) :
    (s.write data k h ha hk).1.Carries (h + s.size + m) (data m) := by
  constructor
  · rw [contains_iff (write_offset _ _ _ _ _ _), write_size]
    omega
  · have hwptr := (s.open_room ha).1
    rw [write_offset, write_data, Offset.val_some,
      show h + s.size + m - h = s.wptr + m by omega, memcpy_inside _ _ _ hm]

end Slot

namespace Cache

variable {n : ℕ} [NeZero n] {c c' : Cache n} {p : Platform} {data : Block UInt8}
  {L T a o : ℕ} {lo hi : ℕ → ℕ} {σ : List UInt8} {b : UInt8}

/-! ## Where a byte is stored -/

/-- The offset has gone to the file. -/
def onFile (c : Cache n) (o : ℕ) : Bool :=
  c.isRecording && c.lDkOffset.le o && !c.hDkOffset.le o

/-- The byte that the cache stores under stream offset `o`. -/
def byteAt (c : Cache n) (o : ℕ) : Option UInt8 :=
  if c.onFile o then c.file.map fun f => f.byte (o - c.mDkOffset.val)
  else ((List.finRange n).find? fun i => (c.slots i).contains o).map fun i =>
    (c.slots i).data (o - (c.slots i).offset.val)

/-- The number of bytes that the ring takes from slot `i` on, in `k` slots. -/
def roomFrom (c : Cache n) : ℕ → Fin n → ℕ
  | 0, _ => 0
  | k + 1, i =>
    if (c.slots i).state = .recycle then cacheSlotSize + roomFrom c k (i + 1)
    else if (c.slots i).available then (c.slots i).room + roomFrom c k (i + 1)
    else 0

/-- The number of bytes that the ring takes before it overflows. -/
def freeRoom (c : Cache n) : ℕ := c.roomFrom n c.tail

/-- The number of bytes that a disk write of `size` bytes gets into the file. -/
def diskStored (c : Cache n) (size : ℕ) (p : Platform) : ℕ :=
  if c.file.isSome && p.writeSeek then fwriteCount (guint size) p.fwrite else 0

/-- The number of bytes of a push that get into the ring or into the file. -/
def stored (c : Cache n) (data : Block UInt8) (p : Platform) : ℕ :=
  if c.isRecording then c.diskStored data.size p
  else min data.size c.freeRoom + c.diskStored (data.size - min data.size c.freeRoom) p

/-- The number of bytes of a push that the ring does not take. -/
def left (c : Cache n) (data : Block UInt8) : ℕ :=
  if c.isRecording then data.size else data.size - min data.size c.freeRoom

/-- A push of `data` makes no write, or one that fails at the seek, or one that gets
all of its bytes through. -/
def WritesOk (c : Cache n) (data : Block UInt8) (p : Platform) : Prop :=
  c.file = none ∨ p.writeSeek = false ∨
    fwriteCount (guint (c.left data)) p.fwrite = guint (c.left data)

/-- The cache takes all of `data`: the ring has room for it, or what it has no room
for can be written to the file. -/
def Fits (c : Cache n) (data : Block UInt8) (p : Platform) : Prop :=
  c.left data = 0 ∨
    (c.file.isSome ∧ p.writeSeek = true ∧
      fwriteCount (guint (c.left data)) p.fwrite = guint (c.left data) ∧ c.left data < 2 ^ 32)

theorem diskStored_of_seek (hseek : p.writeSeek = false) (c : Cache n) (size : ℕ) :
    c.diskStored size p = 0 := by
  rw [diskStored, hseek, Bool.and_false, if_neg Bool.false_ne_true]

theorem diskStored_of_file (hfile : c.file = none) (size : ℕ) (p : Platform) :
    c.diskStored size p = 0 := by
  rw [diskStored, hfile, Option.isSome_none, Bool.false_and, if_neg Bool.false_ne_true]

theorem diskStored_ok (hfile : c.file.isSome) (hseek : p.writeSeek = true) {size : ℕ}
    (hwrite : fwriteCount (guint size) p.fwrite = guint size) :
    c.diskStored size p = guint size := by
  rw [diskStored, hfile, hseek, hwrite]
  rfl

theorem stored_eq (c : Cache n) (data : Block UInt8) (p : Platform) :
    c.stored data p = data.size - c.left data + c.diskStored (c.left data) p := by
  unfold stored left
  split
  · omega
  · rw [show data.size - (data.size - min data.size c.freeRoom) = min data.size c.freeRoom by omega]

theorem diskStored_le (c : Cache n) (size : ℕ) (p : Platform) : c.diskStored size p ≤ size := by
  have hguint : guint size ≤ size := Nat.mod_le _ _
  unfold diskStored fwriteCount
  split
  · split <;> omega
  · exact Nat.zero_le _

theorem left_le (c : Cache n) (data : Block UInt8) : c.left data ≤ data.size := by
  unfold left
  split <;> omega

/-- All bytes that fit are stored. -/
theorem Fits.stored (h : c.Fits data p) : c.WritesOk data p ∧ c.stored data p = data.size := by
  have hle := c.left_le data
  rw [stored_eq]
  rcases h with hnone | ⟨hfile, hseek, hwrite, hsize⟩
  · have hstored := c.diskStored_le 0 p
    rw [hnone]
    refine ⟨Or.inr (Or.inr ?_), by omega⟩
    rw [hnone]
    cases p.fwrite with
    | none => rfl
    | some k => exact Nat.min_zero k
  · refine ⟨Or.inr (Or.inr hwrite), ?_⟩
    rw [diskStored_ok hfile hseek hwrite]
    have hguint : guint (c.left data) = c.left data := Nat.mod_eq_of_lt hsize
    omega

/-! ## The slots that are in use -/

namespace Settled

/-- An offset is in one slot only. -/
theorem contains_unique (h : Settled c L T lo hi) {i j : Fin n}
    (hi : (c.slots i).contains o = true) (hj : (c.slots j).contains o = true) : i = j := by
  have hw := h.window
  -- behind `h_rb_offset` there is only the partly written tail slot
  have htail : ∀ k, (c.slots k).contains o = true → ¬o < c.hRbOffset → k = idx n T := by
    intro k hk ho
    rcases exists_idx L k with ⟨q, hL, hq, rfl⟩
    rcases Nat.lt_or_ge q T with hT | hT
    · have := (hw.contains_iff hL hT o).mp hk
      have := hw.below q hL hT
      omega
    · rcases hw.free q hT hq with hst | ⟨rfl, -⟩
      · rw [Slot.contains, ((c.slots (idx n q)).empty_clean hst).1] at hk
        cases hk
      · rfl
  -- in the window the ranges of the slots do not overlap
  by_cases ho : o < c.hRbOffset
  · rcases hw.contains_pos hi ho with ⟨q, hLq, hqT, rfl⟩
    rcases hw.contains_pos hj ho with ⟨r, hLr, hrT, rfl⟩
    rw [hw.slot_unique hLq hqT hLr hrT ((hw.contains_iff hLq hqT o).mp hi)
      ((hw.contains_iff hLr hrT o).mp hj)]
  · rw [htail i hi ho, htail j hj ho]

/-- A byte that a slot carries is stored, when its offset is not on the file. -/
theorem byteAt_of_carries (h : Settled c L T lo hi) {i : Fin n} (hi : (c.slots i).Carries o b)
    (hfile : c.onFile o = false) : c.byteAt o = some b := by
  rcases hi with ⟨hi, hbyte⟩
  unfold byteAt
  rw [hfile, if_neg Bool.false_ne_true]
  cases hfind : (List.finRange n).find? fun i => (c.slots i).contains o with
  | none =>
      have := List.find?_eq_none.mp hfind i (List.mem_finRange i)
      exact absurd hi this
  | some j =>
      have hj := List.find?_some hfind
      rw [h.contains_unique hi hj] at hbyte
      rw [Option.map_some, hbyte]

/-- Only the tail slot is partly written. -/
theorem part_tail (h : Settled c L T lo hi) {i : Fin n} (hi : (c.slots i).state = .part) :
    i = c.tail ∧ (c.slots i).offset = some c.hRbOffset := by
  rcases exists_idx L i with ⟨q, hL, hq, rfl⟩
  rcases Nat.lt_or_ge q T with hT | hT
  · have hcomplete := h.window.complete q hL hT
    simp [Slot.Complete, hi] at hcomplete
  · rcases h.window.free q hT hq with habs | ⟨rfl, htail, -, e, hspan⟩
    · rw [hi] at habs
      cases habs
    · exact ⟨htail.symm, hspan.1⟩

/-- A complete slot ends before `h_rb_offset`. -/
theorem complete_end (h : Settled c L T lo hi) {i : Fin n} (hi : (c.slots i).Complete) :
    ∃ o, (c.slots i).offset = some o ∧ o + (c.slots i).size ≤ c.hRbOffset := by
  rcases h.window.exists_pos hi with ⟨q, hL, hT, rfl⟩
  have hspan := h.window.spans q hL hT
  refine ⟨lo q, hspan.1, ?_⟩
  rw [hspan.2.1]
  exact h.window.below q hL hT

end Settled

/-! ## The count and the labels -/

/-- The count and the labels agree while the cache is not recording. -/
structure OnRing (c : Cache n) : Prop where
  idle : Idle c
  received : c.hOffset = c.hRbOffset + c.tailBytes
  low : c.lRbOffset ≤ c.hRbOffset

/-- The count and the labels agree while the cache is recording. -/
structure OnDisk (c : Cache n) : Prop where
  recording : c.isRecording = true
  start : ∃ m, c.mDkOffset = some m ∧ m + c.wDkPos = c.hOffset
  low : ∃ l, c.lDkOffset = some l ∧ l ≤ c.hOffset

/-- The count and the labels agree. -/
def Numbered (c : Cache n) : Prop := OnRing c ∨ OnDisk c

namespace OnRing

theorem of_new (memory : Fin n → ℕ → UInt8) (file : Option File) :
    OnRing (Cache.new n memory file) :=
  ⟨⟨rfl, rfl, rfl⟩, by rw [tailBytes_of_ne_part (by simp [Cache.new])]; rfl, Nat.le_refl _⟩

theorem restate (h : OnRing c) (hr : Restate c c') : OnRing c' := by
  have hidle := h.idle.restate hr
  have hbytes := tailBytes_restate hr
  rcases hr.frame with ⟨_, _, _, _, rfl⟩
  exact ⟨hidle, by rw [hbytes]; exact h.received, h.low⟩

theorem recycle (h : OnRing c) (hs : Settled c L T lo hi) : OnRing (c.recycle c.tail) := by
  by_cases hst : (c.slots c.tail).state = .recycle
  case neg =>
    rw [recycle_of_ne hst]
    exact h
  have hcomplete := Slot.Complete.of_recycle hst
  rcases hs.complete_end hcomplete with ⟨o, ho, hend⟩
  have hreceived := h.received
  rw [tailBytes_of_complete hcomplete] at hreceived
  refine ⟨h.idle.frame (c.recycle_frame _), ?_, ?_⟩
  · rw [tailBytes_of_ne_part (by simp [Cache.recycle, hst]), recycle_hOffset, recycle_hRbOffset]
    exact hreceived
  · rw [recycle_of_eq hst ho]
    exact hend

theorem fill (h : OnRing c) (hs : Settled c L T lo hi) (data : Block UInt8) {k : ℕ}
    (ha : (c.slots c.tail).available) (hk : k ≤ (c.slots c.tail).room) :
    OnRing (c.fill data k ha hk) := by
  have heq := c.fill_eq data k ha hk
  have hreceived := h.received
  rw [tailBytes_of_available ha] at hreceived
  have hlow := h.low
  refine ⟨h.idle.frame (c.fill_frame data k ha hk), ?_, ?_⟩
  · by_cases hfull : (c.slots c.tail).size + k = cacheSlotSize
    · -- the next slot is not partly written, as only the tail slot could be
      simp only [hfull, if_true] at heq
      have hnext : ((c.fill data k ha hk).slots (c.fill data k ha hk).tail).state ≠ .part := by
        rw [heq]
        dsimp only
        intro hpart
        by_cases hself : c.tail + 1 = c.tail
        · rw [hself, Function.update_self, Slot.write_state, if_pos hfull] at hpart
          cases hpart
        · rw [Function.update_of_ne hself] at hpart
          exact hself (hs.part_tail hpart).1
      rw [tailBytes_of_ne_part hnext, heq]
      dsimp only
      omega
    · simp only [hfull, if_false] at heq
      have hopen : ((c.fill data k ha hk).slots (c.fill data k ha hk).tail).available := by
        rw [heq, Slot.available_iff]
        dsimp only
        rw [Function.update_self, Slot.write_state, if_neg hfull]
        exact Or.inr rfl
      rw [tailBytes_of_available hopen, heq]
      dsimp only
      rw [Function.update_self, Slot.write_size]
      omega
  · rw [heq]
    dsimp only
    split <;> omega

theorem promote (h : OnRing c) (hs : Settled c L T lo hi) : OnRing c.promote := by
  by_cases hst : (c.slots c.head).state = .part
  case neg =>
    rw [promote_of_ne hst]
    exact h
  rcases hs.part_tail hst with ⟨hhead, hoffset⟩
  have hopen : (c.slots c.tail).available := by
    rw [← hhead, Slot.available_iff]
    exact Or.inr hst
  have hreceived := h.received
  rw [tailBytes_of_available hopen, ← hhead] at hreceived
  have hend : (c.slots c.head).offsetEnd = c.hOffset := by
    rw [Slot.offsetEnd, hoffset, Offset.val_some, hreceived]
  have hidle := h.idle
  have hlow := h.low
  rw [promote_of_part hst, hend]
  refine ⟨⟨hidle.notRecording, hidle.notStopped, hidle.noThread⟩, ?_, by dsimp only; omega⟩
  rw [tailBytes_of_ne_part, Nat.add_zero]
  dsimp only
  rw [← hhead, Function.update_self]
  simp

/-- The recording starts where the count stands. -/
theorem startRecording (h : OnRing c) (hfile : c.file.isSome) (p : Platform) :
    OnDisk (c.startRecording p).1 ∧ (c.startRecording p).1.lDkOffset = some c.hOffset := by
  have hidle := h.idle
  have hlow := h.low
  have hreceived := h.received
  rcases c.startRecording_cases p with ⟨-, habs⟩ | ⟨-, -, -, heq⟩
  · rcases habs with habs | habs | habs
    · rw [habs] at hfile
      cases hfile
    · exact absurd hidle.noThread habs
    · rw [hidle.notStopped] at habs
      cases habs
  · rw [heq]
    refine ⟨⟨rfl, ⟨_, rfl, ?_⟩, ⟨_, rfl, Nat.le_refl _⟩⟩, rfl⟩
    -- the write position comes right behind what the ring has
    show c.lRbOffset + gsizeSub c.hOffset c.lRbOffset = c.hOffset
    rw [gsizeSub, if_pos (by omega)]
    omega

end OnRing

namespace OnDisk

/-- Neither the count nor what belongs to the file has changed. -/
theorem congr (h : OnDisk c) (hrec : c'.isRecording = c.isRecording)
    (hstart : c'.mDkOffset = c.mDkOffset) (hlow : c'.lDkOffset = c.lDkOffset)
    (hpos : c'.wDkPos = c.wDkPos) (hcount : c'.hOffset = c.hOffset) : OnDisk c' := by
  refine ⟨hrec.trans h.recording, ?_, ?_⟩
  · rw [hstart, hpos, hcount]
    exact h.start
  · rw [hlow, hcount]
    exact h.low

/-- A recording that starts again, with the ring where it was, goes on behind the same
bytes: the write position does not move. -/
theorem restart (h : OnDisk c) (hlow : c.mDkOffset = some c.lRbOffset) (p : Platform) :
    OnDisk (c.startRecording p).1 := by
  rcases h.start with ⟨m, hm, hpos⟩
  rw [hlow, Option.some.injEq] at hm
  rcases c.startRecording_cases p with ⟨heq, -⟩ | ⟨-, -, -, heq⟩
  · rw [heq]
    exact h
  · rw [heq]
    refine ⟨rfl, ⟨_, rfl, ?_⟩, ⟨_, rfl, Nat.le_refl _⟩⟩
    show c.lRbOffset + gsizeSub c.hOffset c.lRbOffset = c.hOffset
    rw [gsizeSub, if_pos (by omega)]
    omega

theorem reload (h : OnDisk c) (drain : Bool) (p : Platform) : OnDisk (c.reload drain p) := by
  rcases c.reload_frame drain p with ⟨_, _, _, _, _, _, heq⟩
  rw [heq]
  exact h.congr rfl rfl rfl rfl rfl

theorem restate (h : OnDisk c) (hr : Restate c c') : OnDisk c' := by
  rcases hr.frame with ⟨_, _, _, _, rfl⟩
  exact h.congr rfl rfl rfl rfl rfl

theorem promote (h : OnDisk c) : OnDisk c.promote := by
  unfold Cache.promote
  dsimp only
  split
  · exact h.congr rfl rfl rfl rfl rfl
  · exact h

theorem migrate (h : OnDisk c) (p : Platform) : OnDisk (c.migrationThread p) := by
  rcases h.start with ⟨m, hm, hpos⟩
  rcases c.migrationThread_eq p with ⟨f, k, d, b, t, heq, -⟩
  -- the end of the walk moves `l_dk_offset` down to the beginning of the file
  have hd : d = c.lDkOffset ∨ d = c.mDkOffset := by
    have hlow := c.migrationThread_lDkOffset p
    rwa [heq] at hlow
  rw [heq]
  refine ⟨h.recording, ⟨m, hm, hpos⟩, ?_⟩
  rcases hd with rfl | rfl
  · exact h.low
  · exact ⟨m, hm, by dsimp only; omega⟩

/-- A write that fails at its seek, or that succeeds, stores the bytes that it counts in
the file, under their numbers. -/
theorem diskWrite (h : OnDisk c) (hok : c.file = none ∨ p.writeSeek = false ∨
    fwriteCount (guint data.size) p.fwrite = guint data.size) :
    OnDisk (c.diskWrite data p) ∧
      (c.diskWrite data p).hOffset = c.hOffset + c.diskStored data.size p ∧
      (c.diskWrite data p).lDkOffset = c.lDkOffset ∧
      ∀ j < c.diskStored data.size p,
        (c.diskWrite data p).onFile (c.hOffset + j) = true ∧
          (c.diskWrite data p).byteAt (c.hOffset + j) = some (data.byte j) := by
  rcases Option.eq_none_or_eq_some c.file with hf | ⟨f, hf⟩
  · have hsame : c.diskWrite data p = c := by rw [Cache.diskWrite, hf]
    rw [hsame, diskStored_of_file hf]
    exact ⟨h, rfl, rfl, fun j hj => absurd hj (Nat.not_lt_zero j)⟩
  rcases Bool.eq_false_or_eq_true p.writeSeek with hseek | hseek
  case inr =>
    have hsame : c.diskWrite data p = c := by rw [Cache.diskWrite, hf, hseek]; rfl
    rw [hsame, diskStored_of_seek hseek]
    exact ⟨h, rfl, rfl, fun j hj => absurd hj (Nat.not_lt_zero j)⟩
  have hwrite : fwriteCount (guint data.size) p.fwrite = guint data.size := by
    rcases hok with habs | habs | hwrite
    · rw [hf] at habs
      cases habs
    · rw [hseek] at habs
      cases habs
    · exact hwrite
  rcases h.start with ⟨m, hm, hpos⟩
  rcases h.low with ⟨l, hl, hle⟩
  rw [diskStored_ok (by rw [hf]; rfl) hseek hwrite, diskWrite_guint hf hseek hwrite]
  clear hwrite
  generalize guint data.size = k
  refine ⟨⟨h.recording, ⟨m, hm, by dsimp only; omega⟩, ⟨l, hl, by dsimp only; omega⟩⟩, rfl, rfl, ?_⟩
  intro j hj
  -- the bytes are between `l_dk_offset` and the new `h_dk_offset`
  have hon : c.isRecording && c.lDkOffset.le (c.hOffset + j) &&
      !Offset.le (some (c.hOffset + k)) (c.hOffset + j) := by
    rw [h.recording, hl, Offset.le_some, Offset.le_some, decide_eq_true (by omega),
      decide_eq_false (by omega)]
    rfl
  refine ⟨hon, ?_⟩
  simp only [byteAt, onFile, hon, if_true, Option.map_some, hm, Offset.val_some, File.write]
  rw [show c.hOffset + j - m = c.wDkPos + j by omega, memcpy_inside _ _ _ hj]

/-- A reload does not change what is on the file. -/
theorem byteAt_reload (c : Cache n) (drain : Bool) (p : Platform) (ho : c.onFile o = true) :
    (c.reload drain p).byteAt o = c.byteAt o := by
  rcases c.reload_frame drain p with ⟨_, _, _, _, _, _, heq⟩
  rw [heq]
  unfold byteAt
  rw [if_pos ho]
  exact if_pos ho

end OnDisk

/-! ## Room in the ring -/

theorem roomFrom_succ (c : Cache n) (k : ℕ) (i : Fin n) : c.roomFrom (k + 1) i =
    if (c.slots i).state = .recycle then cacheSlotSize + c.roomFrom k (i + 1)
    else if (c.slots i).available then (c.slots i).room + c.roomFrom k (i + 1)
    else 0 := rfl

theorem roomFrom_congr {k q : ℕ}
    (h : ∀ r, q ≤ r → r < q + k → c'.slots (idx n r) = c.slots (idx n r)) :
    c'.roomFrom k (idx n q) = c.roomFrom k (idx n q) := by
  induction k generalizing q with
  | zero => rfl
  | succ k ih =>
      rw [roomFrom_succ, roomFrom_succ, h q (Nat.le_refl q) (by omega), idx_add_one,
        ih fun r hr hrk => h r (by omega) (by omega)]

/-- A slot that is in use ends the room. -/
theorem roomFrom_closed {k q : ℕ} (h : c.Closed (idx n (q + k))) :
    c.roomFrom (k + 1) (idx n q) = c.roomFrom k (idx n q) := by
  -- on the slots before the one in use
  induction k generalizing q with
  | zero =>
      have hst : (c.slots (idx n q)).state ≠ .recycle := by
        rcases h with h | h <;> rw [Nat.add_zero] at h <;> simp [h]
      have hclosed : ¬(c.slots (idx n q)).available = true := by
        rw [Slot.available_iff]
        rcases h with h | h <;> rw [Nat.add_zero] at h <;> simp [h]
      rw [roomFrom_succ, if_neg hst, if_neg hclosed]
      rfl
  | succ k ih =>
      have hnext : c.Closed (idx n (q + 1 + k)) := by
        rw [Nat.add_right_comm]
        exact h
      rw [roomFrom_succ c (k + 1) (idx n q), roomFrom_succ c k (idx n q), idx_add_one, ih hnext]

/-- The room that the slots behind the tail have. -/
def roomBehind (c : Cache n) : ℕ := c.roomFrom (n - 1) (c.tail + 1)

theorem freeRoom_eq (c : Cache n) : c.freeRoom =
    if (c.slots c.tail).state = .recycle then cacheSlotSize + c.roomBehind
    else if (c.slots c.tail).available then (c.slots c.tail).room + c.roomBehind
    else 0 := by
  have hn : n = n - 1 + 1 := by
    have := NeZero.ne n
    omega
  unfold freeRoom roomBehind
  rw [congrArg (fun k => c.roomFrom k c.tail) hn, roomFrom_succ]

/-- A change of the tail slot leaves the room behind it. -/
theorem roomFrom_tail {t : Slot} (hslots : c'.slots = Function.update c.slots c.tail t) :
    c'.roomFrom (n - 1) (c.tail + 1) = c.roomBehind := by
  rcases exists_idx 0 c.tail with ⟨q, -, -, hq⟩
  unfold roomBehind
  rw [← hq, idx_add_one]
  -- the walk over the other slots does not come to the tail
  refine roomFrom_congr fun r hr hrn => ?_
  rw [hslots, ← hq]
  exact update_idx_ne _ _ (by omega) (by omega) (by omega)

/-- A slot to be recycled counts as room already. -/
theorem freeRoom_recycle (c : Cache n) : (c.recycle c.tail).freeRoom = c.freeRoom := by
  by_cases hst : (c.slots c.tail).state = .recycle
  case neg => rw [recycle_of_ne hst]
  have hslots : (c.recycle c.tail).slots =
      Function.update c.slots c.tail (c.slots c.tail).reset := by simp [recycle, hst]
  -- an empty slot has the room that the recycled one counted for
  have hbehind : (c.recycle c.tail).roomBehind = c.roomBehind := by
    rw [roomBehind, recycle_tail]
    exact roomFrom_tail hslots
  rw [freeRoom_eq, freeRoom_eq, if_pos hst, hbehind, recycle_tail, hslots, Function.update_self,
    if_neg (by simp), if_pos (show (c.slots c.tail).reset.available = true from rfl)]
  rfl

/-- What is written takes the room that it has bytes. -/
theorem freeRoom_fill (c : Cache n) (data : Block UInt8) {k : ℕ} (ha : (c.slots c.tail).available)
    (hk : k ≤ (c.slots c.tail).room) : c.freeRoom = (c.fill data k ha hk).freeRoom + k := by
  have hslots := c.fill_slots data k ha hk
  have hbehind := roomFrom_tail hslots
  have hroom := (c.slots c.tail).room_eq ha
  have hst : (c.slots c.tail).state ≠ .recycle := by
    intro hst
    rw [Slot.available_iff, hst] at ha
    rcases ha with ha | ha <;> cases ha
  rw [freeRoom_eq c, if_neg hst, if_pos ha]
  by_cases hfull : (c.slots c.tail).size + k = cacheSlotSize
  · -- the walk starts at the next slot now, and ends at the one that is full
    have htail : (c.fill data k ha hk).tail = c.tail + 1 := by
      rw [fill_eq]
      simp only [hfull, if_true]
    have hn : n - 1 + 1 = n := by
      have := NeZero.ne n
      omega
    have hclosed : (c.fill data k ha hk).Closed c.tail := by
      left
      rw [hslots, Function.update_self, Slot.write_state, if_pos hfull]
    rcases exists_idx 0 c.tail with ⟨q, -, -, hq⟩
    have hround : idx n (q + 1 + (n - 1)) = c.tail := by
      rw [show q + 1 + (n - 1) = q + n by omega, idx_add_self, hq]
    rw [← hround] at hclosed
    have hwalk := roomFrom_closed hclosed
    rw [hn, ← idx_add_one, hq, hbehind] at hwalk
    rw [freeRoom, htail, hwalk]
    omega
  · have htail : (c.fill data k ha hk).tail = c.tail := by
      rw [fill_eq]
      simp only [hfull, if_false]
    have hopen : ((c.slots c.tail).write data.byte k c.hRbOffset ha hk).1.state = .part := by
      rw [Slot.write_state, if_neg hfull]
    have hwptr : ((c.slots c.tail).write data.byte k c.hRbOffset ha hk).1.room + k =
        (c.slots c.tail).room := by
      have hle : k ≤ cacheSlotSize - (c.slots c.tail).wptr := hk
      show cacheSlotSize - ((c.slots c.tail).wptr + k) + k = cacheSlotSize - (c.slots c.tail).wptr
      omega
    have hsame : (c.fill data k ha hk).roomBehind = c.roomBehind := by
      rw [roomBehind, htail]
      exact hbehind
    rw [freeRoom_eq, hsame, htail, hslots, Function.update_self, hopen, if_neg (by simp),
      if_pos ((Slot.available_iff _).mpr (Or.inr hopen))]
    omega

/-! ## A push -/

/-- What a push has laid into the ring so far: the bytes `σ`, from offset `a` on. -/
structure Laid (c : Cache n) (a : ℕ) (σ : List UInt8) : Prop where
  count : c.hOffset = a + σ.length
  carried : ∀ j b, σ[j]? = some b →
    ∃ i, (c.slots i).state ≠ .recycle ∧ (c.slots i).Carries (a + j) b

namespace Laid

theorem recycle (h : Laid c a σ) : Laid (c.recycle c.tail) a σ := by
  refine ⟨by rw [recycle_hOffset]; exact h.count, ?_⟩
  intro j b hj
  rcases h.carried j b hj with ⟨i, hst, hi⟩
  -- none of the bytes is in a slot to be recycled
  have hsame : (c.recycle c.tail).slots i = c.slots i := by
    by_cases htail : (c.slots c.tail).state = .recycle
    · have hne : i ≠ c.tail := by
        rintro rfl
        exact hst htail
      simp [Cache.recycle, htail, hne]
    · rw [recycle_of_ne htail]
  exact ⟨i, by rw [hsame]; exact hst, by rw [hsame]; exact hi⟩

theorem fill (h : Laid c a σ) (hs : Settled c L T lo hi) (hring : OnRing c) (data : Block UInt8)
    {k : ℕ} (ha : (c.slots c.tail).available) (hk : k ≤ (c.slots c.tail).room)
    (hsize : k ≤ data.size) : Laid (c.fill data k ha hk) a (σ ++ data.toList.take k) := by
  have hslots := c.fill_slots data k ha hk
  have hreceived := hring.received
  rw [tailBytes_of_available ha, h.count] at hreceived
  have hopen : ((c.slots c.tail).write data.byte k c.hRbOffset ha hk).1.state ≠ .recycle := by
    rw [Slot.write_state]
    split <;> simp
  constructor
  · rw [fill_eq, List.length_append, List.length_take, Block.length_toList, h.count]
    dsimp only
    omega
  intro j b hj
  rw [hslots]
  -- byte `j` was there before, or is one of the new ones
  rcases Nat.lt_or_ge j σ.length with hold | hnew
  · rw [List.getElem?_append_left hold] at hj
    rcases h.carried j b hj with ⟨i, hst, hi⟩
    by_cases htail : i = c.tail
    · -- a slot that is open and has bytes is labelled with `h_rb_offset`
      have hoffset : (c.slots c.tail).offset = some c.hRbOffset := by
        rcases (Slot.available_iff _).mp ha with hempty | hpart
        · rw [htail, Slot.Carries, Slot.contains, ((c.slots c.tail).empty_clean hempty).1] at hi
          cases hi.1
        · exact (hs.part_tail hpart).2
      rw [htail] at hi
      refine ⟨c.tail, ?_, ?_⟩
      · rw [Function.update_self]
        exact hopen
      · rw [Function.update_self]
        exact hi.write hoffset ha hk
    · refine ⟨i, ?_, ?_⟩
      · rw [Function.update_of_ne htail]
        exact hst
      · rw [Function.update_of_ne htail]
        exact hi
  · rw [List.getElem?_append_right hnew] at hj
    have hlt : j - σ.length < k := by
      by_contra hge
      rw [List.getElem?_eq_none (by rw [List.length_take]; omega)] at hj
      cases hj
    rw [List.getElem?_take_of_lt hlt, data.getElem?_toList (by omega), Option.some.injEq] at hj
    refine ⟨c.tail, ?_, ?_⟩
    · rw [Function.update_self]
      exact hopen
    · rw [Function.update_self, ← hj, show a + j =
        c.hRbOffset + (c.slots c.tail).size + (j - σ.length) by omega]
      exact Slot.write_carries ha hk hlt

/-- The bytes laid are stored, as far as they are not on the file. -/
theorem byteAt (h : Laid c a σ) (hs : Settled c' L T lo hi) (hslots : c'.slots = c.slots)
    {j : ℕ} (hj : σ[j]? = some b) (hfile : c'.onFile (a + j) = false) :
    c'.byteAt (a + j) = some b := by
  rcases h.carried j b hj with ⟨i, -, hi⟩
  rw [← hslots] at hi
  exact hs.byteAt_of_carries hi hfile

end Laid

/-- A push that gets `k` of its bytes into the cache: the count and the labels are in
step, and each of these bytes is stored under its number. -/
def TakesFirst (c c' : Cache n) (data : Block UInt8) (k : ℕ) : Prop :=
  Numbered c' ∧ c'.hOffset = c.hOffset + k ∧
    ∀ j < k, c'.byteAt (c.hOffset + j) = some (data.byte j)

/-- What the loop of a push leaves: the first `k` bytes are laid into the ring, as many
as it has room for, and the rest goes to the file. -/
theorem OnRing.push_laid (h : OnRing c) (hs : Settled c L T lo hi) (data : Block UInt8)
    (p : Platform) : ∃ c₁ k, k ≤ data.size ∧ min data.size c.freeRoom = k ∧
      (∃ L T lo hi, Settled c₁ L T lo hi) ∧ OnRing c₁ ∧
      Laid c₁ c.hOffset (data.toList.take k) ∧ RingFrame c c₁ ∧
      ((k = data.size ∧ c.push data p = c₁) ∨
        (k < data.size ∧ c.push data p = (c₁.startRecording p).1.diskWrite (data.drop k) p)) := by
  -- what every round of the loop keeps
  let P : Cache n → List UInt8 → Prop := fun c₁ σ => (∃ L T lo hi, Settled c₁ L T lo hi) ∧
    OnRing c₁ ∧ Laid c₁ c.hOffset σ ∧ c.freeRoom = c₁.freeRoom + σ.length ∧ RingFrame c c₁
  have hrecycle : ∀ c₁ σ, P c₁ σ → P (c₁.recycle c₁.tail) σ := by
    rintro c₁ σ ⟨⟨L, T, lo, hi, hs₁⟩, h₁, hlaid, hroom, hframe⟩
    rcases hs₁.recycle with ⟨L', T', hs₂⟩
    exact ⟨⟨L', T', lo, hi, hs₂⟩, h₁.recycle hs₁, hlaid.recycle,
      by rw [freeRoom_recycle]; exact hroom, hframe.trans (c₁.recycle_frame _)⟩
  have hfill : ∀ c₁ σ (d : Block UInt8) k ha hk, P c₁ σ → 0 < k → k ≤ d.size →
      P (c₁.fill d k ha hk) (σ ++ d.toList.take k) := by
    rintro c₁ σ d k ha hk ⟨⟨L, T, lo, hi, hs₁⟩, h₁, hlaid, hroom, hframe⟩ hpos hsize
    rcases hs₁.fill d ha hk hpos with ⟨T', lo', hi', hs₂⟩
    have hless := c₁.freeRoom_fill d ha hk
    refine ⟨⟨L, T', lo', hi', hs₂⟩, h₁.fill hs₁ d ha hk, hlaid.fill hs₁ h₁ d ha hk hsize, ?_,
      hframe.trans (c₁.fill_frame d k ha hk)⟩
    rw [List.length_append, List.length_take, Block.length_toList]
    omega
  have hstart : P c [] := ⟨⟨L, T, lo, hi, hs⟩, h, ⟨rfl, by simp⟩, rfl, .rfl⟩
  rcases pushLoop_induct (p := p) hrecycle hfill [] (Nat.le_refl data.size) hstart with
    ⟨c₁, k, hk, ⟨hs₁, h₁, hlaid, hroom, hframe⟩, hres⟩
  rw [List.nil_append] at hlaid hroom
  rw [List.length_take, Block.length_toList, Nat.min_eq_left hk] at hroom
  refine ⟨c₁, k, hk, ?_, hs₁, h₁, hlaid, hframe, ?_⟩
  · rcases hres with ⟨rfl, -⟩ | ⟨-, hclosed, hne, -⟩
    · omega
    · -- the ring has no room left
      have hzero : c₁.freeRoom = 0 := by
        rw [freeRoom_eq, if_neg hne, if_neg (by simp [hclosed])]
      omega
  · rw [push_ring h.idle.notRecording]
    rcases hres with hall | ⟨hlt, -, -, heq⟩
    · exact Or.inl hall
    · exact Or.inr ⟨hlt, heq⟩

/-- The ring overflows behind `k` bytes: the recording starts, and the rest goes to the
file, behind them. -/
theorem OnRing.overflow (h : OnRing c) (hs : Settled c L T lo hi) (hfile : c.file.isSome)
    {k : ℕ} (hok : p.writeSeek = false ∨
      fwriteCount (guint (data.size - k)) p.fwrite = guint (data.size - k)) (hk : k ≤ data.size)
    (hlaid : Laid c a (data.toList.take k)) :
    let c' := (c.startRecording p).1.diskWrite (data.drop k) p
    Numbered c' ∧ c'.hOffset = c.hOffset + c.diskStored (data.size - k) p ∧
      ∀ j < k + c.diskStored (data.size - k) p, c'.byteAt (a + j) = some (data.byte j) := by
  intro c'
  have hcount := hlaid.count
  rw [List.length_take, Block.length_toList, Nat.min_eq_left hk] at hcount
  rcases h.startRecording hfile p with ⟨hdisk, hlow⟩
  have hsame : (c.startRecording p).1.file = c.file := by
    rcases c.startRecording_cases p with ⟨heq, -⟩ | ⟨-, -, -, heq⟩
    · rw [heq]
    · rw [heq]
  have hstored : (c.startRecording p).1.diskStored (data.drop k).size p =
      c.diskStored (data.size - k) p := by
    rw [diskStored, diskStored, hsame, Block.size_drop]
  have hok' : p.writeSeek = false ∨
      fwriteCount (guint (data.drop k).size) p.fwrite = guint (data.drop k).size := hok
  rcases hdisk.diskWrite (Or.inr hok') with ⟨hdisk', hcount', hlow', hbytes⟩
  rw [startRecording_hOffset, hstored] at hcount' hbytes
  refine ⟨Or.inr hdisk', hcount', ?_⟩
  intro j hj
  rcases Nat.lt_or_ge j k with hin | hout
  · -- what is in the ring is not on the file
    have hring := (c.startRecording_sameRing p).trans (diskWrite_sameRing _ (data.drop k) p)
    have hbyte : (data.toList.take k)[j]? = some (data.byte j) := by
      rw [List.getElem?_take_of_lt hin, data.getElem?_toList (by omega)]
    refine hlaid.byteAt (hs.sameRing hring) hring.slots hbyte ?_
    rw [onFile, hlow', hlow, Offset.le_some, decide_eq_false (by omega)]
    simp
  · have hdrop := (hbytes (j - k) (by omega)).2
    rw [show c.hOffset + (j - k) = a + j by omega] at hdrop
    rw [hdrop]
    show some (data.byte (j - k + k)) = _
    rw [Nat.sub_add_cancel hout]

theorem OnRing.push (h : OnRing c) (hs : Settled c L T lo hi) (hok : c.WritesOk data p) :
    c.TakesFirst (c.push data p) data (c.stored data p) := by
  have hrec := h.idle.notRecording
  rcases h.push_laid hs data p with
    ⟨c₁, k, hk, hmin, ⟨L', T', lo', hi', hs₁⟩, h₁, hlaid, hframe, hres⟩
  have hbyte : ∀ j < k, (data.toList.take k)[j]? = some (data.byte j) := by
    intro j hj
    rw [List.getElem?_take_of_lt hj, data.getElem?_toList (by omega)]
  have hcount := hlaid.count
  rw [List.length_take, Block.length_toList, Nat.min_eq_left hk] at hcount
  rw [stored, hrec, if_neg Bool.false_ne_true, hmin]
  have hring : ∀ j < k, c₁.byteAt (c.hOffset + j) = some (data.byte j) := by
    intro j hj
    exact hlaid.byteAt hs₁ rfl (hbyte j hj) (by simp [onFile, h₁.idle.notRecording])
  rcases hres with ⟨hall, heq⟩ | ⟨hlt, heq⟩
  · have hrest : c.diskStored (data.size - k) p = 0 := by
      have := c.diskStored_le (data.size - k) p
      omega
    rw [heq, hrest]
    exact ⟨Or.inl h₁, hcount, hring⟩
  · -- the rest goes to the file
    have hleft : c.left data = data.size - k := by
      rw [left, hrec, if_neg Bool.false_ne_true, hmin]
    rw [WritesOk, hleft] at hok
    have hfile₁ : c₁.file = c.file := by
      rcases hframe with ⟨_, _, _, _, _, _, rfl⟩
      rfl
    rw [heq]
    rcases Option.eq_none_or_eq_some c.file with hnone | ⟨f, hf⟩
    · have hsame : (c₁.startRecording p).1.diskWrite (data.drop k) p = c₁ := by
        rw [hnone] at hfile₁
        simp [Cache.startRecording, Cache.diskWrite, hfile₁]
      rw [hsame, diskStored_of_file hnone]
      exact ⟨Or.inl h₁, hcount, hring⟩
    have hsome : c₁.file.isSome := by
      rw [hfile₁, hf]
      rfl
    rw [hf] at hok
    replace hok := hok.resolve_left (Option.some_ne_none f)
    have hstored : c₁.diskStored (data.size - k) p = c.diskStored (data.size - k) p := by
      rw [diskStored, diskStored, hfile₁]
    have htakes := h₁.overflow hs₁ hsome hok hk hlaid
    rw [hstored] at htakes
    rcases htakes with ⟨hnumbered, hcount', hbytes⟩
    exact ⟨hnumbered, by omega, hbytes⟩

theorem OnDisk.push (h : OnDisk c) (hok : c.WritesOk data p) :
    c.TakesFirst (c.push data p) data (c.stored data p) := by
  have hrec := h.recording
  have hleft : c.left data = data.size := by rw [left, hrec, if_pos rfl]
  rw [WritesOk, hleft] at hok
  rcases h.diskWrite hok with ⟨hdisk, hcount, -, hbytes⟩
  rw [push_recording hrec, stored, hrec, if_pos rfl]
  split
  · refine ⟨Or.inr (hdisk.reload false p), ?_, ?_⟩
    · rw [reload_hOffset]
      exact hcount
    · intro j hj
      rw [OnDisk.byteAt_reload _ _ _ (hbytes j hj).1]
      exact (hbytes j hj).2
  · exact ⟨Or.inr hdisk, hcount, fun j hj => (hbytes j hj).2⟩

/-- A push whose writes do not stop half way counts the bytes that it stores. -/
theorem Numbered.push_stored (h : Numbered c) (hs : Settled c L T lo hi)
    (hok : c.WritesOk data p) : c.TakesFirst (c.push data p) data (c.stored data p) := by
  rcases h with h | h
  · exact h.push hs hok
  · exact h.push hok

/-- A push of bytes that fit keeps the count and the labels in step, takes all of
the bytes and stores each of them under its number. -/
def Takes (c c' : Cache n) (data : Block UInt8) : Prop :=
  Numbered c' ∧ c'.hOffset = c.hOffset + data.size ∧
    ∀ j < data.size, c'.byteAt (c.hOffset + j) = some (data.byte j)

/-! ## Reading, seeking and migrating -/

theorem Numbered.restate (h : Numbered c) (hr : Restate c c') :
    Numbered c' ∧ c'.hOffset = c.hOffset := by
  have hnumbered : Numbered c' := by
    rcases h with h | h
    · exact Or.inl (h.restate hr)
    · exact Or.inr (h.restate hr)
  rcases hr.frame with ⟨_, _, _, _, rfl⟩
  exact ⟨hnumbered, rfl⟩

theorem Numbered.promote (h : Numbered c) (hs : Settled c L T lo hi) : Numbered c.promote := by
  rcases h with h | h
  · exact Or.inl (h.promote hs)
  · exact Or.inr h.promote

/-- A reload while recording leaves the count. -/
theorem OnDisk.numbered_reload (h : OnDisk c) (drain : Bool) (p : Platform) :
    Numbered (c.reload drain p) ∧ (c.reload drain p).hOffset = c.hOffset := by
  exact ⟨Or.inr (h.reload drain p), c.reload_hOffset drain p⟩

theorem Numbered.pop (h : Numbered c) (hs : Settled c L T lo hi) (drain : Bool) (p : Platform) :
    Numbered (c.pop drain p).1 ∧ (c.pop drain p).1.hOffset = c.hOffset := by
  rcases c.pop_cases drain p with ⟨c₁, hc₁, hpop⟩
  have h₁ : Numbered c₁ ∧ c₁.hOffset = c.hOffset := by
    rw [hc₁]
    split
    · exact ⟨h.promote hs, c.promote_hOffset⟩
    · exact ⟨h, rfl⟩
  rcases hpop with ⟨-, hpop⟩ | ⟨hfull, hpop⟩
  · rw [hpop]
    exact h₁
  · have htake := h₁.1.restate (take_restate hfull)
    rw [h₁.2] at htake
    rw [hpop]
    dsimp only
    split
    · rename_i hdisk
      rcases htake.1 with hring | hdisk'
      · have hidle : c₁.isRecording = false := hring.idle.notRecording
        simp [hidle] at hdisk
      · have hreload := hdisk'.numbered_reload drain p
        rw [htake.2] at hreload
        exact hreload
    · exact htake

theorem Numbered.seek (h : Numbered c) (hseek : c.seek o p = some c') :
    Numbered c' ∧ c'.hOffset = c.hOffset := by
  rcases seek_cases hseek with ⟨-, -, hring⟩ | ⟨-, hdisk, rfl⟩ | ⟨-, -, rfl⟩
  · exact h.restate (seekRing_restate hring)
  · rcases h with h | h
    · simp [isDiskUsable, h.idle.notRecording] at hdisk
    · refine OnDisk.numbered_reload ?_ false p
      exact h.congr rfl rfl rfl rfl rfl
  · exact ⟨h, rfl⟩

theorem Numbered.migrate (h : Numbered c) (p : Platform) :
    Numbered (c.migrationThread p) ∧ (c.migrationThread p).hOffset = c.hOffset := by
  rcases h with h | h
  · have hidle : c.migrationThread p = c := by simp [migrationThread, h.idle.noThread]
    rw [hidle]
    exact ⟨Or.inl h, rfl⟩
  · exact ⟨Or.inr (h.migrate p), c.migrationThread_hOffset p⟩

end Cache

end TimeShift
