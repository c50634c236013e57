import TimeShift.Cache.Ring

/-!
# The ring in front of the disk

Once the ring has been migrated, the file mirrors the stream from `l_dk_offset`
on, and the ring is refilled from it. A refill is right as long as the read
position in the file is in step with the ring, `l_dk_offset + r_dk_pos =
h_rb_offset`: `DiskRing` says so, and `DiskRing.reload` that a reload then keeps
everything that holds of the ring.
-/

set_option linter.unusedSectionVars false

namespace TimeShift

open Bytes Cyclic

namespace Cache

variable {n : ℕ} [NeZero n] {c c' : Cache n} {p : Platform} {L R T l : ℕ} {off : ℕ → ℕ}
  {σ : List UInt8}

/-! ## The file as a mirror of the stream -/

/-- The file holds the stream from position `l` to its end. -/
structure Mirror (c : Cache n) (σ : List UInt8) (l : ℕ) : Prop where
  file : ∃ f, c.file = some f ∧ c.wDkPos ≤ f.len ∧ Holds σ l c.wDkPos f.byte
  length : σ.length = l + c.wDkPos

/-- A write that gets all of its bytes through. -/
theorem diskWrite_guint {f : File} (hf : c.file = some f) (hseek : p.writeSeek = true)
    {data : Block UInt8} (hwrite : fwriteCount (guint data.size) p.fwrite = guint data.size) :
    c.diskWrite data p = { c with
      file := some (f.write c.wDkPos data.byte (guint data.size))
      wDkPos := c.wDkPos + guint data.size
      hOffset := c.hOffset + guint data.size
      hDkOffset := some (c.hOffset + guint data.size) } := by
  unfold diskWrite
  simp only [hf, hseek, hwrite, Bool.not_true, Bool.false_eq_true, if_false]
  by_cases hzero : guint data.size = 0
  · simp [hzero]
  · simp [hzero]

/-- The same, for a size that a `guint` holds. -/
theorem diskWrite_ok {f : File} (hf : c.file = some f) (hseek : p.writeSeek = true)
    (hwrite : p.fwrite = none) {data : Block UInt8} (hsize : data.size < 2 ^ 32) :
    c.diskWrite data p = { c with
      file := some (f.write c.wDkPos data.byte data.size)
      wDkPos := c.wDkPos + data.size
      hOffset := c.hOffset + data.size
      hDkOffset := some (c.hOffset + data.size) } := by
  have hguint : guint data.size = data.size := Nat.mod_eq_of_lt hsize
  rw [diskWrite_guint hf hseek (by rw [hwrite]; rfl), hguint]

/-- The mirror follows the writes. -/
theorem Mirror.diskWrite (h : Mirror c σ l) (hp : p.FilesOk) {data : Block UInt8}
    (hsize : data.size < 2 ^ 32) : Mirror (c.diskWrite data p) (σ ++ data.toList) l := by
  obtain ⟨f, hf, hlen, hholds⟩ := h.file
  rw [diskWrite_ok hf hp.writeSeek hp.fwrite hsize]
  refine ⟨⟨_, rfl, ?_, ?_⟩, ?_⟩
  · show c.wDkPos + data.size ≤ (f.write c.wDkPos data.byte data.size).len
    simp only [File.write]
    split <;> omega
  · have hmem := hholds.memcpy h.length data (Nat.le_refl data.size)
    rwa [List.take_of_length_le (by rw [Block.length_toList])] at hmem
  · show (σ ++ data.toList).length = l + (c.wDkPos + data.size)
    rw [List.length_append, h.length, Block.length_toList]
    omega

/-- What a read does when every file operation succeeds: it fails only for want
of bytes or of room. -/
theorem Mirror.diskRead_false (h : Mirror c σ l) (hp : p.FilesOk) (hr : c.rDkPos ≤ c.wDkPos)
    {i : Fin n} {o k : ℕ} {drain : Bool} (hread : c.diskRead i o drain p k = (c', false)) :
    c' = c ∧ (c.wDkPos = c.rDkPos ∨ (drain = false ∧ c.wDkPos < c.rDkPos + cacheSlotSize) ∨
      (c.slots i).available = false) := by
  obtain ⟨f, hf, hlen, -⟩ := h.file
  have hsize : c.readSize = min (c.wDkPos - c.rDkPos) cacheSlotSize := by
    rw [readSize, gsizeSub, if_pos hr]
  have hpos := cacheSlotSize_pos
  unfold diskRead at hread
  simp only [hf] at hread
  by_cases hzero : c.readSize = 0
  · simp only [hzero, if_true, Prod.mk.injEq, and_true] at hread
    exact ⟨hread.symm, Or.inl (by omega)⟩
  by_cases hshort : (!drain && decide (c.readSize < cacheSlotSize)) = true
  · simp only [hzero, hshort, if_false, if_true, Prod.mk.injEq, and_true] at hread
    rw [Bool.and_eq_true, decide_eq_true_eq] at hshort
    exact ⟨hread.symm, Or.inr (Or.inl ⟨by simpa using hshort.1, by omega⟩)⟩
  by_cases havail : (c.slots i).available = true
  case neg =>
    simp [hzero, hshort, havail] at hread
    exact ⟨hread.symm, Or.inr (Or.inr (by simpa using havail))⟩
  -- the file has the bytes, so the read would have succeeded
  have hgot : f.freadCount c.rDkPos c.readSize (p.fread k) = c.readSize := by
    rw [hp.fread k, File.freadCount]
    omega
  simp [hzero, hshort, havail, hp.readSeek k, hgot] at hread

/-! ## Refilling the ring -/

/-- A slot read from the disk joins the window at `h_rb_offset`, wherever in the
file its bytes come from. -/
theorem Window.read (h : Window c L T off) (ht : c.tail = idx n T) {k : ℕ} {drain : Bool}
    (hread : c.diskRead c.tail c.hRbOffset drain p k = (c', true)) :
    Window c'.advance L (T + 1) (Function.update off (T + 1) (c.hRbOffset + c.readSize)) ∧
      c'.advance.tail = idx n (T + 1) ∧
      (∀ R, Fulls c L R T → Fulls c'.advance L R (T + 1)) ∧
      c'.advance.hRbOffset = c.hRbOffset + c.readSize := by
  obtain ⟨f, -, havail, hpos, -, -, rfl⟩ := diskRead_true hread
  have hlt := h.lt_of_available ht havail
  have hhigh := h.high
  set t := (c.slots c.tail).load (fun j => f.byte (c.rDkPos + j)) c.readSize c.hRbOffset
    c.readSize_le with hdef
  have hspan : t.Spans (off T) (c.hRbOffset + c.readSize) := by
    refine ⟨?_, ?_, by omega⟩
    · rw [hdef, Slot.load_offset, hhigh]
    · rw [hdef, Slot.load_size, hhigh]
  have hw := h.append (c.tail + 1) (c.fslots + 1) c.hOffset (c.rDkPos + c.readSize) (t := t) hlt
    (Slot.Complete.of_full rfl) hspan
  -- the cache after the read, with its tail moved on
  set c₂ := advance { c with
    slots := Function.update c.slots c.tail t
    rDkPos := c.rDkPos + c.readSize } with hc₂
  have hhigh₂ : c₂.hRbOffset = c.hRbOffset + c.readSize := by
    show (Function.update c.slots c.tail t c.tail).offsetEnd = _
    rw [Function.update_self, hspan.offsetEnd]
  have heq : c₂ = { c with
      slots := Function.update c.slots (idx n T) t
      tail := c.tail + 1
      hRbOffset := c.hRbOffset + c.readSize
      fslots := c.fslots + 1
      rDkPos := c.rDkPos + c.readSize } := by
    rw [← hhigh₂, ← ht]
    rfl
  refine ⟨?_, ?_, ?_, hhigh₂⟩
  · rw [heq]
    exact hw
  · rw [heq, ← idx_add_one, ← ht]
  · intro R hfulls
    refine hfulls.append (t := t) rfl hlt ?_ ?_
    · rw [heq]
    · rw [heq]

/-- A ring whose slots hold the stream, with the file mirroring it and the read
position in step. -/
structure DiskRing (c : Cache n) (σ : List UInt8) (l L T : ℕ) (off : ℕ → ℕ) : Prop where
  window : Window c L T off
  tail : c.tail = idx n T
  stores : Stores c σ
  mirror : Mirror c σ l
  inStep : c.hRbOffset = l + c.rDkPos
  behind : c.rDkPos ≤ c.wDkPos

/-- No slot is partly written. -/
def NonePart (c : Cache n) : Prop := ∀ i, (c.slots i).state ≠ .part

theorem NonePart.update (h : NonePart c) {i : Fin n} {t : Slot}
    (hslots : c'.slots = Function.update c.slots i t) (ht : t.state ≠ .part) : NonePart c' := by
  rw [NonePart, hslots, Function.forall_update_iff c.slots fun _ s => s.state ≠ .part]
  exact ⟨ht, fun j _ => h j⟩

namespace DiskRing

theorem recycle (h : DiskRing c σ l L T off) :
    ∃ L', DiskRing (c.recycle c.tail) σ l L' T off ∧
      (∀ R, Fulls c L R T → Fulls (c.recycle c.tail) L' R T) ∧
      (NonePart c → NonePart (c.recycle c.tail)) := by
  obtain ⟨L', -, hw, hfulls⟩ := h.window.recycle h.tail
  have hframe := c.recycle_frame c.tail
  have hstores := h.stores.recycle c.tail
  refine ⟨L', ⟨hw, (c.recycle_tail _).trans h.tail, hstores, ?_, ?_, ?_⟩, hfulls, ?_⟩
  · obtain ⟨_, _, _, _, _, _, heq⟩ := hframe
    rw [heq]
    exact ⟨h.mirror.file, h.mirror.length⟩
  · have hr : (c.recycle c.tail).rDkPos = c.rDkPos := by
      obtain ⟨_, _, _, _, _, _, heq⟩ := hframe
      rw [heq]
    rw [recycle_hRbOffset, hr]
    exact h.inStep
  · obtain ⟨_, _, _, _, _, _, heq⟩ := hframe
    rw [heq]
    exact h.behind
  · intro hpart
    by_cases hst : (c.slots c.tail).state = .recycle
    · exact hpart.update (i := c.tail) (t := (c.slots c.tail).reset)
        (by simp [Cache.recycle, hst]) (by simp)
    · rw [recycle_of_ne hst]
      exact hpart

/-- A read in step takes the next bytes of the stream into the slot at the tail. -/
theorem read (h : DiskRing c σ l L T off) {k : ℕ} {drain : Bool}
    (hread : c.diskRead c.tail c.hRbOffset drain p k = (c', true)) :
    DiskRing c'.advance σ l L (T + 1)
        (Function.update off (T + 1) (c.hRbOffset + c.readSize)) ∧
      (∀ R, Fulls c L R T → Fulls c'.advance L R (T + 1)) ∧
      (NonePart c → NonePart c'.advance) := by
  obtain ⟨hw, htail, hfulls, hhigh⟩ := h.window.read h.tail hread
  obtain ⟨f, hf, -, -, -, -, rfl⟩ := diskRead_true hread
  obtain ⟨f', hf', hlen, hholds⟩ := h.mirror.file
  cases hf.symm.trans hf'
  have hsize : c.readSize ≤ c.wDkPos - c.rDkPos := by
    rw [readSize, gsizeSub, if_pos h.behind]
    exact Nat.min_le_left _ _
  have hinStep := h.inStep
  have hbehind := h.behind
  refine ⟨⟨hw, htail, ?_, ⟨h.mirror.file, h.mirror.length⟩, ?_, ?_⟩, hfulls, ?_⟩
  · refine h.stores.update (i := c.tail) rfl ?_
    intro o ho i hi
    rw [Slot.load_offset] at ho
    cases ho
    rw [Slot.load_size] at hi
    have hplace := memcpy_inside (c.slots c.tail).data 0 (fun j => f.byte (c.rDkPos + j)) hi
    rw [Nat.zero_add] at hplace
    rw [Slot.load_data, hplace, ← hholds (c.rDkPos + i) (by omega)]
    congr 1
    omega
  · rw [hhigh]
    show c.hRbOffset + c.readSize = l + (c.rDkPos + c.readSize)
    omega
  · show c.rDkPos + c.readSize ≤ c.wDkPos
    omega
  · intro hpart
    exact hpart.update (i := c.tail) rfl (by simp)

/-- A reload in step with the stream keeps what holds of the ring. -/
theorem reload (h : DiskRing c σ l L T off) (hp : p.FilesOk) (drain : Bool) :
    ∃ L' T' off', DiskRing (c.reload drain p) σ l L' T' off' ∧ Grows T off T' off' ∧
      (∀ R, Fulls c L R T → Fulls (c.reload drain p) L' R T') ∧
      (NonePart c → NonePart (c.reload drain p)) := by
  refine reload_induct (P := fun c₁ => ∃ L' T' off', DiskRing c₁ σ l L' T' off' ∧
    Grows T off T' off' ∧ (∀ R, Fulls c L R T → Fulls c₁ L' R T') ∧
    (NonePart c → NonePart c₁)) ?_ ?_ ?_ ⟨L, T, off, h, .rfl, fun _ hf => hf, fun hn => hn⟩
  · rintro c₁ ⟨L', T', off', h₁, hgrows, hfulls, hpart⟩
    obtain ⟨L'', h₂, hfulls', hpart'⟩ := h₁.recycle
    exact ⟨L'', T', off', h₂, hgrows, fun R hR => hfulls' R (hfulls R hR),
      fun hn => hpart' (hpart hn)⟩
  · rintro c₁ c₂ k ⟨L', T', off', h₁, hgrows, hfulls, hpart⟩ - hread
    obtain ⟨h₂, hfulls', hpart'⟩ := h₁.read hread
    exact ⟨L', T' + 1, _, h₂, hgrows.trans (.succ T' off' _),
      fun R hR => hfulls' R (hfulls R hR), fun hn => hpart' (hpart hn)⟩
  · rintro c₁ c₂ k ⟨L', T', off', h₁, hgrows, hfulls, hpart⟩ hread
    obtain ⟨rfl, -⟩ := h₁.mirror.diskRead_false hp h₁.behind hread
    exact ⟨L', T', off', h₁, hgrows, hfulls, hpart⟩

/-- Where no slot is to be recycled, the window only grows. -/
theorem reload_clean (h : DiskRing c σ l L T off) (hp : p.FilesOk)
    (hclean : ∀ i, (c.slots i).state ≠ .recycle) (hpart : NonePart c) (drain : Bool) :
    ∃ T' off', DiskRing (c.reload drain p) σ l L T' off' ∧ Grows T off T' off' ∧
      NonePart (c.reload drain p) := by
  -- no round makes a slot one to be recycled
  refine (reload_induct (P := fun c₁ => (∃ T' off', DiskRing c₁ σ l L T' off' ∧
    Grows T off T' off' ∧ NonePart c₁) ∧ ∀ i, (c₁.slots i).state ≠ .recycle) ?_ ?_ ?_
    ⟨⟨T, off, h, .rfl, hpart⟩, hclean⟩).1
  · rintro c₁ ⟨h₁, hclean₁⟩
    rw [recycle_of_ne (hclean₁ c₁.tail)]
    exact ⟨h₁, hclean₁⟩
  · rintro c₁ c₂ k ⟨⟨T', off', h₁, hgrows, hpart₁⟩, hclean₁⟩ - hread
    obtain ⟨h₂, -, hpart₂⟩ := h₁.read hread
    refine ⟨⟨T' + 1, _, h₂, hgrows.trans (.succ T' off' _), hpart₂ hpart₁⟩, ?_⟩
    obtain ⟨f, -, -, -, -, -, rfl⟩ := diskRead_true hread
    show ∀ i, (Function.update c₁.slots c₁.tail _ i).state ≠ .recycle
    rw [Function.forall_update_iff c₁.slots fun _ s => s.state ≠ .recycle]
    exact ⟨by simp, fun i _ => hclean₁ i⟩
  · rintro c₁ c₂ k ⟨⟨T', off', h₁, hgrows, hpart₁⟩, hclean₁⟩ hread
    obtain ⟨rfl, -⟩ := h₁.mirror.diskRead_false hp h₁.behind hread
    exact ⟨⟨T', off', h₁, hgrows, hpart₁⟩, hclean₁⟩

theorem restate (h : DiskRing c σ l L T off) (hr : Restate c c') : DiskRing c' σ l L T off := by
  have hw := h.window.restate hr
  have hst := h.stores.restate hr
  obtain ⟨_, _, _, _, rfl⟩ := hr.frame
  exact ⟨hw, h.tail, hst, ⟨h.mirror.file, h.mirror.length⟩, h.inStep, h.behind⟩

/-- Writing to the disk lets the stream grow behind the ring. -/
theorem diskWrite (h : DiskRing c σ l L T off) (hp : p.FilesOk) {data : Block UInt8}
    (hsize : data.size < 2 ^ 32) :
    DiskRing (c.diskWrite data p) (σ ++ data.toList) l L T off := by
  have hsame := c.diskWrite_sameRing data p
  have hmirror := h.mirror.diskWrite hp hsize
  obtain ⟨f, hf, -⟩ := h.mirror.file
  have heq := diskWrite_ok hf hp.writeSeek hp.fwrite hsize
  have hbehind := h.behind
  refine ⟨h.window.sameRing hsame, hsame.tail.trans h.tail,
    (h.stores.append _).of_slots hsame.slots, hmirror, ?_, ?_⟩
  · rw [hsame.hRbOffset, heq]
    exact h.inStep
  · rw [heq]
    show c.rDkPos ≤ c.wDkPos + data.size
    omega

end DiskRing

end Cache

end TimeShift
