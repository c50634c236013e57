import TimeShift.Cache.HasOffset

/-!
# Labels within the stream

A buffer of the cache is labelled with the range of its slot, and that ends no later than
`h_offset` (`LabelBounds`), in whatever order the cache is used. The one function that can
break this is the reload: it labels what it reads with `h_rb_offset`, and it reads from
`r_dk_pos` on. When the file has more bytes behind that position than the stream has
behind the ring, the labels run ahead of the stream, so each refill has to come with
`RefillFits`.
-/

set_option linter.unusedSectionVars false

namespace TimeShift

open Bytes

namespace Cache

variable {n : ℕ} [NeZero n] {c c' : Cache n} {p : Platform}

/-- No slot in use is labelled beyond the end of the stream, and neither is what a push
writes next while the cache is not recording. -/
structure LabelBounds (c : Cache n) : Prop where
  slots : ∀ i, (c.slots i).state ≠ .empty → (c.slots i).offsetEnd ≤ c.hOffset
  part : ∀ i, (c.slots i).state = .part → i = c.tail
  next : c.isRecording = false → c.hRbOffset + c.tailBytes ≤ c.hOffset

/-- The end of what the file has, or is about to get. -/
def fileEnd (c : Cache n) : ℕ := max (c.file.elim 0 File.len) c.wDkPos

/-- A refill finds the tail slot closed, or the file has no more bytes behind the read
position than the stream has behind the ring. -/
def RefillFits (c : Cache n) : Prop :=
  c.Closed c.tail ∨ c.hRbOffset + (c.fileEnd - c.rDkPos) ≤ c.hOffset

/-- The refill of a pop fits. -/
def PopFits (c : Cache n) (drain : Bool) : Prop :=
  let c := if drain then c.promote else c
  c.isDiskUsable = true → (c.slots c.head).state = .full → c.RefillFits

/-- The refill of a push fits. -/
def PushFits (c : Cache n) : Prop := c.isRecording = true → c.fslots = 0 → c.RefillFits

/-- A seek to the offset empties the ring, and refills it from the file. -/
def SeeksDisk (c : Cache n) (offset : ℕ) : Prop :=
  ¬(c.lRbOffset ≤ c.clamp offset ∧ c.clamp offset < c.hRbOffset) ∧ c.isDiskUsable = true

namespace LabelBounds

theorem of_new (memory : Fin n → ℕ → UInt8) (file : Option File) :
    LabelBounds (Cache.new n memory file) where
  slots _ hi := absurd rfl hi
  part _ hi := nomatch hi
  next _ := Nat.le_refl 0

/-- The ring has not changed, and the stream is no shorter. -/
theorem sameRing (h : LabelBounds c) (hr : SameRing c c') (hcount : c.hOffset ≤ c'.hOffset)
    (hrec : c'.isRecording = false → c.isRecording = false) : LabelBounds c' := by
  constructor
  · intro i hi
    rw [hr.slots] at hi ⊢
    exact (h.slots i hi).trans hcount
  · intro i hi
    rw [hr.slots] at hi
    rw [hr.tail]
    exact h.part i hi
  · intro hidle
    have hnext := h.next (hrec hidle)
    rw [hr.hRbOffset, tailBytes, hr.slots, hr.tail]
    exact hnext.trans hcount

theorem restate (h : LabelBounds c) (hr : Restate c c') : LabelBounds c' := by
  have htail := tailBytes_restate hr
  rcases hr.frame with ⟨slots, head, fslots, d, heq⟩
  have hcount : c'.hOffset = c.hOffset := by rw [heq]
  constructor
  · intro i hi
    rw [Slot.offsetEnd, (hr.slot i).offset, (hr.slot i).size, hcount]
    apply h.slots i
    intro hempty
    have hopen : ¬(c.slots i).Complete := by simp [Slot.Complete, hempty]
    rw [(hr.slot i).eq_of_not_complete hopen] at hi
    exact hi hempty
  · intro i hi
    have hopen : ¬(c'.slots i).Complete := by simp [Slot.Complete, hi]
    rw [(hr.slot i).complete_iff] at hopen
    rw [(hr.slot i).eq_of_not_complete hopen] at hi
    rw [h.part i hi, heq]
  · intro hidle
    have hnext : c.hRbOffset + c.tailBytes ≤ c.hOffset := h.next (by rw [← hidle, heq])
    rw [htail, hcount, heq]
    exact hnext

/-- A slot that is partly written after a store is the one that is stored, or the tail
slot already. -/
theorem part_of_update (h : LabelBounds c) {i : Fin n} {t : Slot}
    (hslots : c'.slots = Function.update c.slots i t) :
    ∀ j, (c'.slots j).state = .part → j = i ∧ t.state = .part ∨ j ≠ i ∧ j = c.tail := by
  rw [hslots, Function.forall_update_iff c.slots fun j s =>
    s.state = .part → j = i ∧ t.state = .part ∨ j ≠ i ∧ j = c.tail]
  exact ⟨fun hi => Or.inl ⟨rfl, hi⟩, fun j hj hpart => Or.inr ⟨hj, h.part j hpart⟩⟩

/-- One slot is stored. -/
theorem update (h : LabelBounds c) {i : Fin n} {t : Slot}
    (hslots : c'.slots = Function.update c.slots i t) (hcount : c.hOffset ≤ c'.hOffset)
    (hend : t.state ≠ .empty → t.offsetEnd ≤ c'.hOffset)
    (hpart : ∀ j, (c'.slots j).state = .part → j = c'.tail)
    (hnext : c'.isRecording = false → c'.hRbOffset + c'.tailBytes ≤ c'.hOffset) :
    LabelBounds c' := by
  refine ⟨?_, hpart, hnext⟩
  rw [hslots, Function.forall_update_iff c.slots fun _ s =>
    s.state ≠ .empty → s.offsetEnd ≤ c'.hOffset]
  exact ⟨hend, fun j _ hj => (h.slots j hj).trans hcount⟩

/-- A slot that is not partly written is stored, and nothing else changes that counts. -/
theorem store (h : LabelBounds c) {i : Fin n} {t : Slot}
    (hslots : c'.slots = Function.update c.slots i t) (ht : t.state ≠ .part)
    (hend : t.state ≠ .empty → t.offsetEnd ≤ c.hOffset) (htail : c'.tail = c.tail)
    (hcount : c'.hOffset = c.hOffset) (hring : c'.hRbOffset = c.hRbOffset)
    (hrec : c'.isRecording = c.isRecording) : LabelBounds c' := by
  apply h.update hslots (Nat.le_of_eq hcount.symm)
  · rw [hcount]
    exact hend
  · intro j hj
    rw [htail]
    rcases h.part_of_update hslots j hj with ⟨-, hpart⟩ | ⟨-, hj⟩
    · exact absurd hpart ht
    · exact hj
  · intro hidle
    have hnext := h.next (hrec.symm.trans hidle)
    have hbytes : c'.tailBytes ≤ c.tailBytes := by
      by_cases hti : c.tail = i
      · -- what was in the tail slot does not count any more
        have hne : (c'.slots c'.tail).state ≠ .part := by
          rw [htail, hslots, hti, Function.update_self]
          exact ht
        rw [tailBytes_of_ne_part hne]
        exact Nat.zero_le _
      · rw [tailBytes, htail, hslots, Function.update_of_ne hti]
        exact Nat.le_refl _
    rw [hring, hcount]
    omega

/-- A slot in use is given back. -/
theorem release (h : LabelBounds c) {i : Fin n} (hi : (c.slots i).state ≠ .empty) :
    LabelBounds (c.release i) := by
  apply h.store (i := i) (t := (c.slots i).setState .recycle CacheState.recycle_closed) rfl
  · simp
  · intro _
    exact h.slots i hi
  all_goals rfl

theorem recycle (h : LabelBounds c) (i : Fin n) : LabelBounds (c.recycle i) := by
  by_cases hst : (c.slots i).state = .recycle
  · apply h.store (i := i) (t := (c.slots i).reset)
    · simp [Cache.recycle, hst]
    · simp
    · intro habs
      exact absurd rfl habs
    all_goals simp [Cache.recycle, hst]
  · rw [recycle_of_ne hst]
    exact h

/-- The tail slot takes bytes of a push, and the stream as many. -/
theorem fill (h : LabelBounds c) (hidle : c.isRecording = false) (data : Block UInt8) {k : ℕ}
    (ha : (c.slots c.tail).available) (hk : k ≤ (c.slots c.tail).room) :
    LabelBounds (c.fill data k ha hk) := by
  have hslots := c.fill_slots data k ha hk
  have heq := c.fill_eq data k ha hk
  have hnext := h.next hidle
  rw [tailBytes_of_available ha] at hnext
  set t := ((c.slots c.tail).write data.byte k c.hRbOffset ha hk).1 with hdef
  have hend : t.offsetEnd = c.hRbOffset + ((c.slots c.tail).size + k) := by
    rw [Slot.offsetEnd, hdef, Slot.write_offset, Slot.write_size, Offset.val_some]
  have hcount : (c.fill data k ha hk).hOffset = c.hOffset + k := c.fill_hOffset data k ha hk
  by_cases hfull : (c.slots c.tail).size + k = cacheSlotSize
  · have hstate : t.state = .full := by simp [hdef, hfull]
    simp only [hfull, if_true] at heq
    have hnone : ∀ j, ((c.fill data k ha hk).slots j).state ≠ .part := by
      intro j hpart
      rcases h.part_of_update hslots j hpart with ⟨-, habs⟩ | ⟨hne, hj⟩
      · rw [hstate] at habs
        cases habs
      · exact hne hj
    apply h.update hslots (by omega)
    · intro _
      omega
    · intro j hj
      exact absurd hj (hnone j)
    · intro _
      rw [tailBytes_of_ne_part (hnone _), hcount, heq]
      show c.hRbOffset + cacheSlotSize + 0 ≤ _
      omega
  · have hstate : t.state = .part := by simp [hdef, hfull]
    simp only [hfull, if_false] at heq
    have htail : (c.fill data k ha hk).tail = c.tail := by rw [heq]
    have htslot : (c.fill data k ha hk).slots (c.fill data k ha hk).tail = t := by
      rw [htail, hslots, Function.update_self]
    apply h.update hslots (by omega)
    · intro _
      omega
    · intro j hj
      rw [htail]
      rcases h.part_of_update hslots j hj with ⟨hj, -⟩ | ⟨-, hj⟩
      · exact hj
      · exact hj
    · intro _
      have havail : ((c.fill data k ha hk).slots (c.fill data k ha hk).tail).available := by
        rw [htslot, Slot.available_iff]
        exact Or.inr hstate
      have hlast : (c.fill data k ha hk).hRbOffset = c.hRbOffset := by rw [heq]
      rw [tailBytes_of_available havail, htslot, hcount, hlast, hdef, Slot.write_size]
      omega

end LabelBounds

/-! ## Refills -/

/-- A write adds to the stream at least what it adds to the file. -/
theorem RefillFits.diskWrite (h : RefillFits c) (data : Block UInt8) (p : Platform) :
    RefillFits (c.diskWrite data p) := by
  have hring := c.diskWrite_sameRing data p
  rcases h with hclosed | hfits
  · left
    rw [Closed, hring.slots, hring.tail]
    exact hclosed
  · right
    unfold Cache.diskWrite
    split
    · exact hfits
    split
    · exact hfits
    rename_i f hf _
    have hdone : fwriteCount (guint data.size) p.fwrite ≤ guint data.size := by
      unfold fwriteCount
      split
      · exact Nat.le_refl _
      · exact Nat.min_le_right _ _
    rw [fileEnd, hf] at hfits
    simp only [fileEnd, File.write, Option.elim_some] at hfits ⊢
    generalize fwriteCount (guint data.size) p.fwrite = done at hdone ⊢
    split <;> split <;> omega

theorem RefillFits.take (h : RefillFits c) : RefillFits c.take := by
  rcases h with hclosed | hfits
  · left
    unfold Closed
    by_cases htail : c.tail = c.head
    · right
      simp [Cache.take, htail]
    · have hslot : c.take.slots c.take.tail = c.slots c.tail := by simp [Cache.take, htail]
      rw [hslot]
      exact hclosed
  · exact Or.inr hfits

namespace LabelBounds

theorem diskWrite (h : LabelBounds c) (data : Block UInt8) (p : Platform) :
    LabelBounds (c.diskWrite data p) := by
  apply h.sameRing (c.diskWrite_sameRing data p) (c.diskWrite_hOffset_le data p)
  rw [diskWrite_isRecording]
  exact id

theorem startRecording (h : LabelBounds c) (p : Platform) :
    LabelBounds (c.startRecording p).1 := by
  apply h.sameRing (c.startRecording_sameRing p) (Nat.le_of_eq (startRecording_hOffset c p).symm)
  rcases c.startRecording_cases p with ⟨heq, -⟩ | ⟨-, -, -, heq⟩
  · rw [heq]
    exact id
  · rw [heq]
    exact fun habs => nomatch habs

theorem migrationThread (h : LabelBounds c) (p : Platform) :
    LabelBounds (c.migrationThread p) := by
  apply h.sameRing (c.migrationThread_sameRing p)
    (Nat.le_of_eq (c.migrationThread_hOffset p).symm)
  rw [migrationThread_isRecording]
  exact id

/-- A slot is read from the file; its label ends within the stream. -/
theorem read (h : LabelBounds c) (hrec : c.isRecording = true) {k : ℕ} {drain : Bool}
    (hfits : c.hRbOffset + (c.fileEnd - c.rDkPos) ≤ c.hOffset)
    (hread : c.diskRead c.tail c.hRbOffset drain p k = (c', true)) :
    LabelBounds c'.advance ∧
      c'.advance.hRbOffset + (c'.advance.fileEnd - c'.advance.rDkPos) ≤ c'.advance.hOffset := by
  rcases diskRead_true hread with ⟨f, hf, -, -, -, hlen, heq⟩
  have hend : c.rDkPos + c.readSize ≤ c.fileEnd := by
    rw [fileEnd, hf, Option.elim_some]
    omega
  set t := (c.slots c.tail).load (fun j => f.byte (c.rDkPos + j)) c.readSize c.hRbOffset
    c.readSize_le
  have hslots : c'.advance.slots = Function.update c.slots c.tail t := by
    rw [heq]
    rfl
  have hcount : c'.advance.hOffset = c.hOffset := by
    rw [heq]
    rfl
  constructor
  · apply h.update hslots (Nat.le_of_eq hcount.symm)
    · intro _
      rw [hcount]
      show c.hRbOffset + c.readSize ≤ c.hOffset
      omega
    · intro j hj
      -- a partly written slot would be the one that was read
      rcases h.part_of_update hslots j hj with ⟨-, hpart⟩ | ⟨hne, hjt⟩
      · cases hpart
      · exact absurd hjt hne
    · intro hidle
      have hsame : c'.advance.isRecording = c.isRecording := by
        rw [heq]
        rfl
      rw [hsame, hrec] at hidle
      cases hidle
  · have hring : c'.advance.hRbOffset = c.hRbOffset + c.readSize := by
      rw [heq]
      simp only [advance, Function.update_self]
      rfl
    have hfile : c'.advance.fileEnd - c'.advance.rDkPos =
        c.fileEnd - (c.rDkPos + c.readSize) := by
      rw [heq]
      rfl
    rw [hring, hfile, hcount]
    omega

/-- Only bytes of a slot have changed. -/
theorem read_fail (h : LabelBounds c) {i : Fin n} {o k : ℕ} {drain : Bool}
    (hread : c.diskRead i o drain p k = (c', false)) : LabelBounds c' := by
  rcases diskRead_false hread with rfl | ⟨-, bytes, m, rfl⟩
  · exact h
  · have hsame := c.setSlot_smear i bytes m
    constructor
    · intro j hj
      rw [(hsame j).1] at hj
      rw [Slot.offsetEnd, (hsame j).2.1, (hsame j).2.2]
      exact h.slots j hj
    · intro j hj
      rw [(hsame j).1] at hj
      exact h.part j hj
    · intro hidle
      have hnext := h.next hidle
      rw [tailBytes, Slot.available, (hsame _).1, (hsame _).2.2]
      exact hnext

/-- A refill that fits. -/
theorem reload (h : LabelBounds c) (hrec : c.isRecording = true) (hfits : RefillFits c)
    (drain : Bool) (p : Platform) : LabelBounds (c.reload drain p) := by
  rcases hfits with hclosed | hfits
  · rw [reload_closed hclosed]
    exact h
  · have hkept : LabelBounds (c.reload drain p) ∧ (c.reload drain p).isRecording = true ∧
        (c.reload drain p).hRbOffset + ((c.reload drain p).fileEnd - (c.reload drain p).rDkPos) ≤
          (c.reload drain p).hOffset := by
      apply reload_induct (P := fun c => LabelBounds c ∧ c.isRecording = true ∧
        c.hRbOffset + (c.fileEnd - c.rDkPos) ≤ c.hOffset) ?_ ?_ ?_ ⟨h, hrec, hfits⟩
      · rintro c₁ ⟨h₁, hrec₁, hfits₁⟩
        refine ⟨h₁.recycle c₁.tail, ?_⟩
        unfold Cache.recycle
        dsimp only
        split
        · exact ⟨hrec₁, hfits₁⟩
        · exact ⟨hrec₁, hfits₁⟩
      · rintro c₁ c₂ k ⟨h₁, hrec₁, hfits₁⟩ - hread
        have hnext := h₁.read hrec₁ hfits₁ hread
        refine ⟨hnext.1, ?_, hnext.2⟩
        rcases diskRead_true hread with ⟨f, -, -, -, -, -, rfl⟩
        exact hrec₁
      · rintro c₁ c₂ k ⟨h₁, hrec₁, hfits₁⟩ hread
        refine ⟨h₁.read_fail hread, ?_⟩
        rcases diskRead_false hread with rfl | ⟨-, bytes, m, rfl⟩
        · exact ⟨hrec₁, hfits₁⟩
        · exact ⟨hrec₁, hfits₁⟩
    exact hkept.1

/-! ### The operations -/

theorem push (h : LabelBounds c) (hfits : PushFits c) (data : Block UInt8) (p : Platform) :
    LabelBounds (c.push data p) ∧ c.hOffset ≤ (c.push data p).hOffset := by
  cases hrec : c.isRecording with
  | true =>
      have hwrite := h.diskWrite data p
      have hcount := c.diskWrite_hOffset_le data p
      rw [push_recording hrec]
      split
      · rename_i hzero
        have hrec' := (diskWrite_isRecording c data p).trans hrec
        refine ⟨hwrite.reload hrec' ((hfits hrec hzero).diskWrite data p) false p, ?_⟩
        rw [reload_hOffset]
        exact hcount
      · exact ⟨hwrite, hcount⟩
  | false =>
      rw [push_ring hrec]
      apply pushLoop_rule
        (P := fun c₁ => LabelBounds c₁ ∧ c₁.isRecording = false ∧ c.hOffset ≤ c₁.hOffset)
        (Q := fun c₁ => LabelBounds c₁ ∧ c.hOffset ≤ c₁.hOffset) ?_ ?_ ?_ ?_
        ⟨h, hrec, Nat.le_refl _⟩
      · rintro c₁ ⟨h₁, hidle, hcount⟩
        rw [recycle_isRecording, recycle_hOffset]
        exact ⟨h₁.recycle c₁.tail, hidle, hcount⟩
      · rintro c₁ d k ha hk ⟨h₁, hidle, hcount⟩ -
        rw [fill_isRecording, fill_hOffset]
        exact ⟨h₁.fill hidle d ha hk, hidle, Nat.le_add_right_of_le hcount⟩
      · rintro c₁ ⟨h₁, -, hcount⟩
        exact ⟨h₁, hcount⟩
      · -- the rest goes to the file
        rintro c₁ d ⟨h₁, -, hcount⟩
        have hgrown := (c₁.startRecording p).1.diskWrite_hOffset_le d p
        rw [startRecording_hOffset] at hgrown
        exact ⟨(h₁.startRecording p).diskWrite d p, hcount.trans hgrown⟩

theorem promote (h : LabelBounds c) : LabelBounds c.promote := by
  by_cases hst : (c.slots c.head).state = .part
  · have hnone : ∀ j, (c.promote.slots j).state ≠ .part := by
      intro j
      rw [promote_of_part hst]
      by_cases hj : j = c.head
      · simp [hj]
      · have hne : j ≠ c.tail := by
          rw [← h.part c.head hst]
          exact hj
        simp only [ne_eq, hj, not_false_eq_true, Function.update_of_ne]
        exact fun hpart => hne (h.part j hpart)
    have hend := h.slots c.head (by simp [hst])
    have hslots : c.promote.slots = Function.update c.slots c.head
        ((c.slots c.head).setState .full CacheState.full_closed) := by
      rw [promote_of_part hst]
    have hcount : c.promote.hOffset = c.hOffset := by rw [promote_of_part hst]
    apply h.update hslots (Nat.le_of_eq hcount.symm)
    · intro _
      rw [hcount]
      exact hend
    · intro j hj
      exact absurd hj (hnone j)
    · intro _
      have hring : c.promote.hRbOffset = (c.slots c.head).offsetEnd := by rw [promote_of_part hst]
      rw [tailBytes_of_ne_part (hnone _), hring, hcount]
      exact hend
  · rw [promote_of_ne hst]
    exact h

/-- A pop that fits; its buffer ends within the stream. -/
theorem pop (h : LabelBounds c) {drain : Bool} (hfits : PopFits c drain) {b : Option (Buffer n)}
    (hpop : c.pop drain p = (c', b)) :
    LabelBounds c' ∧ c'.hOffset = c.hOffset ∧ ∀ x, b = some x → x.offsetEnd ≤ c.hOffset := by
  rcases c.pop_cases drain p with ⟨c₁, hc₁, hres⟩
  unfold PopFits at hfits
  rw [← hc₁] at hfits
  have h₁ : LabelBounds c₁ ∧ c₁.hOffset = c.hOffset := by
    rw [hc₁]
    split
    · exact ⟨h.promote, c.promote_hOffset⟩
    · exact ⟨h, rfl⟩
  rw [hpop] at hres
  rcases hres with ⟨-, heq⟩ | ⟨hfull, heq⟩
  · cases heq
    exact ⟨h₁.1, h₁.2, fun x hx => nomatch hx⟩
  · have htake := h₁.1.restate (take_restate hfull)
    have hend : c₁.slotBuffer.offsetEnd ≤ c.hOffset := by
      rw [← h₁.2]
      exact h₁.1.slots c₁.head (by simp [hfull])
    rw [Prod.mk.injEq] at heq
    rcases heq with ⟨rfl, rfl⟩
    have hbuffer : ∀ x, some c₁.slotBuffer = some x → x.offsetEnd ≤ c.hOffset := by
      rintro x ⟨⟩
      exact hend
    split
    · rename_i hdisk
      have hrec : c₁.take.isRecording = true := ((Bool.and_eq_true _ _).mp hdisk).1
      refine ⟨htake.reload hrec (hfits hdisk hfull).take drain p, ?_, hbuffer⟩
      rw [reload_hOffset]
      exact h₁.2
    · exact ⟨htake, h₁.2, hbuffer⟩

/-- A seek that empties the ring has to refill it with labels that fit. -/
theorem seek (h : LabelBounds c) {offset : ℕ}
    (hfits : c.SeeksDisk offset → RefillFits (c.sought (c.clamp offset)))
    (hseek : c.seek offset p = some c') : LabelBounds c' ∧ c'.hOffset = c.hOffset := by
  rcases seek_cases hseek with ⟨-, -, hring⟩ | ⟨hout, hdisk, rfl⟩ | ⟨-, -, rfl⟩
  · have hrestate := seekRing_restate hring
    refine ⟨h.restate hrestate, ?_⟩
    rcases hrestate.frame with ⟨_, _, _, _, heq⟩
    rw [heq]
  · have hrec : (c.sought (c.clamp offset)).isRecording = true :=
      ((Bool.and_eq_true _ _).mp hdisk).1
    have hsought : LabelBounds (c.sought (c.clamp offset)) := by
      refine ⟨fun i hi => absurd rfl hi, fun i hi => (nomatch hi), ?_⟩
      intro hidle
      rw [hrec] at hidle
      cases hidle
    rw [seekDisk_eq]
    refine ⟨hsought.reload hrec (hfits ⟨hout, hdisk⟩) false p, ?_⟩
    rw [reload_hOffset]
    rfl
  · exact ⟨h, rfl⟩

end LabelBounds

end Cache

end TimeShift
