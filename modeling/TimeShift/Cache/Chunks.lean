import TimeShift.Cache.Isolation

/-!
# Pushing in pieces

While everything stays in memory, it makes no difference in which pieces the bytes are
pushed. A round of the loop of a push ends at the end of a slot or at the end of the
piece; the next piece goes on in the slot that the last one has left partly written
(`fill_fill`), and a slot is recycled when the next byte comes, be it of the same piece
or not.
-/

set_option linter.unusedSectionVars false

namespace TimeShift

open Bytes Machine

/-- Two writes to a slot that leave room after the first one are one write. -/
theorem Slot.write_write (s t : Slot) (a b : Block UInt8) (m o : ℕ) (h : s.available)
    (ha : a.size ≤ s.room) (ht : t = (s.write a.byte a.size o h ha).1) (h' : t.available)
    (hm : m ≤ t.room) (ham : a.size + m ≤ s.room) :
    (t.write b.byte m o h' hm).1 = (s.write (a.append b).byte (a.size + m) o h ham).1 := by
  subst ht
  have hwptr := (s.open_room h).1
  apply Slot.ext
  · simp only [write_state, write_size, Nat.add_assoc]
  · rfl
  · simp only [write_data, write_wptr]
    exact memcpy_memcpy s.data s.wptr a b m
  · simp only [write_wptr, Nat.add_assoc]
  · simp only [write_size, Nat.add_assoc]

namespace Cache

variable {n : ℕ} [NeZero n] {c c' : Cache n} {p q r : Platform}

/-! ## Rounds of a push -/

/-- Only the bytes that a round takes matter to it. -/
theorem fill_congr (c : Cache n) {a b : Block UInt8} {k m : ℕ} (ha : (c.slots c.tail).available)
    (hk : k ≤ (c.slots c.tail).room) (hm : m ≤ (c.slots c.tail).room) (heq : k = m)
    (hbyte : ∀ i < k, a.byte i = b.byte i) : c.fill a k ha hk = c.fill b m ha hm := by
  subst heq
  have hslot : ((c.slots c.tail).write a.byte k c.hRbOffset ha hk).1 =
      ((c.slots c.tail).write b.byte k c.hRbOffset ha hm).1 :=
    Slot.ext rfl rfl (memcpy_congr _ _ hbyte) rfl rfl
  rw [fill_eq, fill_eq, hslot]

/-- A round that leaves room in its slot. -/
theorem fill_part (c : Cache n) (data : Block UInt8) {k : ℕ} (ha : (c.slots c.tail).available)
    (hk : k < (c.slots c.tail).room) : c.fill data k ha (Nat.le_of_lt hk) = { c with
      slots := Function.update c.slots c.tail
        ((c.slots c.tail).write data.byte k c.hRbOffset ha (Nat.le_of_lt hk)).1
      hOffset := c.hOffset + k } := by
  have hroom := (c.slots c.tail).room_eq ha
  have hne : (c.slots c.tail).size + k ≠ cacheSlotSize := by omega
  rw [fill_eq]
  simp only [hne, if_false]

/-- Such a round leaves the slot at the tail. -/
theorem fill_part_tail (c : Cache n) (data : Block UInt8) {k : ℕ}
    (ha : (c.slots c.tail).available) (hk : k < (c.slots c.tail).room)
    (hc : c' = c.fill data k ha (Nat.le_of_lt hk)) : c'.slots c'.tail =
      ((c.slots c.tail).write data.byte k c.hRbOffset ha (Nat.le_of_lt hk)).1 := by
  rw [hc, c.fill_part data ha hk]
  exact Function.update_self ..

/-- A round goes on in the slot that the last one has left. -/
theorem fill_fill (c : Cache n) (a b : Block UInt8) {m : ℕ} (ha : (c.slots c.tail).available)
    (hk : a.size < (c.slots c.tail).room) (hc : c' = c.fill a a.size ha (Nat.le_of_lt hk))
    (ha' : (c'.slots c'.tail).available) (hm : m ≤ (c'.slots c'.tail).room)
    (ham : a.size + m ≤ (c.slots c.tail).room) :
    c'.fill b m ha' hm = c.fill (a.append b) (a.size + m) ha ham := by
  have htail := fill_part_tail c a ha hk hc
  rw [fill_part c a ha hk] at hc
  have hwrite := (c.slots c.tail).write_write (c'.slots c'.tail) a b m c.hRbOffset ha _ htail ha'
    hm ham
  have hsize : (c'.slots c'.tail).size + m = (c.slots c.tail).size + (a.size + m) := by
    rw [htail, Slot.write_size, Nat.add_assoc]
  have hhigh : c'.hRbOffset = c.hRbOffset := by rw [hc]
  rw [fill_eq, fill_eq, hsize]
  simp only [hhigh, hwrite]
  rw [hc]
  simp only [Function.update_idem, Nat.add_assoc]

/-- A slot that has been recycled is not recycled again. -/
theorem recycle_recycle (c : Cache n) :
    (c.recycle c.tail).recycle (c.recycle c.tail).tail = c.recycle c.tail := by
  rw [recycle_tail]
  exact recycle_of_ne (c.recycle_state_ne c.tail)

/-- A slot at the tail that has no room after it has been recycled is in use. -/
theorem recycle_closed (h : ¬((c.recycle c.tail).slots (c.recycle c.tail).tail).available = true) :
    (c.recycle c.tail).Closed (c.recycle c.tail).tail := by
  have hne := c.recycle_state_ne c.tail
  rw [recycle_tail] at h ⊢
  unfold Slot.available at h
  cases hst : ((c.recycle c.tail).slots c.tail).state with
  | empty => simp [hst, CacheState.isAvailable] at h
  | part => simp [hst, CacheState.isAvailable] at h
  | full => exact Or.inl hst
  | pop => exact Or.inr hst
  | recycle => exact absurd hst hne

/-- The rest of the loop does not depend on how much fuel is left, if there is enough. -/
theorem pushLoop_fuel {data : Block UInt8} {fuel : ℕ} (hfuel : data.size ≤ fuel) :
    pushLoop p fuel c data = pushLoop p data.size c data := by
  -- on the fuel; a round that makes another one takes a byte
  induction fuel using Nat.strong_induction_on generalizing c data with
  | _ fuel ih =>
      rcases Nat.eq_or_lt_of_le hfuel with heq | hlt
      · rw [heq]
      cases hsize : data.size with
      | zero =>
          obtain ⟨m, rfl⟩ : ∃ m, fuel = m + 1 := ⟨fuel - 1, by omega⟩
          simp only [pushLoop, hsize, if_true]
      | succ k =>
          obtain ⟨m, rfl⟩ : ∃ m, fuel = m + 1 := ⟨fuel - 1, by omega⟩
          rw [pushLoop, pushLoop, if_neg (by omega), if_neg (by omega)]
          dsimp only
          by_cases ha : ((c.recycle c.tail).slots (c.recycle c.tail).tail).available = true
          · have hpos := Slot.room_pos _ ha
            have hround : ((data.drop ((c.recycle c.tail).avail data))).size ≤ k := by
              rw [Block.size_drop, avail]
              omega
            rw [dif_pos ha, dif_pos ha, ih m (by omega) (by omega), ih k (by omega) hround]
          · rw [dif_neg ha, dif_neg ha]

/-! ## A cache that keeps everything in memory -/

/-- There is no file, and nothing is recorded. -/
structure InMemory (c : Cache n) : Prop where
  noFile : c.file = none
  notRecording : c.isRecording = false

namespace InMemory

theorem frame (h : InMemory c) (hf : RingFrame c c') : InMemory c' := by
  rcases hf with ⟨_, _, _, _, _, _, rfl⟩
  exact ⟨h.noFile, h.notRecording⟩

theorem startRecording (h : InMemory c) (p : Platform) : (c.startRecording p).1 = c := by
  rw [Cache.startRecording, h.noFile]
  rfl

theorem diskWrite (h : InMemory c) (data : Block UInt8) (p : Platform) :
    c.diskWrite data p = c := by
  rw [Cache.diskWrite, h.noFile]

theorem migrationThread (h : InMemory c) (p : Platform) : InMemory (c.migrationThread p) := by
  constructor
  · have hfile := h.noFile
    unfold Cache.migrationThread
    split
    · exact hfile
    · dsimp only
      repeat' split
      all_goals simp_all
    · exact hfile
  · rw [migrationThread_isRecording]
    exact h.notRecording

theorem push_nil (h : InMemory c) {data : Block UInt8} (hsize : data.size = 0) (p : Platform) :
    c.push data p = c := by
  rw [push_ring h.notRecording, hsize, pushLoop]

/-- A push that finds the tail slot in use drops the bytes. -/
theorem push_closed (h : InMemory c) {data : Block UInt8} (hpos : 0 < data.size) (p : Platform)
    (hc : (c.recycle c.tail).Closed (c.recycle c.tail).tail) :
    c.push data p = c.recycle c.tail := by
  have hrec := h.frame (c.recycle_frame c.tail)
  rw [push_ring h.notRecording, ← pushLoop_recycle data p hpos]
  rcases pushLoop_closed hc data p with ⟨habs, -⟩ | ⟨-, heq⟩
  · omega
  · rw [heq, hrec.startRecording, hrec.diskWrite]

/-- A push that finds room makes a round, and goes on with the bytes behind it. -/
theorem push_round (h : InMemory c) {data : Block UInt8} (hpos : 0 < data.size) (p : Platform)
    (hc : c' = c.recycle c.tail) (ha : (c'.slots c'.tail).available) {k : ℕ}
    (hk : k = c'.avail data) (hroom : k ≤ (c'.slots c'.tail).room) :
    c.push data p = (c'.fill data k ha hroom).push (data.drop k) p := by
  subst hk
  have hnext := (h.frame (c.recycle_frame c.tail)).frame
    ((c.recycle c.tail).fill_frame data _ (hc ▸ ha) ((c.recycle c.tail).avail_le_room data))
  obtain ⟨m, hm⟩ : ∃ m, data.size = m + 1 := ⟨data.size - 1, by omega⟩
  have hless : (data.drop (c'.avail data)).size ≤ m := by
    have := Slot.room_pos _ ha
    rw [Block.size_drop, avail]
    omega
  subst hc
  rw [push_ring h.notRecording, push_ring hnext.notRecording, hm, pushLoop, if_neg (by omega)]
  dsimp only
  rw [dif_pos ha, pushLoop_fuel hless]

/-- What a push does depends on the bytes only. -/
theorem push_congr (h : InMemory c) {a b : Block UInt8} (heq : a.toList = b.toList)
    (p q : Platform) : c.push a p = c.push b q := by
  -- on the bytes that are left
  induction hm : a.size using Nat.strong_induction_on generalizing c a b with
  | _ m ih =>
      have hsize : a.size = b.size := by
        have hlen := congrArg List.length heq
        simpa using hlen
      rcases Nat.eq_zero_or_pos a.size with hzero | hpos
      · rw [h.push_nil hzero, h.push_nil (hsize ▸ hzero)]
      by_cases ha : ((c.recycle c.tail).slots (c.recycle c.tail).tail).available = true
      · have hkroom := (c.recycle c.tail).avail_le_room a
        have hksize := (c.recycle c.tail).avail_le_size a
        have havail : (c.recycle c.tail).avail a = (c.recycle c.tail).avail b := by
          rw [avail, avail, hsize]
        have hkpos : 0 < (c.recycle c.tail).avail a := by
          have := Slot.room_pos _ ha
          rw [avail]
          omega
        rw [h.push_round hpos p rfl ha rfl hkroom,
          h.push_round (hsize ▸ hpos) q rfl ha havail hkroom]
        have hnext := (h.frame (c.recycle_frame c.tail)).frame
          ((c.recycle c.tail).fill_frame a _ ha hkroom)
        generalize (c.recycle c.tail).avail a = k at *
        have hbyte : ∀ i < k, a.byte i = b.byte i := by
          intro i hi
          have hbytes := congrArg (fun l => l[i]?) heq
          simp only [a.getElem?_toList (show i < a.size by omega),
            b.getElem?_toList (show i < b.size by omega), Option.some.injEq] at hbytes
          exact hbytes
        rw [← (c.recycle c.tail).fill_congr ha hkroom hkroom rfl hbyte]
        apply ih (a.drop k).size _ hnext _ rfl
        · rw [Block.size_drop]
          omega
        · rw [Block.toList_drop, Block.toList_drop, heq]
      · have hc := recycle_closed ha
        rw [h.push_closed hpos p hc, h.push_closed (hsize ▸ hpos) q hc]

/-- After a piece that leaves room in its slot, the next one is written behind it. -/
theorem push_part (h : InMemory c) (a b : Block UInt8) (q r : Platform) (hpos : 0 < a.size)
    (hc : c' = c.recycle c.tail) (ha : (c'.slots c'.tail).available)
    (hlt : a.size < (c'.slots c'.tail).room) :
    (c'.fill a a.size ha (Nat.le_of_lt hlt)).push b q = c.push (a.append b) r := by
  have hrec : InMemory c' := hc ▸ h.frame (c.recycle_frame c.tail)
  have hpart := hrec.frame (c'.fill_frame a _ ha (Nat.le_of_lt hlt))
  have hpos' : 0 < (a.append b).size := by
    rw [Block.append_size]
    omega
  have hroom := (c'.slots c'.tail).room_eq ha
  generalize hc₂ : c'.fill a a.size ha (Nat.le_of_lt hlt) = c₂ at *
  -- what is at the tail after the first piece
  have hslot := fill_part_tail c' a ha hlt hc₂.symm
  have hstate : (c₂.slots c₂.tail).state = .part := by
    have hne : (c'.slots c'.tail).size + a.size ≠ cacheSlotSize := by omega
    rw [hslot, Slot.write_state, if_neg hne]
  have havail : (c₂.slots c₂.tail).available = true :=
    (Slot.available_iff _).mpr (Or.inr hstate)
  have hroom₂ : (c₂.slots c₂.tail).room = (c'.slots c'.tail).room - a.size := by
    rw [hslot]
    simp only [Slot.room, Slot.write_wptr, Nat.sub_sub]
  have hsame : c₂ = c₂.recycle c₂.tail := (recycle_of_ne (by simp [hstate])).symm
  rcases Nat.eq_zero_or_pos b.size with hzero | hbpos
  · -- there is no second piece
    have hk : a.size = c'.avail (a.append b) := by
      rw [avail, Block.append_size]
      omega
    have hfill := c'.fill_congr (a := a) (b := a.append b) ha (Nat.le_of_lt hlt)
      (Nat.le_of_lt hlt) rfl fun i hi => (a.append_left b hi).symm
    have hrest : ((a.append b).drop a.size).size = 0 := by
      rw [Block.size_drop, Block.append_size, hzero, Nat.add_zero, Nat.sub_self]
    rw [hpart.push_nil hzero, h.push_round hpos' r hc ha hk (Nat.le_of_lt hlt), ← hfill, hc₂,
      hpart.push_nil hrest]
  · have hk : a.size + c₂.avail b = c'.avail (a.append b) := by
      rw [avail, avail, hroom₂, Block.append_size]
      omega
    have hkroom : a.size + c₂.avail b ≤ (c'.slots c'.tail).room := by
      rw [hk]
      exact c'.avail_le_room _
    have hfill := fill_fill c' a b ha hlt hc₂.symm havail (c₂.avail_le_room b) hkroom
    rw [hpart.push_round hbpos q hsame havail rfl (c₂.avail_le_room b),
      h.push_round hpos' r hc ha hk hkroom, ← hfill, Block.drop_append_add]
    exact (hpart.frame (c₂.fill_frame b _ havail _)).push_congr rfl q r

/-- The second piece goes on where the first one has stopped. -/
theorem push_append (h : InMemory c) (a b : Block UInt8) (p q r : Platform) :
    (c.push a p).push b q = c.push (a.append b) r := by
  -- on the bytes of the first piece that are left
  induction hm : a.size using Nat.strong_induction_on generalizing c a with
  | _ m ih =>
      rcases Nat.eq_zero_or_pos a.size with hzero | hpos
      · rw [h.push_nil hzero, Block.nil_append b hzero]
        exact h.push_congr rfl q r
      have hpos' : 0 < (a.append b).size := by
        rw [Block.append_size]
        omega
      have hrec := h.frame (c.recycle_frame c.tail)
      by_cases ha : ((c.recycle c.tail).slots (c.recycle c.tail).tail).available = true
      case neg =>
        -- there is no room, neither for the first piece nor for the second one
        have hclosed := recycle_closed ha
        have hagain := c.recycle_recycle
        rw [h.push_closed hpos p hclosed, h.push_closed hpos' r hclosed]
        rcases Nat.eq_zero_or_pos b.size with hzero | hbpos
        · exact hrec.push_nil hzero q
        · rw [hrec.push_closed hbpos q (by rwa [hagain]), hagain]
      have hroom := Slot.room_pos _ ha
      generalize hc₁ : c.recycle c.tail = c₁ at *
      by_cases hfull : (c₁.slots c₁.tail).room ≤ a.size
      · -- the first piece fills the slot
        have hk : (c₁.slots c₁.tail).room = c₁.avail a := by
          rw [avail]
          omega
        have hk' : (c₁.slots c₁.tail).room = c₁.avail (a.append b) := by
          rw [avail, Block.append_size]
          omega
        have hfill := c₁.fill_congr (a := a) (b := a.append b) ha (Nat.le_refl _) (Nat.le_refl _)
          rfl fun i hi => (a.append_left b (by omega)).symm
        have hnext := hrec.frame (c₁.fill_frame a _ ha (Nat.le_refl _))
        rw [h.push_round hpos p hc₁.symm ha hk (Nat.le_refl _),
          h.push_round hpos' r hc₁.symm ha hk' (Nat.le_refl _), ← hfill,
          Block.drop_append a b hfull]
        apply ih _ _ hnext _ rfl
        rw [Block.size_drop]
        omega
      · -- the first piece leaves room in the slot
        have hlt : a.size < (c₁.slots c₁.tail).room := Nat.lt_of_not_le hfull
        have hk : a.size = c₁.avail a := by
          rw [avail]
          omega
        have hpart : (c₁.fill a a.size ha (Nat.le_of_lt hlt)).InMemory :=
          hrec.frame (c₁.fill_frame a _ ha _)
        have hrest : (a.drop a.size).size = 0 := by
          rw [Block.size_drop, Nat.sub_self]
        rw [h.push_round hpos p hc₁.symm ha hk (Nat.le_of_lt hlt), hpart.push_nil hrest]
        exact h.push_part a b q r hpos hc₁.symm ha hlt

end InMemory

end Cache

/-! ## Runs -/

namespace Session

open Cache

variable {n : ℕ} [NeZero n] {s s' : Session n}

/-- Without a file, nothing is ever recorded. -/
theorem inMemory_step (h : InMemory s.cache) {l : Label} (hs : s.step l = some s') :
    InMemory s'.cache := by
  rcases l with ⟨op, p⟩
  cases op with
  | push data =>
      rw [step_push hs]
      rcases push_frame h.notRecording data p with ⟨c₁, hframe, heq | ⟨k, heq⟩⟩
      · rw [heq]
        exact h.frame hframe
      · have h₁ := h.frame hframe
        rw [heq, h₁.startRecording, h₁.diskWrite]
        exact h₁
  | pop drain =>
      rw [step_pop hs, afterPop_cache]
      apply pop_induct (P := InMemory) _ _ _ h
      · intro c₁ h₁
        by_cases hst : (c₁.slots c₁.head).state = .part
        · rw [promote_of_part hst]
          exact ⟨h₁.noFile, h₁.notRecording⟩
        · rw [promote_of_ne hst]
          exact h₁
      · intro c₁ _ h₁
        exact ⟨h₁.noFile, h₁.notRecording⟩
      · intro c₁ hrec _ h₁
        rw [h₁.notRecording] at hrec
        cases hrec
  | release k =>
      rcases step_release hs with ⟨b, -, rfl⟩
      exact ⟨h.noFile, h.notRecording⟩
  | seek offset =>
      rcases step_seek hs with ⟨-, c, hc, rfl⟩
      rcases seek_cases hc with ⟨-, -, hring⟩ | ⟨-, hdisk, -⟩ | ⟨-, -, rfl⟩
      · rcases (seekRing_restate hring).frame with ⟨_, _, _, _, rfl⟩
        exact ⟨h.noFile, h.notRecording⟩
      · rw [isDiskUsable, h.notRecording] at hdisk
        cases hdisk
      · exact h
  | startRecording =>
      rw [step_startRecording hs, h.startRecording]
      exact h
  | migrate =>
      rw [step_migrate hs]
      exact h.migrationThread p
  | reload drain =>
      rw [step_reload hs]
      rcases s.cache.reload_frame drain p with ⟨_, _, _, _, _, _, heq⟩
      rw [heq]
      exact ⟨h.noFile, h.notRecording⟩

/-- In every state that a cache without a file reaches, two pushes leave what one push
of all the bytes leaves. -/
theorem push_in_pieces {memory : Fin n → ℕ → UInt8}
    (h : Reach Session.step (fun _ _ => True) (init n memory none) s) (a b d : Block UInt8)
    (hd : d.toList = a.toList ++ b.toList) (p q r : Platform) :
    (s.cache.push a p).push b q = s.cache.push d r := by
  have hmem : InMemory s.cache := by
    apply h.invariant (P := fun s => InMemory s.cache)
    · exact ⟨rfl, rfl⟩
    · intro s l s' hmem _ hs
      exact inMemory_step hmem hs
  rw [hmem.push_append a b p q r]
  exact hmem.push_congr ((Block.append_toList a b).trans hd.symm) r r

/-- The first of two slots has been read, and the second one has ten bytes. The first piece
fills it and goes on behind it, and the end of the second piece is dropped. -/
theorem push_in_pieces_around : ∃ s : Session 2,
    Reach Session.step (fun _ _ => True) (init 2 (fun _ _ => 0) none) s ∧
      s.cache.hOffset = cacheSlotSize + 10 ∧ s.readPos = cacheSlotSize ∧
      (s.cache.push ⟨cacheSlotSize, fun _ => 8⟩ .allOk).push ⟨cacheSlotSize, fun _ => 9⟩ .allOk =
        s.cache.push (Block.append ⟨cacheSlotSize, fun _ => 8⟩ ⟨cacheSlotSize, fun _ => 9⟩)
          .allOk := by
  have h₀ : Reach Session.step (fun _ _ => True) (init 2 (fun _ _ => 0) none) _ := .refl
  have h₁ := h₀.extend (.push ⟨cacheSlotSize + 10, fun _ => 7⟩, .allOk) trivial rfl
  have h₂ := h₁.extend (.pop false, .allOk) trivial rfl
  have h₃ := h₂.extend (.release 0, .allOk) trivial rfl
  exact ⟨_, h₃, rfl, rfl, push_in_pieces h₃ _ _ _ (Block.append_toList _ _) _ _ _⟩

end Session

end TimeShift
