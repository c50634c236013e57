import TimeShift.Cache.Lands

/-!
# Seeks end

The walks of a seek through the ring have no bound of their own: they go on until a
slot contains the offset. They stop within one turn as long as the slots of the ring
cover all offsets from `l_rb_offset` to `h_rb_offset`, which is so in every run that
never tears the slot of a lagging tail out of the ring (`seek_ends`).

The element drains the cache exactly while it has seen the end of the stream. A seek
makes it forget the end, so that more may be pushed behind a slot that has been
drained before it was full (`seek_walks_forever`).
-/

set_option linter.unusedSectionVars false

namespace TimeShift

open Bytes Cyclic Machine Cache

/-- A walk through the ring of a placed cache stops within one turn. -/
theorem Cache.Placed.seek_isSome {n : ℕ} [NeZero n] {c : Cache n} {L T : ℕ} {off : ℕ → ℕ}
    (h : Placed c L T off) (hnone : NonePopped c) (o : ℕ) (p : Platform) :
    ∃ c', c.seek o p = some c' := by
  unfold Cache.seek
  dsimp only
  split
  · -- the slots of the window have every offset in between
    rename_i hin
    have hw := h.window
    rcases h.head_of_lt (hw.lt_of_mem hin.1 hin.2) with ⟨R, hLR, hRT, hhead⟩
    rcases hw.seekRing_lands hnone hhead hLR hRT (hw.low ▸ hin.1) (hw.high ▸ hin.2) with
      ⟨m, c', -, -, -, -, hring, -⟩
    exact ⟨c', hring⟩
  · split
    · exact ⟨_, rfl⟩
    · exact ⟨_, rfl⟩

/-- The operations on the cache that the element makes; `eos` is the end of the stream. -/
inductive FeedOp where
  | push (data : Block UInt8)
  | eos
  | pop
  | release (k : ℕ)
  | seek (offset : ℕ)
  | startRecording
  | migrate

/-- A session of the cache, and whether the end of the stream has been seen. -/
structure Feeding (n : ℕ) where
  session : Session n
  isEos : Bool

namespace Feeding

variable {n : ℕ} [NeZero n] {s s' : Feeding n}

def init (n : ℕ) [NeZero n] (memory : Fin n → ℕ → UInt8) (file : Option File) : Feeding n where
  session := Session.init n memory file
  isEos := false

/-- The operation of the session; a pop drains exactly while the end has been seen. -/
def op (s : Feeding n) : FeedOp → Option Op
  | .push data => some (.push data)
  | .eos => none
  | .pop => some (.pop s.isEos)
  | .release k => some (.release k)
  | .seek offset => some (.seek offset)
  | .startRecording => some .startRecording
  | .migrate => some .migrate

/-- One step of the element. A push is refused while the end has been seen, and a seek
clears it. -/
def step (s : Feeding n) : FeedOp × Platform → Option (Feeding n)
  | (.eos, _) => some { s with isEos := true }
  | (.push data, p) =>
    if s.isEos then none
    else (s.session.step (.push data, p)).map fun session => { s with session := session }
  | (.seek offset, p) =>
    (s.session.step (.seek offset, p)).map fun session => { session := session, isEos := false }
  | (.pop, p) =>
    (s.session.step (.pop s.isEos, p)).map fun session => { s with session := session }
  | (.release k, p) =>
    (s.session.step (.release k, p)).map fun session => { s with session := session }
  | (.startRecording, p) =>
    (s.session.step (.startRecording, p)).map fun session => { s with session := session }
  | (.migrate, p) =>
    (s.session.step (.migrate, p)).map fun session => { s with session := session }

/-- The step does not tear the slot of a lagging tail out of the ring. -/
def noReuse (s : Feeding n) (l : FeedOp × Platform) : Prop :=
  ∀ op ∈ s.op l.1, Session.noReuse s.session (op, l.2)

/-- A step of the element is one of the session, or leaves it alone. -/
theorem step_session {l : FeedOp × Platform} (hs : s.step l = some s') :
    (s.op l.1 = none ∧ s'.session = s.session) ∨
      ∃ op, s.op l.1 = some op ∧ s.session.step (op, l.2) = some s'.session := by
  rcases l with ⟨op, p⟩
  cases op with
  | eos =>
      cases hs
      exact Or.inl ⟨rfl, rfl⟩
  | push data =>
      rw [step] at hs
      split at hs
      · cases hs
      · rcases Option.map_eq_some_iff.mp hs with ⟨session, hsession, rfl⟩
        exact Or.inr ⟨_, rfl, hsession⟩
  | _ =>
      rw [step] at hs
      rcases Option.map_eq_some_iff.mp hs with ⟨session, hsession, rfl⟩
      exact Or.inr ⟨_, rfl, hsession⟩

/-- In every run that never tears the slot of a lagging tail out of the ring, a seek to any
offset, made with no popped buffer outstanding, ends: each of its walks stops within `n`
steps. -/
theorem seek_ends {memory : Fin n → ℕ → UInt8} {file : Option File}
    (h : Reach step noReuse (init n memory file) s) (hlive : s.session.live = []) (o : ℕ)
    (p : Platform) : ∃ c, s.session.cache.seek o p = some c := by
  have hinv : Session.InPlace s.session ∧ LiveOk s.session.cache s.session.live := by
    refine h.invariant (P := fun s => Session.InPlace s.session ∧
      LiveOk s.session.cache s.session.live) ?_ ?_
    · exact ⟨.of_init memory file, Session.init_liveOk memory file⟩
    · rintro s l s' ⟨hplace, hlive⟩ hok hs
      rcases step_session hs with ⟨-, hsame⟩ | ⟨op, hop, hsession⟩
      · rw [hsame]
        exact ⟨hplace, hlive⟩
      · exact ⟨hplace.step hlive (hok op hop) hsession, Session.step_liveOk hlive hsession⟩
  rcases hinv with ⟨⟨L, T, off, hplaced⟩, hok⟩
  rw [hlive] at hok
  exact hplaced.seek_isSome (liveOk_nil.mp hok) o p

/-- The seek goes forward over two of three full slots. -/
theorem seek_ends_forward : ∃ s : Feeding 4,
    Reach step noReuse (init 4 (fun _ _ => 0) none) s ∧ s.session.cache.head = 0 ∧
      ∃ c, s.session.cache.seek (2 * cacheSlotSize + 7) .allOk = some c := by
  have h₀ : Reach step noReuse (init 4 (fun _ _ => 0) none) _ := .refl
  have hok : noReuse (init 4 (fun _ _ => 0) none)
      (.push ⟨3 * cacheSlotSize + 1, fun _ => 7⟩, .allOk) := by
    intro op hop
    cases hop
    exact fun _ htorn => nomatch htorn.1.2.1
  have h₁ := h₀.extend (.push ⟨3 * cacheSlotSize + 1, fun _ => 7⟩, .allOk) hok rfl
  exact ⟨_, h₁, rfl, seek_ends h₁ rfl _ .allOk⟩

/-- The second slot is drained when it has 100 bytes. After a seek back to the start, two
slots are filled behind these bytes, and a seek to one of them finds it nowhere. -/
theorem seek_walks_forever :
    ¬∀ (s : Feeding 2) (o : ℕ) (p : Platform),
      Reach step (fun _ _ => True) (init 2 (fun _ _ => 0) none) s → s.session.live = [] →
      ∃ c, s.session.cache.seek o p = some c := by
  intro hall
  have h₀ : Reach step (fun _ _ => True) (init 2 (fun _ _ => 0) none) _ := .refl
  have h₁ := h₀.extend (.push ⟨cacheSlotSize + 100, fun _ => 7⟩, .allOk) trivial rfl
  have h₂ := h₁.extend (.eos, .allOk) trivial rfl
  -- the draining pops take the first slot, and the second one with its 100 bytes
  have h₃ := h₂.extend (.pop, .allOk) trivial rfl
  have h₄ := h₃.extend (.pop, .allOk) trivial rfl
  have h₅ := h₄.extend (.release 0, .allOk) trivial rfl
  have h₆ := h₅.extend (.release 0, .allOk) trivial rfl
  -- the seek clears `is_eos`, so that more can be pushed
  have h₇ := h₆.extend (.seek 0, .allOk) trivial rfl
  have h₈ := h₇.extend (.push ⟨cacheSlotSize, fun _ => 7⟩, .allOk) trivial rfl
  have h₉ := h₈.extend (.pop, .allOk) trivial rfl
  have h₁₀ := h₉.extend (.release 0, .allOk) trivial rfl
  have h₁₁ := h₁₀.extend (.push ⟨cacheSlotSize, fun _ => 7⟩, .allOk) trivial rfl
  rcases hall _ (cacheSlotSize + 50) .allOk h₁₁ rfl with ⟨c, hc⟩
  cases hc

end Feeding

end TimeShift
