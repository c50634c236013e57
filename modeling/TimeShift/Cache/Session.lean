import TimeShift.Lib.Machine
import TimeShift.Cache.Basic

/-!
# Sessions of a cache

A session is a cache together with what its callers hold and have seen: the
popped buffers that downstream still owns, the bytes pushed so far, the bytes
the cache took of them, the buffers popped so far and the position the reader
is at. Only `cache` and `live` influence a step; the rest is history that the
properties speak about.

A step is an operation with the platform's answers to its calls. A seek is
made with no popped buffer outstanding, as `gst_flutsbase_handle_seek` arranges
by flushing downstream first.
-/

namespace TimeShift

open Bytes Machine

/-- The operations on a cache. `release k` drops the `k`-th live buffer;
`migrate` schedules the migration thread for one round. -/
inductive Op where
  | push (data : Block UInt8)
  | pop (drain : Bool)
  | release (k : ℕ)
  | seek (offset : ℕ)
  | startRecording
  | migrate
  | reload (drain : Bool)

/-- The bytes that an operation pushes. -/
def Op.bytes : Op → List UInt8
  | .push data => data.toList
  | _ => []

/-- An operation with the answers of the platform. -/
abbrev Label := Op × Platform

/-- A cache and the history of its use. -/
structure Session (n : ℕ) where
  cache : Cache n
  live : List (Buffer n)
  pushed : List UInt8
  accepted : List UInt8
  popped : List (Buffer n)
  readPos : ℕ

namespace Cache

variable {n : ℕ} [NeZero n]

/-- The first byte of the slot that holds stream position `offset`. -/
def slotStart (c : Cache n) (offset : ℕ) : ℕ :=
  match (List.finRange n).find? fun i =>
      decide (c.slots i).Complete && (c.slots i).contains offset with
  | some i => (c.slots i).offset.val
  | none => offset

/-- Where a seek to `offset` puts a reader that stands at `pos`: at the start of
the slot that holds the clamped offset, else at its place on the disk. -/
def seekPos (c : Cache n) (offset pos : ℕ) : ℕ :=
  let target := c.clamp offset
  if c.lRbOffset ≤ target ∧ target < c.hRbOffset then c.slotStart target
  else if c.isDiskUsable then target
  else pos

end Cache

namespace Session

variable {n : ℕ} [NeZero n]

/-- A session that begins with cache `c` and the stream `σ` received so far. -/
def ofCache (c : Cache n) (σ : List UInt8) (pos : ℕ) : Session n where
  cache := c
  live := []
  pushed := σ
  accepted := σ
  popped := []
  readPos := pos

/-- A session on a new cache. -/
def init (n : ℕ) [NeZero n] (memory : Fin n → ℕ → UInt8) (file : Option File) : Session n :=
  ofCache (Cache.new n memory file) [] 0

/-- The session after a pop that returned `r`. -/
def afterPop (s : Session n) : Cache n × Option (Buffer n) → Session n
  | (c, none) => { s with cache := c }
  | (c, some b) =>
    { s with
      cache := c
      live := s.live ++ [b]
      popped := s.popped ++ [b]
      readPos := b.offsetEnd }

/-- One step of a session. -/
def step (s : Session n) : Label → Option (Session n)
  | (.push data, p) =>
    let c := s.cache.push data p
    some { s with
      cache := c
      pushed := s.pushed ++ data.toList
      -- the cache counts what it has taken in `h_offset`
      accepted := s.accepted ++ data.toList.take (c.hOffset - s.cache.hOffset) }
  | (.pop drain, p) => some (s.afterPop (s.cache.pop drain p))
  | (.release k, _) =>
    match s.live[k]? with
    -- there is no such buffer to free
    | none => none
    | some b =>
      some { s with cache := s.cache.release b.slot, live := s.live.eraseIdx k }
  | (.seek offset, p) =>
    if s.live.isEmpty then
      match s.cache.seek offset p with
      | none => none
      | some c => some { s with cache := c, readPos := s.cache.seekPos offset s.readPos }
    else none
  | (.startRecording, p) => some { s with cache := (s.cache.startRecording p).1 }
  | (.migrate, p) => some { s with cache := s.cache.migrationThread p }
  | (.reload drain, p) => some { s with cache := s.cache.reload drain p }

/-! ## What a step has done -/

section Inversion

variable {s s' : Session n} {p : Platform}

theorem step_push {data : Block UInt8} (h : s.step (.push data, p) = some s') :
    s' = { s with
      cache := s.cache.push data p
      pushed := s.pushed ++ data.toList
      accepted := s.accepted ++
        data.toList.take ((s.cache.push data p).hOffset - s.cache.hOffset) } :=
  (Option.some.inj h).symm

theorem step_pop {drain : Bool} (h : s.step (.pop drain, p) = some s') :
    s' = s.afterPop (s.cache.pop drain p) :=
  (Option.some.inj h).symm

/-- A buffer is freed by somebody who has one. -/
theorem step_release {k : ℕ} (h : s.step (.release k, p) = some s') :
    ∃ b, s.live[k]? = some b ∧
      s' = { s with cache := s.cache.release b.slot, live := s.live.eraseIdx k } := by
  simp only [step] at h
  split at h
  · cases h
  · rename_i b hb
    exact ⟨b, hb, (Option.some.inj h).symm⟩

/-- Nobody has a buffer when a seek is made. -/
theorem step_seek {offset : ℕ} (h : s.step (.seek offset, p) = some s') :
    s.live = [] ∧ ∃ c, s.cache.seek offset p = some c ∧
      s' = { s with cache := c, readPos := s.cache.seekPos offset s.readPos } := by
  simp only [step] at h
  split at h
  · rename_i hlive
    split at h
    · cases h
    · rename_i c hc
      exact ⟨List.isEmpty_iff.mp hlive, c, hc, (Option.some.inj h).symm⟩
  · cases h

theorem step_startRecording (h : s.step (.startRecording, p) = some s') :
    s' = { s with cache := (s.cache.startRecording p).1 } :=
  (Option.some.inj h).symm

theorem step_migrate (h : s.step (.migrate, p) = some s') :
    s' = { s with cache := s.cache.migrationThread p } :=
  (Option.some.inj h).symm

theorem step_reload {drain : Bool} (h : s.step (.reload drain, p) = some s') :
    s' = { s with cache := s.cache.reload drain p } :=
  (Option.some.inj h).symm

section AfterPop

omit [NeZero n]

variable (s : Session n) (r : Cache n × Option (Buffer n))

@[simp] theorem afterPop_cache : (s.afterPop r).cache = r.1 := by
  rcases r with ⟨c, _ | b⟩ <;> rfl

@[simp] theorem afterPop_pushed : (s.afterPop r).pushed = s.pushed := by
  rcases r with ⟨c, _ | b⟩ <;> rfl

@[simp] theorem afterPop_accepted : (s.afterPop r).accepted = s.accepted := by
  rcases r with ⟨c, _ | b⟩ <;> rfl

/-- The buffer that was found, if any, is the last one. -/
@[simp] theorem afterPop_popped : (s.afterPop r).popped = s.popped ++ r.2.toList := by
  rcases r with ⟨c, _ | b⟩
  · exact (List.append_nil _).symm
  · rfl

@[simp] theorem afterPop_live : (s.afterPop r).live = s.live ++ r.2.toList := by
  rcases r with ⟨c, _ | b⟩
  · exact (List.append_nil _).symm
  · rfl

end AfterPop

omit [NeZero n] in
/-- What holds of the first buffer popped since `popped` holds of the one that a
run finds there. -/
theorem first_popped {popped bs : List (Buffer n)} {b : Buffer n} {Q : Buffer n → Prop}
    (h : s.popped = popped ∨ ∃ b bs, s.popped = popped ++ b :: bs ∧ Q b)
    (hb : s.popped = popped ++ b :: bs) : Q b := by
  rcases h with hsame | ⟨b', bs', hfirst, hQ⟩
  · rw [hsame] at hb
    simp at hb
  · rw [hfirst, List.append_cancel_left_eq, List.cons.injEq] at hb
    rw [← hb.1]
    exact hQ

/-- Only a push adds to what has been pushed. -/
theorem step_pushed {l : Label} (h : s.step l = some s') :
    s'.pushed = s.pushed ++ l.1.bytes := by
  obtain ⟨op, p⟩ := l
  cases op with
  | push data => rw [step_push h, Op.bytes]
  | pop drain => simp [step_pop h, Op.bytes]
  | release k =>
      obtain ⟨b, -, rfl⟩ := step_release h
      simp [Op.bytes]
  | seek offset =>
      obtain ⟨-, c, -, rfl⟩ := step_seek h
      simp [Op.bytes]
  | startRecording => simp [step_startRecording h, Op.bytes]
  | migrate => simp [step_migrate h, Op.bytes]
  | reload drain => simp [step_reload h, Op.bytes]

/-- A step while the first buffer popped since `popped` is awaited: the cache is as `W`
says until it comes, and the buffer as `Q` says. -/
theorem first_step {popped : List (Buffer n)} {W : Cache n → Prop} {Q : Buffer n → Prop}
    (h : (s.popped = popped ∧ s.live = [] ∧ W s.cache) ∨
      ∃ b bs, s.popped = popped ++ b :: bs ∧ Q b)
    {l : Label} (hs : s.step l = some s') (hseek : ∀ offset, l.1 ≠ .seek offset)
    (hpop : ∀ drain, W s.cache →
      ((s.cache.pop drain l.2).2 = none ∧ W (s.cache.pop drain l.2).1) ∨
        ∃ b, (s.cache.pop drain l.2).2 = some b ∧ Q b)
    (hother : (∀ drain, l.1 ≠ .pop drain) → (∀ k, l.1 ≠ .release k) → W s.cache → W s'.cache) :
    (s'.popped = popped ∧ s'.live = [] ∧ W s'.cache) ∨
      ∃ b bs, s'.popped = popped ++ b :: bs ∧ Q b := by
  rcases l with ⟨op, p⟩
  -- what is no pop, release or seek leaves the history as it is
  have hkeep : s'.popped = s.popped → s'.live = s.live → (∀ drain, op ≠ .pop drain) →
      (∀ k, op ≠ .release k) → (s'.popped = popped ∧ s'.live = [] ∧ W s'.cache) ∨
        ∃ b bs, s'.popped = popped ++ b :: bs ∧ Q b := by
    intro hpopped hlive hop hrel
    rw [hpopped, hlive]
    exact h.imp_left fun hbefore => ⟨hbefore.1, hbefore.2.1, hother hop hrel hbefore.2.2⟩
  cases op with
  | push data =>
      rw [step_push hs] at hkeep ⊢
      exact hkeep rfl rfl (by simp) (by simp)
  | pop drain =>
      rw [step_pop hs]
      rcases h with ⟨hpopped, hlive, hW⟩ | ⟨b, bs, hpopped, hb⟩
      · rcases hpop drain hW with ⟨hnone, hW'⟩ | ⟨b, hsome, hb⟩
        · left
          refine ⟨?_, ?_, ?_⟩
          · rw [afterPop_popped, hnone, hpopped]
            exact List.append_nil _
          · rw [afterPop_live, hnone, hlive]
            rfl
          · rw [afterPop_cache]
            exact hW'
        · right
          rw [afterPop_popped, hsome, hpopped]
          exact ⟨b, [], rfl, hb⟩
      · -- the first one is there already
        right
        rw [afterPop_popped, hpopped, List.append_assoc]
        exact ⟨b, _, rfl, hb⟩
  | release k =>
      rcases step_release hs with ⟨b, hb, rfl⟩
      rcases h with ⟨-, hlive, -⟩ | h
      · -- nothing has been popped that could be released
        rw [hlive] at hb
        cases hb
      · exact Or.inr h
  | seek offset => exact absurd rfl (hseek offset)
  | startRecording =>
      rw [step_startRecording hs] at hkeep ⊢
      exact hkeep rfl rfl (by simp) (by simp)
  | migrate =>
      rw [step_migrate hs] at hkeep ⊢
      exact hkeep rfl rfl (by simp) (by simp)
  | reload drain =>
      rw [step_reload hs] at hkeep ⊢
      exact hkeep rfl rfl (by simp) (by simp)

/-- The bytes that an execution pushes, in order. -/
theorem run_pushed {ls : List Label} (h : run step s ls = some s') :
    s'.pushed = s.pushed ++ ls.flatMap (fun l => l.1.bytes) := by
  induction ls generalizing s with
  | nil =>
      simp only [run, Option.some.injEq] at h
      rw [h, List.flatMap_nil, List.append_nil]
  | cons l ls ih =>
      simp only [run, Option.bind_eq_some_iff] at h
      obtain ⟨s₁, hs₁, hrest⟩ := h
      rw [ih hrest, step_pushed hs₁, List.flatMap_cons, List.append_assoc]

end Inversion

end Session

end TimeShift
