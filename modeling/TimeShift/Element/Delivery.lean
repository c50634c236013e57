import TimeShift.Cache.Drain
import TimeShift.Element.Sessions

/-!
# What downstream gets

Whatever goes downstream carries the bytes of the stream that it is labelled with, and until
downstream frees it, its slot keeps them. From one seek to the next, the buffers are
consecutive pieces of the stream (`handed_on_stream`). After a seek, the first one starts
at the offset of the seek or before it, as long as the cache still has the offset when it
comes to the seek (`first_sent_le`).

The conditions are those under which the reader of a cache stays in its place
(`Cache/Drain.lean`): a working file, no push into the slot of a lagging tail, no refill out
of step, and no seek from a slot that has been given back. What the cache is before, during
and after the recording does not matter.
-/

set_option linter.unusedSectionVars false

namespace TimeShift

open Bytes Machine Cache

/-- The buffer is not empty, and carries the bytes that it is labelled with. -/
structure Buffer.Labelled {n : ℕ} (b : Buffer n) (σ : List UInt8) : Prop where
  nonempty : b.offset < b.offsetEnd
  carries : b.Carries σ

namespace Buffer.Labelled

variable {n : ℕ} {b : Buffer n} {σ : List UInt8}

theorem append (h : b.Labelled σ) (τ : List UInt8) : b.Labelled (σ ++ τ) :=
  ⟨h.nonempty, h.carries.1, h.carries.2.append τ⟩

theorem lt_length (h : b.Labelled σ) : b.offset < σ.length := by
  have hsize : 0 < b.size := by
    have hend := h.carries.1
    have hlt := h.nonempty
    omega
  exact (List.getElem?_eq_some_iff.mp (h.carries.2 0 hsize)).1

end Buffer.Labelled

namespace Cache

variable {n : ℕ} [NeZero n]

/-- The call keeps the slots in order and the reader in its place. -/
def readsOn (c : Cache n) (l : Label) : Prop :=
  Session.recordStep (Session.ofCache c [] 0) l ∧ Session.keepsOrder (Session.ofCache c [] 0) l ∧
    Session.keepsReader (Session.ofCache c [] 0) l

/-- Moreover, a seek goes to an offset that the cache has. -/
def seeksWithin (c : Cache n) (l : Label) : Prop :=
  c.readsOn l ∧ ∀ o, l.1 = .seek o → c.hasOffset o = true

/-- A push to an open slot while nothing is recorded. -/
theorem readsOn_push {c : Cache n} {data : Block UInt8} (hrec : c.isRecording = false)
    (hopen : (c.slots c.tail).available = true) (hsize : data.size < 2 ^ 32) :
    c.readsOn (.push data, .allOk) := by
  have hdisk : c.isDiskUsable = false := by simp [isDiskUsable, hrec]
  refine ⟨Platform.allOk_filesOk, ⟨hsize, fun _ _ => Or.inl hopen, ?_⟩, ?_, ?_⟩
  · exact fun habs => absurd (hrec.symm.trans habs) Bool.false_ne_true
  · rintro - - ⟨-, hrecycle, -⟩
    have hrecycle : (c.slots c.tail).state = .recycle := hrecycle
    rw [Slot.available, hrecycle] at hopen
    cases hopen
  · exact fun habs => absurd (hdisk.symm.trans habs) Bool.false_ne_true

/-- A pop while nothing is recorded. -/
theorem readsOn_pop {c : Cache n} (hrec : c.isRecording = false) (drain : Bool) :
    c.readsOn (.pop drain, .allOk) := by
  refine ⟨Platform.allOk_filesOk, trivial, ?_⟩
  intro habs
  have hdisk : (c.isRecording && c.isRbMigrated) = true := habs
  rw [hrec] at hdisk
  cases hdisk

/-- Whether the file is to be removed does not matter. -/
theorem Unused.markRemove {c : Cache n} (h : c.Unused) (value : Bool) :
    (c.markRemove value).Unused :=
  ⟨h.empty, h.high, h.unread, h.uncopied, h.begun⟩

theorem slotStart_le (c : Cache n) (o : ℕ) : c.slotStart o ≤ o := by
  unfold slotStart
  split
  · rename_i i hfind
    have hfound := List.find?_some hfind
    rw [Bool.and_eq_true, Slot.contains, Bool.and_eq_true] at hfound
    have hle := hfound.2.1
    cases hoffset : (c.slots i).offset with
    | none =>
        rw [hoffset] at hle
        cases hle
    | some a =>
        rw [hoffset] at hle
        exact of_decide_eq_true hle
  · exact Nat.le_refl o

end Cache

namespace Session

variable {n : ℕ} [NeZero n] {s s₁ s' : Session n} {b : Bool} {l : Label}

theorem readsOn_iff : s.cache.readsOn l ↔ recordStep s l ∧ keepsOrder s l ∧ keepsReader s l := by
  rcases l with ⟨op, p⟩
  cases op <;> exact Iff.rfl

theorem readsOn_transfers : Transfers (readsOn (n := n)) := by
  constructor
  · rintro c ⟨op, p⟩ h
    cases op with
    | push data =>
        refine ⟨h.1, ⟨h.2.1.1, h.2.1.2.1, ?_⟩, h.2.2⟩
        exact fun hrec hm hempty =>
          (h.2.1.2.2 hrec hm hempty).imp_right fun hu => hu.markRemove true
    | _ => exact h
  · intro c k
    exact ⟨Platform.allOk_filesOk, trivial, trivial⟩

theorem seeksWithin_transfers : Transfers (seeksWithin (n := n)) := by
  constructor
  · intro c l h
    exact ⟨readsOn_transfers.mark c l h.1, h.2⟩
  · intro c k
    exact ⟨readsOn_transfers.free c k, fun _ habs => nomatch habs⟩

/-! ## One step -/

/-- A popped buffer is the piece of the stream at the reader's position. -/
theorem Reading.pop_buffer (h : Reading s b) {drain : Bool} {p : Platform} {c' : Cache n}
    {x : Buffer n} (hpop : s.cache.pop drain p = (c', some x)) :
    x.Labelled s.accepted ∧ x.offset = s.readPos := by
  rcases h.reader with ⟨L, R, T, off, hr⟩
  rcases s.cache.pop_cases drain p with ⟨c₁, hc₁, hcase⟩
  have hr₁ : ∃ T' off', Reader c₁ s.accepted s.readPos L R T' off' := by
    rw [hc₁]
    split
    · exact hr.promote h.recorded.recorder.length
    · exact ⟨T, off, hr⟩
  rcases hr₁ with ⟨T', off', hr₁⟩
  rcases hcase with ⟨-, heq⟩ | ⟨hfull, heq⟩
  · rw [heq] at hpop
    cases hpop
  · rw [heq] at hpop
    cases hpop
    rcases hr₁.window.head_buffer hfull with ⟨q, -, -, -, hstart, hend, hspan⟩
    rcases hr₁.take hfull with ⟨-, -, -, hreads⟩
    refine ⟨⟨?_, hr₁.stores.head_buffer hspan⟩, hreads.1⟩
    rw [hstart, hend]
    exact hspan.2.2

/-- An offset that the cache has is not moved up by the clamping of a seek. -/
theorem clamp_le {c : Cache n} {o : ℕ} (ho : c.hasOffset o = true) : c.clamp o ≤ o := by
  unfold hasOffset at ho
  unfold clamp
  split
  · rename_i hdisk
    rw [if_pos hdisk, Bool.and_eq_true] at ho
    have hlow : c.lDkOffset.val ≤ o := by
      cases hl : c.lDkOffset with
      | none =>
          rw [hl] at ho
          cases ho.1
      | some l =>
          rw [hl] at ho
          exact of_decide_eq_true ho.1
    refine Nat.max_le.mpr ⟨?_, hlow⟩
    split
    · exact Nat.le_refl o
    · exact Nat.min_le_left _ _
  · rename_i hdisk
    rw [if_neg hdisk, Bool.and_eq_true, decide_eq_true_eq] at ho
    exact Nat.max_le.mpr ⟨Nat.min_le_left _ _, ho.1⟩

/-- Nor does the seek put the reader behind it. -/
theorem Reading.seekPos_le (h : Reading s b) {o : ℕ} (ho : s.cache.hasOffset o = true) :
    s.cache.seekPos o s.readPos ≤ o := by
  have hclamp := clamp_le ho
  unfold seekPos
  dsimp only
  split
  · exact (s.cache.slotStart_le _).trans hclamp
  · rename_i hout
    split
    · exact hclamp
    · -- nothing happens, and the reader is still within the full slots
      rename_i hdisk
      rcases h.reader with ⟨L, R, T, off, hr⟩
      have hpos : s.readPos ≤ s.cache.hRbOffset := by
        rw [hr.pos, hr.window.high]
        exact hr.window.off_mono hr.fulls.lower hr.fulls.upper (Nat.le_refl T)
      have hlow : s.cache.lRbOffset ≤ o := by
        rw [hasOffset, if_neg hdisk, Bool.and_eq_true, decide_eq_true_eq] at ho
        exact ho.1
      rw [clamp, if_neg hdisk] at hout
      omega

/-- Every buffer that was popped is labelled with its bytes, and those that are out were
popped. -/
structure Delivering (s : Session n) (b : Bool) : Prop where
  reading : Reading s b
  labelled : ∀ x ∈ s.popped, x.Labelled s.accepted
  owned : ∀ x ∈ s.live, x ∈ s.popped

namespace Delivering

theorem of_init (memory : Fin n → ℕ → UInt8) (file : Option File) :
    Delivering (init n memory file) file.isSome :=
  ⟨.of_init memory file, fun _ hx => (nomatch hx), fun _ hx => (nomatch hx)⟩

/-- What a step adds to the stream and to the popped buffers. -/
theorem step_adds (h : Delivering s b) (hs : s.step l = some s') :
    ∃ τ bs, s'.accepted = s.accepted ++ τ ∧ s'.popped = s.popped ++ bs ∧
      (∀ x ∈ bs, x.Labelled s.accepted) ∧ (∀ x ∈ s'.live, x ∈ s.live ∨ x ∈ bs) ∧
      ((∀ o, l.1 ≠ .seek o) → Reads s.accepted s.readPos (bs.map Buffer.piece) s'.readPos) := by
  have hnil : ∀ x : List UInt8, x = x ++ [] := fun x => (List.append_nil x).symm
  have hnil' : ∀ x : List (Buffer n), x = x ++ [] := fun x => (List.append_nil x).symm
  rcases l with ⟨op, p⟩
  cases op with
  | push data =>
      rw [step_push hs]
      exact ⟨_, [], rfl, hnil' _, by simp, fun x hx => Or.inl hx, fun _ => rfl⟩
  | pop drain =>
      rw [step_pop hs]
      generalize hpop : s.cache.pop drain p = r
      rcases r with ⟨c', _ | x⟩
      · exact ⟨[], [], hnil _, hnil' _, by simp, fun x hx => Or.inl hx, fun _ => rfl⟩
      · rcases h.reading.pop_buffer hpop with ⟨hlabelled, hoffset⟩
        refine ⟨[], [x], hnil _, rfl, by simpa using hlabelled, ?_, fun _ => ?_⟩
        · intro y hy
          exact List.mem_append.mp hy
        · rw [← hoffset]
          exact hlabelled.carries.reads
  | release k =>
      rcases step_release hs with ⟨x, -, rfl⟩
      exact ⟨[], [], hnil _, hnil' _, by simp, fun y hy => Or.inl (List.mem_of_mem_eraseIdx hy),
        fun _ => rfl⟩
  | seek offset =>
      rcases step_seek hs with ⟨-, c, -, rfl⟩
      exact ⟨[], [], hnil _, hnil' _, by simp, fun x hx => Or.inl hx,
        fun habs => absurd rfl (habs offset)⟩
  | startRecording =>
      rw [step_startRecording hs]
      exact ⟨[], [], hnil _, hnil' _, by simp, fun x hx => Or.inl hx, fun _ => rfl⟩
  | migrate =>
      rw [step_migrate hs]
      exact ⟨[], [], hnil _, hnil' _, by simp, fun x hx => Or.inl hx, fun _ => rfl⟩
  | reload drain =>
      rw [step_reload hs]
      exact ⟨[], [], hnil _, hnil' _, by simp, fun x hx => Or.inl hx, fun _ => rfl⟩

theorem step (h : Delivering s b) (hok : s.cache.readsOn l) (hs : s.step l = some s') :
    Delivering s' b := by
  rcases h.step_adds hs with ⟨τ, bs, haccepted, hpopped, hlabelled, hlive, -⟩
  rcases readsOn_iff.mp hok with ⟨hrecord, horder, hreader⟩
  refine ⟨h.reading.step hrecord horder hreader hs, ?_, ?_⟩
  · intro x hx
    rw [hpopped] at hx
    rw [haccepted]
    rcases List.mem_append.mp hx with hx | hx
    · exact (h.labelled x hx).append τ
    · exact (hlabelled x hx).append τ
  · intro x hx
    rw [hpopped]
    rcases hlive x hx with hx | hx
    · exact List.mem_append_left _ (h.owned x hx)
    · exact List.mem_append_right _ hx

theorem of_reach {memory : Fin n → ℕ → UInt8} {file : Option File}
    (h : Reach Session.step (allowed readsOn) (init n memory file) s) :
    Delivering s file.isSome :=
  h.invariant (P := fun s => Delivering s file.isSome) (.of_init memory file)
    fun _ _ _ hinv hok hs => hinv.step hok hs

/-- Without a seek, the buffers popped are one piece of the stream. -/
theorem reads_since (h : Delivering s₁ b) (hs : Reach Session.step (staying readsOn) s₁ s) :
    Delivering s b ∧ ∃ bs, s.popped = s₁.popped ++ bs ∧
      Reads s.accepted s₁.readPos (bs.map Buffer.piece) s.readPos := by
  induction hs with
  | refl => exact ⟨h, [], (List.append_nil _).symm, rfl⟩
  | @tail s s' l _ hok hstep ih =>
      rcases ih with ⟨hdel, bs, hpopped, hreads⟩
      refine ⟨hdel.step (allowed_of_staying hok) hstep, ?_⟩
      have hstays : ∀ o, l.1 ≠ .seek o := by
        rcases l with ⟨op, p⟩
        rintro o rfl
        exact hok
      rcases hdel.step_adds hstep with ⟨τ, bs', haccepted, hpopped', -, -, hreads'⟩
      refine ⟨bs ++ bs', ?_, ?_⟩
      · rw [hpopped', hpopped, List.append_assoc]
      · rw [haccepted, List.map_append]
        exact (hreads.append τ).trans ((hreads' hstays).append τ)

end Delivering

end Session

/-! ## The element -/

namespace Feed

open FluTSBase Session

variable {n : ℕ} [NeZero n] {f : Feed n} {ok : Cache n → Label → Prop} {F : Option File → Prop}

/-- What the session of the element has delivered. -/
theorem delivering (h : Reach step (orderly ok F) (init n) f) (hok : Transfers ok)
    (hreads : ∀ c l, ok c l → c.readsOn l) {c : Cache n} (hc : f.element.cache = some c) :
    ∃ (memory : Fin n → ℕ → UInt8) (file : Option File) (s₁ s : Session n), F file ∧
      Serves ok memory file s₁ s f c ∧
      Delivering s file.isSome ∧
      Reads s.accepted s₁.readPos (f.sent.map Buffer.piece) s.readPos := by
  rcases RunsSession.of_reach hok h c hc with ⟨memory, file, s₁, s, hfile, hserves⟩
  have hdel₁ := Delivering.of_reach (hserves.begun.imp fun _ _ => hreads _ _)
  have hsince : Reach Session.step (staying readsOn) s₁ s := by
    refine hserves.since.imp ?_
    rintro s ⟨op, p⟩ hl
    cases op with
    | seek offset => exact hl
    | _ => exact hreads _ _ hl
  rcases hdel₁.reads_since hsince with ⟨hdel, bs, hpopped, hreads⟩
  have hsent : bs = f.sent := List.append_cancel_left (hpopped.symm.trans hserves.sent)
  exact ⟨memory, file, s₁, s, hfile, hserves, hdel, hsent ▸ hreads⟩

/-- After a seek, the first buffer starts at its offset or before it. -/
theorem first_sent_le (h : Reach step (orderly seeksWithin F) (init n) f) {c : Cache n}
    (hc : f.element.cache = some c) {o : ℕ} (ho : f.sought = some o) {b : Buffer n}
    (hb : f.sent.head? = some b) : b.offset ≤ o := by
  rcases delivering h seeksWithin_transfers (fun _ _ hl => hl.1) hc with
    ⟨memory, file, s₁, s, -, hserves, -, hreads⟩
  have hturned := hserves.turned
  rw [turn_of_sought ho] at hturned
  rcases hturned with ⟨s₀, p, hs₀, hok, hstep⟩
  have hreading := (Delivering.of_reach (hs₀.imp fun _ _ hl => hl.1)).reading
  rcases Session.step_seek hstep with ⟨-, c', -, rfl⟩
  have hle := hreading.seekPos_le (hok.2 o rfl)
  rcases List.head?_eq_some_iff.mp hb with ⟨rest, hsent⟩
  rw [hsent, List.map_cons] at hreads
  exact Nat.le_trans (Nat.le_of_eq hreads.1) hle

/-- In every run in which the pushes of STREAM_START and SEGMENT events succeed, downstream
has freed its buffers when a seek goes on, and the calls of the cache keep its slots in
order and its reader in place, since a cache was made:

* every buffer that went downstream is not empty and carries the bytes of the accepted
  stream that it is labelled with, and those that went since the last seek, or since
  downstream has last answered with an EOS, follow on each other;
* the slot of a buffer that downstream still has is as it was when the buffer was popped;
* with a backing file, all bytes that were pushed have been accepted. -/
theorem handed_on_stream (h : Reach step (orderly readsOn F) (init n) f) {c : Cache n}
    (hc : f.element.cache = some c) :
    (∀ b ∈ f.handed, b.Labelled f.accepted) ∧
      (∃ first last, Reads f.accepted first (f.sent.map Buffer.piece) last) ∧
      (∀ b ∈ f.element.live, b.Labelled f.accepted ∧ b.Wraps c) ∧
      ((∀ file, F file → file.isSome = true) → f.accepted = f.pushed) := by
  rcases delivering h readsOn_transfers (fun _ _ hl => hl) hc with
    ⟨_, file, s₁, s, hfile, hserves, hdel, hreads⟩
  have haccepted := hserves.accepted
  rw [← haccepted]
  refine ⟨?_, ⟨_, _, hreads⟩, ?_, ?_⟩
  · intro b hb
    exact hdel.labelled b (hserves.handed.subset hb)
  · intro b hb
    rw [← hserves.has.live] at hb
    have hwraps := hdel.reading.recorded.live.intact b hb
    rw [hserves.has.cache] at hwraps
    exact ⟨hdel.labelled b (hdel.owned b hb), hwraps⟩
  · intro hsome
    rw [← hserves.pushed]
    exact hdel.reading.recorded.stream (hsome file hfile)

/-- Two buffers, the first of which downstream has freed. -/
theorem handed_on_stream_two : ∃ (f : Feed 2) (c : Cache 2),
    Reach step (orderly readsOn fun file => file.isSome = true) (init 2) f ∧
      f.element.cache = some c ∧ f.sent.length = 2 ∧ f.element.live.length = 1 ∧
      (∀ b ∈ f.handed, b.Labelled f.accepted) ∧
      (∃ first last, Reads f.accepted first (f.sent.map Buffer.piece) last) ∧
      (∀ b ∈ f.element.live, b.Labelled f.accepted ∧ b.Wraps c) ∧ f.accepted = f.pushed := by
  have h₀ : Reach step (orderly readsOn fun file => file.isSome = true) (init 2) _ := .refl
  have h₁ := h₀.extend (.readyToPaused (fun _ _ => 0) (some .new)) rfl rfl
  have h₂ := h₁.extend (.srcActivate true) trivial rfl
  have h₃ := h₂.extend (.sinkActivate true) trivial rfl
  have h₄ := h₃.extend (.chain ⟨2 * cacheSlotSize, fun _ => 7⟩ .allOk)
    (by rintro c ⟨⟩ -; exact readsOn_push rfl rfl (by decide)) rfl
  have h₅ := h₄.extend (.loop .allOk)
    ⟨⟨Or.inl rfl, Or.inr rfl⟩, by rintro c ⟨⟩ -; exact readsOn_pop rfl false⟩ rfl
  have h₆ := h₅.extend (.pushed .ok fun _ => .allOk) (fun _ _ _ habs => nomatch habs) rfl
  have h₇ := h₆.extend (.loop .allOk)
    ⟨⟨Or.inl rfl, Or.inl rfl⟩, by rintro c ⟨⟩ -; exact readsOn_pop rfl false⟩ rfl
  have h₈ := h₇.extend (.free 0) trivial rfl
  rcases handed_on_stream h₈ rfl with ⟨hlabelled, hreads, hlive, hall⟩
  exact ⟨_, _, h₈, rfl, rfl, rfl, hlabelled, hreads, hlive, hall fun _ hfile => hfile⟩

end Feed

end TimeShift
