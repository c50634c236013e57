import TimeShift.Lib.Refinement
import TimeShift.Element.Query

/-!
# How the loop waits

While the cache is empty and the end of the stream has not come, the loop waits on the
condition variable `buffer_add`, without the flow lock. Whoever gives it something to do
signals it; a signal that comes while the loop does not wait is lost, and `g_cond_wait`
may also return by itself.

* `no_lost_wakeup`: a loop that waits although there is something to do has been
  signalled, and does not wait again when it wakes up;
* `waiting_refines`: the element with waits of this kind does nothing that it does not do
  in `Element/Basic.lean`, where an iteration without data simply does not start.

What joins the loop, or takes its stream lock, does not go on while it waits: the rest of
a seek and the end of the element. The pads are activated and deactivated one after the
other, the source pad first.
-/

set_option linter.unusedSectionVars false

namespace TimeShift

open Bytes Machine Cache

/-- The element, and whether its loop waits. -/
structure Sleeper (n : ℕ) where
  element : FluTSBase n
  asleep : Bool
  /-- `buffer_add` has been signalled since the loop has begun to wait. -/
  signalled : Bool

/-- The steps of the threads, the call of `g_cond_wait` and its return. -/
inductive SleeperOp (n : ℕ) where
  | op (l : ElementOp n)
  | sleep
  | wake (calls : PopCalls)

namespace FluTSBase

variable {n : ℕ} [NeZero n] {s s' : FluTSBase n}

/-- The step signals `buffer_add`. -/
def signals (s : FluTSBase n) : ElementOp n → Bool
  | .chain _ _ => s.cache.isSome && s.Accepts
  | .sinkEvent .eos | .sinkEvent .flushStart => true
  | .seek e => s.cache.any fun c => (seekOffset c e).isSome
  | .srcActivate active => !active
  | _ => false

/-- The steps that do not come while the loop waits: its own, and those that wait for its
iteration to end. -/
def needsLoop : ElementOp n → Bool
  | .loop _ | .resumeSeek _ | .pausedToReady => true
  | _ => false

/-- There is nothing to do for the loop. -/
def NothingToDo (s : FluTSBase n) : Prop :=
  s.srcresult = .ok ∧ ∃ c, s.cache = some c ∧ s.waits c = true

theorem NothingToDo.congr (h : s.NothingToDo) (hres : s'.srcresult = s.srcresult)
    (heos : s'.isEos = s.isEos) {c c' : Cache n} (hc : s.cache = some c)
    (hc' : s'.cache = some c') (hslots : c'.fslots = c.fslots) : s'.NothingToDo := by
  rcases h with ⟨hok, c₁, hc₁, hwaits⟩
  cases hc.symm.trans hc₁
  refine ⟨hres.trans hok, c', hc', ?_⟩
  unfold waits isEmpty at hwaits ⊢
  rw [hslots, heos]
  exact hwaits

/-- Whoever gives the loop something to do signals it. -/
theorem NothingToDo.step (h : s.NothingToDo) {l : ElementOp n} (hs : s.step l = some s')
    (hquiet : s.signals l = false) (hloop : needsLoop l = false) (hpush : s.pushing = false)
    (hsink : l ≠ .sinkActivate false) : s'.NothingToDo := by
  rcases h with ⟨hok, c, hc, hwaits⟩
  have hidle : s.NothingToDo := ⟨hok, c, hc, hwaits⟩
  have hempty : ∀ (memory : Fin n → ℕ → UInt8) (file : Option File) (value : Bool),
      isEmpty { Cache.new n memory file with autoremove := value } = true :=
    fun _ _ _ => rfl
  have heos : s.isEos = false := by
    unfold waits at hwaits
    rw [Bool.and_eq_true, Bool.not_eq_true'] at hwaits
    exact hwaits.2
  cases step_case hs with
  | readyToPaused memory file =>
      refine ⟨hok, _, rfl, ?_⟩
      show (isEmpty _ && !s.isEos) = true
      rw [hempty, heos]
      rfl
  | pausedToReady => cases hloop
  | sinkActivate active =>
      cases active with
      | true =>
          refine ⟨rfl, c, hc, ?_⟩
          unfold waits at hwaits ⊢
          rw [heos] at hwaits
          exact hwaits
      | false => exact absurd rfl hsink
  | srcActivate active =>
      cases active with
      | true =>
          refine ⟨rfl, c, hc, ?_⟩
          unfold waits at hwaits ⊢
          rw [heos] at hwaits
          exact hwaits
      | false => cases hquiet
  | setRecordingRemove value =>
      have hcache : s.cache.map (fun c => { c with autoremove := value }) =
          some { c with autoremove := value } := by
        rw [hc]
        rfl
      exact hidle.congr rfl rfl hc hcache rfl
  | chainRefused data p => exact hidle
  | chain data p c₁ posted started hc₁ =>
      have hrefused : ¬s.Accepts := by simpa [signals, hc₁] using hquiet
      rw [chain_refused hs hrefused]
      exact hidle
  | sinkEvent e =>
      cases e with
      | eos => cases hquiet
      | flushStart => cases hquiet
      | segment => exact hidle
      | flushStop memory file => exact ⟨rfl, _, rfl, rfl⟩
      | streamStart id => exact hidle
      | other => exact hidle
  | startRecording p c₁ hc₁ =>
      exact hidle.congr rfl rfl hc₁ rfl (c₁.startRecording_sameRing p).fslots
  | seekRefused e => exact hidle
  | seek e c₁ offset hc₁ hoffset =>
      simp [signals, hc₁, hoffset] at hquiet
  | resumeSeek p c₁ c' offset hc₁ hoffset hc' => cases hloop
  | loopFlushing calls => cases hloop
  | loopPushing calls c₁ t hc₁ _ hpop => cases hloop
  | loopEnded calls c₁ t ret hc₁ hpop => cases hloop
  | pushed ret ret' p =>
      rw [FluTSBase.step, hpush] at hs
      cases hs
  | dropped ret p c₁ c' bs hc₁ hdrop =>
      rw [FluTSBase.step, hpush] at hs
      cases hs
  | free k c₁ b hc₁ hb => exact hidle.congr rfl rfl hc₁ rfl rfl
  | migrate p c₁ hc₁ => exact hidle.congr rfl rfl hc₁ rfl (c₁.migrationThread_sameRing p).fslots

/-- What holds of the element while its loop waits: it has a cache, no buffer is on its way,
and only a flush has paused the task. -/
structure Parked (s : FluTSBase n) : Prop where
  cached : s.cache.isSome = true
  quiet : s.pushing = false
  paused : s.taskStarted = true ∨ s.srcresult = .flushing

namespace Parked

/-- Neither the threads nor the cache are touched. -/
theorem congr (h : s.Parked) (hcache : s'.cache.isSome = true) (hpush : s'.pushing = s.pushing)
    (htask : s'.taskStarted = s.taskStarted) (hres : s'.srcresult = s.srcresult) : s'.Parked := by
  refine ⟨hcache, hpush.trans h.quiet, ?_⟩
  rw [htask, hres]
  exact h.paused

theorem step (h : s.Parked) {l : ElementOp n} (hs : s.step l = some s')
    (hloop : needsLoop l = false) (hsink : l = .sinkActivate true → s.taskStarted = true) :
    s'.Parked := by
  cases step_case hs with
  | readyToPaused memory file => exact h.congr rfl rfl rfl rfl
  | pausedToReady => cases hloop
  | sinkActivate active =>
      cases active with
      | true => exact ⟨h.cached, h.quiet, Or.inl (hsink rfl)⟩
      | false => exact ⟨h.cached, h.quiet, Or.inr rfl⟩
  | srcActivate active =>
      cases active with
      | true => exact ⟨h.cached, h.quiet, Or.inl rfl⟩
      | false => exact ⟨h.cached, h.quiet, Or.inr rfl⟩
  | setRecordingRemove value =>
      refine h.congr ?_ rfl rfl rfl
      show (s.cache.map _).isSome = true
      rw [Option.isSome_map]
      exact h.cached
  | chainRefused data p => exact h
  | chain data p c posted started hc => exact h.congr rfl rfl rfl rfl
  | sinkEvent e =>
      cases e with
      | flushStop memory file => exact ⟨rfl, h.quiet, Or.inl rfl⟩
      | flushStart => exact ⟨h.cached, h.quiet, Or.inr rfl⟩
      | eos => exact h.congr h.cached rfl rfl rfl
      | segment => exact h.congr h.cached rfl rfl rfl
      | streamStart id => exact h.congr h.cached rfl rfl rfl
      | other => exact h
  | startRecording p c hc => exact h.congr rfl rfl rfl rfl
  | seekRefused e => exact h
  | seek e c offset hc hoffset => exact ⟨h.cached, h.quiet, Or.inr rfl⟩
  | resumeSeek p c c' offset hc hoffset hc' => cases hloop
  | loopFlushing calls => cases hloop
  | loopPushing calls c t hc _ hpop => cases hloop
  | loopEnded calls c t ret hc hpop => cases hloop
  | pushed ret ret' p =>
      rw [FluTSBase.step, h.quiet] at hs
      cases hs
  | dropped ret p c c' bs hc hdrop =>
      rw [FluTSBase.step, h.quiet] at hs
      cases hs
  | free k c b hc hb => exact h.congr rfl rfl rfl rfl
  | migrate p c hc => exact h.congr rfl rfl rfl rfl

end Parked

theorem loop_eq_none_iff {c : Cache n} (hc : s.cache = some c) (calls : PopCalls) :
    s.loop c calls = none ↔ s.NothingToDo := by
  unfold loop
  constructor
  · intro h
    split at h
    · cases h
    · rename_i hres
      split at h
      · rename_i hwaits
        exact ⟨not_not.mp hres, c, hc, hwaits⟩
      · split at h
        · cases h
        · cases h
  · rintro ⟨hok, c', hc', hwaits⟩
    cases hc.symm.trans hc'
    rw [if_neg (not_not.mpr hok), if_pos hwaits]

/-- An iteration that a flush has ended, and whose task has been paused, changes nothing. -/
theorem loop_paused (hres : s.srcresult = .flushing) (htask : s.taskStarted = false)
    {c : Cache n} {calls : PopCalls} : s.loop c calls = some s := by
  rcases s with ⟨_, _, _, _, _, _, _, _, _, _, _, _, _, _, _, _, _, _, _, _, _⟩
  cases hres
  cases htask
  simp [loop, finish, FlowReturn.code]

end FluTSBase

namespace Sleeper

open FluTSBase

variable {n : ℕ} [NeZero n] {s s' : Sleeper n}

def init (n : ℕ) : Sleeper n := ⟨FluTSBase.init n, false, false⟩

/-- One step; `none` when it cannot be made. The loop that wakes up goes on as it does
when it begins, and may wait again. -/
def step (s : Sleeper n) : SleeperOp n → Option (Sleeper n)
  | .op l =>
    if s.asleep && needsLoop l then none
    else (s.element.step l).map fun e =>
      { s with element := e, signalled := s.signalled || (s.asleep && s.element.signals l) }
  | .sleep =>
    if s.asleep || !s.element.taskStarted || s.element.pushing then none
    else s.element.cache.bind fun c =>
      if s.element.srcresult = .ok ∧ s.element.waits c = true then
        some { s with asleep := true, signalled := false }
      else none
  | .wake calls =>
    if !s.asleep then none
    else s.element.cache.map fun c =>
      match s.element.loop c calls with
      | none => { s with signalled := false }
      | some e => { element := e, asleep := false, signalled := false }

/-- The pads are activated and deactivated in their order: before the sink pad, the source
pad is, and its deactivation waits for the loop to end. -/
def sourceFirst (s : Sleeper n) : SleeperOp n → Prop
  | .op (.sinkActivate false) => s.asleep = false
  | .op (.sinkActivate true) => s.asleep = true → s.element.taskStarted = true
  | _ => True

theorem step_op {l : ElementOp n} (h : s.step (.op l) = some s') :
    (s.asleep = true → needsLoop l = false) ∧ s.element.step l = some s'.element ∧
      s'.asleep = s.asleep ∧
      s'.signalled = (s.signalled || (s.asleep && s.element.signals l)) := by
  unfold step at h
  dsimp only at h
  split at h
  · cases h
  · rename_i hneeds
    rcases Option.map_eq_some_iff.mp h with ⟨e, he, rfl⟩
    refine ⟨?_, he, rfl, rfl⟩
    intro hasleep
    simpa [hasleep] using hneeds

theorem step_sleep (h : s.step .sleep = some s') :
    s.element.NothingToDo ∧ s.element.taskStarted = true ∧ s.element.pushing = false ∧
      s' = { s with asleep := true, signalled := false } := by
  unfold step at h
  dsimp only at h
  split at h
  · cases h
  · rename_i hguard
    simp only [Bool.or_eq_true, Bool.not_eq_true', not_or, Bool.not_eq_true,
      Bool.not_eq_false] at hguard
    rcases Option.bind_eq_some_iff.mp h with ⟨c, hc, h⟩
    split at h
    · rename_i hwaits
      cases h
      exact ⟨⟨hwaits.1, c, hc, hwaits.2⟩, hguard.1.2, hguard.2, rfl⟩
    · cases h

theorem step_wake {calls : PopCalls} (h : s.step (.wake calls) = some s') :
    s.asleep = true ∧ ∃ c, s.element.cache = some c ∧
      ((s.element.loop c calls = none ∧ s' = { s with signalled := false }) ∨
        ∃ e, s.element.loop c calls = some e ∧ s' = ⟨e, false, false⟩) := by
  unfold step at h
  dsimp only at h
  split at h
  · cases h
  · rename_i hasleep
    rcases Option.map_eq_some_iff.mp h with ⟨c, hc, rfl⟩
    refine ⟨by simpa using hasleep, c, hc, ?_⟩
    cases hloop : s.element.loop c calls with
    | none => exact Or.inl ⟨rfl, rfl⟩
    | some e => exact Or.inr ⟨e, rfl, rfl⟩

/-- A loop that waits has been signalled when there is something to do. -/
structure Attentive (s : Sleeper n) : Prop where
  idle : s.asleep = true → s.signalled = false → s.element.NothingToDo
  parked : s.asleep = true → s.element.Parked

namespace Attentive

theorem of_awake (h : s.asleep = false) : s.Attentive := by
  constructor <;>
  · intro habs
    rw [h] at habs
    cases habs

theorem op (h : s.Attentive) {l : ElementOp n} (hok : sourceFirst s (.op l))
    (hs : s.step (.op l) = some s') : s'.Attentive := by
  rcases step_op hs with ⟨hneeds, he, hasleep, hsignalled⟩
  by_cases hawake : s.asleep = false
  · exact .of_awake (hasleep.trans hawake)
  -- the loop waits, and does so afterwards
  have hasleep₀ : s.asleep = true := by simpa using hawake
  have hneeds := hneeds hasleep₀
  have hparked := h.parked hasleep₀
  have hsink : l ≠ .sinkActivate false := by
    rintro rfl
    exact hawake hok
  rw [hasleep₀, Bool.true_and] at hsignalled
  constructor
  · intro _ hunsignalled
    rw [hsignalled, Bool.or_eq_false_iff] at hunsignalled
    exact (h.idle hasleep₀ hunsignalled.1).step he hunsignalled.2 hneeds hparked.quiet hsink
  · intro _
    refine hparked.step he hneeds ?_
    rintro rfl
    exact hok hasleep₀

theorem step (h : s.Attentive) {l : SleeperOp n} (hok : sourceFirst s l)
    (hs : s.step l = some s') : s'.Attentive := by
  cases l with
  | op l => exact h.op hok hs
  | sleep =>
      rcases step_sleep hs with ⟨hidle, htask, hpush, rfl⟩
      have hcached : s.element.cache.isSome = true := by
        rcases hidle with ⟨-, c, hc, -⟩
        rw [hc]
        rfl
      exact ⟨fun _ _ => hidle, fun _ => ⟨hcached, hpush, Or.inl htask⟩⟩
  | wake calls =>
      rcases step_wake hs with ⟨hasleep, c, hc, ⟨hloop, rfl⟩ | ⟨e, -, rfl⟩⟩
      · have hidle := (loop_eq_none_iff hc calls).mp hloop
        exact ⟨fun _ _ => hidle, h.parked⟩
      · exact .of_awake rfl

end Attentive

/-- In every run, in any order of the steps of the threads, with wake-ups at any time: a
loop that waits although there is data, the end of the stream or a flush has been
signalled, and goes on when it wakes up. -/
theorem no_lost_wakeup (h : Reach step sourceFirst (init n) s) (hasleep : s.asleep = true)
    (hwork : ¬s.element.NothingToDo) :
    s.signalled = true ∧
      ∀ calls, ∃ s', s.step (.wake calls) = some s' ∧ s'.asleep = false := by
  have hattentive : s.Attentive :=
    h.invariant (.of_awake rfl) fun _ _ _ hinv hok hs => hinv.step hok hs
  constructor
  · by_contra hno
    exact hwork (hattentive.idle hasleep (by simpa using hno))
  · intro calls
    rcases Option.isSome_iff_exists.mp (hattentive.parked hasleep).cached with ⟨c, hc⟩
    cases hloop : s.element.loop c calls with
    | none => exact absurd ((loop_eq_none_iff hc calls).mp hloop) hwork
    | some e => exact ⟨⟨e, false, false⟩, by simp [step, hasleep, hc, hloop], rfl⟩

/-- A loop that waits on an empty cache, and the first slot that is filled. -/
theorem no_lost_wakeup_slot : ∃ s : Sleeper 2, Reach step sourceFirst (init 2) s ∧
    s.asleep = true ∧ s.signalled = true ∧
      ∀ calls, ∃ s', s.step (.wake calls) = some s' ∧ s'.asleep = false := by
  have h₀ : Reach step sourceFirst (init 2) _ := .refl
  have h₁ := h₀.extend (.op (.readyToPaused (fun _ _ => 0) none)) trivial rfl
  have h₂ := h₁.extend (.op (.srcActivate true)) trivial rfl
  have h₃ := h₂.extend .sleep trivial rfl
  have h₄ := h₃.extend (.op (.sinkActivate true)) (fun _ => rfl) rfl
  have h₅ := h₄.extend (.op (.chain ⟨cacheSlotSize, fun _ => 7⟩ .allOk)) trivial rfl
  have hwork := no_lost_wakeup h₅ rfl (by
    rintro ⟨-, c, hc, hwaits⟩
    cases hc
    exact absurd hwaits (by decide))
  exact ⟨_, h₅, rfl, hwork⟩

/-! ## The waiting loop does nothing new -/

/-- The steps of the waiting loop are those of the element under `ok`. -/
def stepsOk (ok : FluTSBase n → ElementOp n → Prop) (s : Sleeper n) (l : SleeperOp n) : Prop :=
  sourceFirst s l ∧
    match l with
    | .op l => ok s.element l
    | .sleep => True
    | .wake calls => ok s.element (.loop calls)

/-- In every run: the element with its waiting loop reaches only states that it reaches when
an iteration without data does not start, and under the same conditions on the steps. -/
theorem waiting_refines (ok : FluTSBase n → ElementOp n → Prop)
    (h : Reach step (stepsOk ok) (init n) s) :
    Reach FluTSBase.step ok (FluTSBase.init n) s.element := by
  have hrefines : Refines (step (n := n)) (stepsOk ok) FluTSBase.step ok
      fun s e => s.Attentive ∧ s.element = e := by
    rintro s e l s' ⟨hattentive, rfl⟩ ⟨hfirst, hok⟩ hs
    have hattentive' := hattentive.step hfirst hs
    cases l with
    | op l => exact ⟨_, .tail .refl hok (step_op hs).2.1, hattentive', rfl⟩
    | sleep =>
        rcases step_sleep hs with ⟨-, -, -, rfl⟩
        exact ⟨_, .refl, hattentive', rfl⟩
    | wake calls =>
        rcases step_wake hs with ⟨hasleep, c, hc, ⟨-, rfl⟩ | ⟨e, hloop, rfl⟩⟩
        · exact ⟨_, .refl, hattentive', rfl⟩
        · cases htask : s.element.taskStarted with
          | true =>
              have hstep : s.element.step (.loop calls) = some e := by
                simp [FluTSBase.step, htask, (hattentive.parked hasleep).quiet, hc, hloop]
              exact ⟨_, .tail .refl hok hstep, hattentive', rfl⟩
          | false =>
              -- the task has been paused by a flush, and the iteration only ends
              have hflush : s.element.srcresult = .flushing := by
                rcases (hattentive.parked hasleep).paused with habs | hflush
                · rw [htask] at habs
                  cases habs
                · exact hflush
              rw [loop_paused hflush htask] at hloop
              cases hloop
              exact ⟨_, .refl, hattentive', rfl⟩
  rcases hrefines.reach ⟨.of_awake rfl, rfl⟩ h with ⟨e, he, -, rfl⟩
  exact he

/-- A loop that waits, is woken up too early, waits again, and is flushed. -/
theorem waiting_refines_flushed : ∃ s : Sleeper 2,
    Reach step (stepsOk fun _ _ => True) (init 2) s ∧ s.asleep = false ∧
      Reach FluTSBase.step (fun _ _ => True) (FluTSBase.init 2) s.element := by
  have h₀ : Reach step (stepsOk fun _ _ => True) (init 2) _ := .refl
  have h₁ := h₀.extend (.op (.readyToPaused (fun _ _ => 0) none)) ⟨trivial, trivial⟩ rfl
  have h₂ := h₁.extend (.op (.srcActivate true)) ⟨trivial, trivial⟩ rfl
  have h₃ := h₂.extend .sleep ⟨trivial, trivial⟩ rfl
  have h₄ := h₃.extend (.wake .allOk) ⟨trivial, trivial⟩ rfl
  have h₅ := h₄.extend (.op (.sinkEvent .flushStart)) ⟨trivial, trivial⟩ rfl
  have h₆ := h₅.extend (.wake .allOk) ⟨trivial, trivial⟩ rfl
  exact ⟨_, h₆, rfl, waiting_refines _ h₆⟩

end Sleeper

end TimeShift
