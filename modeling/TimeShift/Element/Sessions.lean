import TimeShift.Cache.Autoremove
import TimeShift.Cache.Controls
import TimeShift.Element.Query

/-!
# The element runs sessions

Since it has made its cache, all that the element does with it is a run of a session: the
data that it takes is pushed, what the loop takes is popped, what it unrefs or downstream
frees is released, and a seek comes when downstream has freed everything
(`element_runs_session`). The session starts anew with each start and each FLUSH_STOP.
Whatever holds in every run of a session therefore holds of the cache of the element, and
under the same conditions on the calls of the cache; the property `recording-remove`, which
sessions do not have, makes no difference.

It takes two more conditions: the pushes of STREAM_START and SEGMENT succeed, as otherwise
the buffer is lost, and downstream has freed its buffers when a seek goes on, as the flush
of the seek makes it do.
-/

set_option linter.unusedSectionVars false

namespace TimeShift

open Bytes Machine Cache

/-- How the element has last come to its place in the stream: with its cache, by a seek, or
because it has dropped what there was when downstream answered with an EOS. -/
inductive Turn where
  | start
  | seek (offset : ℕ)
  | answered
deriving DecidableEq, Repr

/-- The element, with what has gone into its cache and what has come out of it, since it
has had this cache. -/
structure Feed (n : ℕ) where
  element : FluTSBase n
  /-- The bytes that have been pushed into the cache. -/
  pushed : List UInt8
  /-- The bytes that the cache has counted. -/
  accepted : List UInt8
  /-- The buffers that have been handed to `gst_pad_push`. -/
  handed : List (Buffer n)
  /-- Those since the last turn. -/
  sent : List (Buffer n)
  turn : Turn

/-- The offset of the last seek, when no other turn came since. -/
def Feed.sought {n : ℕ} (f : Feed n) : Option ℕ :=
  match f.turn with
  | .seek offset => some offset
  | _ => none

theorem Feed.turn_of_sought {n : ℕ} {f : Feed n} {offset : ℕ} (h : f.sought = some offset) :
    f.turn = .seek offset := by
  unfold sought at h
  split at h
  · cases h
    assumption
  · cases h

/-! ## What sessions do between pushes -/

namespace Session

variable {n : ℕ} [NeZero n] {ok : Cache n → Label → Prop} {s s' s'' : Session n}
  {bs bs' : List (Buffer n)} {p : Platform}

/-- The step meets a condition on its cache. -/
def allowed (ok : Cache n → Label → Prop) (s : Session n) (l : Label) : Prop := ok s.cache l

/-- Moreover, it is not a seek. -/
def staying (ok : Cache n → Label → Prop) (s : Session n) : Label → Prop
  | (.seek _, _) => False
  | l => ok s.cache l

theorem allowed_of_staying {l : Label} (h : staying ok s l) : allowed ok s l := by
  rcases l with ⟨op, p⟩
  cases op with
  | seek offset => exact h.elim
  | _ => exact h

/-- A condition that a session can take over from the element: it neither looks at
`autoremove` nor forbids that buffers are freed. -/
structure Transfers (ok : Cache n → Label → Prop) : Prop where
  mark : ∀ c l, ok c l → ok (c.markRemove true) l
  free : ∀ c k, ok c (.release k, .allOk)

/-- The session goes on without a push or a seek, and pops `bs`. -/
structure Continues (ok : Cache n → Label → Prop) (s s' : Session n) (bs : List (Buffer n)) :
    Prop where
  reach : Reach Session.step (staying ok) s s'
  pushed : s'.pushed = s.pushed
  accepted : s'.accepted = s.accepted
  popped : s'.popped = s.popped ++ bs

namespace Continues

theorem rfl : Continues ok s s [] := ⟨.refl, .refl _, .refl _, (List.append_nil _).symm⟩

theorem trans (h : Continues ok s s' bs) (h' : Continues ok s' s'' bs') :
    Continues ok s s'' (bs ++ bs') where
  reach := h.reach.trans h'.reach
  pushed := h'.pushed.trans h.pushed
  accepted := h'.accepted.trans h.accepted
  popped := by rw [h'.popped, h.popped, List.append_assoc]

/-- A step that neither pushes nor pops. -/
theorem of_step {l : Label} (hok : staying ok s l) (hs : s.step l = some s')
    (hpushed : s'.pushed = s.pushed) (haccepted : s'.accepted = s.accepted)
    (hpopped : s'.popped = s.popped) : Continues ok s s' [] :=
  ⟨.tail .refl hok hs, hpushed, haccepted, by rw [hpopped, List.append_nil]⟩

end Continues

/-- Apart from the mark, the session has the cache and the buffers. -/
structure Has (s : Session n) (c : Cache n) (live : List (Buffer n)) : Prop where
  cache : s.cache = c.markRemove true
  live : s.live = live

namespace Has

variable {c c' : Cache n} {live : List (Buffer n)}

/-- What is allowed for the element is allowed for the session. -/
theorem allows (h : s.Has c live) (hok : Transfers ok) {l : Label} (hl : ok c l) :
    ok s.cache l := by
  rw [h.cache]
  exact hok.mark c l hl

theorem pop (h : s.Has c live) (hok : Transfers ok) {drain : Bool} {b : Option (Buffer n)}
    (hl : ok c (.pop drain, p)) (hpop : c.pop drain p = (c', b)) :
    ∃ s', s.Continues ok s' b.toList ∧ s'.Has c' (live ++ b.toList) := by
  have hcache : s.cache.pop drain p = (c'.markRemove true, b) := by
    rw [h.cache, mark_pop, hpop]
  refine ⟨s.afterPop (s.cache.pop drain p), ⟨.tail .refl (l := (.pop drain, p)) ?_ rfl,
    afterPop_pushed _ _, afterPop_accepted _ _, ?_⟩, ?_, ?_⟩
  · exact h.allows hok hl
  · rw [afterPop_popped, hcache]
  · rw [afterPop_cache, hcache]
  · rw [afterPop_live, hcache, h.live]

theorem release (h : s.Has c live) (hok : Transfers ok) {k : ℕ} {b : Buffer n}
    (hb : live[k]? = some b) :
    ∃ s', s.Continues ok s' [] ∧ s'.Has (c.release b.slot) (live.eraseIdx k) := by
  have hs : s.step (.release k, .allOk) =
      some { s with cache := s.cache.release b.slot, live := s.live.eraseIdx k } := by
    simp only [Session.step, h.live, hb]
  exact ⟨_, .of_step (l := (.release k, .allOk)) (hok.free s.cache k) hs rfl rfl rfl,
    by rw [h.cache]; rfl, by rw [h.live]⟩

/-- A pop that finds nothing. -/
theorem pop_none (h : s.Has c live) (hok : Transfers ok) {drain : Bool}
    (hl : ok c (.pop drain, p)) (hpop : c.pop drain p = (c', none)) :
    ∃ s', ok s.cache (.pop drain, p) ∧ s.step (.pop drain, p) = some s' ∧
      s.Continues ok s' [] ∧ s'.Has c' live := by
  have hcache : s.cache.pop drain p = (c'.markRemove true, none) := by
    rw [h.cache, mark_pop, hpop]
  have hallowed := h.allows hok hl
  refine ⟨s.afterPop (s.cache.pop drain p), hallowed, rfl,
    .of_step (l := (.pop drain, p)) hallowed rfl (afterPop_pushed _ _) (afterPop_accepted _ _) ?_,
    ?_, ?_⟩
  · rw [afterPop_popped, hcache]
    simp
  · rw [afterPop_cache, hcache]
  · rw [afterPop_live, hcache, h.live]
    simp

/-- A buffer is freed right after it was popped. -/
theorem drop (h : s.Has c live) (hok : Transfers ok) {drain : Bool} {b : Buffer n}
    (hl : ok c (.pop drain, p)) (hpop : c.pop drain p = (c', some b)) :
    ∃ s', s.Continues ok s' [b] ∧ s'.Has (c'.release b.slot) live := by
  rcases h.pop hok hl hpop with ⟨s₁, hcont₁, hs₁⟩
  have hlast : (live ++ [b])[live.length]? = some b := by simp
  rcases hs₁.release hok hlast with ⟨s₂, hcont₂, hs₂⟩
  refine ⟨s₂, hcont₁.trans hcont₂, hs₂.cache, ?_⟩
  rw [hs₂.live]
  simp [List.eraseIdx_append_of_length_le]

end Has

/-- The session comes from `s` to `s'`, at last with a pop that finds nothing. -/
def FindsNone (ok : Cache n → Label → Prop) (s s' : Session n) : Prop :=
  ∃ s₀ drain p, Reach Session.step (allowed ok) s s₀ ∧ ok s₀.cache (.pop drain, p) ∧
    s₀.step (.pop drain, p) = some s' ∧ s'.popped = s₀.popped

theorem FindsNone.of_reach (h : FindsNone ok s' s'') (hs : Reach Session.step (allowed ok) s s') :
    FindsNone ok s s'' := by
  rcases h with ⟨s₀, drain, p, hs₀, hrest⟩
  exact ⟨s₀, drain, p, hs.trans hs₀, hrest⟩

/-- The session has been brought to `s₁` by this turn. -/
def Turned (ok : Cache n → Label → Prop) (memory : Fin n → ℕ → UInt8) (file : Option File)
    (s₁ : Session n) : Turn → Prop
  | .start => s₁ = init n memory file
  | .seek offset => ∃ s₀ p, Reach Session.step (allowed ok) (init n memory file) s₀ ∧
    ok s₀.cache (.seek offset, p) ∧ s₀.step (.seek offset, p) = some s₁
  | .answered => FindsNone ok (init n memory file) s₁

/-- The pops of the loop that drops buffers are allowed. -/
def DropsOk (ok : Cache n → Label → Prop) (drain : Bool) (p : ℕ → Platform) :
    ℕ → Cache n → Prop
  | 0, _ => True
  | fuel + 1, c => ok c (.pop drain, p fuel) ∧
    match c.pop drain (p fuel) with
    | (_, none) => True
    | (c, some b) => DropsOk ok drain p fuel (c.release b.slot)

namespace Has

variable {c c' : Cache n} {live : List (Buffer n)}

/-- Buffers are popped and freed until there is none. -/
theorem dropLoop (h : s.Has c live) (hok : Transfers ok) {drain : Bool} {p : ℕ → Platform}
    {fuel : ℕ} (hl : DropsOk ok drain p fuel c)
    (hdrop : FluTSBase.dropLoop drain p fuel c = some (c', bs)) :
    ∃ s', s.Continues ok s' bs ∧ s'.Has c' live ∧ FindsNone ok s s' := by
  induction fuel generalizing s c bs with
  | zero => cases hdrop
  | succ fuel ih =>
      rw [FluTSBase.dropLoop] at hdrop
      rw [DropsOk] at hl
      generalize hpop : c.pop drain (p fuel) = r at hdrop hl
      rcases r with ⟨c₁, _ | b⟩
      · cases hdrop
        rcases h.pop_none hok hl.1 hpop with ⟨s', hallowed, hs', hcont, hhas⟩
        have hsame : s'.popped = s.popped := hcont.popped.trans (List.append_nil _)
        exact ⟨s', hcont, hhas, s, drain, p fuel, .refl, hallowed, hs', hsame⟩
      · rcases Option.map_eq_some_iff.mp hdrop with ⟨⟨c₂, bs'⟩, hrest, heq⟩
        cases heq
        rcases h.drop hok hl.1 hpop with ⟨s₁, hcont₁, hs₁⟩
        rcases ih hs₁ hl.2 hrest with ⟨s₂, hcont₂, hs₂, hnone⟩
        refine ⟨s₂, hcont₁.trans hcont₂, hs₂, hnone.of_reach ?_⟩
        exact hcont₁.reach.imp fun _ _ => allowed_of_staying

theorem seek (h : s.Has c []) (hok : Transfers ok) {offset : ℕ} (hl : ok c (.seek offset, p))
    (hseek : c.seek offset p = some c') :
    ∃ s', s.step (.seek offset, p) = some s' ∧ ok s.cache (.seek offset, p) ∧
      s'.pushed = s.pushed ∧ s'.accepted = s.accepted ∧ s'.popped = s.popped ∧ s'.Has c' [] := by
  have hcache : s.cache.seek offset p = some (c'.markRemove true) := by
    rw [h.cache, mark_seek, hseek]
    rfl
  have hs : s.step (.seek offset, p) = some { s with
      cache := c'.markRemove true
      readPos := s.cache.seekPos offset s.readPos } := by
    simp only [Session.step, h.live, hcache]
    rfl
  exact ⟨_, hs, h.allows hok hl, rfl, rfl, rfl, rfl, h.live⟩

theorem startRecording (h : s.Has c live) (hok : Transfers ok) (hl : ok c (.startRecording, p)) :
    ∃ s', s.Continues ok s' [] ∧ s'.Has (c.startRecording p).1 live := by
  refine ⟨_, .of_step (l := (.startRecording, p)) ?_ rfl rfl rfl rfl, ?_, h.live⟩
  · exact h.allows hok hl
  · show (s.cache.startRecording p).1 = _
    rw [h.cache, mark_startRecording]

theorem migrate (h : s.Has c live) (hok : Transfers ok) (hl : ok c (.migrate, p))
    (hstop : s.cache.stopRecording = false) :
    ∃ s', s.Continues ok s' [] ∧ s'.Has (c.migrationThread p) live := by
  refine ⟨_, .of_step (l := (.migrate, p)) (h.allows hok hl) rfl rfl rfl rfl, ?_, h.live⟩
  show s.cache.migrationThread p = _
  rw [h.cache] at hstop ⊢
  exact mark_migrationThread c true p hstop

end Has

/-- Nothing in a session asks the thread to stop. -/
theorem reach_notStopped {ok : Session n → Label → Prop} {memory : Fin n → ℕ → UInt8}
    {file : Option File} (h : Reach Session.step ok (init n memory file) s) :
    s.cache.stopRecording = false :=
  h.invariant (P := fun s => s.cache.stopRecording = false) rfl
    fun _ _ _ hinv _ hs => (step_controls hs).stopRecording.trans hinv

end Session

namespace FluTSBase

variable {n : ℕ} [NeZero n] {s s' : FluTSBase n}

/-- The number of bytes that the cache counts. -/
def received (s : FluTSBase n) : ℕ := s.cache.elim 0 Cache.hOffset

theorem chain_accepted {data : Block UInt8} {p : Platform}
    (hs : s.step (.chain data p) = some s') (hacc : s.Accepts) :
    ∃ c, s.cache = some c ∧ s'.cache = some (c.push data p) ∧ s'.live = s.live := by
  rcases Option.map_eq_some_iff.mp hs with ⟨c, hc, rfl⟩
  refine ⟨c, hc, ?_⟩
  unfold push
  rw [if_neg (not_not.mpr hacc.1), if_neg (by simp [hacc.2.1]), if_neg (by simp [hacc.2.2])]
  dsimp only
  split
  · exact ⟨rfl, rfl⟩
  · exact ⟨rfl, rfl⟩

end FluTSBase

/-! ## Runs -/

namespace Feed

open FluTSBase Session

variable {n : ℕ} [NeZero n] {f f' : Feed n} {ok : Cache n → Label → Prop}
  {F : Option File → Prop}

def init (n : ℕ) : Feed n := ⟨FluTSBase.init n, [], [], [], [], .start⟩

/-- The element is `e` now. What it has handed over since is in its trace. -/
def advance (f : Feed n) (e : FluTSBase n) : Feed n :=
  let bs := FluTSBase.handed (e.trace.drop f.element.trace.length)
  { f with element := e, handed := f.handed ++ bs, sent := f.sent ++ bs }

/-- The element is `e` now, and goes on elsewhere in the stream. -/
def restart (f : Feed n) (e : FluTSBase n) (turn : Turn) : Feed n :=
  { f with element := e, sent := [], turn := turn }

/-- A step of the element. A start and a FLUSH_STOP make a new cache. -/
def step (f : Feed n) (l : ElementOp n) : Option (Feed n) :=
  (f.element.step l).map fun e =>
    match l with
    | .readyToPaused _ _ | .sinkEvent (.flushStop _ _) => ⟨e, [], [], [], [], .start⟩
    | .chain data _ =>
      if f.element.Accepts then
        { f with
          element := e
          pushed := f.pushed ++ data.toList
          accepted := f.accepted ++ data.toList.take (e.received - f.element.received) }
      else { f with element := e }
    | .resumeSeek _ => f.restart e (f.element.seeking.elim .start .seek)
    | .pushed ret _ =>
      if ret = .eos ∧ f.element.srcresult = .ok then f.restart e .answered else f.advance e
    | _ => f.advance e

/-- The pushes of events succeed, downstream has freed its buffers when a seek goes on, the
files of new caches are as `F` says, and the calls of the cache as `ok` says. -/
def orderly (ok : Cache n → Label → Prop) (F : Option File → Prop) (f : Feed n) :
    ElementOp n → Prop
  | .readyToPaused _ file => F file
  | .sinkEvent (.flushStop _ file) => F file
  | .chain data p => ∀ c, f.element.cache = some c → f.element.Accepts → ok c (.push data, p)
  | .startRecording p => ∀ c, f.element.cache = some c → ok c (.startRecording, p)
  | .resumeSeek p => f.element.live = [] ∧
      ∀ c offset, f.element.cache = some c → f.element.seeking = some offset →
        ok c (.seek offset, p)
  | .loop calls => pushesSucceed f.element (.loop calls) ∧
      ∀ c, f.element.cache = some c → f.element.srcresult = .ok →
        ok c (.pop f.element.isEos, calls.platform)
  | .pushed ret p => ∀ c, f.element.cache = some c → f.element.srcresult = .ok → ret = .eos →
      DropsOk ok f.element.isEos p (dropFuel c) c
  | .migrate p => ∀ c, f.element.cache = some c → ok c (.migrate, p)
  | _ => True

/-- What the element has done with its cache is what the session `s` has done, which was `s₁`
at the last turn. -/
structure Serves (ok : Cache n → Label → Prop) (memory : Fin n → ℕ → UInt8) (file : Option File)
    (s₁ s : Session n) (f : Feed n) (c : Cache n) : Prop where
  begun : Reach Session.step (allowed ok) (Session.init n memory file) s₁
  turned : Turned ok memory file s₁ f.turn
  since : Reach Session.step (staying ok) s₁ s
  has : s.Has c f.element.live
  pushed : s.pushed = f.pushed
  accepted : s.accepted = f.accepted
  handed : f.handed.Sublist s.popped
  sent : s.popped = s₁.popped ++ f.sent

/-- The cache of the element is that of a session. -/
def RunsSession (ok : Cache n → Label → Prop) (F : Option File → Prop) (f : Feed n) : Prop :=
  ∀ c, f.element.cache = some c → ∃ memory file s₁ s, F file ∧ Serves ok memory file s₁ s f c

namespace Serves

variable {memory : Fin n → ℕ → UInt8} {file : Option File} {s₁ s s' : Session n} {c c' : Cache n}

theorem reach (h : Serves ok memory file s₁ s f c) :
    Reach Session.step (allowed ok) (Session.init n memory file) s :=
  h.begun.trans (h.since.imp fun _ _ => allowed_of_staying)

/-- The session goes on without a turn. -/
theorem advance (h : Serves ok memory file s₁ s f c) {e : FluTSBase n} {w : List (Output n)}
    (htrace : e.trace = f.element.trace ++ w)
    (hcont : s.Continues ok s' (FluTSBase.handed w)) (hhas : s'.Has c' e.live) :
    Serves ok memory file s₁ s' (f.advance e) c' where
  begun := h.begun
  turned := h.turned
  since := h.since.trans hcont.reach
  has := hhas
  pushed := hcont.pushed.trans h.pushed
  accepted := hcont.accepted.trans h.accepted
  handed := by
    dsimp only [Feed.advance]
    rw [htrace, List.drop_left, hcont.popped]
    exact h.handed.append (List.Sublist.refl _)
  sent := by
    dsimp only [Feed.advance]
    rw [htrace, List.drop_left, hcont.popped, h.sent, List.append_assoc]

/-- The session comes to a turn. -/
theorem restart (h : Serves ok memory file s₁ s f c) {e : FluTSBase n} {turn : Turn}
    {bs : List (Buffer n)} (hs : Reach Session.step (allowed ok) s s')
    (hpushed : s'.pushed = s.pushed) (haccepted : s'.accepted = s.accepted)
    (hpopped : s'.popped = s.popped ++ bs) (hhas : s'.Has c' e.live)
    (hturned : Turned ok memory file s' turn) :
    Serves ok memory file s' s' (f.restart e turn) c' where
  begun := h.reach.trans hs
  turned := hturned
  since := .refl
  has := hhas
  pushed := hpushed.trans h.pushed
  accepted := haccepted.trans h.accepted
  handed := by
    rw [hpopped]
    exact h.handed.trans (List.sublist_append_left _ _)
  sent := (List.append_nil _).symm

end Serves

namespace RunsSession

/-- A new cache. -/
theorem of_start {e : FluTSBase n} {memory : Fin n → ℕ → UInt8} {file : Option File}
    {value : Bool} (hfile : F file)
    (hcache : e.cache = some { Cache.new n memory file with autoremove := value })
    (hlive : e.live = []) : RunsSession ok F ⟨e, [], [], [], [], .start⟩ := by
  intro c hc
  cases hcache.symm.trans hc
  exact ⟨memory, file, _, _, hfile, .refl, rfl, .refl, ⟨rfl, hlive.symm⟩, rfl, rfl,
    List.nil_sublist _, rfl⟩

theorem of_stopped (h : f.element.cache = none) : RunsSession ok F f := by
  intro c hc
  rw [h] at hc
  cases hc

/-- A step after which the element goes on where it was in the stream. -/
theorem advance (h : RunsSession ok F f) {e : FluTSBase n} {w : List (Output n)}
    (htrace : e.trace = f.element.trace ++ w)
    (hrun : ∀ c', e.cache = some c' → ∃ c, f.element.cache = some c ∧
      ∀ s : Session n, s.cache.stopRecording = false → s.Has c f.element.live →
        ∃ s', s.Continues ok s' (FluTSBase.handed w) ∧ s'.Has c' e.live) :
    RunsSession ok F (f.advance e) := by
  intro c' hc'
  rcases hrun c' hc' with ⟨c, hc, hrun⟩
  rcases h c hc with ⟨memory, file, s₁, s, hfile, hserves⟩
  rcases hrun s (reach_notStopped hserves.reach) hserves.has with ⟨s', hcont, hhas⟩
  exact ⟨memory, file, s₁, s', hfile, hserves.advance htrace hcont hhas⟩

/-- The cache and the buffers are not touched. -/
theorem idle (h : RunsSession ok F f) {e : FluTSBase n} {w : List (Output n)}
    (hw : FluTSBase.handed w = []) (htrace : e.trace = f.element.trace ++ w)
    (hcache : ∀ c', e.cache = some c' → ∃ c, f.element.cache = some c ∧
      c'.markRemove true = c.markRemove true) (hlive : e.live = f.element.live) :
    RunsSession ok F (f.advance e) := by
  refine h.advance htrace ?_
  intro c' hc'
  rcases hcache c' hc' with ⟨c, hc, hmark⟩
  refine ⟨c, hc, ?_⟩
  intro s _ hhas
  rw [hw]
  exact ⟨s, .rfl, hhas.cache.trans hmark.symm, hhas.live.trans hlive.symm⟩

theorem chain (h : RunsSession ok F f) (hok : Transfers ok) {data : Block UInt8} {p : Platform}
    (hl : orderly ok F f (.chain data p)) (hs : f.step (.chain data p) = some f') :
    RunsSession ok F f' := by
  rcases Option.map_eq_some_iff.mp hs with ⟨e, he, rfl⟩
  dsimp only
  split
  · rename_i hacc
    rcases chain_accepted he hacc with ⟨c, hc, hc', hlive⟩
    intro c' hc''
    cases hc'.symm.trans hc''
    rcases h c hc with ⟨memory, file, s₁, s, hfile, hserves⟩
    have hcache := hserves.has.cache
    have hpush : s.cache.push data p = (c.push data p).markRemove true := by
      rw [hcache, mark_push]
    have hreceived : e.received - f.element.received =
        (s.cache.push data p).hOffset - s.cache.hOffset := by
      rw [hpush, hcache]
      simp [received, hc, hc']
    have hallowed : staying ok s (.push data, p) := hserves.has.allows hok (hl c hc hacc)
    have hsince := hserves.since.extend (.push data, p) hallowed rfl
    refine ⟨memory, file, s₁, _, hfile, hserves.begun, hserves.turned, hsince,
      ⟨hpush, hserves.has.live.trans hlive.symm⟩, ?_, ?_, hserves.handed, hserves.sent⟩
    · show s.pushed ++ data.toList = _
      rw [hserves.pushed]
    · show s.accepted ++ data.toList.take _ = _
      rw [hserves.accepted, hreceived]
  · rename_i hacc
    rw [chain_refused he hacc]
    exact h

/-- The way of a buffer through `gst_flutsbase_pop`, when it is not lost, and the end of
the iteration. -/
theorem pop (h : RunsSession ok F f) (hok : Transfers ok) {calls : PopCalls}
    (hl : orderly ok F f (.loop calls)) (hres : f.element.srcresult = .ok) {c : Cache n}
    (hc : f.element.cache = some c) {t e : FluTSBase n} {ret : Option FlowReturn}
    (hpop : PopCase f.element c calls (t, ret)) {os : List (Output n)}
    (hos : FluTSBase.handed os = []) (htrace : e.trace = t.trace ++ os) (hcache : e.cache = t.cache)
    (hlive : e.live = t.live) : RunsSession ok F (f.advance e) := by
  have hallowed := hl.2 c hc hres
  -- what the session does, and what has gone downstream
  have hrun : ∀ (w : List (Output n)) (c' : Cache n), t.trace = f.element.trace ++ w →
      t.cache = some c' → (∀ s : Session n, s.Has c f.element.live →
        ∃ s', s.Continues ok s' (FluTSBase.handed w) ∧ s'.Has c' t.live) →
      RunsSession ok F (f.advance e) := by
    intro w c' hw hc' hsession
    refine h.advance (w := w ++ os) (by rw [htrace, hw, List.append_assoc]) ?_
    intro c'' hc''
    rw [hcache, hc'] at hc''
    cases hc''
    refine ⟨c, hc, ?_⟩
    intro s _ hhas
    rw [handed_append, hos, List.append_nil, hlive]
    exact hsession s hhas
  cases hpop with
  | atEnd c' hpop _ =>
      refine hrun [.eos] c' rfl rfl ?_
      intro s hhas
      rcases hhas.pop hok hallowed hpop with ⟨s', hcont, hhas'⟩
      have hsame : s'.Has c' f.element.live := by simpa using hhas'
      exact ⟨s', hcont, hsame⟩
  | noItem c' hpop _ =>
      refine hrun [] c' (List.append_nil _).symm rfl ?_
      intro s hhas
      rcases hhas.pop hok hallowed hpop with ⟨s', hcont, hhas'⟩
      have hsame : s'.Has c' f.element.live := by simpa using hhas'
      exact ⟨s', hcont, hsame⟩
  | flushed c' b hpop hflush =>
      -- the loop has looked at `srcresult` before
      rw [hres] at hflush
      cases hflush
  | lostStreamStart c' b _ hevent hfails =>
      rcases hl.1.1 with hnone | hsucceeds
      · rw [hnone] at hevent
        cases hevent
      · rw [hfails] at hsucceeds
        cases hsucceeds
  | lostSegment c' b _ hneed hfails _ _ =>
      rcases hl.1.2 with hoff | hsucceeds
      · rw [hneed] at hoff
        cases hoff
      · rw [hfails] at hsucceeds
        cases hsucceeds
  | segmentFirst c' b hpop _ u hu =>
      rw [sendStreamStart_eq] at hu
      refine hrun (f.element.streamStartEvent.toList.map .streamStart ++
        [.segment (u.segmentFor b), .buffer b]) c' ?_ (by rw [hu]; rfl) ?_
      · rw [hu]
        simp [handOver, emit, taken]
      · intro s hhas
        rcases hhas.pop hok hallowed hpop with ⟨s', hcont, hhas'⟩
        rw [handed_append, handed_streamStart, hu]
        exact ⟨s', hcont, hhas'⟩
  | buffer c' b hpop _ _ =>
      refine hrun (f.element.streamStartEvent.toList.map .streamStart ++ [.buffer b]) c' ?_ ?_ ?_
      · rw [sendStreamStart_eq]
        simp [handOver, emit, taken]
      · rw [sendStreamStart_eq]
        rfl
      · intro s hhas
        rcases hhas.pop hok hallowed hpop with ⟨s', hcont, hhas'⟩
        rw [handed_append, handed_streamStart, sendStreamStart_eq]
        exact ⟨s', hcont, hhas'⟩

/-- The loop drops what there is when downstream answers with an EOS. -/
theorem dropped (h : RunsSession ok F f) (hok : Transfers ok) {p : ℕ → Platform}
    (hl : orderly ok F f (.pushed .eos p)) (hres : f.element.srcresult = .ok)
    {e : FluTSBase n} (he : f.element.step (.pushed .eos p) = some e) :
    RunsSession ok F (f.restart e .answered) := by
  rcases pushed_dropped he hres with ⟨c, c', bs, hc, hdrop, rfl⟩
  rcases finish_frame { f.element with
    pushing := false
    cache := some c'
    popped := f.element.popped ++ bs
    unreffed := f.element.unreffed ++ bs
    unexpected := true } .ok with ⟨_, _, _, _, heq⟩
  rw [heq]
  rintro c₁ ⟨⟩
  rcases h c hc with ⟨memory, file, s₁, s, hfile, hserves⟩
  rcases hserves.has.dropLoop hok (hl c hc hres rfl) hdrop with ⟨s', hcont, hhas, hnone⟩
  have hreach : Reach Session.step (allowed ok) s s' :=
    hcont.reach.imp fun _ _ => allowed_of_staying
  exact ⟨memory, file, s', s', hfile, hserves.restart hreach hcont.pushed hcont.accepted
    hcont.popped hhas (hnone.of_reach hserves.reach)⟩

/-- The end of an iteration of the loop, when `gst_pad_push` has returned. -/
theorem pushed (h : RunsSession ok F f) (hok : Transfers ok) {ret : FlowReturn}
    {p : ℕ → Platform} (hl : orderly ok F f (.pushed ret p))
    (hs : f.step (.pushed ret p) = some f') : RunsSession ok F f' := by
  rcases Option.map_eq_some_iff.mp hs with ⟨e, he, rfl⟩
  dsimp only
  split
  · rename_i hdrops
    rcases hdrops with ⟨rfl, hres⟩
    exact h.dropped hok hl hres he
  · rename_i hkept
    rcases pushed_kept he (fun habs => hkept habs.symm) with ⟨ret', rfl⟩
    rcases finish_frame { f.element with pushing := false } ret' with ⟨_, _, os, hos, heq⟩
    have hhanded : FluTSBase.handed os = [] := by rcases hos with rfl | rfl <;> rfl
    rw [heq]
    exact h.idle hhanded rfl (fun c' hc' => ⟨c', hc', rfl⟩) rfl

/-- The loop ends its iteration, and leaves the cache alone. -/
theorem finish (h : RunsSession ok F f) (ret : FlowReturn) :
    RunsSession ok F (f.advance (f.element.finish ret)) := by
  rcases f.element.finish_frame ret with ⟨_, _, os, hos, heq⟩
  have hhanded : FluTSBase.handed os = [] := by rcases hos with rfl | rfl <;> rfl
  rw [heq]
  exact h.idle hhanded rfl (fun c' hc' => ⟨c', hc', rfl⟩) rfl

/-- An iteration of the loop. -/
theorem loop (h : RunsSession ok F f) (hok : Transfers ok) {calls : PopCalls}
    (hl : orderly ok F f (.loop calls)) {e : FluTSBase n}
    (he : f.element.step (.loop calls) = some e) : RunsSession ok F (f.advance e) := by
  by_cases hres : f.element.srcresult = .ok
  · cases step_case he with
    | loopFlushing calls => exact h.finish _
    | loopPushing calls c t hc _ hpop =>
        exact h.pop hok hl hres hc hpop rfl (List.append_nil _).symm rfl rfl
    | loopEnded calls c t ret hc hpop =>
        rcases t.finish_frame ret with ⟨_, _, os, hos, heq⟩
        have hhanded : FluTSBase.handed os = [] := by rcases hos with rfl | rfl <;> rfl
        rw [heq]
        exact h.pop hok hl hres hc hpop hhanded rfl rfl rfl
  · rw [loop_flushing he hres]
    exact h.finish _

/-- An event from upstream. -/
theorem sinkEvent (h : RunsSession ok F f) {e' : SinkEvent n}
    (hl : orderly ok F f (.sinkEvent e')) (hs : f.step (.sinkEvent e') = some f') :
    RunsSession ok F f' := by
  have hsame : ∀ c' : Cache n, f.element.cache = some c' →
      ∃ c, f.element.cache = some c ∧ c'.markRemove true = c.markRemove true :=
    fun c' hc' => ⟨c', hc', rfl⟩
  have hnil : ∀ x : List (Output n), x = x ++ [] := fun x => (List.append_nil x).symm
  cases hs
  cases e' with
  | flushStop memory file => exact .of_start hl rfl rfl
  | flushStart => exact h.idle (w := [.flushStart]) rfl rfl hsame rfl
  | eos => exact h.idle rfl (hnil _) hsame rfl
  | segment => exact h.idle rfl (hnil _) hsame rfl
  | streamStart id => exact h.idle rfl (hnil _) hsame rfl
  | other => exact h.idle rfl (hnil _) hsame rfl

/-- The second half of a seek: downstream has freed its buffers. -/
theorem resumeSeek (h : RunsSession ok F f) (hok : Transfers ok) {p : Platform}
    (hl : orderly ok F f (.resumeSeek p)) {c c' : Cache n} {offset : ℕ}
    (hc : f.element.cache = some c) (hoffset : f.element.seeking = some offset)
    (hc' : c.seek offset p = some c') :
    RunsSession ok F (f.restart (f.element.seekDone c') (.seek offset)) := by
  rintro c₁ ⟨⟩
  rcases h c hc with ⟨memory, file, s₁, s, hfile, hserves⟩
  have hlive : f.element.live = [] := hl.1
  have hhas := hserves.has
  rw [hlive] at hhas
  rcases hhas.seek hok (hl.2 c offset hc hoffset) hc' with
    ⟨s', hs', hallowed, hpushed, haccepted, hpopped, hhas'⟩
  have hsame : s'.Has c' f.element.live := by
    rw [hlive]
    exact hhas'
  have hnone : s'.popped = s.popped ++ [] := by rw [hpopped, List.append_nil]
  exact ⟨memory, file, s', s', hfile, hserves.restart (.tail .refl hallowed hs') hpushed haccepted
    hnone hsame ⟨s, p, hserves.reach, hallowed, hs'⟩⟩

theorem step (h : RunsSession ok F f) (hok : Transfers ok) {l : ElementOp n}
    (hl : orderly ok F f l) (hs : f.step l = some f') : RunsSession ok F f' := by
  rcases Option.map_eq_some_iff.mp hs with ⟨e, he, hf'⟩
  have hsame : ∀ c' : Cache n, f.element.cache = some c' →
      ∃ c, f.element.cache = some c ∧ c'.markRemove true = c.markRemove true :=
    fun c' hc' => ⟨c', hc', rfl⟩
  have hnil : ∀ x : List (Output n), x = x ++ [] := fun x => (List.append_nil x).symm
  cases step_case he with
  | readyToPaused memory file =>
      subst hf'
      exact .of_start hl rfl rfl
  | pausedToReady =>
      subst hf'
      have hstopped : f.element.stop.cache = none := by
        unfold FluTSBase.stop
        split
        · assumption
        · rfl
      exact of_stopped hstopped
  | sinkActivate active =>
      subst hf'
      cases active <;> exact h.idle rfl (hnil _) hsame rfl
  | srcActivate active =>
      subst hf'
      cases active <;> exact h.idle rfl (hnil _) hsame rfl
  | setRecordingRemove value =>
      subst hf'
      refine h.idle rfl (hnil _) ?_ rfl
      intro c' hc'
      rcases Option.map_eq_some_iff.mp hc' with ⟨c, hc, rfl⟩
      exact ⟨c, hc, rfl⟩
  | chainRefused data p => exact h.chain hok hl hs
  | chain data p c posted started hc => exact h.chain hok hl hs
  | sinkEvent e' => exact h.sinkEvent hl hs
  | startRecording p c hc =>
      subst hf'
      refine h.advance (hnil _) ?_
      rintro c' ⟨⟩
      exact ⟨c, hc, fun s _ hhas => hhas.startRecording hok (hl c hc)⟩
  | seekRefused e' =>
      subst hf'
      exact h.idle rfl (hnil _) hsame rfl
  | seek e' c offset hc hoffset =>
      subst hf'
      exact h.idle (w := [.flushStart]) rfl rfl hsame rfl
  | resumeSeek p c c' offset hc hoffset hc' =>
      subst hf'
      dsimp only
      rw [hoffset]
      exact h.resumeSeek hok hl hc hoffset hc'
  | loopFlushing calls =>
      subst hf'
      exact h.loop hok hl he
  | loopPushing calls c t hc _ hpop =>
      subst hf'
      exact h.loop hok hl he
  | loopEnded calls c t ret hc hpop =>
      subst hf'
      exact h.loop hok hl he
  | pushed ret ret' p => exact h.pushed hok hl hs
  | dropped ret p c c' bs hc hdrop => exact h.pushed hok hl hs
  | free k c b hc hb =>
      subst hf'
      refine h.advance (hnil _) ?_
      rintro c' ⟨⟩
      exact ⟨c, hc, fun s _ hhas => hhas.release hok hb⟩
  | migrate p c hc =>
      subst hf'
      refine h.advance (hnil _) ?_
      rintro c' ⟨⟩
      exact ⟨c, hc, fun s hstop hhas => hhas.migrate hok (hl c hc) hstop⟩

/-- In every state reached. -/
theorem of_reach (hok : Transfers ok) (h : Reach Feed.step (orderly ok F) (Feed.init n) f) :
    RunsSession ok F f :=
  h.invariant (P := RunsSession ok F) (.of_stopped rfl) fun _ _ _ hinv hl hs =>
    hinv.step hok hl hs

end RunsSession

/-- In every run in which the pushes of STREAM_START and SEGMENT events succeed,
downstream has freed its buffers when a seek goes on, and the calls of the cache meet some
condition, whatever else the threads do and in whatever order: a run of a session, whose
calls meet the condition, leads to the cache of the element, up to `autoremove`, with the
same bytes pushed and accepted and the same buffers downstream; what the element has handed
over are, in their order, buffers that the session has popped.

The run comes by `s₁`, where the session is new, has just made the last seek of the element,
or has just found nothing more to pop when downstream had answered with an EOS. From there
on, what the element has handed over is all that the session has popped. -/
theorem element_runs_session (hok : Transfers ok) (h : Reach step (orderly ok F) (init n) f)
    {c : Cache n} (hc : f.element.cache = some c) :
    ∃ memory file s₁ s, F file ∧
      Reach Session.step (allowed ok) (Session.init n memory file) s₁ ∧
      Turned ok memory file s₁ f.turn ∧ Reach Session.step (staying ok) s₁ s ∧
      s.cache = c.markRemove true ∧ s.live = f.element.live ∧ s.pushed = f.pushed ∧
      s.accepted = f.accepted ∧ f.handed.Sublist s.popped ∧
      s.popped = s₁.popped ++ f.sent := by
  rcases RunsSession.of_reach hok h c hc with ⟨memory, file, s₁, s, hfile, hserves⟩
  exact ⟨memory, file, s₁, s, hfile, hserves.begun, hserves.turned, hserves.since,
    hserves.has.cache, hserves.has.live, hserves.pushed, hserves.accepted, hserves.handed,
    hserves.sent⟩

/-- An element that has sought back to the first of two buffers, and handed it over again. -/
theorem element_runs_session_back : ∃ (f : Feed 3) (c : Cache 3) (s₁ s : Session 3),
    Reach step (orderly (fun _ _ => True) fun _ => True) (init 3) f ∧ f.element.cache = some c ∧
      f.turn = .seek 5 ∧ f.handed.length = 3 ∧ f.sent.length = 1 ∧
      s.popped = s₁.popped ++ f.sent := by
  have h₀ : Reach step (orderly (fun _ _ => True) fun _ => True) (init 3) _ := .refl
  have h₁ := h₀.extend (.readyToPaused (fun _ _ => 0) none) trivial rfl
  have h₂ := h₁.extend (.srcActivate true) trivial rfl
  have h₃ := h₂.extend (.sinkActivate true) trivial rfl
  have h₄ := h₃.extend (.chain ⟨2 * cacheSlotSize, fun _ => 7⟩ .allOk) (fun _ _ _ => trivial) rfl
  have h₅ := h₄.extend (.loop .allOk) ⟨⟨Or.inr rfl, Or.inr rfl⟩, fun _ _ _ => trivial⟩ rfl
  have h₆ := h₅.extend (.pushed .ok fun _ => .allOk) (fun _ _ _ habs => nomatch habs) rfl
  have h₇ := h₆.extend (.loop .allOk) ⟨⟨Or.inr rfl, Or.inr rfl⟩, fun _ _ _ => trivial⟩ rfl
  have h₈ := h₇.extend (.pushed .ok fun _ => .allOk) (fun _ _ _ habs => nomatch habs) rfl
  have h₉ := h₈.extend (.seek ⟨true, .bytes, .set, 5⟩) trivial rfl
  have h₁₀ := h₉.extend (.free 0) trivial rfl
  have h₁₁ := h₁₀.extend (.free 0) trivial rfl
  have h₁₂ := h₁₁.extend (.resumeSeek .allOk) ⟨rfl, fun _ _ _ _ => trivial⟩ rfl
  have h₁₃ := h₁₂.extend (.loop .allOk) ⟨⟨Or.inr rfl, Or.inr rfl⟩, fun _ _ _ => trivial⟩ rfl
  rcases element_runs_session ⟨fun _ _ _ => trivial, fun _ _ => trivial⟩ h₁₃ rfl with
    ⟨_, _, s₁, s, -, -, -, -, -, -, -, -, -, hpopped⟩
  exact ⟨_, _, s₁, s, h₁₃, rfl, rfl, rfl, rfl, hpopped⟩

end Feed

end TimeShift
