import TimeShift.Element.Delivery
import TimeShift.Lib.Progress

/-!
# Playing out

When upstream has sent its EOS and nothing but the loop goes on, every run brings the rest
of the stream downstream, piece by piece to its end, and then an EOS (`plays_out`). One
iteration of the loop is one round of a draining of the cache (`Cache/Drain.lean`), and the
buffers that such a draining has yet to take give the number that every step lowers.
-/

set_option linter.unusedSectionVars false

namespace TimeShift

open Bytes Machine Cache

variable {n : ℕ} [NeZero n] {p : Platform}

/-- The property `recording-remove` makes no difference to a draining. -/
theorem Cache.drainLoop_markRemove (p : Platform) (fuel : ℕ) (c : Cache n) (value : Bool) :
    drainLoop p fuel (c.markRemove value) = drainLoop p fuel c := by
  induction fuel generalizing c with
  | zero => rfl
  | succ fuel ih =>
      rw [drainLoop, drainLoop, mark_pop]
      generalize c.pop true p = r
      rcases r with ⟨c', _ | b⟩
      · rfl
      · dsimp only
        rw [mark_release, ih]

/-- The cache when downstream has freed these buffers of it. -/
def Cache.freed (c : Cache n) (live : List (Buffer n)) : Cache n :=
  live.foldl (fun c b => c.release b.slot) c

namespace FluTSBase

variable {s s' : FluTSBase n} {c c' : Cache n} {b : Buffer n} {bufs : List (Buffer n)}

/-- The loop goes on after the end of the stream, and has these buffers to bring downstream. -/
structure Playing (p : Platform) (s : FluTSBase n) (bufs : List (Buffer n)) : Prop where
  isEos : s.isEos = true
  srcresult : s.srcresult = .ok
  taskStarted : s.taskStarted = true
  drains : ∃ c fuel, s.cache = some c ∧ drainLoop p fuel (c.freed s.live) = some bufs

namespace Playing

/-- `gst_flutsbase_pop` gets to its push with the buffer of the cache. -/
theorem pop (h : Playing p s bufs) (hlive : s.live = []) (hpop : c.pop true p = (c', some b)) :
    ∃ t w, s.pop c ⟨p, true, true⟩ = (t, none) ∧ t.trace = s.trace ++ w ∧ handed w = [b] ∧
      t.cache = some c' ∧ t.live = [b] ∧ t.isEos = true ∧ t.srcresult = .ok ∧
      t.taskStarted = true ∧ t.pushing = true := by
  have hcase := pop_case s c ⟨p, true, true⟩
  generalize s.pop c ⟨p, true, true⟩ = r at hcase
  cases hcase with
  | atEnd c₁ hc₁ _ =>
      rw [h.isEos, hpop] at hc₁
      cases hc₁
  | noItem c₁ _ habs =>
      rw [h.isEos] at habs
      cases habs
  | flushed c₁ b₁ _ habs =>
      rw [h.srcresult] at habs
      cases habs
  | lostStreamStart c₁ b₁ _ _ habs => cases habs
  | lostSegment c₁ b₁ _ _ habs => cases habs
  | segmentFirst c₁ b₁ hc₁ _ t ht =>
      rw [h.isEos, hpop] at hc₁
      cases hc₁
      rw [sendStreamStart_eq] at ht
      rw [ht]
      refine ⟨_, s.streamStartEvent.toList.map .streamStart ++
        [.segment (s.segmentFor b), .buffer b], rfl, ?_, ?_, rfl, ?_, h.isEos, h.srcresult,
        h.taskStarted, rfl⟩
      · simp [handOver, emit, taken, segmentFor]
      · rw [handed_append, handed_streamStart]
        rfl
      · show s.live ++ [b] = [b]
        rw [hlive, List.nil_append]
  | buffer c₁ b₁ hc₁ _ =>
      rw [h.isEos, hpop] at hc₁
      cases hc₁
      rw [sendStreamStart_eq]
      refine ⟨_, s.streamStartEvent.toList.map .streamStart ++ [.buffer b], rfl, ?_, ?_, rfl, ?_,
        h.isEos, h.srcresult, h.taskStarted, rfl⟩
      · simp [handOver, emit, taken]
      · rw [handed_append, handed_streamStart]
        rfl
      · show s.live ++ [b] = [b]
        rw [hlive, List.nil_append]

/-- An iteration with the buffers freed: the next buffer goes downstream, or there is none and
an EOS does. -/
theorem loop (h : Playing p s bufs) (hlive : s.live = []) (hpushing : s.pushing = false) :
    ∃ s', s.step (.loop ⟨p, true, true⟩) = some s' ∧
      ((bufs = [] ∧ s'.trace = s.trace ++ [.eos] ∧ s'.taskStarted = false) ∨
        ∃ b rest w, bufs = b :: rest ∧ Playing p s' rest ∧ s'.trace = s.trace ++ w ∧
          handed w = [b] ∧ s'.pushing = true ∧ s'.live = [b]) := by
  rcases h.drains with ⟨c, fuel, hc, hdrain⟩
  have hwaits : s.waits c = false := by
    rw [waits, h.isEos]
    simp
  have hstep : s.step (.loop ⟨p, true, true⟩) = s.loop c ⟨p, true, true⟩ := by
    simp only [step, h.taskStarted, hpushing, hc, Option.bind_some, Bool.not_true, Bool.or_self,
      Bool.false_eq_true, if_false]
  rw [hstep, FluTSBase.loop, if_neg (not_not.mpr h.srcresult), hwaits]
  rw [hlive] at hdrain
  replace hdrain : drainLoop p fuel c = some bufs := hdrain
  cases fuel with
  | zero => cases hdrain
  | succ fuel =>
      rw [drainLoop] at hdrain
      generalize hpop : c.pop true p = r at hdrain
      rcases r with ⟨c', _ | b⟩
      · -- nothing is left
        cases hdrain
        have hnone : c.pop s.isEos p = (c', none) := by rw [h.isEos, hpop]
        have hend : s.pop c ⟨p, true, true⟩ =
            ({ { s with cache := some c' }.emit .eos with taskStarted := false }, some .ok) := by
          rw [FluTSBase.pop, hnone]
          dsimp only
          rw [if_pos h.isEos]
        rw [hend]
        exact ⟨_, rfl, Or.inl ⟨rfl, rfl, rfl⟩⟩
      · rcases Option.map_eq_some_iff.mp hdrain with ⟨rest, hrest, rfl⟩
        rcases h.pop hlive hpop with
          ⟨t, w, ht, htrace, hhanded, hcache, hlive', heos, hres, hstarted, hpushing'⟩
        rw [ht]
        refine ⟨t, rfl, Or.inr ⟨b, rest, w, rfl, ⟨heos, hres, hstarted, c', fuel, hcache, ?_⟩,
          htrace, hhanded, hpushing', hlive'⟩⟩
        rw [hlive']
        exact hrest

/-- The push returns. -/
theorem pushed (h : Playing p s bufs) (hpushing : s.pushing = true) (q : ℕ → Platform) :
    ∃ s', s.step (.pushed .ok q) = some s' ∧ Playing p s' bufs ∧ s'.trace = s.trace ∧
      s'.pushing = false ∧ s'.live = s.live := by
  rcases h.drains with ⟨c, fuel, hc, hdrain⟩
  have hpushed : s.pushed c .ok q = some { s with pushing := false, srcresult := .ok } := by
    rw [FluTSBase.pushed]
    dsimp only
    rw [if_neg (not_not.mpr h.srcresult), if_neg (by decide)]
    rfl
  have hstep : s.step (.pushed .ok q) = some { s with pushing := false, srcresult := .ok } := by
    simp only [step, hpushing, hc, Bool.not_true, Bool.false_eq_true, if_false, Option.bind_some,
      hpushed]
  exact ⟨_, hstep, ⟨h.isEos, rfl, h.taskStarted, c, fuel, hc, hdrain⟩, rfl, rfl, rfl⟩

/-- Downstream frees its oldest buffer. -/
theorem free (h : Playing p s bufs) {live : List (Buffer n)} (hlive : s.live = b :: live) :
    ∃ s', s.step (.free 0) = some s' ∧ Playing p s' bufs ∧ s'.trace = s.trace ∧
      s'.pushing = s.pushing ∧ s'.live = live := by
  rcases h.drains with ⟨c, fuel, hc, hdrain⟩
  rw [hlive] at hdrain
  refine ⟨{ s with cache := some (c.release b.slot), live := live }, ?_,
    ⟨h.isEos, h.srcresult, h.taskStarted, _, fuel, rfl, hdrain⟩, rfl, rfl, rfl⟩
  simp only [step, hc, hlive, Option.bind_some]
  rfl

end Playing

end FluTSBase

namespace Feed

open FluTSBase

variable {f : Feed n} {c : Cache n} {F : Option File → Prop}

/-- Nothing but the loop goes on: its pushes succeed, and downstream frees what it has got
before the next iteration. -/
def alone (p : Platform) (f : Feed n) : ElementOp n → Prop
  | .loop calls => calls = ⟨p, true, true⟩ ∧ f.element.live = []
  | .pushed ret _ => ret = .ok
  | .free k => k = 0
  | _ => False

/-- The task is paused, and an EOS was the last to go downstream. -/
def Ended (f : Feed n) : Prop :=
  f.element.taskStarted = false ∧ f.element.trace.getLast? = some .eos

theorem advance_sent {e : FluTSBase n} {w : List (Output n)}
    (htrace : e.trace = f.element.trace ++ w) :
    (f.advance e).sent = f.sent ++ FluTSBase.handed w := by
  simp only [advance, htrace, List.drop_left]

theorem advance_sent_self {e : FluTSBase n} (htrace : e.trace = f.element.trace) :
    (f.advance e).sent = f.sent := by
  rw [advance_sent (w := []) (htrace.trans (List.append_nil _).symm)]
  exact List.append_nil _

/-- `k` bounds the steps that are left before the last: three for each buffer that is to
come, and those of the buffer that is out. -/
structure Remains (p : Platform) (sent : List (Buffer n)) (accepted : List UInt8) (k : ℕ)
    (f : Feed n) : Prop where
  left : ∃ bufs, Playing p f.element bufs ∧ f.sent ++ bufs = sent ∧
    3 * bufs.length + f.element.live.length + f.element.pushing.toNat = k
  accepted : f.accepted = accepted

namespace Remains

variable {sent : List (Buffer n)} {accepted : List UInt8} {k : ℕ}

theorem enabled (h : Remains p sent accepted k f) :
    ∃ l f', alone p f l ∧ f.step l = some f' := by
  rcases h.left with ⟨bufs, hplaying, -, -⟩
  cases hlive : f.element.live with
  | cons b live =>
      rcases hplaying.free hlive with ⟨e, he, -⟩
      exact ⟨.free 0, f.advance e, rfl, by rw [step, he]; rfl⟩
  | nil =>
      cases hpushing : f.element.pushing with
      | true =>
          rcases hplaying.pushed hpushing fun _ => p with ⟨e, he, -⟩
          exact ⟨.pushed .ok fun _ => p, f.advance e, rfl, by rw [step, he]; rfl⟩
      | false =>
          rcases hplaying.loop hlive hpushing with ⟨e, he, -⟩
          exact ⟨.loop ⟨p, true, true⟩, f.advance e, ⟨rfl, hlive⟩, by rw [step, he]; rfl⟩

/-- A step lowers the bound, or is the last. -/
theorem step (h : Remains p sent accepted k f) {l : ElementOp n} {f' : Feed n}
    (hok : alone p f l) (hs : f.step l = some f') :
    (Ended f' ∧ f'.sent = sent ∧ f'.accepted = accepted) ∨
      ∃ k' < k, Remains p sent accepted k' f' := by
  rcases h.left with ⟨bufs, hplaying, hsent, hk⟩
  rcases Option.map_eq_some_iff.mp hs with ⟨e, he, rfl⟩
  cases l with
  | loop calls =>
      rcases hok with ⟨rfl, hlive⟩
      have hpushing : f.element.pushing = false := by
        cases hpush : f.element.pushing with
        | false => rfl
        | true => simp [FluTSBase.step, hpush] at he
      rcases hplaying.loop hlive hpushing with
        ⟨e', he', ⟨rfl, htrace, hstarted⟩ | ⟨b, rest, w, rfl, hrest, htrace, hhanded, hpush, hout⟩⟩
      · cases he.symm.trans he'
        refine Or.inl ⟨⟨hstarted, ?_⟩, ?_, h.accepted⟩
        · show e.trace.getLast? = some .eos
          rw [htrace, List.getLast?_append]
          rfl
        · rw [← hsent]
          exact advance_sent htrace
      · cases he.symm.trans he'
        refine Or.inr ⟨_, ?_, ⟨⟨rest, hrest, ?_, rfl⟩, h.accepted⟩⟩
        · rw [← hk]
          show 3 * rest.length + e.live.length + e.pushing.toNat < _
          rw [hout, hpush, List.length_cons]
          simp
          omega
        · rw [advance_sent htrace, hhanded, ← hsent, List.append_assoc]
          rfl
  | pushed ret q =>
      cases hok
      have hpushing : f.element.pushing = true := by
        cases hpush : f.element.pushing with
        | true => rfl
        | false => simp [FluTSBase.step, hpush] at he
      rcases hplaying.pushed hpushing q with ⟨e', he', hrest, htrace, hpush, hout⟩
      cases he.symm.trans he'
      refine Or.inr ⟨_, ?_, ⟨⟨bufs, hrest, ?_, rfl⟩, h.accepted⟩⟩
      · rw [← hk]
        show 3 * bufs.length + e.live.length + e.pushing.toNat < _
        rw [hout, hpush, hpushing]
        simp
      · rw [← hsent]
        exact congrArg (· ++ bufs) (advance_sent_self htrace)
  | free j =>
      cases hok
      cases hlive : f.element.live with
      | nil =>
          rw [FluTSBase.step, hlive] at he
          simp at he
      | cons b live =>
          rcases hplaying.free hlive with ⟨e', he', hrest, htrace, hpush, hout⟩
          cases he.symm.trans he'
          refine Or.inr ⟨_, ?_, ⟨⟨bufs, hrest, ?_, rfl⟩, h.accepted⟩⟩
          · rw [← hk]
            show 3 * bufs.length + e.live.length + e.pushing.toNat < _
            rw [hout, hpush, hlive, List.length_cons]
            omega
          · rw [← hsent]
            exact congrArg (· ++ bufs) (advance_sent_self htrace)
  | _ => exact absurd hok id

end Remains

/-- In every run as in `handed_on_stream`, when upstream has sent its EOS, downstream has freed
its buffers, and the cache is before its recording or after its migration and leaves a draining
reader nothing out of reach: whenever nothing but the loop goes on, the buffers that go downstream
get to the end of the accepted stream without a gap, and an EOS ends them. -/
theorem plays_out (h : Reach step (orderly readsOn F) (init n) f)
    (hc : f.element.cache = some c) (heos : f.element.isEos = true)
    (hres : f.element.srcresult = .ok) (hstarted : f.element.taskStarted = true)
    (hlive : f.element.live = []) (hmode : c.isRecording = false ∨ c.isRbMigrated = true)
    (hend : c.Drainable) (hp : p.FilesOk) :
    Inevitable step (alone p)
      (fun f' => Ended f' ∧ f'.accepted = f.accepted ∧ ∃ bufs first, f'.sent = f.sent ++ bufs ∧
        Reads f.accepted first (f'.sent.map Buffer.piece) f.accepted.length) f := by
  rcases delivering h Session.readsOn_transfers (fun _ _ hl => hl) hc with
    ⟨_, _, s₁, s, -, hserves, hdel, hbefore⟩
  have hreading := hdel.reading
  have hcache := hserves.has.cache
  rcases hreading.reader with ⟨L, R, T, off, hr⟩
  have hnone : NonePopped s.cache := by
    have hok := hreading.recorded.live
    rw [hserves.has.live, hlive, liveOk_nil] at hok
    exact hok
  -- what the cache delivers to a draining reader
  have hrecorder := hreading.recorded.recorder
  have hlength := hrecorder.length
  rw [hcache] at hr hnone hrecorder hlength
  rcases hr.drains hrecorder hmode hnone hend hp with ⟨fuel, bufs, hdrain, hafter⟩
  rw [Cache.drainLoop_markRemove] at hdrain
  replace hafter : Reads f.accepted s.readPos (bufs.map Buffer.piece) f.accepted.length := by
    rw [← hserves.accepted, hlength]
    exact hafter
  have hplaying : Playing p f.element bufs := by
    refine ⟨heos, hres, hstarted, c, fuel, hc, ?_⟩
    rw [hlive]
    exact hdrain
  have hends : Inevitable step (alone p)
      (fun f' => Ended f' ∧ f'.sent = f.sent ++ bufs ∧ f'.accepted = f.accepted) f :=
    .of_variant (P := Remains p (f.sent ++ bufs) f.accepted) (fun _ _ hf => hf.enabled)
      (fun _ _ _ _ hf hok hs => hf.step hok hs) ⟨⟨bufs, hplaying, rfl, rfl⟩, rfl⟩
  refine hends.imp ?_
  rintro f' ⟨hended, hsent, haccepted⟩
  refine ⟨hended, haccepted, bufs, s₁.readPos, hsent, ?_⟩
  rw [hserves.accepted] at hbefore
  rw [hsent, List.map_append]
  exact hbefore.trans hafter

/-- A slot and one byte, of which nothing has gone downstream yet. -/
theorem plays_out_slot : ∃ f : Feed 2, f.accepted.length = cacheSlotSize + 1 ∧ f.sent = [] ∧
    Inevitable step (alone .allOk)
      (fun f' => Ended f' ∧ f'.accepted = f.accepted ∧ ∃ bufs first, f'.sent = f.sent ++ bufs ∧
        Reads f.accepted first (f'.sent.map Buffer.piece) f.accepted.length) f := by
  have h₀ : Reach step (orderly readsOn fun file => file.isSome = true) (init 2) _ := .refl
  have h₁ := h₀.extend (.readyToPaused (fun _ _ => 0) (some .new)) rfl rfl
  have h₂ := h₁.extend (.srcActivate true) trivial rfl
  have h₃ := h₂.extend (.sinkActivate true) trivial rfl
  have h₄ := h₃.extend (.chain ⟨cacheSlotSize + 1, fun _ => 7⟩ .allOk)
    (by rintro c ⟨⟩ -; exact readsOn_push rfl rfl (by decide)) rfl
  have h₅ := h₄.extend (.sinkEvent .eos) trivial rfl
  refine ⟨_, ?_, rfl, plays_out h₅ rfl rfl rfl rfl rfl (Or.inl rfl) (Or.inl rfl)
    Platform.allOk_filesOk⟩
  show ([] ++ (Block.toList _).take _).length = _
  rw [List.nil_append, List.length_take, Block.length_toList]
  rfl

end Feed

end TimeShift
