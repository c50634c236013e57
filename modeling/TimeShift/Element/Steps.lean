import TimeShift.Lib.Machine
import TimeShift.Element.Loop

/-!
# The steps of the element

`StepCase` lists what a step can do, with the cache it works on and the calls that
have succeeded. Every invariant of the element is a case analysis on it.
-/

set_option linter.unusedSectionVars false

namespace TimeShift

open Bytes Machine Cache

namespace FluTSBase

variable {n : ℕ} [NeZero n] {s s' : FluTSBase n}

/-- The outcomes of a step. Where `gst_flutsbase_handle_seek` and the loop give up a lock,
the two halves are steps of their own. -/
inductive StepCase (s : FluTSBase n) : ElementOp n → FluTSBase n → Prop
  | readyToPaused (memory : Fin n → ℕ → UInt8) (file : Option File) :
      StepCase s (.readyToPaused memory file) (s.readyToPaused memory file)
  | pausedToReady : StepCase s .pausedToReady s.stop
  | sinkActivate (active : Bool) : StepCase s (.sinkActivate active) (s.sinkActivate active)
  | srcActivate (active : Bool) : StepCase s (.srcActivate active) (s.srcActivate active)
  | setRecordingRemove (value : Bool) :
      StepCase s (.setRecordingRemove value) (s.setRecordingRemove value)
  -- `gst_flutsbase_push` refuses data after an error, an EOS or an EOS from downstream
  | chainRefused (data : Block UInt8) (p : Platform) : StepCase s (.chain data p) s
  -- the data goes to the cache; the message that the recording has started may be posted
  | chain (data : Block UInt8) (p : Platform) (c : Cache n) (posted : List Message)
      (started : Bool) : s.cache = some c →
      StepCase s (.chain data p)
        { s with cache := some (c.push data p), posted := posted, recordingStarted := started }
  | sinkEvent (e : SinkEvent n) : StepCase s (.sinkEvent e) (s.sinkEvent e).1
  | startRecording (p : Platform) (c : Cache n) : s.cache = some c →
      StepCase s (.startRecording p) { s with cache := some (c.startRecording p).1 }
  -- a seek without a flush, or to an offset that the cache does not have
  | seekRefused (e : SeekEvent) : StepCase s (.seek e) s
  -- downstream is flushed; the cache is moved once the loop has paused
  | seek (e : SeekEvent) (c : Cache n) (offset : ℕ) : s.cache = some c →
      seekOffset c e = some offset → StepCase s (.seek e) (s.seekStarted offset)
  | resumeSeek (p : Platform) (c c' : Cache n) (offset : ℕ) : s.cache = some c →
      s.seeking = some offset → c.seek offset p = some c' →
      StepCase s (.resumeSeek p) (s.seekDone c')
  -- the loop pauses before it looks at the cache
  | loopFlushing (calls : PopCalls) : StepCase s (.loop calls) (s.finish s.srcresult)
  -- the iteration ends in the middle of `gst_flutsbase_pop`, as the lock is given up for
  -- `gst_pad_push`
  | loopPushing (calls : PopCalls) (c : Cache n) (t : FluTSBase n) : s.cache = some c →
      s.srcresult = .ok → PopCase s c calls (t, none) → StepCase s (.loop calls) t
  -- nothing is pushed: the end of the stream, no item, or a buffer that got no further
  | loopEnded (calls : PopCalls) (c : Cache n) (t : FluTSBase n) (ret : FlowReturn) :
      s.cache = some c → PopCase s c calls (t, some ret) →
      StepCase s (.loop calls) (t.finish ret)
  -- downstream has answered, and the loop goes on or pauses
  | pushed (ret ret' : FlowReturn) (p : ℕ → Platform) :
      StepCase s (.pushed ret p) ({ s with pushing := false }.finish ret')
  -- downstream has answered EOS: what the cache still has is popped and dropped
  | dropped (ret : FlowReturn) (p : ℕ → Platform) (c c' : Cache n) (bs : List (Buffer n)) :
      s.cache = some c → dropLoop s.isEos p (dropFuel c) c = some (c', bs) →
      StepCase s (.pushed ret p) ({ s with
        pushing := false
        cache := some c'
        popped := s.popped ++ bs
        unreffed := s.unreffed ++ bs
        unexpected := true }.finish .ok)
  | free (k : ℕ) (c : Cache n) (b : Buffer n) : s.cache = some c → s.live[k]? = some b →
      StepCase s (.free k)
        { s with cache := some (c.release b.slot), live := s.live.eraseIdx k }
  | migrate (p : Platform) (c : Cache n) : s.cache = some c →
      StepCase s (.migrate p) { s with cache := some (c.migrationThread p) }

/-- Each step of the model has one of these outcomes. -/
theorem step_case {l : ElementOp n} (h : s.step l = some s') : StepCase s l s' := by
  cases l with
  | readyToPaused memory file =>
      cases h
      exact .readyToPaused memory file
  | pausedToReady =>
      rw [step] at h
      split at h
      · cases h
      · cases h
        exact .pausedToReady
  | sinkActivate active =>
      cases h
      exact .sinkActivate active
  | srcActivate active =>
      cases h
      exact .srcActivate active
  | setRecordingRemove value =>
      cases h
      exact .setRecordingRemove value
  | chain data p =>
      rcases Option.map_eq_some_iff.mp h with ⟨c, hc, rfl⟩
      unfold push
      -- the result of the sink pad, the EOS and `unexpected`, in the order of the source
      split
      · exact .chainRefused data p
      split
      · exact .chainRefused data p
      split
      · exact .chainRefused data p
      dsimp only
      split
      · exact .chain data p c _ _ hc
      · exact .chain data p c _ _ hc
  | sinkEvent e =>
      cases h
      exact .sinkEvent e
  | startRecording p =>
      rcases Option.map_eq_some_iff.mp h with ⟨c, hc, rfl⟩
      exact .startRecording p c hc
  | seek e =>
      rw [step] at h
      split at h
      · cases h
      · rcases Option.map_eq_some_iff.mp h with ⟨c, hc, rfl⟩
        unfold handleSeek
        split
        · exact .seekRefused e
        · rename_i offset hoffset
          exact .seek e c offset hc hoffset
  | resumeSeek p =>
      rw [step] at h
      split at h
      · cases h
      · rcases Option.bind_eq_some_iff.mp h with ⟨c, hc, h⟩
        rcases Option.bind_eq_some_iff.mp h with ⟨offset, hoffset, h⟩
        rcases Option.map_eq_some_iff.mp h with ⟨c', hc', rfl⟩
        exact .resumeSeek p c c' offset hc hoffset hc'
  | loop calls =>
      rw [step] at h
      split at h
      · cases h
      · rcases Option.bind_eq_some_iff.mp h with ⟨c, hc, h⟩
        rcases loop_cases h with ⟨-, rfl⟩ | ⟨hres, hpop⟩ | ⟨t, ret, hpop, rfl⟩
        · exact .loopFlushing calls
        · exact .loopPushing calls c s' hc hres hpop
        · exact .loopEnded calls c t ret hc hpop
  | pushed ret p =>
      rw [step] at h
      split at h
      · cases h
      · rcases Option.bind_eq_some_iff.mp h with ⟨c, hc, h⟩
        rcases pushed_cases h with ⟨ret', rfl⟩ | ⟨c', bs, hdrop, rfl⟩
        · exact .pushed ret ret' p
        · exact .dropped ret p c c' bs hc hdrop
  | free k =>
      rcases Option.bind_eq_some_iff.mp h with ⟨c, hc, h⟩
      rcases Option.map_eq_some_iff.mp h with ⟨b, hb, rfl⟩
      exact .free k c b hc hb
  | migrate p =>
      rcases Option.map_eq_some_iff.mp h with ⟨c, hc, rfl⟩
      exact .migrate p c hc

end FluTSBase

end TimeShift
