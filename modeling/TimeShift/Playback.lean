import TimeShift.Bin
import TimeShift.TransportStream

/-!
# What an offset of the index leads to

The index knows the offsets that the indexer counts, and the seeks go to offsets in the
stream of a cache. The two streams are the same as long as nothing is lost between the
indexer and the time shifter (`Whole`). Then the packet whose reference an association was
made of is found downstream, as far behind the offset of the first buffer as the association
says (`references_arrive`), and a seek to a time leads to such a packet
(`time_seek_plays`).
-/

set_option linter.unusedSectionVars false

namespace TimeShift

open Bytes Machine Cache

/-! ## A packet in the bytes that were sent -/

/-- The packet of an association is in any pieces of the stream that cover it. -/
theorem Sound.in_pieces {stream σ : List UInt8} {first : ℕ} {x : Added}
    (h : Sound stream first x) (hpart : σ <+: stream) {p q : ℕ} {pieces : List (Piece UInt8)}
    (hreads : Reads σ p pieces q) (hlow : p ≤ x.association.offset)
    (hhigh : x.association.offset + 188 ≤ p + (pieces.flatMap Piece.bytes).length) :
    ∃ pcr, CarriesPcr (streamFrom (pieces.flatMap Piece.bytes) (x.association.offset - p)) x.pid
        pcr ∧
      x.association.time = guint64 ((mpegtimeToGsttime pcr : ℤ) - mpegtimeToGsttime first) := by
  rcases h.packet with ⟨pcr, hcarries, htime⟩
  refine ⟨pcr, hcarries.congr ?_, htime⟩
  intro i hi
  rw [hreads.flatMap_bytes] at hhigh ⊢
  rcases hpart with ⟨rest, rfl⟩
  rw [List.length_take, List.length_drop] at hhigh
  show ((σ.drop p).take (q - p)).getD (x.association.offset - p + i) 0 =
    (σ ++ rest).getD (x.association.offset + i) 0
  rw [List.getD_eq_getElem?_getD, List.getD_eq_getElem?_getD,
    List.getElem?_take_of_lt (by omega), List.getElem?_drop,
    List.getElem?_append_left (by omega)]
  congr 2
  omega

namespace Feed

variable {n : ℕ} [NeZero n] {f f' : Feed n} {l : ElementOp n}

/-- The bytes that have gone downstream since the last seek. -/
def sentBytes (f : Feed n) : List UInt8 := (f.sent.map Buffer.piece).flatMap Piece.bytes

/-- The data of a step. -/
def given : ElementOp n → List UInt8
  | .chain data _ => data.toList
  | _ => []

theorem step_renews (hs : f.step l = some f') (hl : renews l = true) : f'.pushed = [] := by
  rcases Option.map_eq_some_iff.mp hs with ⟨e, -, rfl⟩
  cases l with
  | readyToPaused memory file => rfl
  | sinkEvent e' =>
      cases e' with
      | flushStop memory file => rfl
      | _ => cases hl
  | _ => cases hl

/-- A step that does not make a new cache adds its data to the stream, if the element
accepts it. -/
theorem step_pushed (hs : f.step l = some f') (hl : renews l = false)
    (haccepts : given l ≠ [] → f.element.Accepts) : f'.pushed = f.pushed ++ given l := by
  rcases Option.map_eq_some_iff.mp hs with ⟨e, -, rfl⟩
  have hnil : f.pushed = f.pushed ++ [] := (List.append_nil _).symm
  cases l with
  | readyToPaused memory file => cases hl
  | sinkEvent e' =>
      cases e' with
      | flushStop memory file => cases hl
      | _ => exact hnil
  | chain data p =>
      dsimp only
      split
      · rfl
      · rename_i hrefused
        have hempty : given (.chain data p : ElementOp n) = [] := by
          by_contra hdata
          exact hrefused (haccepts hdata)
        rw [hempty, List.append_nil]
  | pushed ret p =>
      dsimp only
      split <;> exact hnil
  | _ => exact hnil

end Feed

namespace FluMPEGShifterBin

variable {n : ℕ} [NeZero n] {s s' : FluMPEGShifterBin n} {ok : Cache n → Label → Prop}
  {F : Option File → Prop}

/-- Nothing gets lost behind the indexer: its buffers come to an element that accepts them,
and a new cache is made before the first one. The buffers are clear (`Indexing.clear`). -/
def lossless (s : FluMPEGShifterBin n) : BinOp n → Prop
  | .data data => Indexing.clear s.indexing (.buffer data)
  | .enter _ => s.feed.element.Accepts
  | .drop => False
  | .shifter l => Feed.renews l = true → s.indexing.received = []
  | _ => True

/-- The time shifter has got, or is about to get, what the indexer has seen. -/
structure Whole (s : FluMPEGShifterBin n) : Prop where
  grounded : s.indexing.Grounded
  received : s.indexing.received = s.feed.pushed ++ s.carried.elim [] Block.toList

namespace Whole

theorem of_init : Whole (init n) where
  grounded := .of_init
  received := rfl

/-- A step of the time shifter. -/
theorem shift (h : Whole s) {l : ElementOp n} {feed : Feed n} (hs : s.feed.step l = some feed)
    (hl : Feed.renews l = true → s.indexing.received = [])
    (haccepts : Feed.given l ≠ [] → s.feed.element.Accepts)
    (hindexing : s'.indexing = s.indexing) (hfeed : s'.feed = feed)
    (hcarried : Feed.given l ++ s'.carried.elim [] Block.toList = s.carried.elim [] Block.toList) :
    Whole s' := by
  refine ⟨by rw [hindexing]; exact h.grounded, ?_⟩
  rw [hindexing, hfeed]
  cases hrenews : Feed.renews l with
  | true =>
      -- nothing has come yet
      have hnone := hl hrenews
      have hempty := h.received
      rw [hnone, eq_comm, List.append_eq_nil_iff, ← hcarried, List.append_eq_nil_iff] at hempty
      rw [hnone, Feed.step_renews hs hrenews, hempty.2.2]
      rfl
  | false =>
      rw [Feed.step_pushed hs hrenews haccepts, List.append_assoc, hcarried]
      exact h.received

theorem step (h : Whole s) {l : BinOp n} (hl : s.lossless l) (hs : s.step l = some s') :
    Whole s' := by
  cases step_case hs with
  | data data i hidle hi =>
      have hreceived := h.received
      rcases Indexing.step_buffer hi with ⟨-, -, hgot, -, -⟩
      refine ⟨h.grounded.step (l := .buffer data) hl hi, ?_⟩
      rw [hidle, Option.elim_none, List.append_nil] at hreceived
      rw [hgot, hreceived, Option.elim_some]
  | enter p data feed hdata hfeed =>
      refine h.shift hfeed (fun habs => absurd habs Bool.false_ne_true) (fun _ => hl) rfl rfl ?_
      rw [hdata, Option.elim_none, Option.elim_some, List.append_nil]
      rfl
  | drop => cases hl
  | shifter l feed hown hresume hfeed =>
      have hnone : Feed.given l = [] := by
        cases l with
        | chain data p => cases hown
        | _ => rfl
      refine h.shift hfeed hl (fun habs => absurd hnone habs) rfl rfl ?_
      rw [hnone, List.nil_append]
      rfl
  | resume p feed hfeed => exact h.shift hfeed hl (fun habs => absurd rfl habs) rfl rfl rfl
  | arrive refused o rest hcoming => exact ⟨h.grounded, h.received⟩
  | seek e => exact ⟨h.grounded, h.received⟩
  | ask k r feed hr hfeed =>
      exact h.shift hfeed (fun habs => absurd habs Bool.false_ne_true)
        (fun habs => absurd rfl habs) rfl rfl rfl
  | pmt pcrPid i hi =>
      have hgrounded := h.grounded.step (l := .setPcrPid pcrPid) trivial hi
      cases hi
      exact ⟨hgrounded, h.received⟩

/-- What holds in every state reached. -/
theorem of_reach
    (h : Reach FluMPEGShifterBin.step (fun s l => s.orderly ok F l ∧ s.lossless l) (init n) s) :
    Whole s :=
  h.invariant .of_init fun _ _ _ hinv hl hs => hinv.step hl.2 hs

/-- The packets of the associations are in the bytes that downstream has got. -/
theorem arrives (h : Whole s)
    (hfeed : Reach Feed.step (Feed.orderly ok fun file => file.isSome = true) (Feed.init n) s.feed)
    (hok : Session.Transfers ok) (hreads : ∀ c l, ok c l → c.readsOn l) {c : Cache n}
    (hc : s.feed.element.cache = some c) {b : Buffer n} (hb : s.feed.sent.head? = some b)
    {x : Added} (hx : x ∈ s.indexing.added) (hlow : b.offset ≤ x.association.offset)
    (hhigh : x.association.offset + 188 ≤ b.offset + s.feed.sentBytes.length) :
    ∃ first pcr, s.indexing.first = some first ∧
      CarriesPcr (streamFrom s.feed.sentBytes (x.association.offset - b.offset)) x.pid pcr ∧
      x.association.time = guint64 ((mpegtimeToGsttime pcr : ℤ) - mpegtimeToGsttime first) := by
  rcases Feed.delivering hfeed hok hreads hc with
    ⟨_, file, s₁, s₂, hfile, hserves, hdel, hpieces⟩
  rcases h.grounded.sound x hx with ⟨first, hfirst, hsound⟩
  -- the file has taken whatever has been pushed
  have hall : s₂.accepted = s.feed.pushed := by
    rw [← hserves.pushed]
    exact hdel.reading.recorded.stream hfile
  have hpart : s₂.accepted <+: s.indexing.received := by
    rw [hall, h.received]
    exact List.prefix_append _ _
  have hstart : s₁.readPos = b.offset := by
    rcases List.head?_eq_some_iff.mp hb with ⟨rest, hsent⟩
    rw [hsent, List.map_cons] at hpieces
    exact hpieces.1.symm
  rw [hstart] at hpieces
  rcases hsound.in_pieces hpart hpieces hlow hhigh with ⟨pcr, hcarries, htime⟩
  exact ⟨first, pcr, hfirst, hcarries, htime⟩

end Whole

/-- In every run of the bin in which nothing gets lost behind the indexer, with orderly steps
of the time shifter, a file that works and cache calls that keep the slots in order and the
reader in its place: whenever downstream has got, since the last seek, the bytes that an
association of the index speaks of, it finds there a packet on the PID of the association
with a reference, and the time of the association is that of the reference, counted from the
first one that the indexer has seen. -/
theorem references_arrive
    (h : Reach step (fun s l => s.orderly readsOn (fun file => file.isSome = true) l ∧
      s.lossless l) (init n) s) {c : Cache n} (hc : s.feed.element.cache = some c) {b : Buffer n}
    (hb : s.feed.sent.head? = some b) : ∀ x ∈ s.indexing.added,
      b.offset ≤ x.association.offset →
      x.association.offset + 188 ≤ b.offset + s.feed.sentBytes.length →
      ∃ first pcr, s.indexing.first = some first ∧
        CarriesPcr (streamFrom s.feed.sentBytes (x.association.offset - b.offset)) x.pid pcr ∧
        x.association.time = guint64 ((mpegtimeToGsttime pcr : ℤ) - mpegtimeToGsttime first) := by
  have hrunning := Running.of_reach (h.imp fun _ _ hl => hl.1) Session.readsOn_transfers
    fun _ _ hl => hl
  intro x hx hlow hhigh
  exact (Whole.of_reach h).arrives hrunning.feed Session.readsOn_transfers (fun _ _ hl => hl) hc hb
    hx hlow hhigh

/-- Two packets have come one after the other, and have been sent in one buffer. The second
one is where the index says. -/
theorem references_arrive_packet : ∃ (s : FluMPEGShifterBin 2) (first pcr : ℕ),
    Reach step (fun s l => s.orderly readsOn (fun file => file.isSome = true) l ∧ s.lossless l)
      (init 2) s ∧ s.associations = [⟨0, 0⟩, ⟨372827022222, 188⟩] ∧
      s.indexing.first = some first ∧
      CarriesPcr (streamFrom s.feed.sentBytes 188) 0x100 pcr ∧
      372827022222 = guint64 ((mpegtimeToGsttime pcr : ℤ) - mpegtimeToGsttime first) := by
  have h₀ : Reach step (fun s l => s.orderly readsOn (fun file => file.isSome = true) l ∧
    s.lossless l) (init 2) _ := .refl
  have h₁ := h₀.extend (.shifter (.readyToPaused (fun _ _ => 0) (some .new)))
    ⟨rfl, fun _ => rfl⟩ rfl
  have h₂ := h₁.extend (.shifter (.srcActivate true)) ⟨trivial, fun habs => nomatch habs⟩ rfl
  have h₃ := h₂.extend (.shifter (.sinkActivate true)) ⟨trivial, fun habs => nomatch habs⟩ rfl
  have h₄ := h₃.extend (.pmt 0x100) ⟨trivial, trivial⟩ rfl
  have h₅ := h₄.extend (.data (Indexing.referencePacket 1))
    ⟨trivial, Indexing.referencePacket_clear _ 1⟩ rfl
  have h₆ := h₅.extend (.enter .allOk)
    ⟨by rintro _ ⟨⟩ c ⟨⟩ -; exact readsOn_push rfl rfl (by decide), rfl, rfl, rfl⟩ rfl
  have h₇ := h₆.extend (.data (Indexing.referencePacket 2))
    ⟨trivial, Indexing.referencePacket_clear _ 2⟩ rfl
  have h₈ := h₇.extend (.enter .allOk)
    ⟨by rintro _ ⟨⟩ c ⟨⟩ -; exact readsOn_push rfl rfl (by decide), rfl, rfl, rfl⟩ rfl
  have h₉ := h₈.extend (.shifter (.sinkEvent .eos)) ⟨trivial, fun habs => nomatch habs⟩ rfl
  have h₁₀ := h₉.extend (.shifter (.loop .allOk))
    ⟨⟨⟨Or.inl rfl, Or.inr rfl⟩, by rintro c ⟨⟩ -; exact readsOn_pop rfl true⟩,
      fun habs => nomatch habs⟩ rfl
  rcases references_arrive h₁₀ rfl rfl ⟨⟨372827022222, 188⟩, 0x100⟩
    (List.mem_cons_of_mem _ List.mem_cons_self) (Nat.zero_le _) (by decide +kernel) with
    ⟨first, pcr, hfirst, hcarries, htime⟩
  exact ⟨_, first, pcr, h₁₀, rfl, hfirst, hcarries, htime⟩

/-- In every such run whose seeks go to offsets that the cache still has: a seek to a time
leads downstream to a packet with a reference from that time or before. What is sent from
the seek on starts at this packet or before it, and contains it once it is long enough. -/
theorem time_seek_plays
    (h : Reach step (fun s l => s.orderly seeksWithin (fun file => file.isSome = true) l ∧
      s.lossless l) (init n) s) (hsize : s.indexing.ts.currentOffset < 2 ^ 63) {c : Cache n}
    (hc : s.feed.element.cache = some c) {t : ℕ} (ht : s.landed = some t) :
    s.feed.sent = [] ∨ ∃ b, s.feed.sent.head? = some b ∧ ∃ x ∈ s.indexing.added,
      x.association.time ≤ t ∧ b.offset ≤ x.association.offset ∧
      (x.association.offset + 188 ≤ b.offset + s.feed.sentBytes.length →
        ∃ first pcr, s.indexing.first = some first ∧
          CarriesPcr (streamFrom s.feed.sentBytes (x.association.offset - b.offset)) x.pid pcr ∧
          x.association.time =
            guint64 ((mpegtimeToGsttime pcr : ℤ) - mpegtimeToGsttime first)) := by
  have hrun := h.imp fun _ _ hl => hl.1
  have hreads : ∀ (c : Cache n) l, seeksWithin c l → c.readsOn l := fun _ _ hl => hl.1
  have hrunning := Running.of_reach hrun Session.seeksWithin_transfers hreads
  have hconverting := Converting.of_reach hrun Session.seeksWithin_transfers hreads hsize
  rcases hconverting.landed t ht with ⟨o, ⟨a, ha, hat, rfl⟩, ho⟩
  cases hb : s.feed.sent.head? with
  | none => exact Or.inl (List.head?_eq_none_iff.mp hb)
  | some b =>
      right
      have hle := Feed.first_sent_le hrunning.feed hc ho hb
      rcases List.mem_map.mp ha with ⟨x, hx, rfl⟩
      exact ⟨b, rfl, x, hx, hat, hle, (Whole.of_reach h).arrives hrunning.feed
        Session.seeksWithin_transfers hreads hc hb hx hle⟩

/-- The PID is named after the first packet, so the reference in the second one is the first
to be seen. A seek back to its time, from its end, goes to the start of the slot, and the
packet is found 188 bytes on. -/
theorem time_seek_plays_packet : ∃ (s : FluMPEGShifterBin 2) (b : Buffer 2) (first pcr : ℕ),
    Reach step (fun s l => s.orderly seeksWithin (fun file => file.isSome = true) l ∧
      s.lossless l) (init 2) s ∧ s.landed = some 5 ∧ s.associations = [⟨0, 188⟩] ∧
      s.feed.sent = [b] ∧ b.offset = 0 ∧ s.indexing.first = some first ∧
      CarriesPcr (streamFrom s.feed.sentBytes 188) 0x100 pcr ∧
      0 = guint64 ((mpegtimeToGsttime pcr : ℤ) - mpegtimeToGsttime first) := by
  have h₀ : Reach step (fun s l => s.orderly seeksWithin (fun file => file.isSome = true) l ∧
    s.lossless l) (init 2) _ := .refl
  have h₁ := h₀.extend (.shifter (.readyToPaused (fun _ _ => 0) (some .new)))
    ⟨rfl, fun _ => rfl⟩ rfl
  have h₂ := h₁.extend (.shifter (.srcActivate true)) ⟨trivial, fun habs => nomatch habs⟩ rfl
  have h₃ := h₂.extend (.shifter (.sinkActivate true)) ⟨trivial, fun habs => nomatch habs⟩ rfl
  have h₄ := h₃.extend (.pmt 0x200) ⟨trivial, trivial⟩ rfl
  have h₅ := h₄.extend (.data (Indexing.referencePacket 1))
    ⟨trivial, Indexing.referencePacket_clear _ 1⟩ rfl
  have h₆ := h₅.extend (.enter .allOk) ⟨by
    rintro _ ⟨⟩ c ⟨⟩ -
    exact ⟨readsOn_push rfl rfl (by decide), fun _ habs => nomatch habs⟩, rfl, rfl, rfl⟩ rfl
  have h₇ := h₆.extend (.pmt 0x100) ⟨trivial, trivial⟩ rfl
  have h₈ := h₇.extend (.data (Indexing.referencePacket 2))
    ⟨trivial, Indexing.referencePacket_clear _ 2⟩ rfl
  have h₉ := h₈.extend (.enter .allOk) ⟨by
    rintro _ ⟨⟩ c ⟨⟩ -
    exact ⟨readsOn_push rfl rfl (by decide), fun _ habs => nomatch habs⟩, rfl, rfl, rfl⟩ rfl
  have h₁₀ := h₉.extend (.shifter (.sinkEvent .eos)) ⟨trivial, fun habs => nomatch habs⟩ rfl
  have h₁₁ := h₁₀.extend (.shifter (.loop .allOk)) ⟨⟨⟨Or.inl rfl, Or.inr rfl⟩, by
    rintro c ⟨⟩ -
    exact ⟨readsOn_pop rfl true, fun _ habs => nomatch habs⟩⟩, fun habs => nomatch habs⟩ rfl
  have h₁₂ := h₁₁.extend (.shifter (.pushed .ok fun _ => .allOk))
    ⟨fun _ _ _ habs => (nomatch habs), fun habs => nomatch habs⟩ rfl
  have h₁₃ := h₁₂.extend (.shifter (.free 0)) ⟨trivial, fun habs => nomatch habs⟩ rfl
  have h₁₄ := h₁₃.extend (.seek ⟨⟨true, .time, .set, 5⟩, 1, .none, 0⟩) ⟨trivial, trivial⟩ rfl
  have h₁₅ := h₁₄.extend (.ask 0) ⟨trivial, trivial⟩ rfl
  have h₁₆ := h₁₅.extend (.shifter (.resumeSeek .allOk)) ⟨⟨rfl, by
    rintro c offset ⟨⟩ ⟨⟩
    refine ⟨⟨Platform.allOk_filesOk, trivial, fun _ _ habs => (nomatch habs),
      fun habs => (nomatch habs)⟩, ?_⟩
    rintro o ⟨⟩
    rfl⟩, fun habs => nomatch habs⟩ rfl
  have h₁₇ := h₁₆.extend (.shifter (.loop .allOk)) ⟨⟨⟨Or.inl rfl, Or.inr rfl⟩, by
    rintro c ⟨⟩ -
    exact ⟨readsOn_pop rfl false, fun _ habs => nomatch habs⟩⟩, fun habs => nomatch habs⟩ rfl
  rcases time_seek_plays h₁₇ (by decide) rfl rfl with habs | ⟨b, hb, x, hx, -, -, hplays⟩
  · cases habs
  · cases hb
    have hx' : x ∈ [(⟨⟨0, 188⟩, 0x100⟩ : Added)] := hx
    cases List.mem_singleton.mp hx'
    rcases hplays (by decide +kernel) with ⟨first, pcr, hfirst, hcarries, hreference⟩
    exact ⟨_, _, first, pcr, h₁₇, rfl, rfl, rfl, rfl, hfirst, hcarries, hreference⟩

end FluMPEGShifterBin

end TimeShift
