import Lloms.Wire.RoundTrip
import Lloms.Wire.SeqGaps

/-! The statistics of the decoder balance. `Turn` says what one round of `next` can do
to the bytes and to the counters, and `Balanced` compares the counters with the spans of
the accepted frames in the input, the faults met and the bytes dropped. -/
namespace Lloms.Wire
open Lib

/-- Where an accepted frame lies in the input. -/
structure Span where
  start : Nat
  frame : Accepted
  bodyLen : Nat
  deriving DecidableEq, Repr

def Span.size (f : Span) : Nat := kHeaderSize + f.bodyLen

def Span.stop (f : Span) : Nat := f.start + f.size

/-- The bytes of some spans. -/
def spanned (spans : List Span) : Nat := (spans.map Span.size).sum

@[simp] theorem spanned_nil : spanned [] = 0 := rfl

@[simp] theorem spanned_concat (spans : List Span) (f : Span) :
    spanned (spans ++ [f]) = spanned spans + f.size := by
  simp [spanned]

theorem length_le_spanned (spans : List Span) : spans.length ≤ spanned spans := by
  induction spans with
  | nil => exact Nat.le_refl 0
  | cons f spans ih =>
    have hsize : 20 ≤ f.size := Nat.le_add_right 20 f.bodyLen
    simp only [spanned, List.map_cons, List.sum_cons, List.length_cons] at ih ⊢
    omega

theorem length_eq_known_add_unknown (spans : List Span) :
    spans.length = spans.countP (fun f => f.frame.known) +
      spans.countP fun f => !f.frame.known := by
  rw [List.length_eq_countP_add_countP fun f : Span => f.frame.known]
  congr 1
  exact List.countP_congr fun f _ => by simp

/-- The counter of a fault. -/
def Stats.bad (st : Stats) : Fault → UInt64
  | .magic => st.badMagic
  | .version => st.badVersion
  | .length => st.badLength
  | .checksum => st.badChecksum

theorem length_eq_counts (faults : List Fault) :
    faults.length = faults.count .magic + faults.count .version + faults.count .length +
      faults.count .checksum := by
  induction faults with
  | nil => rfl
  | cons fault faults ih => cases fault <;> simp [ih] <;> omega

/-- A frame has the length that its header declares. -/
theorem inspect_frame_declared {maxBody : Nat} {w : List UInt8} {type : Option MsgType}
    {seq : UInt64} {len : Nat} {body : List UInt8}
    (h : inspect maxBody w = .frame type seq len body) : len = kHeaderSize + declared w := by
  unfold inspect at h
  dsimp only at h
  split_ifs at h
  injection h with _ _ hlen _
  exact hlen.symm

namespace FrameDecoder

/-! ## One round -/

/-- What a round does to the bytes held and to the counters. -/
inductive Turn (d : FrameDecoder) : FrameDecoder → Option Message → Prop
  | wait (hv : inspect d.maxBody d.window = .stop) : Turn d d none
  | hunt {d' : FrameDecoder} {fault : Fault} {k : Nat}
      (hv : inspect d.maxBody d.window = .skip fault) (hpos : 1 ≤ k) (hle : k ≤ d.window.length)
      (hwin : d'.window = d.window.drop k)
      (hstats : d'.stats = { (d.countFault fault).stats with
        resyncs := d.stats.resyncs + 1
        bytesDiscarded := d.stats.bytesDiscarded + UInt64.ofNat k }) : Turn d d' none
  | frame {d' : FrameDecoder} {type : Option MsgType} {seq : UInt64} {len : Nat}
      {body : List UInt8} {out : Option Message} (gaps missing regressions : UInt64)
      (hv : inspect d.maxBody d.window = .frame type seq len body)
      (hout : out.isSome = type.isSome) (hwin : d'.window = d.window.drop len)
      (hstats : d'.stats = { d.stats with
        framesDecoded := d.stats.framesDecoded + 1
        bytesConsumed := d.stats.bytesConsumed + UInt64.ofNat len
        unknownType := d.stats.unknownType + if type.isSome then 0 else 1
        seqGaps := gaps, seqMissing := missing, seqRegressions := regressions }) : Turn d d' out

/-- A round turns the decoder, and keeps the read position inside. -/
def StepTurns (d : FrameDecoder) : Step → Prop
  | .done d' out => Turn d d' out ∧ d'.rpos ≤ d'.buf.length ∧ d'.maxBody = d.maxBody
  | .again d' => Turn d d' none ∧ d'.rpos ≤ d'.buf.length ∧ d'.maxBody = d.maxBody

theorem nextStep_turns {d : FrameDecoder} (hin : d.rpos ≤ d.buf.length) :
    StepTurns d d.nextStep := by
  have hround := d.nextStep_round
  generalize d.nextStep = r at hround ⊢
  cases hround with
  | wait hv => exact ⟨.wait hv, hin, rfl⟩
  | @hunt fault hv =>
    have hne : inspect d.maxBody d.window ≠ .stop := by simp [hv]
    have hlen : 20 ≤ d.window.length := inspect_length hne
    obtain ⟨k, hpos, hlt, -, hwin, hin', -, hmax, hstats, -⟩ :=
      resync_spec (d := d.countFault fault) hin (show 2 ≤ d.window.length by omega)
    have hresyncs : (d.countFault fault).stats.resyncs = d.stats.resyncs := by cases fault <;> rfl
    have hdiscarded : (d.countFault fault).stats.bytesDiscarded = d.stats.bytesDiscarded := by
      cases fault <;> rfl
    rw [hresyncs, hdiscarded] at hstats
    have hturn : Turn d (d.countFault fault).resync.1 none := .hunt hv hpos hlt.le hwin hstats
    unfold FrameDecoder.hunt
    cases hr : (d.countFault fault).resync with
    | mk d' found =>
      rw [hr] at hturn hin' hmax
      cases found with
      | true => exact ⟨hturn, hin', hmax⟩
      | false => exact ⟨hturn, hin', hmax⟩
  | @accept type seq len body body' hv hbody =>
    obtain ⟨-, hlen⟩ := inspect_frame hv
    obtain ⟨hwin, hin', hmax, -⟩ := consume_spec hin seq hlen
    obtain ⟨gaps, missing, regressions, hstats⟩ := consume_stats hin seq hlen
    unfold accept
    cases type with
    | none =>
      refine ⟨.frame gaps missing regressions hv rfl hwin ?_, hin', hmax⟩
      simp only [count, hstats]
      rfl
    | some ty =>
      refine ⟨.frame gaps missing regressions hv rfl hwin ?_, hin', hmax⟩
      simp only [hstats]
      simp

/-! ## The balance -/

/-- The counters of a decoder that has been fed `stream`, accepted frames at `spans`, met
`faults`, dropped `dropped` bytes and returned `n` messages. -/
structure Balanced (maxBody : Nat) (stream : List UInt8) (spans : List Span)
    (faults : List Fault) (dropped n : Nat) (d : FrameDecoder) : Prop where
  inside : d.rpos ≤ d.buf.length
  limit : d.maxBody = maxBody
  place : d.window <:+ stream
  bytes : spanned spans + dropped + d.window.length = stream.length
  searched : faults.length ≤ dropped
  consumed : d.stats.bytesConsumed = UInt64.ofNat (spanned spans)
  discarded : d.stats.bytesDiscarded = UInt64.ofNat dropped
  resyncs : d.stats.resyncs = UInt64.ofNat faults.length
  bad : ∀ fault, d.stats.bad fault = UInt64.ofNat (faults.count fault)
  decoded : d.stats.framesDecoded = UInt64.ofNat spans.length
  unknown : d.stats.unknownType = UInt64.ofNat (spans.countP fun f => !f.frame.known)
  returned : n = spans.countP fun f => f.frame.known
  framed : ∀ f ∈ spans, f.start ≤ stream.length ∧ f.bodyLen = declared (stream.drop f.start) ∧
    ∃ body, inspect maxBody (stream.drop f.start) = .frame f.frame.type f.frame.seq f.size body
  ordered : spans.Pairwise fun f g => f.stop ≤ g.start
  behind : ∀ f ∈ spans, f.stop + d.window.length ≤ stream.length

theorem balanced_new (maxBody : Nat) : Balanced maxBody [] [] [] 0 0 { maxBody } where
  inside := Nat.le_refl _
  limit := rfl
  place := List.suffix_refl _
  bytes := rfl
  searched := Nat.le_refl _
  consumed := rfl
  discarded := rfl
  resyncs := rfl
  bad := by
    intro fault
    cases fault <;> rfl
  decoded := rfl
  unknown := rfl
  returned := rfl
  framed := by simp
  ordered := .nil
  behind := by simp

section Balance

variable {maxBody : Nat} {stream : List UInt8} {spans : List Span} {faults : List Fault}
  {dropped n : Nat} {d d' : FrameDecoder} (hb : Balanced maxBody stream spans faults dropped n d)
include hb

theorem Balanced.feed (data : List UInt8) :
    Balanced maxBody (stream ++ data) spans faults dropped n (d.feed data) := by
  obtain ⟨hwin, hin, -, hmax⟩ := feed_window hb.inside data
  have hstats := (feed_throughput hb.inside data).2
  have hlen : (d.feed data).window.length = d.window.length + data.length := by
    rw [hwin, List.length_append]
  refine ⟨hin, hmax.trans hb.limit, ?_, ?_, hb.searched, hstats ▸ hb.consumed,
    hstats ▸ hb.discarded, hstats ▸ hb.resyncs, fun fault => hstats ▸ hb.bad fault,
    hstats ▸ hb.decoded, hstats ▸ hb.unknown, hb.returned, ?_, hb.ordered, ?_⟩
  · rw [hwin]
    exact List.suffix_append_self_iff.mpr hb.place
  · have := hb.bytes
    rw [hlen, List.length_append]
    omega
  · intro f hf
    obtain ⟨hstart, hbody, body, hv⟩ := hb.framed f hf
    have hdrop : (stream ++ data).drop f.start = stream.drop f.start ++ data :=
      List.drop_append_of_le_length hstart
    have hne : inspect maxBody (stream.drop f.start) ≠ .stop := by simp [hv]
    have hlong : 20 ≤ (stream.drop f.start).length := inspect_length hne
    refine ⟨by rw [List.length_append]; omega, ?_, body, ?_⟩
    · rw [hdrop, hbody, declared, declared, List.drop_append_of_le_length (by omega),
        loadBe32_append _ (by rw [List.length_drop]; omega)]
    · rw [hdrop, inspect_append data hne, hv]
  · intro f hf
    have := hb.behind f hf
    rw [hlen, List.length_append]
    omega

/-- A hunt: one more fault, and the bytes passed over. -/
theorem Balanced.hunt {fault : Fault} {k : Nat} (hin : d'.rpos ≤ d'.buf.length)
    (hmax : d'.maxBody = d.maxBody) (hpos : 1 ≤ k) (hle : k ≤ d.window.length)
    (hwin : d'.window = d.window.drop k)
    (hstats : d'.stats = { (d.countFault fault).stats with
      resyncs := d.stats.resyncs + 1
      bytesDiscarded := d.stats.bytesDiscarded + UInt64.ofNat k }) :
    Balanced maxBody stream spans (faults ++ [fault]) (dropped + k) n d' := by
  have hlen : d'.window.length + k = d.window.length := by
    rw [hwin, List.length_drop]
    omega
  have hbytes := hb.bytes
  have hsearched := hb.searched
  refine ⟨hin, hmax.trans hb.limit, ?_, by omega, ?_, ?_, ?_, ?_, ?_, ?_, ?_, hb.returned,
    hb.framed, hb.ordered, ?_⟩
  · rw [hwin]
    exact (List.drop_suffix k d.window).trans hb.place
  · rw [List.length_append, List.length_singleton]
    omega
  · rw [hstats, ← hb.consumed]
    cases fault <;> rfl
  · rw [hstats, UInt64.ofNat_add, ← hb.discarded]
  · rw [hstats, List.length_append, UInt64.ofNat_add, ← hb.resyncs]
    rfl
  · intro f
    have hf := hb.bad f
    rw [hstats, List.count_append, UInt64.ofNat_add, ← hf]
    cases fault <;> cases f <;> simp [Stats.bad, countFault, count]
  · rw [hstats, ← hb.decoded]
    cases fault <;> rfl
  · rw [hstats, ← hb.unknown]
    cases fault <;> rfl
  · intro f hf
    have := hb.behind f hf
    omega

/-- An accepted frame: it starts where the window does. -/
theorem Balanced.frame {type : Option MsgType} {seq : UInt64} {len : Nat} {body : List UInt8}
    {out : Option Message} {gaps missing regressions : UInt64} (hin : d'.rpos ≤ d'.buf.length)
    (hmax : d'.maxBody = d.maxBody) (hv : inspect d.maxBody d.window = .frame type seq len body)
    (hout : out.isSome = type.isSome) (hwin : d'.window = d.window.drop len)
    (hstats : d'.stats = { d.stats with
      framesDecoded := d.stats.framesDecoded + 1
      bytesConsumed := d.stats.bytesConsumed + UInt64.ofNat len
      unknownType := d.stats.unknownType + if type.isSome then 0 else 1
      seqGaps := gaps, seqMissing := missing, seqRegressions := regressions }) :
    Balanced maxBody stream
      (spans ++ [⟨stream.length - d.window.length, ⟨type, seq⟩, declared d.window⟩]) faults dropped
      (n + out.toList.length) d' := by
  obtain ⟨-, hle⟩ := inspect_frame hv
  have hsize := inspect_frame_declared hv
  have hlen : d'.window.length + len = d.window.length := by
    rw [hwin, List.length_drop]
    omega
  have hbytes := hb.bytes
  have hdrop : stream.drop (stream.length - d.window.length) = d.window :=
    List.suffix_iff_eq_drop.mp hb.place |>.symm
  have hnew : Span.size ⟨stream.length - d.window.length, ⟨type, seq⟩, declared d.window⟩ = len :=
    hsize.symm
  refine ⟨hin, hmax.trans hb.limit, ?_, ?_, hb.searched, ?_, ?_, ?_, ?_, ?_, ?_, ?_, ?_, ?_, ?_⟩
  · rw [hwin]
    exact (List.drop_suffix len d.window).trans hb.place
  · rw [spanned_concat, hnew]
    omega
  · rw [hstats, spanned_concat, hnew, UInt64.ofNat_add, ← hb.consumed]
  · rw [hstats]
    exact hb.discarded
  · rw [hstats]
    exact hb.resyncs
  · intro fault
    rw [hstats, ← hb.bad fault]
    cases fault <;> rfl
  · rw [hstats, List.length_append, UInt64.ofNat_add, ← hb.decoded]
    rfl
  · rw [hstats, List.countP_append, UInt64.ofNat_add, ← hb.unknown]
    cases type <;> rfl
  · rw [List.countP_append, ← hb.returned]
    cases type with
    | none =>
      obtain rfl : out = none := by simpa using hout
      rfl
    | some ty =>
      obtain ⟨m, rfl⟩ := Option.isSome_iff_exists.mp (hout.trans rfl)
      rfl
  · intro f hf
    rcases List.mem_append.mp hf with hf | hf
    · exact hb.framed f hf
    · rw [List.mem_singleton.mp hf]
      refine ⟨Nat.sub_le _ _, by rw [hdrop], body, ?_⟩
      rw [hdrop, hnew, ← hb.limit]
      exact hv
  · rw [List.pairwise_append]
    refine ⟨hb.ordered, List.pairwise_singleton _ _, fun f hf g hg => ?_⟩
    rw [List.mem_singleton.mp hg]
    have := hb.behind f hf
    dsimp only
    omega
  · intro f hf
    rcases List.mem_append.mp hf with hf | hf
    · have := hb.behind f hf
      omega
    · rw [List.mem_singleton.mp hf, Span.stop, hnew]
      dsimp only
      omega

theorem Balanced.turn {out : Option Message} (hin : d'.rpos ≤ d'.buf.length)
    (hmax : d'.maxBody = d.maxBody) (hturn : Turn d d' out) :
    ∃ spans' faults' dropped', Balanced maxBody stream spans' faults' dropped'
        (n + out.toList.length) d' ∧
      spans'.map Span.frame = spans.map Span.frame ++ d.acceptedRound := by
  unfold acceptedRound
  cases hturn with
  | wait hv =>
    rw [hv]
    exact ⟨spans, faults, dropped, hb, (List.append_nil _).symm⟩
  | hunt hv hpos hle hwin hstats =>
    rw [hv]
    exact ⟨spans, _, _, hb.hunt hin hmax hpos hle hwin hstats, (List.append_nil _).symm⟩
  | frame gaps missing regressions hv hout hwin hstats =>
    rw [hv]
    exact ⟨_, faults, dropped, hb.frame hin hmax hv hout hwin hstats, List.map_append⟩

theorem Balanced.loop (fuel : Nat) :
    ∃ spans' faults' dropped', Balanced maxBody stream spans' faults' dropped'
        (n + (nextLoop fuel d).2.toList.length) (nextLoop fuel d).1 ∧
      spans'.map Span.frame = spans.map Span.frame ++ acceptedLoop fuel d := by
  induction fuel generalizing spans faults dropped d with
  | zero => exact ⟨spans, faults, dropped, hb, (List.append_nil _).symm⟩
  | succ fuel ih =>
    have hround : StepTurns d d.nextStep := nextStep_turns hb.inside
    rw [nextLoop, acceptedLoop]
    cases hs : d.nextStep with
    | done d' out =>
      rw [hs] at hround
      obtain ⟨hturn, hin, hmax⟩ := hround
      rw [List.append_nil]
      exact hb.turn hin hmax hturn
    | again d' =>
      rw [hs] at hround
      obtain ⟨hturn, hin, hmax⟩ := hround
      obtain ⟨spans', faults', dropped', hb', hmap⟩ := hb.turn hin hmax hturn
      obtain ⟨spans'', faults'', dropped'', hb'', hmap'⟩ := ih hb'
      refine ⟨spans'', faults'', dropped'', hb'', ?_⟩
      rw [hmap', hmap, List.append_assoc]

end Balance

/-! ## Runs -/

/-- The balance after some calls. -/
def RunBalanced (maxBody : Nat) (h : List Event) (d : FrameDecoder) : Prop :=
  ∃ spans faults dropped, Balanced maxBody (fed (h.map Event.input)) spans faults dropped
      (delivered h).length d ∧
    spans.map Span.frame = acceptedIn h

theorem runBalanced_step {maxBody : Nat} {h : List Event} {d : FrameDecoder} (c : Call)
    (hr : RunBalanced maxBody h d) : RunBalanced maxBody (h ++ [event step d c]) (step d c).1 := by
  obtain ⟨spans, faults, dropped, hb, hmap⟩ := hr
  cases c with
  | feed data =>
    have hfed : fed ((h ++ [event step d (.feed data)]).map Event.input) =
        fed (h.map Event.input) ++ data := by simp [fed]
    refine ⟨spans, faults, dropped, ?_, by simp [hmap, acceptedIn]⟩
    rw [hfed, delivered_feed]
    exact hb.feed data
  | next =>
    have hfed : fed ((h ++ [event step d .next]).map Event.input) = fed (h.map Event.input) := by
      simp [fed]
    obtain ⟨spans', faults', dropped', hb', hmap'⟩ := hb.loop (d.buffered + 1)
    refine ⟨spans', faults', dropped', ?_, ?_⟩
    · rw [hfed, delivered_next, List.length_append]
      exact hb'
    · rw [hmap', hmap]
      simp [acceptedIn, accepted]

theorem runBalanced_run (maxBody : Nat) (calls : List Call) :
    RunBalanced maxBody (trace step { maxBody } calls) (exec step { maxBody } calls) :=
  history_induction step (P := fun _ _ => True) (fun _ _ c _ hr => runBalanced_step c hr) _
    ⟨[], [], 0, balanced_new maxBody, rfl⟩ calls fun _ _ => trivial

/-- The spans of the accepted frames of a run, in the bytes fed: they are frames of the
reference parse, disjoint and in order, and end before the bytes still held. -/
structure SpansOf (maxBody : Nat) (stream : List UInt8) (held : Nat) (fs : List Accepted)
    (spans : List Span) : Prop where
  frames : spans.map Span.frame = fs
  framed : ∀ f ∈ spans, f.bodyLen = declared (stream.drop f.start) ∧
    ∃ body, inspect maxBody (stream.drop f.start) = .frame f.frame.type f.frame.seq f.size body
  ordered : spans.Pairwise fun f g => f.stop ≤ g.start
  inside : ∀ f ∈ spans, f.stop + held ≤ stream.length

section Totals

variable {maxBody : Nat} {stream : List UInt8} {spans : List Span} {faults : List Fault}
  {dropped n : Nat} {d : FrameDecoder} (hb : Balanced maxBody stream spans faults dropped n d)
include hb

theorem Balanced.fed_eq :
    UInt64.ofNat stream.length =
      d.stats.bytesConsumed + d.stats.bytesDiscarded + UInt64.ofNat d.buffered := by
  rw [hb.consumed, hb.discarded, ← length_window, ← UInt64.ofNat_add, ← UInt64.ofNat_add, hb.bytes]

theorem Balanced.resyncs_eq :
    d.stats.resyncs =
      d.stats.badMagic + d.stats.badVersion + d.stats.badLength + d.stats.badChecksum := by
  have hmagic := hb.bad .magic
  have hversion := hb.bad .version
  have hlength := hb.bad .length
  have hchecksum := hb.bad .checksum
  simp only [Stats.bad] at hmagic hversion hlength hchecksum
  rw [hb.resyncs, hmagic, hversion, hlength, hchecksum, ← UInt64.ofNat_add, ← UInt64.ofNat_add,
    ← UInt64.ofNat_add, ← length_eq_counts]

theorem Balanced.decoded_eq :
    d.stats.framesDecoded = UInt64.ofNat n + d.stats.unknownType := by
  rw [hb.decoded, hb.unknown, hb.returned, ← UInt64.ofNat_add]
  rw [length_eq_known_add_unknown]

/-- As long as the bytes fed can be counted, nothing in the balance wraps. -/
theorem Balanced.exact (hfed : stream.length < 2 ^ 64) :
    d.stats.bytesConsumed.toNat + d.stats.bytesDiscarded.toNat + d.buffered = stream.length ∧
    d.stats.resyncs.toNat = d.stats.badMagic.toNat + d.stats.badVersion.toNat +
      d.stats.badLength.toNat + d.stats.badChecksum.toNat ∧
    d.stats.framesDecoded.toNat = n + d.stats.unknownType.toNat ∧
    d.stats.bytesConsumed.toNat = spanned spans := by
  have hbytes := hb.bytes
  have hsearched := hb.searched
  have hspans := length_le_spanned spans
  have hcounts := length_eq_counts faults
  have hparts := length_eq_known_add_unknown spans
  have hmagic := hb.bad .magic
  have hversion := hb.bad .version
  have hlength := hb.bad .length
  have hchecksum := hb.bad .checksum
  simp only [Stats.bad] at hmagic hversion hlength hchecksum
  rw [hb.consumed, hb.discarded, hb.resyncs, hb.decoded, hb.unknown, hmagic, hversion, hlength,
    hchecksum, ← length_window, hb.returned]
  simp only [UInt64.toNat_ofNat']
  omega

end Totals

/-- **The statistics balance**, after any calls since construction or `reset`. Bytes fed
are consumed, discarded or still held; every search has one cause; a decoded frame was
delivered or of an unknown type; and the bytes consumed are those of the accepted frames,
whose spans in the input are disjoint and in order. In the 64 bits of the counters this
always holds, and as an equation of integers for as long as the bytes fed can be counted. -/
theorem statistics_balance {maxBody : Nat} {start : FrameDecoder} (hstart : Fresh maxBody start)
    (calls : List Call) :
    let h := trace step start calls
    let d := exec step start calls
    ∃ spans, SpansOf maxBody (fed calls) d.buffered (acceptedIn h) spans ∧
      (UInt64.ofNat (fed calls).length =
          d.stats.bytesConsumed + d.stats.bytesDiscarded + UInt64.ofNat d.buffered ∧
        d.stats.resyncs =
          d.stats.badMagic + d.stats.badVersion + d.stats.badLength + d.stats.badChecksum ∧
        d.stats.framesDecoded = UInt64.ofNat (delivered h).length + d.stats.unknownType ∧
        d.stats.bytesConsumed = UInt64.ofNat (spanned spans)) ∧
      ((fed calls).length < 2 ^ 64 →
        d.stats.bytesConsumed.toNat + d.stats.bytesDiscarded.toNat + d.buffered =
          (fed calls).length ∧
        d.stats.resyncs.toNat = d.stats.badMagic.toNat + d.stats.badVersion.toNat +
          d.stats.badLength.toNat + d.stats.badChecksum.toNat ∧
        d.stats.framesDecoded.toNat = (delivered h).length + d.stats.unknownType.toNat ∧
        d.stats.bytesConsumed.toNat = spanned spans) := by
  obtain rfl := hstart.eq
  intro h d
  obtain ⟨spans, faults, dropped, hb, hframes⟩ := runBalanced_run maxBody calls
  rw [trace_inputs] at hb
  refine ⟨spans, ⟨hframes, fun f hf => (hb.framed f hf).2, hb.ordered, ?_⟩,
    ⟨hb.fed_eq, hb.resyncs_eq, hb.decoded_eq, hb.consumed⟩, hb.exact⟩
  intro f hf
  rw [← length_window]
  exact hb.behind f hf

/-- Garbage, a heartbeat, and a frame of an unknown type that is not all there yet. -/
def garbageThenFrames : List Call :=
  [.feed (List.replicate 30 7 ++ bareFrame 0 1), .next, .next, .feed (bareFrame 77 2 ++ [0x4b]), .next]

theorem statistics_balance_garbage :
    (exec step {} garbageThenFrames).stats.bytesDiscarded = 30 ∧
    (exec step {} garbageThenFrames).stats.bytesConsumed.toNat + 30 +
      (exec step {} garbageThenFrames).buffered = (fed garbageThenFrames).length ∧
    (exec step {} garbageThenFrames).stats.framesDecoded.toNat =
      (delivered (trace step {} garbageThenFrames)).length +
        (exec step {} garbageThenFrames).stats.unknownType.toNat := by
  obtain ⟨spans, -, -, hexact⟩ := statistics_balance (.inl rfl : Fresh 65536 {}) garbageThenFrames
  obtain ⟨hbytes, -, hdecoded, -⟩ := hexact (by decide)
  have hdiscarded : (exec step {} garbageThenFrames).stats.bytesDiscarded = 30 := by decide
  refine ⟨hdiscarded, ?_, hdecoded⟩
  rw [hdiscarded] at hbytes
  exact hbytes

end FrameDecoder

end Lloms.Wire
