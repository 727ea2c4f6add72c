import Lloms.Wire.Chunking

/-! The memory the decoder holds on to. `compact` leaves either no dead prefix or a
small one, every way out of a call goes through it or changes nothing, and what
`next` waits for is at most one frame. -/
namespace Lloms.Wire

/-- A parse waits only for the rest of a frame of legal size. -/
theorem length_lt_of_stop {maxBody : Nat} {w : List UInt8} (h : inspect maxBody w = .stop) :
    w.length < kHeaderSize + maxBody := by
  unfold inspect at h
  dsimp only at h
  split_ifs at h with hshort _ _ hsize hpart
  · omega
  · rw [not_or] at hsize
    omega

namespace FrameDecoder
open Lib

/-- The bytes in front of the read position are few, or none. -/
def Compacted (d : FrameDecoder) : Prop :=
  d.rpos = 0 ∨ d.rpos < 4096 ∧ 2 * d.rpos < d.buf.length

theorem Compacted.inside {d : FrameDecoder} (h : Compacted d) : d.rpos ≤ d.buf.length := by
  unfold Compacted at h
  omega

theorem Compacted.length_le {d : FrameDecoder} (h : Compacted d) :
    d.buf.length ≤ 2 * d.buffered := by
  unfold Compacted at h
  unfold buffered
  omega

theorem compact_compacted (d : FrameDecoder) : Compacted d.compact := by
  unfold compact
  split_ifs with h0 hend hlazy
  · exact .inl h0
  · exact .inl rfl
  · exact .inr ⟨hlazy.1, by omega⟩
  · exact .inl rfl

theorem feed_compacted {d : FrameDecoder} (h : Compacted d) (data : List UInt8) :
    Compacted (d.feed data) := by
  unfold feed
  split_ifs with hnil
  · exact h
  · rcases d.compact_compacted with hzero | ⟨hfew, hhalf⟩
    · exact .inl hzero
    · refine .inr ⟨hfew, ?_⟩
      simp only [List.length_append]
      omega

/-- The decoder that a round leaves. -/
def Step.decoder : Step → FrameDecoder
  | .done d _ => d
  | .again d => d

theorem resync_compacted (d : FrameDecoder) : Compacted d.resync.1 := by
  unfold resync
  exact compact_compacted _

theorem hunt_compacted (d : FrameDecoder) : Compacted d.hunt.decoder := by
  have hc := d.resync_compacted
  unfold hunt
  cases hr : d.resync with
  | mk d' found =>
    rw [hr] at hc
    cases found with
    | true => exact hc
    | false => exact hc

theorem accept_compacted (d : FrameDecoder) (type : Option MsgType) (seq : UInt64) (len : Nat)
    (body : List UInt8) : Compacted (d.accept type seq len body).decoder := by
  have hc : Compacted (d.consume seq len) := by
    unfold consume
    exact compact_compacted _
  unfold accept
  cases type with
  | none => exact hc
  | some type => exact hc

theorem nextStep_compacted {d : FrameDecoder} (h : Compacted d) : Compacted d.nextStep.decoder := by
  have hround := d.nextStep_round
  generalize d.nextStep = r at hround ⊢
  cases hround with
  | wait hv => exact h
  | hunt hv => exact hunt_compacted _
  | accept hv hbody => exact accept_compacted _ _ _ _ _

theorem nextLoop_compacted (fuel : Nat) {d : FrameDecoder} (h : Compacted d) :
    Compacted (nextLoop fuel d).1 := by
  induction fuel generalizing d with
  | zero => exact h
  | succ fuel ih =>
    have hround := nextStep_compacted h
    rw [nextLoop]
    cases hs : d.nextStep with
    | done d' out =>
      rw [hs] at hround
      exact hround
    | again d' =>
      rw [hs] at hround
      exact ih hround

theorem step_compacted (d : FrameDecoder) (c : Call) (h : Compacted d) : Compacted (step d c).1 := by
  cases c with
  | feed data => exact feed_compacted h data
  | next => exact nextLoop_compacted _ h

/-- A `next` that returns false holds less than one frame of legal size. -/
theorem next_none_buffered {d : FrameDecoder} (h : Compacted d) (hout : d.next.2 = none) :
    d.next.1.buffered < kHeaderSize + d.maxBody := by
  obtain ⟨-, hstop⟩ := next_ok h.inside []
  rw [← length_window]
  exact length_lt_of_stop (hstop hout)

/-- **Memory is bounded by the largest frame.** In every run, whatever the bytes
are: between two calls the dead prefix is small and the stored bytes are at most
twice those still to be read, and after a `next` that returned false fewer bytes
are left than one frame of legal size can have. -/
theorem memory_bounded {maxBody : Nat} {start : FrameDecoder} (hstart : Fresh maxBody start)
    (calls : List Call) :
    (∀ e ∈ trace step start calls, e.input = .next → e.output = none →
      e.post.buffered < 20 + maxBody) ∧
    (∀ d ∈ states step start calls,
      (d.rpos = 0 ∨ d.rpos < 4096 ∧ 2 * d.rpos < d.buf.length) ∧
        d.buf.length ≤ 2 * d.buffered) := by
  obtain rfl := hstart.eq
  have hinit : Compacted { maxBody } := .inl rfl
  refine ⟨fun e he hinput hout => ?_, fun d hd => ?_⟩
  · obtain ⟨before, after, hrun⟩ := List.append_of_mem he
    have hpre : Compacted e.pre ∧ e.pre.maxBody = maxBody :=
      event_of_history step (P := fun _ _ => True) (I := fun h d => Compacted d ∧ Follows maxBody h d)
        (Q := fun _ e => Compacted e.pre ∧ e.pre.maxBody = maxBody)
        (fun _ d c _ hI => ⟨step_compacted d c hI.1, follows_step c hI.2⟩)
        (fun _ _ _ _ hI => ⟨hI.1, hI.2.limit⟩) _ ⟨hinit, follows_nil maxBody⟩ calls
        (fun _ _ => trivial) before after e hrun
    have heq := event_of_mem_trace step _ calls e he
    rw [hinput] at heq
    rw [heq] at hout ⊢
    have hless := next_none_buffered hpre.1 hout
    rwa [hpre.2] at hless
  · have hc : Compacted d :=
      states_induction step (P := fun _ _ => True) (I := Compacted)
        (fun d c _ h => step_compacted d c h) _ hinit calls (fun _ _ => trivial) d hd
    exact ⟨hc, hc.length_le⟩

/-- False headers, then the start of a frame that is too long for the limit. -/
def falseHeaders : List Call :=
  [.feed [0x4b, 0x58, 9, 0x4b, 0x58, 1, 0x4b, 0x58, 1, 77, 0, 0, 0, 3, 0, 0, 0, 0, 0, 0, 0, 1], .next,
    .feed [0, 0, 0, 0, 0x4b, 0x58], .next]

theorem memory_bounded_falseHeaders :
    (trace step { maxBody := 2 } falseHeaders).map (fun e => e.post.buffered) = [22, 19, 25, 2] ∧
      ∀ e ∈ trace step { maxBody := 2 } falseHeaders, e.input = .next → e.output = none →
        e.post.buffered < 20 + 2 :=
  ⟨by decide, (memory_bounded (.inl rfl) falseHeaders).1⟩

end FrameDecoder

end Lloms.Wire
