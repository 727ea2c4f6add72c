import Lloms.Wire.FrameDecoder
import Lloms.Wire.Reference

/-! The decoder is the reference parse, however the bytes arrive. `account` reads
a decoder as the account of a parse that stands at its read position, and
`Advances` says that what is still to come gives the same result before and after
a call. -/
namespace Lloms.Wire.FrameDecoder
open Lib

/-- The bytes held, from the read position on. -/
def window (d : FrameDecoder) : List UInt8 := d.buf.drop d.rpos

/-- The decoder as an account, with the messages it has returned. -/
def account (ms : List Message) (d : FrameDecoder) : Account where
  messages := ms
  framesDecoded := d.stats.framesDecoded
  bytesConsumed := d.stats.bytesConsumed
  badVersion := d.stats.badVersion
  badLength := d.stats.badLength
  badChecksum := d.stats.badChecksum
  unknownType := d.stats.unknownType
  seqGaps := d.stats.seqGaps
  seqMissing := d.stats.seqMissing
  seqRegressions := d.stats.seqRegressions
  expected := if d.haveSeq then some d.nextSeq else none
  pendingGap := d.pendingGap

theorem length_window (d : FrameDecoder) : d.window.length = d.buffered := List.length_drop

/-! ## Moving the buffer -/

/-- The same decoder with its bytes laid out differently. -/
structure SameBytes (d d' : FrameDecoder) : Prop where
  window : d'.window = d.window
  inside : d'.rpos ≤ d'.buf.length
  rest : d' = { d with buf := d'.buf, rpos := d'.rpos }

theorem compact_sameBytes {d : FrameDecoder} (h : d.rpos ≤ d.buf.length) :
    SameBytes d d.compact := by
  unfold compact
  split_ifs with h0 hend hlazy
  · exact ⟨rfl, h, rfl⟩
  · exact ⟨by simp [window, hend], Nat.le_refl _, rfl⟩
  · exact ⟨rfl, h, rfl⟩
  · exact ⟨rfl, Nat.zero_le _, rfl⟩

theorem SameBytes.stats {d d' : FrameDecoder} (h : SameBytes d d') : d'.stats = d.stats := by
  rw [h.rest]

theorem SameBytes.account {d d' : FrameDecoder} (h : SameBytes d d') (ms : List Message) :
    account ms d' = account ms d := by rw [h.rest]; rfl

theorem SameBytes.maxBody {d d' : FrameDecoder} (h : SameBytes d d') : d'.maxBody = d.maxBody := by
  rw [h.rest]

theorem feed_window {d : FrameDecoder} (h : d.rpos ≤ d.buf.length) (data : List UInt8) :
    (d.feed data).window = d.window ++ data ∧ (d.feed data).rpos ≤ (d.feed data).buf.length ∧
      (∀ ms, account ms (d.feed data) = account ms d) ∧ (d.feed data).maxBody = d.maxBody := by
  unfold feed
  split_ifs with hnil
  · exact ⟨by simp [hnil], h, fun _ => rfl, rfl⟩
  · have hc := compact_sameBytes h
    refine ⟨?_, ?_, fun ms => hc.account ms, hc.maxBody⟩
    · rw [← hc.window]
      exact List.drop_append_of_le_length hc.inside
    · have := hc.inside
      simp only [List.length_append]
      omega

/-! ## Hunting for a magic -/

theorem scanMagic_spec (buf : List UInt8) (fuel p : Nat) (hfuel : buf.length ≤ p + fuel) :
    p ≤ scanMagic buf fuel p ∧
    (∀ j, p ≤ j → j < scanMagic buf fuel p → j + 2 ≤ buf.length ∧
      loadBe16 (buf.drop j) ≠ kMagic) ∧
    (scanMagic buf fuel p + 2 ≤ buf.length →
      loadBe16 (buf.drop (scanMagic buf fuel p)) = kMagic) := by
  induction fuel generalizing p with
  | zero =>
    refine ⟨Nat.le_refl _, fun j h1 h2 => ?_, fun h => ?_⟩
    · exact absurd h2 (by simp only [scanMagic]; omega)
    · exact absurd h (by simp only [scanMagic]; omega)
  | succ fuel ih =>
    rw [scanMagic]
    split_ifs with hgo
    · obtain ⟨h1, h2, h3⟩ := ih (p + 1) (by omega)
      refine ⟨by omega, fun j hj hlt => ?_, h3⟩
      by_cases hjp : j = p
      · exact hjp ▸ hgo
      · exact h2 j (by omega) hlt
    · refine ⟨Nat.le_refl _, fun j h1 h2 => absurd h2 (by omega), fun h => ?_⟩
      by_contra hne
      exact hgo ⟨h, hne⟩

/-- `resync` moves past at least one byte and over no place with a magic. It
either stands on a magic or keeps the last byte. -/
theorem resync_spec {d : FrameDecoder} (h : d.rpos ≤ d.buf.length) (h2 : 2 ≤ d.window.length) :
    ∃ k, 1 ≤ k ∧ k < d.window.length ∧
      (∀ j, 1 ≤ j → j < k → j + 2 ≤ d.window.length ∧ loadBe16 (d.window.drop j) ≠ kMagic) ∧
      d.resync.1.window = d.window.drop k ∧ d.resync.1.rpos ≤ d.resync.1.buf.length ∧
      (∀ ms, account ms d.resync.1 = account ms d) ∧ d.resync.1.maxBody = d.maxBody ∧
      d.resync.1.stats = { d.stats with
        resyncs := d.stats.resyncs + 1
        bytesDiscarded := d.stats.bytesDiscarded + UInt64.ofNat k } ∧
      (d.resync.2 = false → k + 1 = d.window.length) := by
  obtain ⟨hle, hno, -⟩ := scanMagic_spec d.buf d.buf.length (d.rpos + 1) (by omega)
  have hlen : d.window.length = d.buf.length - d.rpos := d.length_window
  have hdrop : ∀ j, d.window.drop j = d.buf.drop (d.rpos + j) := fun j => List.drop_drop
  unfold resync
  dsimp only [count]
  generalize scanMagic d.buf d.buf.length (d.rpos + 1) = p at hle hno ⊢
  by_cases hfound : p + 2 ≤ d.buf.length
  · simp only [hfound, decide_true, if_true]
    have hc := compact_sameBytes (d := { d with
      rpos := p
      stats := { d.stats with
        resyncs := d.stats.resyncs + 1
        bytesDiscarded := d.stats.bytesDiscarded + UInt64.ofNat (p - d.rpos) } })
      (show p ≤ d.buf.length by omega)
    refine ⟨p - d.rpos, by omega, by omega, fun j h1 hj => ?_, ?_, hc.inside,
      fun ms => hc.account ms, hc.maxBody, hc.stats, by simp⟩
    · obtain ⟨hj1, hj2⟩ := hno (d.rpos + j) (by omega) (by omega)
      exact ⟨by omega, hdrop j ▸ hj2⟩
    · rw [hc.window, hdrop, show d.rpos + (p - d.rpos) = p by omega]
      rfl
  · simp only [hfound, decide_false, Bool.false_eq_true, if_false]
    have hc := compact_sameBytes (d := { d with
      rpos := d.buf.length - 1
      stats := { d.stats with
        resyncs := d.stats.resyncs + 1
        bytesDiscarded :=
          d.stats.bytesDiscarded + UInt64.ofNat (d.buf.length - 1 - d.rpos) } })
      (show d.buf.length - 1 ≤ d.buf.length by omega)
    refine ⟨d.buf.length - 1 - d.rpos, by omega, by omega, fun j h1 hj => ?_, ?_, hc.inside,
      fun ms => hc.account ms, hc.maxBody, hc.stats, fun _ => by omega⟩
    · obtain ⟨hj1, hj2⟩ := hno (d.rpos + j) (by omega) (by omega)
      exact ⟨by omega, hdrop j ▸ hj2⟩
    · rw [hc.window, hdrop, show d.rpos + (d.buf.length - 1 - d.rpos) = d.buf.length - 1 by omega]
      rfl

/-! ## One round of the loop -/

def countFault (d : FrameDecoder) (fault : Fault) : FrameDecoder :=
  d.count fun st => match fault with
    | .magic => { st with badMagic := st.badMagic + 1 }
    | .version => { st with badVersion := st.badVersion + 1 }
    | .length => { st with badLength := st.badLength + 1 }
    | .checksum => { st with badChecksum := st.badChecksum + 1 }

theorem account_countFault (ms : List Message) (d : FrameDecoder) (fault : Fault) :
    account ms (d.countFault fault) = (account ms d).fault fault := by
  cases fault <;> rfl

/-- What a round can be: a wait for more bytes, a hunt for the next magic, or an
accepted frame. The body that is read runs on past the end of the frame. -/
inductive Round (d : FrameDecoder) : Step → Prop
  | wait (hv : inspect d.maxBody d.window = .stop) : Round d (.done d none)
  | hunt {f : Fault} (hv : inspect d.maxBody d.window = .skip f) : Round d (d.countFault f).hunt
  | accept {type : Option MsgType} {seq : UInt64} {len : Nat} {body body' : List UInt8}
      (hv : inspect d.maxBody d.window = .frame type seq len body')
      (hbody : ∀ ty ∈ type, decodeBody ty body = decodeBody ty body') :
      Round d (d.accept type seq len body)

theorem nextStep_round (d : FrameDecoder) : Round d d.nextStep := by
  have hbuf : d.buffered = d.window.length := d.length_window.symm
  have hwin : d.buf.drop d.rpos = d.window := rfl
  unfold nextStep
  simp only [hbuf, hwin]
  by_cases hshort : d.window.length < kHeaderSize
  · rw [if_pos hshort]
    exact .wait (inspect_of_short hshort)
  rw [if_neg hshort]
  by_cases hmagic : loadBe16 d.window ≠ kMagic
  · have hv : inspect d.maxBody d.window = .skip .magic := by
      simp only [inspect, if_neg hshort, if_pos hmagic]
    rw [if_pos hmagic]
    exact Round.hunt (f := .magic) hv
  rw [if_neg hmagic]
  by_cases hversion : d.window.getD 2 0 ≠ kVersion
  · have hv : inspect d.maxBody d.window = .skip .version := by
      simp only [inspect, if_neg hshort, if_neg hmagic, if_pos hversion]
    rw [if_pos hversion]
    exact Round.hunt (f := .version) hv
  rw [if_neg hversion]
  generalize hlen : (loadBe32 (d.window.drop 4)).toNat = bodyLen
  generalize htype : MsgType.ofByte (d.window.getD 3 0) = type
  -- the two length checks are one condition of the parse
  have hrest : inspect d.maxBody d.window =
      if bodyLen > d.maxBody ∨ type.any fun type => bodyLen ≠ bodySizeFor type then .skip .length
      else if d.window.length < kHeaderSize + bodyLen then .stop
      else if fletcher16 ((d.window.drop kHeaderSize).take bodyLen) ≠ loadBe16 (d.window.drop 16)
        then .skip .checksum
      else .frame type (loadBe64 (d.window.drop 8)) (kHeaderSize + bodyLen)
        ((d.window.drop kHeaderSize).take bodyLen) := by
    simp only [inspect, if_neg hshort, if_neg hmagic, if_neg hversion, hlen, htype]
  by_cases hbig : bodyLen > d.maxBody
  · rw [if_pos hbig]
    rw [if_pos (Or.inl hbig)] at hrest
    exact Round.hunt (f := .length) hrest
  rw [if_neg hbig]
  by_cases hsize : type.any fun type => bodyLen ≠ bodySizeFor type
  · rw [if_pos hsize]
    rw [if_pos (Or.inr hsize)] at hrest
    exact Round.hunt (f := .length) hrest
  rw [if_neg hsize]
  rw [if_neg (not_or.mpr ⟨hbig, hsize⟩)] at hrest
  by_cases hpart : d.window.length < kHeaderSize + bodyLen
  · rw [if_pos hpart] at hrest ⊢
    exact .wait hrest
  rw [if_neg hpart] at hrest ⊢
  by_cases hsum :
      fletcher16 ((d.window.drop kHeaderSize).take bodyLen) ≠ loadBe16 (d.window.drop 16)
  · rw [if_pos hsum] at hrest ⊢
    exact Round.hunt (f := .checksum) hrest
  rw [if_neg hsum] at hrest ⊢
  apply Round.accept hrest
  intro ty hty
  -- the body of a known type has just the length that is read
  obtain rfl : type = some ty := hty
  have hfull : bodyLen = bodySizeFor ty := by simpa using hsize
  have hread := decodeBody_append ((d.window.drop kHeaderSize).drop bodyLen) ty
    (w := (d.window.drop kHeaderSize).take bodyLen) (by simp; omega)
  rwa [List.take_append_drop] at hread

/-- Between `d` and `d'` the messages grew from `ms` to `ms'` and nothing was
lost: whatever comes next, the parse ends the same. -/
structure Advances (d d' : FrameDecoder) (ms ms' : List Message) : Prop where
  inside : d'.rpos ≤ d'.buf.length
  maxBody : d'.maxBody = d.maxBody
  same : ∀ t, parseAll d.maxBody (account ms d) (d.window ++ t) =
    parseAll d.maxBody (account ms' d') (d'.window ++ t)

theorem Advances.refl {d : FrameDecoder} (h : d.rpos ≤ d.buf.length) (ms : List Message) :
    Advances d d ms ms := ⟨h, rfl, fun _ => rfl⟩

theorem Advances.trans {d d' d'' : FrameDecoder} {ms ms' ms'' : List Message}
    (h : Advances d d' ms ms') (h' : Advances d' d'' ms' ms'') : Advances d d'' ms ms'' where
  inside := h'.inside
  maxBody := h'.maxBody.trans h.maxBody
  same := fun t => by rw [h.same, ← h.maxBody, h'.same]

/-- What a round must establish. A round that returns nothing leaves the parse
at a place where it stops; one that goes on has used up bytes. -/
def StepOk (d : FrameDecoder) (ms : List Message) : Step → Prop
  | .done d' out => Advances d d' ms (ms ++ out.toList) ∧
      (out = none → inspect d.maxBody d'.window = .stop)
  | .again d' => Advances d d' ms ms ∧ d'.window.length < d.window.length

section Rounds

variable {d : FrameDecoder} {ms : List Message} (hin : d.rpos ≤ d.buf.length)
include hin

theorem hunt_ok {fault : Fault} (hv : inspect d.maxBody d.window = .skip fault) :
    StepOk d ms (d.countFault fault).hunt := by
  have hne : inspect d.maxBody d.window ≠ .stop := by simp [hv]
  have hlen : 20 ≤ d.window.length := inspect_length hne
  obtain ⟨k, hk1, hk2, hno, hwin, hin', hacc, hmax, -, hlast⟩ :=
    resync_spec (d := d.countFault fault) hin (show 2 ≤ d.window.length by omega)
  change k < d.window.length at hk2
  change ∀ j, 1 ≤ j → j < k → j + 2 ≤ d.window.length ∧ loadBe16 (d.window.drop j) ≠ kMagic at hno
  change _ = d.window.drop k at hwin
  change _ → k + 1 = d.window.length at hlast
  have hadv : Advances d (d.countFault fault).resync.1 ms ms := by
    refine ⟨hin', hmax, fun t => ?_⟩
    have hdrop : ∀ {j}, j ≤ d.window.length → (d.window ++ t).drop j = d.window.drop j ++ t :=
      fun hj => List.drop_append_of_le_length hj
    rw [parseAll_of_skip (by rw [inspect_append t hne, hv]), hacc, account_countFault, hwin,
      parseAll_drop (k - 1), List.drop_drop, show 1 + (k - 1) = k by omega, hdrop (by omega)]
    intro j hj
    obtain ⟨h1, h2⟩ := hno (1 + j) (by omega) (by omega)
    rw [List.drop_drop, hdrop (by omega), loadBe16_append t (by simp; omega)]
    exact h2
  unfold hunt
  cases hr : (d.countFault fault).resync with
  | mk d' found =>
    rw [hr] at hadv hwin hlast
    cases found with
    | true => exact ⟨hadv, by rw [hwin]; simp; omega⟩
    | false =>
      have := hlast rfl
      refine ⟨by simpa using hadv, fun _ => inspect_of_short ?_⟩
      rw [hwin, List.length_drop]
      unfold kHeaderSize
      omega

omit hin in
theorem accountSeq_account (d : FrameDecoder) (ms : List Message) (seq : UInt64) :
    account ms (d.accountSeq seq) = (account ms d).sequence seq := by
  by_cases hs : d.haveSeq
  · by_cases hgap : d.nextSeq < seq
    · simp [accountSeq, account, Account.sequence, count, hs, hgap]
    · by_cases hback : seq < d.nextSeq
      · simp [accountSeq, account, Account.sequence, count, hs, hgap, hback]
      · simp [accountSeq, account, Account.sequence, hs, hgap, hback]
  · simp [accountSeq, account, Account.sequence, hs]

omit hin in
/-- The sequence accounting leaves the bytes alone. -/
theorem accountSeq_frame (d : FrameDecoder) (seq : UInt64) :
    (d.accountSeq seq).buf = d.buf ∧ (d.accountSeq seq).rpos = d.rpos ∧
      (d.accountSeq seq).maxBody = d.maxBody := by
  unfold accountSeq
  split_ifs <;> exact ⟨rfl, rfl, rfl⟩

theorem consume_spec (seq : UInt64) {len : Nat} (hlen : len ≤ d.window.length) :
    (d.consume seq len).window = d.window.drop len ∧
    (d.consume seq len).rpos ≤ (d.consume seq len).buf.length ∧
    (d.consume seq len).maxBody = d.maxBody ∧
    ∀ ms, account ms (d.consume seq len) =
      { account ms d with
        framesDecoded := d.stats.framesDecoded + 1
        bytesConsumed := d.stats.bytesConsumed + UInt64.ofNat len }.sequence seq := by
  rw [length_window, buffered] at hlen
  unfold consume
  generalize hd1 : ({ d with rpos := d.rpos + len }.count fun st =>
    { st with
      bytesConsumed := st.bytesConsumed + UInt64.ofNat len
      framesDecoded := st.framesDecoded + 1 }) = d1
  obtain ⟨hbuf, hrpos, hmax⟩ := accountSeq_frame d1 seq
  have hc := compact_sameBytes (d := d1.accountSeq seq) (by
    rw [hbuf, hrpos, ← hd1]
    simp only [count]
    omega)
  refine ⟨?_, hc.inside, ?_, fun ms => ?_⟩
  · rw [hc.window, window, hbuf, hrpos, ← hd1]
    exact List.drop_drop.symm
  · rw [hc.maxBody, hmax, ← hd1]
    rfl
  · rw [hc.account, accountSeq_account, ← hd1]
    rfl

/-- A frame of an unknown type, on both sides. -/
theorem frame_none (ms : List Message) (seq : UInt64) {len : Nat} (hlen : len ≤ d.window.length)
    (body : List UInt8) :
    (account ms d).frame none seq len body = account ms ((d.consume seq len).count fun st =>
      { st with unknownType := st.unknownType + 1 }) := by
  obtain ⟨-, -, -, hacc⟩ := consume_spec hin seq hlen
  change _ = { account ms (d.consume seq len) with
    unknownType := (account ms (d.consume seq len)).unknownType + 1 }
  rw [hacc]
  rfl

/-- A frame that is delivered, on both sides. -/
theorem frame_some (ms : List Message) (type : MsgType) (seq : UInt64) {len : Nat}
    (hlen : len ≤ d.window.length) (body : List UInt8) :
    (account ms d).frame (some type) seq len body = account
      (ms ++ [{ seq, gapBefore := (d.consume seq len).pendingGap, body := decodeBody type body }])
      { d.consume seq len with pendingGap := 0 } := by
  obtain ⟨-, -, -, hacc⟩ := consume_spec hin seq hlen
  have hgap : (d.consume seq len).pendingGap = (account ms (d.consume seq len)).pendingGap := rfl
  have hmove : ∀ ms', account ms' { d.consume seq len with pendingGap := 0 } =
      { account ms (d.consume seq len) with messages := ms', pendingGap := 0 } := fun _ => rfl
  rw [hmove, hgap, hacc, Account.frame]
  simp only [Account.sequence_messages]
  rfl

theorem accept_ok {type : Option MsgType} {seq : UInt64} {len : Nat} {body body' : List UInt8}
    (hv : inspect d.maxBody d.window = .frame type seq len body')
    (hbody : ∀ ty ∈ type, decodeBody ty body = decodeBody ty body') :
    StepOk d ms (d.accept type seq len body) := by
  obtain ⟨hlen1, hlen2⟩ := inspect_frame hv
  obtain ⟨hwin, hin', hmax, -⟩ := consume_spec hin seq hlen2
  have hsame : ∀ t, parseAll d.maxBody (account ms d) (d.window ++ t) =
      parseAll d.maxBody ((account ms d).frame type seq len body')
        ((d.consume seq len).window ++ t) := by
    intro t
    rw [parseAll_of_frame (by rw [inspect_append t (by simp [hv]), hv]),
      List.drop_append_of_le_length hlen2, hwin]
  unfold accept
  cases type with
  | none =>
    refine ⟨⟨hin', hmax, fun t => ?_⟩, ?_⟩
    · rw [hsame, frame_none hin ms seq hlen2]
      rfl
    · change (d.consume seq len).window.length < _
      rw [hwin, List.length_drop]
      unfold kHeaderSize at hlen1
      omega
  | some ty =>
    refine ⟨⟨hin', hmax, fun t => ?_⟩, by simp⟩
    rw [hsame, frame_some hin ms ty seq hlen2, hbody ty rfl]
    rfl

/-- A round does what the parse does at the read position. -/
theorem nextStep_ok : StepOk d ms d.nextStep := by
  have hround := d.nextStep_round
  generalize d.nextStep = r at hround ⊢
  cases hround with
  | wait hv => exact ⟨by simpa using Advances.refl hin ms, fun _ => hv⟩
  | hunt hv => exact hunt_ok hin hv
  | accept hv hbody => exact accept_ok hin hv hbody

end Rounds

/-! ## Whole calls -/

/-- The loop ends for want of bytes, never of fuel. -/
theorem nextLoop_spec (fuel : Nat) (d : FrameDecoder) (ms : List Message)
    (hin : d.rpos ≤ d.buf.length) (hfuel : d.window.length < fuel) :
    StepOk d ms (.done (nextLoop fuel d).1 (nextLoop fuel d).2) := by
  induction fuel generalizing d with
  | zero => omega
  | succ fuel ih =>
    have hround : StepOk d ms d.nextStep := nextStep_ok hin
    rw [nextLoop]
    cases hs : d.nextStep with
    | done d' out => exact hs ▸ hround
    | again d' =>
      rw [hs] at hround
      obtain ⟨hadv, hless⟩ := hround
      obtain ⟨hadv', hstop⟩ := ih d' hadv.inside (by omega)
      exact ⟨hadv.trans hadv', hadv.maxBody ▸ hstop⟩

theorem next_ok {d : FrameDecoder} (hin : d.rpos ≤ d.buf.length) (ms : List Message) :
    StepOk d ms (.done d.next.1 d.next.2) :=
  nextLoop_spec _ d ms hin (by rw [length_window]; omega)

/-! ## Runs -/

/-- The calls so far and the bytes still held give what the parse of everything
fed gives, also when more is to come. -/
structure Follows (maxBody : Nat) (h : List Event) (d : FrameDecoder) : Prop where
  inside : d.rpos ≤ d.buf.length
  limit : d.maxBody = maxBody
  same : ∀ t, parseAll maxBody {} (fed (h.map Event.input) ++ t) =
    parseAll maxBody (account (delivered h) d) (d.window ++ t)

theorem delivered_feed (h : List Event) (d : FrameDecoder) (data : List UInt8) :
    delivered (h ++ [event step d (.feed data)]) = delivered h := by
  simp [delivered, step]

theorem delivered_next (h : List Event) (d : FrameDecoder) :
    delivered (h ++ [event step d .next]) = delivered h ++ d.next.2.toList := by
  cases hout : d.next.2 <;> simp [delivered, step, hout]

theorem follows_nil (maxBody : Nat) : Follows maxBody [] { maxBody } :=
  ⟨Nat.le_refl _, rfl, fun _ => rfl⟩

theorem follows_step {maxBody : Nat} {h : List Event} {d : FrameDecoder} (c : Call)
    (hf : Follows maxBody h d) : Follows maxBody (h ++ [event step d c]) (step d c).1 := by
  obtain ⟨hin, rfl, hsame⟩ := hf
  cases c with
  | feed data =>
    obtain ⟨hwin, hin', hacc, hmax⟩ := feed_window hin data
    refine ⟨hin', hmax, fun t => ?_⟩
    have hfed : fed ((h ++ [event step d (.feed data)]).map Event.input) =
        fed (h.map Event.input) ++ data := by simp [fed]
    change _ = parseAll d.maxBody (account _ (d.feed data)) ((d.feed data).window ++ t)
    rw [hfed, delivered_feed, hacc, hwin, List.append_assoc, List.append_assoc, hsame]
  | next =>
    obtain ⟨hadv, -⟩ := next_ok hin (delivered h)
    refine ⟨hadv.inside, hadv.maxBody, fun t => ?_⟩
    have hfed : fed ((h ++ [event step d .next]).map Event.input) = fed (h.map Event.input) := by
      simp [fed]
    change _ = parseAll d.maxBody (account _ d.next.1) (d.next.1.window ++ t)
    rw [hfed, delivered_next, hsame, hadv.same]

theorem follows_run (maxBody : Nat) (calls : List Call) :
    Follows maxBody (trace step { maxBody } calls) (exec step { maxBody } calls) :=
  history_induction step (P := fun _ _ => True) (fun _ _ c _ hf => follows_step c hf) _
    (follows_nil maxBody) calls fun _ _ => trivial

/-- What a user sees after some calls. -/
def report (start : FrameDecoder) (calls : List Call) : Report :=
  let d := exec step start calls
  { messages := delivered (trace step start calls)
    framesDecoded := d.stats.framesDecoded
    bytesConsumed := d.stats.bytesConsumed
    badVersion := d.stats.badVersion
    badLength := d.stats.badLength
    badChecksum := d.stats.badChecksum
    unknownType := d.stats.unknownType
    seqGaps := d.stats.seqGaps
    seqMissing := d.stats.seqMissing
    seqRegressions := d.stats.seqRegressions
    expectedSeq := d.expectedSeq }

theorem report_eq (start : FrameDecoder) (calls : List Call) :
    report start calls =
      (account (delivered (trace step start calls)) (exec step start calls)).report := by
  unfold report account Account.report expectedSeq
  dsimp only
  split_ifs <;> rfl

/-- A new decoder, or one that was used and reset. -/
def Fresh (maxBody : Nat) (start : FrameDecoder) : Prop :=
  start = { maxBody } ∨ ∃ d : FrameDecoder, d.maxBody = maxBody ∧ start = d.reset

theorem Fresh.eq {maxBody : Nat} {start : FrameDecoder} (h : Fresh maxBody start) :
    start = { maxBody } := by
  rcases h with rfl | ⟨d, rfl, rfl⟩
  · rfl
  · rfl

/-- Once `next` has returned false, the decoder holds the account of the parse of
everything fed, and stands where the parse stops. -/
theorem drained {maxBody : Nat} {calls : List Call}
    (hlast : (exec step { maxBody } calls).next.2 = none) :
    parseAll maxBody {} (fed calls) = account
        (delivered (trace step { maxBody } (calls ++ [.next])))
        (exec step { maxBody } (calls ++ [.next])) ∧
      inspect maxBody (exec step { maxBody } (calls ++ [.next])).window = .stop := by
  obtain ⟨-, -, hsame⟩ := follows_run maxBody (calls ++ [.next])
  obtain ⟨hin, hmax, -⟩ := follows_run maxBody calls
  obtain ⟨-, hstop⟩ := next_ok hin []
  have hfed : fed (calls ++ [.next]) = fed calls := by simp [fed]
  have hdone : inspect maxBody (exec step { maxBody } (calls ++ [.next])).window = .stop := by
    rw [exec_concat]
    have hdone := hstop hlast
    rwa [hmax] at hdone
  refine ⟨?_, hdone⟩
  rw [trace_inputs, hfed] at hsame
  rw [← List.append_nil (fed calls), hsame, List.append_nil]
  exact parseAll_of_stop hdone

/-- However the bytes are cut into feeds and whenever messages are asked for: once
`next` has returned false, the decoder has reported what the reference parse of
all the bytes reports. -/
theorem report_eq_referenceParse {maxBody : Nat} {start : FrameDecoder}
    (hstart : Fresh maxBody start) (calls : List Call)
    (hlast : (exec step start calls).next.2 = none) :
    report start (calls ++ [.next]) = referenceParse maxBody (fed calls) := by
  obtain rfl := hstart.eq
  rw [report_eq, referenceParse, (drained hlast).1]

/-- A heartbeat with number 5 behind a stray byte, cut inside its header. -/
def splitHeartbeat : List Call :=
  [.feed [0x4b, 0x4b, 0x58, 1, 0, 0, 0], .next, .feed [0, 0, 0, 0, 0, 0, 0, 0, 0, 5],
    .feed [0xff, 0xff, 0, 0], .next]

theorem report_eq_referenceParse_splitHeartbeat :
    report {} (splitHeartbeat ++ [.next]) = referenceParse 65536 (fed splitHeartbeat) ∧
      (referenceParse 65536 (fed splitHeartbeat)).messages =
        [{ seq := 5, gapBefore := 0, body := .heartbeat }] :=
  ⟨report_eq_referenceParse (.inl rfl) splitHeartbeat (by decide), by decide⟩

end Lloms.Wire.FrameDecoder
