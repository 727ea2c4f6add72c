import Lloms.Wire.Chunking
import Lloms.Wire.Encode

/-! What the decoder makes of encoded messages, with damage among them. The
messages come from the reference parse. Where the decoder stands in the stream
does not: a search for a magic leaves no mark in an account. So a property of the
bytes still to be parsed is followed through every move, and the counters of
bytes are balanced against the bytes held. -/
namespace Lloms.Wire.FrameDecoder
open Lib

/-! ## Bytes in and bytes out -/

/-- The bytes that are accounted for: consumed, discarded or still held. -/
def throughput (d : FrameDecoder) : UInt64 :=
  d.stats.bytesConsumed + d.stats.bytesDiscarded + UInt64.ofNat d.window.length

theorem SameBytes.throughput {d d' : FrameDecoder} (h : SameBytes d d') :
    throughput d' = throughput d := by
  rw [FrameDecoder.throughput, FrameDecoder.throughput, h.stats, h.window]

theorem feed_throughput {d : FrameDecoder} (h : d.rpos ≤ d.buf.length) (data : List UInt8) :
    (d.feed data).throughput = d.throughput + UInt64.ofNat data.length ∧
      (d.feed data).stats = d.stats := by
  have hstats : (d.feed data).stats = d.stats := by
    unfold feed
    split_ifs with hnil
    · rfl
    · exact (compact_sameBytes h).stats
  refine ⟨?_, hstats⟩
  rw [throughput, throughput, hstats, (feed_window h data).1, List.length_append, UInt64.ofNat_add]
  simp only [UInt64.add_assoc]

/-- What `resync` passes over it counts as discarded. -/
theorem resync_throughput {d : FrameDecoder} (h : d.rpos ≤ d.buf.length) (h2 : 2 ≤ d.window.length) :
    d.resync.1.throughput = d.throughput := by
  obtain ⟨k, -, hlt, -, hwin, -, -, -, hstats, -⟩ := resync_spec h h2
  have hlen : UInt64.ofNat d.window.length =
      UInt64.ofNat k + UInt64.ofNat (d.window.drop k).length := by
    rw [← UInt64.ofNat_add, List.length_drop, Nat.add_sub_cancel' hlt.le]
  rw [throughput, throughput, hwin, hstats, hlen]
  simp only [UInt64.add_assoc]

/-- The sequence accounting moves its own three counters only. -/
theorem accountSeq_stats (d : FrameDecoder) (seq : UInt64) :
    ∃ gaps missing regressions, (d.accountSeq seq).stats =
      { d.stats with
        seqGaps := gaps, seqMissing := missing, seqRegressions := regressions } := by
  unfold accountSeq
  split_ifs <;> exact ⟨_, _, _, rfl⟩

theorem consume_stats {d : FrameDecoder} (h : d.rpos ≤ d.buf.length) (seq : UInt64) {len : Nat}
    (hlen : len ≤ d.window.length) :
    ∃ gaps missing regressions, (d.consume seq len).stats = { d.stats with
      framesDecoded := d.stats.framesDecoded + 1
      bytesConsumed := d.stats.bytesConsumed + UInt64.ofNat len
      seqGaps := gaps, seqMissing := missing, seqRegressions := regressions } := by
  rw [length_window, buffered] at hlen
  unfold consume
  generalize hd1 : ({ d with rpos := d.rpos + len }.count fun st =>
    { st with
      bytesConsumed := st.bytesConsumed + UInt64.ofNat len
      framesDecoded := st.framesDecoded + 1 }) = d1
  obtain ⟨hbuf, hrpos, -⟩ := accountSeq_frame d1 seq
  have hc := compact_sameBytes (d := d1.accountSeq seq) (by
    rw [hbuf, hrpos, ← hd1]
    simp only [count]
    omega)
  obtain ⟨gaps, missing, regressions, hstats⟩ := accountSeq_stats d1 seq
  refine ⟨gaps, missing, regressions, ?_⟩
  rw [hc.stats, hstats, ← hd1]
  rfl

/-- An accepted frame is counted as consumed, and nothing was searched. -/
theorem consume_throughput {d : FrameDecoder} (h : d.rpos ≤ d.buf.length) (seq : UInt64) {len : Nat}
    (hlen : len ≤ d.window.length) :
    (d.consume seq len).throughput = d.throughput ∧
      (d.consume seq len).stats.resyncs = d.stats.resyncs := by
  have hbytes : UInt64.ofNat len + UInt64.ofNat (d.window.drop len).length =
      UInt64.ofNat d.window.length := by
    rw [← UInt64.ofNat_add, List.length_drop, Nat.add_sub_cancel' hlen]
  obtain ⟨gaps, missing, regressions, hstats⟩ := consume_stats h seq hlen
  rw [throughput, throughput, (consume_spec h seq hlen).1, ← hbytes, hstats]
  refine ⟨?_, rfl⟩
  simp only [UInt64.add_assoc]
  rw [← UInt64.add_assoc (UInt64.ofNat len), UInt64.add_comm (UInt64.ofNat len), UInt64.add_assoc]

/-! ## Where the decoder stands -/

/-- A property of the bytes still to be parsed that no move of the decoder
leaves: over a faulty offset, over one without a magic, over a frame. -/
structure Closed (maxBody : Nat) (K : List UInt8 → Prop) : Prop where
  skip : ∀ {u fault}, K u → inspect maxBody u = .skip fault → K (u.drop 1)
  pass : ∀ {u}, K u → 2 ≤ u.length → loadBe16 u ≠ kMagic → K (u.drop 1)
  frame : ∀ {u type seq len body}, K u → inspect maxBody u = .frame type seq len body →
    K (u.drop len)

/-- Between `d` and `d'`, with the bytes `t` still to be fed: `K` is kept, no byte
is lost count of, and where `K` allows no fault there is no search. -/
structure Stays (K : List UInt8 → Prop) (t : List UInt8) (d d' : FrameDecoder) : Prop where
  inside : d'.rpos ≤ d'.buf.length
  maxBody : d'.maxBody = d.maxBody
  place : K (d'.window ++ t)
  throughput : d'.throughput = d.throughput
  resyncs : (∀ u fault, K u → inspect d.maxBody u ≠ .skip fault) →
    d'.stats.resyncs = d.stats.resyncs

theorem Stays.trans {K : List UInt8 → Prop} {t : List UInt8} {d d' d'' : FrameDecoder}
    (h : Stays K t d d') (h' : Stays K t d' d'') : Stays K t d d'' where
  inside := h'.inside
  maxBody := h'.maxBody.trans h.maxBody
  place := h'.place
  throughput := h'.throughput.trans h.throughput
  resyncs := fun hno => by rw [h'.resyncs (h.maxBody ▸ hno), h.resyncs hno]

section Moves

variable {K : List UInt8 → Prop} {t : List UInt8} {d : FrameDecoder}
  (hin : d.rpos ≤ d.buf.length) (hclosed : Closed d.maxBody K) (hK : K (d.window ++ t))
include hin hclosed hK

theorem resync_stays {fault : Fault} (hv : inspect d.maxBody d.window = .skip fault) :
    Stays K t d (d.countFault fault).resync.1 := by
  have hne : inspect d.maxBody d.window ≠ .stop := by simp [hv]
  have hskip : inspect d.maxBody (d.window ++ t) = .skip fault := by rw [inspect_append t hne, hv]
  have hlen : 20 ≤ d.window.length := inspect_length hne
  obtain ⟨k, hk1, hk2, hno, hwin, hin', -, hmax, -⟩ :=
    resync_spec (d := d.countFault fault) hin (show 2 ≤ d.window.length by omega)
  change k < d.window.length at hk2
  change ∀ j, 1 ≤ j → j < k → j + 2 ≤ d.window.length ∧ loadBe16 (d.window.drop j) ≠ kMagic at hno
  change _ = d.window.drop k at hwin
  have hdrop : ∀ {j}, j ≤ d.window.length → (d.window ++ t).drop j = d.window.drop j ++ t :=
    fun hj => List.drop_append_of_le_length hj
  -- the search moves on byte by byte, and every byte it passes starts no magic
  have hwalk : ∀ j, 1 ≤ j → j ≤ k → K (d.window.drop j ++ t) := by
    intro j hj1 hjk
    induction j with
    | zero => omega
    | succ j ih =>
      rcases Nat.eq_zero_or_pos j with rfl | hpos
      · rw [← hdrop (by omega)]
        exact hclosed.skip hK hskip
      · obtain ⟨hroom, hmagic⟩ := hno j hpos (by omega)
        have hnext := hclosed.pass (ih hpos (by omega)) (by simp; omega)
          (by rwa [loadBe16_append t (by simp; omega)])
        rwa [List.drop_append_of_le_length (by simp; omega), List.drop_drop] at hnext
  refine ⟨hin', hmax, hwin ▸ hwalk k hk1 (Nat.le_refl k), ?_, fun hclean => ?_⟩
  · have hbytes := resync_throughput (d := d.countFault fault) hin
      (show 2 ≤ d.window.length by omega)
    rw [hbytes]
    cases fault <;> rfl
  · exact absurd hskip (hclean _ _ hK)

theorem consume_stays {type : Option MsgType} {seq : UInt64} {len : Nat} {body : List UInt8}
    (hv : inspect d.maxBody d.window = .frame type seq len body) :
    Stays K t d (d.consume seq len) := by
  obtain ⟨-, hlen⟩ := inspect_frame hv
  obtain ⟨hwin, hin', hmax, -⟩ := consume_spec hin seq hlen
  obtain ⟨hbytes, hresyncs⟩ := consume_throughput hin seq hlen
  have hframe : inspect d.maxBody (d.window ++ t) = .frame type seq len body := by
    rw [inspect_append t (by simp [hv]), hv]
  refine ⟨hin', hmax, ?_, hbytes, fun _ => hresyncs⟩
  rw [hwin, ← List.drop_append_of_le_length hlen]
  exact hclosed.frame hK hframe

/-- What a round does to the place. -/
def StepStays (K : List UInt8 → Prop) (t : List UInt8) (d : FrameDecoder) : Step → Prop
  | .done d' _ => Stays K t d d'
  | .again d' => Stays K t d d'

theorem nextStep_stays : StepStays K t d d.nextStep := by
  have hround := d.nextStep_round
  generalize d.nextStep = r at hround ⊢
  cases hround with
  | wait => exact ⟨hin, rfl, hK, rfl, fun _ => rfl⟩
  | hunt hv =>
    have h := resync_stays hin hclosed hK hv
    unfold hunt
    cases hr : (d.countFault _).resync with
    | mk d' found =>
      rw [hr] at h
      cases found with
      | true => exact h
      | false => exact h
  | @accept type seq len body body' hv hbody =>
    obtain ⟨h1, h2, h3, h4, h5⟩ := consume_stays hin hclosed hK hv
    unfold accept
    cases type with
    | none => exact ⟨h1, h2, h3, h4, h5⟩
    | some type => exact ⟨h1, h2, h3, h4, h5⟩

end Moves

theorem nextLoop_stays {K : List UInt8 → Prop} {t : List UInt8} (fuel : Nat) {d : FrameDecoder}
    (hin : d.rpos ≤ d.buf.length) (hclosed : Closed d.maxBody K) (hK : K (d.window ++ t)) :
    Stays K t d (nextLoop fuel d).1 := by
  induction fuel generalizing d with
  | zero => exact ⟨hin, rfl, hK, rfl, fun _ => rfl⟩
  | succ fuel ih =>
    have hround := nextStep_stays hin hclosed hK
    rw [nextLoop]
    generalize d.nextStep = r at hround ⊢
    cases r with
    | done d' out => exact hround
    | again d' =>
      have hround : Stays K t d d' := hround
      exact hround.trans (ih hround.inside (hround.maxBody ▸ hclosed) hround.place)

/-- How far a decoder has come in a stream `s`, with `t` still to be fed: `K` holds
of what is left, and the counters add up. -/
structure Place (K : List UInt8 → Prop) (maxBody : Nat) (fed t : List UInt8) (d : FrameDecoder) :
    Prop where
  left : K (d.window ++ t)
  throughput : d.throughput = UInt64.ofNat fed.length
  resyncs : (∀ u fault, K u → inspect maxBody u ≠ .skip fault) → d.stats.resyncs = 0

/-- A run that has fed a first part of `s` has a place in it. -/
structure Stands (maxBody : Nat) (K : List UInt8 → Prop) (s : List UInt8) (h : List Event)
    (d : FrameDecoder) : Prop where
  inside : d.rpos ≤ d.buf.length
  limit : d.maxBody = maxBody
  place : ∀ t, fed (h.map Event.input) ++ t = s → Place K maxBody (fed (h.map Event.input)) t d

section Runs

variable {maxBody : Nat} {K : List UInt8 → Prop} {s : List UInt8}

theorem stands_step (hclosed : Closed maxBody K) {h : List Event} {d : FrameDecoder} (c : Call)
    (hs : Stands maxBody K s h d) : Stands maxBody K s (h ++ [event step d c]) (step d c).1 := by
  obtain ⟨hin, rfl, hplace⟩ := hs
  cases c with
  | feed data =>
    obtain ⟨hwin, hin', -, hmax⟩ := feed_window hin data
    obtain ⟨hbytes, hstats⟩ := feed_throughput hin data
    have hfed : fed ((h ++ [event step d (.feed data)]).map Event.input) =
        fed (h.map Event.input) ++ data := by simp [fed]
    refine ⟨hin', hmax, fun t ht => ?_⟩
    rw [hfed, List.append_assoc] at ht
    obtain ⟨hleft, htotal, hresyncs⟩ := hplace _ ht
    refine ⟨?_, ?_, fun hclean => ?_⟩
    · change K ((d.feed data).window ++ t)
      rwa [hwin, List.append_assoc]
    · change (d.feed data).throughput = _
      rw [hbytes, htotal, hfed, List.length_append, UInt64.ofNat_add]
    · change (d.feed data).stats.resyncs = 0
      rw [hstats, hresyncs hclean]
  | next =>
    have hfed : fed ((h ++ [event step d .next]).map Event.input) = fed (h.map Event.input) := by
      simp [fed]
    obtain ⟨hadv, -⟩ := next_ok hin []
    refine ⟨hadv.inside, hadv.maxBody, fun t ht => ?_⟩
    rw [hfed] at ht
    obtain ⟨hleft, htotal, hresyncs⟩ := hplace t ht
    have hstays : Stays K t d d.next.1 := nextLoop_stays _ hin hclosed hleft
    refine ⟨hstays.place, ?_, fun hclean => ?_⟩
    · rw [hfed, ← htotal]
      exact hstays.throughput
    · exact (hstays.resyncs hclean).trans (hresyncs hclean)

theorem stands_run (hclosed : Closed maxBody K) (hK : K s) (calls : List Call) :
    Stands maxBody K s (trace step { maxBody } calls) (exec step { maxBody } calls) := by
  have hstart : Stands maxBody K s [] { maxBody } :=
    ⟨Nat.le_refl _, rfl, fun t ht => ⟨by simpa [window, ← ht, fed] using hK, rfl, fun _ => rfl⟩⟩
  exact history_induction step (P := fun _ _ => True) (fun _ _ c _ hs => stands_step hclosed c hs)
    _ hstart calls fun _ _ => trivial

end Runs

/-! ## Draining -/

theorem parse_messages (maxBody fuel : Nat) (a : Account) (w : List UInt8) :
    a.messages <+: (parse maxBody fuel a w).messages := by
  induction fuel generalizing a w with
  | zero => exact List.prefix_rfl
  | succ fuel ih =>
    rw [parse]
    cases inspect maxBody w with
    | stop => exact List.prefix_rfl
    | skip fault =>
      have hkeep : (a.fault fault).messages = a.messages := by cases fault <;> rfl
      exact hkeep ▸ ih _ _
    | frame type seq len body =>
      refine List.IsPrefix.trans ?_ (ih _ _)
      cases type with
      | none => simp [Account.frame]
      | some type => simp [Account.frame]

/-- No run has returned more messages than the parse of its bytes has. -/
theorem length_delivered_le (maxBody : Nat) (calls : List Call) :
    (delivered (trace step { maxBody } calls)).length ≤
      (parseAll maxBody {} (fed calls)).messages.length := by
  obtain ⟨-, -, hsame⟩ := follows_run maxBody calls
  have hend := hsame []
  rw [trace_inputs, List.append_nil, List.append_nil] at hend
  rw [hend]
  have hkept := parse_messages maxBody (exec step { maxBody } calls).window.length
    (account (delivered (trace step { maxBody } calls)) (exec step { maxBody } calls))
    (exec step { maxBody } calls).window
  exact hkept.length_le

/-- Asking on, `next` returns false after as many messages as there are. -/
theorem drains (maxBody : Nat) (calls : List Call) :
    ∃ k ≤ (parseAll maxBody {} (fed calls)).messages.length,
      (exec step { maxBody } (calls ++ List.replicate k .next)).next.2 = none := by
  by_contra hnone
  have hall : ∀ k ≤ (parseAll maxBody {} (fed calls)).messages.length,
      (exec step { maxBody } (calls ++ List.replicate k .next)).next.2 ≠ none :=
    fun k hk hk' => hnone ⟨k, hk, hk'⟩
  have hgrow : ∀ k ≤ (parseAll maxBody {} (fed calls)).messages.length + 1,
      k ≤ (delivered (trace step { maxBody } (calls ++ List.replicate k .next))).length := by
    intro k hk
    induction k with
    | zero => exact Nat.zero_le _
    | succ k ih =>
      have hprev := ih (by omega)
      obtain ⟨m, hm⟩ := Option.ne_none_iff_exists'.mp (hall k (by omega))
      rw [List.replicate_succ', ← List.append_assoc, trace_concat]
      have hnew : delivered [event step (exec step { maxBody } (calls ++ List.replicate k .next))
          .next] = [m] := by simp [delivered, step, hm]
      rw [delivered, List.filterMap_append, List.length_append]
      change k + 1 ≤ (delivered _).length + (delivered _).length
      rw [hnew, List.length_singleton]
      omega
  have hmany := hgrow _ (Nat.le_refl _)
  have hfew := length_delivered_le maxBody
    (calls ++ List.replicate ((parseAll maxBody {} (fed calls)).messages.length + 1) .next)
  have hfed : ∀ k, fed (calls ++ List.replicate k .next) = fed calls := by
    intro k
    simp [fed]
  rw [hfed] at hfew
  omega

/-! ## Encoded messages with damage among them -/

/-- What can be left of `P`, damage `g` and `F`: a last part of the first that is
not used up, and all of those behind it. -/
def Ahead (cap : Nat) (P F : List Message) (g u : List UInt8) : Prop :=
  ∃ P' g' F', u = stream cap P' ++ (g' ++ stream cap F') ∧ P' <:+ P ∧ g' <:+ g ∧ F' <:+ F ∧
    (P' ≠ [] → g' = g ∧ F' = F) ∧ (g' ≠ [] → F' = F)

section Damaged

variable {cap maxBody : Nat} {P F : List Message} {g : List UInt8}
  (hP : ∀ m ∈ P, Fits cap m) (hF : ∀ m ∈ F, Fits cap m) (hg : Damage maxBody g (stream cap F))
include hP hF hg

/-- What stands at a place ahead: a frame with more behind it, a damaged offset
with more behind it, or nothing. -/
theorem ahead_cases {u : List UInt8} (hu : Ahead cap P F g u) :
    (∃ m u', Fits cap m ∧ u = encode m cap ++ u' ∧ Ahead cap P F g u') ∨
    (∃ b g', b :: g' <:+ g ∧ Damage maxBody (b :: g') (stream cap F) ∧ u = b :: g' ++ stream cap F ∧
      Ahead cap P F g (g' ++ stream cap F)) ∨ u = [] := by
  obtain ⟨P', g', F', rfl, hP', hg', hF', hbehindP, hbehindg⟩ := hu
  cases P' with
  | cons m P' =>
    obtain ⟨rfl, rfl⟩ := hbehindP (by simp)
    refine .inl ⟨m, _, hP m (hP'.mem (by simp)), by rw [stream_cons, List.append_assoc], ?_⟩
    exact ⟨P', g', F', rfl, (List.suffix_cons m P').trans hP', hg', hF', fun _ => ⟨rfl, rfl⟩,
      fun _ => rfl⟩
  | nil =>
    cases g' with
    | cons b g' =>
      obtain rfl := hbehindg (by simp)
      have hsuf : g' <:+ g := (List.suffix_cons b g').trans hg'
      exact .inr (.inl ⟨b, g', hg', hg.suffix hg', rfl,
        [], g', F', rfl, List.nil_suffix, hsuf, hF', by simp, fun _ => rfl⟩)
    | nil =>
      cases F' with
      | cons m F' =>
        refine .inl ⟨m, _, hF m (hF'.mem (by simp)), rfl, ?_⟩
        exact ⟨[], [], F', rfl, List.nil_suffix, List.nil_suffix,
          (List.suffix_cons m F').trans hF', by simp, by simp⟩
      | nil => exact .inr (.inr rfl)

theorem ahead_closed (hmax : 44 ≤ maxBody) : Closed maxBody (Ahead cap P F g) := by
  refine ⟨fun {u fault} hu hv => ?_, fun {u} hu hlen hmagic => ?_,
    fun {u type seq len body} hu hv => ?_⟩
  · rcases ahead_cases hP hF hg hu with ⟨m, u', hfit, rfl, -⟩ | ⟨b, g', -, -, rfl, hnext⟩ | rfl
    · rw [inspect_encode hfit hmax] at hv
      cases hv
    · exact hnext
    · exact absurd hv (by rw [inspect_of_short (by decide)]; exact Verdict.noConfusion)
  · rcases ahead_cases hP hF hg hu with ⟨m, u', hfit, rfl, -⟩ | ⟨b, g', -, -, rfl, hnext⟩ | rfl
    · exact absurd (loadBe16_encode hfit u') hmagic
    · exact hnext
    · exact absurd hlen (by decide)
  · rcases ahead_cases hP hF hg hu with ⟨m, u', hfit, rfl, hnext⟩ | ⟨b, g', -, hdam, rfl, -⟩ | rfl
    · rw [inspect_encode hfit hmax] at hv
      obtain ⟨-, -, rfl, -⟩ := Verdict.frame.inj hv
      rwa [List.drop_left]
    · exact absurd hv (hdam.not_frame _ _ _ _)
    · exact absurd hv (by rw [inspect_of_short (by decide)]; exact Verdict.noConfusion)

/-- Nothing is left where a decoder stops with frames behind the damage, or with
no damage. -/
theorem ahead_stop (hmax : 44 ≤ maxBody) {u : List UInt8} (hu : Ahead cap P F g u)
    (hstop : inspect maxBody u = .stop) (hends : F ≠ [] ∨ g = []) : u = [] := by
  rcases ahead_cases hP hF hg hu with ⟨m, u', hfit, rfl, -⟩ | ⟨b, g', hg', hdam, rfl, -⟩ | rfl
  · rw [inspect_encode hfit hmax] at hstop
    cases hstop
  · rcases hends with hne | rfl
    · have hlen := length_stream hF hne
      obtain ⟨fault, hskip⟩ := hdam.skips (by simp only [List.length_append]; omega)
      rw [hskip] at hstop
      cases hstop
    · exact absurd (List.suffix_nil.mp hg') (by simp)
  · rfl

/-- The parse of the whole stream. -/
theorem reports_damaged (hmax : 44 ≤ maxBody) :
    Reports {} (parseAll maxBody {} (stream cap P ++ (g ++ stream cap F))) (P ++ F)
      ((stream cap P).length + (stream cap F).length) := by
  obtain ⟨a, hrep, hrest⟩ := parseAll_stream hmax hP {} (g ++ stream cap F)
  rw [hrest]
  exact hrep.trans (parseAll_damage hmax hF hg a)

theorem drains_damaged (hmax : 44 ≤ maxBody) {calls : List Call}
    (hfed : fed calls = stream cap P ++ (g ++ stream cap F)) :
    ∃ k ≤ P.length + F.length,
      (exec step { maxBody } (calls ++ List.replicate k .next)).next.2 = none := by
  have hmany : (parseAll maxBody {} (fed calls)).messages.length = P.length + F.length := by
    rw [hfed]
    simpa using congrArg List.length (reports_damaged hP hF hg hmax).messages
  rw [← hmany]
  exact drains maxBody calls

/-- A drained decoder has reported the messages and consumed their bytes. -/
theorem drained_damaged (hmax : 44 ≤ maxBody) {calls : List Call}
    (hfed : fed calls = stream cap P ++ (g ++ stream cap F))
    (hlast : (exec step { maxBody } calls).next.2 = none) :
    (delivered (trace step { maxBody } (calls ++ [.next]))).map content = (P ++ F).map content ∧
      (exec step { maxBody } (calls ++ [.next])).stats.bytesConsumed =
        UInt64.ofNat ((stream cap P).length + (stream cap F).length) := by
  have hrep := reports_damaged hP hF hg hmax
  rw [← hfed, (drained hlast).1] at hrep
  exact ⟨hrep.messages, hrep.bytesConsumed.trans (UInt64.zero_add _)⟩

theorem place_damaged (hmax : 44 ≤ maxBody) {calls : List Call}
    (hfed : fed calls = stream cap P ++ (g ++ stream cap F)) :
    Place (Ahead cap P F g) maxBody (fed calls) [] (exec step { maxBody } calls) := by
  have hstart : Ahead cap P F g (fed calls) :=
    ⟨P, g, F, hfed, List.suffix_rfl, List.suffix_rfl, List.suffix_rfl, fun _ => ⟨rfl, rfl⟩,
      fun _ => rfl⟩
  obtain ⟨-, -, hplace⟩ := stands_run (ahead_closed hP hF hg hmax) hstart calls
  rw [trace_inputs] at hplace
  exact hplace [] (List.append_nil _)

/-- With frames behind the damage, or no damage, nothing is held in the end. What
was fed and not consumed was discarded. -/
theorem discarded_damaged (hmax : 44 ≤ maxBody) (hends : F ≠ [] ∨ g = []) {calls : List Call}
    (hfed : fed calls = stream cap P ++ (g ++ stream cap F))
    (hlast : (exec step { maxBody } calls).next.2 = none) :
    (exec step { maxBody } (calls ++ [.next])).window = [] ∧
      (exec step { maxBody } (calls ++ [.next])).stats.bytesDiscarded = UInt64.ofNat g.length := by
  have hfed' : fed (calls ++ [.next]) = stream cap P ++ (g ++ stream cap F) := by
    rw [← hfed]
    simp [fed]
  obtain ⟨hleft, htotal, -⟩ := place_damaged hP hF hg hmax hfed'
  rw [List.append_nil] at hleft
  have hnil := ahead_stop hP hF hg hmax hleft (drained hlast).2 hends
  refine ⟨hnil, ?_⟩
  have hsplit : (stream cap P ++ (g ++ stream cap F)).length =
      (stream cap P).length + (stream cap F).length + g.length := by
    simp only [List.length_append]
    omega
  rw [throughput, hnil, List.length_nil, hfed', (drained_damaged hP hF hg hmax hfed hlast).2, hsplit,
    UInt64.ofNat_add _ g.length] at htotal
  simpa using htotal

end Damaged

/-- Encoded messages, however their bytes are cut and whenever messages are asked
for, come back as they were, and every byte counts as consumed. Asking on, `next`
returns false after no more calls than there are messages. -/
theorem decode_stream {cap maxBody : Nat} {start : FrameDecoder} (hmax : 44 ≤ maxBody)
    (hstart : Fresh maxBody start) {msgs : List Message} (hfits : ∀ m ∈ msgs, Fits cap m)
    (calls : List Call) (hfed : fed calls = stream cap msgs) :
    (∃ k ≤ msgs.length,
      (exec step start (calls ++ List.replicate k .next)).next.2 = none) ∧
    ((exec step start calls).next.2 = none →
      (delivered (trace step start (calls ++ [.next]))).map content = msgs.map content ∧
      (exec step start (calls ++ [.next])).stats.resyncs = 0 ∧
      (exec step start (calls ++ [.next])).stats.bytesDiscarded = 0 ∧
      (exec step start (calls ++ [.next])).stats.bytesConsumed =
        UInt64.ofNat (stream cap msgs).length ∧
      (exec step start (calls ++ [.next])).buffered = 0) := by
  obtain rfl := hstart.eq
  have hnone : ∀ m ∈ ([] : List Message), Fits cap m := by simp
  have hg : Damage maxBody [] (stream cap []) := fun i hi => absurd hi (by simp)
  have hfed' : fed calls = stream cap msgs ++ ([] ++ stream cap []) := by simpa using hfed
  refine ⟨by simpa using drains_damaged hfits hnone hg hmax hfed', fun hlast => ?_⟩
  obtain ⟨hmessages, hconsumed⟩ := drained_damaged hfits hnone hg hmax hfed' hlast
  obtain ⟨hnil, hdiscarded⟩ := discarded_damaged hfits hnone hg hmax (.inr rfl) hfed' hlast
  have hplace := place_damaged hfits hnone hg hmax
    (show fed (calls ++ [.next]) = _ by rw [← hfed']; simp [fed])
  refine ⟨by simpa using hmessages, hplace.resyncs fun u fault hu => ?_, hdiscarded,
    by simpa using hconsumed, by rw [← length_window, hnil]; rfl⟩
  -- every place ahead is a frame or the end
  rcases ahead_cases hfits hnone hg hu with ⟨m, u', hfit, rfl, -⟩ | ⟨b, g', hg', -⟩ | rfl
  · rw [inspect_encode hfit hmax]
    exact Verdict.noConfusion
  · exact absurd (List.suffix_nil.mp hg') (by simp)
  · rw [inspect_of_short (by decide)]
    exact Verdict.noConfusion

/-- A trade whose fields look like the start of a frame. -/
def mimic : Message :=
  { seq := 0x4b58010000000000
    gapBefore := 0
    body := .trade { symbol := 0x4b580100, price := -1, qty := 0x4b58, tsNs := -0x4b58 } }

/-- The bytes of `mimic`, cut inside its header. -/
def cutMimic : List Call :=
  [.feed ((encode mimic 84).take 11), .next, .feed ((encode mimic 84).drop 11), .next]

theorem decode_stream_mimic :
    (exec step {} cutMimic).next.2 = none ∧
      (delivered (trace step {} (cutMimic ++ [.next]))).map content = [content mimic] := by
  have hlast : (exec step {} cutMimic).next.2 = none := by decide +kernel
  have hfits : ∀ m ∈ [mimic], Fits 84 m := by simp [Fits, mimic, Body.type, bodySizeFor, kHeaderSize]
  have hfed : fed cutMimic = stream 84 [mimic] := by decide +kernel
  exact ⟨hlast, ((decode_stream (by decide) (.inl rfl) hfits cutMimic hfed).2 hlast).1⟩

/-- Damage between encoded messages costs none of them: `P` and `F` come back, and
with a frame behind the damage just its bytes are discarded. -/
theorem decode_damaged {cap maxBody : Nat} {start : FrameDecoder} (hmax : 44 ≤ maxBody)
    (hstart : Fresh maxBody start) {P F : List Message} {g : List UInt8} (hP : ∀ m ∈ P, Fits cap m)
    (hF : ∀ m ∈ F, Fits cap m) (hg : Damage maxBody g (stream cap F)) (calls : List Call)
    (hfed : fed calls = stream cap P ++ g ++ stream cap F) :
    (∃ k ≤ P.length + F.length,
      (exec step start (calls ++ List.replicate k .next)).next.2 = none) ∧
    ((exec step start calls).next.2 = none →
      (delivered (trace step start (calls ++ [.next]))).map content = (P ++ F).map content ∧
      (F ≠ [] → (exec step start (calls ++ [.next])).stats.bytesDiscarded =
        UInt64.ofNat g.length)) := by
  obtain rfl := hstart.eq
  rw [List.append_assoc] at hfed
  refine ⟨drains_damaged hP hF hg hmax hfed, fun hlast => ⟨?_, fun hne => ?_⟩⟩
  · exact (drained_damaged hP hF hg hmax hfed hlast).1
  · exact (discarded_damaged hP hF hg hmax (.inl hne) hfed hlast).2

/-- Eight bytes that read as the start of a heartbeat. -/
def falseStart : List UInt8 := [0x4b, 0x58, 1, 0, 0, 0, 0, 0]

def damagedMimic : List Call := [.feed (falseStart ++ encode mimic 84), .next]

theorem decode_damaged_falseStart :
    (exec step {} damagedMimic).next.2 = none ∧
      (exec step {} (damagedMimic ++ [.next])).stats.bytesDiscarded = 8 := by
  have hlast : (exec step {} damagedMimic).next.2 = none := by decide +kernel
  have hfits : ∀ m ∈ [mimic], Fits 84 m := by simp [Fits, mimic, Body.type, bodySizeFor, kHeaderSize]
  have hg : Damage 65536 falseStart (stream 84 [mimic]) := by
    unfold Damage FramePasses HeaderPasses
    decide +kernel
  have hfed : fed damagedMimic = stream 84 [] ++ falseStart ++ stream 84 [mimic] := by
    decide +kernel
  exact ⟨hlast, ((decode_damaged (by decide) (.inl rfl) (by simp) hfits hg damagedMimic hfed).2
    hlast).2 (by simp)⟩

end Lloms.Wire.FrameDecoder
