import Mathlib.Algebra.GroupWithZero.Nat
import Lloms.Lib.Gaps
import Lloms.Wire.Chunking

/-! Sequence accounting over a whole run. `accepted` follows the loop of `next` and
notes the frames it accepts, and `Tallied` says what the counters are worth when
some frames have been accepted. -/
namespace Lloms.Wire
open Lib

/-- An accepted frame: its type, if that is known, and its sequence number. -/
structure Accepted where
  type : Option MsgType
  seq : UInt64
  deriving DecidableEq, Repr

def Accepted.known (f : Accepted) : Bool := f.type.isSome

def seqs (fs : List Accepted) : List Nat := fs.map fun f => f.seq.toNat

@[simp] theorem seqs_append (fs gs : List Accepted) : seqs (fs ++ gs) = seqs fs ++ seqs gs :=
  List.map_append

@[simp] theorem seqs_singleton (f : Accepted) : seqs [f] = [f.seq.toNat] := rfl

theorem seqs_eq_nil {fs : List Accepted} : seqs fs = [] ↔ fs = [] := List.map_eq_nil_iff

/-- Nothing, or frames of which the last is delivered. -/
def EndsDelivered (fs : List Accepted) : Prop := ∀ f ∈ fs.getLast?, f.known = true

/-- The counters of a parse that has accepted `fs`. What is missing is counted as
a set of numbers: `pending` and `gapBefore` split the frames behind each frame that
is delivered. -/
structure Tallied (fs : List Accepted) (a : Account) : Prop where
  decoded : a.framesDecoded = UInt64.ofNat fs.length
  expected : a.expected.map UInt64.toNat = if fs = [] then none else some (highest (seqs fs) + 1)
  missing : a.seqMissing.toNat = (foundMissing [] (seqs fs)).card
  gaps : a.seqGaps.toNat = countAfter Skipping [] (seqs fs)
  regressions : a.seqRegressions = UInt64.ofNat (countAfter Behind [] (seqs fs))
  pending : ∀ before block, fs = before ++ block → EndsDelivered before →
    (∀ g ∈ block, g.known = false) →
      a.pendingGap.toNat = (foundMissing (seqs before) (seqs block)).card
  delivered : a.messages.map Message.seq = (fs.filter Accepted.known).map Accepted.seq
  gapBefore : ∀ before block f after, fs = before ++ block ++ f :: after → EndsDelivered before →
    (∀ g ∈ block, g.known = false) → f.known = true →
      ∃ m, a.messages[(before.filter Accepted.known).length]? = some m ∧ m.seq = f.seq ∧
        m.gapBefore.toNat = (foundMissing (seqs before) (seqs (block ++ [f]))).card
  total : (a.messages.map fun m => m.gapBefore.toNat).sum + a.pendingGap.toNat = a.seqMissing.toNat

/-- No frame carries the one number that has no successor. -/
def Countable (fs : List Accepted) : Prop := ∀ f ∈ fs, f.seq ≠ UInt64.ofNat (2 ^ 64 - 1)

instance (fs : List Accepted) : Decidable (Countable fs) :=
  inferInstanceAs (Decidable (∀ _ ∈ _, _))

theorem Countable.highest_lt {fs : List Accepted} (hc : Countable fs) :
    highest (seqs fs) < 2 ^ 64 - 1 := by
  apply Lib.highest_lt (by decide)
  intro n hn
  obtain ⟨f, hf, rfl⟩ := List.mem_map.mp hn
  have hne : f.seq.toNat ≠ 2 ^ 64 - 1 := by
    intro heq
    apply hc f hf
    rw [← heq, UInt64.ofNat_toNat]
  have := f.seq.toNat_lt
  omega

theorem tallied_empty : Tallied [] {} := by
  refine ⟨rfl, rfl, rfl, rfl, rfl, fun before block hsplit _ _ => ?_, rfl, ?_, rfl⟩
  · obtain ⟨rfl, rfl⟩ := List.append_eq_nil_iff.mp hsplit.symm
    rfl
  · intro before block f after hsplit
    simp at hsplit

/-! ## One frame -/

section Frame

variable {fs : List Accepted} {f : Accepted} {a : Account}

/-- Sequence accounting and the other counts of a frame do not touch each other. -/
theorem sequence_counts (a : Account) (seq frames bytes : UInt64) :
    { a with framesDecoded := frames, bytesConsumed := bytes }.sequence seq =
      { a.sequence seq with framesDecoded := frames, bytesConsumed := bytes } := by
  unfold Account.sequence
  cases a.expected with
  | none => rfl
  | some next =>
    dsimp only
    split_ifs <;> rfl

/-- What the sequence number of a frame does to the counters. -/
structure Sequenced (earlier : List Nat) (seq : UInt64) (a a' : Account) : Prop where
  expected : a'.expected.map UInt64.toNat = some (highest (earlier ++ [seq.toNat]) + 1)
  missing : a'.seqMissing.toNat = a.seqMissing.toNat + (skipped earlier seq.toNat).card
  pending : a'.pendingGap.toNat = a.pendingGap.toNat + (skipped earlier seq.toNat).card
  gaps : a'.seqGaps.toNat = a.seqGaps.toNat + if Skipping earlier seq.toNat then 1 else 0
  regressions : a'.seqRegressions =
    a.seqRegressions + UInt64.ofNat (if Behind earlier seq.toNat then 1 else 0)

section Expected

variable {earlier : List Nat} {next seq : UInt64} (hne : earlier ≠ [])
  (he : a.expected = some next) (hnext : next.toNat = highest earlier + 1)
include hne he hnext

/-- The frame is ahead of the number expected. -/
theorem sequenced_gap (hgap : next < seq) (hsucc : (seq + 1).toNat = seq.toNat + 1)
    (hroom : a.seqMissing.toNat + (skipped earlier seq.toNat).card < 2 ^ 64)
    (hpend : a.pendingGap.toNat ≤ a.seqMissing.toNat) (hgaps : a.seqGaps.toNat ≤ a.seqMissing.toNat) :
    Sequenced earlier seq a (a.sequence seq) := by
  have hlt := UInt64.lt_iff_toNat_lt.mp hgap
  have hsub : (seq - next).toNat = seq.toNat - next.toNat :=
    UInt64.toNat_sub_of_le _ _ (Nat.le_of_lt hlt)
  have hskip := card_skipped hne seq.toNat
  have hs : Skipping earlier seq.toNat := ⟨⟨hne, by omega⟩, by omega⟩
  have hb : ¬ Behind earlier seq.toNat := fun h => h.2 hs.1.2
  unfold Account.sequence
  rw [he]
  dsimp only
  rw [if_pos hgap]
  refine ⟨?_, ?_, ?_, ?_, ?_⟩
  · simp only [Option.map_some, hsucc, highest_append, highest_singleton]
    rw [max_eq_right (by omega)]
  · simp only [UInt64.toNat_add, hsub]
    omega
  · simp only [UInt64.toNat_add, hsub]
    omega
  · simp only [UInt64.toNat_add, UInt64.toNat_one, if_pos hs]
    omega
  · simp [if_neg hb]

/-- It is behind: a duplicate or a replay. -/
theorem sequenced_behind (hback : seq < next) : Sequenced earlier seq a (a.sequence seq) := by
  have hlt := UInt64.lt_iff_toNat_lt.mp hback
  have hgap : ¬ next < seq := not_lt.mpr hback.le
  have hskip : (skipped earlier seq.toNat).card = 0 := by
    rw [card_skipped hne]
    omega
  have hs : ¬ Skipping earlier seq.toNat := fun h => absurd h.2 (by omega)
  have hb : Behind earlier seq.toNat := ⟨hne, by omega⟩
  unfold Account.sequence
  rw [he]
  dsimp only
  rw [if_neg hgap, if_pos hback]
  refine ⟨?_, by rw [hskip]; rfl, by rw [hskip]; rfl, by rw [if_neg hs]; rfl, by rw [if_pos hb]; rfl⟩
  simp only [Option.map_some, hnext, highest_append, highest_singleton]
  rw [max_eq_left (by omega)]

/-- It is the one expected. -/
theorem sequenced_next (heq : seq = next) (hsucc : (seq + 1).toNat = seq.toNat + 1) :
    Sequenced earlier seq a (a.sequence seq) := by
  subst heq
  have hskip : (skipped earlier seq.toNat).card = 0 := by
    rw [card_skipped hne]
    omega
  have hs : ¬ Skipping earlier seq.toNat := fun h => absurd h.2 (by omega)
  have hb : ¬ Behind earlier seq.toNat := fun h => h.2 (by omega)
  unfold Account.sequence
  rw [he]
  dsimp only
  rw [if_neg (lt_irrefl seq), if_neg (lt_irrefl seq)]
  refine ⟨?_, by rw [hskip]; rfl, by rw [hskip]; rfl, by rw [if_neg hs]; rfl, ?_⟩
  · simp only [Option.map_some, hsucc, highest_append, highest_singleton]
    rw [max_eq_right (by omega)]
  · simp [if_neg hb]

end Expected

/-- The counters stay below the largest number, so nothing wraps. -/
theorem Tallied.room (ht : Tallied fs a) (hc : Countable (fs ++ [f])) :
    a.seqMissing.toNat + (skipped (seqs fs) f.seq.toNat).card < 2 ^ 64 ∧
      a.pendingGap.toNat ≤ a.seqMissing.toNat ∧ a.seqGaps.toNat ≤ a.seqMissing.toNat := by
  have htop := hc.highest_lt
  rw [seqs_append, seqs_singleton] at htop
  have hreach := highest_eq_reached_add_missing (seqs fs ++ [f.seq.toNat]) (by simp)
  rw [card_foundMissing_concat, List.nil_append] at hreach
  have htotal := ht.total
  have hgaps := countAfter_skipping_le [] (seqs fs)
  rw [ht.gaps, ht.missing]
  rw [ht.missing] at htotal
  exact ⟨by omega, by omega, hgaps⟩

theorem Countable.succ (hc : Countable (fs ++ [f])) : (f.seq + 1).toNat = f.seq.toNat + 1 := by
  have htop := hc.highest_lt
  rw [seqs_append, seqs_singleton, highest_append, highest_singleton] at htop
  rw [UInt64.toNat_add, UInt64.toNat_one]
  omega

theorem Tallied.sequenced (ht : Tallied fs a) (hc : Countable (fs ++ [f])) :
    Sequenced (seqs fs) f.seq a (a.sequence f.seq) := by
  have hexp := ht.expected
  cases he : a.expected with
  | none =>
    have hnil : fs = [] := by
      by_contra hne
      rw [he, if_neg hne] at hexp
      cases hexp
    subst hnil
    unfold Account.sequence
    rw [he]
    refine ⟨?_, rfl, rfl, rfl, ?_⟩
    · simp [seqs, hc.succ]
    · simp [seqs, Behind]
  | some next =>
    have hne : fs ≠ [] := by
      rintro rfl
      rw [he, if_pos rfl] at hexp
      cases hexp
    have hne' : seqs fs ≠ [] := fun h => hne (seqs_eq_nil.mp h)
    have hnext : next.toNat = highest (seqs fs) + 1 := by
      rw [he, if_neg hne] at hexp
      exact Option.some.inj hexp
    obtain ⟨hroom, hpend, hgaps⟩ := ht.room hc
    rcases lt_trichotomy next f.seq with hgap | heq | hback
    · exact sequenced_gap hne' he hnext hgap hc.succ hroom hpend hgaps
    · exact sequenced_next hne' he hnext heq.symm hc.succ
    · exact sequenced_behind hne' he hnext hback

section Sequenced

variable {a' : Account} (ht : Tallied fs a) (hs : Sequenced (seqs fs) f.seq a a')
include ht hs

theorem Tallied.counters :
    a'.expected.map UInt64.toNat =
        (if fs ++ [f] = [] then none else some (highest (seqs (fs ++ [f])) + 1)) ∧
      a'.seqMissing.toNat = (foundMissing [] (seqs (fs ++ [f]))).card ∧
      a'.seqGaps.toNat = countAfter Skipping [] (seqs (fs ++ [f])) ∧
      a'.seqRegressions = UInt64.ofNat (countAfter Behind [] (seqs (fs ++ [f]))) := by
  rw [if_neg (by simp), seqs_append, seqs_singleton, card_foundMissing_concat, countAfter_concat,
    countAfter_concat, UInt64.ofNat_add, List.nil_append]
  refine ⟨hs.expected, ?_, ?_, ?_⟩
  · rw [hs.missing, ht.missing]
  · rw [hs.gaps, ht.gaps]
  · rw [hs.regressions, ht.regressions]

/-- Numbers found missing behind the last delivered frame, with one more frame. -/
theorem Tallied.pending_concat {before block : List Accepted} (hsplit : fs = before ++ block)
    (hends : EndsDelivered before) (hblock : ∀ g ∈ block, g.known = false) :
    a'.pendingGap.toNat = (foundMissing (seqs before) (seqs (block ++ [f]))).card := by
  rw [hs.pending, ht.pending before block hsplit hends hblock, seqs_append, seqs_singleton,
    card_foundMissing_concat, hsplit, seqs_append]

end Sequenced

theorem Tallied.fault (ht : Tallied fs a) (fault : Fault) : Tallied fs (a.fault fault) := by
  cases fault <;> exact ⟨ht.decoded, ht.expected, ht.missing, ht.gaps, ht.regressions, ht.pending,
    ht.delivered, ht.gapBefore, ht.total⟩

/-- A frame of an unknown type leaves what it found pending. -/
theorem Tallied.frame_unknown (ht : Tallied fs a) (hc : Countable (fs ++ [f]))
    (hf : f.type = none) (len : Nat) (body : List UInt8) :
    Tallied (fs ++ [f]) (a.frame f.type f.seq len body) := by
  have hs := ht.sequenced hc
  have hk : f.known = false := by rw [Accepted.known, hf]; rfl
  obtain ⟨hexp, hmiss, hgaps, hback⟩ := ht.counters hs
  have hmsgs : (a.sequence f.seq).messages = a.messages := Account.sequence_messages a f.seq
  rw [hf, Account.frame, sequence_counts]
  refine ⟨?_, hexp, hmiss, hgaps, hback, ?_, ?_, ?_, ?_⟩
  · rw [List.length_append, UInt64.ofNat_add, ← ht.decoded]
    rfl
  · intro before block hsplit hends hblock
    rcases concat_eq_append hsplit with ⟨rfl, rfl⟩ | ⟨block, rfl, hfs⟩
    · exact absurd (hends f (by simp)) (by simp [hk])
    · exact ht.pending_concat hs hfs hends fun g hg => hblock g (by simp [hg])
  · change (a.sequence f.seq).messages.map _ = _
    rw [hmsgs, ht.delivered, List.filter_append, List.filter_cons_of_neg (by simp [hk])]
    simp
  · intro before block g after hsplit hends hblock hg
    change ∃ m, (a.sequence f.seq).messages[_]? = some m ∧ _
    rw [hmsgs]
    rcases concat_eq_append_cons hsplit with ⟨-, rfl, -⟩ | ⟨after', -, hfs⟩
    · exact absurd hg (by simp [hk])
    · exact ht.gapBefore before block g after' hfs hends hblock hg
  · change ((a.sequence f.seq).messages.map _).sum + (a.sequence f.seq).pendingGap.toNat =
      (a.sequence f.seq).seqMissing.toNat
    rw [hmsgs, hs.pending, hs.missing, ← ht.total]
    omega

/-- A frame that is delivered takes along all that is pending. -/
theorem Tallied.frame_known (ht : Tallied fs a) (hc : Countable (fs ++ [f])) {type : MsgType}
    (hf : f.type = some type) (len : Nat) (body : List UInt8) :
    Tallied (fs ++ [f]) (a.frame f.type f.seq len body) := by
  have hs := ht.sequenced hc
  have hk : f.known = true := by rw [Accepted.known, hf]; rfl
  obtain ⟨hexp, hmiss, hgaps, hback⟩ := ht.counters hs
  have hmsgs : (a.sequence f.seq).messages = a.messages := Account.sequence_messages a f.seq
  rw [hf, Account.frame, sequence_counts]
  dsimp only
  rw [hmsgs]
  refine ⟨?_, hexp, hmiss, hgaps, hback, ?_, ?_, ?_, ?_⟩
  · rw [List.length_append, UInt64.ofNat_add, ← ht.decoded]
    rfl
  · intro before block hsplit hends hblock
    rcases concat_eq_append hsplit with ⟨rfl, rfl⟩ | ⟨block, rfl, hfs⟩
    · rfl
    · exact absurd (hblock f (by simp)) (by simp [hk])
  · rw [List.map_append, ht.delivered, List.filter_append, List.filter_cons_of_pos hk]
    simp
  · intro before block g after hsplit hends hblock hg
    rcases concat_eq_append_cons hsplit with ⟨hfs, rfl, -⟩ | ⟨after', -, hfs⟩
    · refine ⟨⟨g.seq, (a.sequence g.seq).pendingGap, decodeBody type body⟩, ?_, rfl,
        ht.pending_concat hs hfs.symm hends hblock⟩
      -- the messages so far are those of the frames up to the last delivered one
      have hnone : block.filter Accepted.known = [] :=
        List.filter_eq_nil_iff.mpr fun f hf => by simp [hblock f hf]
      have hcount := congrArg List.length ht.delivered
      rw [List.length_map, List.length_map, ← hfs, List.filter_append, hnone,
        List.append_nil] at hcount
      rw [← hcount, List.getElem?_concat_length]
    · obtain ⟨m, hm, hseq, hgap⟩ := ht.gapBefore before block g after' hfs hends hblock hg
      refine ⟨m, ?_, hseq, hgap⟩
      obtain ⟨hlt, -⟩ := List.getElem?_eq_some_iff.mp hm
      rw [List.getElem?_append_left hlt, hm]
  · simp only [List.map_append, List.map_singleton, List.sum_append, List.sum_singleton,
      UInt64.toNat_zero]
    rw [hs.pending, hs.missing, ← ht.total]
    omega

theorem Tallied.frame (ht : Tallied fs a) (hc : Countable (fs ++ [f])) (len : Nat)
    (body : List UInt8) : Tallied (fs ++ [f]) (a.frame f.type f.seq len body) := by
  cases hf : f.type with
  | none => exact hf ▸ ht.frame_unknown hc hf len body
  | some type => exact hf ▸ ht.frame_known hc hf len body

end Frame

/-! ## The loop of `next` -/

/-- What the verdict at the read position does to the account. -/
def Account.meet (a : Account) : Verdict → Account
  | .stop => a
  | .skip fault => a.fault fault
  | .frame type seq len body => a.frame type seq len body

namespace FrameDecoder

/-- The frame that a round accepts. -/
def acceptedRound (d : FrameDecoder) : List Accepted :=
  match inspect d.maxBody d.window with
  | .frame type seq _ _ => [⟨type, seq⟩]
  | _ => []

def acceptedLoop : Nat → FrameDecoder → List Accepted
  | 0, _ => []
  | fuel + 1, d =>
    d.acceptedRound ++
      match d.nextStep with
      | .done _ _ => []
      | .again d => acceptedLoop fuel d

/-- The frames that a call of `next` accepts, in order. -/
def accepted (d : FrameDecoder) : List Accepted := acceptedLoop (d.buffered + 1) d

/-- The frames that executed calls have accepted. -/
def acceptedIn (h : List Event) : List Accepted :=
  h.flatMap fun e => match e.input with
    | .feed _ => []
    | .next => e.pre.accepted

/-- A round leaves the account that its verdict says. -/
def RoundAccount (d : FrameDecoder) (ms : List Message) : Step → Prop
  | .done d' out => account (ms ++ out.toList) d' =
      (account ms d).meet (inspect d.maxBody d.window)
  | .again d' => account ms d' = (account ms d).meet (inspect d.maxBody d.window) ∧
      d'.rpos ≤ d'.buf.length

section Rounds

variable {d : FrameDecoder} {ms : List Message} (hin : d.rpos ≤ d.buf.length)
include hin

theorem hunt_account {fault : Fault} (hv : inspect d.maxBody d.window = .skip fault) :
    RoundAccount d ms (d.countFault fault).hunt := by
  have hne : inspect d.maxBody d.window ≠ .stop := by simp [hv]
  have hlen : 20 ≤ d.window.length := inspect_length hne
  obtain ⟨-, -, -, -, -, hin', hacc, -⟩ :=
    resync_spec (d := d.countFault fault) hin (show 2 ≤ d.window.length by omega)
  unfold hunt
  cases hr : (d.countFault fault).resync with
  | mk d' found =>
    rw [hr] at hacc hin'
    cases found with
    | true => exact ⟨by rw [hv, hacc, account_countFault]; rfl, hin'⟩
    | false =>
      change account (ms ++ []) d' = _
      rw [List.append_nil, hv, hacc, account_countFault]
      rfl

theorem accept_account {type : Option MsgType} {seq : UInt64} {len : Nat}
    {body body' : List UInt8} (hv : inspect d.maxBody d.window = .frame type seq len body')
    (hbody : ∀ ty ∈ type, decodeBody ty body = decodeBody ty body') :
    RoundAccount d ms (d.accept type seq len body) := by
  obtain ⟨-, hlen⟩ := inspect_frame hv
  obtain ⟨-, hin', -⟩ := consume_spec hin seq hlen
  unfold accept
  cases type with
  | none => exact ⟨by rw [hv, Account.meet, frame_none hin ms seq hlen], hin'⟩
  | some ty =>
    change account _ _ = _
    rw [hv, Account.meet, frame_some hin ms ty seq hlen, hbody ty rfl]
    rfl

theorem nextStep_account : RoundAccount d ms d.nextStep := by
  have hround := d.nextStep_round
  generalize d.nextStep = r at hround ⊢
  cases hround with
  | wait hv =>
    change account (ms ++ []) d = _
    rw [List.append_nil, hv]
    rfl
  | hunt hv => exact hunt_account hin hv
  | accept hv hbody => exact accept_account hin hv hbody

end Rounds

theorem tallied_round {fs : List Accepted} {ms : List Message} {d : FrameDecoder}
    (ht : Tallied fs (account ms d)) (hc : Countable (fs ++ d.acceptedRound)) :
    Tallied (fs ++ d.acceptedRound) ((account ms d).meet (inspect d.maxBody d.window)) := by
  unfold acceptedRound at hc ⊢
  cases hv : inspect d.maxBody d.window with
  | stop => simpa [Account.meet] using ht
  | skip fault => simpa [Account.meet] using ht.fault fault
  | frame type seq len body =>
    rw [hv] at hc
    exact ht.frame hc len body

theorem tallied_loop (fuel : Nat) {fs : List Accepted} {ms : List Message} {d : FrameDecoder}
    (hin : d.rpos ≤ d.buf.length) (ht : Tallied fs (account ms d))
    (hc : Countable (fs ++ acceptedLoop fuel d)) :
    Tallied (fs ++ acceptedLoop fuel d)
      (account (ms ++ (nextLoop fuel d).2.toList) (nextLoop fuel d).1) := by
  induction fuel generalizing fs d with
  | zero => simpa [acceptedLoop, nextLoop] using ht
  | succ fuel ih =>
    rw [acceptedLoop, ← List.append_assoc] at hc ⊢
    have hround : RoundAccount d ms d.nextStep := nextStep_account hin
    have hone := tallied_round ht fun f hf => hc f (List.mem_append_left _ hf)
    rw [nextLoop]
    cases hs : d.nextStep with
    | done d' out =>
      rw [hs] at hround
      rw [List.append_nil]
      exact hround ▸ hone
    | again d' =>
      rw [hs] at hround hc
      rw [← hround.1] at hone
      exact ih hround.2 hone hc

/-! ## Runs -/

/-- The tally of a run, as long as its frames can be counted. -/
structure RunTallied (h : List Event) (d : FrameDecoder) : Prop where
  inside : d.rpos ≤ d.buf.length
  tallied : Countable (acceptedIn h) → Tallied (acceptedIn h) (account (delivered h) d)

theorem runTallied_nil (maxBody : Nat) : RunTallied [] { maxBody } :=
  ⟨Nat.le_refl _, fun _ => tallied_empty⟩

theorem runTallied_step {h : List Event} {d : FrameDecoder} (c : Call) (hr : RunTallied h d) :
    RunTallied (h ++ [event step d c]) (step d c).1 := by
  cases c with
  | feed data =>
    obtain ⟨-, hin', hacc, -⟩ := feed_window hr.inside data
    have hfs : acceptedIn (h ++ [event step d (.feed data)]) = acceptedIn h := by
      simp [acceptedIn]
    refine ⟨hin', fun hc => ?_⟩
    rw [hfs] at hc ⊢
    rw [delivered_feed]
    exact hacc (delivered h) ▸ hr.tallied hc
  | next =>
    obtain ⟨hadv, -⟩ := next_ok hr.inside (delivered h)
    have hfs : acceptedIn (h ++ [event step d .next]) = acceptedIn h ++ d.accepted := by
      simp [acceptedIn]
    refine ⟨hadv.inside, fun hc => ?_⟩
    rw [hfs] at hc ⊢
    rw [delivered_next]
    have hbefore := hr.tallied fun f hf => hc f (List.mem_append_left _ hf)
    exact tallied_loop _ hr.inside hbefore hc

theorem runTallied_run (maxBody : Nat) (calls : List Call) :
    RunTallied (trace step { maxBody } calls) (exec step { maxBody } calls) :=
  history_induction step (P := fun _ _ => True) (fun _ _ c _ hr => runTallied_step c hr) _
    (runTallied_nil maxBody) calls fun _ _ => trivial

/-- **Gaps are accounted for exactly.** With the numbers of the frames accepted so
far in order, the next number expected, the missing numbers, the gaps and the
regressions are what these numbers say; every missing number is reported with a
message or still pending; and a message reports the numbers that were first found
missing after the message delivered before it. -/
theorem gaps_accounted_for {maxBody : Nat} {start : FrameDecoder} (hstart : Fresh maxBody start)
    (calls : List Call) (hcount : Countable (acceptedIn (trace step start calls))) :
    let h := trace step start calls
    let d := exec step start calls
    let fs := acceptedIn h
    (fs ≠ [] →
      d.expectedSeq.toNat = highest (seqs fs) + 1 ∧
      d.stats.seqMissing.toNat =
        highest (seqs fs) - (seqs fs).headD 0 - countAfter Advancing [] (seqs fs) ∧
      d.stats.seqGaps.toNat = countAfter Skipping [] (seqs fs) ∧
      d.stats.seqRegressions = UInt64.ofNat (countAfter Behind [] (seqs fs)) ∧
      (countAfter Behind [] (seqs fs) < 2 ^ 64 →
        d.stats.seqRegressions.toNat = countAfter Behind [] (seqs fs))) ∧
    ((delivered h).map fun m => m.gapBefore.toNat).sum + d.pendingGap.toNat =
      d.stats.seqMissing.toNat ∧
    (delivered h).map Message.seq = (fs.filter Accepted.known).map Accepted.seq ∧
    (∀ before block f after, fs = before ++ block ++ f :: after → EndsDelivered before →
      (∀ g ∈ block, g.known = false) → f.known = true →
        ∃ m, (delivered h)[(before.filter Accepted.known).length]? = some m ∧ m.seq = f.seq ∧
          m.gapBefore.toNat = (foundMissing (seqs before) (seqs (block ++ [f]))).card) ∧
    d.stats.framesDecoded = UInt64.ofNat fs.length := by
  obtain rfl := hstart.eq
  intro h d fs
  have ht : Tallied fs (account (delivered h) d) := (runTallied_run maxBody calls).tallied hcount
  refine ⟨fun hne => ?_, ht.total, ht.delivered, ht.gapBefore, ht.decoded⟩
  have hback : d.stats.seqRegressions = UInt64.ofNat (countAfter Behind [] (seqs fs)) :=
    ht.regressions
  refine ⟨?_, ?_, ht.gaps, hback, fun hlt => ?_⟩
  · have hexp := ht.expected
    rw [if_neg hne] at hexp
    change (if d.haveSeq then some d.nextSeq else none).map UInt64.toNat = _ at hexp
    unfold expectedSeq
    cases hs : d.haveSeq with
    | false =>
      rw [hs] at hexp
      cases hexp
    | true =>
      rw [hs] at hexp
      exact Option.some.inj hexp
  · have hreach := highest_eq_reached_add_missing (seqs fs) fun hnil => hne (seqs_eq_nil.mp hnil)
    have hmissing : d.stats.seqMissing.toNat = (foundMissing [] (seqs fs)).card := ht.missing
    omega
  · rw [hback, UInt64.toNat_ofNat_of_lt' hlt]

/-- A frame without a body. Type 0 is a heartbeat, type 77 is unknown. -/
def bareFrame (type seq : UInt8) : List UInt8 :=
  [0x4b, 0x58, 1, type, 0, 0, 0, 0, 0, 0, 0, 0, 0, 0, 0, seq, 0xff, 0xff, 0, 0]

/-- Two gaps, one of them found on a frame that is not delivered, and a replay. -/
def carriedGap : List Call :=
  [.feed (bareFrame 0 1 ++ bareFrame 77 4), .next, .next, .feed (bareFrame 0 2 ++ bareFrame 0 6),
    .next, .next]

theorem gaps_accounted_for_carriedGap :
    (acceptedIn (trace step {} carriedGap)).map (fun f => (f.known, f.seq)) =
        [(true, 1), (false, 4), (true, 2), (true, 6)] ∧
      ((delivered (trace step {} carriedGap)).map fun m => m.gapBefore.toNat).sum +
        (exec step {} carriedGap).pendingGap.toNat =
          (exec step {} carriedGap).stats.seqMissing.toNat ∧
      (delivered (trace step {} carriedGap)).map Message.gapBefore = [0, 2, 1] :=
  ⟨by decide, (gaps_accounted_for (.inl rfl) carriedGap (by decide)).2.1, by decide⟩

end FrameDecoder

end Lloms.Wire
