import Mathlib.Logic.Relation
import Lloms.Wire.Chunking

/-! The decoder with its memory accesses checked. A byte is read by its index in the
buffer and an index past the end fails, as do a subtraction of sizes that would
wrap, an erase past the end and a loop that runs on. As long as the read position
lies inside the buffer nothing fails, and the result is that of the model. -/
namespace Lloms.Wire

/-! ## Reads -/

/-- A subtraction of sizes that must not wrap. -/
def minus (a b : Nat) : Option Nat := if b ≤ a then some (a - b) else none

def loadBe16At (buf : List UInt8) (i : Nat) : Option UInt16 := do
  let b0 ← buf[i]?
  let b1 ← buf[i + 1]?
  return b0.toUInt16 <<< 8 ||| b1.toUInt16

def loadBe32At (buf : List UInt8) (i : Nat) : Option UInt32 := do
  let b0 ← buf[i]?
  let b1 ← buf[i + 1]?
  let b2 ← buf[i + 2]?
  let b3 ← buf[i + 3]?
  return b0.toUInt32 <<< 24 ||| b1.toUInt32 <<< 16 ||| b2.toUInt32 <<< 8 ||| b3.toUInt32

def loadBe64At (buf : List UInt8) (i : Nat) : Option UInt64 :=
  (List.range 8).foldlM (fun v k => do
    let b ← buf[i + k]?
    return v <<< 8 ||| b.toUInt64) 0

def loadBeI64At (buf : List UInt8) (i : Nat) : Option Int64 :=
  (loadBe64At buf i).map UInt64.toInt64

/-- `n` bytes from `i` on, one after the other. -/
def bytesAt (buf : List UInt8) (i : Nat) : Nat → Option (List UInt8)
  | 0 => some []
  | n + 1 => do
    let b ← buf[i]?
    let rest ← bytesAt buf (i + 1) n
    return b :: rest

def fletcher16At (buf : List UInt8) (i n : Nat) : Option UInt16 := (bytesAt buf i n).map fletcher16

def decodeBodyAt (type : MsgType) (buf : List UInt8) (i : Nat) : Option Body :=
  match type with
  | .heartbeat => some .heartbeat
  | .trade => do
    let symbol ← loadBe32At buf i
    let price ← loadBeI64At buf (i + 4)
    let qty ← loadBeI64At buf (i + 12)
    let tsNs ← loadBeI64At buf (i + 20)
    return .trade { symbol, price, qty, tsNs }
  | .quote => do
    let symbol ← loadBe32At buf i
    let bidPx ← loadBeI64At buf (i + 4)
    let bidQty ← loadBeI64At buf (i + 12)
    let askPx ← loadBeI64At buf (i + 20)
    let askQty ← loadBeI64At buf (i + 28)
    let tsNs ← loadBeI64At buf (i + 36)
    return .quote { symbol, bidPx, bidQty, askPx, askQty, tsNs }
  | .newOrder => do
    let clientOrderId ← loadBe64At buf i
    let symbol ← loadBe32At buf (i + 8)
    let side ← buf[i + 12]?
    let type ← buf[i + 13]?
    let tif ← buf[i + 14]?
    let price ← loadBeI64At buf (i + 15)
    let qty ← loadBeI64At buf (i + 23)
    return .newOrder
      { clientOrderId
        symbol
        side := if side = 0 then .buy else .sell
        type := if type = 0 then .limit else .market
        tif
        price
        qty }
  | .orderAck => do
    let clientOrderId ← loadBe64At buf i
    let exchangeOrderId ← loadBe64At buf (i + 8)
    let status ← buf[i + 16]?
    let rejectReason ← buf[i + 17]?
    let filledQty ← loadBeI64At buf (i + 18)
    let avgPx ← loadBeI64At buf (i + 26)
    return .orderAck { clientOrderId, exchangeOrderId, status, rejectReason, filledQty, avgPx }

theorem minus_eq {a b : Nat} (h : b ≤ a) : minus a b = some (a - b) := if_pos h

section Reads

variable {buf : List UInt8} {i : Nat}

theorem read_eq (k : Nat) (h : i + k < buf.length) :
    buf[i + k]? = some ((buf.drop i).getD k 0) := by
  rw [List.getD_eq_getElem?_getD, List.getElem?_drop, List.getElem?_eq_getElem h]
  rfl

theorem loadBe16At_eq (h : i + 2 ≤ buf.length) :
    loadBe16At buf i = some (loadBe16 (buf.drop i)) := by
  have h0 : buf[i + 0]? = _ := read_eq 0 (by omega)
  have h1 : buf[i + 1]? = _ := read_eq 1 (by omega)
  rw [Nat.add_zero] at h0
  rw [loadBe16At, h0, h1]
  rfl

theorem loadBe32At_eq (h : i + 4 ≤ buf.length) :
    loadBe32At buf i = some (loadBe32 (buf.drop i)) := by
  have h0 : buf[i + 0]? = _ := read_eq 0 (by omega)
  have h1 : buf[i + 1]? = _ := read_eq 1 (by omega)
  have h2 : buf[i + 2]? = _ := read_eq 2 (by omega)
  have h3 : buf[i + 3]? = _ := read_eq 3 (by omega)
  rw [Nat.add_zero] at h0
  rw [loadBe32At, h0, h1, h2, h3]
  rfl

/-- A fold whose steps all succeed is the fold of their results. -/
theorem foldlM_eq_some {α β : Type} {f : β → α → Option β} {g : β → α → β} (xs : List α) (b : β)
    (h : ∀ b, ∀ x ∈ xs, f b x = some (g b x)) : xs.foldlM f b = some (xs.foldl g b) := by
  induction xs generalizing b with
  | nil => rfl
  | cons x xs ih =>
    rw [List.foldlM_cons, h b x List.mem_cons_self, Option.bind_eq_bind, Option.bind_some]
    exact ih _ fun b y hy => h b y (List.mem_cons_of_mem x hy)

theorem loadBe64At_eq (h : i + 8 ≤ buf.length) :
    loadBe64At buf i = some (loadBe64 (buf.drop i)) := by
  refine foldlM_eq_some _ _ fun v k hk => ?_
  have hlt := List.mem_range.mp hk
  rw [read_eq k (by omega)]
  rfl

theorem loadBeI64At_eq (h : i + 8 ≤ buf.length) :
    loadBeI64At buf i = some (loadBeI64 (buf.drop i)) := by
  rw [loadBeI64At, loadBe64At_eq h]
  rfl

theorem bytesAt_eq (n : Nat) (h : i + n ≤ buf.length) :
    bytesAt buf i n = some ((buf.drop i).take n) := by
  induction n generalizing i with
  | zero => rfl
  | succ n ih =>
    have hlt : i < buf.length := by omega
    rw [bytesAt, List.getElem?_eq_getElem hlt, ih (by omega), List.drop_eq_getElem_cons hlt]
    rfl

theorem fletcher16At_eq {n : Nat} (h : i + n ≤ buf.length) :
    fletcher16At buf i n = some (fletcher16 ((buf.drop i).take n)) := by
  rw [fletcher16At, bytesAt_eq n h]
  rfl

/-- A body is read where its size says. -/
theorem decodeBodyAt_eq (type : MsgType) (h : i + bodySizeFor type ≤ buf.length) :
    decodeBodyAt type buf i = some (decodeBody type (buf.drop i)) := by
  cases type with
  | heartbeat => rfl
  | trade =>
    have h' : i + 28 ≤ buf.length := h
    simp (disch := omega) only [decodeBodyAt, decodeBody, List.drop_drop, loadBe32At_eq,
      loadBeI64At_eq]
    rfl
  | quote =>
    have h' : i + 44 ≤ buf.length := h
    simp (disch := omega) only [decodeBodyAt, decodeBody, List.drop_drop, loadBe32At_eq,
      loadBeI64At_eq]
    rfl
  | newOrder =>
    have h' : i + 31 ≤ buf.length := h
    simp (disch := omega) only [decodeBodyAt, decodeBody, List.drop_drop, loadBe64At_eq,
      loadBe32At_eq, read_eq, loadBeI64At_eq]
    rfl
  | orderAck =>
    have h' : i + 34 ≤ buf.length := h
    simp (disch := omega) only [decodeBodyAt, decodeBody, List.drop_drop, loadBe64At_eq, read_eq,
      loadBeI64At_eq]
    rfl

end Reads

/-! ## The decoder -/

namespace FrameDecoder
open Lib

/-- The erase in `compact` must end inside the buffer. -/
def compactAt (d : FrameDecoder) : Option FrameDecoder :=
  if d.rpos ≤ d.buf.length then some d.compact else none

def scanMagicAt (buf : List UInt8) : Nat → Nat → Option Nat
  | 0, _ => none
  | fuel + 1, p =>
    if p + 2 ≤ buf.length then do
      let magic ← loadBe16At buf p
      if magic ≠ kMagic then scanMagicAt buf fuel (p + 1) else some p
    else some p

def resyncAt (d : FrameDecoder) : Option (FrameDecoder × Bool) := do
  let d := d.count fun st => { st with resyncs := st.resyncs + 1 }
  let stop := d.buf.length
  let p ← scanMagicAt d.buf stop (d.rpos + 1)
  let found := decide (p + 2 ≤ stop)
  let p ← if found then some p else minus stop 1
  let skipped ← minus p d.rpos
  let d := d.count fun st => { st with bytesDiscarded := st.bytesDiscarded + UInt64.ofNat skipped }
  let d ← compactAt { d with rpos := p }
  return (d, found)

def huntAt (d : FrameDecoder) : Option Step := do
  match ← d.resyncAt with
  | (d, true) => return .again d
  | (d, false) => return .done d none

def consumeAt (d : FrameDecoder) (seq : UInt64) (frameLen : Nat) : Option FrameDecoder :=
  let d := { d with rpos := d.rpos + frameLen }.count fun st =>
    { st with
      bytesConsumed := st.bytesConsumed + UInt64.ofNat frameLen
      framesDecoded := st.framesDecoded + 1 }
  (d.accountSeq seq).compactAt

/-- The body is given by its index. -/
def acceptAt (d : FrameDecoder) (type : Option MsgType) (seq : UInt64) (frameLen body : Nat) :
    Option Step :=
  match type with
  | none => do
    let d ← d.consumeAt seq frameLen
    return .again (d.count fun st => { st with unknownType := st.unknownType + 1 })
  | some type => do
    let decoded ← decodeBodyAt type d.buf body
    let d ← d.consumeAt seq frameLen
    return .done { d with pendingGap := 0 } (some { seq, gapBefore := d.pendingGap, body := decoded })

def nextStepAt (d : FrameDecoder) : Option Step := do
  let held ← minus d.buf.length d.rpos
  if held < kHeaderSize then return .done d none
  else
    let p := d.rpos
    let magic ← loadBe16At d.buf p
    if magic ≠ kMagic then
      (d.count fun st => { st with badMagic := st.badMagic + 1 }).huntAt
    else
      let version ← d.buf[p + 2]?
      let typeByte ← d.buf[p + 3]?
      let bodyLenField ← loadBe32At d.buf (p + 4)
      let seq ← loadBe64At d.buf (p + 8)
      let wantCsum ← loadBe16At d.buf (p + 16)
      let type := MsgType.ofByte typeByte
      let bodyLen := bodyLenField.toNat
      if version ≠ kVersion then
        (d.count fun st => { st with badVersion := st.badVersion + 1 }).huntAt
      else if bodyLen > d.maxBody then
        (d.count fun st => { st with badLength := st.badLength + 1 }).huntAt
      else if type.any fun type => bodyLen ≠ bodySizeFor type then
        (d.count fun st => { st with badLength := st.badLength + 1 }).huntAt
      else
        let frameLen := kHeaderSize + bodyLen
        if held < frameLen then return .done d none
        else
          let body := p + kHeaderSize
          let csum ← fletcher16At d.buf body bodyLen
          if csum ≠ wantCsum then
            (d.count fun st => { st with badChecksum := st.badChecksum + 1 }).huntAt
          else d.acceptAt type seq frameLen body

/-- A loop that is still running when its fuel ends fails. -/
def nextLoopAt : Nat → FrameDecoder → Option (FrameDecoder × Option Message)
  | 0, _ => none
  | fuel + 1, d => do
    match ← d.nextStepAt with
    | .done d out => return (d, out)
    | .again d => nextLoopAt fuel d

/-- `next` in at most one round for each byte held, and one more. -/
def nextAt (d : FrameDecoder) : Option (FrameDecoder × Option Message) :=
  nextLoopAt (d.buffered + 1) d

/-! ## Nothing fails -/

/-- The hunt ends before its fuel does: it moves to the end of the buffer at most. -/
theorem scanMagicAt_eq (buf : List UInt8) (fuel p : Nat) (h : buf.length ≤ p + fuel)
    (hfuel : 0 < fuel) : scanMagicAt buf fuel p = some (scanMagic buf fuel p) := by
  induction fuel generalizing p with
  | zero => omega
  | succ fuel ih =>
    rw [scanMagicAt, scanMagic]
    by_cases hroom : p + 2 ≤ buf.length
    · rw [if_pos hroom, loadBe16At_eq hroom, Option.bind_eq_bind, Option.bind_some]
      by_cases hmagic : loadBe16 (buf.drop p) ≠ kMagic
      · rw [if_pos hmagic, if_pos ⟨hroom, hmagic⟩]
        exact ih (p + 1) (by omega) (by omega)
      · rw [if_neg hmagic, if_neg fun h => hmagic h.2]
    · rw [if_neg hroom, if_neg fun h => hroom h.1]

/-- With two bytes held the hunt ends ahead of where it began and inside the buffer;
without a magic that is the last byte. -/
theorem scanMagic_ahead {d : FrameDecoder} (h : 2 ≤ d.buffered) :
    d.rpos < scanMagic d.buf d.buf.length (d.rpos + 1) ∧
      scanMagic d.buf d.buf.length (d.rpos + 1) < d.buf.length := by
  unfold buffered at h
  obtain ⟨hle, hno, -⟩ := scanMagic_spec d.buf d.buf.length (d.rpos + 1) (by omega)
  generalize scanMagic d.buf d.buf.length (d.rpos + 1) = p at hle hno ⊢
  by_cases hfirst : p = d.rpos + 1
  · omega
  · -- the place before the one where the hunt ended still had two bytes
    have hlast := (hno (p - 1) (by omega) (by omega)).1
    omega

section Inside

variable {d : FrameDecoder} (hin : d.rpos ≤ d.buf.length)
include hin

theorem compactAt_eq : d.compactAt = some d.compact := if_pos hin

omit hin in
theorem resyncAt_eq (h : 2 ≤ d.buffered) : d.resyncAt = some d.resync := by
  obtain ⟨hahead, hbelow⟩ := scanMagic_ahead h
  have hscan := scanMagicAt_eq d.buf d.buf.length (d.rpos + 1) (by omega) (by omega)
  unfold resyncAt resync
  simp only [count, hscan, Option.bind_eq_bind, Option.bind_some]
  by_cases hfound : scanMagic d.buf d.buf.length (d.rpos + 1) + 2 ≤ d.buf.length
  · simp only [hfound, decide_true, if_true, Option.bind_some, minus_eq (Nat.le_of_lt hahead)]
    rw [compactAt_eq (Nat.le_of_lt hbelow)]
    rfl
  · simp only [hfound, decide_false, Bool.false_eq_true, if_false, Option.bind_some,
      minus_eq (show 1 ≤ d.buf.length by omega), minus_eq (show d.rpos ≤ d.buf.length - 1 by omega)]
    rw [compactAt_eq (Nat.sub_le d.buf.length 1)]
    rfl

omit hin in
theorem huntAt_eq (h : 2 ≤ d.buffered) : d.huntAt = some d.hunt := by
  rw [huntAt, hunt, resyncAt_eq h, Option.bind_eq_bind, Option.bind_some]
  cases d.resync with
  | mk d' found => cases found <;> rfl

theorem consumeAt_eq (seq : UInt64) {len : Nat} (hlen : len ≤ d.buffered) :
    d.consumeAt seq len = some (d.consume seq len) := by
  unfold buffered at hlen
  unfold consumeAt consume
  obtain ⟨hbuf, hrpos, -⟩ := accountSeq_frame ({ d with rpos := d.rpos + len }.count fun st =>
    { st with
      bytesConsumed := st.bytesConsumed + UInt64.ofNat len
      framesDecoded := st.framesDecoded + 1 }) seq
  apply compactAt_eq
  rw [hbuf, hrpos]
  simp only [count]
  omega

theorem acceptAt_eq {type : Option MsgType} (seq : UInt64) {bodyLen : Nat}
    (hlen : kHeaderSize + bodyLen ≤ d.buffered)
    (hsize : ¬ (type.any fun type => bodyLen ≠ bodySizeFor type) = true) :
    d.acceptAt type seq (kHeaderSize + bodyLen) (d.rpos + kHeaderSize) =
      some (d.accept type seq (kHeaderSize + bodyLen) ((d.buf.drop d.rpos).drop kHeaderSize)) := by
  unfold acceptAt accept
  rw [consumeAt_eq hin seq hlen]
  cases type with
  | none => rfl
  | some ty =>
    have hbody : bodyLen = bodySizeFor ty := by simpa using hsize
    unfold buffered at hlen
    dsimp only
    rw [decodeBodyAt_eq ty (by omega), List.drop_drop]
    rfl

/-- A round reads only what the buffer holds. -/
theorem nextStepAt_eq : d.nextStepAt = some d.nextStep := by
  have hheld : minus d.buf.length d.rpos = some d.buffered := minus_eq hin
  have hhunt : 2 ≤ d.buffered → ∀ f, (d.count f).huntAt = some (d.count f).hunt :=
    fun h _ => huntAt_eq h
  unfold nextStepAt nextStep
  rw [hheld, Option.bind_eq_bind, Option.bind_some]
  by_cases hshort : d.buffered < kHeaderSize
  · rw [if_pos hshort, if_pos hshort]
    rfl
  have hheader : d.rpos + 20 ≤ d.buf.length := by
    unfold buffered kHeaderSize at hshort
    omega
  have hroom : 2 ≤ d.buffered := by
    unfold buffered
    omega
  have hmagic : loadBe16At d.buf d.rpos = _ := loadBe16At_eq (by omega)
  have hversion : d.buf[d.rpos + 2]? = _ := read_eq 2 (by omega)
  have htype : d.buf[d.rpos + 3]? = _ := read_eq 3 (by omega)
  have hbodyLen : loadBe32At d.buf (d.rpos + 4) = _ := loadBe32At_eq (by omega)
  have hseq : loadBe64At d.buf (d.rpos + 8) = _ := loadBe64At_eq (by omega)
  have hcsum : loadBe16At d.buf (d.rpos + 16) = _ := loadBe16At_eq (by omega)
  simp only [hmagic, hversion, htype, hbodyLen, hseq, hcsum, if_neg hshort, Option.bind_eq_bind,
    Option.bind_some, List.drop_drop]
  by_cases hm : loadBe16 (d.buf.drop d.rpos) ≠ kMagic
  · rw [if_pos hm, if_pos hm]
    exact hhunt hroom _
  rw [if_neg hm, if_neg hm]
  by_cases hv : (d.buf.drop d.rpos).getD 2 0 ≠ kVersion
  · rw [if_pos hv, if_pos hv]
    exact hhunt hroom _
  rw [if_neg hv, if_neg hv]
  generalize (loadBe32 (d.buf.drop (d.rpos + 4))).toNat = bodyLen
  generalize MsgType.ofByte ((d.buf.drop d.rpos).getD 3 0) = type
  by_cases hbig : bodyLen > d.maxBody
  · rw [if_pos hbig, if_pos hbig]
    exact hhunt hroom _
  rw [if_neg hbig, if_neg hbig]
  by_cases hsize : (type.any fun type => bodyLen ≠ bodySizeFor type) = true
  · rw [if_pos hsize, if_pos hsize]
    exact hhunt hroom _
  rw [if_neg hsize, if_neg hsize]
  by_cases hpart : d.buffered < kHeaderSize + bodyLen
  · rw [if_pos hpart, if_pos hpart]
    rfl
  have hbody : d.rpos + kHeaderSize + bodyLen ≤ d.buf.length := by
    unfold buffered at hpart
    omega
  rw [if_neg hpart, if_neg hpart, fletcher16At_eq hbody, Option.bind_some]
  by_cases hsum : fletcher16 ((d.buf.drop (d.rpos + kHeaderSize)).take bodyLen) ≠
      loadBe16 (d.buf.drop (d.rpos + 16))
  · rw [if_pos hsum, if_pos hsum]
    exact hhunt hroom _
  rw [if_neg hsum, if_neg hsum, acceptAt_eq hin _ (Nat.le_of_not_lt hpart) hsize, List.drop_drop]

end Inside

/-! ## Progress -/

/-- The decoder goes round the loop of one `next`, from `d` to `d'`. -/
def Loops : FrameDecoder → FrameDecoder → Prop :=
  Relation.ReflTransGen fun d d' => d.nextStep = .again d'

/-- Every round that does not return leaves at least one byte less to read. -/
theorem nextStep_again {d d' : FrameDecoder} (hin : d.rpos ≤ d.buf.length)
    (h : d.nextStep = .again d') : d'.rpos ≤ d'.buf.length ∧ d'.buffered + 1 ≤ d.buffered := by
  have hok : StepOk d [] d.nextStep := nextStep_ok hin
  rw [h] at hok
  obtain ⟨hadv, hless⟩ := hok
  rw [length_window, length_window] at hless
  exact ⟨hadv.inside, hless⟩

theorem loops_inside {d d' : FrameDecoder} (hin : d.rpos ≤ d.buf.length) (h : Loops d d') :
    d'.rpos ≤ d'.buf.length := by
  induction h with
  | refl => exact hin
  | tail _ hround ih => exact (nextStep_again ih hround).1

/-- One round for each byte is enough, so the loop ends. -/
theorem nextLoopAt_eq (fuel : Nat) {d : FrameDecoder} (hin : d.rpos ≤ d.buf.length)
    (hfuel : d.buffered < fuel) : nextLoopAt fuel d = some (nextLoop fuel d) := by
  induction fuel generalizing d with
  | zero => omega
  | succ fuel ih =>
    rw [nextLoopAt, nextLoop, nextStepAt_eq hin, Option.bind_eq_bind, Option.bind_some]
    cases hround : d.nextStep with
    | done d' out => rfl
    | again d' =>
      obtain ⟨hin', hless⟩ := nextStep_again hin hround
      exact ih hin' (by omega)

theorem step_inside {d : FrameDecoder} (c : Call) (hin : d.rpos ≤ d.buf.length) :
    (step d c).1.rpos ≤ (step d c).1.buf.length := by
  cases c with
  | feed data => exact (feed_window hin data).2.1
  | next => exact (next_ok hin []).1.inside

/-- What holds of a decoder that is about to go round the loop of `next`. -/
structure RoundSafe (d : FrameDecoder) : Prop where
  inside : d.rpos ≤ d.buf.length
  /-- Bytes are read at indices below the size, and sizes do not wrap. -/
  reads : d.nextStepAt = some d.nextStep
  progress : ∀ d', d.nextStep = .again d' → d'.buffered + 1 ≤ d.buffered
  /-- A hunt ends inside the buffer and further on. Where it falls back to the last
  byte it stands there already, ahead of where it began. -/
  resync : kHeaderSize ≤ d.buffered → ∀ f, let r := (d.count f).resync
    r.1.rpos ≤ r.1.buf.length ∧ r.1.buffered + 1 ≤ d.buffered ∧ d.rpos + 1 ≤ d.buf.length - 1 ∧
      (r.2 = false → scanMagic d.buf d.buf.length (d.rpos + 1) = d.buf.length - 1)

theorem roundSafe_of_inside {d : FrameDecoder} (hin : d.rpos ≤ d.buf.length) : RoundSafe d where
  inside := hin
  reads := nextStepAt_eq hin
  progress := fun _ h => (nextStep_again hin h).2
  resync := by
    intro hheader f
    have hlen : 20 ≤ d.buffered := hheader
    have hwindow : 2 ≤ d.window.length := by
      rw [length_window]
      omega
    obtain ⟨k, hk, -, -, hwin, hstop, -⟩ := resync_spec (d := d.count f) hin hwindow
    obtain ⟨-, hbelow⟩ := scanMagic_ahead (d := d) (by omega)
    refine ⟨hstop, ?_, ?_, fun hfound => ?_⟩
    · rw [← length_window, hwin, List.length_drop]
      change d.window.length - k + 1 ≤ _
      rw [length_window]
      omega
    · unfold buffered at hlen
      omega
    · have hnone : ¬ scanMagic d.buf d.buf.length (d.rpos + 1) + 2 ≤ d.buf.length :=
        of_decide_eq_false hfound
      omega

/-- **`next` always terminates and stays inside its buffer.** In every run, whatever
the bytes and the largest body: a call from any state ends within one round for each
byte held and one more, with no read outside the buffer, and every round on the way
either returns or leaves fewer bytes. -/
theorem next_terminates_inside {maxBody : Nat} {start : FrameDecoder} (hstart : Fresh maxBody start)
    (calls : List Call) (d : FrameDecoder) (hd : d ∈ states step start calls) :
    d.nextAt = some d.next ∧ ∀ d', Loops d d' → RoundSafe d' := by
  obtain rfl := hstart.eq
  have hin : d.rpos ≤ d.buf.length :=
    states_induction step (P := fun _ _ => True) (I := fun d => d.rpos ≤ d.buf.length)
      (fun d c _ h => step_inside c h) _ (Nat.le_refl _) calls (fun _ _ => trivial) d hd
  exact ⟨nextLoopAt_eq _ hin (Nat.lt_succ_self _),
    fun _ hloops => roundSafe_of_inside (loops_inside hin hloops)⟩

/-- The last bytes of a heartbeat arrive. -/
theorem next_terminates_inside_splitHeartbeat :
    let d := exec step {} splitHeartbeat.dropLast
    (d.nextAt = some d.next ∧ ∀ d', Loops d d' → RoundSafe d') ∧
      d.nextAt.map Prod.snd = some (some { seq := 5, gapBefore := 0, body := .heartbeat }) :=
  ⟨next_terminates_inside (.inl rfl) splitHeartbeat.dropLast _ (exec_mem_states step _ _),
    by decide⟩

end FrameDecoder

end Lloms.Wire
