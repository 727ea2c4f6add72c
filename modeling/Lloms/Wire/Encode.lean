import Lloms.Wire.Reference

/-! Encoding (`wire.hpp`, `wire.cpp`): big-endian stores, the five bodies and the
frame. Bytes that the source writes at an offset stand here at that place in a
list. An encoded message is a frame to `inspect`, whatever follows it. -/
namespace Lloms.Wire

/-! ## Byte order -/

def storeBe16 (v : UInt16) : List UInt8 := [(v >>> 8).toUInt8, v.toUInt8]

def storeBe32 (v : UInt32) : List UInt8 :=
  [(v >>> 24).toUInt8, (v >>> 16).toUInt8, (v >>> 8).toUInt8, v.toUInt8]

def storeBe64 (v : UInt64) : List UInt8 :=
  (List.range 8).map fun i => (v >>> UInt64.ofNat (56 - 8 * i)).toUInt8

def storeBeI64 (v : Int64) : List UInt8 := storeBe64 v.toUInt64

@[simp] theorem length_storeBe16 (v : UInt16) : (storeBe16 v).length = 2 := by
  simp [storeBe16]

@[simp] theorem length_storeBe32 (v : UInt32) : (storeBe32 v).length = 4 := by
  simp [storeBe32]

@[simp] theorem length_storeBe64 (v : UInt64) : (storeBe64 v).length = 8 := by
  simp [storeBe64]

@[simp] theorem length_storeBeI64 (v : Int64) : (storeBeI64 v).length = 8 := by
  rw [storeBeI64, length_storeBe64]

/-- A number shifted clear of another is put before it by the or. -/
theorem shifted_or {a b : Nat} (k : Nat) (h : b < 2 ^ k) : a * 2 ^ k ||| b = a * 2 ^ k + b := by
  rw [Nat.mul_comm, Nat.two_pow_add_eq_or_of_lt h]

@[simp] theorem loadBe16_storeBe16 (v : UInt16) (t : List UInt8) :
    loadBe16 (storeBe16 v ++ t) = v := by
  apply UInt16.toNat_inj.1
  have hv : v.toNat < 65536 := v.toNat_lt
  have hbytes : (loadBe16 (storeBe16 v ++ t)).toNat =
      v.toNat / 256 % 256 * 2 ^ 8 % 65536 ||| v.toNat % 256 := by
    simp [loadBe16, storeBe16, Nat.shiftLeft_eq, Nat.shiftRight_eq_div_pow]
  rw [hbytes, Nat.mod_eq_of_lt (by omega), shifted_or 8 (by omega)]
  omega

@[simp] theorem loadBe32_storeBe32 (v : UInt32) (t : List UInt8) :
    loadBe32 (storeBe32 v ++ t) = v := by
  apply UInt32.toNat_inj.1
  have hv : v.toNat < 4294967296 := v.toNat_lt
  have hbytes : (loadBe32 (storeBe32 v ++ t)).toNat =
      v.toNat / 16777216 % 256 * 2 ^ 24 % 4294967296 |||
        (v.toNat / 65536 % 256 * 2 ^ 16 % 4294967296 |||
          (v.toNat / 256 % 256 * 2 ^ 8 % 4294967296 ||| v.toNat % 256)) := by
    simp [loadBe32, storeBe32, Nat.shiftLeft_eq, Nat.shiftRight_eq_div_pow, Nat.or_assoc]
  rw [hbytes, Nat.mod_eq_of_lt (a := v.toNat / 16777216 % 256 * 2 ^ 24) (by omega),
    Nat.mod_eq_of_lt (a := v.toNat / 65536 % 256 * 2 ^ 16) (by omega),
    Nat.mod_eq_of_lt (a := v.toNat / 256 % 256 * 2 ^ 8) (by omega),
    shifted_or 8 (by omega), shifted_or 16 (by omega), shifted_or 24 (by omega)]
  omega

/-- One round of `load_be64` takes in the next byte of the word. -/
theorem toNat_shift_in {v w : UInt64} {s : Nat} (hs : s + 8 ≤ 64)
    (hw : w.toNat = v.toNat / 2 ^ (s + 8)) :
    (w <<< 8 ||| (v >>> UInt64.ofNat s).toUInt8.toUInt64).toNat = v.toNat / 2 ^ s := by
  have hv : v.toNat < 2 ^ 64 := v.toNat_lt
  have hmod : s % 18446744073709551616 % 64 = s := by omega
  have hdiv : v.toNat / 2 ^ (s + 8) = v.toNat / 2 ^ s / 256 := by
    rw [Nat.pow_add, Nat.div_div_eq_div_mul]
  have hle : v.toNat / 2 ^ s ≤ v.toNat := Nat.div_le_self _ _
  have hbytes : (w <<< 8 ||| (v >>> UInt64.ofNat s).toUInt8.toUInt64).toNat =
      v.toNat / 2 ^ s / 256 * 2 ^ 8 % 18446744073709551616 ||| v.toNat / 2 ^ s % 256 := by
    simp [Nat.shiftLeft_eq, Nat.shiftRight_eq_div_pow, hmod, hw, hdiv]
  rw [hbytes, Nat.mod_eq_of_lt (by omega), shifted_or 8 (by omega)]
  omega

theorem getD_storeBe64 (v : UInt64) (t : List UInt8) {i : Nat} (h : i < 8) :
    (storeBe64 v ++ t).getD i 0 = (v >>> UInt64.ofNat (56 - 8 * i)).toUInt8 := by
  rw [getD_append t (by simpa using h)]
  simp [storeBe64, List.getD_eq_getElem?_getD, List.getElem?_range h]

@[simp] theorem loadBe64_storeBe64 (v : UInt64) (t : List UInt8) :
    loadBe64 (storeBe64 v ++ t) = v := by
  -- after `n` rounds the accumulator holds the first `n` bytes
  have hround : ∀ n, n ≤ 8 → ((List.range n).foldl
      (fun (w : UInt64) i => w <<< 8 ||| ((storeBe64 v ++ t).getD i 0).toUInt64) 0).toNat =
        v.toNat / 2 ^ (64 - 8 * n) := by
    intro n hn
    induction n with
    | zero =>
      have hv : v.toNat < 2 ^ 64 := v.toNat_lt
      exact (Nat.div_eq_of_lt hv).symm
    | succ n ih =>
      rw [List.range_succ, List.foldl_append]
      simp only [List.foldl_cons, List.foldl_nil, getD_storeBe64 v t (show n < 8 by omega)]
      rw [show 64 - 8 * (n + 1) = 56 - 8 * n by omega]
      apply toNat_shift_in (by omega)
      rw [ih (by omega), show 56 - 8 * n + 8 = 64 - 8 * n by omega]
  apply UInt64.toNat_inj.1
  have hend := hround 8 (Nat.le_refl 8)
  have hone : 2 ^ (64 - 8 * 8) = 1 := rfl
  rwa [hone, Nat.div_one] at hend

@[simp] theorem loadBeI64_storeBeI64 (v : Int64) (t : List UInt8) :
    loadBeI64 (storeBeI64 v ++ t) = v := by
  rw [loadBeI64, storeBeI64, loadBe64_storeBe64]
  exact Int64.toInt64_toUInt64 v

/-! ## Messages -/

def MsgType.toByte : MsgType → UInt8
  | .heartbeat => 0
  | .trade => 1
  | .quote => 2
  | .newOrder => 3
  | .orderAck => 4

def sideByte : Side → UInt8
  | .buy => 0
  | .sell => 1

def typeByte : OrderType → UInt8
  | .limit => 0
  | .market => 1

def encodeBody : Body → List UInt8
  | .heartbeat => []
  | .trade t =>
    storeBe32 t.symbol ++ (storeBeI64 t.price ++ (storeBeI64 t.qty ++ storeBeI64 t.tsNs))
  | .quote q =>
    storeBe32 q.symbol ++ (storeBeI64 q.bidPx ++ (storeBeI64 q.bidQty ++ (storeBeI64 q.askPx ++
      (storeBeI64 q.askQty ++ storeBeI64 q.tsNs))))
  | .newOrder n =>
    storeBe64 n.clientOrderId ++ (storeBe32 n.symbol ++
      ([sideByte n.side, typeByte n.type, n.tif] ++ (storeBeI64 n.price ++ storeBeI64 n.qty)))
  | .orderAck a =>
    storeBe64 a.clientOrderId ++ (storeBe64 a.exchangeOrderId ++ ([a.status, a.rejectReason] ++
      (storeBeI64 a.filledQty ++ storeBeI64 a.avgPx)))

/-- The bytes that `encode` writes into a buffer of `cap` bytes. There are none
when it returns 0, for want of room. -/
def encode (msg : Message) (cap : Nat) : List UInt8 :=
  let bodyLen := bodySizeFor msg.body.type
  if cap < kHeaderSize + bodyLen then []
  else
    let body := encodeBody msg.body
    storeBe16 kMagic ++ ([kVersion, msg.body.type.toByte] ++ (storeBe32 (UInt32.ofNat bodyLen) ++
      (storeBe64 msg.seq ++ (storeBe16 (fletcher16 body) ++ (storeBe16 0 ++ body)))))

@[simp] theorem ofByte_toByte (type : MsgType) : MsgType.ofByte type.toByte = some type := by
  cases type <;> decide

@[simp] theorem side_sideByte (side : Side) :
    (if sideByte side = 0 then Side.buy else Side.sell) = side := by cases side <;> decide

@[simp] theorem type_typeByte (type : OrderType) :
    (if typeByte type = 0 then OrderType.limit else OrderType.market) = type := by
  cases type <;> decide

theorem length_encodeBody (body : Body) : (encodeBody body).length = bodySizeFor body.type := by
  cases body <;> rfl

/-- A field that a body ends with. -/
theorem loadBeI64_last (v : Int64) : loadBeI64 (storeBeI64 v) = v := by
  rw [← List.append_nil (storeBeI64 v), loadBeI64_storeBeI64]

/-- A read past a field is a read of what follows it. -/
theorem drop_field {l : List UInt8} (t : List UInt8) {n : Nat} (h : l.length ≤ n) :
    (l ++ t).drop n = t.drop (n - l.length) := by
  rw [List.drop_append, List.drop_of_length_le h, List.nil_append]

/-- The two switches agree on the layout of every body. -/
theorem decodeBody_encodeBody (body : Body) : decodeBody body.type (encodeBody body) = body := by
  cases body with
  | heartbeat => rfl
  | trade t => simp [decodeBody, encodeBody, Body.type, drop_field, loadBeI64_last]
  | quote q => simp [decodeBody, encodeBody, Body.type, drop_field, loadBeI64_last]
  | newOrder n => simp [decodeBody, encodeBody, Body.type, drop_field, loadBeI64_last]
  | orderAck a => simp [decodeBody, encodeBody, Body.type, drop_field, loadBeI64_last]

/-! ## Frames -/

/-- A message with room for its frame. -/
def Fits (cap : Nat) (msg : Message) : Prop := kHeaderSize + bodySizeFor msg.body.type ≤ cap

theorem length_encode {cap : Nat} {msg : Message} (h : Fits cap msg) :
    (encode msg cap).length = kHeaderSize + bodySizeFor msg.body.type := by
  rw [encode, if_neg (Nat.not_lt.2 h)]
  simp [length_encodeBody, kHeaderSize]
  omega

theorem loadBe16_encode {cap : Nat} {msg : Message} (h : Fits cap msg) (t : List UInt8) :
    loadBe16 (encode msg cap ++ t) = kMagic := by
  rw [encode, if_neg (Nat.not_lt.2 h), List.append_assoc, loadBe16_storeBe16]

theorem bodySizeFor_le (type : MsgType) : bodySizeFor type ≤ 44 := by cases type <;> decide

/-- An encoded message is the frame that was encoded, whatever follows. -/
theorem inspect_encode {cap maxBody : Nat} {msg : Message} (h : Fits cap msg)
    (hmax : 44 ≤ maxBody) (t : List UInt8) :
    inspect maxBody (encode msg cap ++ t) =
      .frame (some msg.body.type) msg.seq (encode msg cap).length (encodeBody msg.body) := by
  have hle := bodySizeFor_le msg.body.type
  have hlen : (encode msg cap ++ t).length =
      kHeaderSize + bodySizeFor msg.body.type + t.length := by
    rw [List.length_append, length_encode h]
  have hsize : (UInt32.ofNat (bodySizeFor msg.body.type)).toNat = bodySizeFor msg.body.type := by
    rw [UInt32.toNat_ofNat']
    omega
  have hbody : (((encode msg cap ++ t).drop kHeaderSize).take (bodySizeFor msg.body.type)) =
      encodeBody msg.body := by
    rw [encode, if_neg (Nat.not_lt.2 h)]
    simp [drop_field, kHeaderSize, ← length_encodeBody]
  have hread : loadBe16 (encode msg cap ++ t) = kMagic ∧ (encode msg cap ++ t).getD 2 0 = kVersion ∧
      (encode msg cap ++ t).getD 3 0 = msg.body.type.toByte ∧
      (loadBe32 ((encode msg cap ++ t).drop 4)).toNat = bodySizeFor msg.body.type ∧
      loadBe64 ((encode msg cap ++ t).drop 8) = msg.seq ∧
      loadBe16 ((encode msg cap ++ t).drop 16) = fletcher16 (encodeBody msg.body) := by
    rw [encode, if_neg (Nat.not_lt.2 h)]
    simp [drop_field, hsize, List.getElem?_append]
  obtain ⟨hmagic, hversion, htype, hbodyLen, hseq, hcsum⟩ := hread
  unfold inspect
  dsimp only
  rw [hbodyLen, hmagic, hversion, htype, hseq, hcsum, hbody, hlen, length_encode h, ofByte_toByte,
    if_neg (by omega), if_neg (by simp), if_neg (by simp), if_neg (by simp; omega),
    if_neg (by omega), if_neg (by simp)]

/-- The encoded messages, one after the other. -/
def stream (cap : Nat) (msgs : List Message) : List UInt8 := msgs.flatMap fun m => encode m cap

@[simp] theorem stream_nil (cap : Nat) : stream cap [] = [] := rfl

@[simp] theorem stream_cons (cap : Nat) (m : Message) (msgs : List Message) :
    stream cap (m :: msgs) = encode m cap ++ stream cap msgs := rfl

/-- What of a message is on the wire: its number and its body, with the type. -/
def content (m : Message) : UInt64 × Body := (m.seq, m.body)

/-! ## Parsing a stream -/

/-- From `a` to `b` a parse has reported `msgs` and consumed `n` bytes. -/
structure Reports (a b : Account) (msgs : List Message) (n : Nat) : Prop where
  messages : b.messages.map content = a.messages.map content ++ msgs.map content
  bytesConsumed : b.bytesConsumed = a.bytesConsumed + UInt64.ofNat n

theorem Reports.refl (a : Account) : Reports a a [] 0 := ⟨by simp, by simp⟩

theorem Reports.trans {a b c : Account} {msgs msgs' : List Message} {n n' : Nat}
    (h : Reports a b msgs n) (h' : Reports b c msgs' n') : Reports a c (msgs ++ msgs') (n + n') where
  messages := by rw [h'.messages, h.messages, List.map_append, List.append_assoc]
  bytesConsumed := by rw [h'.bytesConsumed, h.bytesConsumed, UInt64.ofNat_add, UInt64.add_assoc]

theorem reports_fault (a : Account) (fault : Fault) : Reports a (a.fault fault) [] 0 := by
  cases fault <;> exact ⟨by simp [Account.fault], by simp [Account.fault]⟩

theorem Account.sequence_bytesConsumed (a : Account) (seq : UInt64) :
    (a.sequence seq).bytesConsumed = a.bytesConsumed := by
  unfold sequence
  cases a.expected with
  | none => rfl
  | some next =>
    dsimp only
    split_ifs <;> rfl

theorem reports_frame (a : Account) (msg : Message) (len : Nat) :
    Reports a (a.frame (some msg.body.type) msg.seq len (encodeBody msg.body)) [msg] len := by
  refine ⟨?_, ?_⟩
  · simp [Account.frame, content, decodeBody_encodeBody]
  · simp [Account.frame, Account.sequence_bytesConsumed]

section Parsing

variable {cap maxBody : Nat} (hmax : 44 ≤ maxBody)
include hmax

/-- A stream of frames is parsed to its messages, whatever follows. -/
theorem parseAll_stream {msgs : List Message} (hfits : ∀ m ∈ msgs, Fits cap m) (a : Account)
    (t : List UInt8) :
    ∃ a', Reports a a' msgs (stream cap msgs).length ∧
      parseAll maxBody a (stream cap msgs ++ t) = parseAll maxBody a' t := by
  induction msgs generalizing a with
  | nil => exact ⟨a, Reports.refl a, rfl⟩
  | cons m msgs ih =>
    simp only [List.forall_mem_cons] at hfits
    obtain ⟨a', hrep, hparse⟩ := ih hfits.2
      (a.frame (some m.body.type) m.seq (encode m cap).length (encodeBody m.body))
    refine ⟨a', ?_, ?_⟩
    · rw [stream_cons, List.length_append]
      exact (reports_frame a m _).trans hrep
    · rw [stream_cons, List.append_assoc, parseAll_of_frame (inspect_encode hfits.1 hmax _),
        List.drop_left, hparse]

end Parsing

/-! ## Damage -/

/-- The body length that a header declares. -/
def declared (w : List UInt8) : Nat := (loadBe32 (w.drop 4)).toNat

/-- The header tests: magic, version and length. -/
def HeaderPasses (maxBody : Nat) (w : List UInt8) : Prop :=
  kHeaderSize ≤ w.length ∧ loadBe16 w = kMagic ∧ w.getD 2 0 = kVersion ∧ declared w ≤ maxBody ∧
    ∀ type ∈ MsgType.ofByte (w.getD 3 0), declared w = bodySizeFor type

/-- All the tests: the checksum as well, over a body that is all there. -/
def FramePasses (maxBody : Nat) (w : List UInt8) : Prop :=
  HeaderPasses maxBody w ∧ kHeaderSize + declared w ≤ w.length ∧
    fletcher16 ((w.drop kHeaderSize).take (declared w)) = loadBe16 (w.drop 16)

/-- Bytes `g` in front of `rest` at none of whose offsets a frame can be read, nor
a header whose frame would end past the last byte. -/
def Damage (maxBody : Nat) (g rest : List UInt8) : Prop :=
  ∀ i < g.length, ¬ FramePasses maxBody (g.drop i ++ rest) ∧
    (HeaderPasses maxBody (g.drop i ++ rest) →
      kHeaderSize + declared (g.drop i ++ rest) ≤ (g.drop i ++ rest).length)

theorem Damage.tail {maxBody : Nat} {b : UInt8} {g rest : List UInt8}
    (h : Damage maxBody (b :: g) rest) : Damage maxBody g rest :=
  fun i hi => h (i + 1) (Nat.succ_lt_succ hi)

theorem Damage.suffix {maxBody : Nat} {g g' rest : List UInt8} (h : Damage maxBody g rest)
    (hg : g' <:+ g) : Damage maxBody g' rest := by
  obtain ⟨l, rfl⟩ := hg
  induction l with
  | nil => exact h
  | cons b l ih => exact ih h.tail

/-- Where there is a whole header, a damaged offset is passed over. -/
theorem Damage.skips {maxBody : Nat} {b : UInt8} {g rest : List UInt8}
    (h : Damage maxBody (b :: g) rest) (hlen : kHeaderSize ≤ (b :: g ++ rest).length) :
    ∃ fault, inspect maxBody (b :: g ++ rest) = .skip fault := by
  obtain ⟨hno, hends⟩ := h 0 (Nat.succ_pos _)
  rw [List.drop_zero] at hno hends
  generalize b :: g ++ rest = w at hno hends hlen
  have hheader : ¬ loadBe16 w ≠ kMagic → ¬ w.getD 2 0 ≠ kVersion →
      ¬ (declared w > maxBody ∨
        (MsgType.ofByte (w.getD 3 0)).any fun type => declared w ≠ bodySizeFor type) →
      HeaderPasses maxBody w := by
    intro hmagic hversion hlength
    refine ⟨hlen, not_not.mp hmagic, not_not.mp hversion, by omega, fun type htype => ?_⟩
    by_contra hne
    rw [htype] at hlength
    exact hlength (.inr (by simpa using hne))
  unfold inspect
  dsimp only
  split_ifs with hshort hmagic hversion hlength hpart hsum
  · omega
  · exact ⟨_, rfl⟩
  · exact ⟨_, rfl⟩
  · exact ⟨_, rfl⟩
  · exact absurd (hends (hheader hmagic hversion hlength)) (Nat.not_le.2 hpart)
  · exact ⟨_, rfl⟩
  · exact absurd ⟨hheader hmagic hversion hlength, Nat.not_lt.1 hpart, not_not.mp hsum⟩ hno

/-- No frame is read at a damaged offset. -/
theorem Damage.not_frame {maxBody : Nat} {b : UInt8} {g rest : List UInt8}
    (h : Damage maxBody (b :: g) rest) (type : Option MsgType) (seq : UInt64) (len : Nat)
    (body : List UInt8) : inspect maxBody (b :: g ++ rest) ≠ .frame type seq len body := by
  intro hv
  have hne : inspect maxBody (b :: g ++ rest) ≠ .stop := by
    rw [hv]
    exact Verdict.noConfusion
  obtain ⟨fault, hskip⟩ := h.skips (inspect_length hne)
  rw [hskip] at hv
  cases hv

theorem length_stream {cap : Nat} {msgs : List Message} (hfits : ∀ m ∈ msgs, Fits cap m)
    (hne : msgs ≠ []) : kHeaderSize ≤ (stream cap msgs).length := by
  cases msgs with
  | nil => exact absurd rfl hne
  | cons m msgs =>
    rw [stream_cons, List.length_append, length_encode (hfits m (by simp))]
    omega

/-- Damage before a stream of frames costs none of them. -/
theorem parseAll_damage {cap maxBody : Nat} (hmax : 44 ≤ maxBody) {msgs : List Message}
    (hfits : ∀ m ∈ msgs, Fits cap m) {g : List UInt8} (hg : Damage maxBody g (stream cap msgs))
    (a : Account) :
    Reports a (parseAll maxBody a (g ++ stream cap msgs)) msgs (stream cap msgs).length := by
  induction g generalizing a with
  | nil =>
    obtain ⟨a', hrep, hparse⟩ := parseAll_stream hmax hfits a []
    rw [List.append_nil] at hparse
    rwa [List.nil_append, hparse, parseAll_of_stop (inspect_of_short (by decide))]
  | cons b g ih =>
    by_cases hlen : kHeaderSize ≤ (b :: g ++ stream cap msgs).length
    · obtain ⟨fault, hskip⟩ := hg.skips hlen
      rw [parseAll_of_skip hskip]
      have hrest := (reports_fault a fault).trans (ih hg.tail (a.fault fault))
      rwa [List.nil_append, Nat.zero_add] at hrest
    · -- too short for a header, so there are no frames behind it
      have hnil : msgs = [] := by
        by_contra hne
        have := length_stream hfits hne
        simp only [List.length_append] at hlen
        omega
      subst hnil
      rw [parseAll_of_stop (inspect_of_short (Nat.not_le.1 hlen))]
      exact Reports.refl a

end Lloms.Wire
