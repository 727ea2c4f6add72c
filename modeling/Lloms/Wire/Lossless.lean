import Lloms.Wire.Chunking
import Lloms.Wire.Encode

/-! Decoding loses nothing: what an accepted frame must be, byte by byte, and when
encoding the message again gives the frame back. The two reserved bytes are skipped
and the side and type of an order are read as zero or not, so these bytes are the
only ones that can be lost. -/
namespace Lloms.Wire
open FrameDecoder

/-! ## Stores after loads -/

theorem toNat_loadBe16 (a b : UInt8) (t : List UInt8) :
    (loadBe16 (a :: b :: t)).toNat = a.toNat * 2 ^ 8 + b.toNat := by
  have ha : a.toNat < 256 := a.toNat_lt
  have hbytes : (loadBe16 (a :: b :: t)).toNat = a.toNat * 2 ^ 8 % 65536 ||| b.toNat := by
    simp [loadBe16, Nat.shiftLeft_eq]
  rw [hbytes, Nat.mod_eq_of_lt (by omega), shifted_or 8 b.toNat_lt]

theorem storeBe16_loadBe16 {p : List UInt8} (h : 2 ≤ p.length) :
    storeBe16 (loadBe16 p) = p.take 2 := by
  match p, h with
  | a :: b :: t, _ =>
    have ha : a.toNat < 256 := a.toNat_lt
    have hb : b.toNat < 256 := b.toNat_lt
    have hv := toNat_loadBe16 a b t
    simp only [storeBe16, List.take_succ_cons, List.take_zero, List.cons.injEq, and_true,
      ← UInt8.toNat_inj, UInt16.toNat_toUInt8, UInt16.toNat_shiftRight,
      Nat.shiftRight_eq_div_pow, hv]
    exact ⟨by simp; omega, by omega⟩

theorem toNat_loadBe32 (a b c e : UInt8) (t : List UInt8) :
    (loadBe32 (a :: b :: c :: e :: t)).toNat =
      a.toNat * 2 ^ 24 + (b.toNat * 2 ^ 16 + (c.toNat * 2 ^ 8 + e.toNat)) := by
  have ha : a.toNat < 256 := a.toNat_lt
  have hb : b.toNat < 256 := b.toNat_lt
  have hc : c.toNat < 256 := c.toNat_lt
  have he : e.toNat < 256 := e.toNat_lt
  have hbytes : (loadBe32 (a :: b :: c :: e :: t)).toNat =
      a.toNat * 2 ^ 24 % 4294967296 ||| (b.toNat * 2 ^ 16 % 4294967296 |||
        (c.toNat * 2 ^ 8 % 4294967296 ||| e.toNat)) := by
    simp [loadBe32, Nat.shiftLeft_eq, Nat.or_assoc]
  rw [hbytes, Nat.mod_eq_of_lt (a := a.toNat * 2 ^ 24) (by omega),
    Nat.mod_eq_of_lt (a := b.toNat * 2 ^ 16) (by omega),
    Nat.mod_eq_of_lt (a := c.toNat * 2 ^ 8) (by omega), shifted_or 8 (by omega),
    shifted_or 16 (by omega), shifted_or 24 (by omega)]

theorem storeBe32_loadBe32 {p : List UInt8} (h : 4 ≤ p.length) :
    storeBe32 (loadBe32 p) = p.take 4 := by
  match p, h with
  | a :: b :: c :: e :: t, _ =>
    have ha : a.toNat < 256 := a.toNat_lt
    have hb : b.toNat < 256 := b.toNat_lt
    have hc : c.toNat < 256 := c.toNat_lt
    have he : e.toNat < 256 := e.toNat_lt
    have hv := toNat_loadBe32 a b c e t
    simp only [storeBe32, List.take_succ_cons, List.take_zero, List.cons.injEq, and_true,
      ← UInt8.toNat_inj, UInt32.toNat_toUInt8, UInt32.toNat_shiftRight,
      Nat.shiftRight_eq_div_pow, hv]
    exact ⟨by simp; omega, by simp; omega, by simp; omega, by omega⟩

/-- One round of `load_be64`, as long as there is room for the byte. -/
theorem toNat_shift_byte {w : UInt64} (b : UInt8) (hw : w.toNat < 2 ^ 56) :
    (w <<< 8 ||| b.toUInt64).toNat = w.toNat * 2 ^ 8 + b.toNat := by
  have hbytes : (w <<< 8 ||| b.toUInt64).toNat =
      w.toNat * 2 ^ 8 % 18446744073709551616 ||| b.toNat := by
    simp [Nat.shiftLeft_eq]
  rw [hbytes, Nat.mod_eq_of_lt (by omega), shifted_or 8 b.toNat_lt]

/-- The bytes of `p` that the first rounds of `load_be64` have taken in come back out of
the accumulator at their places. -/
theorem loadBe64_rounds (p : List UInt8) (n : Nat) (hn : n ≤ 8) :
    let v := (List.range n).foldl (fun (v : UInt64) i => v <<< 8 ||| (p.getD i 0).toUInt64) 0
    v.toNat < 256 ^ n ∧
      ∀ i < n, v.toNat / 256 ^ (n - 1 - i) % 256 = (p.getD i 0).toNat := by
  induction n with
  | zero => exact ⟨by simp, fun i hi => absurd hi (Nat.not_lt_zero i)⟩
  | succ n ih =>
    obtain ⟨hlt, hbytes⟩ := ih (by omega)
    rw [List.range_succ, List.foldl_append, List.foldl_cons, List.foldl_nil]
    generalize (List.range n).foldl (fun (v : UInt64) i => v <<< 8 ||| (p.getD i 0).toUInt64) 0
      = v at hlt hbytes ⊢
    have hb : (p.getD n 0).toNat < 256 := (p.getD n 0).toNat_lt
    have hroom : v.toNat < 2 ^ 56 := hlt.trans_le
      ((Nat.pow_le_pow_right (by decide) (by omega : n ≤ 7)).trans (by decide))
    dsimp only
    rw [toNat_shift_byte _ hroom]
    refine ⟨by rw [Nat.pow_succ]; omega, fun i hi => ?_⟩
    rcases Nat.lt_succ_iff_lt_or_eq.mp hi with hlow | rfl
    · have hpow : 256 ^ (n + 1 - 1 - i) = 256 * 256 ^ (n - 1 - i) := by
        rw [show n + 1 - 1 - i = (n - 1 - i) + 1 by omega, Nat.pow_succ, Nat.mul_comm]
      have hdiv : (v.toNat * 2 ^ 8 + (p.getD n 0).toNat) / 256 = v.toNat := by omega
      rw [← hbytes i hlow, hpow, ← Nat.div_div_eq_div_mul, hdiv]
    · rw [show i + 1 - 1 - i = 0 by omega]
      omega

theorem storeBe64_loadBe64 {p : List UInt8} (h : 8 ≤ p.length) :
    storeBe64 (loadBe64 p) = p.take 8 := by
  apply List.ext_getElem (by simpa using h)
  intro i hi hi'
  have hi8 : i < 8 := by simpa using hi
  obtain ⟨-, hbytes⟩ := loadBe64_rounds p 8 (Nat.le_refl 8)
  have hshift : (56 - 8 * i) % 18446744073709551616 % 64 = 8 * (7 - i) := by omega
  have hpow : (256 : Nat) ^ (8 - 1 - i) = 2 ^ (8 * (7 - i)) := by rw [Nat.pow_mul]
  have hread : (p.getD i 0).toNat = p[i].toNat := by
    rw [List.getD_eq_getElem?_getD, List.getElem?_eq_getElem (by omega), Option.getD_some]
  have hi64 : (UInt64.ofNat (56 - 8 * i)).toNat % 64 = 8 * (7 - i) := by
    rw [UInt64.toNat_ofNat']
    exact hshift
  apply UInt8.toNat_inj.1
  simp only [storeBe64, List.getElem_map, List.getElem_range, List.getElem_take,
    UInt64.toNat_toUInt8, UInt64.toNat_shiftRight, Nat.shiftRight_eq_div_pow, hi64]
  rw [← hread, ← hbytes i hi8, hpow]
  rfl

theorem storeBeI64_loadBeI64 {p : List UInt8} (h : 8 ≤ p.length) :
    storeBeI64 (loadBeI64 p) = p.take 8 := by
  rw [storeBeI64, loadBeI64, UInt64.toUInt64_toInt64, storeBe64_loadBe64 h]

/-! ## Fields

A field of a byte string is stored again as the bytes it was loaded from. -/

section Fields

variable {b : List UInt8} {n : Nat}

theorem field16 (h : n + 2 ≤ b.length) :
    storeBe16 (loadBe16 (b.drop n)) ++ b.drop (n + 2) = b.drop n := by
  rw [storeBe16_loadBe16 (by simp; omega), ← List.drop_drop, List.take_append_drop]

theorem field32 (h : n + 4 ≤ b.length) :
    storeBe32 (loadBe32 (b.drop n)) ++ b.drop (n + 4) = b.drop n := by
  rw [storeBe32_loadBe32 (by simp; omega), ← List.drop_drop, List.take_append_drop]

theorem field64 (h : n + 8 ≤ b.length) :
    storeBe64 (loadBe64 (b.drop n)) ++ b.drop (n + 8) = b.drop n := by
  rw [storeBe64_loadBe64 (by simp; omega), ← List.drop_drop, List.take_append_drop]

theorem fieldI64 (h : n + 8 ≤ b.length) :
    storeBeI64 (loadBeI64 (b.drop n)) ++ b.drop (n + 8) = b.drop n := by
  rw [storeBeI64_loadBeI64 (by simp; omega), ← List.drop_drop, List.take_append_drop]

/-- A field that the bytes end with. -/
theorem fieldI64_last (h : n + 8 = b.length) :
    storeBeI64 (loadBeI64 (b.drop n)) = b.drop n := by
  have hall := fieldI64 (Nat.le_of_eq h)
  rwa [List.drop_of_length_le (Nat.le_of_eq h.symm), List.append_nil] at hall

theorem field8 (h : n < b.length) : b.getD n 0 :: b.drop (n + 1) = b.drop n := by
  rw [List.getD_eq_getElem?_getD, List.getElem?_eq_getElem h, Option.getD_some,
    List.drop_eq_getElem_cons h]

end Fields

/-! ## Bodies -/

/-- Zero or one, the two values the enumerators of a side and of an order type have. -/
def Flag (x : UInt8) : Prop := x = 0 ∨ x = 1

instance (x : UInt8) : Decidable (Flag x) := inferInstanceAs (Decidable (_ ∨ _))

theorem sideByte_eq_iff (x : UInt8) :
    sideByte (if x = 0 then Side.buy else Side.sell) = x ↔ Flag x := by
  by_cases hx : x = 0
  · rw [if_pos hx, hx]
    decide
  · rw [if_neg hx, Flag, or_iff_right hx, eq_comm]
    rfl

theorem typeByte_eq_iff (x : UInt8) :
    typeByte (if x = 0 then OrderType.limit else OrderType.market) = x ↔ Flag x := by
  by_cases hx : x = 0
  · rw [if_pos hx, hx]
    decide
  · rw [if_neg hx, Flag, or_iff_right hx, eq_comm]
    rfl

/-- An order's side and type are stored as flags. -/
def FlagsOf (type : MsgType) (b : List UInt8) : Prop :=
  type = .newOrder → Flag (b.getD 12 0) ∧ Flag (b.getD 13 0)

/-- The converse of `decodeBody_encodeBody`: only the two flags of an order lose
anything. -/
theorem encodeBody_decodeBody (type : MsgType) {b : List UInt8}
    (h : b.length = bodySizeFor type) :
    encodeBody (decodeBody type b) = b ↔ FlagsOf type b := by
  have hall : ∀ {c : List UInt8}, c = b → type ≠ .newOrder → (c = b ↔ FlagsOf type b) :=
    fun hc hne => iff_of_true hc fun heq => absurd heq hne
  cases type with
  | heartbeat =>
    have hnil : b = [] := List.length_eq_zero_iff.mp h
    exact hall hnil.symm (by decide)
  | trade =>
    have hlen : b.length = 28 := h
    refine hall ?_ (by decide)
    rw [decodeBody, encodeBody, fieldI64_last (n := 20) (by omega), fieldI64 (n := 12) (by omega),
      fieldI64 (n := 4) (by omega)]
    exact field32 (n := 0) (by omega)
  | quote =>
    have hlen : b.length = 44 := h
    refine hall ?_ (by decide)
    rw [decodeBody, encodeBody, fieldI64_last (n := 36) (by omega), fieldI64 (n := 28) (by omega),
      fieldI64 (n := 20) (by omega), fieldI64 (n := 12) (by omega), fieldI64 (n := 4) (by omega)]
    exact field32 (n := 0) (by omega)
  | newOrder =>
    have hlen : b.length = 31 := h
    have hid : storeBe64 (loadBe64 b) ++ b.drop 8 = b := field64 (n := 0) (by omega)
    have hsym := field32 (b := b) (n := 8) (by omega)
    have htif := field8 (b := b) (n := 14) (by omega)
    have htail : b.getD 12 0 :: b.getD 13 0 :: b.drop 14 = b.drop 12 := by
      rw [field8 (n := 13) (by omega), field8 (n := 12) (by omega)]
    rw [decodeBody, encodeBody, fieldI64_last (n := 23) (by omega), fieldI64 (n := 15) (by omega)]
    have hparts : storeBe64 (loadBe64 b) ++ (storeBe32 (loadBe32 (b.drop 8)) ++
        ([b.getD 12 0, b.getD 13 0, b.getD 14 0] ++ b.drop 15)) = b := by
      rw [List.cons_append, List.cons_append, List.cons_append, List.nil_append, htif, htail,
        hsym, hid]
    constructor
    · intro heq _
      have hcons := List.append_cancel_left (List.append_cancel_left (heq.trans hparts.symm))
      simp only [List.cons_append, List.cons.injEq] at hcons
      exact ⟨(sideByte_eq_iff _).mp hcons.1, (typeByte_eq_iff _).mp hcons.2.1⟩
    · intro hflags
      obtain ⟨hside, htype⟩ := hflags rfl
      rw [(sideByte_eq_iff _).mpr hside, (typeByte_eq_iff _).mpr htype]
      exact hparts
  | orderAck =>
    have hlen : b.length = 34 := h
    refine hall ?_ (by decide)
    rw [decodeBody, encodeBody, fieldI64_last (n := 26) (by omega), fieldI64 (n := 18) (by omega),
      List.cons_append, List.cons_append, List.nil_append, field8 (n := 17) (by omega),
      field8 (n := 16) (by omega), field64 (n := 8) (by omega)]
    exact field64 (n := 0) (by omega)

/-! ## Frames -/

/-- A frame of a known type, field by field. The reserved bytes can be anything. -/
structure Framed (type : MsgType) (seq : UInt64) (bs : List UInt8) : Prop where
  length : bs.length = kHeaderSize + bodySizeFor type
  magic : loadBe16 bs = kMagic
  version : bs.getD 2 0 = kVersion
  typeByte : bs.getD 3 0 = type.toByte
  declared : loadBe32 (bs.drop 4) = UInt32.ofNat (bodySizeFor type)
  seq : loadBe64 (bs.drop 8) = seq
  checksum : loadBe16 (bs.drop 16) = fletcher16 (bs.drop kHeaderSize)

theorem toByte_of_ofByte {x : UInt8} {type : MsgType} (h : MsgType.ofByte x = some type) :
    x = type.toByte := by
  unfold MsgType.ofByte at h
  split_ifs at h with h0 h1 h2 h3 h4 <;> cases h <;> assumption

/-- What the checks of the decoder say about the bytes they pass. -/
theorem framed_of_inspect {maxBody : Nat} {w : List UInt8} {type : MsgType} {seq : UInt64}
    {len : Nat} {body : List UInt8} (h : inspect maxBody w = .frame (some type) seq len body) :
    Framed type seq (w.take len) ∧ body = (w.take len).drop kHeaderSize := by
  obtain ⟨hge, hle⟩ := inspect_frame h
  have hge20 : 20 ≤ len := hge
  have hw : w = w.take len ++ w.drop len := (List.take_append_drop len w).symm
  have hlen : (w.take len).length = len := by simpa using hle
  have hdrop : ∀ n, n ≤ 20 → w.drop n = (w.take len).drop n ++ w.drop len := fun n hn => by
    rw [← List.drop_append_of_le_length (by omega), ← hw]
  have hmagic : loadBe16 w = loadBe16 (w.take len) := by
    conv_lhs => rw [hw, loadBe16_append _ (by omega)]
  have hversion : w.getD 2 0 = (w.take len).getD 2 0 := by
    conv_lhs => rw [hw, getD_append _ (by omega)]
  have htype : w.getD 3 0 = (w.take len).getD 3 0 := by
    conv_lhs => rw [hw, getD_append _ (by omega)]
  have hbody : loadBe32 (w.drop 4) = loadBe32 ((w.take len).drop 4) := by
    rw [hdrop 4 (by omega), loadBe32_append _ (by simp; omega)]
  have hseq : loadBe64 (w.drop 8) = loadBe64 ((w.take len).drop 8) := by
    rw [hdrop 8 (by omega), loadBe64_append _ (by simp; omega)]
  have hcsum : loadBe16 (w.drop 16) = loadBe16 ((w.take len).drop 16) := by
    rw [hdrop 16 (by omega), loadBe16_append _ (by simp; omega)]
  unfold inspect at h
  dsimp only at h
  rw [hmagic, hversion, htype, hbody, hseq, hcsum] at h
  generalize hsize : (loadBe32 ((w.take len).drop 4)).toNat = n at h
  split_ifs at h with h1 h2 h3 h4 h5 h6
  injection h with htype' hseq' hlen' hbody'
  have hfull : n = bodySizeFor type := by
    have hany := (not_or.mp h4).2
    rw [htype'] at hany
    simpa using hany
  have hcut : body = (w.take len).drop kHeaderSize := by
    rw [← hbody', ← hlen', List.drop_take, Nat.add_sub_cancel_left]
  refine ⟨⟨by rw [hlen, ← hlen', hfull], not_not.mp h2, not_not.mp h3, toByte_of_ofByte htype',
    ?_, hseq', ?_⟩, hcut⟩
  · rw [← hfull, ← hsize, UInt32.ofNat_toNat]
  · rw [← hcut, ← hbody']
    exact (not_not.mp h6).symm

/-- The bytes of a frame, from the fields that are checked, the reserved bytes and the body. -/
theorem Framed.layout {type : MsgType} {seq : UInt64} {bs : List UInt8}
    (h : Framed type seq bs) :
    storeBe16 kMagic ++ ([kVersion, type.toByte] ++ (storeBe32 (UInt32.ofNat (bodySizeFor type)) ++
      (storeBe64 seq ++ (storeBe16 (fletcher16 (bs.drop kHeaderSize)) ++
        (storeBe16 (loadBe16 (bs.drop 18)) ++ bs.drop kHeaderSize))))) = bs := by
  have hlen : 20 ≤ bs.length := by
    rw [h.length]
    exact Nat.le_add_right 20 _
  rw [← h.checksum, ← h.seq, ← h.declared, ← h.typeByte, ← h.version, ← h.magic, kHeaderSize,
    field16 (n := 18) (by omega), field16 (n := 16) (by omega), field64 (n := 8) (by omega),
    field32 (n := 4) (by omega), List.cons_append, List.cons_append, List.nil_append,
    field8 (n := 3) (by omega), field8 (n := 2) (by omega)]
  exact field16 (n := 0) (by omega)

/-- What a frame can lose: anything in its reserved bytes, and more than a bit in the side
and type of an order. -/
def Canonical (bs : List UInt8) : Prop :=
  loadBe16 (bs.drop 18) = 0 ∧
    (MsgType.ofByte (bs.getD 3 0) = some .newOrder → Flag (bs.getD 32 0) ∧ Flag (bs.getD 33 0))

instance (bs : List UInt8) : Decidable (Canonical bs) := inferInstanceAs (Decidable (_ ∧ (_ → _)))

theorem encode_of_fits {cap : Nat} {msg : Message} (h : Fits cap msg) :
    encode msg cap = storeBe16 kMagic ++ ([kVersion, msg.body.type.toByte] ++
      (storeBe32 (UInt32.ofNat (bodySizeFor msg.body.type)) ++ (storeBe64 msg.seq ++
        (storeBe16 (fletcher16 (encodeBody msg.body)) ++
          (storeBe16 0 ++ encodeBody msg.body))))) := by
  rw [encode, if_neg (Nat.not_lt.2 h)]

theorem getD_drop (bs : List UInt8) (n i : Nat) : (bs.drop n).getD i 0 = bs.getD (n + i) 0 := by
  rw [List.getD_eq_getElem?_getD, List.getD_eq_getElem?_getD, List.getElem?_drop]

/-- Encoding the message of a frame gives its bytes back exactly when they are canonical. -/
theorem Framed.encode_iff {type : MsgType} {seq : UInt64} {bs : List UInt8}
    (h : Framed type seq bs) {cap : Nat} {msg : Message} (hcap : bs.length ≤ cap)
    (hseq : msg.seq = seq) (hbody : msg.body = decodeBody type (bs.drop kHeaderSize)) :
    encode msg cap = bs ↔ Canonical bs := by
  have htype : msg.body.type = type := by rw [hbody, decodeBody_type]
  have hfits : Fits cap msg := by
    rw [Fits, htype, ← h.length]
    exact hcap
  have hsize : (bs.drop kHeaderSize).length = bodySizeFor type := by
    rw [List.length_drop, h.length, Nat.add_sub_cancel_left]
  have hflags : FlagsOf type (bs.drop kHeaderSize) ↔
      (MsgType.ofByte (bs.getD 3 0) = some .newOrder →
        Flag (bs.getD 32 0) ∧ Flag (bs.getD 33 0)) := by
    rw [h.typeByte, ofByte_toByte, Option.some.injEq, FlagsOf, getD_drop, getD_drop]
    rfl
  rw [Canonical, ← hflags, ← encodeBody_decodeBody type hsize, ← hbody]
  constructor
  · intro heq
    rw [encode_of_fits hfits, htype, hseq] at heq
    -- from byte 18 on both sides have only the reserved bytes and the body
    have hbytes := congrArg (List.drop 18) (heq.trans h.layout.symm)
    simp only [drop_field, length_storeBe16, length_storeBe32, length_storeBe64, List.length_cons,
      List.length_nil, Nat.reduceLeDiff, Nat.reduceAdd, Nat.reduceSub, List.drop_zero] at hbytes
    obtain ⟨hreserved, hrest⟩ := List.append_inj hbytes (by simp)
    refine ⟨?_, hrest⟩
    have hload := congrArg (fun l => loadBe16 (l ++ [])) hreserved
    simp only [loadBe16_storeBe16] at hload
    exact hload.symm
  · rintro ⟨hreserved, hrest⟩
    rw [encode_of_fits hfits, htype, hseq, hrest, ← hreserved]
    exact h.layout

/-! ## What the decoder accepts -/

/-- A call of `next` returns `m` in its first round, and `bs` are the bytes that this takes
off the buffer: the decoder accepts them as one frame of a known type. -/
def Accepts (d : FrameDecoder) (bs : List UInt8) (m : Message) : Prop :=
  ∃ d', d.nextStep = .done d' (some m) ∧ d.window = bs ++ d'.window

theorem Accepts.framed {d : FrameDecoder} {bs : List UInt8} {m : Message} (h : Accepts d bs m) :
    ∃ type, Framed type m.seq bs ∧ m.body = decodeBody type (bs.drop kHeaderSize) := by
  obtain ⟨d', hstep, hwin⟩ := h
  have hround := nextStep_round d
  rw [hstep] at hround
  generalize hs : Step.done d' (some m) = s at hround
  cases hround with
  | wait hv => cases hs
  | hunt hv =>
    unfold FrameDecoder.hunt at hs
    split at hs <;> cases hs
  | @accept type seq len body body' hv hbody =>
    cases type with
    | none => cases hs
    | some type =>
      obtain ⟨hge, hle⟩ := inspect_frame hv
      have hpos : 0 < kHeaderSize := by decide
      have hin : d.rpos ≤ d.buf.length := by
        rw [length_window, buffered] at hle
        omega
      obtain ⟨hframed, hcut⟩ := framed_of_inspect hv
      injection hs with hd hm
      injection hm with hm
      have hwin' : d'.window = d.window.drop len := by
        rw [hd]
        exact (consume_spec hin seq hle).1
      have hbs : bs = d.window.take len :=
        List.append_cancel_right (by rw [← hwin, hwin', List.take_append_drop])
      rw [hm, hbs]
      refine ⟨type, hframed, ?_⟩
      rw [← hcut]
      exact hbody type rfl

/-- **Decoding loses nothing else.** The bytes of an accepted frame are given back by
encoding its message exactly when the reserved field is zero and, for an order, side and
type are flags; so no two such frames have one message. -/
theorem encode_accepted {d : FrameDecoder} {bs : List UInt8} {m : Message} (h : Accepts d bs m) :
    (∀ cap, bs.length ≤ cap → (encode m cap = bs ↔ Canonical bs)) ∧
    ∀ (d₂ : FrameDecoder) (bs₂ : List UInt8) (m₂ : Message), Accepts d₂ bs₂ m₂ →
      Canonical bs → Canonical bs₂ → bs ≠ bs₂ → content m ≠ content m₂ := by
  obtain ⟨type, hframed, hbody⟩ := h.framed
  refine ⟨fun cap hcap => hframed.encode_iff hcap rfl hbody, ?_⟩
  intro d₂ bs₂ m₂ h₂ hcan hcan₂ hne heq
  obtain ⟨type₂, hframed₂, hbody₂⟩ := h₂.framed
  rw [content, content, Prod.mk.injEq] at heq
  -- a buffer with room for both frames
  let cap := max bs.length bs₂.length
  have hback : encode m cap = bs :=
    (hframed.encode_iff (Nat.le_max_left _ _) rfl hbody).mpr hcan
  have hback₂ : encode m₂ cap = bs₂ :=
    (hframed₂.encode_iff (Nat.le_max_right _ _) rfl hbody₂).mpr hcan₂
  have hsame : encode m cap = encode m₂ cap := by simp only [encode, heq.1, heq.2]
  exact hne (hback.symm.trans (hsame.trans hback₂))

/-- An order whose side byte is 2: accepted, read as a sell and encoded with a 1. -/
def sideTwo : List UInt8 :=
  [0x4B, 0x58, 1, 3, 0, 0, 0, 31, 0, 0, 0, 0, 0, 0, 0, 9, 255, 21, 0, 0,
    0, 0, 0, 0, 0, 0, 0, 1, 0, 0, 0, 5, 2, 0, 0, 0, 0, 0, 0, 0, 0, 0, 10, 0, 0, 0, 0, 0, 0, 0, 3]

def sideTwoMessage : Message where
  seq := 9
  gapBefore := 0
  body := .newOrder
    { clientOrderId := 1, symbol := 5, side := .sell, type := .limit, tif := 0, price := 10, qty := 3 }

theorem accepts_sideTwo :
    Accepts (({} : FrameDecoder).feed sideTwo) sideTwo sideTwoMessage := ⟨_, rfl, rfl⟩

theorem encode_accepted_sideTwo :
    Accepts (({} : FrameDecoder).feed sideTwo) sideTwo sideTwoMessage ∧
      encode sideTwoMessage 64 ≠ sideTwo := by
  refine ⟨accepts_sideTwo, ?_⟩
  rw [ne_eq, (encode_accepted accepts_sideTwo).1 64 (by decide)]
  decide

end Lloms.Wire
