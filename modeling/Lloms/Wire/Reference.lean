import Lloms.Wire.Message

/-! The reference parse of a byte string: greedy, left to right, one offset at a
time. `inspect` looks at the bytes from one offset on and `parseAll` runs to the
first place where it must stop. The lemmas say that the parse of a prefix can be
taken up again once more bytes are there. -/
namespace Lloms.Wire

/-- Why the bytes at an offset are no frame. -/
inductive Fault where
  | magic
  | version
  | length
  | checksum
  deriving DecidableEq, Repr

/-- What stands at an offset: too little to tell, no frame, or a frame of `len`
bytes with everything known about it. -/
inductive Verdict where
  | stop
  | skip (fault : Fault)
  | frame (type : Option MsgType) (seq : UInt64) (len : Nat) (body : List UInt8)
  deriving DecidableEq, Repr

def inspect (maxBody : Nat) (w : List UInt8) : Verdict :=
  let type := MsgType.ofByte (w.getD 3 0)
  let bodyLen := (loadBe32 (w.drop 4)).toNat
  let body := (w.drop kHeaderSize).take bodyLen
  if w.length < kHeaderSize then .stop
  else if loadBe16 w ≠ kMagic then .skip .magic
  else if w.getD 2 0 ≠ kVersion then .skip .version
  else if bodyLen > maxBody ∨ type.any fun type => bodyLen ≠ bodySizeFor type then .skip .length
  else if w.length < kHeaderSize + bodyLen then .stop
  else if fletcher16 body ≠ loadBe16 (w.drop 16) then .skip .checksum
  else .frame type (loadBe64 (w.drop 8)) (kHeaderSize + bodyLen) body

/-- What a parse has to report so far, and the sequence number it expects next,
once it has seen one. `pendingGap` counts the numbers missing since the last
message that was delivered. -/
structure Account where
  messages : List Message := []
  framesDecoded : UInt64 := 0
  bytesConsumed : UInt64 := 0
  badVersion : UInt64 := 0
  badLength : UInt64 := 0
  badChecksum : UInt64 := 0
  unknownType : UInt64 := 0
  seqGaps : UInt64 := 0
  seqMissing : UInt64 := 0
  seqRegressions : UInt64 := 0
  expected : Option UInt64 := none
  pendingGap : UInt64 := 0
  deriving DecidableEq, Repr

namespace Account

/-- A wrong magic is not counted: it depends on where a search stopped. -/
def fault (a : Account) : Fault → Account
  | .magic => a
  | .version => { a with badVersion := a.badVersion + 1 }
  | .length => { a with badLength := a.badLength + 1 }
  | .checksum => { a with badChecksum := a.badChecksum + 1 }

/-- The sequence number of an accepted frame. -/
def sequence (a : Account) (seq : UInt64) : Account :=
  match a.expected with
  | none => { a with expected := some (seq + 1) }
  | some next =>
    if next < seq then
      { a with
        seqGaps := a.seqGaps + 1
        seqMissing := a.seqMissing + (seq - next)
        pendingGap := a.pendingGap + (seq - next)
        expected := some (seq + 1) }
    else if seq < next then { a with seqRegressions := a.seqRegressions + 1 }
    else { a with expected := some (seq + 1) }

@[simp] theorem sequence_messages (a : Account) (seq : UInt64) :
    (a.sequence seq).messages = a.messages := by
  unfold sequence
  cases a.expected with
  | none => rfl
  | some next =>
    dsimp only
    split_ifs <;> rfl

/-- An accepted frame: delivered if its type is known. -/
def frame (a : Account) (type : Option MsgType) (seq : UInt64) (len : Nat)
    (body : List UInt8) : Account :=
  let a := { a with
    framesDecoded := a.framesDecoded + 1
    bytesConsumed := a.bytesConsumed + UInt64.ofNat len }.sequence seq
  match type with
  | none => { a with unknownType := a.unknownType + 1 }
  | some type =>
    { a with
      messages := a.messages ++ [{ seq, gapBefore := a.pendingGap, body := decodeBody type body }]
      pendingGap := 0 }

end Account

/-- What a user of the decoder sees of a whole parse. -/
structure Report where
  messages : List Message
  framesDecoded : UInt64
  bytesConsumed : UInt64
  badVersion : UInt64
  badLength : UInt64
  badChecksum : UInt64
  unknownType : UInt64
  seqGaps : UInt64
  seqMissing : UInt64
  seqRegressions : UInt64
  expectedSeq : UInt64
  deriving DecidableEq, Repr

def Account.report (a : Account) : Report where
  messages := a.messages
  framesDecoded := a.framesDecoded
  bytesConsumed := a.bytesConsumed
  badVersion := a.badVersion
  badLength := a.badLength
  badChecksum := a.badChecksum
  unknownType := a.unknownType
  seqGaps := a.seqGaps
  seqMissing := a.seqMissing
  seqRegressions := a.seqRegressions
  expectedSeq := a.expected.getD 0

def parse (maxBody : Nat) : Nat → Account → List UInt8 → Account
  | 0, a, _ => a
  | fuel + 1, a, w =>
    match inspect maxBody w with
    | .stop => a
    | .skip fault => parse maxBody fuel (a.fault fault) (w.drop 1)
    | .frame type seq len body => parse maxBody fuel (a.frame type seq len body) (w.drop len)

/-- The parse of `w`, continuing from an account. Every offset that is passed
uses up a byte, so the length is enough fuel (`parseAll_eq`). -/
def parseAll (maxBody : Nat) (a : Account) (w : List UInt8) : Account :=
  parse maxBody w.length a w

/-- The reference parse of a byte string, from its first byte on. -/
def referenceParse (maxBody : Nat) (s : List UInt8) : Report := (parseAll maxBody {} s).report

/-! ## The equations of the parse -/

section Equations

variable {maxBody : Nat} {w : List UInt8}

theorem inspect_of_short (h : w.length < kHeaderSize) : inspect maxBody w = .stop := by
  simp only [inspect, if_pos h]

theorem inspect_length (h : inspect maxBody w ≠ .stop) : kHeaderSize ≤ w.length := by
  by_contra hn
  exact h (inspect_of_short (by omega))

/-- A frame lies inside the bytes at hand. -/
theorem inspect_frame {type : Option MsgType} {seq : UInt64} {len : Nat} {body : List UInt8}
    (h : inspect maxBody w = .frame type seq len body) : kHeaderSize ≤ len ∧ len ≤ w.length := by
  unfold inspect at h
  dsimp only at h
  split_ifs at h
  cases h
  omega

theorem parse_fuel (fuel fuel' : Nat) (a : Account) (w : List UInt8) (h : w.length ≤ fuel)
    (h' : w.length ≤ fuel') : parse maxBody fuel a w = parse maxBody fuel' a w := by
  have hnil : inspect maxBody [] = .stop := inspect_of_short (by decide)
  induction fuel generalizing fuel' a w with
  | zero =>
    obtain rfl : w = [] := List.length_eq_zero_iff.mp (by omega)
    cases fuel' with
    | zero => rfl
    | succ fuel' => rw [parse, parse, hnil]
  | succ fuel ih =>
    cases fuel' with
    | zero =>
      obtain rfl : w = [] := List.length_eq_zero_iff.mp (by omega)
      rw [parse, parse, hnil]
    | succ fuel' =>
      rw [parse, parse]
      cases hv : inspect maxBody w with
      | stop => rfl
      | skip fault => exact ih fuel' _ _ (by simp; omega) (by simp; omega)
      | frame type seq len body =>
        obtain ⟨h1, h2⟩ := inspect_frame hv
        have hpos : 1 ≤ kHeaderSize := by decide
        exact ih fuel' _ _ (by simp; omega) (by simp; omega)

/-- The parse takes one step at a time, as the reference says. -/
theorem parseAll_eq (a : Account) :
    parseAll maxBody a w =
      match inspect maxBody w with
      | .stop => a
      | .skip fault => parseAll maxBody (a.fault fault) (w.drop 1)
      | .frame type seq len body =>
        parseAll maxBody (a.frame type seq len body) (w.drop len) := by
  rw [parseAll, parse_fuel w.length (w.length + 1) a w le_rfl (Nat.le_succ _), parse]
  cases hv : inspect maxBody w with
  | stop => rfl
  | skip fault => exact parse_fuel _ _ _ _ (by simp) le_rfl
  | frame type seq len body => exact parse_fuel _ _ _ _ (by simp) le_rfl

theorem parseAll_of_stop {a : Account} (h : inspect maxBody w = .stop) :
    parseAll maxBody a w = a := by rw [parseAll_eq, h]

theorem parseAll_of_skip {a : Account} {fault : Fault} (h : inspect maxBody w = .skip fault) :
    parseAll maxBody a w = parseAll maxBody (a.fault fault) (w.drop 1) := by rw [parseAll_eq, h]

theorem parseAll_of_frame {a : Account} {type : Option MsgType} {seq : UInt64} {len : Nat}
    {body : List UInt8} (h : inspect maxBody w = .frame type seq len body) :
    parseAll maxBody a w = parseAll maxBody (a.frame type seq len body) (w.drop len) := by
  rw [parseAll_eq, h]

/-- An offset without a magic is passed over. -/
theorem parseAll_drop_one {a : Account} (h : loadBe16 w ≠ kMagic) :
    parseAll maxBody a w = parseAll maxBody a (w.drop 1) := by
  by_cases hlen : w.length < kHeaderSize
  · rw [parseAll_of_stop (inspect_of_short hlen),
      parseAll_of_stop (inspect_of_short (by simp; omega))]
  · have hv : inspect maxBody w = .skip .magic := by simp only [inspect, if_neg hlen, if_pos h]
    exact parseAll_of_skip hv

theorem parseAll_drop {a : Account} (k : Nat) (h : ∀ j < k, loadBe16 (w.drop j) ≠ kMagic) :
    parseAll maxBody a w = parseAll maxBody a (w.drop k) := by
  induction k with
  | zero => rw [List.drop_zero]
  | succ k ih =>
    rw [ih fun j hj => h j (by omega), parseAll_drop_one (h k (by omega)), List.drop_drop]

/-! ## More bytes -/

/-- Once there is enough to tell, more bytes do not change the verdict. -/
theorem inspect_append (t : List UInt8) (h : inspect maxBody w ≠ .stop) :
    inspect maxBody (w ++ t) = inspect maxBody w := by
  have hlen : 20 ≤ w.length := inspect_length h
  have hdrop : ∀ {n : Nat}, n ≤ 20 → (w ++ t).drop n = w.drop n ++ t := fun hn =>
    List.drop_append_of_le_length (by omega)
  have htype : (w ++ t).getD 3 0 = w.getD 3 0 := getD_append t (by omega)
  have hversion : (w ++ t).getD 2 0 = w.getD 2 0 := getD_append t (by omega)
  have hmagic : loadBe16 (w ++ t) = loadBe16 w := loadBe16_append t (by omega)
  have hbody : loadBe32 ((w ++ t).drop 4) = loadBe32 (w.drop 4) := by
    rw [hdrop (by omega), loadBe32_append t (by simp; omega)]
  have hseq : loadBe64 ((w ++ t).drop 8) = loadBe64 (w.drop 8) := by
    rw [hdrop (by omega), loadBe64_append t (by simp; omega)]
  have hcsum : loadBe16 ((w ++ t).drop 16) = loadBe16 (w.drop 16) := by
    rw [hdrop (by omega), loadBe16_append t (by simp; omega)]
  have hshort : ¬ w.length < kHeaderSize := by unfold kHeaderSize; omega
  have hshort' : ¬ (w ++ t).length < kHeaderSize := by simp only [List.length_append]; omega
  unfold inspect at h ⊢
  dsimp only at h ⊢
  rw [htype, hversion, hmagic, hbody, hseq, hcsum, if_neg hshort, if_neg hshort']
  rw [if_neg hshort] at h
  generalize (loadBe32 (w.drop 4)).toNat = bodyLen at h ⊢
  by_cases h1 : loadBe16 w ≠ kMagic
  · rw [if_pos h1, if_pos h1]
  by_cases h2 : w.getD 2 0 ≠ kVersion
  · rw [if_neg h1, if_pos h2, if_neg h1, if_pos h2]
  by_cases h3 : bodyLen > maxBody ∨
      (MsgType.ofByte (w.getD 3 0)).any fun type => bodyLen ≠ bodySizeFor type
  · rw [if_neg h1, if_neg h2, if_pos h3, if_neg h1, if_neg h2, if_pos h3]
  rw [if_neg h1, if_neg h2, if_neg h3] at h ⊢
  rw [if_neg h1, if_neg h2, if_neg h3]
  -- what is left is the checksum, over a body that is all there
  by_cases h4 : w.length < kHeaderSize + bodyLen
  · exact absurd (if_pos h4) h
  have h4' : ¬ (w ++ t).length < kHeaderSize + bodyLen := by
    simp only [List.length_append]
    omega
  have htake : ((w ++ t).drop kHeaderSize).take bodyLen = (w.drop kHeaderSize).take bodyLen := by
    rw [List.drop_append_of_le_length (by omega), List.take_append_of_le_length (by simp; omega)]
  rw [if_neg h4, if_neg h4', htake]

end Equations

end Lloms.Wire
