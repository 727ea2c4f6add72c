import Mathlib.Data.Nat.Digits.Defs
import Lloms.Router.Configure

/-! What a routing key may be (`parse_symbol`), with the output parameter and the
leniency of the library behind it: `strtoull` skips whitespace, takes a sign and
stops at the first character that is no digit. None of this gets past the check in
front of it. -/
namespace Lloms

/-- `std::strtoull` in base ten on any text. A minus negates within 64 bits, unless
the number was past them to begin with. -/
def strtoullText (s : Text) : UInt64 :=
  match s.dropWhile isSpace with
  | [] => 0
  | c :: rest =>
    if c = '-' then
      let digits := rest.takeWhile isDigit
      if 2 ^ 64 ≤ decimal digits then strtoull digits else 0 - strtoull digits
    else if c = '+' then strtoull (rest.takeWhile isDigit)
    else strtoull ((c :: rest).takeWhile isDigit)

/-- `parse_symbol`: what it returns and what is then in `out`. -/
def parseSymbolOut (text : Text) (out : Symbol) : Bool × Symbol :=
  if text = [] then (false, out)
  else if ¬ text.all isDigit then (false, out)
  else
    let v := strtoullText text
    if v > 0xFFFFFFFF then (false, out) else (true, v.toUInt32)

/-! ## The value of a text -/

/-- What a digit stands for. -/
def digitValue (c : Char) : Nat := c.toNat - '0'.toNat

/-- Reading from the left is reading by place. -/
theorem decimal_eq_ofDigits (s : Text) :
    decimal s = Nat.ofDigits 10 (s.reverse.map digitValue) := by
  rw [Nat.ofDigits_eq_foldr, List.foldr_map, List.foldr_reverse]
  simp only [decimal, digitValue, Nat.cast_id, Nat.add_comm]

/-! ## A text of digits -/

theorem toNat_of_isSpace {c : Char} (h : isSpace c = true) : c.toNat ≤ 32 := by
  simp only [isSpace, decide_eq_true_eq] at h
  rcases h with rfl | rfl | rfl | h | h | rfl
  · decide
  · decide
  · decide
  · omega
  · omega
  · decide

theorem toNat_of_isDigit {c : Char} (h : isDigit c = true) : 48 ≤ c.toNat := by
  simp only [isDigit, decide_eq_true_eq, Char.le_def, UInt32.le_iff_toNat_le] at h
  exact h.1

/-- On digits alone the leniency has nothing to act on. -/
theorem strtoullText_digits {s : Text} (h : ∀ c ∈ s, isDigit c = true) :
    strtoullText s = strtoull s := by
  cases s with
  | nil => rfl
  | cons c rest =>
    have hc := toNat_of_isDigit (h c List.mem_cons_self)
    have hspace : isSpace c ≠ true := fun hs => by
      have := toNat_of_isSpace hs
      omega
    have hminus : c ≠ '-' := by
      rintro rfl
      exact absurd hc (by decide)
    have hplus : c ≠ '+' := by
      rintro rfl
      exact absurd hc (by decide)
    have htake : (c :: rest).takeWhile isDigit = c :: rest :=
      List.takeWhile_eq_self_iff.mpr h
    rw [strtoullText, List.dropWhile_cons_of_neg hspace]
    simp only [if_neg hminus, if_neg hplus, htake]

theorem toNat_strtoull (s : Text) : (strtoull s).toNat = min (decimal s) (2 ^ 64 - 1) := by
  have hsize : UInt64.size = 2 ^ 64 := rfl
  exact UInt64.toNat_ofNat_of_lt' (by omega)

/-- A number past 64 bits saturates, so it stays past 32 bits. -/
theorem strtoull_gt_iff (s : Text) : strtoull s > 0xFFFFFFFF ↔ 2 ^ 32 - 1 < decimal s := by
  rw [gt_iff_lt, UInt64.lt_iff_toNat_lt, toNat_strtoull]
  change 4294967295 < _ ↔ _
  omega

theorem toNat_symbol_of_le {s : Text} (h : decimal s ≤ 2 ^ 32 - 1) :
    (strtoull s).toUInt32.toNat = decimal s := by
  rw [UInt64.toNat_toUInt32, toNat_strtoull]
  omega

/-! ## What is accepted -/

/-- The output parameter carries what the reading as an option does. -/
theorem parseSymbolOut_eq (text : Text) (out : Symbol) :
    parseSymbolOut text out = ((parseSymbol text).isSome, (parseSymbol text).getD out) := by
  unfold parseSymbolOut parseSymbol
  by_cases hnil : text = []
  · rw [if_pos hnil, if_pos hnil]
    rfl
  rw [if_neg hnil, if_neg hnil]
  by_cases hdigits : text.all isDigit = true
  · rw [if_neg (not_not.mpr hdigits), if_neg (not_not.mpr hdigits),
      strtoullText_digits (List.all_eq_true.mp hdigits)]
    by_cases hbig : strtoull text > 0xFFFFFFFF
    · simp only [if_pos hbig]
      rfl
    · simp only [if_neg hbig]
      rfl
  · rw [if_pos hdigits, if_pos hdigits]
    rfl

/-- The texts of the 32-bit numbers, leading zeros and all. -/
def SymbolText (text : Text) : Prop :=
  text ≠ [] ∧ (∀ c ∈ text, isDigit c = true) ∧ decimal text ≤ 2 ^ 32 - 1

theorem parseSymbol_of_symbolText {text : Text} (h : SymbolText text) :
    parseSymbol text = some (strtoull text).toUInt32 := by
  obtain ⟨hne, hdigits, hle⟩ := h
  have hbig : ¬ strtoull text > 0xFFFFFFFF := by
    rw [strtoull_gt_iff]
    omega
  rw [parseSymbol, if_neg hne, if_neg (not_not.mpr (List.all_eq_true.mpr hdigits))]
  exact if_neg hbig

theorem parseSymbol_of_not_symbolText {text : Text} (h : ¬ SymbolText text) :
    parseSymbol text = none := by
  unfold parseSymbol
  by_cases hnil : text = []
  · rw [if_pos hnil]
  rw [if_neg hnil]
  by_cases hdigits : text.all isDigit = true
  · rw [if_neg (not_not.mpr hdigits)]
    refine if_pos ((strtoull_gt_iff text).mpr (Nat.lt_of_not_le fun hle => h ?_))
    exact ⟨hnil, List.all_eq_true.mp hdigits, hle⟩
  · rw [if_pos hdigits]

/-- True is for the digit strings of the 32-bit numbers, read by place, and the
symbol is the number; after false `out` is what it was. -/
theorem parseSymbolOut_exact (text : Text) (out : Symbol) :
    ((parseSymbolOut text out).1 = true ↔
      text ≠ [] ∧ (∀ c ∈ text, '0' ≤ c ∧ c ≤ '9') ∧
        Nat.ofDigits 10 (text.reverse.map digitValue) ≤ 2 ^ 32 - 1) ∧
    ((parseSymbolOut text out).1 = true →
      (parseSymbolOut text out).2.toNat = Nat.ofDigits 10 (text.reverse.map digitValue)) ∧
    ((parseSymbolOut text out).1 = false → (parseSymbolOut text out).2 = out) := by
  have hiff : (text ≠ [] ∧ (∀ c ∈ text, '0' ≤ c ∧ c ≤ '9') ∧ decimal text ≤ 2 ^ 32 - 1) ↔
      SymbolText text := by
    simp only [SymbolText, isDigit, decide_eq_true_eq]
  rw [parseSymbolOut_eq, ← decimal_eq_ofDigits, hiff]
  by_cases h : SymbolText text
  · rw [parseSymbol_of_symbolText h]
    exact ⟨⟨fun _ => h, fun _ => rfl⟩, fun _ => toNat_symbol_of_le h.2.2,
      fun hfalse => Bool.noConfusion hfalse⟩
  · rw [parseSymbol_of_not_symbolText h]
    exact ⟨⟨fun htrue => Bool.noConfusion htrue, fun hsym => absurd hsym h⟩,
      fun htrue => Bool.noConfusion htrue, fun _ => rfl⟩

end Lloms
