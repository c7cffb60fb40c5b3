import WivOS.Lib.Digits
import WivOS.Utils.PrintfDirective

/-!
# The buffer of a number

What `_ntoa_format` has in its buffer. The digits of a number and the zeros that pad it are the first
digits of the number, as many as `paddedLength` says, so that the buffer is described by a length; the
prefix of the base and the sign are behind them, if there is room.
-/

namespace WivOS.Utils.Printf
open Lib

/-- How many digits a number has, none for zero. -/
def digitCount (base n : Nat) : Nat := (Nat.digits base n).length

section DigitCount
variable {base n : Nat}

/-- A number has no more digits than any of its upper bounds. -/
lemma digitCount_le_iff (two : 2 ≤ base) {k : Nat} : digitCount base n ≤ k ↔ n < base ^ k :=
  Nat.digits_length_le_iff two n

/-- A number that is not 0 has digits. -/
lemma digitCount_pos (zero : n ≠ 0) : 0 < digitCount base n :=
  List.length_pos_iff.mpr (Nat.digits_ne_nil_iff_ne_zero.mpr zero)

/-- Zero has none. -/
lemma digitCount_zero : digitCount base 0 = 0 := by simp [digitCount]

/-- One digit more than the quotient. -/
lemma digitCount_div (two : 2 ≤ base) (zero : n ≠ 0) :
    digitCount base n = digitCount base (n / base) + 1 := by
  rw [digitCount, Nat.digits_eq_cons_digits_div two zero, List.length_cons]
  rfl

end DigitCount

/-- Digits as they are written. -/
def digitChars (base n length : Nat) : Bytes := (firstDigits base n length).map digitChar

/-- There are as many characters as were asked for. -/
@[simp] lemma length_digitChars {base n length : Nat} : (digitChars base n length).length = length := by
  simp [digitChars]

/-- The loop of `_ntoa_long` writes the digits for which there is room, and a zero for zero. -/
lemma ntoaDigits_eq {base : Nat} (two : 2 ≤ base) (room n : Nat) :
    ntoaDigits base room n = digitChars base n (min (max 1 (digitCount base n)) room) := by
  induction room generalizing n with
  | zero => simp [ntoaDigits, digitChars]
  | succ room ih =>
    rw [ntoaDigits]
    by_cases last : n / base = 0
    · have count : digitCount base n ≤ 1 := by
        rw [digitCount_le_iff two, pow_one]
        exact (Nat.div_eq_zero_iff_lt (by omega)).mp last
      have length : min (max 1 (digitCount base n)) (room + 1) = 0 + 1 := by omega
      rw [if_neg (not_not_intro last), length, digitChars, firstDigits_cons]
      simp
    · have zero : n ≠ 0 := by
        rintro rfl
        simp at last
      have more : 0 < digitCount base (n / base) := digitCount_pos last
      have length : min (max 1 (digitCount base n)) (room + 1) =
          min (max 1 (digitCount base (n / base))) room + 1 := by
        rw [digitCount_div two zero]
        omega
      rw [if_pos last, ih, length]
      simp only [digitChars, firstDigits_cons, List.map_cons]

/-- Zeros are put behind all digits. -/
lemma padZeros_digitChars {base n length : Nat} (pos : 0 < base)
    (whole : length < ntoaBufferSize → n < base ^ length) (count : Nat) :
    padZeros (digitChars base n length) count =
      digitChars base n (max length (min count ntoaBufferSize)) := by
  rw [padZeros, length_digitChars]
  by_cases more : length < min count ntoaBufferSize
  · have zeros : List.replicate (min count ntoaBufferSize - length) (48 : UInt8) =
        (List.replicate (min count ntoaBufferSize - length) 0).map digitChar := by
      rw [List.map_replicate]
      rfl
    rw [zeros, digitChars, ← List.map_append, firstDigits_append_zeros pos (whole (by omega)), digitChars]
    congr 2
    omega
  · have none : min count ntoaBufferSize - length = 0 := by omega
    rw [none, List.replicate_zero, List.append_nil, max_eq_left (by omega)]

/-- The digits of a number before any zeros that pad it. -/
def startLength (base n : Nat) (precision : Bool) : Nat :=
  if n = 0 ∧ precision = true then 0 else min (max 1 (digitCount base n)) ntoaBufferSize

/-- The digits of a number with the zeros that pad it. -/
def paddedLength (base n prec width : Nat) (flags : PrintFlags) : Nat :=
  let length := startLength base n flags.precision
  if flags.left then length
  else max (max length (min prec ntoaBufferSize)) (if flags.zeropad then min width ntoaBufferSize else 0)

/-- The sign of a number. -/
def signBytes (negative : Bool) (flags : PrintFlags) : Bytes :=
  if negative then [45] else if flags.plus then [43] else if flags.space then [32] else []

/-- The width without a sign, if zeros pad the number. -/
def innerWidth (negative : Bool) (width : Nat) (flags : PrintFlags) : Nat :=
  if !flags.left && flags.zeropad then width - (signBytes negative flags).length else width

section Buffer
variable {base n prec width : Nat} {negative : Bool} {flags : PrintFlags} {buf : Bytes}

/-- The buffer has room for them. -/
lemma startLength_le {precision : Bool} : startLength base n precision ≤ ntoaBufferSize := by
  unfold startLength
  split
  · omega
  · exact min_le_right ..

/-- If there is room left, all digits are in the buffer. -/
lemma lt_pow_of_startLength (two : 2 ≤ base) {length : Nat}
    (start : startLength base n flags.precision ≤ length) (room : length < ntoaBufferSize) :
    n < base ^ length := by
  unfold startLength at start
  split at start
  · rename_i h
    rw [h.1]
    exact Nat.pow_pos (by omega)
  · rw [← digitCount_le_iff two]
    omega

/-- The buffer before the prefix of the base. -/
lemma padded_eq (two : 2 ≤ base) :
    (if !flags.left then
        let buf := padZeros (if !flags.precision || n ≠ 0 then ntoaDigits base ntoaBufferSize n else []) prec
        if flags.zeropad then padZeros buf width else buf
      else if !flags.precision || n ≠ 0 then ntoaDigits base ntoaBufferSize n else []) =
      digitChars base n (paddedLength base n prec width flags) := by
  have start : (if !flags.precision || n ≠ 0 then ntoaDigits base ntoaBufferSize n else []) =
      digitChars base n (startLength base n flags.precision) := by
    rw [ntoaDigits_eq two, startLength]
    by_cases none : n = 0 ∧ flags.precision = true
    · rw [if_neg (by simp [none]), if_pos none]
      rfl
    · rw [if_pos (by simpa [or_comm, imp_iff_or_not] using none), if_neg none]
  have pos : 0 < base := by omega
  have whole : ∀ {length}, startLength base n flags.precision ≤ length → length < ntoaBufferSize →
      n < base ^ length := lt_pow_of_startLength two
  rw [start, paddedLength]
  cases left : flags.left with
  | true => simp
  | false =>
    simp only [Bool.not_false, if_true, Bool.false_eq_true, if_false]
    rw [padZeros_digitChars pos (whole le_rfl)]
    split
    · rw [padZeros_digitChars pos (whole (by omega))]
    · simp

/-- The width without the place of a sign. -/
lemma innerWidth_eq :
    (if !flags.left && (width ≠ 0 && flags.zeropad && (negative || flags.plus || flags.space)) then
      width - 1 else width) = innerWidth negative width flags := by
  unfold innerWidth signBytes
  cases flags.left with
  | true => simp
  | false =>
    cases flags.zeropad with
    | false => simp
    | true => cases negative <;> cases flags.plus <;> cases flags.space <;> simp <;> omega

/-- `_ntoa_format` by what is in its buffer. -/
lemma ntoaFormat_eq (two : 2 ≤ base) :
    ntoaFormat (if !flags.precision || n ≠ 0 then ntoaDigits base ntoaBufferSize n else []) negative base
        prec width flags =
      let inner := innerWidth negative width flags
      let buf := digitChars base n (paddedLength base n prec inner flags)
      outRev (putSign (if flags.hash then putBase buf base prec inner flags else buf) negative flags) inner
        flags := by
  simp only [ntoaFormat, innerWidth_eq]
  rw [← padded_eq two]

/-- `_ntoa_long` by what is in its buffer. -/
lemma ntoa_eq (two : 2 ≤ base) :
    ntoa n negative base prec width flags =
      let inner := innerWidth negative width flags
      let buf := digitChars base n (paddedLength base n prec inner flags)
      let buf := if n ≠ 0 ∧ flags.hash = true then putBase buf base prec inner flags else buf
      outRev (putSign buf negative flags) inner flags := by
  unfold ntoa
  by_cases zero : n = 0
  · let quiet := { flags with hash := false }
    have format : ntoaFormat (if !quiet.precision || n ≠ 0 then ntoaDigits base ntoaBufferSize n else [])
        negative base prec width quiet = _ := ntoaFormat_eq two
    simp only [if_pos zero]
    refine format.trans ?_
    simp only [quiet, Bool.false_eq_true, if_false, zero, ne_eq, not_true_eq_false, false_and]
    rfl
  · simp only [if_neg zero]
    rw [ntoaFormat_eq two]
    simp only [ne_eq, zero, not_false_eq_true, true_and]

/-- The sign is put behind the number, if there is room. -/
lemma putSign_eq : putSign buf negative flags =
    buf ++ if buf.length < ntoaBufferSize then signBytes negative flags else [] := by
  unfold putSign signBytes put
  split_ifs <;> simp

/-- The spaces around a field. -/
lemma outRev_eq : outRev buf width flags =
    spaces (if !flags.left && !flags.zeropad then width - buf.length else 0) ++ buf.reverse ++
      spaces (if flags.left then width - buf.length else 0) := by
  unfold outRev
  cases flags.left with
  | true => simp [spaces]
  | false => cases flags.zeropad <;> simp [spaces]

end Buffer

/-! ## The number of a field -/

/-- The argument of a conversion, in the type of its modifier. -/
def argument (modifier : LengthModifier) (conversion : Conversion) (word : BitVec 64) : Int :=
  if conversion.signed then (word.setWidth modifier.bits).toInt else (word.setWidth modifier.bits).toNat

/-- The number that is written: with `hh` that of the machine's own `char`. -/
def printed (charSigned : Bool) (modifier : LengthModifier) (conversion : Conversion)
    (word : BitVec 64) : Int :=
  if conversion.signed && modifier = .hh && !charSigned then (word.setWidth 8).toNat
  else argument modifier conversion word

/-- The flags with which a number is written. -/
def Field.numberFlags (f : Field) (modifier : LengthModifier) (conversion : Conversion) : PrintFlags :=
  { f.flags modifier with
    plus := f.plus && conversion.signed
    space := f.space && conversion.signed
    hash := f.hash && conversion.base ≠ 10
    zeropad := f.zero && !f.precision.isSome
    uppercase := conversion = .X }

/-- The magnitude of a value of that many bits. -/
lemma magnitude_eq {w : Nat} {value : Int} (small : value.natAbs < 2 ^ w) :
    magnitude w value = value.natAbs := by
  have abs : (if 0 < value then value else 0 - value) = value.natAbs := by
    split <;> omega
  rw [magnitude, abs, Int.emod_eq_of_lt (by omega) (by exact_mod_cast small)]
  rfl

/-- The number of a signed conversion. -/
lemma signedValue_eq (charSigned : Bool) (f : Field) (modifier : LengthModifier) {conversion : Conversion}
    (signed : conversion.signed = true) (word : BitVec 64) :
    signedValue charSigned (f.numberFlags modifier conversion) word =
      printed charSigned modifier conversion word := by
  cases modifier <;> cases charSigned <;>
    simp [signedValue, printed, argument, signed, Field.numberFlags, Field.flags, LengthModifier.bits,
      toChar]

/-- The value of an unsigned conversion. -/
lemma unsignedValue_eq (charSigned : Bool) (f : Field) (modifier : LengthModifier) {conversion : Conversion}
    (unsigned : conversion.signed = false) (word : BitVec 64) :
    (unsignedValue (f.numberFlags modifier conversion) word : Int) =
      printed charSigned modifier conversion word := by
  cases modifier <;>
    simp [unsignedValue, printed, argument, unsigned, Field.numberFlags, Field.flags, LengthModifier.bits]

/-- The flags that an integer conversion works with. -/
lemma integerFlags_eq (f : Field) (modifier : LengthModifier) (conversion : Conversion) :
    integerFlags conversion.byte (f.flags modifier) = f.numberFlags modifier conversion := by
  cases precision : f.precision.isSome <;> cases conversion <;>
    simp [integerFlags, conversionBase, isSigned, Conversion.byte, Conversion.base, Conversion.signed,
      Field.numberFlags, Field.flags, precision]

/-- The bits that a number is written from. -/
lemma natAbs_printed_lt (charSigned : Bool) (modifier : LengthModifier) (conversion : Conversion)
    (word : BitVec 64) : (printed charSigned modifier conversion word).natAbs < 2 ^ modifier.bits := by
  unfold printed argument
  split
  · rename_i h
    simp only [Bool.and_eq_true, decide_eq_true_eq] at h
    rw [h.1.2]
    exact (word.setWidth 8).isLt
  · split
    · have lower := BitVec.le_toInt (word.setWidth modifier.bits)
      have upper : 2 * (word.setWidth modifier.bits).toInt < 2 ^ modifier.bits := BitVec.two_mul_toInt_lt
      cases modifier <;> simp only [LengthModifier.bits] at lower upper ⊢ <;> omega
    · exact (word.setWidth modifier.bits).isLt

/-- The text of a field is that of its number. -/
lemma Field.text_eq (charSigned : Bool) (modifier : LengthModifier) (conversion : Conversion) (f : Field) :
    f.text charSigned modifier conversion =
      ntoa (printed charSigned modifier conversion f.word).natAbs
        (decide (printed charSigned modifier conversion f.word < 0)) conversion.base f.precission
        (f.width % 2 ^ 32) (f.numberFlags modifier conversion) := by
  have base : conversionBase conversion.byte = conversion.base := by cases conversion <;> rfl
  have signed : isSigned conversion.byte = conversion.signed := by cases conversion <;> rfl
  have small := natAbs_printed_lt charSigned modifier conversion f.word
  simp only [Field.text, convertInteger, integerFlags_eq, base, signed, ntoaLong, ntoaLongLong]
  cases sign : conversion.signed with
  | false =>
    have value := unsignedValue_eq charSigned f modifier sign f.word
    have nonneg : ¬ (unsignedValue (f.numberFlags modifier conversion) f.word : Int) < 0 := by omega
    rw [← value, Int.natAbs_natCast, decide_eq_false nonneg]
    rfl
  | true =>
    rw [signedValue_eq charSigned f modifier sign]
    simp only [if_true]
    have magnitudes : ∀ {w}, modifier.bits ≤ w →
        magnitude w (printed charSigned modifier conversion f.word) =
          (printed charSigned modifier conversion f.word).natAbs := by
      intro w bits
      exact magnitude_eq (lt_of_lt_of_le small (Nat.pow_le_pow_right (by omega) bits))
    have most : modifier.bits ≤ 64 := by cases modifier <;> decide
    split
    · rw [magnitudes most]
    · split
      · rw [magnitudes most]
      · rename_i short
        have fewer : modifier.bits ≤ 32 := by
          cases modifier <;> first | decide | exact absurd rfl short
        rw [magnitudes fewer]

end WivOS.Utils.Printf
