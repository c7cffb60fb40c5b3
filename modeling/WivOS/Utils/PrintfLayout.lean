import WivOS.Utils.PrintfFaithful

/-!
# The layout of a number

Where the sign, the digits and the padding of an integer conversion without `#` stand, and how long its
text is (`Layout`). The text is laid out so exactly if width and precision go into the buffer and the
precision is not lost (`printf_layout_iff`): zeros only pad up to 32 bytes, and a `-` lets no precision pad
the digits.
-/

namespace WivOS.Utils.Printf
open Lib

namespace Field
variable (f : Field)

/-- The precision, which a negative one is not. -/
def precise : Option Nat :=
  match f.precision with
  | some p => if 0 ≤ p then some p.toNat else none
  | none => none

/-- The digits of a number; a zero has none with a precision of zero. -/
def digits (conversion : Conversion) (v : Int) : Nat :=
  if v = 0 then if f.precise = some 0 then 0 else 1 else digitCount conversion.base v.natAbs

/-- The digits with the zeros of the precision. -/
def preciseDigits (conversion : Conversion) (v : Int) : Nat :=
  max (f.digits conversion v) (f.precise.getD 0)

/-- The sign that a number has. -/
def sign (conversion : Conversion) (v : Int) : Bytes :=
  signBytes (decide (v < 0)) (f.numberFlags .none conversion)

/-- Width and precision go into the buffer, and the precision is not lost. -/
structure LaysOut (conversion : Conversion) (v : Int) : Prop where
  width : f.width < 2 ^ 32
  /-- The digits go into the buffer. -/
  digits : f.preciseDigits conversion v ≤ 32
  /-- With a `-` no zeros are put before the digits. -/
  left : f.left = true → f.precise.getD 0 ≤ f.digits conversion v ∧
    (v = 0 → f.precision ≠ none → f.precise = some 0)
  /-- Zeros only pad up to the size of the buffer. -/
  zeros : f.zeros = true → f.width ≤ 32
  /-- A negative precision is taken for zero. -/
  negative : f.precision ≠ none → f.precise = none →
    v ≠ 0 ∧ (f.zero = true → f.left = false →
      f.width ≤ f.digits conversion v + (f.sign conversion v).length)

end Field

section Text
variable {f : Field} {modifier : LengthModifier} {conversion : Conversion} {v : Int}

/-- The text of a number without the prefix of a base, and how long its parts are. -/
structure Written (f : Field) (conversion : Conversion) (v : Int) (text : Bytes) (before : Nat)
    (sign : Bytes) (length : Nat) (behind : Nat) : Prop where
  split : text = spaces before ++ (sign ++ (digitChars conversion.base v.natAbs length).reverse) ++
    spaces behind
  room : length < 32 → sign = f.sign conversion v
  full : ¬ length < 32 → sign = []
  left : f.left = true → length = startLength conversion.base v.natAbs f.precision.isSome ∧ before = 0 ∧
    behind = f.width % 2 ^ 32 - (length + sign.length)
  right : f.left = false → behind = 0 ∧
    (f.zeros = true → before = 0 ∧
      length = max (startLength conversion.base v.natAbs f.precision.isSome)
        (min (f.width % 2 ^ 32 - (f.sign conversion v).length) 32)) ∧
    (f.zeros = false → before = f.width % 2 ^ 32 - (length + sign.length) ∧
      length = max (startLength conversion.base v.natAbs f.precision.isSome) (min f.precission 32))

/-- What is read of a precision. -/
lemma precise_cases (f : Field) :
    (f.precision = none ∧ f.precise = none ∧ f.precission = 0) ∨
      (f.precision ≠ none ∧ f.precise = none ∧ f.precission = 0) ∨
      f.precision ≠ none ∧ ∃ p, f.precise = some p ∧ f.precission = p % 2 ^ 32 := by
  unfold Field.precise Field.precission
  cases f.precision with
  | none => exact .inl ⟨rfl, rfl, rfl⟩
  | some p =>
    by_cases nonneg : 0 ≤ p
    · exact .inr (.inr ⟨by simp, p.toNat, by simp [nonneg], rfl⟩)
    · refine .inr (.inl ⟨by simp, by simp [nonneg], ?_⟩)
      rw [Option.getD_some, show p.toNat = 0 by omega]
      rfl

/-- The digits before the zeros that pad a number are those that it has, unless it is a zero with a
precision. -/
lemma startLength_digits (f : Field) (conversion : Conversion) (v : Int) :
    (v ≠ 0 ∨ f.precision = none →
      startLength conversion.base v.natAbs f.precision.isSome = min (f.digits conversion v) 32 ∧
        1 ≤ f.digits conversion v) ∧
      (v = 0 → f.precision ≠ none →
        startLength conversion.base v.natAbs f.precision.isSome = 0 ∧
          (f.precise = some 0 → f.digits conversion v = 0) ∧
          (f.precise ≠ some 0 → f.digits conversion v = 1)) := by
  obtain ⟨empty, filled⟩ := startLength_eq conversion.base v f.precision
  constructor
  · intro filling
    have start := filled filling
    have digits : f.digits conversion v = max 1 (digitCount conversion.base v.natAbs) := by
      by_cases zero : v = 0
      · have none : f.precise = none := by
          rcases filling with other | none
          · exact absurd zero other
          · simp [Field.precise, none]
        simp [Field.digits, zero, none, digitCount_zero]
      · have pos : 0 < digitCount conversion.base v.natAbs := digitCount_pos (by omega)
        rw [Field.digits, if_neg zero]
        omega
    omega
  · intro zero given
    refine ⟨empty zero given, ?_, ?_⟩ <;> intro h <;> simp [Field.digits, zero, h]

section Written
variable {text : Bytes} {before length behind before' behind' : Nat} {sign sign' digits' : Bytes}

/-- The sign that is written is that of the number, or none. -/
lemma Written.signed (written : Written f conversion v text before sign length behind) :
    sign = [] ∨ sign = f.sign conversion v := by
  by_cases room : length < 32
  · exact .inr (written.room room)
  · exact .inl (written.full room)

/-- The digits are digits of the base. -/
lemma Written.bytes (_ : Written f conversion v text before sign length behind) :
    ∀ c ∈ (digitChars conversion.base v.natAbs length).reverse, digitValue c < conversion.base := by
  intro c mem
  have pos : 0 < conversion.base := by cases conversion <;> decide
  have le : conversion.base ≤ 16 := by cases conversion <;> decide
  exact (mem_digitChars pos le (List.mem_reverse.mp mem)).1

/-- The digits with the zeros that the precision asks for. -/
lemma preciseDigits_eq : f.preciseDigits conversion v =
    max (f.digits conversion v) (f.precise.getD 0) := rfl

/-- The digits that are written are those of a number that goes into the buffer. -/
lemma Written.length_eq (written : Written f conversion v text before sign length behind)
    (laysOut : f.LaysOut conversion v) (spaced : f.zeros = false) :
    length = f.preciseDigits conversion v := by
  obtain ⟨filled, empty⟩ := startLength_digits f conversion v
  have digits := laysOut.digits
  rw [preciseDigits_eq] at digits ⊢
  cases left : f.left with
  | true =>
    obtain ⟨start, -, -⟩ := written.left left
    obtain ⟨few, zero_precise⟩ := laysOut.left left
    by_cases filling : v ≠ 0 ∨ f.precision = none
    · have := filled filling
      omega
    · rw [not_or, not_not] at filling
      obtain ⟨start', none, -⟩ := empty filling.1 filling.2
      have := none (zero_precise filling.1 filling.2)
      omega
  | false =>
    obtain ⟨-, length_eq⟩ := (written.right left).2.2 spaced
    rcases precise_cases f with ⟨none, unread, read⟩ | ⟨given, unread, read⟩ | ⟨given, p, isRead, read⟩
    · have := filled (.inr none)
      simp only [unread, Option.getD_none] at digits ⊢
      omega
    · have := filled (.inl (laysOut.negative given unread).1)
      simp only [unread, Option.getD_none] at digits ⊢
      omega
    · simp only [isRead, Option.getD_some] at digits ⊢
      have small : p % 2 ^ 32 = p := Nat.mod_eq_of_lt (by omega)
      by_cases zero : v = 0
      · obtain ⟨start, none, one⟩ := empty zero given
        by_cases none' : p = 0
        · have := none (by rw [isRead, none'])
          omega
        · have := one (by rw [isRead]; simpa using none')
          omega
      · have := filled (.inl zero)
        omega

end Written

end Text

end WivOS.Utils.Printf
