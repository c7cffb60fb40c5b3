import WivOS.Utils.PrintfNumber

/-!
# Reading a number back

The text of an integer conversion, read as a number again: without the spaces around it, its sign and the
prefix of the base. When this gives the number that was written is a matter of how many digits are left in
the buffer of 32 bytes (`printf_faithful_iff`).
-/

namespace WivOS.Utils.Printf
open Lib

/-- A text without the spaces around it. -/
def strip (text : Bytes) : Bytes :=
  ((text.dropWhile (· = 32)).reverse.dropWhile (· = 32)).reverse

/-- Whether a text begins with a `-`, and the text without its sign. -/
def splitSign (text : Bytes) : Bool × Bytes :=
  if text.head? = some 45 then (true, text.tail)
  else if text.head? = some 43 then (false, text.tail)
  else (false, text)

/-- The prefixes of a base. That of octal numbers is a zero, which is a digit as well. -/
def basePrefixes (base : Nat) : List Bytes :=
  if base = 16 then [[48, 120], [48, 88]] else if base = 2 then [[48, 98]] else []

/-- A text without the prefix of the base. -/
def dropBase (base : Nat) (text : Bytes) : Bytes :=
  if text.take 2 ∈ basePrefixes base then text.drop 2 else text

/-- The value of a digit; a byte that is none has a value beyond all bases. -/
def digitValue (c : UInt8) : Nat :=
  if 48 ≤ c ∧ c ≤ 57 then c.toNat - 48
  else if 65 ≤ c ∧ c ≤ 90 then c.toNat - 55
  else if 97 ≤ c ∧ c ≤ 122 then c.toNat - 87
  else 36

/-- The number that digits stand for. -/
def readDigits (base : Nat) (text : Bytes) : Option Nat :=
  if text ≠ [] ∧ text.all (digitValue · < base) then
    some (Nat.ofDigits base (text.reverse.map digitValue))
  else none

/-- The number that a text stands for, and whether it is written with a `-`. -/
def readBack (base : Nat) (hash : Bool) (text : Bytes) : Option (Bool × Nat) :=
  let (negative, text) := splitSign (strip text)
  (readDigits base (if hash then dropBase base text else text)).map (negative, ·)

/-- The text of a number reads back as the number. -/
def Faithful (base : Nat) (hash : Bool) (v : Int) (text : Bytes) : Prop :=
  readBack base hash text = some (decide (v < 0), v.natAbs)

section ReadBack
variable {base : Nat} {hash : Bool} {text sign body : Bytes}

/-- Spaces in front are dropped. -/
lemma dropWhile_spaces (count : Nat) (text : Bytes) :
    (spaces count ++ text).dropWhile (· = 32) = text.dropWhile (· = 32) := by
  induction count with
  | zero => rfl
  | succ count ih =>
    rw [spaces, List.replicate_succ, List.cons_append, List.dropWhile_cons_of_pos (by simp)]
    exact ih

/-- Without spaces nothing is dropped. -/
lemma dropWhile_of_forall (solid : ∀ c ∈ text, c ≠ 32) : text.dropWhile (· = 32) = text := by
  cases text with
  | nil => rfl
  | cons c text => exact List.dropWhile_cons_of_neg (by simpa using solid c (by simp))

/-- The spaces around a text without spaces. -/
lemma strip_spaces (solid : ∀ c ∈ text, c ≠ 32) (before behind : Nat) :
    strip (spaces before ++ text ++ spaces behind) = text := by
  rw [strip, List.append_assoc, dropWhile_spaces]
  cases text with
  | nil =>
    have all := dropWhile_spaces behind []
    rw [List.append_nil] at all
    rw [List.nil_append, all]
    rfl
  | cons c text =>
    have first : (c :: text ++ spaces behind).dropWhile (· = 32) = c :: text ++ spaces behind :=
      List.dropWhile_cons_of_neg (by simpa using solid c (by simp))
    have reversed : (spaces behind).reverse = spaces behind := List.reverse_replicate
    rw [first, List.reverse_append, reversed, dropWhile_spaces, dropWhile_of_forall, List.reverse_reverse]
    intro c' mem
    exact solid c' (List.mem_reverse.mp mem)

/-- The text of a number with its sign and the spaces around it. -/
lemma readBack_field {negative : Bool} {flags : PrintFlags} (before behind : Nat)
    (signed : sign = [] ∨ sign = signBytes negative flags) (solid : ∀ c ∈ body, c ≠ 32)
    (minus : body.head? ≠ some 45) (plus : body.head? ≠ some 43) :
    readBack base hash (spaces before ++ (sign ++ body) ++ spaces behind) =
      (readDigits base (if hash then dropBase base body else body)).map (decide (sign = [45]), ·) := by
  have bare : splitSign body = (false, body) := by
    rw [splitSign, if_neg minus, if_neg plus]
  have kinds : sign = [] ∨ sign = [45] ∨ sign = [43] ∨ sign = [32] := by
    rcases signed with rfl | rfl
    · exact .inl rfl
    · unfold signBytes
      split_ifs <;> simp
  rcases kinds with rfl | rfl | rfl | rfl
  · rw [readBack, List.nil_append, strip_spaces solid, bare]
    rfl
  · rw [readBack, strip_spaces (by simpa using solid)]
    rfl
  · rw [readBack, strip_spaces (by simpa using solid)]
    rfl
  · -- the space is one of those before the number
    have join : spaces before ++ ([32] ++ body) = spaces (before + 1) ++ body := by
      rw [spaces, spaces, List.replicate_succ', List.append_assoc]
    rw [readBack, join, strip_spaces solid, bare]
    rfl

end ReadBack

section Text
variable {base n prec width : Nat} {negative hash : Bool} {flags : PrintFlags} {buf : Bytes}

/-- The sign of a number that is written. -/
lemma readBack_text (solid : ∀ c ∈ buf, c ≠ 32) (minus : 45 ∉ buf) (plus : 43 ∉ buf) :
    readBack base hash (outRev (putSign buf negative flags) width flags) =
      (readDigits base (if hash then dropBase base buf.reverse else buf.reverse)).map
        (negative && decide (buf.length < ntoaBufferSize), ·) := by
  let sign := if buf.length < ntoaBufferSize then signBytes negative flags else []
  have signed : sign = [] ∨ sign = signBytes negative flags := by
    by_cases room : buf.length < ntoaBufferSize
    · exact .inr (if_pos room)
    · exact .inl (if_neg room)
  have reversed : sign.reverse = sign := by
    simp only [sign, signBytes]
    split_ifs <;> rfl
  have isMinus : decide (sign = [45]) = (negative && decide (buf.length < ntoaBufferSize)) := by
    simp only [sign, signBytes]
    split_ifs <;> simp_all
  have head : ∀ c, c ∉ buf → buf.reverse.head? ≠ some c := by
    intro c notMem first
    exact notMem (List.mem_reverse.mp (List.mem_of_head? first))
  rw [outRev_eq, putSign_eq, List.reverse_append, reversed, ← isMinus]
  apply readBack_field _ _ signed
  · intro c mem
    exact solid c (List.mem_reverse.mp mem)
  · exact head 45 minus
  · exact head 43 plus

/-- What the bytes of digits are. -/
lemma digitChar_spec {d : Nat} (lt : d < 16) :
    digitValue (digitChar d) = d ∧ digitChar d ∉ [32, 45, 43, 120, 88, 98] := by
  interval_cases d <;> decide

/-- The digits are digits of the base, and none of the other characters. -/
lemma mem_digitChars (pos : 0 < base) (le : base ≤ 16) {length : Nat} {c : UInt8}
    (mem : c ∈ digitChars base n length) :
    digitValue c < base ∧ c ∉ [32, 45, 43, 120, 88, 98] := by
  obtain ⟨d, hd, rfl⟩ := List.mem_map.mp mem
  have lt := lt_of_mem_firstDigits pos hd
  obtain ⟨value, bytes⟩ := digitChar_spec (lt_of_lt_of_le lt le)
  exact ⟨value.symm ▸ lt, bytes⟩

/-- Their values are the digits of the number. -/
lemma map_digitValue (pos : 0 < base) (le : base ≤ 16) (length : Nat) :
    (digitChars base n length).map digitValue = firstDigits base n length := by
  have same : ∀ d ∈ firstDigits base n length, (digitValue ∘ digitChar) d = id d := by
    intro d mem
    exact (digitChar_spec (lt_of_lt_of_le (lt_of_mem_firstDigits pos mem) le)).1
  rw [digitChars, List.map_map, List.map_congr_left same, List.map_id]

/-- Digits stand for the number modulo a power of the base. -/
lemma readDigits_digitChars (pos : 0 < base) (le : base ≤ 16) (length : Nat) :
    readDigits base (digitChars base n length).reverse =
      if length = 0 then none else some (n % base ^ length) := by
  unfold readDigits
  by_cases empty : length = 0
  · subst empty
    simp [digitChars]
  · have digits : (digitChars base n length).reverse ≠ [] ∧
        (digitChars base n length).reverse.all (digitValue · < base) = true := by
      refine ⟨?_, List.all_eq_true.mpr fun c mem => ?_⟩
      swap
      · simpa using (mem_digitChars pos le (List.mem_reverse.mp mem)).1
      intro nil
      have := congrArg List.length nil
      simp only [List.length_reverse, length_digitChars, List.length_nil] at this
      exact empty this
    rw [if_pos digits, if_neg empty, List.reverse_reverse, map_digitValue pos le, ofDigits_firstDigits]

/-- So they do with a zero in front of them. -/
lemma readDigits_zero (pos : 0 < base) (le : base ≤ 16) (length : Nat) :
    readDigits base (48 :: (digitChars base n length).reverse) = some (n % base ^ length) := by
  have zero : digitValue 48 = 0 := rfl
  have digits : 48 :: (digitChars base n length).reverse ≠ [] ∧
      (48 :: (digitChars base n length).reverse).all (digitValue · < base) = true := by
    refine ⟨by simp, List.all_eq_true.mpr ?_⟩
    intro c mem
    rw [decide_eq_true_eq]
    rcases List.mem_cons.mp mem with rfl | mem
    · rw [zero]
      exact pos
    · exact (mem_digitChars pos le (List.mem_reverse.mp mem)).1
  rw [readDigits, if_pos digits, List.reverse_cons, List.reverse_reverse, List.map_append,
    map_digitValue pos le, List.map_singleton, zero, Nat.ofDigits_append_zero, ofDigits_firstDigits]

/-- A byte that is no digit. -/
lemma readDigits_letter {c : UInt8} (notDigit : base ≤ digitValue c) (text : Bytes) :
    readDigits base (c :: text) = none := by
  rw [readDigits, if_neg]
  rintro ⟨-, all⟩
  have := List.all_eq_true.mp all c (by simp)
  rw [decide_eq_true_eq] at this
  omega

end Text

section Base
variable {base n prec width length : Nat} {flags : PrintFlags}

/-- The digits that are left before the prefix of the base is put. -/
def hashedLength (base length prec width : Nat) (precision : Bool) : Nat :=
  if !precision && length ≠ 0 && (length = prec || length = width) then
    length - if base = 16 then 2 else 1
  else length

/-- The letter in the prefix of a base. -/
def baseLetter (base : Nat) (uppercase : Bool) : Option UInt8 :=
  if base = 16 then some (if uppercase then 88 else 120) else if base = 2 then some 98 else none

/-- Without the highest digit there is one less. -/
lemma dropLast_digitChars : (digitChars base n length).dropLast = digitChars base n (length - 1) := by
  rw [digitChars, ← List.map_dropLast, dropLast_firstDigits, digitChars]

/-- The bytes that are taken off for the prefix of the base. -/
lemma hashed_eq :
    (if !flags.precision && (digitChars base n length).length ≠ 0 &&
        ((digitChars base n length).length = prec || (digitChars base n length).length = width) then
      let buf := (digitChars base n length).dropLast
      if buf.length ≠ 0 && base = 16 then buf.dropLast else buf
    else digitChars base n length) =
      digitChars base n (hashedLength base length prec width flags.precision) := by
  simp only [length_digitChars, hashedLength]
  split
  · rw [dropLast_digitChars, length_digitChars, dropLast_digitChars]
    by_cases hex : base = 16
    · rw [if_pos hex]
      split
      · rw [Nat.sub_sub]
      · rename_i short
        have one : length - 1 = length - 2 := by
          simp only [hex, decide_true, Bool.and_true, decide_eq_true_eq, ne_eq, not_not] at short
          omega
        rw [one]
    · rw [if_neg (by simp [hex]), if_neg hex]
  · rfl

/-- The prefix of the base. -/
lemma putBase_eq : putBase (digitChars base n length) base prec width flags =
    let buf := digitChars base n (hashedLength base length prec width flags.precision)
    put (match baseLetter base flags.uppercase with
      | some c => put buf c
      | none => buf) 48 := by
  simp only [putBase, hashed_eq, baseLetter]
  by_cases hex : base = 16
  · cases flags.uppercase with
    | true => simp [hex]
    | false => simp [hex]
  · by_cases binary : base = 2
    · simp [binary]
    · simp [hex, binary]

/-- A prefix is a zero and a letter. -/
lemma mem_basePrefixes {text : Bytes} (mem : text ∈ basePrefixes base) :
    ∃ c, text = [48, c] ∧ c ∈ [120, 88, 98] := by
  unfold basePrefixes at mem
  split_ifs at mem
  · simp only [List.mem_cons, List.not_mem_nil, or_false] at mem
    rcases mem with rfl | rfl
    · exact ⟨120, rfl, by decide⟩
    · exact ⟨88, rfl, by decide⟩
  · rw [List.mem_singleton] at mem
    exact ⟨98, mem, by decide⟩
  · cases mem

/-- Digits have no prefix. -/
lemma dropBase_digitChars (pos : 0 < base) (le : base ≤ 16) :
    dropBase base (digitChars base n length).reverse = (digitChars base n length).reverse := by
  rw [dropBase, if_neg]
  intro mem
  obtain ⟨c, split, letter⟩ := mem_basePrefixes mem
  have digit : c ∈ digitChars base n length := by
    apply List.mem_reverse.mp
    apply List.mem_of_mem_take (i := 2)
    simp [split]
  exact (mem_digitChars pos le digit).2 (List.mem_append_right [32, 45, 43] letter)

/-- The number that is read behind a zero and a letter. -/
lemma readDigits_letters (pos : 0 < base) (le : base ≤ 16) (full : length ≤ ntoaBufferSize) {c : UInt8}
    (known : [48, c] ∈ basePrefixes base) (notDigit : base ≤ digitValue c) (notZero : c ≠ 48) :
    readDigits base (dropBase base (put (put (digitChars base n length) c) 48).reverse) =
      if length = 0 ∨ length = ntoaBufferSize - 1 then none else some (n % base ^ length) := by
  have size : ntoaBufferSize = 32 := rfl
  rcases (show length < 31 ∨ length = 31 ∨ length = 32 by omega) with room | one | none
  · have both : (put (put (digitChars base n length) c) 48).reverse =
        48 :: c :: (digitChars base n length).reverse := by
      have more : length + 1 < ntoaBufferSize := by omega
      simp [put, show length < ntoaBufferSize by omega, more]
    rw [both, dropBase, if_pos (by simpa using known)]
    simp only [List.drop_succ_cons, List.drop_zero]
    rw [readDigits_digitChars pos le]
    have same : (length = 0 ∨ length = ntoaBufferSize - 1) ↔ length = 0 := by omega
    simp only [same]
  · have letter : (put (put (digitChars base n length) c) 48).reverse =
        c :: (digitChars base n length).reverse := by
      simp [put, one, size]
    have unknown : (c :: (digitChars base n length).reverse).take 2 ∉ basePrefixes base := by
      intro mem
      obtain ⟨c', split, -⟩ := mem_basePrefixes mem
      exact notZero (List.cons.inj split).1
    rw [letter, dropBase, if_neg unknown, readDigits_letter notDigit, if_pos (.inr (by omega))]
  · have digits : (put (put (digitChars base n length) c) 48).reverse =
        (digitChars base n length).reverse := by
      simp [put, none, size]
    rw [digits, dropBase_digitChars pos le, readDigits_digitChars pos le, if_neg (by omega),
      if_neg (by omega)]

/-- The number that is read behind a zero. -/
lemma readDigits_octal (full : length ≤ ntoaBufferSize) :
    readDigits 8 (dropBase 8 (put (digitChars 8 n length) 48).reverse) = some (n % 8 ^ length) := by
  have none : ∀ text, dropBase 8 text = text := by
    intro text
    rw [dropBase, if_neg (by simp [basePrefixes])]
  rw [none, put, length_digitChars]
  split
  · rw [List.reverse_append]
    exact readDigits_zero (by omega) (by omega) length
  · have size : ntoaBufferSize = 32 := rfl
    rw [readDigits_digitChars (by omega) (by omega), if_neg (by omega)]

/-- The number that is read behind the prefix of the base. -/
lemma readDigits_putBase (bases : base = 16 ∨ base = 8 ∨ base = 2) {inner : Nat}
    (full : hashedLength base length prec width flags.precision = inner) (le : inner ≤ ntoaBufferSize) :
    readDigits base (dropBase base (putBase (digitChars base n length) base prec width flags).reverse) =
      if base = 8 then some (n % base ^ inner)
      else if inner = 0 ∨ inner = ntoaBufferSize - 1 then none
      else some (n % base ^ inner) := by
  rw [putBase_eq, full]
  rcases bases with rfl | rfl | rfl
  · cases flags.uppercase with
    | true => exact readDigits_letters (by omega) le_rfl le (by decide) (by decide) (by decide)
    | false => exact readDigits_letters (by omega) le_rfl le (by decide) (by decide) (by decide)
  · exact readDigits_octal le
  · exact readDigits_letters (by omega) (by omega) le (by decide) (by decide) (by decide)

end Base

section Number
variable {base n prec width : Nat} {negative hash : Bool} {flags : PrintFlags}

/-- A number that is written without the prefix of a base. -/
lemma readBack_plain (two : 2 ≤ base) (le : base ≤ 16) (plain : ¬ (n ≠ 0 ∧ flags.hash = true)) {length : Nat}
    (padded : paddedLength base n prec (innerWidth negative width flags) flags = length) :
    readBack base hash (ntoa n negative base prec width flags) =
      if length = 0 then none
      else some (negative && decide (length < ntoaBufferSize), n % base ^ length) := by
  have pos : 0 < base := by omega
  have bytes : ∀ c ∈ digitChars base n length, c ∉ [32, 45, 43, 120, 88, 98] :=
    fun c mem => (mem_digitChars pos le mem).2
  rw [ntoa_eq two]
  simp only [padded, if_neg plain]
  rw [readBack_text]
  · rw [dropBase_digitChars pos le, ite_self, readDigits_digitChars pos le, length_digitChars]
    split
    · rfl
    · rfl
  · rintro c mem rfl
    exact bytes 32 mem (by decide)
  · intro mem
    exact bytes 45 mem (by decide)
  · intro mem
    exact bytes 43 mem (by decide)

/-- A buffer gets one character. -/
lemma mem_put {buf : Bytes} {c c' : UInt8} (mem : c ∈ put buf c') : c ∈ buf ∨ c = c' := by
  unfold put at mem
  split at mem
  · simpa using mem
  · exact .inl mem

/-- A number that is written with the prefix of its base. -/
lemma readBack_hashed (bases : base = 16 ∨ base = 8 ∨ base = 2) (zero : n ≠ 0) (hashed : flags.hash = true)
    {length inner : Nat} (padded : paddedLength base n prec (innerWidth negative width flags) flags = length)
    (left : hashedLength base length prec (innerWidth negative width flags) flags.precision = inner)
    (full : inner ≤ ntoaBufferSize) (positive : negative = false) :
    readBack base true (ntoa n negative base prec width flags) =
      if base = 8 then some (false, n % base ^ inner)
      else if inner = 0 ∨ inner = ntoaBufferSize - 1 then none
      else some (false, n % base ^ inner) := by
  have two : 2 ≤ base := by omega
  have le : base ≤ 16 := by omega
  have pos : 0 < base := by omega
  have bytes : ∀ c ∈ putBase (digitChars base n length) base prec (innerWidth negative width flags) flags,
      c ∉ [(32 : UInt8), 45, 43] := by
    intro c mem
    rw [putBase_eq, left] at mem
    have letter : ∀ {c'}, baseLetter base flags.uppercase = some c' → c' ∉ [(32 : UInt8), 45, 43] := by
      intro c' e
      unfold baseLetter at e
      split_ifs at e <;> cases e <;> decide
    rcases mem_put mem with mem | rfl
    · cases isLetter : baseLetter base flags.uppercase with
      | none =>
        rw [isLetter] at mem
        intro other
        exact (mem_digitChars pos le mem).2 (List.mem_append_left [120, 88, 98] other)
      | some c' =>
        rw [isLetter] at mem
        rcases mem_put mem with mem | rfl
        · intro other
          exact (mem_digitChars pos le mem).2 (List.mem_append_left [120, 88, 98] other)
        · exact letter isLetter
    · decide
  rw [ntoa_eq two]
  simp only [padded, if_pos (And.intro zero hashed)]
  rw [readBack_text]
  · rw [if_pos rfl, readDigits_putBase bases left full, positive, Bool.false_and]
    split_ifs <;> rfl
  · rintro c mem rfl
    exact bytes 32 mem (by decide)
  · intro mem
    exact bytes 45 mem (by decide)
  · intro mem
    exact bytes 43 mem (by decide)

end Number

namespace Field
variable (charSigned : Bool) (modifier : LengthModifier) (conversion : Conversion) (f : Field)

/-- Zeros pad the number. -/
def zeros : Bool := f.zero && !f.precision.isSome && !f.left

/-- The digits and zeros of a number, in a buffer that has room for its digits. -/
def padded (digits : Nat) : Nat :=
  if f.left then digits
  else max digits (max (min f.precission 32) (if f.zeros then min (f.width % 2 ^ 32) 32 else 0))

/-- A number goes into the buffer with its sign and the prefix of its base, and only zeros are taken off
for the prefix. -/
structure Fits (v : Int) : Prop where
  /-- Its digits do. -/
  binary : conversion = .b → v.natAbs < 2 ^ 32
  /-- With a precision, zero has no digits but those that pad it. -/
  zero : v = 0 → f.precision ≠ none → f.left = false ∧ f.precission ≠ 0
  /-- There is room for the sign. -/
  sign : v < 0 → f.left = false → f.precission < 32 ∧ (f.zeros = true → f.width % 2 ^ 32 ≤ 32)
  /-- If the digits and zeros are as many as the width, those for the prefix are taken for zeros. -/
  dropped : f.hash = true → conversion.base ≠ 10 → v ≠ 0 → f.precision = none →
    f.padded (digitCount conversion.base v.natAbs) = f.width % 2 ^ 32 →
    digitCount conversion.base v.natAbs + (if conversion.base = 16 then 2 else 1) ≤ f.width % 2 ^ 32 ∧
      (conversion = .b → f.width % 2 ^ 32 ≠ 32)
  /-- There is room for both bytes of a prefix, or for none. -/
  letter : f.hash = true → conversion.base ≠ 10 → conversion ≠ .o → v ≠ 0 →
    ¬ (f.precision = none ∧ f.padded (digitCount conversion.base v.natAbs) = f.width % 2 ^ 32) →
    f.padded (digitCount conversion.base v.natAbs) ≠ 31

/-- A precision that is absent counts as 0. -/
lemma precission_none (absent : f.precision = none) : f.precission = 0 := by
  simp [precission, absent]

end Field

section Counts
variable {base n : Nat}

/-- Of the numbers of 64 bits, only binary ones can have more digits than there is room for. -/
lemma digitCount_le_size (bases : base = 16 ∨ base = 10 ∨ base = 8) (small : n < 2 ^ 64) :
    digitCount base n ≤ 22 := by
  rcases bases with rfl | rfl | rfl <;>
  · rw [digitCount_le_iff (by omega)]
    omega

/-- A number survives if all its digits do. -/
lemma mod_pow_eq_iff (two : 2 ≤ base) {length : Nat} :
    n % base ^ length = n ↔ digitCount base n ≤ length := by
  rw [digitCount_le_iff two]
  exact Nat.mod_eq_iff_lt (Nat.pow_pos (by omega)).ne'

end Counts

section Iff
variable {base prec width : Nat} {v : Int} {hash : Bool} {flags : PrintFlags}

/-- Without a prefix all digits have to be there, and a place for the sign. -/
lemma faithful_plain_iff (two : 2 ≤ base) (le : base ≤ 16)
    (plain : ¬ (v.natAbs ≠ 0 ∧ flags.hash = true)) {length : Nat}
    (padded : paddedLength base v.natAbs prec (innerWidth (decide (v < 0)) width flags) flags = length) :
    Faithful base hash v (ntoa v.natAbs (decide (v < 0)) base prec width flags) ↔
      length ≠ 0 ∧ (v < 0 → length < 32) ∧ digitCount base v.natAbs ≤ length := by
  rw [Faithful, readBack_plain two le plain padded, ← mod_pow_eq_iff two]
  by_cases empty : length = 0
  · simp [empty]
  · have signs : (decide (v < 0) && decide (length < ntoaBufferSize)) = decide (v < 0) ↔
        (v < 0 → length < 32) := by
      by_cases negative : v < 0
      · simp only [negative, decide_true, Bool.true_and, true_imp_iff]
        exact decide_eq_true_iff
      · simp [negative]
    rw [if_neg empty, Option.some_inj, Prod.mk.injEq, signs]
    simp [empty]

/-- With a prefix there have to be places for it. -/
lemma faithful_hashed_iff (bases : base = 16 ∨ base = 8 ∨ base = 2) (zero : v ≠ 0) (nonneg : 0 ≤ v)
    (hashed : flags.hash = true) {length inner : Nat}
    (padded : paddedLength base v.natAbs prec (innerWidth (decide (v < 0)) width flags) flags = length)
    (left : hashedLength base length prec (innerWidth (decide (v < 0)) width flags) flags.precision = inner)
    (full : inner ≤ 32) :
    Faithful base true v (ntoa v.natAbs (decide (v < 0)) base prec width flags) ↔
      digitCount base v.natAbs ≤ inner ∧ (base = 8 ∨ inner ≠ 31) := by
  have positive : decide (v < 0) = false := decide_eq_false (by omega)
  have digits : 0 < digitCount base v.natAbs := digitCount_pos (by omega)
  rw [Faithful, readBack_hashed bases (by omega) hashed padded left full positive, positive,
    ← mod_pow_eq_iff (show 2 ≤ base by omega)]
  by_cases octal : base = 8
  · simp [octal]
  · rw [if_neg octal]
    by_cases none : inner = 0 ∨ inner = ntoaBufferSize - 1
    · rw [if_pos none]
      simp only [reduceCtorEq, octal, false_or, false_iff, not_and, not_not]
      rw [mod_pow_eq_iff (show 2 ≤ base by omega)]
      simp only [ntoaBufferSize] at none
      omega
    · rw [if_neg none]
      simp only [ntoaBufferSize] at none
      simp only [Option.some_inj, Prod.mk.injEq, true_and, octal, false_or]
      constructor
      · intro h
        exact ⟨h, by omega⟩
      · exact And.left

end Iff

section Fits
variable {modifier : LengthModifier} {conversion : Conversion} {f : Field} {v : Int}

/-- The digits and zeros in the buffer of a field. -/
lemma exists_padded (modifier : LengthModifier) (conversion : Conversion) (f : Field) (negative : Bool)
    (n : Nat) :
    ∃ length zeros, paddedLength conversion.base n f.precission
        (innerWidth negative (f.width % 2 ^ 32) (f.numberFlags modifier conversion))
        (f.numberFlags modifier conversion) = length ∧
      (f.left = true → length = startLength conversion.base n f.precision.isSome) ∧
      (f.left = false → length =
        max (max (startLength conversion.base n f.precision.isSome) (min f.precission 32)) zeros) ∧
      (f.zeros = true → zeros =
        min (f.width % 2 ^ 32 - (signBytes negative (f.numberFlags modifier conversion)).length) 32) ∧
      (f.zeros = false → zeros = 0) ∧ zeros ≤ 32 := by
  let inner := f.width % 2 ^ 32 - (signBytes negative (f.numberFlags modifier conversion)).length
  have precision : (f.numberFlags modifier conversion).precision = f.precision.isSome := rfl
  have left : (f.numberFlags modifier conversion).left = f.left := rfl
  have zeropad : (f.numberFlags modifier conversion).zeropad = (f.zero && !f.precision.isSome) := rfl
  refine ⟨_, if f.zeros then min inner 32 else 0, rfl, ?_, ?_, fun h => if_pos h, fun h => by simp [h],
    by split <;> omega⟩
  · intro isLeft
    simp [paddedLength, precision, left, isLeft]
  · intro notLeft
    have same : f.zeros = (f.zero && !f.precision.isSome) := by simp [Field.zeros, notLeft]
    rw [paddedLength, innerWidth, precision, left, zeropad, notLeft, ← same]
    cases f.zeros with
    | true =>
      simp only [ntoaBufferSize, inner, Bool.not_false, Bool.and_self, Bool.false_eq_true, if_true, if_false]
    | false => simp [ntoaBufferSize]

/-- How many digits a number of 64 bits has. -/
lemma digitCount_conversion (conversion : Conversion) (small : v.natAbs < 2 ^ 64) :
    (conversion ≠ .b → digitCount conversion.base v.natAbs ≤ 22) ∧
      (conversion = .b → (v.natAbs < 2 ^ 32 ↔ digitCount conversion.base v.natAbs ≤ 32)) := by
  constructor
  · intro other
    apply digitCount_le_size _ small
    cases conversion <;> simp_all [Conversion.base]
  · rintro rfl
    rw [digitCount_le_iff (show 2 ≤ Conversion.b.base by decide)]
    rfl

/-- The digits before the zeros that pad a number. -/
lemma startLength_eq (base : Nat) (v : Int) (precision : Option Int) :
    (v = 0 → precision ≠ none → startLength base v.natAbs precision.isSome = 0) ∧
      (v ≠ 0 ∨ precision = none →
        startLength base v.natAbs precision.isSome = min (max 1 (digitCount base v.natAbs)) 32) := by
  unfold startLength
  constructor
  · intro zero given
    rw [if_pos ⟨by omega, Option.isSome_iff_ne_none.mpr given⟩]
  · rintro (other | absent)
    · rw [if_neg (by omega)]
      rfl
    · rw [if_neg (by simp [absent])]
      rfl

/-- A field without the prefix of a base. -/
lemma faithful_plain_fits (small : v.natAbs < 2 ^ 64) (signed : v < 0 → conversion.signed = true)
    (plain : ¬ (v ≠ 0 ∧ f.hash = true ∧ conversion.base ≠ 10)) :
    Faithful conversion.base f.hash v (ntoa v.natAbs (decide (v < 0)) conversion.base f.precission
      (f.width % 2 ^ 32) (f.numberFlags modifier conversion)) ↔ f.Fits conversion v := by
  have two : 2 ≤ conversion.base := by cases conversion <;> decide
  have le : conversion.base ≤ 16 := by cases conversion <;> decide
  have plain' : ¬ (v.natAbs ≠ 0 ∧ (f.numberFlags modifier conversion).hash = true) := by
    simpa [Field.numberFlags] using plain
  have minus : v < 0 → (signBytes (decide (v < 0)) (f.numberFlags modifier conversion)).length = 1 := by
    intro negative
    simp [signBytes, negative]
  have noZeros : f.precision ≠ none → f.zeros = false := by
    intro given
    simp [Field.zeros, Option.isSome_iff_ne_none.mpr given]
  have unbinary : v < 0 → conversion ≠ .b := by
    rintro negative rfl
    exact absurd (signed negative) (by decide)
  obtain ⟨few, binary⟩ := digitCount_conversion conversion small
  obtain ⟨length, zeros, padded, atLeft, atRight, given, absent, le'⟩ :=
    exists_padded modifier conversion f (decide (v < 0)) v.natAbs
  rw [faithful_plain_iff two le plain' padded]
  obtain ⟨empty, filled⟩ := startLength_eq conversion.base v f.precision
  have zeroCount : v = 0 → digitCount conversion.base v.natAbs = 0 := by
    rintro rfl
    exact digitCount_zero
  have short : startLength conversion.base v.natAbs f.precision.isSome ≤ 32 := startLength_le
  constructor
  · rintro ⟨nonempty, room, digits⟩
    refine ⟨?_, ?_, ?_, fun hash ten zero => absurd ⟨zero, hash, ten⟩ plain,
      fun hash ten _ zero => absurd ⟨zero, hash, ten⟩ plain⟩
    · intro isBinary
      rw [binary isBinary]
      cases left : f.left with
      | true =>
        have := atLeft left
        omega
      | false =>
        have := atRight left
        omega
    · intro zero given
      have none := empty zero given
      have unpadded := absent (noZeros given)
      cases left : f.left with
      | true =>
        have := atLeft left
        omega
      | false =>
        have := atRight left
        exact ⟨rfl, by omega⟩
    · intro negative left
      have small := room negative
      have sign := minus negative
      have := atRight left
      refine ⟨by omega, ?_⟩
      intro isZeros
      have := given isZeros
      omega
  · intro fits
    have fewer : digitCount conversion.base v.natAbs ≤ 32 := by
      -- only the digits of a binary number may be more than the buffer holds
      by_cases isBinary : conversion = .b
      · exact (binary isBinary).mp (fits.binary isBinary)
      · have := few isBinary
        omega
    by_cases none : v = 0 ∧ f.precision ≠ none
    · -- zero is padded up to its precision
      obtain ⟨left, precission⟩ := fits.zero none.1 none.2
      have := atRight left
      have := empty none.1 none.2
      have := zeroCount none.1
      refine ⟨by omega, by omega, by omega⟩
    · have starts := filled (by
        by_contra neither
        rw [not_or, not_not] at neither
        exact none neither)
      have start : startLength conversion.base v.natAbs f.precision.isSome ≤ length := by
        cases left : f.left with
        | true => exact (atLeft left).ge
        | false =>
          have := atRight left
          omega
      refine ⟨by omega, ?_, by omega⟩
      intro negative
      have fewest := few (unbinary negative)
      cases left : f.left with
      | true =>
        have := atLeft left
        omega
      | false =>
        -- the sign takes the byte that `Fits` leaves in the buffer
        obtain ⟨precission, width⟩ := fits.sign negative left
        have := atRight left
        have sign := minus negative
        cases isZeros : f.zeros with
        | true =>
          have := width isZeros
          have := given isZeros
          omega
        | false =>
          have := absent isZeros
          omega

/-- A field with the prefix of its base has no sign. -/
lemma unsigned_of_base (modifier : LengthModifier) (f : Field) (ten : conversion.base ≠ 10) :
    signBytes false (f.numberFlags modifier conversion) = [] ∧
      (conversion.base = 16 ∨ conversion.base = 8 ∨ conversion.base = 2) := by
  cases conversion <;> simp_all [signBytes, Field.numberFlags, Conversion.base, Conversion.signed]

/-- The digits and zeros of a number that goes into the buffer. -/
lemma padded_eq_of_le {length zeros digits start : Nat} (small : digits ≤ 32) (pos : 0 < digits)
    (starts : start = min (max 1 digits) 32) (atLeft : f.left = true → length = start)
    (atRight : f.left = false → length = max (max start (min f.precission 32)) zeros)
    (given : f.zeros = true → zeros = min (f.width % 2 ^ 32) 32) (absent : f.zeros = false → zeros = 0) :
    length = f.padded digits := by
  unfold Field.padded
  cases left : f.left with
  | true =>
    have := atLeft left
    simp only [if_true]
    omega
  | false =>
    have := atRight left
    simp only [Bool.false_eq_true, if_false]
    cases isZeros : f.zeros with
    | true =>
      have := given isZeros
      simp only [if_true]
      omega
    | false =>
      have := absent isZeros
      simp only [Bool.false_eq_true, if_false]
      omega

/-- The digits that are left before the prefix of the base. -/
lemma exists_hashed (base length prec width : Nat) (precision : Option Int) :
    ∃ inner, hashedLength base length prec width precision.isSome = inner ∧
      (precision = none ∧ length ≠ 0 ∧ (length = prec ∨ length = width) →
        inner = length - if base = 16 then 2 else 1) ∧
      (¬ (precision = none ∧ length ≠ 0 ∧ (length = prec ∨ length = width)) → inner = length) := by
  refine ⟨_, rfl, ?_, ?_⟩
  · rintro ⟨none, nonempty, same⟩
    rw [hashedLength, if_pos (by simp [none, nonempty, same])]
  · intro kept
    rw [hashedLength, if_neg]
    intro h
    simp only [Bool.and_eq_true, Bool.not_eq_true', Option.isSome_eq_false_iff, Option.isNone_iff_eq_none,
      decide_eq_true_eq, Bool.or_eq_true] at h
    exact kept ⟨h.1.1, h.1.2, h.2⟩

/-- A field with the prefix of its base. -/
lemma faithful_hashed_fits (small : v.natAbs < 2 ^ 64) (nonneg : 0 ≤ v) (zero : v ≠ 0)
    (hash : f.hash = true) (ten : conversion.base ≠ 10) :
    Faithful conversion.base true v (ntoa v.natAbs (decide (v < 0)) conversion.base f.precission
      (f.width % 2 ^ 32) (f.numberFlags modifier conversion)) ↔ f.Fits conversion v := by
  have negative : decide (v < 0) = false := decide_eq_false (by omega)
  obtain ⟨unsigned, bases⟩ := unsigned_of_base modifier f ten
  have inner : innerWidth (decide (v < 0)) (f.width % 2 ^ 32) (f.numberFlags modifier conversion) =
      f.width % 2 ^ 32 := by
    rw [innerWidth, negative, unsigned, List.length_nil, Nat.sub_zero, ite_self]
  have hashed : (f.numberFlags modifier conversion).hash = true := by
    simp [Field.numberFlags, hash, ten]
  obtain ⟨few, binary⟩ := digitCount_conversion conversion small
  obtain ⟨length, zeros, padded, atLeft, atRight, given, absent, le⟩ :=
    exists_padded modifier conversion f (decide (v < 0)) v.natAbs
  rw [negative, unsigned, List.length_nil, Nat.sub_zero] at given
  have starts := (startLength_eq conversion.base v f.precision).2 (.inl zero)
  have digits : 0 < digitCount conversion.base v.natAbs := digitCount_pos (by omega)
  have bound : length ≤ 32 ∧ min (digitCount conversion.base v.natAbs) 32 ≤ length := by
    cases left : f.left with
    | true =>
      have := atLeft left
      omega
    | false =>
      have := atRight left
      omega
  -- `#` drops up to two digits when the length is that of the precision or of the width
  obtain ⟨inner', hashedLen, cut, kept⟩ := exists_hashed conversion.base length f.precission
    (f.width % 2 ^ 32) f.precision
  have size : inner' ≤ length := by
    by_cases drop : f.precision = none ∧ length ≠ 0 ∧ (length = f.precission ∨ length = f.width % 2 ^ 32)
    · have := cut drop
      omega
    · exact (kept drop).le
  rw [faithful_hashed_iff bases zero nonneg hashed padded (inner ▸ hashedLen) (by omega)]
  have octal : conversion.base = 8 ↔ conversion = .o := by cases conversion <;> decide
  have isBinary : conversion.base = 2 ↔ conversion = .b := by cases conversion <;> decide
  -- without a precision `precission` is zero, so it is the width that counts
  have dropIff : (f.precision = none ∧ length ≠ 0 ∧
      (length = f.precission ∨ length = f.width % 2 ^ 32)) ↔
      f.precision = none ∧ length = f.width % 2 ^ 32 := by
    constructor
    · rintro ⟨none, nonempty, prec | width⟩
      · have := f.precission_none none
        omega
      · exact ⟨none, width⟩
    · rintro ⟨none, width⟩
      exact ⟨none, by omega, .inr width⟩
  rw [dropIff] at cut kept
  constructor
  · rintro ⟨fit, letter⟩
    have fewer : digitCount conversion.base v.natAbs ≤ 32 := by omega
    have same := padded_eq_of_le fewer digits starts atLeft atRight given absent
    refine ⟨fun b => (binary b).mpr fewer, fun h => absurd h zero, fun h => by omega, ?_, ?_⟩
    · intro _ _ _ none width
      rw [← same] at width
      have left := cut ⟨none, width⟩
      refine ⟨?_, ?_⟩
      · split at left <;> split <;> omega
      · intro b
        have two := isBinary.mpr b
        rw [if_neg (by omega)] at left
        omega
    · intro _ _ notOctal _ notDropped
      rw [← same] at notDropped ⊢
      have := kept notDropped
      rw [octal] at letter
      rcases letter with isOctal | other
      · exact absurd isOctal notOctal
      · omega
  · intro fits
    have fewer : digitCount conversion.base v.natAbs ≤ 32 := by
      by_cases b : conversion = .b
      · exact (binary b).mp (fits.binary b)
      · have := few b
        omega
    have same := padded_eq_of_le fewer digits starts atLeft atRight given absent
    by_cases drop : f.precision = none ∧ length = f.width % 2 ^ 32
    · have left := cut drop
      obtain ⟨fit, notFull⟩ := fits.dropped hash ten zero drop.1 (same ▸ drop.2)
      refine ⟨?_, ?_⟩
      · split at left <;> split at fit <;> omega
      · -- with 31 digits there is no room for the letter of the prefix, which octal numbers do not have
        rcases bases with hex | oct | bin
        · rw [if_pos hex] at left
          exact .inr (by omega)
        · exact .inl oct
        · have := notFull (isBinary.mp bin)
          rw [if_neg (by omega)] at left
          exact .inr (by omega)
    · have left := kept drop
      refine ⟨by omega, ?_⟩
      by_cases o : conversion = .o
      · exact .inl (octal.mpr o)
      · have := fits.letter hash ten o zero (same ▸ drop)
        rw [← same] at this
        exact .inr (by omega)

end Fits

section Printed
variable (charSigned : Bool) (modifier : LengthModifier) (conversion : Conversion) (f : Field)

/-- What is written is the argument, unless a negative `char` is written as an unsigned one. -/
lemma printed_cases (word : BitVec 64) :
    printed charSigned modifier conversion word = argument modifier conversion word ∨
      (conversion.signed = true ∧ modifier = .hh ∧ charSigned = false ∧
        argument modifier conversion word < 0 ∧ 0 ≤ printed charSigned modifier conversion word) := by
  by_cases char : (conversion.signed && decide (modifier = .hh) && !charSigned) = true
  · have value : printed charSigned modifier conversion word = (word.setWidth 8).toNat := by
      rw [printed, if_pos char]
    simp only [Bool.and_eq_true, decide_eq_true_eq, Bool.not_eq_true'] at char
    obtain ⟨⟨signed, rfl⟩, unsignedChar⟩ := char
    have arg : argument .hh conversion word = (word.setWidth 8).toInt := by
      rw [argument, if_pos signed]
      rfl
    have cond := BitVec.toInt_eq_toNat_cond (word.setWidth 8)
    rw [value, arg, cond]
    split
    · exact .inl rfl
    · have lt := (word.setWidth 8).isLt
      exact .inr ⟨signed, rfl, unsignedChar, by omega, by omega⟩
  · exact .inl (by rw [printed, if_neg char])

/-- A number is negative under a signed conversion only. -/
lemma printed_signed (word : BitVec 64) (negative : printed charSigned modifier conversion word < 0) :
    conversion.signed = true := by
  by_contra unsigned
  unfold printed argument at negative
  simp only [unsigned, if_false] at negative
  omega

/-- The text of a field reads back as the number that is written, if it goes into the buffer. -/
lemma faithful_text_iff :
    Faithful conversion.base f.hash (printed charSigned modifier conversion f.word)
        (f.text charSigned modifier conversion) ↔
      f.Fits conversion (printed charSigned modifier conversion f.word) := by
  have bits : modifier.bits ≤ 64 := by cases modifier <;> decide
  have small : (printed charSigned modifier conversion f.word).natAbs < 2 ^ 64 :=
    lt_of_lt_of_le (natAbs_printed_lt ..) (Nat.pow_le_pow_right (by omega) bits)
  have signed := printed_signed charSigned modifier conversion f.word
  rw [Field.text_eq]
  by_cases plain : printed charSigned modifier conversion f.word ≠ 0 ∧ f.hash = true ∧ conversion.base ≠ 10
  · obtain ⟨zero, hash, ten⟩ := plain
    have nonneg : 0 ≤ printed charSigned modifier conversion f.word := by
      by_contra negative
      have := signed (by omega)
      cases conversion <;> first | exact ten rfl | cases this
    rw [hash]
    exact faithful_hashed_fits small nonneg zero hash ten
  · exact faithful_plain_fits small signed plain

/-- A number that is not negative does not read back as a negative one. -/
lemma not_faithful_negative {v : Int} (signed : conversion.signed = true) (negative : v < 0)
    (nonneg : 0 ≤ printed charSigned modifier conversion f.word) :
    ¬ Faithful conversion.base f.hash v (f.text charSigned modifier conversion) := by
  have ten : conversion.base = 10 := by cases conversion <;> first | rfl | cases signed
  have positive : decide (printed charSigned modifier conversion f.word < 0) = false :=
    decide_eq_false (by omega)
  have plain : ¬ ((printed charSigned modifier conversion f.word).natAbs ≠ 0 ∧
      (f.numberFlags modifier conversion).hash = true) := by
    simp [Field.numberFlags, ten]
  rw [Faithful, Field.text_eq, positive,
    readBack_plain (show 2 ≤ conversion.base by omega) (by omega) plain rfl]
  simp only [Bool.false_and, negative, decide_true]
  split <;> simp

end Printed

/-- For every integer conversion, all flags, widths, precisions, modifiers and arguments: the text that is
written reads back as the argument if and only if a negative `char` is not written as an unsigned one and
the number goes into the buffer with its sign and the prefix of its base (`Field.Fits`). -/
theorem printf_faithful_iff (charSigned : Bool) (d : Directive) (args : VaList) :
    ∃ text, vsnprintfInternal charSigned (37 :: d.bytes ++ [0]) args = some (text ++ [0]) ∧
      (Faithful d.conversion.base (d.field args).hash
          (argument d.modifier d.conversion (d.field args).word) text ↔
        (d.conversion.signed = true → d.modifier = .hh → charSigned = false →
          0 ≤ argument d.modifier d.conversion (d.field args).word) ∧
        (d.field args).Fits d.conversion (argument d.modifier d.conversion (d.field args).word)) := by
  refine ⟨_, vsnprintf_directive charSigned d args, ?_⟩
  rcases printed_cases charSigned d.modifier d.conversion (d.field args).word with
    same | ⟨signed, hh, unsignedChar, negative, nonneg⟩
  · have iff := faithful_text_iff charSigned d.modifier d.conversion (d.field args)
    have char : d.conversion.signed = true → d.modifier = .hh → charSigned = false →
        0 ≤ argument d.modifier d.conversion (d.field args).word := by
      intro signed hh unsignedChar
      rw [← same, printed, if_pos (by simp [signed, hh, unsignedChar])]
      omega
    rw [same] at iff
    rw [iff, and_iff_right char]
  · constructor
    · intro faithful
      exact absurd faithful (not_faithful_negative charSigned _ _ _ signed negative nonneg)
    · rintro ⟨char, -⟩
      have := char signed hh unsignedChar
      omega

/-- The directive `%#4x`. -/
def hashHex : Directive where
  flags := [35]
  width := .number [52]
  precision := none
  modifier := .none
  conversion := .x
  flags_valid := by simp [isFlag]
  width_valid := by simp [Count.Digits, isdigit]
  width_zero := by decide
  precision_valid := noPrecision_valid

/-- `%#4x` of `0x1234` is `0x34`: the two upper digits are taken for zeros that pad the number. -/
theorem printf_hash_takes_digits :
    vsnprintfInternal true (37 :: hashHex.bytes ++ [0]) (fun _ => ⟨0x1234, []⟩) =
        some ([48, 120, 51, 52] ++ [0]) ∧
      argument .none .x 0x1234 = 0x1234 ∧ ¬ Faithful 16 true 0x1234 [48, 120, 51, 52] := by
  refine ⟨rfl, rfl, ?_⟩
  have read : readBack 16 true [48, 120, 51, 52] = some (false, 0x34) := rfl
  simp [Faithful, read]

end WivOS.Utils.Printf
