import WivOS.Utils.PrintfFormat

/-!
# Integer directives

The directives of integer conversions as they are written in a format (`Directive`), and what they ask for
with the arguments at hand (`Field`). `_vsnprintf_internal` reads a directive as what it asks for, but for
a width or a precision of 32 bits or more, which it reads modulo `2 ^ 32`, and for a negative precision,
which it takes for zero (`vsnprintf_directive`).
-/

namespace WivOS.Utils.Printf

/-- An integer conversion. -/
inductive Conversion where
  | d | i | u | x | X | o | b
deriving Repr, DecidableEq

def Conversion.byte : Conversion → UInt8
  | d => 100 | i => 105 | u => 117 | x => 120 | X => 88 | o => 111 | b => 98

def Conversion.base : Conversion → Nat
  | d | i | u => 10
  | x | X => 16
  | o => 8
  | b => 2

def Conversion.signed : Conversion → Bool
  | d | i => true
  | _ => false

/-- A modifier of the length. -/
inductive LengthModifier where
  | none | hh | h | l | ll | j | z
deriving Repr, DecidableEq

def LengthModifier.bytes : LengthModifier → Bytes
  | none => []
  | hh => [104, 104]
  | h => [104]
  | l => [108]
  | ll => [108, 108]
  | j => [106]
  | z => [122]

/-- The bits of the type that a modifier names. -/
def LengthModifier.bits : LengthModifier → Nat
  | none => 32
  | hh => 8
  | h => 16
  | l | ll | j | z => 64

/-- A width or a precision: digits, or an argument. -/
inductive Count where
  | number (digits : Bytes)
  | star
deriving Repr, DecidableEq

def Count.bytes : Count → Bytes
  | number digits => digits
  | star => [42]

/-- The digits of a number. -/
def Count.Digits : Count → Prop
  | number digits => ∀ c ∈ digits, isdigit c = true
  | star => True

/-- The number that digits stand for. -/
def decimal (digits : Bytes) : Nat := digits.foldl (fun n c => n * 10 + (c - 48).toNat) 0

/-- The directive of an integer conversion; without a width its digits are empty, and a zero in front of
them would be a flag. -/
structure Directive where
  flags : Bytes
  width : Count
  precision : Option Count
  modifier : LengthModifier
  conversion : Conversion
  flags_valid : ∀ c ∈ flags, isFlag c = true
  width_valid : width.Digits
  width_zero : width.bytes.head? ≠ some 48
  precision_valid : ∀ count ∈ precision, count.Digits

/-- Without a precision there are no digits of one. -/
lemma noPrecision_valid : ∀ count ∈ (none : Option Count), count.Digits := by simp

/-- What a directive asks for: a negative precision is none. -/
structure Field where
  left : Bool
  plus : Bool
  space : Bool
  hash : Bool
  zero : Bool
  width : Nat
  precision : Option Int
  word : BitVec 64

/-- C `int`. -/
def toInt32 (slot : Slot) : Int := (slot.word.setWidth 32).toInt

namespace Directive

/-- The precision as it is written. -/
def precisionBytes (d : Directive) : Bytes :=
  match d.precision with
  | none => []
  | some count => 46 :: count.bytes

/-- The directive behind its `%`. -/
def bytes (d : Directive) : Bytes :=
  d.flags ++ (d.width.bytes ++ (d.precisionBytes ++ (d.modifier.bytes ++ [d.conversion.byte])))

/-- The arguments behind that of the width. -/
def afterWidth (d : Directive) (args : VaList) : VaList :=
  match d.width with
  | .number _ => args
  | .star => (vaArg args).2

/-- The arguments behind that of the precision. -/
def afterPrecision (d : Directive) (args : VaList) : VaList :=
  match d.precision with
  | some .star => (vaArg (d.afterWidth args)).2
  | _ => d.afterWidth args

/-- What a directive asks for. -/
def field (d : Directive) (args : VaList) : Field where
  left := 45 ∈ d.flags || d.width = .star && toInt32 (args 0) < 0
  plus := 43 ∈ d.flags
  space := 32 ∈ d.flags
  hash := 35 ∈ d.flags
  zero := 48 ∈ d.flags
  width :=
    match d.width with
    | .number digits => decimal digits
    | .star => (toInt32 (args 0)).natAbs
  precision := d.precision.map fun
    | .number digits => decimal digits
    | .star => toInt32 (d.afterWidth args 0)
  word := (d.afterPrecision args 0).word

end Directive

/-- The flags that are read for a field. -/
def Field.flags (f : Field) (modifier : LengthModifier) : PrintFlags where
  left := f.left
  plus := f.plus
  space := f.space
  hash := f.hash
  zeropad := f.zero
  precision := f.precision.isSome
  char := modifier = .hh
  short := modifier = .hh || modifier = .h
  long := modifier.bits = 64
  longLong := modifier = .ll
  uppercase := false

/-- The precision that is read for a field. -/
def Field.precission (f : Field) : Nat := (f.precision.getD 0).toNat % 2 ^ 32

/-- The text of a field. -/
def Field.text (charSigned : Bool) (modifier : LengthModifier) (conversion : Conversion) (f : Field) :
    Bytes :=
  convertInteger charSigned conversion.byte (f.flags modifier) (f.width % 2 ^ 32) f.precission f.word

section Read
variable {flags : PrintFlags} {args : VaList} {rest : Bytes}

/-- The flags of a directive are the bytes that occur in it. -/
lemma foldl_addFlag {fs : Bytes} (all : ∀ f ∈ fs, isFlag f = true) :
    fs.foldl addFlag flags =
      { flags with
        left := flags.left || decide (45 ∈ fs)
        plus := flags.plus || decide (43 ∈ fs)
        space := flags.space || decide (32 ∈ fs)
        hash := flags.hash || decide (35 ∈ fs)
        zeropad := flags.zeropad || decide (48 ∈ fs) } := by
  induction fs generalizing flags with
  | nil => simp
  | cons f fs ih =>
    simp only [List.mem_cons, forall_eq_or_imp] at all
    rw [List.foldl_cons, ih all.2]
    have flag := all.1
    simp only [isFlag, Bool.or_eq_true, decide_eq_true_eq] at flag
    rcases flag with (((rfl | rfl) | rfl) | rfl) | rfl <;> simp [addFlag]

/-- The digits of a number are read modulo `2 ^ 32`. -/
lemma foldl_addDigit (digits : Bytes) : digits.foldl addDigit 0 = decimal digits % 2 ^ 32 := by
  have general : ∀ n, digits.foldl addDigit (n % 2 ^ 32) =
      digits.foldl (fun n c => n * 10 + (c - 48).toNat) n % 2 ^ 32 := by
    induction digits with
    | nil => intro n; rfl
    | cons c digits ih =>
      intro n
      have step : addDigit (n % 2 ^ 32) c = (n * 10 + (c - 48).toNat) % 2 ^ 32 := by
        unfold addDigit
        omega
      rw [List.foldl_cons, step, ih, List.foldl_cons]
  exact general 0

/-- A modifier and a conversion begin with a byte that belongs to nothing before them. -/
lemma exists_conversion (modifier : LengthModifier) (conversion : Conversion) (rest : Bytes) :
    ∃ c rest', modifier.bytes ++ conversion.byte :: rest = c :: rest' ∧ isFlag c = false ∧
      isdigit c = false ∧ c ≠ 42 ∧ c ≠ 46 := by
  cases modifier with
  | none => cases conversion <;> exact ⟨_, _, rfl, by decide⟩
  | _ => exact ⟨_, _, rfl, by decide⟩

/-- The length modifier is read. -/
lemma readLength_eq (modifier : LengthModifier) (conversion : Conversion) :
    readLength flags (modifier.bytes ++ conversion.byte :: rest) =
      some ({ flags with
        char := flags.char || decide (modifier = .hh)
        short := flags.short || decide (modifier = .hh || modifier = .h)
        long := flags.long || decide (modifier.bits = 64)
        longLong := flags.longLong || decide (modifier = .ll) }, conversion.byte :: rest) := by
  have plain : conversion.byte ≠ 108 ∧ conversion.byte ≠ 104 ∧ conversion.byte ≠ 106 ∧ conversion.byte ≠ 122 := by
    cases conversion <;> decide
  cases modifier <;> simp [readLength, LengthModifier.bytes, LengthModifier.bits, plain]

/-- A number is read up to a byte that is no digit. -/
lemma readPrecission_number {digits : Bytes} {c : UInt8} (all : ∀ d ∈ digits, isdigit d = true)
    (stop : isdigit c = false) (star : c ≠ 42) :
    readPrecission flags (46 :: (digits ++ c :: rest)) args =
      some (decimal digits % 2 ^ 32, { flags with precision := true }, c :: rest, args) := by
  rw [← foldl_addDigit]
  cases digits with
  | nil => simp [readPrecission, stop, star]
  | cons d digits =>
    have read : readNumber ((d :: digits) ++ c :: rest) 0 = _ := readNumber_append all stop
    rw [List.cons_append] at read
    simp [readPrecission, all d (by simp), read]

/-- A width in digits is read, modulo 2^32. -/
lemma readWidth_number {digits : Bytes} {c : UInt8} (all : ∀ d ∈ digits, isdigit d = true)
    (stop : isdigit c = false) (star : c ≠ 42) :
    readWidth flags (digits ++ c :: rest) args =
      some (decimal digits % 2 ^ 32, flags, c :: rest, args) := by
  rw [← foldl_addDigit]
  cases digits with
  | nil => simp [readWidth, stop, star]
  | cons d digits =>
    have read : readNumber ((d :: digits) ++ c :: rest) 0 = _ := readNumber_append all stop
    rw [List.cons_append] at read
    simp [readWidth, all d (by simp), read]

end Read

section Directive
variable {charSigned : Bool} {fmt fmt₁ fmt₂ fmt₃ rest : Bytes} {args args₂ args₃ : VaList}
  {flags₁ flags₂ flags₃ flags₄ : PrintFlags} {width precission : Nat} {c : UInt8}

/-- A directive is read part after part and converted. -/
lemma directive_of_reads (flagsRead : readFlags fmt noFlags = some (flags₁, fmt₁))
    (widthRead : readWidth flags₁ fmt₁ args = some (width, flags₂, fmt₂, args₂))
    (precissionRead : readPrecission flags₂ fmt₂ args₂ = some (precission, flags₃, fmt₃, args₃))
    (lengthRead : readLength flags₃ fmt₃ = some (flags₄, c :: rest)) :
    directive charSigned fmt args =
      some ((convert charSigned c flags₄ width precission args₃).1, rest,
        (convert charSigned c flags₄ width precission args₃).2) := by
  simp [directive, flagsRead, widthRead, precissionRead, lengthRead]

/-- An integer conversion takes one argument. -/
lemma convert_integer (conversion : Conversion) :
    convert charSigned conversion.byte flags₄ width precission args =
      (convertInteger charSigned conversion.byte flags₄ width precission (args 0).word,
        (vaArg args).2) := by
  cases conversion <;> rfl

end Directive

/-- The argument of a star is an `int`. -/
lemma toInt32_bounds (slot : Slot) : -2 ^ 31 ≤ toInt32 slot ∧ toInt32 slot < 2 ^ 31 := by
  have lower := BitVec.le_toInt (slot.word.setWidth 32)
  have upper : (slot.word.setWidth 32).toInt < 2 ^ (32 - 1) := BitVec.toInt_lt
  unfold toInt32
  omega

/-- A width that is an argument. -/
lemma starWidth_eq (flags : PrintFlags) (slot : Slot) :
    starWidth flags (toInt32 slot) = ((toInt32 slot).natAbs % 2 ^ 32,
      { flags with left := flags.left || decide (toInt32 slot < 0) }) := by
  have bounds := toInt32_bounds slot
  by_cases negative : toInt32 slot < 0
  · have width : ((0 - toInt32 slot) % 2 ^ 32).toNat = (toInt32 slot).natAbs % 2 ^ 32 := by omega
    simp only [starWidth, width, negative, decide_true, Bool.or_true, if_true]
  · have width : (toInt32 slot).toNat = (toInt32 slot).natAbs % 2 ^ 32 := by omega
    simp only [starWidth, width, negative, decide_false, Bool.or_false, if_false]

namespace Directive
variable (d : Directive) (args : VaList) (rest : Bytes)

/-- The width of a directive is read, with the flag of a negative star. -/
lemma readWidth_eq {flags : PrintFlags} {c : UInt8} (stop : isdigit c = false) (star : c ≠ 42) :
    readWidth flags (d.width.bytes ++ c :: rest) args = some ((d.field args).width % 2 ^ 32,
      { flags with left := flags.left || (decide (d.width = .star) && decide (toInt32 (args 0) < 0)) },
      c :: rest, d.afterWidth args) := by
  have valid := d.width_valid
  unfold field afterWidth
  cases width : d.width with
  | number digits =>
    rw [width] at valid
    simpa [Count.bytes] using readWidth_number valid stop star
  | star =>
    have read : readWidth flags (42 :: c :: rest) args =
        some ((starWidth flags (toInt32 (args 0))).1, (starWidth flags (toInt32 (args 0))).2, c :: rest,
          (vaArg args).2) := rfl
    rw [starWidth_eq] at read
    simpa [Count.bytes] using read

/-- Its precision is read. -/
lemma readPrecission_eq {flags : PrintFlags} (no : flags.precision = false) :
    readPrecission flags (d.precisionBytes ++ (d.modifier.bytes ++ d.conversion.byte :: rest))
      (d.afterWidth args) = some ((d.field args).precission,
        { flags with precision := (d.field args).precision.isSome },
        d.modifier.bytes ++ d.conversion.byte :: rest, d.afterPrecision args) := by
  obtain ⟨c, rest', tail, -, stop, star, point⟩ := exists_conversion d.modifier d.conversion rest
  have valid := d.precision_valid
  rw [tail]
  unfold precisionBytes Field.precission field afterPrecision
  cases precision : d.precision with
  | none => simp [readPrecission, point, ← no]
  | some count =>
    cases count with
    | number digits =>
      rw [precision] at valid
      simpa [Count.bytes] using readPrecission_number (valid _ rfl) stop star
    | star =>
      have bounds := toInt32_bounds (d.afterWidth args 0)
      have read : readPrecission flags (46 :: 42 :: c :: rest') (d.afterWidth args) =
        some ((toInt32 (d.afterWidth args 0)).toNat, { flags with precision := true }, c :: rest',
          (vaArg (d.afterWidth args)).2) := rfl
      have small : (toInt32 (d.afterWidth args 0)).toNat =
          (toInt32 (d.afterWidth args 0)).toNat % 2 ^ 32 := by
        omega
      rw [small] at read
      simpa [Count.bytes] using read

/-- The part of a directive behind its flags begins with none. -/
lemma exists_unflagged : ∃ c rest', d.width.bytes ++ (d.precisionBytes ++
    (d.modifier.bytes ++ d.conversion.byte :: rest)) = c :: rest' ∧ isFlag c = false := by
  obtain ⟨c, rest', tail, flag, -⟩ := exists_conversion d.modifier d.conversion rest
  have valid := d.width_valid
  have zero := d.width_zero
  unfold precisionBytes
  cases width : d.width with
  | star => exact ⟨_, _, rfl, rfl⟩
  | number digits =>
    rw [width] at valid zero
    cases digits with
    | nil =>
      cases d.precision with
      | none => exact ⟨c, rest', by simpa [Count.bytes] using tail, flag⟩
      | some count => exact ⟨_, _, rfl, rfl⟩
    | cons digit digits =>
      refine ⟨digit, _, rfl, ?_⟩
      have isDigit := valid digit (by simp)
      have notZero : digit ≠ 48 := by simpa [Count.bytes] using zero
      -- of the flags only the zero is a digit
      by_contra flag
      simp only [isFlag, Bool.or_eq_true, decide_eq_true_eq, Bool.not_eq_false] at flag
      rcases flag with (((rfl | rfl) | rfl) | rfl) | rfl
      · exact absurd isDigit (by decide)
      · exact absurd isDigit (by decide)
      · exact absurd isDigit (by decide)
      · exact absurd isDigit (by decide)
      · exact notZero rfl

/-- The part of a directive behind its width begins with no digit. -/
lemma exists_undigited : ∃ c rest', d.precisionBytes ++ (d.modifier.bytes ++ d.conversion.byte :: rest) =
    c :: rest' ∧ isdigit c = false ∧ c ≠ 42 := by
  obtain ⟨c, rest', tail, -, digit, star, -⟩ := exists_conversion d.modifier d.conversion rest
  unfold precisionBytes
  cases d.precision with
  | none => exact ⟨c, rest', tail, digit, star⟩
  | some count => exact ⟨_, _, rfl, rfl, by decide⟩

/-- The parts of a directive before what follows it. -/
lemma bytes_append : d.bytes ++ rest = d.flags ++ (d.width.bytes ++ (d.precisionBytes ++
    (d.modifier.bytes ++ d.conversion.byte :: rest))) := by
  simp [bytes]

/-- A directive is read as what it asks for. -/
lemma directive_eq (charSigned : Bool) : directive charSigned (d.bytes ++ rest) args =
    some ((d.field args).text charSigned d.modifier d.conversion, rest,
      (vaArg (d.afterPrecision args)).2) := by
  obtain ⟨c, rest₁, unflagged, flag⟩ := d.exists_unflagged rest
  obtain ⟨c', rest₂, undigited, digit, star⟩ := d.exists_undigited rest
  have flagsRead : readFlags (d.bytes ++ rest) noFlags = some (d.flags.foldl addFlag noFlags,
      d.width.bytes ++ (d.precisionBytes ++ (d.modifier.bytes ++ d.conversion.byte :: rest))) := by
    rw [bytes_append, unflagged, readFlags_append d.flags_valid flag]
  have widthRead : readWidth (d.flags.foldl addFlag noFlags) (d.width.bytes ++ c' :: rest₂) args = _ :=
    d.readWidth_eq args rest₂ digit star
  rw [← undigited] at widthRead
  rw [directive_of_reads flagsRead widthRead (d.readPrecission_eq args rest ?_)
    (readLength_eq d.modifier d.conversion), convert_integer]
  · rw [foldl_addFlag d.flags_valid]
    simp [Field.text, Field.flags, noFlags, field]
  · rw [foldl_addFlag d.flags_valid]
    rfl

end Directive

/-- The text of a directive is that of the field it asks for. -/
lemma vsnprintf_directive (charSigned : Bool) (d : Directive) (args : VaList) :
    vsnprintfInternal charSigned (37 :: d.bytes ++ [0]) args =
      some ((d.field args).text charSigned d.modifier d.conversion ++ [0]) := by
  rw [vsnprintfInternal, List.cons_append, vsnprintfLoop_directive (d.directive_eq args [0] charSigned)]
  rfl

end WivOS.Utils.Printf
