import WivOS.Utils.Strings

/-!
# Formatted output

`_vsnprintf_internal` of `utils/system.c`, without the callback that takes the bytes. The format is read
from memory that ends behind its terminator, so that a read past it faults; an argument is a slot of 64
bits, and the string it points at if it is a pointer. The buffer of `_ntoa_format` is a list, whose first
byte is the last digit.
-/

namespace WivOS.Utils

/-- A slot of the argument list. -/
structure Slot where
  word : BitVec 64
  string : Bytes
deriving Repr

/-- `va_list`. -/
abbrev VaList := Nat → Slot

/-- C `va_arg`. -/
def vaArg (args : VaList) : Slot × VaList := (args 0, fun i => args (i + 1))

/-- The bits of `flags`. -/
structure PrintFlags where
  left : Bool
  plus : Bool
  space : Bool
  hash : Bool
  zeropad : Bool
  precision : Bool
  char : Bool
  short : Bool
  long : Bool
  longLong : Bool
  uppercase : Bool
deriving Repr, DecidableEq

namespace Printf

/-- The flags before a directive is read. -/
def noFlags : PrintFlags :=
  ⟨false, false, false, false, false, false, false, false, false, false, false⟩

def ntoaBufferSize : Nat := 32

/-- C `isdigit`. -/
def isdigit (c : UInt8) : Bool := c - 48 ≤ 9

/-- C `' '` written until a field has a width. -/
def spaces (count : Nat) : Bytes := List.replicate count 32

/-- C `_out_rev`. -/
def outRev (buf : Bytes) (width : Nat) (flags : PrintFlags) : Bytes :=
  let before := if !flags.left && !flags.zeropad then spaces (width - buf.length) else []
  let field := before ++ buf.reverse
  if flags.left then field ++ spaces (width - field.length) else field

/-- C `buf[len++] = '0'`, while there is room and the length is less than `count`. -/
def padZeros (buf : Bytes) (count : Nat) : Bytes :=
  buf ++ List.replicate (min count ntoaBufferSize - buf.length) 48

/-- C `buf[len++] = c`, if there is room. -/
def put (buf : Bytes) (c : UInt8) : Bytes := if buf.length < ntoaBufferSize then buf ++ [c] else buf

/-- The part of C `_ntoa_format` for the base. -/
def putBase (buf : Bytes) (base prec width : Nat) (flags : PrintFlags) : Bytes :=
  let buf :=
    if !flags.precision && buf.length ≠ 0 && (buf.length = prec || buf.length = width) then
      let buf := buf.dropLast
      if buf.length ≠ 0 && base = 16 then buf.dropLast else buf
    else buf
  let buf :=
    if base = 16 && !flags.uppercase then put buf 120
    else if base = 16 && flags.uppercase then put buf 88
    else if base = 2 then put buf 98
    else buf
  put buf 48

/-- The part of C `_ntoa_format` for the sign. -/
def putSign (buf : Bytes) (negative : Bool) (flags : PrintFlags) : Bytes :=
  if negative then put buf 45
  else if flags.plus then put buf 43
  else if flags.space then put buf 32
  else buf

/-- C `_ntoa_format`. -/
def ntoaFormat (buf : Bytes) (negative : Bool) (base prec width : Nat) (flags : PrintFlags) : Bytes :=
  let width :=
    if !flags.left && (width ≠ 0 && flags.zeropad && (negative || flags.plus || flags.space)) then
      width - 1
    else width
  let buf :=
    if !flags.left then
      let buf := padZeros buf prec
      if flags.zeropad then padZeros buf width else buf
    else buf
  let buf := if flags.hash then putBase buf base prec width flags else buf
  outRev (putSign buf negative flags) width flags

/-- A digit. `PRINT_FLAG_UPPERCASE` is tested, and not whether it is set, so that letters are always
uppercase. -/
def digitChar (digit : Nat) : UInt8 :=
  if digit < 10 then 48 + UInt8.ofNat digit else 65 + UInt8.ofNat digit - 10

/-- The loop of C `_ntoa_long`, with the room that is left. -/
def ntoaDigits (base : Nat) : Nat → Nat → Bytes
  | 0, _ => []
  | room + 1, value =>
    digitChar (value % base) :: if value / base ≠ 0 then ntoaDigits base room (value / base) else []

/-- C `_ntoa_long` and `_ntoa_long_long`, whose types have the same size. -/
def ntoa (value : Nat) (negative : Bool) (base prec width : Nat) (flags : PrintFlags) : Bytes :=
  let flags := if value = 0 then { flags with hash := false } else flags
  let buf := if !flags.precision || value ≠ 0 then ntoaDigits base ntoaBufferSize value else []
  ntoaFormat buf negative base prec width flags

/-- C `_ntoa_long`. -/
def ntoaLong := ntoa

/-- C `_ntoa_long_long`. -/
def ntoaLongLong := ntoa

/-- C `(value > 0) ? value : (0 - value)`, as an unsigned number of `w` bits. -/
def magnitude (w : Nat) (value : Int) : Nat := ((if 0 < value then value else 0 - value) % 2 ^ w).toNat

/-- C `(char)`, which is signed on x86_64 and unsigned on riscv64. -/
def toChar (charSigned : Bool) (word : BitVec 64) : Int :=
  if charSigned then (word.setWidth 8).toInt else (word.setWidth 8).toNat

/-- The value of a signed conversion. -/
def signedValue (charSigned : Bool) (flags : PrintFlags) (word : BitVec 64) : Int :=
  if flags.longLong then word.toInt
  else if flags.long then word.toInt
  else if flags.char then toChar charSigned word
  else if flags.short then (word.setWidth 16).toInt
  else (word.setWidth 32).toInt

/-- The value of an unsigned conversion. -/
def unsignedValue (flags : PrintFlags) (word : BitVec 64) : Nat :=
  if flags.longLong then word.toNat
  else if flags.long then word.toNat
  else if flags.char then (word.setWidth 8).toNat
  else if flags.short then (word.setWidth 16).toNat
  else (word.setWidth 32).toNat

/-- The base of a conversion. -/
def conversionBase (c : UInt8) : Nat :=
  if c = 120 ∨ c = 88 then 16 else if c = 111 then 8 else if c = 98 then 2 else 10

/-- A conversion of a signed number, `d` or `i`. -/
def isSigned (c : UInt8) : Bool := c = 105 || c = 100

/-- The flags of an integer conversion. -/
def integerFlags (c : UInt8) (flags : PrintFlags) : PrintFlags :=
  let flags := if conversionBase c = 10 then { flags with hash := false } else flags
  let flags := if c = 88 then { flags with uppercase := true } else flags
  let flags := if !isSigned c then { flags with plus := false, space := false } else flags
  if flags.precision then { flags with zeropad := false } else flags

/-- The cases `d`, `i`, `u`, `x`, `X`, `o` and `b` of the switch. -/
def convertInteger (charSigned : Bool) (c : UInt8) (flags : PrintFlags) (width precission : Nat)
    (word : BitVec 64) : Bytes :=
  let base := conversionBase c
  let flags := integerFlags c flags
  if isSigned c then
    let value := signedValue charSigned flags word
    if flags.longLong then ntoaLongLong (magnitude 64 value) (value < 0) base precission width flags
    else if flags.long then ntoaLong (magnitude 64 value) (value < 0) base precission width flags
    else ntoaLong (magnitude 32 value) (value < 0) base precission width flags
  else ntoaLongLong (unsignedValue flags word) false base precission width flags

/-- The case `c`. -/
def convertChar (flags : PrintFlags) (width : Nat) (word : BitVec 64) : Bytes :=
  let char := UInt8.ofBitVec (word.setWidth 8)
  if flags.left then [char] ++ spaces (width - 1) else spaces (width - 1) ++ [char]

/-- The case `s`, of a string without its terminator. -/
def convertString (flags : PrintFlags) (width precission : Nat) (string : Bytes) : Bytes :=
  let l := (if precission = 0 then string.length else min string.length precission) % 2 ^ 32
  let l := if flags.precision then min l precission else l
  let text := if flags.precision then string.take precission else string
  if flags.left then text ++ spaces (width - l) else spaces (width - l) ++ text

/-- The case `p`. -/
def convertPointer (flags : PrintFlags) (precission : Nat) (word : BitVec 64) : Bytes :=
  ntoaLongLong word.toNat false 16 precission 16 { flags with zeropad := true, uppercase := true }

/-- The loop over the flags. -/
def readFlags : Bytes → PrintFlags → Option (PrintFlags × Bytes)
  | [], _ => none
  | c :: fmt, flags =>
    if c = 45 then readFlags fmt { flags with left := true }
    else if c = 43 then readFlags fmt { flags with plus := true }
    else if c = 32 then readFlags fmt { flags with space := true }
    else if c = 35 then readFlags fmt { flags with hash := true }
    else if c = 48 then readFlags fmt { flags with zeropad := true }
    else some (flags, c :: fmt)

/-- The loop over the digits of a width or a precision. -/
def readNumber : Bytes → Nat → Option (Nat × Bytes)
  | [], _ => none
  | c :: fmt, n =>
    if isdigit c then readNumber fmt ((n * 10 + (c - 48).toNat) % 2 ^ 32) else some (n, c :: fmt)

/-- A width that is an argument. -/
def starWidth (flags : PrintFlags) (w : Int) : Nat × PrintFlags :=
  if w < 0 then (((0 - w) % 2 ^ 32).toNat, { flags with left := true }) else (w.toNat, flags)

/-- The width. -/
def readWidth (flags : PrintFlags) (fmt : Bytes) (args : VaList) :
    Option (Nat × PrintFlags × Bytes × VaList) := do
  let c ← fmt.head?
  if isdigit c then
    let (width, fmt) ← readNumber fmt 0
    return (width, flags, fmt, args)
  else if c = 42 then
    let (slot, args) := vaArg args
    let (width, flags) := starWidth flags (slot.word.setWidth 32).toInt
    return (width, flags, fmt.tail, args)
  else return (0, flags, fmt, args)

/-- The precision. -/
def readPrecission (flags : PrintFlags) (fmt : Bytes) (args : VaList) :
    Option (Nat × PrintFlags × Bytes × VaList) := do
  let c ← fmt.head?
  if c = 46 then
    let fmt := fmt.tail
    let flags := { flags with precision := true }
    let c ← fmt.head?
    if isdigit c then
      let (precission, fmt) ← readNumber fmt 0
      return (precission, flags, fmt, args)
    else if c = 42 then
      let (slot, args) := vaArg args
      return ((slot.word.setWidth 32).toInt.toNat, flags, fmt.tail, args)
    else return (0, flags, fmt, args)
  else return (0, flags, fmt, args)

/-- The modifier of the length. -/
def readLength (flags : PrintFlags) (fmt : Bytes) : Option (PrintFlags × Bytes) := do
  let c ← fmt.head?
  if c = 108 then
    let fmt := fmt.tail
    let flags := { flags with long := true }
    if (← fmt.head?) = 108 then return ({ flags with longLong := true }, fmt.tail) else return (flags, fmt)
  else if c = 104 then
    let fmt := fmt.tail
    let flags := { flags with short := true }
    if (← fmt.head?) = 104 then return ({ flags with char := true }, fmt.tail) else return (flags, fmt)
  else if c = 106 ∨ c = 122 then return ({ flags with long := true }, fmt.tail)
  else return (flags, fmt)

/-- The switch over the conversion. -/
def convert (charSigned : Bool) (c : UInt8) (flags : PrintFlags) (width precission : Nat)
    (args : VaList) : Bytes × VaList :=
  if c = 100 ∨ c = 105 ∨ c = 117 ∨ c = 120 ∨ c = 88 ∨ c = 111 ∨ c = 98 then
    let (slot, args) := vaArg args
    (convertInteger charSigned c flags width precission slot.word, args)
  else if c = 99 then
    let (slot, args) := vaArg args
    (convertChar flags width slot.word, args)
  else if c = 115 then
    let (slot, args) := vaArg args
    (convertString flags width precission slot.string, args)
  else if c = 112 then
    let (slot, args) := vaArg args
    (convertPointer flags precission slot.word, args)
  else ([c], args)

/-- What follows a `%`: the text, and where the format goes on. -/
def directive (charSigned : Bool) (fmt : Bytes) (args : VaList) : Option (Bytes × Bytes × VaList) := do
  let (flags, fmt) ← readFlags fmt noFlags
  let (width, flags, fmt, args) ← readWidth flags fmt args
  let (precission, flags, fmt, args) ← readPrecission flags fmt args
  let (flags, fmt) ← readLength flags fmt
  let c ← fmt.head?
  let (text, args) := convert charSigned c flags width precission args
  return (text, fmt.tail, args)

/-- The loop of C `_vsnprintf_internal`; every round reads a byte. -/
def vsnprintfLoop (charSigned : Bool) : Nat → Bytes → VaList → Option Bytes
  | 0, _, _ => none
  | fuel + 1, fmt, args => do
    let c ← fmt.head?
    if c = 0 then return [0]
    if c = 37 then
      let (text, fmt, args) ← directive charSigned fmt.tail args
      return text ++ (← vsnprintfLoop charSigned fuel fmt args)
    return c :: (← vsnprintfLoop charSigned fuel fmt.tail args)

/-- C `_vsnprintf_internal`: the bytes that are written. -/
def vsnprintfInternal (charSigned : Bool) (format : Bytes) (args : VaList) : Option Bytes :=
  vsnprintfLoop charSigned (format.length + 1) format args

end Printf

end WivOS.Utils
