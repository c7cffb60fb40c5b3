import Mathlib.Data.List.TakeWhile
import WivOS.Utils.PrintfFormat

/-!
# Printing a buffer

The case `s` of `_vsnprintf_internal` once more, on the bytes that its argument points at: a read behind
them faults. Where they end in a 0 byte it is the conversion of the string (`vsnprintfInternalAt_eq`).
Both loops test a byte before they test how many are left, and a precision of 0 does not bound the first
one, so that `devfs_log_write`, which passes the size of its buffer as the precision, depends on a 0 byte
in the buffer.
-/

namespace WivOS.Utils.Printf

/-- The loop that measures the string. -/
def measure : Nat → Bytes → Option Nat
  | _, [] => none
  | maxsize, c :: s =>
    if c = 0 then some 0
    else match maxsize with
      | 0 => some 0
      | maxsize + 1 => (measure maxsize s).map (· + 1)

/-- The loop that writes the string, with the precision if there is one. -/
def writeString : Option Nat → Bytes → Option Bytes
  | _, [] => none
  | precission, c :: p =>
    if c = 0 then some []
    else match precission with
      | none => (writeString none p).map (c :: ·)
      | some 0 => some []
      | some (precission + 1) => (writeString (some precission) p).map (c :: ·)

/-- The case `s`, of the memory that the argument points at. -/
def convertStringAt (flags : PrintFlags) (width precission : Nat) (memory : Bytes) : Option Bytes := do
  let maxsize := if precission = 0 then 2 ^ 64 - 1 else precission
  let l := (← measure maxsize memory) % 2 ^ 32
  let l := if flags.precision then min l precission else l
  let text ← writeString (if flags.precision then some precission else none) memory
  return if flags.left then text ++ spaces (width - l) else spaces (width - l) ++ text

/-- The switch over the conversion; the string of a slot is the memory from its pointer on. -/
def convertAt (charSigned : Bool) (c : UInt8) (flags : PrintFlags) (width precission : Nat)
    (args : VaList) : Option (Bytes × VaList) :=
  if c = 115 then
    let (slot, args) := vaArg args
    (convertStringAt flags width precission slot.string).map fun text => (text, args)
  else some (convert charSigned c flags width precission args)

/-- What follows a `%`. -/
def directiveAt (charSigned : Bool) (fmt : Bytes) (args : VaList) : Option (Bytes × Bytes × VaList) := do
  let (flags, fmt) ← readFlags fmt noFlags
  let (width, flags, fmt, args) ← readWidth flags fmt args
  let (precission, flags, fmt, args) ← readPrecission flags fmt args
  let (flags, fmt) ← readLength flags fmt
  let c ← fmt.head?
  let (text, args) ← convertAt charSigned c flags width precission args
  return (text, fmt.tail, args)

/-- The loop of C `_vsnprintf_internal`. -/
def vsnprintfLoopAt (charSigned : Bool) : Nat → Bytes → VaList → Option Bytes
  | 0, _, _ => none
  | fuel + 1, fmt, args => do
    let c ← fmt.head?
    if c = 0 then return [0]
    if c = 37 then
      let (text, fmt, args) ← directiveAt charSigned fmt.tail args
      return text ++ (← vsnprintfLoopAt charSigned fuel fmt args)
    return c :: (← vsnprintfLoopAt charSigned fuel fmt.tail args)

/-- C `_vsnprintf_internal`: the bytes that are written. -/
def vsnprintfInternalAt (charSigned : Bool) (format : Bytes) (args : VaList) : Option Bytes :=
  vsnprintfLoopAt charSigned (format.length + 1) format args

/-- C `"%.*s"`. -/
def logFormat : Bytes := [37, 46, 42, 115, 0]

/-- C `devfs_log_write`: what it returns, and the bytes that `printf` writes. -/
def devfsLogWrite (charSigned : Bool) (address : BitVec 64) (buffer : Bytes) (size : BitVec 64) :
    Option (BitVec 64 × Bytes) := do
  let args : VaList := fun i => if i = 0 then ⟨size, []⟩ else ⟨address, buffer⟩
  let written ← vsnprintfInternalAt charSigned logFormat args
  return (size, written)

section Loops
variable {memory s : Bytes} {n : Nat}

/-- A string is measured up to its terminator or the bound. -/
lemma measure_str (h : IsStr memory s) : measure n memory = some (min s.length n) := by
  obtain ⟨h0, rest, rfl⟩ := h
  induction s generalizing n with
  | nil =>
    cases n with
    | zero => simp [measure]
    | succ n => simp [measure]
  | cons c s ih =>
    simp only [List.mem_cons, not_or] at h0
    cases n with
    | zero => simp [measure, Ne.symm h0.1]
    | succ n => simp [measure, Ne.symm h0.1, ih h0.2]

/-- It is written up to the precision. -/
lemma writeString_str (h : IsStr memory s) : writeString (some n) memory = some (s.take n) := by
  obtain ⟨h0, rest, rfl⟩ := h
  induction s generalizing n with
  | nil =>
    cases n with
    | zero => simp [writeString]
    | succ n => simp [writeString]
  | cons c s ih =>
    simp only [List.mem_cons, not_or] at h0
    cases n with
    | zero => simp [writeString, Ne.symm h0.1]
    | succ n => simp [writeString, Ne.symm h0.1, ih h0.2]

/-- Without a precision it is written whole. -/
lemma writeString_all (h : IsStr memory s) : writeString none memory = some s := by
  obtain ⟨h0, rest, rfl⟩ := h
  induction s with
  | nil => simp [writeString]
  | cons c s ih =>
    simp only [List.mem_cons, not_or] at h0
    simp [writeString, Ne.symm h0.1, ih h0.2]

/-- Without a 0 byte the loop writes as many bytes as the precision says, and reads one more. -/
lemma writeString_unterminated {text : Bytes} (h0 : 0 ∉ memory)
    (written : writeString (some n) memory = some text) : text = memory.take n ∧ n < memory.length := by
  induction memory generalizing n text with
  | nil => cases written
  | cons c memory ih =>
    simp only [List.mem_cons, not_or] at h0
    cases n with
    | zero =>
      simp only [writeString, Ne.symm h0.1, if_false] at written
      cases written
      exact ⟨rfl, Nat.zero_lt_succ _⟩
    | succ n =>
      simp only [writeString, Ne.symm h0.1, if_false, Option.map_eq_some_iff] at written
      obtain ⟨text, rest, rfl⟩ := written
      obtain ⟨rfl, lt⟩ := ih h0.2 rest
      exact ⟨rfl, Nat.succ_lt_succ lt⟩

end Loops

/-- The slots of one list point at memory with the strings of the other. -/
def Agree (args strings : VaList) : Prop :=
  ∀ i, (args i).word = (strings i).word ∧ IsStr (args i).string (strings i).string ∧
    (strings i).string.length < 2 ^ 64

section Agree
variable {args strings : VaList} {flags : PrintFlags} {fmt : Bytes} {charSigned : Bool}

/-- The arguments behind the first one agree. -/
lemma Agree.tail (agree : Agree args strings) : Agree (vaArg args).2 (vaArg strings).2 :=
  fun i => agree (i + 1)

/-- On a string the conversion is that of the string. -/
lemma convertStringAt_eq {memory s : Bytes} {width precission : Nat} (h : IsStr memory s)
    (small : s.length < 2 ^ 64) :
    convertStringAt flags width precission memory = some (convertString flags width precission s) := by
  have length : measure (if precission = 0 then 2 ^ 64 - 1 else precission) memory =
      some (if precission = 0 then s.length else min s.length precission) := by
    rw [measure_str h]
    split
    · rw [Nat.min_eq_left (by omega)]
    · rfl
  have text : writeString (if flags.precision then some precission else none) memory =
      some (if flags.precision then s.take precission else s) := by
    split
    · exact writeString_str h
    · exact writeString_all h
  simp only [convertStringAt, convertString, length, text, Option.bind_eq_bind, Option.bind_some]
  rfl

/-- Conversions that read no string do the same. -/
lemma convert_agree (agree : Agree args strings) {c : UInt8} (other : c ≠ 115) (charSigned : Bool)
    (flags : PrintFlags) (width precission : Nat) :
    ∃ text args' strings', convert charSigned c flags width precission args = (text, args') ∧
      convert charSigned c flags width precission strings = (text, strings') ∧ Agree args' strings' := by
  have word := (agree 0).1
  unfold convert
  simp only [vaArg, word, if_neg other]
  split
  · exact ⟨_, _, _, rfl, rfl, agree.tail⟩
  · split
    · exact ⟨_, _, _, rfl, rfl, agree.tail⟩
    · split
      · exact ⟨_, _, _, rfl, rfl, agree.tail⟩
      · exact ⟨_, _, _, rfl, rfl, agree⟩

/-- Every conversion does the same. -/
lemma convertAt_agree (agree : Agree args strings) (charSigned : Bool) (c : UInt8) (flags : PrintFlags)
    (width precission : Nat) :
    ∃ text args' strings', convertAt charSigned c flags width precission args = some (text, args') ∧
      convert charSigned c flags width precission strings = (text, strings') ∧ Agree args' strings' := by
  by_cases string : c = 115
  · subst string
    obtain ⟨-, isStr, small⟩ := agree 0
    refine ⟨_, _, _, ?_, rfl, agree.tail⟩
    simp only [convertAt, vaArg, if_true, convertStringAt_eq isStr small]
    rfl
  · obtain ⟨text, args', strings', converted, converted', agree'⟩ :=
      convert_agree agree string charSigned flags width precission
    exact ⟨text, args', strings', (if_neg string).trans (congrArg some converted), converted', agree'⟩

/-- So does reading a width. -/
lemma readWidth_agree (agree : Agree args strings) (flags : PrintFlags) (fmt : Bytes) :
    (readWidth flags fmt args = none ∧ readWidth flags fmt strings = none) ∨
    ∃ width flags' fmt' args' strings', readWidth flags fmt args = some (width, flags', fmt', args') ∧
      readWidth flags fmt strings = some (width, flags', fmt', strings') ∧ Agree args' strings' := by
  have word := (agree 0).1
  cases fmt with
  | nil => exact .inl ⟨rfl, rfl⟩
  | cons c fmt =>
    simp only [readWidth, List.head?_cons, Option.bind_eq_bind, Option.bind_some, vaArg, word]
    split
    · cases readNumber (c :: fmt) 0 with
      | none => exact .inl ⟨rfl, rfl⟩
      | some number => exact .inr ⟨_, _, _, _, _, rfl, rfl, agree⟩
    · split
      · exact .inr ⟨_, _, _, _, _, rfl, rfl, agree.tail⟩
      · exact .inr ⟨_, _, _, _, _, rfl, rfl, agree⟩

/-- So does reading a precision. -/
lemma readPrecission_agree (agree : Agree args strings) (flags : PrintFlags) (fmt : Bytes) :
    (readPrecission flags fmt args = none ∧ readPrecission flags fmt strings = none) ∨
    ∃ precission flags' fmt' args' strings',
      readPrecission flags fmt args = some (precission, flags', fmt', args') ∧
      readPrecission flags fmt strings = some (precission, flags', fmt', strings') ∧
      Agree args' strings' := by
  have word := (agree 0).1
  cases fmt with
  | nil => exact .inl ⟨rfl, rfl⟩
  | cons c fmt =>
    simp only [readPrecission, List.head?_cons, List.tail_cons, Option.bind_eq_bind, Option.bind_some,
      vaArg, word]
    split
    · cases fmt with
      | nil => exact .inl ⟨rfl, rfl⟩
      | cons c' fmt =>
        simp only [List.head?_cons, List.tail_cons, Option.bind_some]
        split
        · cases readNumber (c' :: fmt) 0 with
          | none => exact .inl ⟨rfl, rfl⟩
          | some number => exact .inr ⟨_, _, _, _, _, rfl, rfl, agree⟩
        · split
          · exact .inr ⟨_, _, _, _, _, rfl, rfl, agree.tail⟩
          · exact .inr ⟨_, _, _, _, _, rfl, rfl, agree⟩
    · exact .inr ⟨_, _, _, _, _, rfl, rfl, agree⟩

/-- So does a directive. -/
lemma directiveAt_agree (agree : Agree args strings) (charSigned : Bool) (fmt : Bytes) :
    (directiveAt charSigned fmt args = none ∧ directive charSigned fmt strings = none) ∨
    ∃ text fmt' args' strings', directiveAt charSigned fmt args = some (text, fmt', args') ∧
      directive charSigned fmt strings = some (text, fmt', strings') ∧ Agree args' strings' := by
  unfold directiveAt directive
  cases readFlags fmt noFlags with
  | none => exact .inl ⟨rfl, rfl⟩
  | some read =>
    obtain ⟨flags, fmt⟩ := read
    simp only [Option.bind_eq_bind, Option.bind_some]
    obtain ⟨none, none'⟩ | ⟨width, flags, fmt, args, strings, some, some', agree⟩ :=
      readWidth_agree agree flags fmt
    · exact .inl ⟨by rw [none]; rfl, by rw [none']; rfl⟩
    rw [some, some', Option.bind_some, Option.bind_some]
    obtain ⟨none, none'⟩ | ⟨precission, flags, fmt, args, strings, some, some', agree⟩ :=
      readPrecission_agree agree flags fmt
    · exact .inl ⟨by rw [none]; rfl, by rw [none']; rfl⟩
    rw [some, some', Option.bind_some, Option.bind_some]
    cases readLength flags fmt with
    | none => exact .inl ⟨rfl, rfl⟩
    | some read =>
      obtain ⟨flags, fmt⟩ := read
      cases fmt with
      | nil => exact .inl ⟨rfl, rfl⟩
      | cons c fmt =>
        obtain ⟨text, args', strings', converted, converted', agree'⟩ :=
          convertAt_agree agree charSigned c flags width precission
        refine .inr ⟨text, fmt, args', strings', ?_, ?_, agree'⟩
        · simp [converted]
        · simp [converted']

/-- The loop writes what it would if the arguments held the strings. -/
lemma vsnprintfLoopAt_eq (agree : Agree args strings) (charSigned : Bool) (fuel : Nat) (fmt : Bytes) :
    vsnprintfLoopAt charSigned fuel fmt args = vsnprintfLoop charSigned fuel fmt strings := by
  induction fuel generalizing fmt args strings with
  | zero => rfl
  | succ fuel ih =>
    cases fmt with
    | nil => rfl
    | cons c fmt =>
      simp only [vsnprintfLoopAt, vsnprintfLoop, List.head?_cons, List.tail_cons, Option.bind_eq_bind,
        Option.bind_some]
      obtain ⟨none, none'⟩ | ⟨text, fmt', args', strings', some, some', agree'⟩ :=
        directiveAt_agree agree charSigned fmt
      · rw [none, none', ih agree]
        rfl
      · rw [some, some', ih agree]
        simp only [Option.bind_some, ih agree']

/-- With strings behind its pointers, `_vsnprintf_internal` writes what it writes for the strings. -/
lemma vsnprintfInternalAt_eq (agree : Agree args strings) (charSigned : Bool) (format : Bytes) :
    vsnprintfInternalAt charSigned format args = vsnprintfInternal charSigned format strings :=
  vsnprintfLoopAt_eq agree charSigned _ format

end Agree

/-- The directive `"%s"`. -/
lemma directiveAt_string (charSigned : Bool) (fmt : Bytes) (args : VaList) :
    directiveAt charSigned (115 :: fmt) args =
      (convertStringAt noFlags 0 0 (args 0).string).map fun text => (text, fmt, fun i => args (i + 1)) := by
  have flags : readFlags (115 :: fmt) noFlags = some (noFlags, 115 :: fmt) := rfl
  have width : readWidth noFlags (115 :: fmt) args = some (0, noFlags, 115 :: fmt, args) := rfl
  have precision : readPrecission noFlags (115 :: fmt) args = some (0, noFlags, 115 :: fmt, args) := rfl
  have length : readLength noFlags (115 :: fmt) = some (noFlags, 115 :: fmt) := rfl
  simp only [directiveAt, flags, width, precision, length, Option.bind_eq_bind, Option.bind_some,
    List.head?_cons, convertAt, vaArg, if_true, Option.bind_map]
  rw [Option.map_eq_bind]
  rfl

/-- A string of any length is written as it is. -/
lemma convertStringAt_plain {memory s : Bytes} (h : IsStr memory s) :
    convertStringAt noFlags 0 0 memory = some s := by
  simp [convertStringAt, noFlags, measure_str h, writeString_all h, spaces]

/-- Bytes of the format that are no `%` are written as they are. -/
lemma vsnprintfLoopAt_text (charSigned : Bool) {text : Bytes} (plain : ∀ c ∈ text, c ≠ 0 ∧ c ≠ 37)
    (fuel : Nat) (rest : Bytes) (args : VaList) :
    vsnprintfLoopAt charSigned (fuel + text.length) (text ++ rest) args =
      (vsnprintfLoopAt charSigned fuel rest args).map (text ++ ·) := by
  induction text with
  | nil => simp
  | cons c text ih =>
    simp only [List.mem_cons, forall_eq_or_imp] at plain
    rw [List.length_cons, ← Nat.add_assoc, List.cons_append, vsnprintfLoopAt]
    simp only [List.head?_cons, List.tail_cons, Option.bind_eq_bind, Option.bind_some, plain.1.1,
      plain.1.2, if_false, ih plain.2]
    rw [Option.bind_map, Option.map_eq_bind]
    rfl

/-- The flags of `"%.*s"`. -/
def logFlags : PrintFlags := { noFlags with precision := true }

/-- The precision that a size becomes: an `int`, and 0 if it is negative. -/
def sizePrecision (size : BitVec 64) : Nat := (size.setWidth 32).toInt.toNat

/-- The bytes of the buffer before its first 0 byte are written, or all of them, and the terminator that
`_vsnprintf_internal` writes at the end. -/
def WritesBuffer (charSigned : Bool) (address : BitVec 64) (buffer : Bytes) (size : BitVec 64) : Prop :=
  devfsLogWrite charSigned address buffer size = some (size, strOf buffer ++ [0])

section Log
variable {buffer : Bytes}

/-- The directive `"%.*s"`. -/
lemma directiveAt_log (charSigned : Bool) (args : VaList) :
    directiveAt charSigned [46, 42, 115, 0] args =
      (convertStringAt logFlags 0 (sizePrecision (args 0).word) (args 1).string).map
        fun text => (text, [0], fun i => args (i + 2)) := by
  have flags : readFlags [46, 42, 115, 0] noFlags = some (noFlags, [46, 42, 115, 0]) := rfl
  have width : readWidth noFlags [46, 42, 115, 0] args = some (0, noFlags, [46, 42, 115, 0], args) := rfl
  have precision : readPrecission noFlags [46, 42, 115, 0] args =
    some (sizePrecision (args 0).word, logFlags, [115, 0], fun i => args (i + 1)) := rfl
  have length : readLength logFlags [115, 0] = some (logFlags, [115, 0]) := rfl
  simp only [directiveAt, flags, width, precision, length, Option.bind_eq_bind, Option.bind_some,
    List.head?_cons, convertAt, vaArg, if_true, Option.bind_map]
  rw [Option.map_eq_bind]
  rfl

/-- The conversion of `devfs_log_write`. -/
lemma devfsLogWrite_eq (charSigned : Bool) (address : BitVec 64) (buffer : Bytes) (size : BitVec 64) :
    devfsLogWrite charSigned address buffer size =
      (convertStringAt logFlags 0 (sizePrecision size) buffer).map fun text => (size, text ++ [0]) := by
  have directive := directiveAt_log charSigned fun i => if i = 0 then ⟨size, []⟩ else ⟨address, buffer⟩
  simp only [if_true, one_ne_zero, if_false] at directive
  have written : vsnprintfInternalAt charSigned logFormat
      (fun i => if i = 0 then ⟨size, []⟩ else ⟨address, buffer⟩) =
      (convertStringAt logFlags 0 (sizePrecision size) buffer).map fun text => text ++ [0] := by
    rw [vsnprintfInternalAt, logFormat, List.length_cons, vsnprintfLoopAt]
    simp only [List.head?_cons, List.tail_cons, Option.bind_eq_bind, Option.bind_some, directive,
      Option.bind_map]
    cases convertStringAt logFlags 0 (sizePrecision size) buffer with
    | none => rfl
    | some text => rfl
  simp only [devfsLogWrite, written, Option.bind_eq_bind, Option.bind_map]
  rw [Option.map_eq_bind]
  rfl

/-- A width of 0 adds no spaces. -/
lemma convertStringAt_precise (precission : Nat) (memory : Bytes) :
    convertStringAt logFlags 0 precission memory =
      (measure (if precission = 0 then 2 ^ 64 - 1 else precission) memory).bind fun _ =>
        writeString (some precission) memory := by
  simp [convertStringAt, logFlags, noFlags, spaces]

/-- For every size and every buffer: `devfs_log_write` reads no byte behind the buffer and writes those
before its first 0 byte, or all of them, if and only if there is a 0 byte and there are no more bytes
before it than the size, as an `int`, says. -/
theorem devfs_log_write_iff (charSigned : Bool) (address : BitVec 64) (buffer : Bytes) (size : BitVec 64) :
    WritesBuffer charSigned address buffer size ↔
      0 ∈ buffer ∧ (strOf buffer).length ≤ sizePrecision size := by
  rw [WritesBuffer, devfsLogWrite_eq, convertStringAt_precise]
  by_cases terminated : 0 ∈ buffer
  · have isStr := isStr_strOf terminated
    rw [measure_str isStr, Option.bind_some, writeString_str isStr]
    simp [terminated]
  · refine iff_of_false ?_ fun holds => terminated holds.1
    intro written
    obtain ⟨text, converted, e⟩ := Option.map_eq_some_iff.mp written
    obtain ⟨_, -, wrote⟩ := Option.bind_eq_some_iff.mp converted
    obtain ⟨rfl, lt⟩ := writeString_unterminated terminated wrote
    have whole : strOf buffer = buffer := by
      rw [strOf, List.takeWhile_eq_self_iff]
      intro b mem
      exact decide_eq_true fun zero => terminated (zero ▸ mem)
    have lengths := congrArg (fun r => r.2.length) e
    simp only [whole, List.length_append, List.length_take] at lengths
    omega

end Log

/-- A buffer of two letters: the byte behind it is read. -/
theorem devfs_log_write_unterminated :
    devfsLogWrite true 0 [97, 98] 2 = none ∧ ¬ WritesBuffer true 0 [97, 98] 2 := by
  have faults : devfsLogWrite true 0 [97, 98] 2 = none := rfl
  refine ⟨faults, fun written => ?_⟩
  rw [WritesBuffer, faults] at written
  cases written

end WivOS.Utils.Printf
