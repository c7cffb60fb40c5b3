import WivOS.Utils.Printf

/-!
# Reading a format

What `_vsnprintf_internal` reads of its format. The parts of a directive are read up to the byte that does
not belong to them; where that is the terminator, the directive is cut off, and the default case of the
switch writes the terminator and goes past it. A format is read to its terminator and not further exactly
if it has no such directive (`vsnprintf_returns_iff`).
-/

namespace WivOS.Utils.Printf

/-- A flag of a directive. -/
def isFlag (c : UInt8) : Bool := c = 45 || c = 43 || c = 32 || c = 35 || c = 48

/-- What a flag adds. -/
def addFlag (flags : PrintFlags) (c : UInt8) : PrintFlags :=
  if c = 45 then { flags with left := true }
  else if c = 43 then { flags with plus := true }
  else if c = 32 then { flags with space := true }
  else if c = 35 then { flags with hash := true }
  else { flags with zeropad := true }

/-- What is left of a format behind digits or a `*`. -/
def skipNumber : Bytes → Bytes
  | [] => []
  | c :: s => if isdigit c then (c :: s).dropWhile isdigit else if c = 42 then s else c :: s

/-- What is left behind a precision. -/
def skipPrecission : Bytes → Bytes
  | [] => []
  | c :: s => if c = 46 then skipNumber s else c :: s

/-- What is left behind a modifier of the length. -/
def skipLength : Bytes → Bytes
  | [] => []
  | c :: s =>
    if c = 108 then if s.head? = some 108 then s.tail else s
    else if c = 104 then if s.head? = some 104 then s.tail else s
    else if c = 106 ∨ c = 122 then s
    else c :: s

/-- What is left behind the parts of a directive before its conversion. -/
def skipDirective (s : Bytes) : Bytes := skipLength (skipPrecission (skipNumber (s.dropWhile isFlag)))

/-- No directive of the format is cut off by its end. -/
inductive Complete : Bytes → Prop where
  | nil : Complete []
  | char {c s} : c ≠ 37 → Complete s → Complete (c :: s)
  | directive {s c rest} : skipDirective s = c :: rest → Complete rest → Complete (37 :: s)

section Read
variable {fmt s : Bytes} {flags : PrintFlags} {args : VaList}

/-- A flag is read. -/
lemma readFlags_cons {c : UInt8} (flag : isFlag c = true) :
    readFlags (c :: fmt) flags = readFlags fmt (addFlag flags c) := by
  simp only [isFlag, Bool.or_eq_true, decide_eq_true_eq] at flag
  rcases flag with (((rfl | rfl) | rfl) | rfl) | rfl <;> rfl

/-- Any other character ends the flags. -/
lemma readFlags_stop {c : UInt8} (stop : isFlag c = false) :
    readFlags (c :: fmt) flags = some (flags, c :: fmt) := by
  simp only [isFlag, Bool.or_eq_false_iff, decide_eq_false_iff_not] at stop
  obtain ⟨⟨⟨⟨h1, h2⟩, h3⟩, h4⟩, h5⟩ := stop
  simp [readFlags, h1, h2, h3, h4, h5]

/-- The flags up to the first byte that is none. -/
lemma readFlags_append {fs : Bytes} {c : UInt8} (all : ∀ f ∈ fs, isFlag f = true)
    (stop : isFlag c = false) :
    readFlags (fs ++ c :: fmt) flags = some (fs.foldl addFlag flags, c :: fmt) := by
  induction fs generalizing flags with
  | nil => exact readFlags_stop stop
  | cons f fs ih =>
    simp only [List.mem_cons, forall_eq_or_imp] at all
    rw [List.cons_append, readFlags_cons all.1, ih all.2, List.foldl_cons]

/-- What the digits of a number add to it. -/
def addDigit (n : Nat) (c : UInt8) : Nat := (n * 10 + (c - 48).toNat) % 2 ^ 32

/-- The number up to the first byte that is no digit. -/
lemma readNumber_append {ds : Bytes} {c : UInt8} {n : Nat} (all : ∀ d ∈ ds, isdigit d = true)
    (stop : isdigit c = false) :
    readNumber (ds ++ c :: fmt) n = some (ds.foldl addDigit n, c :: fmt) := by
  induction ds generalizing n with
  | nil => simp [readNumber, stop]
  | cons d ds ih =>
    simp only [List.mem_cons, forall_eq_or_imp] at all
    rw [List.cons_append, readNumber, if_pos all.1, ih all.2, List.foldl_cons]
    rfl

end Read

/-- A string is what stands before the first byte of a kind, and what begins with it. -/
lemma exists_stop (p : UInt8 → Bool) (s : Bytes) (stop : p 0 = false) :
    ∃ c rest, s ++ [0] = s.takeWhile p ++ c :: rest ∧ p c = false ∧ c :: rest = s.dropWhile p ++ [0] := by
  have split : s ++ [0] = s.takeWhile p ++ (s.dropWhile p ++ [0]) := by
    rw [← List.append_assoc, List.takeWhile_append_dropWhile]
  cases left : s.dropWhile p with
  | nil =>
    rw [left] at split
    exact ⟨0, [], split, stop, rfl⟩
  | cons c rest =>
    rw [left, List.cons_append] at split
    refine ⟨c, rest ++ [0], split, ?_, rfl⟩
    have := List.head?_dropWhile_not p s
    rw [left] at this
    simpa using this

section Skip
variable (s : Bytes) (flags : PrintFlags) (args : VaList)

/-- The flags of a string are read up to their end. -/
lemma readFlags_skip : ∃ flags', readFlags (s ++ [0]) flags = some (flags', s.dropWhile isFlag ++ [0]) := by
  obtain ⟨c, rest, split, stop, left⟩ := exists_stop isFlag s rfl
  refine ⟨(s.takeWhile isFlag).foldl addFlag flags, ?_⟩
  rw [split, readFlags_append (List.all_eq_true.mp List.all_takeWhile) stop, left]

/-- So are digits. -/
lemma readNumber_skip (n : Nat) :
    ∃ n', readNumber (s ++ [0]) n = some (n', s.dropWhile isdigit ++ [0]) := by
  obtain ⟨c, rest, split, stop, left⟩ := exists_stop isdigit s rfl
  refine ⟨(s.takeWhile isdigit).foldl addDigit n, ?_⟩
  rw [split, readNumber_append (List.all_eq_true.mp List.all_takeWhile) stop, left]

/-- So is a width. -/
lemma readWidth_skip : ∃ width flags' args',
    readWidth flags (s ++ [0]) args = some (width, flags', skipNumber s ++ [0], args') := by
  cases s with
  | nil => exact ⟨_, _, _, rfl⟩
  | cons c s =>
    by_cases digit : isdigit c = true
    · obtain ⟨width, read⟩ := readNumber_skip (c :: s) 0
      refine ⟨width, flags, args, ?_⟩
      rw [List.cons_append] at read
      simp [readWidth, skipNumber, digit, read]
    · by_cases star : c = 42
      · subst star
        exact ⟨_, _, _, rfl⟩
      · exact ⟨0, flags, args, by simp [readWidth, skipNumber, digit, star]⟩

/-- So is a precision. -/
lemma readPrecission_skip : ∃ precission flags' args',
    readPrecission flags (s ++ [0]) args = some (precission, flags', skipPrecission s ++ [0], args') := by
  cases s with
  | nil => exact ⟨_, _, _, rfl⟩
  | cons c s =>
    by_cases point : c = 46
    · subst point
      cases s with
      | nil => exact ⟨_, _, _, rfl⟩
      | cons c s =>
        by_cases digit : isdigit c = true
        · obtain ⟨precission, read⟩ := readNumber_skip (c :: s) 0
          rw [List.cons_append] at read
          refine ⟨precission, { flags with precision := true }, args, ?_⟩
          simp [readPrecission, skipPrecission, skipNumber, digit, read]
        · by_cases star : c = 42
          · subst star
            exact ⟨_, _, _, rfl⟩
          · exact ⟨0, { flags with precision := true }, args,
              by simp [readPrecission, skipPrecission, skipNumber, digit, star]⟩
    · exact ⟨0, flags, args, by simp [readPrecission, skipPrecission, point]⟩

/-- So is a length modifier. -/
lemma readLength_skip : ∃ flags', readLength flags (s ++ [0]) = some (flags', skipLength s ++ [0]) := by
  cases s with
  | nil => exact ⟨_, rfl⟩
  | cons c s =>
    by_cases long : c = 108
    · subst long
      cases s with
      | nil => exact ⟨_, rfl⟩
      | cons c s =>
        by_cases again : c = 108
        · subst again
          exact ⟨_, rfl⟩
        · exact ⟨{ flags with long := true }, by simp [readLength, skipLength, again]⟩
    by_cases short : c = 104
    · subst short
      cases s with
      | nil => exact ⟨_, rfl⟩
      | cons c s =>
        by_cases again : c = 104
        · subst again
          exact ⟨_, rfl⟩
        · exact ⟨{ flags with short := true }, by simp [readLength, skipLength, again]⟩
    by_cases other : c = 106 ∨ c = 122
    · exact ⟨{ flags with long := true }, by simp [readLength, skipLength, long, short, other]⟩
    · exact ⟨flags, by simp [readLength, skipLength, long, short, other]⟩

/-- A directive is read up to its conversion. -/
lemma directive_skip (charSigned : Bool) :
    (skipDirective s = [] → ∃ text args', directive charSigned (s ++ [0]) args = some (text, [], args')) ∧
    ∀ {c rest}, skipDirective s = c :: rest →
      ∃ text args', directive charSigned (s ++ [0]) args = some (text, rest ++ [0], args') := by
  obtain ⟨flags₁, flagsRead⟩ := readFlags_skip s noFlags
  obtain ⟨width, flags₂, args₁, widthRead⟩ :=
    readWidth_skip (s.dropWhile isFlag) flags₁ args
  obtain ⟨precission, flags₃, args₂, precissionRead⟩ :=
    readPrecission_skip (skipNumber (s.dropWhile isFlag)) flags₂ args₁
  obtain ⟨flags₄, lengthRead⟩ :=
    readLength_skip (skipPrecission (skipNumber (s.dropWhile isFlag))) flags₃
  have left : skipLength (skipPrecission (skipNumber (s.dropWhile isFlag))) = skipDirective s := rfl
  rw [left] at lengthRead
  constructor
  · intro cut
    rw [cut] at lengthRead
    simp [directive, flagsRead, widthRead, precissionRead, lengthRead]
  · intro c rest split
    rw [split] at lengthRead
    simp [directive, flagsRead, widthRead, precissionRead, lengthRead]

end Skip

section Suffix

/-- What is behind a width is a part of the string. -/
lemma skipNumber_suffix (s : Bytes) : skipNumber s <:+ s := by
  cases s with
  | nil => exact List.suffix_rfl
  | cons c s =>
    rw [skipNumber]
    split
    · exact List.dropWhile_suffix _
    · split
      · exact List.suffix_cons ..
      · exact List.suffix_rfl

/-- So is what is behind a precision. -/
lemma skipPrecission_suffix (s : Bytes) : skipPrecission s <:+ s := by
  cases s with
  | nil => exact List.suffix_rfl
  | cons c s =>
    rw [skipPrecission]
    split
    · exact (skipNumber_suffix s).trans (List.suffix_cons ..)
    · exact List.suffix_rfl

/-- So is what is behind a length modifier. -/
lemma skipLength_suffix (s : Bytes) : skipLength s <:+ s := by
  cases s with
  | nil => exact List.suffix_rfl
  | cons c s =>
    have once : s <:+ c :: s := List.suffix_cons ..
    have twice : s.tail <:+ c :: s := (List.tail_suffix s).trans once
    rw [skipLength]
    split_ifs
    · exact twice
    · exact once
    · exact twice
    · exact once
    · exact once
    · exact List.suffix_rfl

/-- So is what is behind a directive. -/
lemma skipDirective_suffix (s : Bytes) : skipDirective s <:+ s :=
  (skipLength_suffix _).trans ((skipPrecission_suffix _).trans
    ((skipNumber_suffix _).trans (List.dropWhile_suffix _)))

end Suffix

section Loop
variable {charSigned : Bool} {fuel : Nat} {fmt fmt' text : Bytes} {args args' : VaList} {c : UInt8}

/-- One turn of the loop for a directive. -/
lemma vsnprintfLoop_directive (read : directive charSigned fmt args = some (text, fmt', args')) :
    vsnprintfLoop charSigned (fuel + 1) (37 :: fmt) args =
      (vsnprintfLoop charSigned fuel fmt' args').map (text ++ ·) := by
  simp [vsnprintfLoop, read, Option.map_eq_bind]

/-- One turn for a character that stands for itself. -/
lemma vsnprintfLoop_char (nul : c ≠ 0) (percent : c ≠ 37) :
    vsnprintfLoop charSigned (fuel + 1) (c :: fmt) args =
      (vsnprintfLoop charSigned fuel fmt args).map (c :: ·) := by
  simp [vsnprintfLoop, nul, percent, Option.map_eq_bind]

/-- There is no turn behind the terminator. -/
lemma vsnprintfLoop_past : vsnprintfLoop charSigned fuel [] args = none := by
  cases fuel with
  | zero => rfl
  | succ fuel => rfl

end Loop

/-- A character that stands for itself does not matter. -/
lemma complete_char_iff {c : UInt8} {s : Bytes} (percent : c ≠ 37) : Complete (c :: s) ↔ Complete s := by
  constructor
  · intro complete
    cases complete with
    | char _ rest => exact rest
    | directive _ _ => exact absurd rfl percent
  · exact .char percent

/-- A directive with its conversion does not either. -/
lemma complete_directive_iff {c : UInt8} {s rest : Bytes} (split : skipDirective s = c :: rest) :
    Complete (37 :: s) ↔ Complete rest := by
  constructor
  · intro complete
    cases complete with
    | char other _ => exact absurd rfl other
    | directive split' complete =>
      rw [split] at split'
      exact (List.cons.inj split').2 ▸ complete
  · exact .directive split

/-- A directive that the string cuts off is not complete. -/
lemma not_complete_cut {s : Bytes} (cut : skipDirective s = []) : ¬ Complete (37 :: s) := by
  intro complete
  cases complete with
  | char other _ => exact absurd rfl other
  | directive split _ =>
    rw [cut] at split
    cases split

/-- The loop returns for the formats that have no directive cut off, and it reads past the terminator of
the others. -/
lemma vsnprintfLoop_returns_iff {charSigned : Bool} {s : Bytes} {args : VaList} {fuel : Nat}
    (noNul : 0 ∉ s) (enough : s.length < fuel) :
    (vsnprintfLoop charSigned fuel (s ++ [0]) args).isSome = true ↔ Complete s := by
  induction fuel generalizing s args with
  | zero => omega
  | succ fuel ih =>
    cases s with
    | nil => exact ⟨fun _ => .nil, fun _ => rfl⟩
    | cons c s =>
      simp only [List.mem_cons, not_or] at noNul
      simp only [List.length_cons, Nat.add_lt_add_iff_right] at enough
      by_cases percent : c = 37
      · subst percent
        obtain ⟨cut, whole⟩ := directive_skip s args charSigned
        cases left : skipDirective s with
        | nil =>
          obtain ⟨text, args', read⟩ := cut left
          rw [List.cons_append, vsnprintfLoop_directive read, vsnprintfLoop_past]
          simpa using not_complete_cut left
        | cons c rest =>
          obtain ⟨text, args', read⟩ := whole left
          have suffix : c :: rest <:+ s := left ▸ skipDirective_suffix s
          have shorter : rest.length < fuel := by
            have := suffix.length_le
            simp only [List.length_cons] at this
            omega
          have noNul' : 0 ∉ rest := fun mem => noNul.2 (suffix.subset (List.mem_cons_of_mem _ mem))
          rw [List.cons_append, vsnprintfLoop_directive read, Option.isSome_map, ih noNul' shorter,
            complete_directive_iff left]
      · rw [List.cons_append, vsnprintfLoop_char (Ne.symm noNul.1) percent, Option.isSome_map,
          ih noNul.2 enough, complete_char_iff percent]

/-- For every format and all arguments, `_vsnprintf_internal` returns without a read past the terminator of
the format if and only if no directive of it is cut off by its end. -/
theorem vsnprintf_returns_iff {s : Bytes} (noNul : 0 ∉ s) (charSigned : Bool) (args : VaList) :
    (∃ text, vsnprintfInternal charSigned (s ++ [0]) args = some text) ↔ Complete s := by
  rw [← Option.isSome_iff_exists, vsnprintfInternal]
  apply vsnprintfLoop_returns_iff noNul
  simp

/-- The format `a%-5lx`. -/
theorem vsnprintf_returns_hex :
    Complete [97, 37, 45, 53, 108, 120] ∧ ∀ args, ∃ text,
      vsnprintfInternal false ([97, 37, 45, 53, 108, 120] ++ [0]) args = some text := by
  have split : skipDirective [45, 53, 108, 120] = [120] := by decide
  have complete : Complete [97, 37, 45, 53, 108, 120] := .char (by decide) (.directive split .nil)
  exact ⟨complete, fun args => (vsnprintf_returns_iff (by decide) false args).mpr complete⟩

/-- The format `%` is read past its terminator. -/
theorem vsnprintf_past_percent :
    vsnprintfInternal true ([37] ++ [0]) (fun _ => ⟨0, []⟩) = none := by
  rfl

end WivOS.Utils.Printf
