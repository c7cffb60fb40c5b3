import WivOS.Utils.Strings

/-!
# The order of C strings

`strcmp` and `strncmp` of `utils/string.c` against the lexicographic order of strings as unsigned bytes.
`strcmp` returns the sign of that order. `strncmp` has the same loop, but both of its exits for a
difference return -1, so that it can tell equal prefixes from others and no more.
-/

namespace WivOS.Utils

/-- The sign is that of the lexicographic comparison as unsigned bytes. -/
structure SignOf (r : Int) (a b : Bytes) : Prop where
  negative : r < 0 ↔ List.Lex (· < ·) a b
  zero : r = 0 ↔ a = b
  positive : 0 < r ↔ List.Lex (· < ·) b a

/-- What the two functions are to return for strings `a` and `b` in memory and a bound. -/
structure Ordered (bytes bytes' a b : Bytes) (n : Nat) : Prop where
  strcmp : ∃ r, strcmp bytes bytes' = some r ∧ SignOf r a b
  strncmp : ∃ r, strncmp bytes bytes' n = some r ∧ SignOf r (a.take n) (b.take n)
  longer : a.length < n → b.length < n → Utils.strncmp bytes bytes' n = Utils.strcmp bytes bytes'
  swapped : Utils.strncmp bytes' bytes n = (Utils.strncmp bytes bytes' n).map (- ·)

section Order
variable {bytes bytes' a b : Bytes} {c d : UInt8} {n : Nat}

/-- Equal strings give 0. -/
lemma signOf_self : SignOf 0 a a := ⟨by simp, by simp, by simp⟩

/-- The smaller string gives a negative sign. -/
lemma signOf_less (ne : a ≠ b) (less : List.Lex (· < ·) a b) (not : ¬ List.Lex (· < ·) b a) :
    SignOf (-1) a b :=
  ⟨by simp [less], by simp [ne], by simp [not]⟩

/-- The greater string gives a positive one. -/
lemma signOf_greater (ne : a ≠ b) (greater : List.Lex (· < ·) b a) (not : ¬ List.Lex (· < ·) a b) :
    SignOf 1 a b :=
  ⟨by simp [not], by simp [ne], by simp [greater]⟩

/-- An equal first byte decides nothing. -/
lemma lex_cons_self : List.Lex (· < ·) (c :: a) (c :: b) ↔ List.Lex (· < ·) a b := by
  constructor
  · rintro (_ | lt | h)
    · exact absurd lt (UInt8.lt_irrefl c)
    · exact h
  · exact List.Lex.cons

/-- A greater first byte decides. -/
lemma not_lex_cons (lt : c < d) : ¬ List.Lex (· < ·) (d :: b) (c :: a) := by
  rintro (_ | gt | _)
  · exact UInt8.lt_asymm lt gt
  · exact UInt8.lt_irrefl c lt

/-- The sign stays under an equal first byte. -/
lemma SignOf.cons {r : Int} (h : SignOf r a b) : SignOf r (c :: a) (c :: b) :=
  ⟨h.negative.trans lex_cons_self.symm, by simp [h.zero], h.positive.trans lex_cons_self.symm⟩

/-- A byte of a string is greater than the terminator. -/
lemma zero_lt_of_notMem (h0 : 0 ∉ c :: a) : (0 : UInt8) < c ∧ c ≠ 0 ∧ 0 ∉ a := by
  simp only [List.mem_cons, not_or] at h0
  exact ⟨UInt8.pos_iff_ne_zero.mpr (Ne.symm h0.1), Ne.symm h0.1, h0.2⟩

/-- `strcmp` returns the sign of the order. -/
lemma strcmp_signOf (h : IsStr bytes a) (h' : IsStr bytes' b) :
    ∃ r, strcmp bytes bytes' = some r ∧ SignOf r a b := by
  obtain ⟨h0, rest, rfl⟩ := h
  obtain ⟨h0', rest', rfl⟩ := h'
  induction a generalizing b with
  | nil =>
    cases b with
    | nil => exact ⟨0, by simp [strcmp], signOf_self⟩
    | cons d b =>
      obtain ⟨pos, -, -⟩ := zero_lt_of_notMem h0'
      exact ⟨-1, by simp [strcmp, pos], signOf_less (by simp) .nil List.not_lex_nil⟩
  | cons c a ih =>
    obtain ⟨pos, ne, rest0⟩ := zero_lt_of_notMem h0
    cases b with
    | nil =>
      have not : ¬ c < 0 := UInt8.lt_asymm pos
      exact ⟨1, by simp [strcmp, pos, ne, not], signOf_greater (by simp) .nil List.not_lex_nil⟩
    | cons d b =>
      obtain ⟨-, -, rest0'⟩ := zero_lt_of_notMem h0'
      by_cases e : c = d
      · subst e
        obtain ⟨r, compared, sign⟩ := ih rest0 rest0'
        exact ⟨r, by simpa [strcmp, ne] using compared, sign.cons⟩
      · rcases UInt8.lt_or_lt_of_ne e with lt | gt
        · exact ⟨-1, by simp [strcmp, e, lt], signOf_less (by simp [e]) (.rel lt) (not_lex_cons lt)⟩
        · have not : ¬ c < d := UInt8.lt_asymm gt
          exact ⟨1, by simp [strcmp, e, not, gt],
            signOf_greater (by simp [e]) (.rel gt) (not_lex_cons gt)⟩

/-- `strncmp` is 0 for equal prefixes, and -1 else. -/
lemma strncmp_prefix (h : IsStr bytes a) (h' : IsStr bytes' b) :
    strncmp bytes bytes' n = some (if a.take n = b.take n then 0 else -1) := by
  obtain ⟨h0, rest, rfl⟩ := h
  obtain ⟨h0', rest', rfl⟩ := h'
  induction n generalizing a b with
  | zero => simp [strncmp]
  | succ n ih =>
    cases a with
    | nil =>
      cases b with
      | nil => simp [strncmp]
      | cons d b =>
        obtain ⟨pos, -, -⟩ := zero_lt_of_notMem h0'
        simp [strncmp, pos]
    | cons c a =>
      obtain ⟨pos, ne, rest0⟩ := zero_lt_of_notMem h0
      cases b with
      | nil => simp [strncmp, pos, ne]
      | cons d b =>
        obtain ⟨-, -, rest0'⟩ := zero_lt_of_notMem h0'
        by_cases e : c = d
        · subst e
          simpa [strncmp, ne] using ih rest0 rest0'
        · rcases UInt8.lt_or_lt_of_ne e with lt | gt
          · simp [strncmp, e, lt]
          · simp [strncmp, e, gt]

/-- For all strings and every bound: the two functions return what the order asks for if and only if the
prefixes up to the bound are equal. -/
theorem strncmp_ordered_iff (h : IsStr bytes a) (h' : IsStr bytes' b) :
    Ordered bytes bytes' a b n ↔ a.take n = b.take n := by
  have forth := strncmp_prefix (n := n) h h'
  have back := strncmp_prefix (n := n) h' h
  constructor
  · intro ordered
    by_contra ne
    have swapped := ordered.swapped
    rw [forth, back, if_neg ne, if_neg (Ne.symm ne)] at swapped
    cases swapped
  · intro eq
    rw [if_pos eq] at forth
    rw [if_pos eq.symm] at back
    obtain ⟨r, compared, sign⟩ := strcmp_signOf h h'
    refine ⟨⟨r, compared, sign⟩, ⟨0, forth, eq ▸ signOf_self⟩, fun ha hb => ?_, ?_⟩
    · rw [List.take_of_length_le (by omega), List.take_of_length_le (by omega)] at eq
      rw [forth, compared, sign.zero.mpr eq]
    · rw [forth, back]
      rfl

end Order

/-- The string `"ab"`. -/
lemma isStr_ab : IsStr [97, 98, 0] [97, 98] := ⟨by decide, [], rfl⟩

/-- The string `"ac"`. -/
lemma isStr_ac : IsStr [97, 99, 0] [97, 99] := ⟨by decide, [], rfl⟩

/-- `"ab"` and `"ac"`, up to their first byte. -/
theorem strncmp_ordered_iff_first : Ordered [97, 98, 0] [97, 99, 0] [97, 98] [97, 99] 1 :=
  (strncmp_ordered_iff isStr_ab isStr_ac).mpr rfl

/-- `strncmp("ac", "ab", 2)` is -1. -/
theorem strncmp_greater_negative :
    strncmp [97, 99, 0] [97, 98, 0] 2 = some (-1) ∧ List.Lex (· < ·) [(97 : UInt8), 98] [97, 99] ∧
      ¬ Ordered [97, 99, 0] [97, 98, 0] [97, 99] [97, 98] 2 := by
  have greater : List.Lex (· < ·) [(97 : UInt8), 98] [97, 99] := .cons (.rel (by decide))
  refine ⟨rfl, greater, fun ordered => ?_⟩
  obtain ⟨r, returned, sign⟩ := ordered.strncmp
  cases returned
  have positive := sign.positive.mpr greater
  contradiction

end WivOS.Utils
