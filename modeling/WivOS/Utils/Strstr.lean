import WivOS.Utils.Compare

/-!
# `strstr`

The search for a string in a string. It tries every place where the first character of the second string
stands, one after the other, and `strncmp` of the rest stops at the terminator of the first string at the
latest; so the place that it returns is the leftmost one, and no byte behind a terminator is read.
-/

namespace WivOS.Utils

/-- The leftmost place where a string stands in another. -/
def leftmost (str : Bytes) : Bytes → Option Nat
  | [] => if str = [] then some 0 else none
  | c :: bytes => if str <+: c :: bytes then some 0 else (leftmost str bytes).map (· + 1)

section Leftmost
variable {s n t : Bytes} {c : UInt8} {j : Nat}

/-- A match at the start is the leftmost one. -/
lemma leftmost_here (h : n <+: s) : leftmost n s = some 0 := by
  cases s with
  | nil => rw [leftmost, if_pos (List.prefix_nil.mp h)]
  | cons c s => rw [leftmost, if_pos h]

/-- Otherwise it is the leftmost one behind the first byte. -/
lemma leftmost_cons (h : ¬ n <+: c :: s) : leftmost n (c :: s) = (leftmost n s).map (· + 1) := by
  rw [leftmost, if_neg h]

/-- It is the least index of a match. -/
lemma leftmost_eq_some_iff :
    leftmost n s = some j ↔ IsLeast {j | j ≤ s.length ∧ n <+: s.drop j} j := by
  induction s generalizing j with
  | nil =>
    by_cases empty : n = []
    · subst empty
      rw [leftmost_here List.nil_prefix, Option.some.injEq]
      constructor
      · rintro rfl
        exact ⟨⟨le_rfl, List.nil_prefix⟩, fun _ _ => Nat.zero_le _⟩
      · rintro ⟨⟨le, -⟩, -⟩
        exact (Nat.le_zero.mp le).symm
    · simp [leftmost, empty, IsLeast]
  | cons c s ih =>
    by_cases first : n <+: c :: s
    · rw [leftmost_here first, Option.some.injEq]
      constructor
      · rintro rfl
        exact ⟨⟨Nat.zero_le _, first⟩, fun _ _ => Nat.zero_le _⟩
      · rintro ⟨-, least⟩
        exact (Nat.le_zero.mp (least ⟨Nat.zero_le _, first⟩)).symm
    · rw [leftmost_cons first, Option.map_eq_some_iff]
      constructor
      · rintro ⟨i, found, rfl⟩
        obtain ⟨⟨le, here⟩, least⟩ := ih.mp found
        refine ⟨⟨Nat.succ_le_succ le, here⟩, ?_⟩
        rintro k ⟨hk, hp⟩
        cases k with
        | zero => exact absurd hp first
        | succ k => exact Nat.succ_le_succ (least ⟨Nat.le_of_succ_le_succ hk, hp⟩)
      · rintro ⟨⟨le, here⟩, least⟩
        cases j with
        | zero => exact absurd here first
        | succ j =>
          refine ⟨j, ih.mpr ⟨⟨Nat.le_of_succ_le_succ le, here⟩, ?_⟩, rfl⟩
          rintro k ⟨hk, hp⟩
          exact Nat.le_of_succ_le_succ (least ⟨Nat.succ_le_succ hk, hp⟩)

/-- There is none if there is no match. -/
lemma leftmost_eq_none_iff : leftmost n s = none ↔ ¬ n <:+: s := by
  induction s with
  | nil => simp [leftmost]
  | cons c s ih =>
    by_cases first : n <+: c :: s
    · simp [leftmost_here first, first.isInfix]
    · rw [leftmost_cons first, Option.map_eq_none_iff, ih, List.infix_cons_iff]
      simp [first]

end Leftmost

section Strstr
variable {s n t bytes bytes' : Bytes} {c : UInt8}

/-- The loop of `strstr` from any place on. -/
lemma strstrLoop_eq (h0 : 0 ∉ s) (rest : Bytes) (ht : IsStr bytes' t) (i : Nat) :
    strstrLoop c bytes' t.length (s ++ 0 :: rest) i = some ((leftmost (c :: t) s).map (i + ·)) := by
  induction s generalizing i with
  | nil => simp [strstrLoop, leftmost]
  | cons sc s ih =>
    rw [List.mem_cons, not_or] at h0
    have compared : strncmp (s ++ 0 :: rest) bytes' t.length = some (if s.take t.length = t then 0 else -1) := by
      have h := strncmp_prefix (n := t.length) ⟨h0.2, rest, rfl⟩ ht
      rwa [List.take_length] at h
    have here : c :: t <+: sc :: s ↔ sc = c ∧ s.take t.length = t := by
      rw [List.cons_prefix_cons, List.prefix_iff_eq_take, eq_comm, eq_comm (a := t)]
    have next : ¬ (c :: t <+: sc :: s) →
        some ((leftmost (c :: t) (sc :: s)).map (i + ·)) =
          strstrLoop c bytes' t.length (s ++ 0 :: rest) (i + 1) := by
      intro away
      rw [ih h0.2, leftmost_cons away, Option.map_map]
      congr 2
      funext j
      simp only [Function.comp_apply]
      omega
    rw [List.cons_append, strstrLoop, if_neg (Ne.symm h0.1)]
    by_cases same : sc = c
    · rw [if_neg (not_not.mpr same), compared]
      by_cases found : s.take t.length = t
      · rw [if_pos found, leftmost_here (here.mpr ⟨same, found⟩)]
        rfl
      · rw [if_neg found, next fun p => found (here.mp p).2]
        rfl
    · rw [if_pos same, next fun p => same (here.mp p).1]

/-- `strstr` finds the leftmost match. -/
lemma strstr_eq (hs : IsStr bytes s) (hn : IsStr bytes' n) : strstr bytes bytes' = some (leftmost n s) := by
  obtain ⟨h0, rest, rfl⟩ := hs
  obtain ⟨h0', rest', rfl⟩ := hn
  cases n with
  | nil => simp [strstr, leftmost_here List.nil_prefix]
  | cons c t =>
    rw [List.mem_cons, not_or] at h0'
    have ht : IsStr (t ++ 0 :: rest') t := ⟨h0'.2, rest', rfl⟩
    rw [List.cons_append, strstr, if_neg (Ne.symm h0'.1), strlen_eq ht]
    show strstrLoop c (t ++ 0 :: rest') t.length (s ++ 0 :: rest) 0 = _
    rw [strstrLoop_eq h0 rest ht]
    simp

/-- `strstr` returns the leftmost place of the second string in the first one, and `NULL` if there is none.
What stands behind the terminators does not matter, and nothing may stand there. -/
theorem strstr_leftmost (hs : IsStr bytes s) (hn : IsStr bytes' n) :
    ∃ r, strstr bytes bytes' = some r ∧ strstr (s ++ [0]) (n ++ [0]) = some r ∧
      (∀ j, r = some j ↔ IsLeast {j | j ≤ s.length ∧ n <+: s.drop j} j) ∧
      (r = none ↔ ¬ n <:+: s) ∧ (n = [] → r = some 0) := by
  refine ⟨leftmost n s, strstr_eq hs hn, strstr_eq (isStr_self hs.1) (isStr_self hn.1),
    fun j => leftmost_eq_some_iff, leftmost_eq_none_iff, ?_⟩
  rintro rfl
  exact leftmost_here List.nil_prefix

/-- `"aab"` in `"aaab"`: the first two matches of its first character fail. -/
theorem strstr_leftmost_overlap : strstr [97, 97, 97, 98, 0] [97, 97, 98, 0] = some (some 1) := by
  have hs : IsStr [97, 97, 97, 98, 0] [97, 97, 97, 98] := ⟨by decide, [], rfl⟩
  have hn : IsStr [97, 97, 98, 0] [97, 97, 98] := ⟨by decide, [], rfl⟩
  obtain ⟨r, e, -, places, -⟩ := strstr_leftmost hs hn
  have first : r = some 1 := by
    rw [places]
    refine ⟨by decide, ?_⟩
    rintro k ⟨-, hp⟩
    by_contra less
    obtain rfl : k = 0 := by omega
    revert hp
    decide
  rw [e, first]

end Strstr

end WivOS.Utils
