import Mathlib.Tactic

/-!
# C strings

The functions of `utils/string.c` that the filesystem and the device tree use. Memory from a pointer on
is the list of its bytes; a read or a write past the end faults (`none`). The functions that change a
string work on a heap of allocated blocks, where a pointer is an offset in a block. `IsStr` ties bytes
to the string that starts there, and each function has one lemma that says what it returns for it.
-/

namespace WivOS.Utils

/-- The bytes of a memory block, or of a string. -/
abbrev Bytes := List UInt8

/-- C `'/'`. -/
def slash : UInt8 := 47

/-- C `strlen`. -/
def strlen : Bytes → Option Nat
  | [] => none
  | c :: str => if c = 0 then some 0 else (strlen str).map (· + 1)

/-- C `strcmp`. -/
def strcmp : Bytes → Bytes → Option Int
  | a :: s1, b :: s2 =>
    if a = b ∧ a ≠ 0 then strcmp s1 s2
    else if a < b then some (-1)
    else if b < a then some 1
    else some 0
  | _, _ => none

/-- C `strncmp`, which returns -1 for every difference. -/
def strncmp : Bytes → Bytes → Nat → Option Int
  | _, _, 0 => some 0
  | a :: s1, b :: s2, n + 1 =>
    if a = b ∧ a ≠ 0 then strncmp s1 s2 n
    else if a < b then some (-1)
    else if b < a then some (-1)
    else some 0
  | _, _, _ + 1 => none

/-- The bytes that C `strdup` allocates. -/
def dupBytes (str : Bytes) : Option Bytes := (strlen str).map fun length => str.take (length + 1)

/-- The loop of C `strstr`, for the rest of `str` after its first character `c`; `i` counts the bytes
of `in` that were read. -/
def strstrLoop (c : UInt8) (str : Bytes) (length : Nat) : Bytes → Nat → Option (Option Nat)
  | [], _ => none
  | sc :: rest, i =>
    if sc = 0 then some none
    else if sc ≠ c then strstrLoop c str length rest (i + 1)
    else
      match strncmp rest str length with
      | none => none
      | some 0 => some (some i)
      | some _ => strstrLoop c str length rest (i + 1)

/-- C `strstr`: where `str` starts in `in`. -/
def strstr (bytes : Bytes) : Bytes → Option (Option Nat)
  | [] => none
  | c :: str =>
    if c = 0 then some (some 0)
    else
      match strlen str with
      | none => none
      | some length => strstrLoop c str length bytes 0

/-- The loop of C `strsep`: where the token ends that starts here. -/
def tokenEnd (delimiter : Bytes) : Bytes → Option Nat
  | [] => none
  | c :: str => if c ∈ delimiter ∨ c = 0 then some 0 else (tokenEnd delimiter str).map (· + 1)

/-- A pointer into a block. -/
structure Ptr where
  block : Nat
  offset : Nat
deriving DecidableEq, Repr

namespace Ptr

/-- C `p + n`. -/
def add (p : Ptr) (n : Nat) : Ptr := ⟨p.block, p.offset + n⟩

/-- A pointer stays in its block. -/
@[simp] lemma add_block (p : Ptr) (n : Nat) : (p.add n).block = p.block := rfl

/-- Its offset moves. -/
@[simp] lemma add_offset (p : Ptr) (n : Nat) : (p.add n).offset = p.offset + n := rfl

end Ptr

/-- The blocks that are allocated. -/
structure Heap where
  blocks : Nat → Option Bytes
  next : Nat

namespace Heap

/-- The bytes of the block from a pointer on. -/
def bytes (h : Heap) (p : Ptr) : Option Bytes := (h.blocks p.block).map (·.drop p.offset)

/-- C `*p = c`. -/
def store (h : Heap) (p : Ptr) (c : UInt8) : Option Heap :=
  match h.blocks p.block with
  | none => none
  | some b =>
    if p.offset < b.length then
      some { h with blocks := Function.update h.blocks p.block (some (b.set p.offset c)) }
    else none

/-- C `strdup`. -/
def strdup (h : Heap) (p : Ptr) : Option (Ptr × Heap) := do
  let str ← h.bytes p
  let dup ← dupBytes str
  return (⟨h.next, 0⟩, ⟨Function.update h.blocks h.next (some dup), h.next + 1⟩)

/-- C `kfree` of a string. -/
def kfree (h : Heap) (p : Ptr) : Heap :=
  { h with blocks := Function.update h.blocks p.block none }

/-- C `strsep`: the token, what `*stringPointer` becomes, and the string that is cut. -/
def strsep (h : Heap) (stringPointer : Option Ptr) (delimiter : Bytes) :
    Option (Option Ptr × Option Ptr × Heap) :=
  match stringPointer with
  | none => some (none, none, h)
  | some p => do
    let str ← h.bytes p
    let n ← tokenEnd delimiter str
    let c ← str[n]?
    if c = 0 then return (some p, none, h)
    let h ← h.store (p.add n) 0
    return (some p, some (p.add (n + 1)), h)

end Heap

/-- The string that starts at a pointer. -/
def strOf (key : Bytes) : Bytes := key.takeWhile (· ≠ 0)

/-- The string `s` starts here. -/
def IsStr (bytes s : Bytes) : Prop := 0 ∉ s ∧ ∃ rest, bytes = s ++ 0 :: rest

section IsStr
variable {bytes bytes' s s' : Bytes}

/-- A string with its terminator. -/
lemma isStr_self (h : 0 ∉ s) : IsStr (s ++ [0]) s := ⟨h, [], rfl⟩

/-- The string in a terminated block. -/
lemma strOf_eq (h : IsStr bytes s) : strOf bytes = s := by
  obtain ⟨h0, rest, rfl⟩ := h
  have nonzero : ∀ b ∈ s, decide (b ≠ 0) = true := by
    intro b hb
    exact decide_eq_true fun e => h0 (e ▸ hb)
  rw [strOf, List.takeWhile_append_of_pos nonzero, List.takeWhile_cons_of_neg (by simp),
    List.append_nil]

/-- A block with a terminator holds its string. -/
lemma isStr_strOf {key : Bytes} (h : 0 ∈ key) : IsStr key (strOf key) := by
  induction key with
  | nil => simp at h
  | cons c key ih =>
    by_cases zero : c = 0
    · subst zero
      exact ⟨by simp [strOf], key, by simp [strOf]⟩
    · obtain ⟨h0, rest, e⟩ := ih (by simpa [Ne.symm zero] using h)
      have more : strOf (c :: key) = c :: strOf key := by simp [strOf, zero]
      rw [more]
      refine ⟨by simp [h0, Ne.symm zero], rest, ?_⟩
      rw [List.cons_append, ← e]

/-- `strlen` is the length of the string. -/
lemma strlen_eq (h : IsStr bytes s) : strlen bytes = some s.length := by
  obtain ⟨h0, rest, rfl⟩ := h
  induction s with
  | nil => simp [strlen]
  | cons c s ih =>
    simp only [List.mem_cons, not_or] at h0
    simp [strlen, Ne.symm h0.1, ih h0.2]

/-- The copy of a string has its own terminator. -/
lemma dupBytes_eq (h : IsStr bytes s) : dupBytes bytes = some (s ++ [0]) := by
  have length := strlen_eq h
  obtain ⟨_, rest, rfl⟩ := h
  rw [dupBytes, length]
  simp [List.take_append]

/-- `strcmp` is 0 for equal strings only. -/
lemma strcmp_eq (h : IsStr bytes s) (h' : IsStr bytes' s') :
    ∃ r, strcmp bytes bytes' = some r ∧ (r = 0 ↔ s = s') := by
  obtain ⟨h0, rest, rfl⟩ := h
  obtain ⟨h0', rest', rfl⟩ := h'
  induction s generalizing s' with
  | nil =>
    cases s' with
    | nil => exact ⟨0, by simp [strcmp], by simp⟩
    | cons c s' =>
      simp only [List.mem_cons, not_or] at h0'
      have pos : (0 : UInt8) < c := UInt8.pos_iff_ne_zero.mpr (Ne.symm h0'.1)
      exact ⟨-1, by simp [strcmp, pos], by simp⟩
  | cons c s ih =>
    simp only [List.mem_cons, not_or] at h0
    cases s' with
    | nil =>
      have pos : (0 : UInt8) < c := UInt8.pos_iff_ne_zero.mpr (Ne.symm h0.1)
      have not : ¬ c < 0 := UInt8.not_lt.mpr (UInt8.le_of_lt pos)
      exact ⟨1, by simp [strcmp, Ne.symm h0.1, pos, not], by simp⟩
    | cons c' s' =>
      simp only [List.mem_cons, not_or] at h0'
      by_cases e : c = c'
      · subst e
        obtain ⟨r, hr, hs⟩ := ih h0.2 h0'.2
        exact ⟨r, by simpa [strcmp, Ne.symm h0.1] using hr, by simpa using hs⟩
      · by_cases lt : c < c'
        · exact ⟨-1, by simp [strcmp, e, lt], by simp [e]⟩
        · have gt : c' < c := by
            rcases UInt8.lt_or_lt_of_ne e with h | h
            · exact absurd h lt
            · exact h
          exact ⟨1, by simp [strcmp, e, lt, gt], by simp [e]⟩

/-- `strncmp` of as many bytes as both have in common. -/
lemma strncmp_append {s rest rest' : Bytes} (h0 : 0 ∉ s) :
    strncmp (s ++ rest) (s ++ rest') s.length = some 0 := by
  induction s with
  | nil => simp [strncmp]
  | cons c s ih =>
    simp only [List.mem_cons, not_or] at h0
    simp [strncmp, Ne.symm h0.1, ih h0.2]

/-- `strstr` finds a string that stands at the start. -/
lemma strstr_start {rest : Bytes} (h : IsStr bytes s) : strstr (s ++ rest) bytes = some (some 0) := by
  obtain ⟨h0, tail, rfl⟩ := h
  cases s with
  | nil => simp [strstr]
  | cons c s =>
    simp only [List.mem_cons, not_or] at h0
    have length : strlen (s ++ 0 :: tail) = some s.length := strlen_eq ⟨h0.2, tail, rfl⟩
    have same : strncmp (s ++ rest) (s ++ 0 :: tail) s.length = some 0 := strncmp_append h0.2
    simp [strstr, strstrLoop, length, same, Ne.symm h0.1]

end IsStr

section Strsep
variable {h : Heap} {p : Ptr} {token rest : Bytes}

/-- A pointer that can be read is into a block. -/
lemma Heap.exists_block {s : Bytes} (hb : h.bytes p = some s) :
    ∃ b, h.blocks p.block = some b ∧ b.drop p.offset = s := by
  unfold Heap.bytes at hb
  cases hblock : h.blocks p.block with
  | none => simp [hblock] at hb
  | some b => exact ⟨b, rfl, by simpa [hblock] using hb⟩

/-- What is behind a part of the string. -/
lemma Heap.bytes_add {before : Bytes} (hb : h.bytes p = some (before ++ rest)) :
    h.bytes (p.add before.length) = some rest := by
  obtain ⟨b, hblock, hd⟩ := Heap.exists_block hb
  have : b.drop (p.offset + before.length) = rest := by
    rw [← List.drop_drop, hd, List.drop_left]
  simp [Heap.bytes, hblock, this]

/-- A byte is overwritten. -/
lemma Heap.store_bytes {before : Bytes} {c x : UInt8} (hb : h.bytes p = some (before ++ c :: rest)) :
    ∃ h', h.store (p.add before.length) x = some h' ∧ h'.bytes p = some (before ++ x :: rest) ∧
      (∀ b, b ≠ p.block → h'.blocks b = h.blocks b) ∧ h'.next = h.next := by
  obtain ⟨b, hblock, hd⟩ := Heap.exists_block hb
  have inside : p.offset + before.length < b.length := by
    have : (b.drop p.offset).length = (before ++ c :: rest).length := by rw [hd]
    simp only [List.length_drop, List.length_append, List.length_cons] at this
    omega
  have cut : (b.set (p.offset + before.length) x).drop p.offset = before ++ x :: rest := by
    rw [List.drop_set, if_neg (by omega), hd]
    simp
  let blocks := Function.update h.blocks p.block (some (b.set (p.offset + before.length) x))
  refine ⟨⟨blocks, h.next⟩, ?_, ?_, ?_, rfl⟩
  · simp [Heap.store, hblock, inside, blocks]
  · simp [Heap.bytes, cut, blocks]
  · intro b' hne
    exact Function.update_of_ne hne ..

/-- A token ends at the first delimiter or the terminator. -/
lemma tokenEnd_eq {c : UInt8} {d : Bytes} (h0 : 0 ∉ token) (hd : ∀ x ∈ token, x ∉ d) (hc : c ∈ d ∨ c = 0) :
    tokenEnd d (token ++ c :: rest) = some token.length := by
  induction token with
  | nil => simp [tokenEnd, hc]
  | cons b token ih =>
    simp only [List.mem_cons, not_or] at h0
    rw [List.forall_mem_cons] at hd
    simp [tokenEnd, Ne.symm h0.1, hd.1, ih h0.2 hd.2]

/-- A token without a slash. -/
lemma notMem_slash (hs : slash ∉ token) : ∀ x ∈ token, x ∉ [slash] := by
  intro x hx e
  rw [List.mem_singleton] at e
  exact hs (e ▸ hx)

/-- The last token. -/
lemma strsep_last (hb : h.bytes p = some (token ++ 0 :: rest)) (h0 : 0 ∉ token) (hs : slash ∉ token) :
    h.strsep (some p) [slash] = some (some p, none, h) := by
  simp [Heap.strsep, hb, tokenEnd_eq h0 (notMem_slash hs) (.inr rfl)]

/-- A token before a slash, which is overwritten. -/
lemma strsep_cut (hb : h.bytes p = some (token ++ slash :: rest)) (h0 : 0 ∉ token)
    (hs : slash ∉ token) :
    ∃ h', h.strsep (some p) [slash] = some (some p, some (p.add (token.length + 1)), h') ∧
      h'.bytes p = some (token ++ 0 :: rest) ∧
      h'.bytes (p.add (token.length + 1)) = some rest ∧
      (∀ b, b ≠ p.block → h'.blocks b = h.blocks b) ∧ h'.next = h.next := by
  have nonzero : slash ≠ 0 := by decide
  obtain ⟨h', stored, after, frame, next⟩ := Heap.store_bytes (x := 0) hb
  refine ⟨h', ?_, after, ?_, frame, next⟩
  · simp [Heap.strsep, hb, tokenEnd_eq h0 (notMem_slash hs) (.inl (List.mem_singleton_self _)), stored, nonzero]
  · have cut : h'.bytes p = some ((token ++ [0]) ++ rest) := by simpa using after
    simpa using Heap.bytes_add cut

end Strsep

end WivOS.Utils
