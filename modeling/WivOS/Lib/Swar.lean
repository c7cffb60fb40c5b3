import Mathlib.Data.Nat.Bitwise
import Mathlib.Tactic

/-!
# Zero bytes of a word

The test for a zero byte that works on all bytes of a word at once: `(x - ones) & ~x & highs`, for words of
`n` bytes. The subtraction borrows from the next byte behind a zero byte only, so below the lowest zero
byte no bit is set, and at that byte the highest one is.
-/

namespace WivOS.Lib

/-- The word of `n` bytes 1. -/
def onesWord : Nat → Nat
  | 0 => 0
  | n + 1 => 1 + 2 ^ 8 * onesWord n

/-- The word of these bytes, the lowest first. -/
def wordOf : List Nat → Nat
  | [] => 0
  | b :: bytes => b + 2 ^ 8 * wordOf bytes

/-- The byte of a word at an index, the lowest first. -/
def byteAt (x i : Nat) : Nat := x / 2 ^ (8 * i) % 2 ^ 8

/-- `(x - ones) & ~x & highs` in `n` bytes. -/
def zeroBytes (n x : Nat) : Nat :=
  (x + (2 ^ (8 * n) - onesWord n)) % 2 ^ (8 * n) &&& (2 ^ (8 * n) - 1 - x) &&& 2 ^ 7 * onesWord n

section ZeroBytes
variable {n x y i : Nat}

/-- One more byte. -/
lemma pow_word (n : Nat) : 2 ^ (8 * (n + 1)) = 2 ^ 8 * 2 ^ (8 * n) := by
  rw [Nat.mul_succ, Nat.add_comm, pow_add]

/-- A word of ones fits its bytes. -/
lemma onesWord_lt (n : Nat) : onesWord n < 2 ^ (8 * n) := by
  induction n with
  | zero => norm_num [onesWord]
  | succ n ih =>
    rw [pow_word, onesWord]
    omega

/-- The lowest byte. -/
@[simp] lemma byteAt_zero : byteAt x 0 = x % 2 ^ 8 := by simp [byteAt]

/-- The next byte is the lowest one of what is above. -/
lemma byteAt_succ : byteAt x (i + 1) = byteAt (x / 2 ^ 8) i := by
  rw [byteAt, byteAt, Nat.div_div_eq_div_mul, ← pow_add, Nat.mul_succ, Nat.add_comm]

/-- A byte of an exclusive or. -/
lemma byteAt_xor : byteAt (x ^^^ y) i = byteAt x i ^^^ byteAt y i := by
  rw [byteAt, Nat.xor_div_two_pow, Nat.xor_mod_two_pow, byteAt, byteAt]

/-- A word fits the bytes it is made of. -/
lemma wordOf_lt {bytes : List Nat} (small : ∀ b ∈ bytes, b < 2 ^ 8) : wordOf bytes < 2 ^ (8 * bytes.length) := by
  induction bytes with
  | nil => simp [wordOf]
  | cons b bytes ih =>
    have first := small b List.mem_cons_self
    have rest := ih fun b hb => small b (List.mem_cons_of_mem _ hb)
    rw [wordOf, List.length_cons, pow_word]
    omega

/-- The bytes of a word are those it is made of. -/
lemma byteAt_wordOf {bytes : List Nat} (small : ∀ b ∈ bytes, b < 2 ^ 8) (hi : i < bytes.length) :
    byteAt (wordOf bytes) i = bytes[i] := by
  induction bytes generalizing i with
  | nil => cases hi
  | cons b bytes ih =>
    have first := small b List.mem_cons_self
    cases i with
    | zero =>
      rw [byteAt_zero, wordOf, List.getElem_cons_zero]
      omega
    | succ i =>
      have rest : wordOf (b :: bytes) / 2 ^ 8 = wordOf bytes := by
        rw [wordOf]
        omega
      rw [byteAt_succ, rest, List.getElem_cons_succ]
      exact ih (fun b hb => small b (List.mem_cons_of_mem _ hb)) _

/-- A multiple of `ones` has the same byte everywhere. -/
lemma byteAt_onesWord_mul {b : Nat} (hb : b < 2 ^ 8) (hi : i < n) : byteAt (onesWord n * b) i = b := by
  induction n generalizing i with
  | zero => cases hi
  | succ n ih =>
    have split : onesWord (n + 1) * b = b + 2 ^ 8 * (onesWord n * b) := by
      rw [onesWord]
      ring
    cases i with
    | zero =>
      rw [byteAt_zero, split]
      omega
    | succ i =>
      have rest : onesWord (n + 1) * b / 2 ^ 8 = onesWord n * b := by
        rw [split]
        omega
      rw [byteAt_succ, rest]
      exact ih (Nat.lt_of_succ_lt_succ hi)

/-- The lowest byte of the test. -/
lemma zeroBytes_mod (hx : x < 2 ^ (8 * (n + 1))) :
    zeroBytes (n + 1) x % 2 ^ 8 = ((x % 2 ^ 8 + 255) % 2 ^ 8 &&& (255 - x % 2 ^ 8) &&& 128) := by
  have less := onesWord_lt n
  rw [zeroBytes, Nat.and_mod_two_pow, Nat.and_mod_two_pow]
  rw [pow_word] at hx ⊢
  congr 1
  · congr 1
    · rw [Nat.mod_mul_right_mod, onesWord]
      omega
    · omega
  · rw [onesWord]
    omega

/-- Above a byte that is not zero, the test is that of the other bytes. -/
lemma zeroBytes_div (hx : x < 2 ^ (8 * (n + 1))) (nonzero : x % 2 ^ 8 ≠ 0) :
    zeroBytes (n + 1) x / 2 ^ 8 = zeroBytes n (x / 2 ^ 8) := by
  have less := onesWord_lt n
  rw [zeroBytes, Nat.and_div_two_pow, Nat.and_div_two_pow, zeroBytes]
  rw [pow_word] at hx ⊢
  congr 1
  · congr 1
    · -- no borrow: the subtraction goes on in the other bytes
      rw [Nat.mod_mul_right_div_self, onesWord]
      congr 1
      omega
    · omega
  · rw [onesWord]
    omega

/-- The test is zero if and only if no byte is. -/
lemma zeroBytes_eq_zero_iff (hx : x < 2 ^ (8 * n)) : zeroBytes n x = 0 ↔ ∀ i < n, byteAt x i ≠ 0 := by
  induction n generalizing x with
  | zero => simp [zeroBytes, onesWord]
  | succ n ih =>
    have parts : zeroBytes (n + 1) x = 0 ↔ zeroBytes (n + 1) x % 2 ^ 8 = 0 ∧ zeroBytes (n + 1) x / 2 ^ 8 = 0 := by
      omega
    have lowest : ∀ b < 2 ^ 8, ((b + 255) % 2 ^ 8 &&& (255 - b) &&& 128) = 0 ↔ b ≠ 0 := by
      decide +kernel
    have upper : x / 2 ^ 8 < 2 ^ (8 * n) := by
      rw [pow_word] at hx
      omega
    rw [parts, zeroBytes_mod hx, lowest _ (Nat.mod_lt _ (by norm_num))]
    constructor
    · rintro ⟨nonzero, rest⟩ i hi
      rw [zeroBytes_div hx nonzero, ih upper] at rest
      cases i with
      | zero => rwa [byteAt_zero]
      | succ i =>
        rw [byteAt_succ]
        exact rest i (Nat.lt_of_succ_lt_succ hi)
    · intro all
      have nonzero : x % 2 ^ 8 ≠ 0 := by simpa using all 0 (Nat.succ_pos n)
      refine ⟨nonzero, ?_⟩
      rw [zeroBytes_div hx nonzero, ih upper]
      intro i hi
      rw [← byteAt_succ]
      exact all (i + 1) (Nat.succ_lt_succ hi)

end ZeroBytes

end WivOS.Lib
