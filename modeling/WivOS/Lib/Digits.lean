import Mathlib.Data.Nat.Digits.Lemmas
import Mathlib.Tactic

/-!
# The first digits of a number

The digits of a number up to a position, the lowest first. Positions behind the highest digit have the
digit zero, so that zeros which pad a number and digits that are cut off are both a matter of the length
alone: the first digits stand for the number modulo a power of the base.
-/

namespace WivOS.Lib

/-- The lowest digits of a number, the units first. -/
def firstDigits (base n length : Nat) : List Nat := (List.range length).map fun i => n / base ^ i % base

section FirstDigits
variable {base n length : Nat}

/-- There are as many digits as were asked for. -/
@[simp] lemma length_firstDigits : (firstDigits base n length).length = length := by simp [firstDigits]

/-- No digits. -/
@[simp] lemma firstDigits_zero : firstDigits base n 0 = [] := rfl

/-- One more digit is the next higher one. -/
lemma firstDigits_succ :
    firstDigits base n (length + 1) = firstDigits base n length ++ [n / base ^ length % base] := by
  simp [firstDigits, List.range_succ]

/-- The lowest digit, and those of the quotient. -/
lemma firstDigits_cons : firstDigits base n (length + 1) = n % base :: firstDigits base (n / base) length := by
  simp only [firstDigits, List.range_succ_eq_map, List.map_cons, pow_zero, Nat.div_one, List.map_map,
    List.cons.injEq, true_and]
  apply List.map_congr_left
  intro i _
  simp [Nat.div_div_eq_div_mul, pow_succ, Nat.mul_comm]

/-- Without the highest digit there is one less. -/
lemma dropLast_firstDigits : (firstDigits base n length).dropLast = firstDigits base n (length - 1) := by
  cases length with
  | zero => rfl
  | succ length => simp [firstDigits_succ]

/-- Every digit is below the base. -/
lemma lt_of_mem_firstDigits (pos : 0 < base) {d : Nat} (mem : d ∈ firstDigits base n length) : d < base := by
  obtain ⟨i, -, rfl⟩ := List.mem_map.mp mem
  exact Nat.mod_lt _ pos

/-- The number that the first digits stand for. -/
lemma ofDigits_firstDigits : Nat.ofDigits base (firstDigits base n length) = n % base ^ length := by
  induction length with
  | zero => simp [Nat.mod_one]
  | succ length ih =>
    rw [firstDigits_succ, Nat.ofDigits_append, ih, Nat.ofDigits_singleton, length_firstDigits,
      Nat.mod_pow_succ]

/-- Zeros behind all digits are digits. -/
lemma firstDigits_append_zeros (pos : 0 < base) (whole : n < base ^ length) (zeros : Nat) :
    firstDigits base n length ++ List.replicate zeros 0 = firstDigits base n (length + zeros) := by
  induction zeros with
  | zero => simp
  | succ zeros ih =>
    have high : n / base ^ (length + zeros) = 0 := by
      apply Nat.div_eq_of_lt
      calc n < base ^ length := whole
        _ ≤ base ^ (length + zeros) := Nat.pow_le_pow_right pos (by omega)
    rw [List.replicate_succ', ← List.append_assoc, ih, ← Nat.add_assoc, firstDigits_succ, high,
      Nat.zero_mod]

end FirstDigits

end WivOS.Lib
