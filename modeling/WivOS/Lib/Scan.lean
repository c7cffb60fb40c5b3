import Mathlib.Logic.Function.Iterate
import Mathlib.Tactic

/-!
# Scanning loops

`scan stop next` is the loop `for (; !stop(a); a = next(a));`, for `fuel` tests of its condition at most.
It ends in the first state at which `stop` holds, and with fuel for one more test than the steps that it
takes it does end there (`scan_iterate`).
-/

namespace WivOS.Lib

/-- Goes on to the next state until `stop` holds. -/
def scan {α : Type*} (stop : α → Bool) (next : α → α) : Nat → α → Option α
  | 0, _ => none
  | fuel + 1, a => if stop a then some a else scan stop next fuel (next a)

section Scan
variable {α : Type*} {stop : α → Bool} {next : α → α} {fuel n : Nat} {a : α}

/-- The scan stops where its condition holds. -/
lemma scan_here (h : stop a = true) (enough : 0 < fuel) : scan stop next fuel a = some a := by
  obtain ⟨fuel, rfl⟩ := Nat.exists_eq_succ_of_ne_zero (Nat.ne_of_gt enough)
  rw [scan, if_pos h]

/-- It goes on where the condition does not hold. -/
lemma scan_next (h : stop a = false) : scan stop next (fuel + 1) a = scan stop next fuel (next a) := by
  rw [scan, if_neg (by simp [h])]

/-- The loop ends at the first state that stops it. -/
lemma scan_iterate (before : ∀ i < n, stop (next^[i] a) = false) (here : stop (next^[n] a) = true)
    (enough : n < fuel) : scan stop next fuel a = some (next^[n] a) := by
  induction n generalizing a fuel with
  | zero => exact scan_here here enough
  | succ n ih =>
    obtain ⟨fuel, rfl⟩ := Nat.exists_eq_succ_of_ne_zero (Nat.ne_of_gt (Nat.zero_lt_of_lt enough))
    have first : stop a = false := before 0 (Nat.succ_pos n)
    rw [scan_next first]
    exact ih (fun i hi => before (i + 1) (Nat.succ_lt_succ hi)) here (Nat.lt_of_succ_lt_succ enough)

end Scan

end WivOS.Lib
