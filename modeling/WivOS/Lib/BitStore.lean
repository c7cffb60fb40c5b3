import Mathlib.Tactic
import Mathlib.Data.Finset.Card

/-!
# Bit stores

A store of bits addressed by number and reached one bit at a time, by testing, setting or resetting
it. The store has a `span`: an access at or past it faults (`none`), as memory behind a bitmap ends
somewhere. The class carries the view `bit` of the store as a function together with the laws that
tie the three operations to it, so that programs over a store are proved about once and run over any
representation of the bits.

The second half is about plain bit functions `Nat → Bool`: filling an interval (`fill`) and counting
the clear bits below a bound (`clearCount`).
-/

namespace WivOS.Lib

/-- A store of bits with its view as a function and the laws of the three operations. -/
class BitStore (σ : Type) where
  span : σ → Nat
  bit : σ → Nat → Bool
  testBit : σ → Nat → Option Bool
  setBit : σ → Nat → Option σ
  resetBit : σ → Nat → Option σ
  testBit_eq : ∀ s i, testBit s i = if i < span s then some (bit s i) else none
  setBit_isSome : ∀ s i, (setBit s i).isSome ↔ i < span s
  setBit_some : ∀ {s i s'}, setBit s i = some s' →
    span s' = span s ∧ ∀ j, bit s' j = if j = i then true else bit s j
  resetBit_isSome : ∀ s i, (resetBit s i).isSome ↔ i < span s
  resetBit_some : ∀ {s i s'}, resetBit s i = some s' →
    span s' = span s ∧ ∀ j, bit s' j = if j = i then false else bit s j

/-- The bits of `f` with those of the interval `[lo, lo + n)` replaced by `b`. -/
def fill (f : Nat → Bool) (lo n : Nat) (b : Bool) : Nat → Bool :=
  fun i => if lo ≤ i ∧ i < lo + n then b else f i

/-- An index of the filled range. -/
lemma fill_in {f : Nat → Bool} {lo n i b} (h1 : lo ≤ i) (h2 : i < lo + n) : fill f lo n b i = b := by
  simp [fill, h1, h2]

/-- An index outside the filled range. -/
lemma fill_out {f : Nat → Bool} {lo n i b} (h : i < lo ∨ lo + n ≤ i) : fill f lo n b i = f i := by
  have h' : ¬ (lo ≤ i ∧ i < lo + n) := by omega
  simp [fill, h']

/-- An empty range changes nothing. -/
@[simp] lemma fill_zero (f : Nat → Bool) (lo b) : fill f lo 0 b = f := by
  funext i
  exact fill_out (by omega)

/-- Filling one bit and then the rest of the interval fills the interval. -/
lemma fill_succ (f : Nat → Bool) (lo n b) :
    fill (fun j => if j = lo then b else f j) (lo + 1) n b = fill f lo (n + 1) b := by
  funext i
  by_cases e : i = lo
  · subst e
    rw [fill_out (by omega), fill_in (by omega) (by omega)]
    simp
  · by_cases h : lo + 1 ≤ i ∧ i < lo + 1 + n
    · rw [fill_in h.1 h.2, fill_in (by omega) (by omega)]
    · rw [fill_out (by omega), fill_out (by omega)]
      simp [e]

/-- The number of clear bits below `n`. -/
def clearCount (f : Nat → Bool) (n : Nat) : Nat :=
  ((Finset.range n).filter (fun i => f i = false)).card

/-- Only the first `n` bits are counted. -/
lemma clearCount_congr {f g : Nat → Bool} {n} (h : ∀ i < n, f i = g i) :
    clearCount f n = clearCount g n := by
  unfold clearCount
  congr 1
  apply Finset.filter_congr
  intro i hi
  rw [h i (Finset.mem_range.mp hi)]

/-- The clear bits are those of `f` and, apart from them, the interval. -/
lemma clearCount_split {f : Nat → Bool} {lo k n} (hn : lo + k ≤ n) :
    clearCount (fill f lo k false) n = clearCount (fill f lo k true) n + k := by
  have hd : Disjoint ((Finset.range n).filter (fun i => fill f lo k true i = false))
      (Finset.Ico lo (lo + k)) := by
    rw [Finset.disjoint_left]
    intro i hi hk
    obtain ⟨h1, h2⟩ := Finset.mem_Ico.mp hk
    simp [fill_in h1 h2] at hi
  have hu : (Finset.range n).filter (fun i => fill f lo k false i = false) =
      (Finset.range n).filter (fun i => fill f lo k true i = false) ∪ Finset.Ico lo (lo + k) := by
    ext i
    simp only [Finset.mem_filter, Finset.mem_range, Finset.mem_union, Finset.mem_Ico]
    by_cases h : lo ≤ i ∧ i < lo + k
    · simp only [fill_in h.1 h.2, h, and_self, or_true, iff_true, and_true]
      omega
    · rw [fill_out (by omega), fill_out (by omega)]
      simp [h]
  unfold clearCount
  rw [hu, Finset.card_union_of_disjoint hd, Nat.card_Ico]
  omega

/-- Setting an interval of clear bits takes its length off the count. -/
lemma clearCount_fill_true {f : Nat → Bool} {lo k n} (hn : lo + k ≤ n)
    (hc : ∀ i, lo ≤ i → i < lo + k → f i = false) :
    clearCount (fill f lo k true) n + k = clearCount f n := by
  rw [← clearCount_split hn]
  apply clearCount_congr
  intro i _
  by_cases h : lo ≤ i ∧ i < lo + k
  · rw [fill_in h.1 h.2, hc i h.1 h.2]
  · exact fill_out (by omega)

/-- Clearing an interval of set bits adds its length to the count. -/
lemma clearCount_fill_false {f : Nat → Bool} {lo k n} (hn : lo + k ≤ n)
    (hs : ∀ i, lo ≤ i → i < lo + k → f i = true) :
    clearCount (fill f lo k false) n = clearCount f n + k := by
  rw [clearCount_split hn]
  congr 1
  apply clearCount_congr
  intro i _
  by_cases h : lo ≤ i ∧ i < lo + k
  · rw [fill_in h.1 h.2, hs i h.1 h.2]
  · exact fill_out (by omega)

/-- No more bits are clear than there are. -/
lemma clearCount_le (f : Nat → Bool) (n) : clearCount f n ≤ n := by
  unfold clearCount
  exact (Finset.card_filter_le _ _).trans (Finset.card_range n).le

/-- Where exactly the bits of some intervals are clear, and these do not overlap, the count is the sum
of their lengths. -/
lemma clearCount_intervals {f : Nat → Bool} {n} (rs : List (Nat × Nat))
    (inside : ∀ r ∈ rs, r.2 = 0 ∨ r.1 + r.2 ≤ n)
    (apart : rs.Pairwise fun a b => ∀ i, a.1 ≤ i → i < a.1 + a.2 → ¬ (b.1 ≤ i ∧ i < b.1 + b.2))
    (clear : ∀ i < n, f i = false ↔ ∃ r ∈ rs, r.1 ≤ i ∧ i < r.1 + r.2) :
    clearCount f n = (rs.map Prod.snd).sum := by
  induction rs generalizing f with
  | nil =>
    simp only [List.not_mem_nil, false_and, exists_false, iff_false] at clear
    simp only [clearCount, List.map_nil, List.sum_nil, Finset.card_eq_zero]
    exact Finset.filter_eq_empty_iff.mpr fun i hi => clear i (Finset.mem_range.mp hi)
  | cons r rs ih =>
    obtain ⟨hr, hrs⟩ := List.pairwise_cons.mp apart
    -- mark the first interval: the others are clear then, and clearing it again gives `f`
    have hrest : clearCount (fill f r.1 r.2 true) n = (rs.map Prod.snd).sum := by
      refine ih (fun r' h' => inside r' (by simp [h'])) hrs fun i hi => ?_
      by_cases hin : r.1 ≤ i ∧ i < r.1 + r.2
      · rw [fill_in hin.1 hin.2]
        simp only [Bool.true_eq_false, false_iff]
        rintro ⟨r', h', hi'⟩
        exact hr r' h' i hin.1 hin.2 hi'
      · rw [fill_out (by omega), clear i hi]
        simp [hin]
    rw [List.map_cons, List.sum_cons, ← hrest]
    obtain h0 | hle := inside r (by simp)
    · rw [h0, fill_zero]
      omega
    · rw [← clearCount_fill_true hle fun i h1 h2 => (clear i (by omega)).mpr ⟨r, by simp, h1, h2⟩]
      omega

end WivOS.Lib
