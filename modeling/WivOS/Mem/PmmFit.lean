import WivOS.Mem.Bitmap

/-!
# Aligned first fit

`pmm_alloc_advanced` as a first fit: it takes the least multiple of the alignment at which there are enough
clear bits, and nothing if there is none (`FirstFits`). It does so exactly if its reading does not run off
the memory behind the bitmap (`pmm_first_fit_iff`), as no end of the range is compared with `PmmLength`.
-/

namespace WivOS.Mem
open WivOS.Lib

section Fit
variable {σ : Type} [PageStore σ]

/-- A range that can be taken: it begins at a multiple of the alignment below `PmmLength`, and all its bits
are clear. -/
structure AlignedFit (p : Pmm σ) (count alignment i : Nat) : Prop where
  dvd : alignment ∣ i
  lt : i < p.pmmLength
  clear : Clear p.pmmBitmap i count

/-- The call takes the first range that can be taken, or leaves everything if there is none. -/
def FirstFits (p : Pmm σ) (count alignment : Nat) : Prop :=
  ∃ addr p', pmmAllocAdvanced p count alignment = some (addr, p') ∧
    ((∃ i, AlignedFit p count alignment i ∧ (∀ j < i, ¬ AlignedFit p count alignment j) ∧
        addr = i * 0x1000 ∧ BitStore.bit p'.pmmBitmap = fill (BitStore.bit p.pmmBitmap) i count true) ∨
      (∀ i, ¬ AlignedFit p count alignment i) ∧ addr = 0 ∧ p' = p)

/-- The scan stays in memory: from each index that it comes to, the bits can be read, or one of those that
can be read is set. -/
def ScanReads (p : Pmm σ) (count alignment : Nat) : Prop :=
  ∀ j < p.pmmLength, alignment ∣ j → (∀ i < j, ¬ AlignedFit p count alignment i) →
    j + count ≤ BitStore.span p.pmmBitmap ∨
      ∃ k, j ≤ k ∧ k < j + count ∧ k < BitStore.span p.pmmBitmap ∧ BitStore.bit p.pmmBitmap k = true

/-- A set bit that can be read ends the reading. -/
lemma Blocked.of_set {s : σ} {lo n k : Nat} (from_ : lo ≤ k) (lt : k < lo + n) (inside : k < BitStore.span s)
    (set : BitStore.bit s k = true) : Blocked s lo n := by
  induction k using Nat.strong_induction_on with
  | _ k ih =>
    by_cases earlier : ∃ j, lo ≤ j ∧ j < k ∧ BitStore.bit s j = true
    · obtain ⟨j, from_', lt', set'⟩ := earlier
      exact ih j lt' from_' (by omega) (by omega) set'
    · refine ⟨k, from_, lt, inside, set, ?_⟩
      intro j from_' lt'
      by_contra set'
      exact earlier ⟨j, from_', lt', by simpa using set'⟩

/-- Bits that can all be read are clear, or one of them ends the reading. -/
lemma clear_or_blocked {s : σ} {lo n : Nat} (inside : lo + n ≤ BitStore.span s) :
    Clear s lo n ∨ Blocked s lo n := by
  by_cases set : ∃ k, lo ≤ k ∧ k < lo + n ∧ BitStore.bit s k = true
  · obtain ⟨k, from_, lt, set⟩ := set
    exact .inr (.of_set from_ lt (by omega) set)
  · refine .inl fun k from_ lt => ⟨by omega, ?_⟩
    by_contra set'
    exact set ⟨k, from_, lt, by simpa using set'⟩

/-- The reading does not return only if it runs off the memory. -/
lemma isBitmapPageFree_ne_none {s : σ} {lo n : Nat} (read : Clear s lo n ∨ Blocked s lo n) :
    isBitmapPageFree s lo n ≠ none := by
  rcases read with clear | blocked
  · rw [isBitmapPageFree_eq_true.mpr clear]
    simp
  · rw [isBitmapPageFree_eq_false.mpr blocked]
    simp

variable {p : Pmm σ} {count alignment : Nat}

/-- A range that is blocked is none that can be taken. -/
lemma Blocked.not_fit {j : Nat} (blocked : Blocked p.pmmBitmap j count) : ¬ AlignedFit p count alignment j :=
  fun fit => blocked.not_clear fit.clear

/-- A scan that stays in memory returns. -/
lemma ScanReads.returns (pos : 1 ≤ count) (step : 1 ≤ alignment) (small : alignment < 2 ^ 64)
    (reads : ScanReads p count alignment) : ∃ r, pmmAllocAdvanced p count alignment = some r := by
  rcases scan : allocScan p count alignment (p.pmmLength + 1) 0 with _ | _ | i
  · obtain ⟨j, -, lt, dvd, before, none⟩ := allocScan_none step small (dvd_zero _) (by omega) (by omega) scan
    have earlier : ∀ i < j, ¬ AlignedFit p count alignment i := by
      intro i lt' fit
      exact (before i (Nat.zero_le i) lt' fit.dvd).not_fit fit
    refine absurd none (isBitmapPageFree_ne_none ?_)
    rcases reads j lt dvd earlier with inside | ⟨k, from_, lt', inside, set⟩
    · exact clear_or_blocked inside
    · exact .inr (.of_set from_ lt' inside set)
  · exact ⟨_, by rw [pmmAllocAdvanced, scan]; rfl⟩
  · obtain ⟨-, -, lt, clear, -⟩ := allocScan_found small (dvd_zero _) scan
    have inside := clear.end_le pos
    have span := PageStore.span_le p.pmmBitmap
    have whole : (count + i) % 2 ^ 64 - i = count := by omega
    obtain ⟨s, set⟩ := Option.isSome_iff_exists.mp (setBits_isSome (.inr inside))
    exact ⟨_, by rw [pmmAllocAdvanced, scan]; simp only [Option.bind_eq_bind, Option.bind_some, whole, set]; rfl⟩

/-- A call that returns has found the first fit, or that there is none. -/
lemma firstFits_of_returns (pos : 1 ≤ count) (small : alignment < 2 ^ 64) {addr : Nat} {p' : Pmm σ}
    (returns : pmmAllocAdvanced p count alignment = some (addr, p')) : FirstFits p count alignment := by
  refine ⟨addr, p', returns, ?_⟩
  rcases pmmAllocAdvanced_cases pos small returns with ⟨i, fit, rfl, taken⟩ | ⟨rfl, rfl, blocked⟩
  · refine .inl ⟨i, ⟨fit.dvd, fit.lt, fit.clear⟩, ?_, rfl, taken.bit⟩
    intro j lt fit'
    exact (fit.first j lt fit'.dvd).not_fit fit'
  · exact .inr ⟨fun i fit => (blocked i fit.lt fit.dvd).not_fit fit, rfl, rfl⟩

/-- A call that returns has stayed in memory. -/
lemma scanReads_of_returns (pos : 1 ≤ count) (small : alignment < 2 ^ 64) {addr : Nat} {p' : Pmm σ}
    (returns : pmmAllocAdvanced p count alignment = some (addr, p')) : ScanReads p count alignment := by
  have blocks : ∀ j, Blocked p.pmmBitmap j count → ∃ k, j ≤ k ∧ k < j + count ∧
      k < BitStore.span p.pmmBitmap ∧ BitStore.bit p.pmmBitmap k = true := by
    rintro j ⟨k, from_, lt, inside, set, -⟩
    exact ⟨k, from_, lt, inside, set⟩
  intro j lt dvd earlier
  rcases pmmAllocAdvanced_cases pos small returns with ⟨i, fit, -, -⟩ | ⟨-, -, blocked⟩
  · rcases Nat.lt_trichotomy j i with before | rfl | after
    · exact .inr (blocks j (fit.first j before dvd))
    · exact .inl (fit.clear.end_le pos)
    · exact absurd ⟨fit.dvd, fit.lt, fit.clear⟩ (earlier i after)
  · exact .inr (blocks j (blocked j lt dvd))

/-- For every bitmap, count and alignment: `pmm_alloc_advanced` returns and does aligned first fit if and
only if from each index that it comes to the bits can be read, or one of those that can be read is set. -/
theorem pmm_first_fit_iff (p : Pmm σ) (count alignment : Nat) (pos : 1 ≤ count) (step : 1 ≤ alignment)
    (small : alignment < 2 ^ 64) : FirstFits p count alignment ↔ ScanReads p count alignment := by
  constructor
  · rintro ⟨addr, p', returns, -⟩
    exact scanReads_of_returns pos small returns
  · intro reads
    obtain ⟨⟨addr, p'⟩, returns⟩ := reads.returns pos step small
    exact firstFits_of_returns pos small returns

end Fit

/-- The memory of the bitmap is in range. -/
lemma oneWord_le : 0x1004 ≤ 2 ^ 56 := by decide

/-- So is its length. -/
lemma eight_lt : 8 < 2 ^ 52 := by decide

/-- Eight pages, all of them free, with the bitmap in the last word of memory. -/
def eightFree : Pmm RamBitmap where
  pmmBitmap := ⟨⟨0x1004, fun _ => 0, oneWord_le⟩, 0x1000⟩
  pmmLength := 8
  pmmFreePages := 8
  memPhysOffset := 0xFFFF800000000000
  pmmLength_lt := eight_lt

/-- Three pages at an even index. -/
theorem pmm_first_fit_iff_eightFree : FirstFits eightFree 3 2 ↔ ScanReads eightFree 3 2 :=
  pmm_first_fit_iff eightFree 3 2 (by decide) (by decide) (by decide)

/-- A request for more pages than there are bits in memory: no range of them is clear, and the call reads
off the memory instead of returning `NULL`. -/
theorem pmm_scan_runs_off :
    (∀ i, ¬ AlignedFit eightFree 33 1 i) ∧ pmmAllocAdvanced eightFree 33 1 = none ∧
      ¬ FirstFits eightFree 33 1 := by
  have off : pmmAllocAdvanced eightFree 33 1 = none := by decide
  refine ⟨?_, off, ?_⟩
  · intro i fit
    have inside := fit.clear.end_le (by decide)
    have span : BitStore.span eightFree.pmmBitmap = 32 := rfl
    omega
  · rintro ⟨addr, p', returns, -⟩
    rw [off] at returns
    cases returns

end WivOS.Mem
