import WivOS.Lib.BitStore

/-!
# The physical page allocator

Model of `kernel/mem/pmm.c` (`PAGE_SIZE` is `0x1000`). The allocator reaches its bitmap only through
`test_bit`, `set_bit` and `reset_bit`, which `arch/*/defines.h` supply, and page contents only
through `memset`; it is generic here over a store with these operations (`PageStore`).

`size_t` and `uint64_t` values are `Nat`s and every sum that can pass `2 ^ 64` is reduced. A call that
does not return is `none`: it hangs (`while(1)`), loops forever or touches memory that is not there.
`PmmLock` is taken for the whole of a call, so a call is one step.

The second half gives each loop its specification: `isBitmapPageFree_eq_true`, `allocScan_found`,
`setBits_some`, `resetBits_some`, and from them `pmmAllocAdvanced_cases` and `pmmFree_some`.
-/

namespace WivOS.Mem
open WivOS.Lib

/-- What the allocator runs over: the bits of the bitmap, and the page contents that `memset` fills.
Physical memory is at most 56 bits of address, so far fewer than `2 ^ 63` bits can be reached. -/
class PageStore (σ : Type) extends BitStore σ where
  memset : σ → (addr : Nat) → (c : BitVec 8) → (n : Nat) → Option σ
  memset_span : ∀ {s a c n s'}, memset s a c n = some s' → span s' = span s
  span_le : ∀ s, span s ≤ 2 ^ 63

/-- The globals of `pmm.c`. `PmmLength` is only ever assigned a 64-bit number of bytes divided by
`PAGE_SIZE`. -/
structure Pmm (σ : Type) where
  pmmBitmap : σ
  pmmLength : Nat
  pmmFreePages : Nat
  memPhysOffset : Nat
  pmmLength_lt : pmmLength < 2 ^ 52

section Functions
variable {σ : Type} [PageStore σ]

/-- C `is_bitmap_page_free`. -/
def isBitmapPageFree (s : σ) : (index count : Nat) → Option Bool
  | _, 0 => some true
  | index, count + 1 => do
    let used ← BitStore.testBit s index
    if used then some false else isBitmapPageFree s ((index + 1) % 2 ^ 64) count

/-- The `while` loop of C `pmm_alloc_advanced` up to its `return`: the index of the free range, or
`none` where the loop ends at `PmmLength`. -/
def allocScan (p : Pmm σ) (count alignment : Nat) : (fuel index : Nat) → Option (Option Nat)
  | 0, _ => none
  | fuel + 1, index =>
    if index < p.pmmLength then do
      let free ← isBitmapPageFree p.pmmBitmap index count
      if free then some (some index)
      else allocScan p count alignment fuel ((index + alignment) % 2 ^ 64)
    else some none

/-- The marking loop of C `pmm_alloc_advanced`, over `n` bits from `i` on. -/
def setBits (s : σ) : (i n : Nat) → Option σ
  | _, 0 => some s
  | i, n + 1 => do
    let s ← BitStore.setBit s i
    setBits s (i + 1) n

/-- The loop of C `pmm_free`. -/
def resetBits (s : σ) : (index count : Nat) → Option σ
  | _, 0 => some s
  | index, count + 1 => do
    let s ← BitStore.resetBit s index
    resetBits s ((index + 1) % 2 ^ 64) count

/-- `if(PmmFreePages) PmmFreePages -= count`. -/
def takePages (free count : Nat) : Nat :=
  if free ≠ 0 then (free + 2 ^ 64 - count) % 2 ^ 64 else free

/-- C `pmm_alloc_advanced`: the address returned (`NULL` is `0`) and the new globals. With an
alignment of at least one the scan takes at most `PmmLength` turns. -/
def pmmAllocAdvanced (p : Pmm σ) (count alignment : Nat) : Option (Nat × Pmm σ) := do
  match ← allocScan p count alignment (p.pmmLength + 1) 0 with
  | none => some (0, p)
  | some index =>
    let free := takePages p.pmmFreePages count
    -- `for(i = index; i < (count + index); i++)`: the bound wraps like any `size_t` sum
    let bitmap ← setBits p.pmmBitmap index ((count + index) % 2 ^ 64 - index)
    some (index * 0x1000 % 2 ^ 64, { p with pmmBitmap := bitmap, pmmFreePages := free })

/-- C `pmm_alloc`: the pages are zeroed, also when the address is `NULL`. -/
def pmmAlloc (p : Pmm σ) (count : Nat) : Option (Nat × Pmm σ) := do
  let (addr, p) ← pmmAllocAdvanced p count 1
  let store ← PageStore.memset p.pmmBitmap addr 0 (0x1000 * count % 2 ^ 64)
  some (addr, { p with pmmBitmap := store })

/-- C `pmm_free`. -/
def pmmFree (p : Pmm σ) (addr count : Nat) : Option (Pmm σ) :=
  if p.memPhysOffset ≤ addr then none
  else do
    let bitmap ← resetBits p.pmmBitmap (addr / 0x1000) count
    some { p with pmmBitmap := bitmap, pmmFreePages := (p.pmmFreePages + count) % 2 ^ 64 }

end Functions

section Loops
variable {σ : Type} [PageStore σ]

/-- The bits `[lo, lo + n)` can be read and are clear. -/
def Clear (s : σ) (lo n : Nat) : Prop :=
  ∀ i, lo ≤ i → i < lo + n → i < BitStore.span s ∧ BitStore.bit s i = false

/-- Reading from `lo` on, a set bit comes before `n` bits are read. -/
def Blocked (s : σ) (lo n : Nat) : Prop :=
  ∃ i, lo ≤ i ∧ i < lo + n ∧ i < BitStore.span s ∧ BitStore.bit s i = true ∧
    ∀ j, lo ≤ j → j < i → BitStore.bit s j = false

/-- An empty range is clear. -/
lemma Clear.zero (s : σ) (lo) : Clear s lo 0 := fun i h1 h2 => by omega

/-- A range is clear if its first bit and the others are. -/
lemma clear_succ {s : σ} {lo n} :
    Clear s lo (n + 1) ↔
      (lo < BitStore.span s ∧ BitStore.bit s lo = false) ∧ Clear s (lo + 1) n := by
  constructor
  · intro h
    exact ⟨h lo le_rfl (by omega), fun i h1 h2 => h i (by omega) (by omega)⟩
  · rintro ⟨h0, h⟩ i h1 h2
    by_cases e : i = lo
    · subst e
      exact h0
    · exact h i (by omega) (by omega)

/-- A range whose first bit is clear is blocked by one of the others. -/
lemma blocked_succ {s : σ} {lo n} (h0 : BitStore.bit s lo = false) :
    Blocked s lo (n + 1) ↔ Blocked s (lo + 1) n := by
  constructor
  · rintro ⟨i, h1, h2, h3, h4, h5⟩
    have ne : i ≠ lo := by
      rintro rfl
      simp [h0] at h4
    exact ⟨i, by omega, by omega, h3, h4, fun j h6 h7 => h5 j (by omega) h7⟩
  · rintro ⟨i, h1, h2, h3, h4, h5⟩
    refine ⟨i, by omega, by omega, h3, h4, fun j h6 h7 => ?_⟩
    by_cases e : j = lo
    · rw [e, h0]
    · exact h5 j (by omega) h7

/-- A clear range can be read to its end. -/
lemma Clear.end_le {s : σ} {lo n} (h : Clear s lo n) (hn : 1 ≤ n) : lo + n ≤ BitStore.span s := by
  have := (h (lo + n - 1) (by omega) (by omega)).1
  omega

/-- A blocked range is not clear. -/
lemma Blocked.not_clear {s : σ} {lo n} (h : Blocked s lo n) : ¬ Clear s lo n := by
  obtain ⟨i, h1, h2, _, h4, _⟩ := h
  intro hc
  simp [(hc i h1 h2).2] at h4

/-- One turn of the reading loop inside the span. The index cannot wrap there. -/
lemma isBitmapPageFree_succ {s : σ} {index count} (h : index < BitStore.span s) :
    isBitmapPageFree s index (count + 1) =
      if BitStore.bit s index then some false else isBitmapPageFree s (index + 1) count := by
  have hw : (index + 1) % 2 ^ 64 = index + 1 := by
    have := PageStore.span_le s
    omega
  simp only [isBitmapPageFree, BitStore.testBit_eq, h, ↓reduceIte, Option.bind_eq_bind,
    Option.bind_some, hw]

/-- The test reads the first bit. -/
lemma isBitmapPageFree_out {s : σ} {index count} (h : BitStore.span s ≤ index) :
    isBitmapPageFree s index (count + 1) = none := by
  simp [isBitmapPageFree, BitStore.testBit_eq, Nat.not_lt.mpr h]

/-- C `is_bitmap_page_free` returns `true` exactly on a clear range. -/
lemma isBitmapPageFree_eq_true {s : σ} {index count} :
    isBitmapPageFree s index count = some true ↔ Clear s index count := by
  induction count generalizing index with
  | zero => simp [isBitmapPageFree, Clear.zero]
  | succ n ih =>
    rw [clear_succ]
    by_cases h : index < BitStore.span s
    · rw [isBitmapPageFree_succ h]
      cases hb : BitStore.bit s index with
      | true => simp
      | false => simp [ih, h]
    · simp [isBitmapPageFree_out (Nat.not_lt.mp h), h]

/-- C `is_bitmap_page_free` returns `false` exactly where a set bit ends the reading. -/
lemma isBitmapPageFree_eq_false {s : σ} {index count} :
    isBitmapPageFree s index count = some false ↔ Blocked s index count := by
  induction count generalizing index with
  | zero =>
    simp only [isBitmapPageFree, Option.some.injEq, Bool.true_eq_false, false_iff]
    rintro ⟨i, h1, h2, _⟩
    omega
  | succ n ih =>
    by_cases h : index < BitStore.span s
    · rw [isBitmapPageFree_succ h]
      cases hb : BitStore.bit s index with
      | true =>
        simp only [↓reduceIte, true_iff]
        exact ⟨index, le_rfl, by omega, h, hb, fun j h1 h2 => by omega⟩
      | false => simp [ih, blocked_succ hb]
    · rw [isBitmapPageFree_out (Nat.not_lt.mp h)]
      simp only [reduceCtorEq, false_iff]
      rintro ⟨i, h1, _, h3, _⟩
      omega

omit [PageStore σ] in
/-- From a multiple of the alignment below `PmmLength` the next index does not wrap. -/
lemma scan_next {p : Pmm σ} {alignment index} (hal : alignment < 2 ^ 64)
    (hi : index < p.pmmLength) (hd : alignment ∣ index) :
    (index + alignment) % 2 ^ 64 = index + alignment := by
  have hl := p.pmmLength_lt
  by_cases h0 : index = 0
  · subst h0
    omega
  · have := Nat.le_of_dvd (by omega) hd
    omega

/-- Between two consecutive multiples there is no third. -/
lemma eq_of_dvd_of_lt_add {d i j : Nat} (hi : d ∣ i) (hj : d ∣ j) (h1 : i ≤ j) (h2 : j < i + d) :
    j = i := by
  have hd : d ∣ j - i := (Nat.dvd_sub_iff_left h1 hi).mpr hj
  by_contra hne
  have := Nat.le_of_dvd (by omega) hd
  omega

/-- The scan stops at the first multiple of the alignment whose range is clear. -/
lemma allocScan_found {p : Pmm σ} {count alignment fuel index i} (hal : alignment < 2 ^ 64)
    (hd : alignment ∣ index) (h : allocScan p count alignment fuel index = some (some i)) :
    index ≤ i ∧ alignment ∣ i ∧ i < p.pmmLength ∧ Clear p.pmmBitmap i count ∧
      ∀ j, index ≤ j → j < i → alignment ∣ j → Blocked p.pmmBitmap j count := by
  induction fuel generalizing index with
  | zero => simp [allocScan] at h
  | succ fuel ih =>
    unfold allocScan at h
    split at h
    case isFalse => simp at h
    case isTrue hlt =>
      simp only [Option.bind_eq_bind, Option.bind_eq_some_iff] at h
      obtain ⟨free, hfree, h⟩ := h
      cases free with
      | true =>
        simp only [↓reduceIte, Option.some.injEq] at h
        subst h
        exact ⟨le_rfl, hd, hlt, isBitmapPageFree_eq_true.mp hfree, fun j h1 h2 => by omega⟩
      | false =>
        simp only [Bool.false_eq_true, ↓reduceIte, scan_next hal hlt hd] at h
        obtain ⟨h1, h2, h3, h4, h5⟩ := ih (Nat.dvd_add hd (dvd_refl _)) h
        refine ⟨by omega, h2, h3, h4, fun j h6 h7 h8 => ?_⟩
        by_cases e : index + alignment ≤ j
        · exact h5 j e h7 h8
        · rw [eq_of_dvd_of_lt_add hd h8 h6 (by omega)]
          exact isBitmapPageFree_eq_false.mp hfree

/-- Where the scan runs past `PmmLength`, every multiple of the alignment is blocked. -/
lemma allocScan_end {p : Pmm σ} {count alignment fuel index} (hal : alignment < 2 ^ 64)
    (hd : alignment ∣ index) (h : allocScan p count alignment fuel index = some none) :
    ∀ j, index ≤ j → j < p.pmmLength → alignment ∣ j → Blocked p.pmmBitmap j count := by
  induction fuel generalizing index with
  | zero => simp [allocScan] at h
  | succ fuel ih =>
    unfold allocScan at h
    split at h
    case isFalse hge => exact fun j h1 h2 => by omega
    case isTrue hlt =>
      simp only [Option.bind_eq_bind, Option.bind_eq_some_iff] at h
      obtain ⟨free, hfree, h⟩ := h
      cases free with
      | true => simp at h
      | false =>
        simp only [Bool.false_eq_true, ↓reduceIte, scan_next hal hlt hd] at h
        intro j h1 h2 h3
        by_cases e : index + alignment ≤ j
        · exact ih (Nat.dvd_add hd (dvd_refl _)) h j e h2 h3
        · rw [eq_of_dvd_of_lt_add hd h3 h1 (by omega)]
          exact isBitmapPageFree_eq_false.mp hfree

/-- The scan does not return only where it faults: with an alignment of at least one its turns
do not run out. -/
lemma allocScan_none {p : Pmm σ} {count alignment fuel index} (hal1 : 1 ≤ alignment)
    (hal : alignment < 2 ^ 64) (hd : alignment ∣ index) (h0 : 0 < fuel)
    (hf : p.pmmLength < fuel + index) (h : allocScan p count alignment fuel index = none) :
    ∃ j, index ≤ j ∧ j < p.pmmLength ∧ alignment ∣ j ∧
      (∀ k, index ≤ k → k < j → alignment ∣ k → Blocked p.pmmBitmap k count) ∧
      isBitmapPageFree p.pmmBitmap j count = none := by
  induction fuel generalizing index with
  | zero => omega
  | succ fuel ih =>
    unfold allocScan at h
    split at h
    case isFalse => simp at h
    case isTrue hlt =>
      rcases hfree : isBitmapPageFree p.pmmBitmap index count with _ | _ | _
      · exact ⟨index, le_rfl, hlt, hd, fun k h1 h2 => by omega, hfree⟩
      · simp only [hfree, Option.bind_eq_bind, Option.bind_some, Bool.false_eq_true, ↓reduceIte,
          scan_next hal hlt hd] at h
        obtain ⟨j, h1, h2, h3, h4, h5⟩ :=
          ih (Nat.dvd_add hd (dvd_refl _)) (by omega) (by omega) h
        refine ⟨j, by omega, h2, h3, fun k h6 h7 h8 => ?_, h5⟩
        by_cases e : index + alignment ≤ k
        · exact h4 k e h7 h8
        · rw [eq_of_dvd_of_lt_add hd h8 h6 (by omega)]
          exact isBitmapPageFree_eq_false.mp hfree
      · simp [hfree] at h

/-- The marking loop sets the bits of its interval and no other. -/
lemma setBits_some {s s' : σ} {i n} (h : setBits s i n = some s') :
    BitStore.span s' = BitStore.span s ∧ BitStore.bit s' = fill (BitStore.bit s) i n true := by
  induction n generalizing s i with
  | zero =>
    simp only [setBits, Option.some.injEq] at h
    subst h
    simp
  | succ n ih =>
    simp only [setBits, Option.bind_eq_bind, Option.bind_eq_some_iff] at h
    obtain ⟨t, ht, h⟩ := h
    obtain ⟨hs, hb⟩ := BitStore.setBit_some ht
    obtain ⟨hs', hb'⟩ := ih h
    refine ⟨hs'.trans hs, ?_⟩
    rw [hb', ← fill_succ]
    congr 1
    funext j
    exact hb j

/-- A range that can be read can be marked. -/
lemma setBits_isSome {s : σ} {i n} (h : n = 0 ∨ i + n ≤ BitStore.span s) :
    (setBits s i n).isSome := by
  induction n generalizing s i with
  | zero => rfl
  | succ n ih =>
    obtain ⟨t, ht⟩ := Option.isSome_iff_exists.mp ((BitStore.setBit_isSome s i).mpr (by omega))
    simp only [setBits, ht, Option.bind_eq_bind, Option.bind_some]
    apply ih
    rw [(BitStore.setBit_some ht).1]
    omega

/-- The freeing loop clears the bits of its interval and no other, and the interval lies inside the
store. -/
lemma resetBits_some {s s' : σ} {i n} (h : resetBits s i n = some s') :
    BitStore.span s' = BitStore.span s ∧ BitStore.bit s' = fill (BitStore.bit s) i n false ∧
      (n = 0 ∨ i + n ≤ BitStore.span s) := by
  induction n generalizing s i with
  | zero =>
    simp only [resetBits, Option.some.injEq] at h
    subst h
    simp
  | succ n ih =>
    simp only [resetBits, Option.bind_eq_bind, Option.bind_eq_some_iff] at h
    obtain ⟨t, ht, h⟩ := h
    have hi : i < BitStore.span s := (BitStore.resetBit_isSome s i).mp (by simp [ht])
    have hw : (i + 1) % 2 ^ 64 = i + 1 := by
      have := PageStore.span_le s
      omega
    rw [hw] at h
    obtain ⟨hs, hb⟩ := BitStore.resetBit_some ht
    obtain ⟨hs', hb', hn⟩ := ih h
    refine ⟨hs'.trans hs, ?_, by omega⟩
    rw [hb', ← fill_succ]
    congr 1
    funext j
    exact hb j

/-- And it can be cleared. -/
lemma resetBits_isSome {s : σ} {i n} (h : n = 0 ∨ i + n ≤ BitStore.span s) :
    (resetBits s i n).isSome := by
  induction n generalizing s i with
  | zero => rfl
  | succ n ih =>
    obtain ⟨t, ht⟩ := Option.isSome_iff_exists.mp ((BitStore.resetBit_isSome s i).mpr (by omega))
    have hw : (i + 1) % 2 ^ 64 = i + 1 := by
      have := PageStore.span_le s
      omega
    simp only [resetBits, ht, Option.bind_eq_bind, Option.bind_some, hw]
    apply ih
    rw [(BitStore.resetBit_some ht).1]
    omega

end Loops

section Calls
variable {σ : Type} [PageStore σ]

/-- What a successful scan at index `i` makes of the globals. -/
structure Taken (p : Pmm σ) (count i : Nat) (p' : Pmm σ) : Prop where
  bit : BitStore.bit p'.pmmBitmap = fill (BitStore.bit p.pmmBitmap) i count true
  span : BitStore.span p'.pmmBitmap = BitStore.span p.pmmBitmap
  length : p'.pmmLength = p.pmmLength
  free : p'.pmmFreePages = takePages p.pmmFreePages count
  offset : p'.memPhysOffset = p.memPhysOffset

/-- The index at which the aligned first fit of `count` pages is found. -/
structure FirstFit (p : Pmm σ) (count alignment i : Nat) : Prop where
  dvd : alignment ∣ i
  lt : i < p.pmmLength
  clear : Clear p.pmmBitmap i count
  first : ∀ j, j < i → alignment ∣ j → Blocked p.pmmBitmap j count

/-- There is one first fit. -/
lemma FirstFit.unique {p : Pmm σ} {count alignment i j} (hi : FirstFit p count alignment i)
    (hj : FirstFit p count alignment j) : i = j := by
  rcases Nat.lt_trichotomy i j with h | h | h
  · exact absurd hi.clear (hj.first i h hi.dvd).not_clear
  · exact h
  · exact absurd hj.clear (hi.first j h hj.dvd).not_clear

/-- C `pmm_alloc_advanced` either takes the first fit or, with every multiple of the alignment
blocked, changes nothing. -/
lemma pmmAllocAdvanced_cases {p p' : Pmm σ} {count alignment addr} (hc : 1 ≤ count)
    (hal : alignment < 2 ^ 64) (h : pmmAllocAdvanced p count alignment = some (addr, p')) :
    (∃ i, FirstFit p count alignment i ∧ addr = i * 0x1000 ∧ Taken p count i p') ∨
      (addr = 0 ∧ p' = p ∧
        ∀ j < p.pmmLength, alignment ∣ j → Blocked p.pmmBitmap j count) := by
  unfold pmmAllocAdvanced at h
  simp only [Option.bind_eq_bind, Option.bind_eq_some_iff] at h
  obtain ⟨_ | i, hscan, h⟩ := h
  · simp only [Option.some.injEq, Prod.mk.injEq] at h
    obtain ⟨rfl, rfl⟩ := h
    exact .inr ⟨rfl, rfl, fun j => allocScan_end hal (dvd_zero _) hscan j (Nat.zero_le j)⟩
  · obtain ⟨_, hd, hlt, hclear, hfirst⟩ := allocScan_found hal (dvd_zero _) hscan
    have hend := hclear.end_le hc
    have hspan := PageStore.span_le p.pmmBitmap
    have hlen := p.pmmLength_lt
    have hn : (count + i) % 2 ^ 64 - i = count := by omega
    have haddr : i * 0x1000 % 2 ^ 64 = i * 0x1000 := by omega
    simp only [hn, haddr, Option.bind_eq_some_iff, Option.some.injEq, Prod.mk.injEq] at h
    obtain ⟨bm, hbm, rfl, rfl⟩ := h
    obtain ⟨hs, hb⟩ := setBits_some hbm
    exact .inl ⟨i, ⟨hd, hlt, hclear, fun j => hfirst j (Nat.zero_le j)⟩, rfl,
      ⟨hb, hs, rfl, rfl, rfl⟩⟩

/-- Where there is a first fit, C `pmm_alloc_advanced` returns it. -/
lemma pmmAllocAdvanced_of_fit {p : Pmm σ} {count alignment i} (hc : 1 ≤ count)
    (hal1 : 1 ≤ alignment) (hal : alignment < 2 ^ 64) (fit : FirstFit p count alignment i) :
    ∃ p', pmmAllocAdvanced p count alignment = some (i * 0x1000, p') ∧ Taken p count i p' := by
  have hscan : allocScan p count alignment (p.pmmLength + 1) 0 ≠ none := by
    intro h
    obtain ⟨j, _, _, hd, hbefore, hnone⟩ :=
      allocScan_none hal1 hal (dvd_zero _) (by omega) (by omega) h
    rcases Nat.lt_trichotomy j i with hlt | rfl | hlt
    · rw [isBitmapPageFree_eq_false.mpr (fit.first j hlt hd)] at hnone
      contradiction
    · rw [isBitmapPageFree_eq_true.mpr fit.clear] at hnone
      contradiction
    · exact (hbefore i (Nat.zero_le i) hlt fit.dvd).not_clear fit.clear
  have hsome : (pmmAllocAdvanced p count alignment).isSome := by
    unfold pmmAllocAdvanced
    rcases h : allocScan p count alignment (p.pmmLength + 1) 0 with _ | _ | k
    · exact absurd h hscan
    · rfl
    · obtain ⟨_, _, hlt, hclear, _⟩ := allocScan_found hal (dvd_zero _) h
      have hend := hclear.end_le hc
      have hspan := PageStore.span_le p.pmmBitmap
      obtain ⟨s, hs⟩ := Option.isSome_iff_exists.mp (setBits_isSome (s := p.pmmBitmap) (i := k)
        (n := (count + k) % 2 ^ 64 - k) (.inr (by omega)))
      simp only [Option.bind_eq_bind, Option.bind_some, hs, Option.isSome_some]
  obtain ⟨⟨a, p'⟩, h⟩ := Option.isSome_iff_exists.mp hsome
  obtain ⟨k, fit', rfl, taken⟩ | ⟨_, _, all⟩ := pmmAllocAdvanced_cases hc hal h
  · cases fit.unique fit'
    exact ⟨p', h, taken⟩
  · exact absurd fit.clear (all i fit.lt fit.dvd).not_clear

/-- C `pmm_free` clears the bits of its pages and no other. -/
lemma pmmFree_some {p p' : Pmm σ} {addr count} (h : pmmFree p addr count = some p') :
    BitStore.bit p'.pmmBitmap = fill (BitStore.bit p.pmmBitmap) (addr / 0x1000) count false ∧
      BitStore.span p'.pmmBitmap = BitStore.span p.pmmBitmap ∧
      p'.pmmLength = p.pmmLength ∧
      p'.pmmFreePages = (p.pmmFreePages + count) % 2 ^ 64 ∧
      p'.memPhysOffset = p.memPhysOffset := by
  unfold pmmFree at h
  split at h
  · simp at h
  · simp only [Option.bind_eq_bind, Option.bind_eq_some_iff, Option.some.injEq] at h
    obtain ⟨bm, hbm, rfl⟩ := h
    obtain ⟨hs, hb, _⟩ := resetBits_some hbm
    exact ⟨hb, hs, rfl, rfl, rfl⟩

end Calls

end WivOS.Mem
