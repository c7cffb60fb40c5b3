import WivOS.Mem.PmmFit
import WivOS.Mem.Alloc

/-!
# Allocations that return `NULL`

What `pmm_alloc` and `kmalloc` leave behind if they return `NULL`. The pages at address 0 are filled with
zeros, as `pmm_alloc` clears what it gets before anyone tests it; and `NULL` is also the address of page 0,
which is marked then. Nothing is changed exactly if these writes write what was there (`alloc_null_iff`).
-/

namespace WivOS.Mem
open WivOS.Lib

/-- The bitmap, the number of free pages and all of physical memory are as they were. -/
structure Unchanged (p p' : Pmm RamBitmap) : Prop where
  bit : ∀ i, p'.bit i = p.bit i
  free : p'.pmmFreePages = p.pmmFreePages
  byte : ∀ x, p'.ram.byte x = p.ram.byte x

/-- The bytes that `pmm_alloc` clears. -/
def clearedBytes (n : Nat) : Nat := 0x1000 * n % 2 ^ 64

/-- A `NULL` from `pmm_alloc` does no harm: if the bytes to be cleared are in physical memory, they are zero
already if no pages are free; and so they are if page 0 is the one to be taken, while nothing is counted and
the marks are cleared with them. -/
structure NullHarmless (p : Pmm RamBitmap) (n : Nat) : Prop where
  exhausted : clearedBytes n ≤ p.ram.size → (∀ j < p.pmmLength, Blocked p.pmmBitmap j n) →
    ∀ x < clearedBytes n, p.ram.byte x = 0
  first : clearedBytes n ≤ p.ram.size → 0 < p.pmmLength → Clear p.pmmBitmap 0 n →
    p.pmmFreePages = 0 ∧ (∀ x < clearedBytes n, p.ram.byte x = 0) ∧
      ∀ i < n, p.pmmBitmap.base + i / 8 < clearedBytes n

section Null
variable {p p' q : Pmm RamBitmap} {n : Nat}

/-- Memory that is as it was holds the bits that it held. -/
lemma Unchanged.of_byte (base : p'.pmmBitmap.base = p.pmmBitmap.base)
    (free : p'.pmmFreePages = p.pmmFreePages) (byte : ∀ x, p'.ram.byte x = p.ram.byte x) :
    Unchanged p p' := by
  refine ⟨?_, free, byte⟩
  intro i
  show (p'.ram.byte (p'.pmmBitmap.base + i / 8)).getLsbD (i % 8) =
    (p.ram.byte (p.pmmBitmap.base + i / 8)).getLsbD (i % 8)
  rw [base, byte]

/-- With no pages free nothing is taken. -/
lemma pmmAllocAdvanced_of_blocked (pos : 1 ≤ n) (blocked : ∀ j < p.pmmLength, Blocked p.pmmBitmap j n) :
    pmmAllocAdvanced p n 1 = some (0, p) := by
  have reads : ScanReads p n 1 := by
    intro j lt _ _
    obtain ⟨k, from_, lt', inside, set, -⟩ := blocked j lt
    exact .inr ⟨k, from_, lt', inside, set⟩
  obtain ⟨⟨addr, q⟩, returns⟩ := reads.returns pos le_rfl (by decide)
  rcases pmmAllocAdvanced_cases pos (by decide) returns with ⟨i, fit, -⟩ | ⟨rfl, rfl, -⟩
  · exact absurd fit.clear (blocked i fit.lt).not_clear
  · exact returns

/-- A `NULL` comes from having no pages free, or from page 0. -/
lemma pmmAlloc_null_cases (pos : 1 ≤ n) (h : pmmAlloc p n = some (0, p')) :
    ∃ q m, pmmAllocAdvanced p n 1 = some (0, q) ∧ q.ram.memset 0 0 (clearedBytes n) = some m ∧
      p' = q.setRam m ∧ RamBitmap.Rewritten p.pmmBitmap q.pmmBitmap ∧
      ((q = p ∧ ∀ j < p.pmmLength, Blocked p.pmmBitmap j n) ∨
        (0 < p.pmmLength ∧ Clear p.pmmBitmap 0 n ∧ Taken p n 0 q)) := by
  simp only [pmmAlloc, Option.bind_eq_bind, Option.bind_eq_some_iff, Option.some.injEq,
    Prod.mk.injEq] at h
  obtain ⟨⟨a, q⟩, hq, s, hs, rfl, rfl⟩ := h
  obtain ⟨m, hm, rfl⟩ := Option.map_eq_some_iff.mp hs
  refine ⟨q, m, hq, hm, rfl, pmmAllocAdvanced_rewritten hq, ?_⟩
  rcases pmmAllocAdvanced_cases pos (by decide) hq with ⟨i, fit, zero, taken⟩ | ⟨-, rfl, blocked⟩
  · have first : i = 0 := by omega
    subst first
    exact .inr ⟨fit.lt, fit.clear, taken⟩
  · exact .inl ⟨rfl, fun j lt => blocked j lt (one_dvd _)⟩

/-- A `pmm_alloc` that found no range and whose `memset` at address 0 goes through. -/
lemma pmmAlloc_of_memset {m : Ram} (taken : pmmAllocAdvanced p n 1 = some (0, q))
    (cleared : q.ram.memset 0 0 (clearedBytes n) = some m) : pmmAlloc p n = some (0, q.setRam m) := by
  have store : PageStore.memset q.pmmBitmap 0 0 (0x1000 * n % 2 ^ 64) =
      some { q.pmmBitmap with ram := m } := congrArg (Option.map _) cleared
  simp only [pmmAlloc, taken, store, Option.bind_eq_bind, Option.bind_some]
  rfl

/-- The bytes behind those that are cleared. -/
lemma memset_byte_of_le {m m' : Ram} {count x : Nat} (h : m.memset 0 0 count = some m') (le : count ≤ x) :
    m'.byte x = m.byte x :=
  (Ram.memset_keeps h).byte x (by omega)

/-- A `memset` at address 0 inside the memory goes through. -/
lemma memset_isSome {m : Ram} {count : Nat} (le : count ≤ m.size) : ∃ m', m.memset 0 0 count = some m' :=
  ⟨_, if_pos (.inr (by omega))⟩

/-- Pages that are counted are missing afterwards. -/
lemma takePages_eq_iff {free : Nat} (pos : 1 ≤ n) (small : n < 2 ^ 64) :
    takePages free n = free ↔ free = 0 := by
  unfold takePages
  split <;> omega

/-- A `NULL` from `pmm_alloc` changes nothing if and only if it is harmless. -/
lemma pmmAlloc_null_iff (pos : 1 ≤ n) (small : n < 2 ^ 64) :
    (∀ p', pmmAlloc p n = some (0, p') → Unchanged p p') ↔ NullHarmless p n := by
  constructor
  · intro keeps
    refine ⟨?_, ?_⟩
    · -- no run is clear: the call marks nothing and still clears the first bytes
      intro inside blocked x lt
      obtain ⟨m, hm⟩ := memset_isSome inside
      have same := keeps _ (pmmAlloc_of_memset (pmmAllocAdvanced_of_blocked pos blocked) hm)
      rw [← same.byte x]
      exact Ram.memset_byte hm (Nat.zero_le x) (by omega)
    · intro inside some_ clear
      -- page 0 begins the first clear run, so its address is the null pointer
      have fit : FirstFit p n 1 0 := ⟨one_dvd _, some_, clear, fun j lt => by omega⟩
      obtain ⟨q, taken, q_eq⟩ := pmmAllocAdvanced_of_fit pos le_rfl (by decide) fit
      have rewritten := pmmAllocAdvanced_rewritten taken
      obtain ⟨m, hm⟩ := memset_isSome (m := q.ram) (inside.trans rewritten.size.ge)
      have same := keeps _ (pmmAlloc_of_memset taken hm)
      refine ⟨?_, ?_, ?_⟩
      · exact (takePages_eq_iff pos small).mp (q_eq.free.symm.trans same.free)
      · intro x lt
        rw [← same.byte x]
        exact Ram.memset_byte hm (Nat.zero_le x) (by omega)
      · -- a mark that is not cleared again is there
        intro i lt
        by_contra outside
        have byte : m.byte (q.pmmBitmap.base + i / 8) = q.ram.byte (q.pmmBitmap.base + i / 8) :=
          memset_byte_of_le hm (by rw [rewritten.base]; omega)
        have mark : (q.setRam m).bit i = q.bit i := congrArg (BitVec.getLsbD · (i % 8)) byte
        have set : q.bit i = true := by
          show BitStore.bit q.pmmBitmap i = true
          rw [q_eq.bit, fill_in (by omega) (by omega)]
        have unset : p.bit i = false := (clear i (Nat.zero_le i) (by omega)).2
        rw [← same.bit i, mark, set] at unset
        cases unset
  · intro harmless p' h
    obtain ⟨q, m, -, hm, rfl, rewritten, ⟨rfl, blocked⟩ | ⟨some_, clear, taken⟩⟩ := pmmAlloc_null_cases pos h
    · refine .of_byte rfl rfl ?_
      intro x
      by_cases lt : x < clearedBytes n
      · have inside := Ram.memset_end_le hm (by omega)
        rw [harmless.exhausted (by omega) blocked x lt]
        exact Ram.memset_byte hm (Nat.zero_le x) (by omega)
      · exact memset_byte_of_le hm (by omega)
    · have inside : clearedBytes n ≤ p.ram.size := by
        by_cases zero : clearedBytes n = 0
        · omega
        · have := Ram.memset_end_le hm zero
          have size : q.ram.size = p.ram.size := rewritten.size
          omega
      obtain ⟨uncounted, zeros, marks⟩ := harmless.first inside some_ clear
      refine .of_byte rewritten.base ?_ ?_
      · exact taken.free.trans ((takePages_eq_iff pos small).mpr uncounted)
      · intro x
        by_cases lt : x < clearedBytes n
        · rw [zeros x lt]
          exact Ram.memset_byte hm (Nat.zero_le x) (by omega)
        · refine (memset_byte_of_le hm (by omega)).trans ?_
          by_cases below : x < p.pmmBitmap.base
          · exact rewritten.below x below
          · refine RamBitmap.byte_eq_of_bit rewritten.base (by omega) ?_
            intro i same
            rw [taken.bit, fill_out]
            by_contra marked
            have := marks i (by omega)
            omega

/-- `kmalloc` returns `NULL` if and only if its `pmm_alloc` does, and then it does nothing more. -/
lemma kmalloc_null_iff {size : Nat} (direct : p.memPhysOffset + p.ram.size ≤ 2 ^ 64 - 0x1000) :
    kmalloc p size = some (0, p') ↔ pmmAlloc p (pageCount size + 1) = some (0, p') := by
  constructor
  · intro h
    simp only [kmalloc, Option.bind_eq_bind, Option.bind_eq_some_iff] at h
    obtain ⟨⟨a, q⟩, hq, h⟩ := h
    by_cases null : a = 0
    · subst null
      rw [if_pos rfl] at h
      cases h
      exact hq
    · -- the pointer behind the header does not wrap
      rw [if_neg null] at h
      obtain ⟨i, r, m, rfl, fit, taken, rewritten, hm, rfl⟩ := pmmAlloc_placed (by omega) hq null
      have offset : r.memPhysOffset = p.memPhysOffset := taken.offset
      have size_eq : m.size = p.ram.size := (Ram.memset_keeps hm).size.trans rewritten.size
      have small := p.pmmLength_lt
      have lt := fit.lt
      simp only [Option.bind_eq_some_iff, Option.some.injEq, Prod.mk.injEq] at h
      obtain ⟨s, hs, -, -, zero, -⟩ := h
      obtain ⟨m', stored, -⟩ := Option.map_eq_some_iff.mp hs
      have header : (r.setRam m).memPhysOffset = p.memPhysOffset := offset
      have inside : (r.setRam m).phys ((0x1000 * i + (r.setRam m).memPhysOffset) % 2 ^ 64) + 8 ≤ m.size := by
        simp only [Ram.store64, Option.ite_none_right_eq_some] at stored
        exact stored.1
      rw [Pmm.phys, header] at inside
      rw [header] at zero
      omega
  · intro h
    simp only [kmalloc, h, Option.bind_eq_bind, Option.bind_some, if_true]

end Null

/-- The pages of a 64-bit size. -/
lemma pageCount_le {size : Nat} (h : size < 2 ^ 64) : pageCount size ≤ 2 ^ 52 := by
  unfold pageCount
  split <;> omega

/-- For every state of the allocator and every request: if `pmm_alloc` or `kmalloc` returns `NULL`, the
bitmap, the number of free pages and all of memory are as they were, if and only if that is harmless for
the pages asked for. -/
theorem alloc_null_iff (p : Pmm RamBitmap) (direct : p.memPhysOffset + p.ram.size ≤ 2 ^ 64 - 0x1000) :
    (∀ count, 1 ≤ count → count < 2 ^ 64 →
        ((∀ p', pmmAlloc p count = some (0, p') → Unchanged p p') ↔ NullHarmless p count)) ∧
      ∀ size < 2 ^ 64, ((∀ p', kmalloc p size = some (0, p') → Unchanged p p') ↔
        NullHarmless p (pageCount size + 1)) := by
  refine ⟨?_, ?_⟩
  · intro count pos small
    exact pmmAlloc_null_iff pos small
  · intro size small
    have few := pageCount_le small
    simp only [kmalloc_null_iff direct]
    exact pmmAlloc_null_iff (by omega) (by omega)

/-- Two pages, both in use; the second one holds the bitmap, and the first one a byte. -/
def exhausted : Pmm RamBitmap where
  pmmBitmap := ⟨⟨0x2000, fun x => if x = 0 then 7 else 0xFF, by decide⟩, 0x1000⟩
  pmmLength := 2
  pmmFreePages := 0
  memPhysOffset := 0xFFFF800000000000
  pmmLength_lt := by decide

/-- A bitmap without a clear bit, and a `kmalloc` of no bytes. -/
theorem alloc_null_iff_exhausted :
    ((∀ p', kmalloc exhausted 0 = some (0, p') → Unchanged exhausted p') ↔
      NullHarmless exhausted (pageCount 0 + 1)) :=
  (alloc_null_iff exhausted (by decide)).2 0 (by decide)

/-- With no page free `pmm_alloc` and `kmalloc` clear page 0. -/
theorem alloc_null_clears_page :
    ∃ p', pmmAlloc exhausted 1 = some (0, p') ∧ kmalloc exhausted 0 = some (0, p') ∧
      exhausted.ram.byte 0 = 7 ∧ p'.ram.byte 0 = 0 ∧ ¬ Unchanged exhausted p' := by
  have outcome : ∃ p', pmmAlloc exhausted 1 = some (0, p') ∧ kmalloc exhausted 0 = some (0, p') ∧
      exhausted.ram.byte 0 = 7 ∧ p'.ram.byte 0 = 0 := ⟨_, rfl, rfl, rfl, rfl⟩
  obtain ⟨p', first, second, before, after⟩ := outcome
  refine ⟨p', first, second, before, after, ?_⟩
  intro same
  have byte := same.byte 0
  rw [before, after] at byte
  cases byte

end WivOS.Mem
