import WivOS.Mem.Bitmap

/-!
# Setting up the page allocator

Model of C `pmm_init` over the boot memory map and the physical memory it finds. The first loop picks
the entry that will hold the bitmap (`chooseRegion`), `memset` marks the pages below `PmmLength`, the
second loop frees the usable entries up to that one (`freeEntries`) and two `set_bit`s reserve the
pages of the SMP trampoline. The messages `pmm_init` prints are left out.

`pmmInit_bit` says of every bit what it is afterwards. Of the entry `E` at which the bitmap is placed,
`bitmapPages` are the pages rounded up that the second loop does not free.
-/

namespace WivOS.Mem
open WivOS.Lib

/-- The entry types of `boot/limine.h`; Limine may report others. -/
inductive MemmapType where
  | usable
  | reserved
  | acpiReclaimable
  | acpiNvs
  | badMemory
  | bootloaderReclaimable
  | kernelAndModules
  | framebuffer
  | unknown (code : Nat)
  deriving DecidableEq

/-- C `limine_memmap_entry_t`. -/
structure MemmapEntry where
  base : Nat
  length : Nat
  type : MemmapType
  deriving DecidableEq

/-- What the first loop of `pmm_init` keeps: `PmmBitmap` (`NULL` is `0`), `PmmLength`, `maxBase`. -/
structure Region where
  pmmBitmap : Nat
  pmmLength : Nat
  maxBase : Nat
  pmmLength_lt : pmmLength < 2 ^ 52

/-- `(entry->base + entry->length + PAGE_SIZE - 1) / PAGE_SIZE`. -/
def newLength (e : MemmapEntry) : Nat := (e.base + e.length + 0x1000 - 1) % 2 ^ 64 / 0x1000

/-- The body of the first loop. -/
def chooseEntry (r : Region) (e : MemmapEntry) : Region :=
  if e.type = .usable ∧ r.pmmBitmap < e.base then
    if newLength e < e.length then
      ⟨e.base, newLength e, e.base, by unfold newLength; omega⟩
    else r
  else r

/-- The first loop of `pmm_init`. -/
def chooseRegion (entries : List MemmapEntry) : Region :=
  entries.foldl chooseEntry ⟨0, 0, 0, by decide⟩

/-- The body of the second loop: the entry that holds the bitmap is freed past the bitmap. -/
def freeEntry (maxBase : Nat) (p : Pmm RamBitmap) (e : MemmapEntry) : Option (Pmm RamBitmap) :=
  if e.type = .usable ∧ e.base ≤ maxBase then
    if e.base = maxBase then
      pmmFree p
        ((e.base + (p.pmmLength / 8 + 0x1000 - 1) / 0x1000 * 0x1000) % 2 ^ 64)
        ((e.length / 0x1000 + 2 ^ 64 - p.pmmLength / 8 / 0x1000) % 2 ^ 64)
    else pmmFree p e.base (e.length / 0x1000)
  else some p

/-- The second loop of `pmm_init`. -/
def freeEntries (maxBase : Nat) : Pmm RamBitmap → List MemmapEntry → Option (Pmm RamBitmap)
  | p, [] => some p
  | p, e :: es => do
    let p ← freeEntry maxBase p e
    freeEntries maxBase p es

/-- `set_bit(PmmBitmap, i)`. -/
def reservePage (p : Pmm RamBitmap) (i : Nat) : Option (Pmm RamBitmap) := do
  let bitmap ← BitStore.setBit p.pmmBitmap i
  some { p with pmmBitmap := bitmap }

/-- C `pmm_init`, run on the memory `ram` with the direct map at `hhdm`. -/
def pmmInit (hhdm : Nat) (entries : List MemmapEntry) (ram : Ram) : Option (Pmm RamBitmap) :=
  let r := chooseRegion entries
  if r.pmmBitmap = 0 then none
  else do
    let bitmap ← PageStore.memset (RamBitmap.mk ram r.pmmBitmap) r.pmmBitmap 0xFF (r.pmmLength / 8)
    let p ← freeEntries r.maxBase ⟨bitmap, r.pmmLength, 0, hhdm, r.pmmLength_lt⟩ entries
    let p ← reservePage p (0x1000 / 0x1000)
    reservePage p (0x2000 / 0x1000)

/-- What Limine guarantees of a memory map: entries are sorted and do not overlap, and usable ones are
page aligned in base and length. An entry ends at a 64-bit address. -/
structure WellFormed (entries : List MemmapEntry) : Prop where
  sorted : entries.Pairwise fun a b => a.base + a.length ≤ b.base
  base_aligned : ∀ e ∈ entries, e.type = .usable → e.base % 0x1000 = 0
  length_aligned : ∀ e ∈ entries, e.type = .usable → e.length % 0x1000 = 0
  end_lt : ∀ e ∈ entries, e.base + e.length < 2 ^ 64

/-- Two entries that are not ordered one after the other are the same. -/
lemma WellFormed.ordered {entries : List MemmapEntry} (wf : WellFormed entries) {a b}
    (ha : a ∈ entries) (hb : b ∈ entries) :
    a = b ∨ a.base + a.length ≤ b.base ∨ b.base + b.length ≤ a.base := by
  by_cases e : a = b
  · exact .inl e
  · right
    obtain ⟨i, hi, rfl⟩ := List.mem_iff_getElem.mp ha
    obtain ⟨j, hj, rfl⟩ := List.mem_iff_getElem.mp hb
    have hw := List.pairwise_iff_getElem.mp wf.sorted
    rcases Nat.lt_trichotomy i j with h | h | h
    · exact .inl (hw i j hi hj h)
    · subst h
      exact absurd rfl e
    · exact .inr (hw j i hj hi h)

/-- The region is that of a usable entry that is longer in bytes than it ends in pages. -/
def Region.IsOf (r : Region) (e : MemmapEntry) : Prop :=
  e.type = .usable ∧ newLength e < e.length ∧
    r.pmmBitmap = e.base ∧ r.maxBase = e.base ∧ r.pmmLength = newLength e

/-- The choice is `NULL` or one of the entries. -/
lemma chooseEntry_isOf {entries : List MemmapEntry} {r e} (he : e ∈ entries)
    (hr : r.pmmBitmap = 0 ∨ ∃ e' ∈ entries, r.IsOf e') :
    (chooseEntry r e).pmmBitmap = 0 ∨ ∃ e' ∈ entries, (chooseEntry r e).IsOf e' := by
  unfold chooseEntry
  split_ifs with h1 h2
  · exact .inr ⟨e, he, h1.1, h2, rfl, rfl, rfl⟩
  · exact hr
  · exact hr

/-- The first loop ends with nothing chosen or with the region of an entry. -/
lemma chooseRegion_isOf (entries : List MemmapEntry) :
    (chooseRegion entries).pmmBitmap = 0 ∨ ∃ e ∈ entries, (chooseRegion entries).IsOf e := by
  suffices h : ∀ (es : List MemmapEntry) (r : Region),
      (r.pmmBitmap = 0 ∨ ∃ e ∈ entries, r.IsOf e) → (∀ e ∈ es, e ∈ entries) →
      (es.foldl chooseEntry r).pmmBitmap = 0 ∨ ∃ e ∈ entries, (es.foldl chooseEntry r).IsOf e from
    h entries _ (.inl rfl) fun e he => he
  intro es
  induction es with
  | nil => exact fun r hr _ => hr
  | cons e es ih =>
    intro r hr hes
    exact ih _ (chooseEntry_isOf (hes e (by simp)) hr) fun e' he' => hes e' (by simp [he'])

/-- The pages `[lo, lo + n)` that the second loop frees for an entry. -/
def freedPages (maxBase length : Nat) (e : MemmapEntry) : Nat × Nat :=
  if e.base = maxBase then
    ((e.base + (length / 8 + 0x1000 - 1) / 0x1000 * 0x1000) % 2 ^ 64 / 0x1000,
      (e.length / 0x1000 + 2 ^ 64 - length / 8 / 0x1000) % 2 ^ 64)
  else (e.base / 0x1000, e.length / 0x1000)

/-- Page `i` is freed for entry `e`. -/
def FreedFor (maxBase length : Nat) (e : MemmapEntry) (i : Nat) : Prop :=
  e.type = .usable ∧ e.base ≤ maxBase ∧
    (freedPages maxBase length e).1 ≤ i ∧
    i < (freedPages maxBase length e).1 + (freedPages maxBase length e).2

/-- What freeing does not change. -/
structure SameSetup (p p' : Pmm RamBitmap) : Prop where
  length : p'.pmmLength = p.pmmLength
  base : p'.pmmBitmap.base = p.pmmBitmap.base
  offset : p'.memPhysOffset = p.memPhysOffset

/-- `pmm_init` frees the pages of one entry by one `pmm_free`. -/
lemma freeEntry_eq {maxBase p e} : freeEntry maxBase p e =
    if e.type = .usable ∧ e.base ≤ maxBase then
      pmmFree p
        (if e.base = maxBase then
          (e.base + (p.pmmLength / 8 + 0x1000 - 1) / 0x1000 * 0x1000) % 2 ^ 64 else e.base)
        (freedPages maxBase p.pmmLength e).2
    else some p := by
  unfold freeEntry freedPages
  split_ifs <;> rfl

/-- Freeing an entry leaves the setup. -/
lemma freeEntry_same {maxBase p p' e} (h : freeEntry maxBase p e = some p') : SameSetup p p' := by
  rw [freeEntry_eq] at h
  split at h
  · obtain ⟨_, _, hl, _, ho⟩ := pmmFree_some h
    exact ⟨hl, (pmmFree_rewritten h).base, ho⟩
  · cases h
    exact ⟨rfl, rfl, rfl⟩

/-- It clears the bits of its pages and no other. -/
lemma freeEntry_bit {maxBase p p' e} (h : freeEntry maxBase p e = some p') (i : Nat) :
    (FreedFor maxBase p.pmmLength e i → BitStore.bit p'.pmmBitmap i = false) ∧
      (¬ FreedFor maxBase p.pmmLength e i →
        BitStore.bit p'.pmmBitmap i = BitStore.bit p.pmmBitmap i) := by
  rw [freeEntry_eq] at h
  split at h
  case isTrue hu =>
    obtain ⟨hb, _⟩ := pmmFree_some h
    have e1 : (if e.base = maxBase then
        (e.base + (p.pmmLength / 8 + 0x1000 - 1) / 0x1000 * 0x1000) % 2 ^ 64 else e.base) / 0x1000 =
        (freedPages maxBase p.pmmLength e).1 := by
      unfold freedPages
      split_ifs <;> rfl
    rw [hb, e1]
    constructor
    · rintro ⟨_, _, h1, h2⟩
      exact fill_in h1 h2
    · intro hn
      apply fill_out
      have : ¬ ((freedPages maxBase p.pmmLength e).1 ≤ i ∧
          i < (freedPages maxBase p.pmmLength e).1 + (freedPages maxBase p.pmmLength e).2) :=
        fun hr => hn ⟨hu.1, hu.2, hr⟩
      omega
  case isFalse hu =>
    cases h
    exact ⟨fun hf => absurd ⟨hf.1, hf.2.1⟩ hu, fun _ => rfl⟩

/-- The number of pages the second loop frees for an entry. -/
def freedCount (maxBase length : Nat) (e : MemmapEntry) : Nat :=
  if e.type = .usable ∧ e.base ≤ maxBase then (freedPages maxBase length e).2 else 0

/-- It adds its pages to the counter. -/
lemma freeEntry_free {maxBase p p' e} (h : freeEntry maxBase p e = some p') :
    p'.pmmFreePages % 2 ^ 64 = (p.pmmFreePages + freedCount maxBase p.pmmLength e) % 2 ^ 64 := by
  rw [freeEntry_eq] at h
  unfold freedCount
  split at h
  · rw [(pmmFree_some h).2.2.2.1, Nat.mod_mod, if_pos ‹_›]
  · cases h
    rw [if_neg ‹_›, Nat.add_zero]

/-- Freeing stays inside memory, so no page count has wrapped. -/
lemma freeEntry_fits {maxBase p p' e} (h : freeEntry maxBase p e = some p') (hu : e.type = .usable)
    (hb : e.base ≤ maxBase) : (freedPages maxBase p.pmmLength e).2 ≤ 2 ^ 63 := by
  rw [freeEntry_eq, if_pos ⟨hu, hb⟩] at h
  unfold pmmFree at h
  simp only [Option.ite_none_left_eq_some, Option.bind_eq_bind, Option.bind_eq_some_iff] at h
  obtain ⟨_, bm, hbm, _⟩ := h
  have hs := (resetBits_some hbm).2.2
  have := PageStore.span_le p.pmmBitmap
  omega

/-- Freeing the entries leaves the setup. -/
lemma freeEntries_same {maxBase p p' es} (h : freeEntries maxBase p es = some p') :
    SameSetup p p' := by
  induction es generalizing p with
  | nil =>
    cases h
    exact ⟨rfl, rfl, rfl⟩
  | cons e es ih =>
    simp only [freeEntries, Option.bind_eq_bind, Option.bind_eq_some_iff] at h
    obtain ⟨q, hq, h⟩ := h
    have h1 := freeEntry_same hq
    have h2 := ih h
    exact ⟨h2.length.trans h1.length, h2.base.trans h1.base, h2.offset.trans h1.offset⟩

/-- No number of pages that is freed has wrapped. -/
lemma freeEntries_fits {maxBase p p' es} (h : freeEntries maxBase p es = some p') :
    ∀ e ∈ es, e.type = .usable → e.base ≤ maxBase →
      (freedPages maxBase p.pmmLength e).2 ≤ 2 ^ 63 := by
  induction es generalizing p with
  | nil => simp
  | cons e es ih =>
    simp only [freeEntries, Option.bind_eq_bind, Option.bind_eq_some_iff] at h
    obtain ⟨q, hq, h⟩ := h
    intro e' he' hu hb
    obtain rfl | he' := List.mem_cons.mp he'
    · exact freeEntry_fits hq hu hb
    · rw [← (freeEntry_same hq).length]
      exact ih h e' he' hu hb

/-- The counter has the pages of all entries. -/
lemma freeEntries_free {maxBase p p' es} (h : freeEntries maxBase p es = some p') :
    p'.pmmFreePages % 2 ^ 64 =
      (p.pmmFreePages + (es.map (freedCount maxBase p.pmmLength)).sum) % 2 ^ 64 := by
  induction es generalizing p with
  | nil =>
    cases h
    simp
  | cons e es ih =>
    simp only [freeEntries, Option.bind_eq_bind, Option.bind_eq_some_iff] at h
    obtain ⟨q, hq, h⟩ := h
    rw [ih h, (freeEntry_same hq).length, List.map_cons, List.sum_cons, Nat.add_mod,
      freeEntry_free hq, ← Nat.add_mod, Nat.add_assoc]

/-- The counter is a 64-bit value. -/
lemma freeEntries_free_lt {maxBase p p' es} (h : freeEntries maxBase p es = some p')
    (hp : p.pmmFreePages < 2 ^ 64) : p'.pmmFreePages < 2 ^ 64 := by
  induction es generalizing p with
  | nil =>
    cases h
    exact hp
  | cons e es ih =>
    simp only [freeEntries, Option.bind_eq_bind, Option.bind_eq_some_iff] at h
    obtain ⟨q, hq, h⟩ := h
    refine ih h ?_
    rw [freeEntry_eq] at hq
    split at hq
    · rw [(pmmFree_some hq).2.2.2.1]
      exact Nat.mod_lt _ (by decide)
    · cases hq
      exact hp

/-- After the second loop a page freed for some entry has its bit clear, and the others keep
theirs. -/
lemma freeEntries_bit {maxBase p p' es} (h : freeEntries maxBase p es = some p') (i : Nat) :
    ((∃ e ∈ es, FreedFor maxBase p.pmmLength e i) → BitStore.bit p'.pmmBitmap i = false) ∧
      ((¬ ∃ e ∈ es, FreedFor maxBase p.pmmLength e i) →
        BitStore.bit p'.pmmBitmap i = BitStore.bit p.pmmBitmap i) := by
  induction es generalizing p with
  | nil =>
    cases h
    simp
  | cons e es ih =>
    simp only [freeEntries, Option.bind_eq_bind, Option.bind_eq_some_iff] at h
    obtain ⟨q, hq, h⟩ := h
    obtain ⟨hin, hout⟩ := freeEntry_bit hq i
    have hl := (freeEntry_same hq).length
    obtain ⟨ih1, ih2⟩ := ih h
    rw [hl] at ih1 ih2
    constructor
    · intro he
      by_cases hr : ∃ e ∈ es, FreedFor maxBase p.pmmLength e i
      · exact ih1 hr
      · rw [ih2 hr]
        apply hin
        obtain ⟨e', he', hf⟩ := he
        obtain rfl | he' := List.mem_cons.mp he'
        · exact hf
        · exact absurd ⟨e', he', hf⟩ hr
    · intro hn
      rw [ih2 fun ⟨e', he', hf⟩ => hn ⟨e', by simp [he'], hf⟩]
      exact hout fun hf => hn ⟨e, by simp, hf⟩

/-- A reserved page is marked, behind the counter's back. -/
lemma reservePage_some {p p' i} (h : reservePage p i = some p') :
    SameSetup p p' ∧ p'.pmmFreePages = p.pmmFreePages ∧
      ∀ j, BitStore.bit p'.pmmBitmap j = if j = i then true else BitStore.bit p.pmmBitmap j := by
  simp only [reservePage, Option.bind_eq_bind, Option.bind_eq_some_iff, Option.some.injEq] at h
  obtain ⟨bm, hbm, rfl⟩ := h
  obtain ⟨_, hb⟩ := BitStore.setBit_some hbm
  obtain ⟨w, _, rfl⟩ := Option.map_eq_some_iff.mp hbm
  exact ⟨⟨rfl, rfl, rfl⟩, rfl, hb⟩

/-- The bit of page `i` in the memory `pmm_init` finds, read at the place of the bitmap. -/
def priorBit (ram : Ram) (base i : Nat) : Bool := BitStore.bit (RamBitmap.mk ram base) i

/-- Page `i` is freed by the second loop of `pmm_init`. -/
def Freed (entries : List MemmapEntry) (E : MemmapEntry) (i : Nat) : Prop :=
  ∃ e ∈ entries, FreedFor E.base (newLength E) e i

/-- What `pmm_init` leaves behind with the bitmap placed at the entry `E`. -/
structure InitAt (entries : List MemmapEntry) (ram : Ram) (E : MemmapEntry) (s : Pmm RamBitmap) :
    Prop where
  mem : E ∈ entries
  usable : E.type = .usable
  long : newLength E < E.length
  base_ne : E.base ≠ 0
  length : s.pmmLength = newLength E
  base : s.pmmBitmap.base = E.base
  free : s.pmmFreePages = (entries.map (freedCount E.base (newLength E))).sum % 2 ^ 64
  fits : ∀ e ∈ entries, e.type = .usable → e.base ≤ E.base →
    (freedPages E.base (newLength E) e).2 ≤ 2 ^ 63
  reserved : ∀ i, i = 1 ∨ i = 2 → BitStore.bit s.pmmBitmap i = true
  freed : ∀ i, i ≠ 1 → i ≠ 2 → Freed entries E i → BitStore.bit s.pmmBitmap i = false
  marked : ∀ i, ¬ Freed entries E i → i < 8 * (newLength E / 8) →
    BitStore.bit s.pmmBitmap i = true
  kept : ∀ i, i ≠ 1 → i ≠ 2 → ¬ Freed entries E i → 8 * (newLength E / 8) ≤ i →
    BitStore.bit s.pmmBitmap i = priorBit ram E.base i

/-- Every bit of the bitmap after `pmm_init`. -/
lemma pmmInit_initAt {hhdm entries ram s} (h : pmmInit hhdm entries ram = some s) :
    ∃ E, InitAt entries ram E s := by
  simp only [pmmInit, Option.bind_eq_bind, Option.ite_none_left_eq_some,
    Option.bind_eq_some_iff] at h
  obtain ⟨h0, bm, hbm, p, hp, q, hq, hs⟩ := h
  obtain h0' | ⟨E, hE, hu, hlong, e1, e2, e3⟩ := chooseRegion_isOf entries
  · exact absurd h0' h0
  have bm_bit := RamBitmap.memset_bit hbm
  have bm_base := RamBitmap.memset_base hbm
  have free_bit := freeEntries_bit hp
  have free_same := freeEntries_same hp
  have free_fits := freeEntries_fits hp
  have free_count := freeEntries_free hp
  have free_lt := freeEntries_free_lt hp (Nat.two_pow_pos 64)
  obtain ⟨same1, count1, bit1⟩ := reservePage_some hq
  obtain ⟨same2, count2, bit2⟩ := reservePage_some hs
  simp only [e1, e2, e3, Nat.reduceDiv] at *
  -- the bits before anything is freed
  have start : ∀ i, BitStore.bit bm i =
      if i < 8 * (newLength E / 8) then true else priorBit ram E.base i := by
    intro i
    rw [bm_bit]
    by_cases hi : i < 8 * (newLength E / 8)
    · rw [if_pos hi, if_pos (by omega)]
      have : i % 8 < 8 := by omega
      interval_cases i % 8 <;> rfl
    · rw [if_neg hi, if_neg (by omega)]
      rfl
  have last : ∀ i, BitStore.bit s.pmmBitmap i =
      if i = 2 then true else if i = 1 then true else BitStore.bit p.pmmBitmap i := by
    intro i
    rw [bit2, bit1]
  refine ⟨E, hE, hu, hlong, h0, ?_, ?_, ?_, free_fits, ?_, ?_, ?_, ?_⟩
  · rw [same2.length, same1.length, free_same.length]
  · rw [same2.base, same1.base, free_same.base, bm_base]
  · rw [count2, count1, ← Nat.mod_eq_of_lt free_lt, free_count, Nat.zero_add]
  · rintro i (rfl | rfl) <;> simp [last]
  · intro i h1 h2 hf
    rw [last, if_neg h2, if_neg h1]
    exact (free_bit i).1 hf
  · intro i hf hi
    rw [last]
    split_ifs
    · rfl
    · rfl
    · rw [(free_bit i).2 hf, start, if_pos hi]
  · intro i h1 h2 hf hi
    rw [last, if_neg h2, if_neg h1, (free_bit i).2 hf, start, if_neg (by omega)]

/-- Page `p` lies inside a usable entry with base at most `maxBase`. -/
def InsideUsable (entries : List MemmapEntry) (maxBase p : Nat) : Prop :=
  ∃ e ∈ entries, e.type = .usable ∧ e.base ≤ maxBase ∧
    e.base ≤ 0x1000 * p ∧ 0x1000 * p + 0x1000 ≤ e.base + e.length

/-- Page `p` holds a byte of the storage of bits `0` to `length - 1` at `base`. -/
def HoldsBitmap (base length p : Nat) : Prop := ∃ k < length, (base + k / 8) / 0x1000 = p

/-- What `pmm_init` is for: below `PmmLength` exactly the usable pages that hold nothing are clear,
and past it no bit has been cleared. -/
def InitCorrect (entries : List MemmapEntry) (ram : Ram) (s : Pmm RamBitmap) : Prop :=
  (∀ p < s.pmmLength, BitStore.bit s.pmmBitmap p = false ↔
    InsideUsable entries s.pmmBitmap.base p ∧
      ¬ HoldsBitmap s.pmmBitmap.base s.pmmLength p ∧ p ≠ 1 ∧ p ≠ 2) ∧
    ∀ p, s.pmmLength ≤ p → priorBit ram s.pmmBitmap.base p = true →
      BitStore.bit s.pmmBitmap p = true

/-- The page just past the entry. -/
def endPage (E : MemmapEntry) : Nat := (E.base + E.length) / 0x1000

/-- Page `p` is in a usable entry below `E`, or in `E` past the `endPage E / 8` bytes at its base. -/
def Reusable (entries : List MemmapEntry) (E : MemmapEntry) (p : Nat) : Prop :=
  (∃ e ∈ entries, e.type = .usable ∧ e.base < E.base ∧
    e.base ≤ 0x1000 * p ∧ 0x1000 * p + 0x1000 ≤ e.base + e.length) ∨
    (E.base + endPage E / 8 ≤ 0x1000 * p ∧ 0x1000 * p + 0x1000 ≤ E.base + E.length)

/-- The roundings of `PmmLength / 8` in `pmm_init` do no harm: whole pages of whole bytes are exact,
and otherwise the memory found happens to hold what is missing. -/
structure RoundsExactly (entries : List MemmapEntry) (ram : Ram) (E : MemmapEntry) : Prop where
  whole_pages : endPage E / 8 % 0x1000 ≠ 0 → priorBit ram E.base (endPage E) = false
  whole_bytes : endPage E / 8 % 0x1000 = 0 → endPage E % 8 ≠ 0 →
    (E.base + endPage E / 8) / 0x1000 = 1 ∨ (E.base + endPage E / 8) / 0x1000 = 2
  tail : ∀ p, 8 * (endPage E / 8) ≤ p → p < endPage E → p ≠ 1 → p ≠ 2 → ¬ Reusable entries E p →
    priorBit ram E.base p = true

section Placed
variable {entries : List MemmapEntry} {ram : Ram} {E : MemmapEntry} {s : Pmm RamBitmap}

/-- `PmmLength` is the end of the chosen entry. -/
lemma InitAt.newLength_eq (wf : WellFormed entries) (at_ : InitAt entries ram E s) :
    newLength E = endPage E := by
  have h1 := wf.base_aligned E at_.mem at_.usable
  have h2 := wf.length_aligned E at_.mem at_.usable
  have h3 := wf.end_lt E at_.mem
  unfold newLength endPage
  omega

/-- Another entry with the base of `E` is empty, and frees nothing. -/
lemma InitAt.same_base (wf : WellFormed entries) (at_ : InitAt entries ram E s) {e}
    (he : e ∈ entries) (hu : e.type = .usable) (hb : e.base = E.base) :
    e = E ∨ (e.length = 0 ∧ (freedPages E.base (newLength E) e).2 = 0) := by
  have hl := at_.long
  obtain h | h | h := wf.ordered he at_.mem
  · exact .inl h
  · right
    have h0 : e.length = 0 := by omega
    refine ⟨h0, ?_⟩
    have hf := at_.fits e he hu (by omega)
    simp only [freedPages, hb, ↓reduceIte, h0] at hf ⊢
    have hlen : newLength E < 2 ^ 52 := by
      unfold newLength
      omega
    omega
  · omega

/-- The pages freed for `E` itself: from the bitmap rounded up on, and one too many where the bitmap
does not fill its last page. -/
lemma InitAt.freedFor_self (wf : WellFormed entries) (at_ : InitAt entries ram E s) (p : Nat) :
    FreedFor E.base (newLength E) E p ↔
      E.base + endPage E / 8 ≤ 0x1000 * p ∧
        0x1000 * p + 0x1000 ≤ E.base + E.length +
          (if endPage E / 8 % 0x1000 = 0 then 0 else 0x1000) := by
  have h1 := wf.base_aligned E at_.mem at_.usable
  have h2 := wf.length_aligned E at_.mem at_.usable
  have h3 := wf.end_lt E at_.mem
  have h4 := at_.long
  rw [at_.newLength_eq wf] at h4
  have h5 : endPage E / 8 ≤ E.length := by omega
  have h6 : (E.base + (endPage E / 8 + 0x1000 - 1) / 0x1000 * 0x1000) % 2 ^ 64 =
      E.base + (endPage E / 8 + 0x1000 - 1) / 0x1000 * 0x1000 := by omega
  have h7 : (E.length / 0x1000 + 2 ^ 64 - endPage E / 8 / 0x1000) % 2 ^ 64 =
      E.length / 0x1000 - endPage E / 8 / 0x1000 := by omega
  simp only [FreedFor, at_.usable, freedPages, at_.newLength_eq wf, ↓reduceIte, h6, h7, true_and,
    le_refl]
  split_ifs <;> omega

/-- The pages freed for an entry below `E` are its own. -/
lemma InitAt.freedFor_below (wf : WellFormed entries) {e} (he : e ∈ entries)
    (hu : e.type = .usable) (hb : e.base < E.base) (p : Nat) :
    FreedFor E.base (newLength E) e p ↔
      e.base ≤ 0x1000 * p ∧ 0x1000 * p + 0x1000 ≤ e.base + e.length := by
  have h1 := wf.base_aligned e he hu
  have h2 := wf.length_aligned e he hu
  simp only [FreedFor, hu, freedPages, Nat.ne_of_lt hb, ↓reduceIte, true_and]
  omega

/-- The pages freed, in terms of the entries. -/
lemma InitAt.freed_iff (wf : WellFormed entries) (at_ : InitAt entries ram E s) (p : Nat) :
    Freed entries E p ↔
      (∃ e ∈ entries, e.type = .usable ∧ e.base < E.base ∧
        e.base ≤ 0x1000 * p ∧ 0x1000 * p + 0x1000 ≤ e.base + e.length) ∨
      (E.base + endPage E / 8 ≤ 0x1000 * p ∧
        0x1000 * p + 0x1000 ≤ E.base + E.length +
          (if endPage E / 8 % 0x1000 = 0 then 0 else 0x1000)) := by
  rw [← at_.freedFor_self wf p]
  constructor
  · rintro ⟨e, he, hf⟩
    have hu := hf.1
    obtain hlt | heq := Nat.lt_or_eq_of_le hf.2.1
    · exact .inl ⟨e, he, hu, hlt, (freedFor_below wf he hu hlt p).mp hf⟩
    · obtain rfl | ⟨_, h0⟩ := at_.same_base wf he hu heq
      · exact .inr hf
      · have := hf.2.2
        omega
  · rintro (⟨e, he, hu, hlt, hp⟩ | hf)
    · exact ⟨e, he, (freedFor_below wf he hu hlt p).mpr hp⟩
    · exact ⟨E, at_.mem, hf⟩

/-- Below `PmmLength` the pages freed are the reusable ones. -/
lemma InitAt.freed_lt (wf : WellFormed entries) (at_ : InitAt entries ram E s) {p}
    (hp : p < endPage E) : Freed entries E p ↔ Reusable entries E p := by
  rw [at_.freed_iff wf, Reusable]
  have h1 := wf.base_aligned E at_.mem at_.usable
  have h2 := wf.length_aligned E at_.mem at_.usable
  unfold endPage at *
  apply or_congr Iff.rfl
  split_ifs <;> omega

/-- From `PmmLength` on only the next page can be freed. -/
lemma InitAt.freed_ge (wf : WellFormed entries) (at_ : InitAt entries ram E s) {p}
    (hp : endPage E ≤ p) :
    Freed entries E p ↔ p = endPage E ∧ endPage E / 8 % 0x1000 ≠ 0 := by
  rw [at_.freed_iff wf]
  have h1 := wf.base_aligned E at_.mem at_.usable
  have h2 := wf.length_aligned E at_.mem at_.usable
  have h4 := at_.long
  rw [at_.newLength_eq wf] at h4
  constructor
  · rintro (⟨e, he, _, hlt, _, hend⟩ | h)
    · have := wf.ordered he at_.mem
      unfold endPage at hp
      obtain rfl | h | h := this <;> omega
    · unfold endPage at *
      split_ifs at h <;> omega
  · rintro ⟨rfl, hq⟩
    right
    rw [if_neg hq]
    unfold endPage at *
    omega

/-- Inside `E`, the pages that hold the bitmap are those that start before its last byte. -/
lemma InitAt.holds_iff (wf : WellFormed entries) (at_ : InitAt entries ram E s) (p : Nat) :
    HoldsBitmap E.base (endPage E) p ↔
      E.base ≤ 0x1000 * p ∧ 0x1000 * p ≤ E.base + (endPage E - 1) / 8 := by
  have h1 := wf.base_aligned E at_.mem at_.usable
  have h0 : 0 < endPage E := by
    have := wf.length_aligned E at_.mem at_.usable
    have := at_.long
    unfold endPage
    omega
  constructor
  · rintro ⟨k, hk, rfl⟩
    omega
  · rintro ⟨h2, h3⟩
    exact ⟨8 * (0x1000 * p - E.base), by omega, by omega⟩

/-- Below `PmmLength`, what is usable and holds no bitmap is reusable, and the page of the bitmap's
last byte is the only one that can be reusable and hold the bitmap. -/
lemma InitAt.reusable_iff (wf : WellFormed entries) (at_ : InitAt entries ram E s) {p}
    (hp : p < endPage E) :
    Reusable entries E p ↔
      (InsideUsable entries E.base p ∧ ¬ HoldsBitmap E.base (endPage E) p) ∨
        (endPage E / 8 % 0x1000 = 0 ∧ endPage E % 8 ≠ 0 ∧
          p = (E.base + endPage E / 8) / 0x1000) := by
  have h1 := wf.base_aligned E at_.mem at_.usable
  have h2 := wf.length_aligned E at_.mem at_.usable
  have hL : 0x1000 * endPage E = E.base + E.length := by
    unfold endPage
    omega
  rw [at_.holds_iff wf]
  constructor
  · rintro (⟨e, he, hu, hlt, hlo, hhi⟩ | ⟨hlo, hhi⟩)
    · refine .inl ⟨⟨e, he, hu, by omega, hlo, hhi⟩, ?_⟩
      obtain rfl | h | h := wf.ordered he at_.mem <;> omega
    · by_cases hh : 0x1000 * p ≤ E.base + (endPage E - 1) / 8
      · have heq : 0x1000 * p = E.base + endPage E / 8 := by omega
        have hb : endPage E % 8 ≠ 0 := by omega
        exact .inr ⟨by omega, hb, by omega⟩
      · exact .inl ⟨⟨E, at_.mem, at_.usable, le_rfl, by omega, hhi⟩, by omega⟩
  · rintro (⟨⟨e, he, hu, hle, hlo, hhi⟩, hn⟩ | ⟨hq, _, rfl⟩)
    · obtain hlt | heq := Nat.lt_or_eq_of_le hle
      · exact .inl ⟨e, he, hu, hlt, hlo, hhi⟩
      · obtain rfl | ⟨h0, _⟩ := at_.same_base wf he hu heq
        · exact .inr (by omega)
        · omega
    · exact .inr (by omega)

/-- The page of the byte after the whole bytes of the bitmap is a page of `E`. -/
lemma InitAt.lastPage_lt (wf : WellFormed entries) (at_ : InitAt entries ram E s) :
    (E.base + endPage E / 8) / 0x1000 < endPage E := by
  have h1 := wf.base_aligned E at_.mem at_.usable
  have h2 := wf.length_aligned E at_.mem at_.usable
  have h4 := at_.long
  rw [at_.newLength_eq wf] at h4
  have hL : 0x1000 * endPage E = E.base + E.length := by
    unfold endPage
    omega
  omega

/-- `pmm_init` placing the bitmap at `E` is correct exactly when its roundings do no harm. -/
lemma InitAt.correct_iff (wf : WellFormed entries) (at_ : InitAt entries ram E s) :
    InitCorrect entries ram s ↔ RoundsExactly entries ram E := by
  have hlen : s.pmmLength = endPage E := at_.length.trans (at_.newLength_eq wf)
  have hq : newLength E = endPage E := at_.newLength_eq wf
  have kept := at_.kept
  have marked := at_.marked
  rw [hq] at kept marked
  unfold InitCorrect
  rw [hlen, at_.base]
  constructor
  · rintro ⟨below, past⟩
    refine ⟨fun hr => ?_, fun hr hb => ?_, fun p hlo hhi n1 n2 hn => ?_⟩
    · -- the bit of the page past `E` has been cleared
      have hf := (at_.freed_ge wf le_rfl).mpr ⟨rfl, hr⟩
      by_contra hset
      have := past _ le_rfl (by simpa using hset)
      rw [at_.freed _ (by omega) (by omega) hf] at this
      contradiction
    · -- the page of the bitmap's last byte has been freed
      by_contra hn
      obtain ⟨n1, n2⟩ := not_or.mp hn
      have hp := at_.lastPage_lt wf
      have hre := (at_.reusable_iff wf hp).mpr (.inr ⟨hr, hb, rfl⟩)
      have hclear := at_.freed _ n1 n2 ((at_.freed_lt wf hp).mpr hre)
      apply ((below _ hp).mp hclear).2.1
      rw [at_.holds_iff wf]
      have := wf.base_aligned E at_.mem at_.usable
      omega
    · -- a page behind the last whole byte keeps the bit that was there before
      by_contra hset
      have hclear := kept p n1 n2 (fun hf => hn ((at_.freed_lt wf hhi).mp hf)) hlo
      have := (below p hhi).mp (hclear.trans (by simpa using hset))
      exact hn ((at_.reusable_iff wf hhi).mpr (.inl ⟨this.1, this.2.1⟩))
  · intro hr
    refine ⟨fun p hp => ?_, fun p hp hprior => ?_⟩
    · by_cases h12 : p = 1 ∨ p = 2
      · rw [at_.reserved p h12]
        simp only [Bool.true_eq_false, false_iff]
        rintro ⟨_, _, n1, n2⟩
        exact h12.elim n1 n2
      obtain ⟨n1, n2⟩ := not_or.mp h12
      by_cases hre : Reusable entries E p
      · rw [at_.freed p n1 n2 ((at_.freed_lt wf hp).mpr hre)]
        obtain ⟨hin, hno⟩ | ⟨h1, h2, rfl⟩ := (at_.reusable_iff wf hp).mp hre
        · simp [hin, hno, n1, n2]
        · exact absurd (hr.whole_bytes h1 h2) h12
      · have hset : BitStore.bit s.pmmBitmap p = true := by
          -- a page that is not freed is marked with its byte, or keeps its bit
          have hf := fun hf => hre ((at_.freed_lt wf hp).mp hf)
          by_cases hlo : p < 8 * (endPage E / 8)
          · exact marked p hf hlo
          · rw [kept p n1 n2 hf (by omega)]
            exact hr.tail p (by omega) hp n1 n2 hre
        rw [hset]
        simp only [Bool.true_eq_false, false_iff]
        rintro ⟨hin, hno, _⟩
        exact hre ((at_.reusable_iff wf hp).mpr (.inl ⟨hin, hno⟩))
    · by_cases h12 : p = 1 ∨ p = 2
      · exact at_.reserved p h12
      obtain ⟨n1, n2⟩ := not_or.mp h12
      have hf : ¬ Freed entries E p := by
        rw [at_.freed_ge wf hp]
        rintro ⟨rfl, hq⟩
        rw [hr.whole_pages hq] at hprior
        contradiction
      rw [kept p n1 n2 hf (by omega), hprior]

/-- The entry the bitmap was placed at is known by its base. -/
lemma InitAt.eq_of_base (wf : WellFormed entries) (at_ : InitAt entries ram E s) {E'}
    (he : E' ∈ entries) (hu : E'.type = .usable) (hpos : 0 < E'.length)
    (hb : s.pmmBitmap.base = E'.base) : E' = E := by
  obtain h | ⟨h0, _⟩ := at_.same_base wf he hu (hb.symm.trans at_.base)
  · exact h
  · omega

end Placed

/-- Over every memory map and every memory, a `pmm_init` that returns with the bitmap at the usable
entry `E` is correct if and only if its roundings do no harm there. -/
theorem pmmInit_correct_iff {hhdm entries ram s} (wf : WellFormed entries)
    (h : pmmInit hhdm entries ram = some s) {E : MemmapEntry} (hE : E ∈ entries)
    (hu : E.type = .usable) (hpos : 0 < E.length) (hb : s.pmmBitmap.base = E.base) :
    InitCorrect entries ram s ↔ RoundsExactly entries ram E := by
  obtain ⟨E', at_⟩ := pmmInit_initAt h
  cases at_.eq_of_base wf hE hu hpos hb
  exact at_.correct_iff wf

/-- One usable entry, pages 3 to 7. -/
def fivePages : MemmapEntry := ⟨0x3000, 0x5000, .usable⟩

/-- A memory of 256 pages filled with one byte. -/
def filledRam (c : BitVec 8) : Ram := ⟨0x100000, fun _ => c, by decide⟩

/-- The map of a single entry is sorted and aligned. -/
lemma fivePages_wellFormed : WellFormed [fivePages] where
  sorted := List.pairwise_singleton _ _
  base_aligned := by decide
  length_aligned := by decide
  end_lt := by decide

/-- Five pages over cleared memory. -/
theorem pmmInit_correct_iff_fivePages :
    ∃ s, pmmInit 0xFFFF800000000000 [fivePages] (filledRam 0) = some s ∧
      (InitCorrect [fivePages] (filledRam 0) s ↔ RoundsExactly [fivePages] (filledRam 0) fivePages) := by
  have h : (pmmInit 0xFFFF800000000000 [fivePages] (filledRam 0)).map (·.pmmBitmap.base) =
      some 0x3000 := by decide
  obtain ⟨s, hs, hb⟩ := Option.map_eq_some_iff.mp h
  exact ⟨s, hs, pmmInit_correct_iff fivePages_wellFormed hs (by simp) rfl (by decide) hb⟩

/-- The bitmap of pages 3 to 7 is one byte. The page after it is page 4, and five pages are freed from
there: bit 8 is cleared, past `PmmLength`. -/
theorem pmmInit_clears_past_end :
    ∃ s, WellFormed [fivePages] ∧
      pmmInit 0xFFFF800000000000 [fivePages] (filledRam 0xFF) = some s ∧
      s.pmmBitmap.base = fivePages.base ∧ ¬ InitCorrect [fivePages] (filledRam 0xFF) s := by
  have h : (pmmInit 0xFFFF800000000000 [fivePages] (filledRam 0xFF)).map
      (fun s => (s.pmmBitmap.base, s.pmmLength, BitStore.bit s.pmmBitmap 8)) =
      some (0x3000, 8, false) := by decide
  obtain ⟨s, hs, e⟩ := Option.map_eq_some_iff.mp h
  simp only [Prod.mk.injEq] at e
  obtain ⟨hb, hl, h8⟩ := e
  refine ⟨s, fivePages_wellFormed, hs, hb, fun hc => ?_⟩
  have := hc.2 8 hl.le (by rw [hb]; decide)
  rw [h8] at this
  contradiction

end WivOS.Mem
