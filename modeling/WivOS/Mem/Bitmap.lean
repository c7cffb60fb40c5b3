import WivOS.Mem.Pmm

/-!
# Bitmaps

The bit operations of `kernel/arch/riscv64/defines.h` and the store that the page allocator is run over. A
bitmap is packed 32 bits to a word: bit `i` is bit `i & 0x1F` of word `i >> 5`. `RamBitmap` is the bitmap as
the kernel has it: words of four little-endian bytes at a physical address, in the same memory that
`memset` fills. `PmmBitmap` points there through the direct map at `MEM_PHYS_OFFSET`; addresses are physical
here.
-/

namespace WivOS.Mem
open WivOS.Lib

/-- `(word & (uint32_t)(1 << k)) != 0`, of `test_bit`. -/
def testWord (w : BitVec 32) (k : Nat) : Bool := w &&& (1#32 <<< k) != 0

/-- `word | (uint32_t)(1 << k)`, of `set_bit`. -/
def setWord (w : BitVec 32) (k : Nat) : BitVec 32 := w ||| (1#32 <<< k)

/-- `word & ~(uint32_t)(1 << k)`, of `reset_bit`. -/
def resetWord (w : BitVec 32) (k : Nat) : BitVec 32 := w &&& ~~~(1#32 <<< k)

/-- `test_bit` on a word. -/
lemma testWord_eq {w : BitVec 32} {k} (hk : k < 32) : testWord w k = w.getLsbD k := by
  have h : (1#32 <<< k : BitVec 32) = BitVec.twoPow 32 k := rfl
  rw [testWord, h, BitVec.and_twoPow]
  cases hb : w.getLsbD k with
  | false => simp
  | true =>
    have hne : BitVec.twoPow 32 k ≠ 0#32 := by
      intro e
      have := congrArg (BitVec.getLsbD · k) e
      simp [hk] at this
    simpa using hne

/-- `set_bit` on a word. -/
lemma getLsbD_setWord {w : BitVec 32} {k j} (hk : k < 32) :
    (setWord w k).getLsbD j = if j = k then true else w.getLsbD j := by
  have h : (1#32 <<< k : BitVec 32) = BitVec.twoPow 32 k := rfl
  rw [setWord, h, BitVec.getLsbD_or, BitVec.getLsbD_twoPow]
  by_cases e : j = k
  · simp [e, hk]
  · simp [e, Ne.symm e]

/-- `reset_bit` on a word. -/
lemma getLsbD_resetWord {w : BitVec 32} {k j} (hj : j < 32) (hk : k < 32) :
    (resetWord w k).getLsbD j = if j = k then false else w.getLsbD j := by
  have h : (1#32 <<< k : BitVec 32) = BitVec.twoPow 32 k := rfl
  rw [resetWord, h, BitVec.getLsbD_and, BitVec.getLsbD_not, BitVec.getLsbD_twoPow]
  by_cases e : j = k
  · simp [e, hk]
  · simp [e, Ne.symm e, hj]

/-- The index of the word of a bit. -/
lemma shiftRight_five (i : Nat) : i >>> 5 = i / 32 := Nat.shiftRight_eq_div_pow i 5

/-- The index of a bit in its word. -/
lemma and_31 (i : Nat) : i &&& 0x1F = i % 32 := Nat.and_two_pow_sub_one_eq_mod i 5

/-- Physical memory, of at most 56 bits of address. -/
structure Ram where
  size : Nat
  byte : Nat → BitVec 8
  size_le : size ≤ 2 ^ 56

namespace Ram

/-- The 32-bit word at `a`, least significant byte first. -/
def load32 (m : Ram) (a : Nat) : Option (BitVec 32) :=
  if a + 4 ≤ m.size then some (m.byte (a + 3) ++ m.byte (a + 2) ++ m.byte (a + 1) ++ m.byte a)
  else none

/-- Store a 32-bit word at `a`. -/
def store32 (m : Ram) (a : Nat) (w : BitVec 32) : Ram :=
  { m with byte := fun j =>
      if a ≤ j ∧ j < a + 4 then w.extractLsb' (8 * (j - a)) 8 else m.byte j }

/-- C `memset`: `n` bytes from `a` on, unless the range leaves the memory. -/
def memset (m : Ram) (a : Nat) (c : BitVec 8) (n : Nat) : Option Ram :=
  if n = 0 ∨ a + n ≤ m.size then
    some { m with byte := fun j => if a ≤ j ∧ j < a + n then c else m.byte j }
  else none

/-- A bit of a loaded word is one of the byte it is in. -/
lemma load32_getLsbD {m : Ram} {a w k} (h : m.load32 a = some w) (hk : k < 32) :
    w.getLsbD k = (m.byte (a + k / 8)).getLsbD (k % 8) := by
  unfold load32 at h
  split at h
  case isFalse => simp at h
  case isTrue =>
    simp only [Option.some.injEq] at h
    subst h
    simp only [BitVec.getLsbD_append]
    split_ifs with h1 h2 h3
    · rw [Nat.div_eq_of_lt h1, Nat.mod_eq_of_lt h1, Nat.add_zero]
    · have e1 : k / 8 = 1 := by omega
      have e2 : k % 8 = k - 8 := by omega
      rw [e1, e2]
    · have e1 : k / 8 = 2 := by omega
      have e2 : k % 8 = k - 8 - 8 := by omega
      rw [e1, e2]
    · have e1 : k / 8 = 3 := by omega
      have e2 : k % 8 = k - 8 - 8 - 8 := by omega
      rw [e1, e2]

/-- A bit of the byte it is in after a store. -/
lemma store32_in {m : Ram} {a w k} (hk : k < 32) :
    ((m.store32 a w).byte (a + k / 8)).getLsbD (k % 8) = w.getLsbD k := by
  have h : a ≤ a + k / 8 ∧ a + k / 8 < a + 4 := by omega
  have e1 : a + k / 8 - a = k / 8 := by omega
  have e2 : 8 * (k / 8) + k % 8 = k := by omega
  have e3 : k % 8 < 8 := by omega
  simp [store32, h, e1, e2, e3]

/-- A store leaves the other bytes. -/
lemma store32_out {m : Ram} {a w j} (h : j < a ∨ a + 4 ≤ j) :
    (m.store32 a w).byte j = m.byte j := by
  have h' : ¬ (a ≤ j ∧ j < a + 4) := by omega
  simp [store32, h']

end Ram

/-- The bitmap at physical address `base`. -/
structure RamBitmap where
  ram : Ram
  base : Nat

namespace RamBitmap

/-- The address of word `bitpos >> 5`. -/
def wordAddr (s : RamBitmap) (i : Nat) : Nat := s.base + 4 * (i >>> 5)

/-- Word `bitpos >> 5`, where it exists. -/
def word (s : RamBitmap) (i : Nat) : Option (BitVec 32) := s.ram.load32 (s.wordAddr i)

/-- Store word `bitpos >> 5`. -/
def store (s : RamBitmap) (i : Nat) (w : BitVec 32) : RamBitmap :=
  { s with ram := s.ram.store32 (s.wordAddr i) w }

/-- The number of bits in the words from `base` to the end of memory. -/
def span (s : RamBitmap) : Nat := 32 * ((s.ram.size - s.base) / 4)

/-- The bit of page `i`. -/
def bit (s : RamBitmap) (i : Nat) : Bool := (s.ram.byte (s.base + i / 8)).getLsbD (i % 8)

/-- The words that can be loaded are those of the span. -/
lemma word_isSome (s : RamBitmap) (i : Nat) : (s.word i).isSome ↔ i < s.span := by
  rw [word, wordAddr, Ram.load32, shiftRight_five, span]
  split
  · simp only [Option.isSome_some, true_iff]
    omega
  · simp only [Option.isSome_none, Bool.false_eq_true, false_iff]
    omega

/-- The byte of a bit in terms of its word. -/
lemma byteAddr (i : Nat) : i / 8 = 4 * (i / 32) + i % 32 / 8 := by omega

/-- The bit in its word is that of the bitmap. -/
lemma word_getLsbD {s : RamBitmap} {i w} (h : s.word i = some w) :
    w.getLsbD (i % 32) = s.bit i := by
  rw [word, wordAddr, shiftRight_five] at h
  rw [Ram.load32_getLsbD h (Nat.mod_lt i (by omega)), bit, byteAddr i, Nat.add_assoc]
  congr 1
  omega

/-- Storing back a word that differs in one bit changes that bit only. -/
lemma bit_store {s : RamBitmap} {i w v b} (h : s.word i = some w)
    (hv : ∀ j < 32, v.getLsbD j = if j = i % 32 then b else w.getLsbD j) (j : Nat) :
    (s.store i v).bit j = if j = i then b else s.bit j := by
  by_cases e : j / 32 = i / 32
  · have hb : (s.store i v).bit j = v.getLsbD (j % 32) := by
      rw [bit, store, wordAddr, shiftRight_five, ← e]
      have e1 : s.base + j / 8 = s.base + 4 * (j / 32) + j % 32 / 8 := by omega
      have e2 : j % 8 = j % 32 % 8 := by omega
      simp only [e1, e2]
      exact Ram.store32_in (Nat.mod_lt j (by omega))
    have hw : w.getLsbD (j % 32) = s.bit j := by
      apply word_getLsbD
      rw [word, wordAddr, shiftRight_five] at h ⊢
      rw [e, h]
    rw [hb, hv _ (Nat.mod_lt j (by omega)), hw]
    by_cases e' : j = i
    · simp [e']
    · rw [if_neg (by omega), if_neg e']
  · have ne : j ≠ i := by
      rintro rfl
      exact e rfl
    rw [if_neg ne, bit, bit, store, wordAddr, shiftRight_five, Ram.store32_out]
    dsimp only
    omega

instance : PageStore RamBitmap where
  span := span
  bit := bit
  testBit s i := (s.word i).map (testWord · (i &&& 0x1F))
  setBit s i := (s.word i).map fun w => s.store i (setWord w (i &&& 0x1F))
  resetBit s i := (s.word i).map fun w => s.store i (resetWord w (i &&& 0x1F))
  memset s a c n := (s.ram.memset a c n).map fun m => { s with ram := m }
  testBit_eq s i := by
    have hs := word_isSome s i
    rw [and_31]
    cases hw : s.word i with
    | none =>
      have : ¬ i < s.span := by simpa [hw] using hs
      simp [this]
    | some w =>
      have : i < s.span := by simpa [hw] using hs
      simp [this, testWord_eq (Nat.mod_lt i (by omega)), word_getLsbD hw]
  setBit_isSome s i := by simpa using word_isSome s i
  setBit_some := by
    intro s i s' h
    simp only [Option.map_eq_some_iff, and_31] at h
    obtain ⟨w, hw, rfl⟩ := h
    refine ⟨rfl, bit_store hw fun j hj => ?_⟩
    exact getLsbD_setWord (Nat.mod_lt i (by omega))
  resetBit_isSome s i := by simpa using word_isSome s i
  resetBit_some := by
    intro s i s' h
    simp only [Option.map_eq_some_iff, and_31] at h
    obtain ⟨w, hw, rfl⟩ := h
    refine ⟨rfl, bit_store hw fun j hj => ?_⟩
    exact getLsbD_resetWord hj (Nat.mod_lt i (by omega))
  memset_span := by
    intro s a c n s' h
    simp only [Ram.memset, Option.map_eq_some_iff, Option.ite_none_right_eq_some,
      Option.some.injEq] at h
    obtain ⟨m, ⟨_, rfl⟩, rfl⟩ := h
    rfl
  span_le s := by
    have := s.ram.size_le
    unfold span
    omega

/-- `memset` replaces the bits of the bytes it fills. -/
lemma memset_bit {s s' : RamBitmap} {a c n} (h : PageStore.memset s a c n = some s') (i : Nat) :
    BitStore.bit s' i =
      if a ≤ s.base + i / 8 ∧ s.base + i / 8 < a + n then c.getLsbD (i % 8) else BitStore.bit s i := by
  obtain ⟨m, hm, rfl⟩ := Option.map_eq_some_iff.mp h
  simp only [Ram.memset, Option.ite_none_right_eq_some, Option.some.injEq] at hm
  obtain ⟨_, rfl⟩ := hm
  show BitVec.getLsbD (if a ≤ s.base + i / 8 ∧ s.base + i / 8 < a + n then c
    else s.ram.byte (s.base + i / 8)) (i % 8) = _
  split_ifs <;> rfl

/-- `memset` does not move the bitmap. -/
lemma memset_base {s s' : RamBitmap} {a c n} (h : PageStore.memset s a c n = some s') :
    s'.base = s.base := by
  obtain ⟨m, _, rfl⟩ := Option.map_eq_some_iff.mp h
  rfl

/-- `s'` is the same bitmap over the same memory, of which only bytes from `base` on were written. -/
structure Rewritten (s s' : RamBitmap) : Prop where
  base : s'.base = s.base
  size : s'.ram.size = s.ram.size
  below : ∀ x < s.base, s'.ram.byte x = s.ram.byte x

/-- Nothing written. -/
lemma Rewritten.refl (s : RamBitmap) : Rewritten s s := ⟨rfl, rfl, fun _ _ => rfl⟩

/-- Writes after each other. -/
lemma Rewritten.trans {s t u : RamBitmap} (h : Rewritten s t) (h' : Rewritten t u) :
    Rewritten s u := by
  refine ⟨h'.base.trans h.base, h'.size.trans h.size, fun x hx => ?_⟩
  rw [h'.below x (by rw [h.base]; exact hx), h.below x hx]

/-- Storing a word writes nothing below the bitmap. -/
lemma store_rewritten (s : RamBitmap) (i : Nat) (w : BitVec 32) : Rewritten s (s.store i w) := by
  refine ⟨rfl, rfl, fun x hx => ?_⟩
  rw [store, wordAddr, Ram.store32_out]
  omega

/-- The marking loop writes words of the bitmap only. -/
lemma setBits_rewritten {s s' : RamBitmap} {i n} (h : setBits s i n = some s') :
    Rewritten s s' := by
  induction n generalizing s i with
  | zero =>
    cases h
    exact .refl _
  | succ n ih =>
    simp only [setBits, Option.bind_eq_bind, Option.bind_eq_some_iff] at h
    obtain ⟨t, ht, h⟩ := h
    obtain ⟨w, _, rfl⟩ := Option.map_eq_some_iff.mp ht
    exact (store_rewritten s _ _).trans (ih h)

/-- And so does the clearing loop. -/
lemma resetBits_rewritten {s s' : RamBitmap} {i n} (h : resetBits s i n = some s') :
    Rewritten s s' := by
  induction n generalizing s i with
  | zero =>
    cases h
    exact .refl _
  | succ n ih =>
    simp only [resetBits, Option.bind_eq_bind, Option.bind_eq_some_iff] at h
    obtain ⟨t, ht, h⟩ := h
    obtain ⟨w, _, rfl⟩ := Option.map_eq_some_iff.mp ht
    exact (store_rewritten s _ _).trans (ih h)

/-- A byte of the bitmap is its eight bits. -/
lemma byte_eq_of_bit {s s' : RamBitmap} (hb : s'.base = s.base) {x} (hx : s.base ≤ x)
    (h : ∀ i, i / 8 = x - s.base → BitStore.bit s' i = BitStore.bit s i) :
    s'.ram.byte x = s.ram.byte x := by
  apply BitVec.eq_of_getLsbD_eq
  intro k hk
  have e1 : (8 * (x - s.base) + k) / 8 = x - s.base := by omega
  have e2 : (8 * (x - s.base) + k) % 8 = k := by omega
  have e3 : s.base + (x - s.base) = x := by omega
  have := h (8 * (x - s.base) + k) e1
  simpa only [BitStore.bit, bit, hb, e1, e2, e3] using this

end RamBitmap

/-- `pmm_alloc_advanced` writes nothing below the bitmap. -/
lemma pmmAllocAdvanced_rewritten {p p' : Pmm RamBitmap} {count alignment addr}
    (h : pmmAllocAdvanced p count alignment = some (addr, p')) :
    RamBitmap.Rewritten p.pmmBitmap p'.pmmBitmap := by
  simp only [pmmAllocAdvanced, Option.bind_eq_bind, Option.bind_eq_some_iff] at h
  obtain ⟨_ | i, _, h⟩ := h
  · cases h
    exact .refl _
  · simp only [Option.bind_eq_some_iff] at h
    obtain ⟨bm, hbm, h⟩ := h
    cases h
    exact RamBitmap.setBits_rewritten hbm

/-- Nor does `pmm_free`. -/
lemma pmmFree_rewritten {p p' : Pmm RamBitmap} {addr count} (h : pmmFree p addr count = some p') :
    RamBitmap.Rewritten p.pmmBitmap p'.pmmBitmap := by
  unfold pmmFree at h
  split at h
  · simp at h
  · simp only [Option.bind_eq_bind, Option.bind_eq_some_iff, Option.some.injEq] at h
    obtain ⟨bm, hbm, rfl⟩ := h
    exact RamBitmap.resetBits_rewritten hbm

end WivOS.Mem
