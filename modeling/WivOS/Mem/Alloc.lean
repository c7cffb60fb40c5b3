import WivOS.Mem.Bitmap

/-!
# The kernel heap

Model of `kernel/mem/alloc.c`: `kmalloc`, `kfree`, `krealloc` and `kcalloc` over the page allocator. A
block is a header page followed by payload pages. The header holds the number of payload pages and the
size asked for, in the memory that also holds the bitmap and the payloads (`RamBitmap`); a pointer to a
block points at its payload.

Pointers are 64-bit addresses of the direct map, `MEM_PHYS_OFFSET` above the physical address
(`Pmm.phys`). An access outside physical memory is `none`.

The second half says what each call writes (`Keeps`) and what it leaves in the bitmap and in the header
of the block it is about: `kmalloc_spec` and `kfree_spec`.
-/

namespace WivOS.Mem
open WivOS.Lib

namespace Ram

/-- The 64-bit word at `a`, least significant byte first. -/
def load64 (m : Ram) (a : Nat) : Option Nat := do
  let low ← m.load32 a
  let high ← m.load32 (a + 4)
  some (high ++ low : BitVec 64).toNat

/-- Store a 64-bit word at `a`. -/
def store64 (m : Ram) (a v : Nat) : Option Ram :=
  if a + 8 ≤ m.size then
    let w := BitVec.ofNat 64 v
    some ((m.store32 a (w.extractLsb' 0 32)).store32 (a + 4) (w.extractLsb' 32 32))
  else none

/-- Store a byte. -/
def store8 (m : Ram) (a : Nat) (c : BitVec 8) : Option Ram :=
  if a < m.size then some { m with byte := Function.update m.byte a c } else none

/-- C `memcpy`: `n` bytes, one after the other. -/
def memcpy (m : Ram) : (dest source n : Nat) → Option Ram
  | _, _, 0 => some m
  | dest, source, n + 1 =>
    if source < m.size then do
      let m ← m.store8 dest (m.byte source)
      m.memcpy (dest + 1) (source + 1) n
    else none

end Ram

section Functions
variable (p : Pmm RamBitmap)

/-- The physical address behind a pointer of the direct map. -/
def Pmm.phys (ptr : Nat) : Nat := (2 ^ 64 - p.memPhysOffset + ptr) % 2 ^ 64

/-- Physical memory. -/
def Pmm.ram : Ram := p.pmmBitmap.ram

/-- The state with another physical memory. -/
def Pmm.setRam (m : Ram) : Pmm RamBitmap := { p with pmmBitmap := { p.pmmBitmap with ram := m } }

/-- Read the 64-bit word at a pointer. -/
def Pmm.load64 (ptr : Nat) : Option Nat := p.ram.load64 (p.phys ptr)

/-- Write the 64-bit word at a pointer. -/
def Pmm.store64 (ptr v : Nat) : Option (Pmm RamBitmap) :=
  (p.ram.store64 (p.phys ptr) v).map p.setRam

/-- The header of the block at `addr`: one page below its payload. Its first word is `pages` and its
second word is `size`. -/
def kmemHeader (addr : Nat) : Nat := (2 ^ 64 - 0x1000 + addr) % 2 ^ 64

/-- The payload pages of a block of `size` bytes: `pageCount` of `kmalloc`. -/
def pageCount (size : Nat) : Nat := size / 0x1000 + if size % 0x1000 ≠ 0 then 1 else 0

/-- C `kmalloc`. -/
def kmalloc (size : Nat) : Option (Nat × Pmm RamBitmap) := do
  let (retAddr, p) ← pmmAlloc p (pageCount size + 1)
  if retAddr = 0 then some (0, p)
  else
    let header := (retAddr + p.memPhysOffset) % 2 ^ 64
    let p ← p.store64 header (pageCount size)
    let p ← p.store64 (header + 8) size
    some ((header + 0x1000) % 2 ^ 64, p)

/-- C `kfree`. -/
def kfree (addr : Nat) : Option (Pmm RamBitmap) := do
  let pages ← p.load64 (kmemHeader addr)
  pmmFree p (p.phys (kmemHeader addr)) ((pages + 1) % 2 ^ 64)

/-- `ROUND_UP(n, PAGE_SIZE)` on a `size_t`. -/
def roundUpPage (n : Nat) : Nat := (n + 0x1000 - 1) % 2 ^ 64 / 0x1000 * 0x1000

/-- The last part of C `krealloc`: a new block with the old contents. -/
def kreallocMove (addr size : Nat) : Option (Nat × Pmm RamBitmap) := do
  let (newAddr, p) ← kmalloc p size
  if newAddr = 0 then some (0, p)
  else
    let old ← p.load64 (kmemHeader addr + 8)
    let m ← p.ram.memcpy (p.phys newAddr) (p.phys addr) (if size < old then size else old)
    let p ← kfree (p.setRam m) addr
    some (newAddr, p)

/-- C `krealloc`. -/
def krealloc (addr size : Nat) : Option (Nat × Pmm RamBitmap) :=
  if addr = 0 then kmalloc p size
  else if size = 0 then do
    let p ← kfree p addr
    some (0, p)
  else do
    let old ← p.load64 (kmemHeader addr + 8)
    if roundUpPage old = roundUpPage size then
      let p ← p.store64 (kmemHeader addr + 8) size
      some (addr, p)
    else kreallocMove p addr size

/-- C `kcalloc`. -/
def kcalloc (num nsize : Nat) : Option (Nat × Pmm RamBitmap) :=
  if num = 0 ∨ nsize = 0 then some (0, p)
  else
    let size := num * nsize % 2 ^ 64
    if nsize ≠ size / num then some (0, p)
    else do
      let (addr, p) ← kmalloc p size
      if addr = 0 then some (0, p)
      else
        let m ← p.ram.memset (p.phys addr) 0 size
        some (addr, p.setRam m)

end Functions

namespace Ram
variable {m m' : Ram}

/-- `m'` is `m` with bytes of `W` written. -/
structure Keeps (m m' : Ram) (W : Nat → Prop) : Prop where
  size : m'.size = m.size
  byte : ∀ x, ¬ W x → m'.byte x = m.byte x

/-- Writes inside a larger part. -/
lemma Keeps.mono {W W' : Nat → Prop} (h : Keeps m m' W) (le : ∀ x, W x → W' x) : Keeps m m' W' :=
  ⟨h.size, fun x hx => h.byte x fun hw => hx (le x hw)⟩

/-- Writes after each other. -/
lemma Keeps.trans {m'' : Ram} {W : Nat → Prop} (h : Keeps m m' W) (h' : Keeps m' m'' W) :
    Keeps m m'' W :=
  ⟨h'.size.trans h.size, fun x hx => (h'.byte x hx).trans (h.byte x hx)⟩

/-- A 32-bit store writes four bytes. -/
lemma store32_keeps (m : Ram) (a : Nat) (w : BitVec 32) :
    Keeps m (m.store32 a w) fun x => a ≤ x ∧ x < a + 4 :=
  ⟨rfl, fun _ hx => store32_out (by omega)⟩

/-- A 32-bit load reads four bytes. -/
lemma load32_congr {a : Nat} (hs : m'.size = m.size)
    (h : ∀ x, a ≤ x → x < a + 4 → m'.byte x = m.byte x) : m'.load32 a = m.load32 a := by
  unfold load32
  rw [hs, h a (by omega) (by omega), h (a + 1) (by omega) (by omega),
    h (a + 2) (by omega) (by omega), h (a + 3) (by omega) (by omega)]

/-- A 64-bit load reads eight bytes. -/
lemma load64_congr {a : Nat} (hs : m'.size = m.size)
    (h : ∀ x, a ≤ x → x < a + 8 → m'.byte x = m.byte x) : m'.load64 a = m.load64 a := by
  unfold load64
  rw [load32_congr hs fun x h1 h2 => h x h1 (by omega),
    load32_congr hs fun x h1 h2 => h x (by omega) (by omega)]

/-- What was stored is loaded. -/
lemma load32_store32 {a : Nat} {w : BitVec 32} (ha : a + 4 ≤ m.size) :
    (m.store32 a w).load32 a = some w := by
  obtain ⟨v, hv⟩ : ∃ v, (m.store32 a w).load32 a = some v := by
    unfold load32
    rw [if_pos (show a + 4 ≤ (m.store32 a w).size from ha)]
    exact ⟨_, rfl⟩
  rw [hv, Option.some.injEq]
  apply BitVec.eq_of_getLsbD_eq
  intro k hk
  rw [load32_getLsbD hv hk, store32_in hk]

/-- A 64-bit store writes eight bytes. -/
lemma store64_keeps {a v : Nat} (h : m.store64 a v = some m') :
    Keeps m m' fun x => a ≤ x ∧ x < a + 8 := by
  simp only [store64, Option.ite_none_right_eq_some, Option.some.injEq] at h
  obtain ⟨_, rfl⟩ := h
  refine ((store32_keeps m a _).mono fun x hx => ?_).trans
    ((store32_keeps _ (a + 4) _).mono fun x hx => ?_) <;> omega

/-- A 64-bit store inside the memory does not fault. -/
lemma store64_isSome {a v : Nat} (ha : a + 8 ≤ m.size) : ∃ m', m.store64 a v = some m' :=
  ⟨_, if_pos ha⟩

/-- What was stored is loaded. -/
lemma load64_store64 {a v : Nat} (hv : v < 2 ^ 64) (h : m.store64 a v = some m') :
    m'.load64 a = some v := by
  simp only [store64, Option.ite_none_right_eq_some, Option.some.injEq] at h
  obtain ⟨ha, rfl⟩ := h
  have low : ((m.store32 a ((BitVec.ofNat 64 v).extractLsb' 0 32)).store32 (a + 4)
      ((BitVec.ofNat 64 v).extractLsb' 32 32)).load32 a =
      some ((BitVec.ofNat 64 v).extractLsb' 0 32) := by
    rw [load32_congr (store32_keeps _ (a + 4) _).size fun x h1 h2 => store32_out (by omega)]
    exact load32_store32 (by omega)
  have high := load32_store32 (m := m.store32 a ((BitVec.ofNat 64 v).extractLsb' 0 32)) (a := a + 4)
    (w := (BitVec.ofNat 64 v).extractLsb' 32 32) (show a + 4 + 4 ≤ m.size by omega)
  have glue : (BitVec.ofNat 64 v).extractLsb' 32 32 ++ (BitVec.ofNat 64 v).extractLsb' 0 32 =
      BitVec.ofNat 64 v := by
    apply BitVec.eq_of_getLsbD_eq
    intro k hk
    rw [BitVec.getLsbD_append]
    split
    · simp [*]
    · have e : 32 + (k - 32) = k := by omega
      have e' : k - 32 < 32 := by omega
      simp [e, e']
  simp only [load64, low, high, glue, Option.bind_eq_bind, Option.bind_some, BitVec.toNat_ofNat,
    Nat.mod_eq_of_lt hv]

/-- The bits of a word are those of its bytes. -/
lemma load64_testBit {a v k : Nat} (h : m.load64 a = some v) (hk : k < 64) :
    v.testBit k = (m.byte (a + k / 8)).getLsbD (k % 8) := by
  simp only [load64, Option.bind_eq_bind, Option.bind_eq_some_iff, Option.some.injEq] at h
  obtain ⟨low, hlow, high, hhigh, rfl⟩ := h
  rw [← BitVec.getLsbD, BitVec.getLsbD_append]
  split
  case isTrue hlt => exact load32_getLsbD hlow hlt
  case isFalse hge =>
    have e1 : a + 4 + (k - 32) / 8 = a + k / 8 := by omega
    have e2 : (k - 32) % 8 = k % 8 := by omega
    rw [load32_getLsbD hhigh (by omega), e1, e2]

/-- A 64-bit load inside the memory does not fault. -/
lemma load64_isSome {a : Nat} (ha : a + 8 ≤ m.size) : ∃ v, m.load64 a = some v := by
  simp only [load64, load32, if_pos (show a + 4 ≤ m.size by omega),
    if_pos (show a + 4 + 4 ≤ m.size by omega), Option.bind_eq_bind, Option.bind_some]
  exact ⟨_, rfl⟩

/-- A loaded word has 64 bits. -/
lemma load64_lt {a v : Nat} (h : m.load64 a = some v) : v < 2 ^ 64 := by
  simp only [load64, Option.bind_eq_bind, Option.bind_eq_some_iff, Option.some.injEq] at h
  obtain ⟨low, _, high, _, rfl⟩ := h
  exact (high ++ low : BitVec 64).isLt

/-- `memset` writes its range. -/
lemma memset_keeps {a c n} (h : m.memset a c n = some m') :
    Keeps m m' fun x => a ≤ x ∧ x < a + n := by
  simp only [memset, Option.ite_none_right_eq_some, Option.some.injEq] at h
  obtain ⟨_, rfl⟩ := h
  exact ⟨rfl, fun x hx => if_neg hx⟩

/-- Every byte of the range gets the value. -/
lemma memset_byte {a c n} (h : m.memset a c n = some m') {x} (h1 : a ≤ x) (h2 : x < a + n) :
    m'.byte x = c := by
  simp only [memset, Option.ite_none_right_eq_some, Option.some.injEq] at h
  obtain ⟨_, rfl⟩ := h
  exact if_pos ⟨h1, h2⟩

/-- A range that is not empty ends inside the memory. -/
lemma memset_end_le {a c n} (h : m.memset a c n = some m') (hn : n ≠ 0) : a + n ≤ m.size := by
  simp only [memset, Option.ite_none_right_eq_some] at h
  omega

/-- A byte store writes its byte. -/
lemma store8_keeps {a c} (h : m.store8 a c = some m') : Keeps m m' fun x => x = a := by
  simp only [store8, Option.ite_none_right_eq_some, Option.some.injEq] at h
  obtain ⟨_, rfl⟩ := h
  exact ⟨rfl, fun x hx => Function.update_of_ne hx _ _⟩

/-- `memcpy` writes its destination. -/
lemma memcpy_keeps {dest source n} (h : m.memcpy dest source n = some m') :
    Keeps m m' fun x => dest ≤ x ∧ x < dest + n := by
  induction n generalizing m dest source with
  | zero =>
    cases h
    exact ⟨rfl, fun _ _ => rfl⟩
  | succ n ih =>
    simp only [memcpy, Option.ite_none_right_eq_some, Option.bind_eq_bind,
      Option.bind_eq_some_iff] at h
    obtain ⟨_, m1, h1, h⟩ := h
    refine ((store8_keeps h1).mono fun x hx => ?_).trans ((ih h).mono fun x hx => ?_) <;> omega

/-- A copy between ranges of physical memory returns. -/
lemma memcpy_isSome {dest source n} (hd : dest + n ≤ m.size) (hs : source + n ≤ m.size) :
    ∃ m', m.memcpy dest source n = some m' := by
  induction n generalizing m dest source with
  | zero => exact ⟨m, rfl⟩
  | succ n ih =>
    obtain ⟨m', h⟩ : ∃ m', memcpy { m with byte := Function.update m.byte dest (m.byte source) }
        (dest + 1) (source + 1) n = some m' := ih (by simp only; omega) (by simp only; omega)
    refine ⟨m', ?_⟩
    simp only [memcpy, store8, if_pos (show source < m.size by omega),
      if_pos (show dest < m.size by omega)]
    exact h

end Ram

/-- Physical address `x` is in the `n` pages from page `i` on. -/
def InPages (i n x : Nat) : Prop := 0x1000 * i ≤ x ∧ x < 0x1000 * (i + n)

/-- The addresses of a page range are those whose page is in it. -/
lemma inPages_iff {i n x : Nat} : InPages i n x ↔ i ≤ x / 0x1000 ∧ x / 0x1000 < i + n := by
  unfold InPages
  omega

section Specs
variable {p p' : Pmm RamBitmap}

/-- The bit of page `i`. -/
def Pmm.bit (p : Pmm RamBitmap) (i : Nat) : Bool := BitStore.bit p.pmmBitmap i

/-- Physical address `x` holds bits of the bitmap below `PmmLength`. -/
def Storage (p : Pmm RamBitmap) (x : Nat) : Prop :=
  p.pmmBitmap.base ≤ x ∧ x < p.pmmBitmap.base + (p.pmmLength + 7) / 8

/-- The pages that hold the bitmap are marked, and the direct map of physical memory is above physical
memory and does not wrap. -/
structure Ready (p : Pmm RamBitmap) : Prop where
  reserved : ∀ x, Storage p x → x / 0x1000 < p.pmmLength → p.bit (x / 0x1000) = true
  offset : p.ram.size ≤ p.memPhysOffset
  offset_lt : p.memPhysOffset + p.ram.size < 2 ^ 64

/-- `p'` is `p` after bytes of `W` were written. -/
structure Keeps (p p' : Pmm RamBitmap) (W : Nat → Prop) : Prop where
  length : p'.pmmLength = p.pmmLength
  base : p'.pmmBitmap.base = p.pmmBitmap.base
  offset : p'.memPhysOffset = p.memPhysOffset
  ram : Ram.Keeps p.ram p'.ram W

/-- Nothing written. -/
lemma Keeps.refl (p : Pmm RamBitmap) (W : Nat → Prop) : Keeps p p W :=
  ⟨rfl, rfl, rfl, rfl, fun _ _ => rfl⟩

/-- Writes inside a larger part. -/
lemma Keeps.mono {W W' : Nat → Prop} (h : Keeps p p' W) (le : ∀ x, W x → W' x) : Keeps p p' W' :=
  ⟨h.length, h.base, h.offset, h.ram.mono le⟩

/-- Writes after each other. -/
lemma Keeps.trans {q : Pmm RamBitmap} {W : Nat → Prop} (h : Keeps p p' W) (h' : Keeps p' q W) :
    Keeps p q W :=
  ⟨h'.length.trans h.length, h'.base.trans h.base, h'.offset.trans h.offset, h.ram.trans h'.ram⟩

/-- The bitmap stays where it is. -/
lemma Keeps.storage {W : Nat → Prop} (h : Keeps p p' W) {x} : Storage p' x ↔ Storage p x := by
  unfold Storage
  rw [h.length, h.base]

/-- And it can be read as far. -/
lemma Keeps.span {W : Nat → Prop} (h : Keeps p p' W) :
    BitStore.span p'.pmmBitmap = BitStore.span p.pmmBitmap := by
  show RamBitmap.span _ = RamBitmap.span _
  unfold RamBitmap.span
  rw [h.base]
  congr 3
  exact h.ram.size

/-- Writes that miss the bitmap leave its bits. -/
lemma Keeps.bit {W : Nat → Prop} (h : Keeps p p' W) (miss : ∀ x, Storage p x → ¬ W x) {i}
    (hi : i < p.pmmLength) : p'.bit i = p.bit i := by
  show (p'.ram.byte (p'.pmmBitmap.base + i / 8)).getLsbD (i % 8) =
    (p.ram.byte (p.pmmBitmap.base + i / 8)).getLsbD (i % 8)
  rw [h.base, h.ram.byte _ (miss _ ⟨by omega, by omega⟩)]

/-- Another memory in the same setup. -/
lemma setRam_keeps {m W} (h : Ram.Keeps p.ram m W) : Keeps p (p.setRam m) W :=
  ⟨rfl, rfl, rfl, h⟩

/-- The loops over bits below `PmmLength` write the bitmap only. -/
lemma keeps_of_fill {i n b} (rw_ : RamBitmap.Rewritten p.pmmBitmap p'.pmmBitmap)
    (length : p'.pmmLength = p.pmmLength) (offset : p'.memPhysOffset = p.memPhysOffset)
    (bits : p'.bit = fill p.bit i n b) (below : i + n ≤ p.pmmLength) :
    Keeps p p' (Storage p) := by
  refine ⟨length, rw_.base, offset, rw_.size, fun x hx => ?_⟩
  by_cases hlo : x < p.pmmBitmap.base
  · exact rw_.below x hlo
  · refine RamBitmap.byte_eq_of_bit rw_.base (by omega) fun j hj => ?_
    show p'.bit j = p.bit j
    rw [bits, fill_out]
    unfold Storage at hx
    omega

/-- The direct map is undone. -/
lemma phys_add {x : Nat} (hx : x < 2 ^ 64) (ho : p.memPhysOffset ≤ 2 ^ 64) :
    p.phys (x + p.memPhysOffset) = x := by
  unfold Pmm.phys
  omega

/-- What a successful `pmm_alloc` of `n` pages at page `i` does. -/
structure Granted (p : Pmm RamBitmap) (n i : Nat) (p' : Pmm RamBitmap) : Prop where
  pos : 1 ≤ i
  below : i + n ≤ p.pmmLength
  span : i + n ≤ BitStore.span p.pmmBitmap
  inRam : 0x1000 * (i + n) ≤ p.ram.size
  clear : ∀ j, i ≤ j → j < i + n → p.bit j = false
  apart : ∀ x, Storage p x → ¬ InPages i n x
  keeps : Keeps p p' fun x => Storage p x ∨ InPages i n x
  bit : ∀ j < p.pmmLength, p'.bit j = fill p.bit i n true j
  zero : ∀ x, InPages i n x → p'.ram.byte x = 0

/-- A `pmm_alloc` that does not fail marks its first fit and then fills the pages with zeros. -/
lemma pmmAlloc_placed {n a} (hn : 1 ≤ n) (h : pmmAlloc p n = some (a, p')) (ha : a ≠ 0) :
    ∃ i q m, a = 0x1000 * i ∧ FirstFit p n 1 i ∧ Taken p n i q ∧
      RamBitmap.Rewritten p.pmmBitmap q.pmmBitmap ∧
      q.ram.memset (0x1000 * i) 0 (0x1000 * n % 2 ^ 64) = some m ∧ p' = q.setRam m := by
  simp only [pmmAlloc, Option.bind_eq_bind, Option.bind_eq_some_iff, Option.some.injEq,
    Prod.mk.injEq] at h
  obtain ⟨⟨b, q⟩, hq, s, hs, rfl, rfl⟩ := h
  obtain ⟨i, fit, rfl, taken⟩ | ⟨rfl, _⟩ := pmmAllocAdvanced_cases hn (by omega) hq
  case inr => exact absurd rfl ha
  obtain ⟨m, hm, rfl⟩ := Option.map_eq_some_iff.mp hs
  rw [Nat.mul_comm i] at hm ⊢
  exact ⟨i, q, m, rfl, fit, taken, pmmAllocAdvanced_rewritten hq, hm, rfl⟩

/-- With a first fit inside physical memory `pmm_alloc` does not fail. -/
lemma pmmAlloc_of_fit {n i} (hn : 1 ≤ n) (fit : FirstFit p n 1 i)
    (hin : 0x1000 * (i + n) ≤ p.ram.size) : ∃ q, pmmAlloc p n = some (0x1000 * i, q) := by
  obtain ⟨q, hq, _⟩ := pmmAllocAdvanced_of_fit hn le_rfl (by omega) fit
  have hsize := (pmmAllocAdvanced_rewritten hq).size
  have hmod := Nat.mod_le (0x1000 * n) (2 ^ 64)
  rw [Nat.mul_comm i] at hq
  obtain ⟨m, hm⟩ : ∃ m, q.pmmBitmap.ram.memset (0x1000 * i) 0 (0x1000 * n % 2 ^ 64) = some m := by
    refine ⟨_, if_pos (.inr ?_)⟩
    rw [hsize]
    exact Nat.le_trans (by omega) hin
  have hs : PageStore.memset q.pmmBitmap (0x1000 * i) 0 (0x1000 * n % 2 ^ 64) =
      some { q.pmmBitmap with ram := m } := congrArg (Option.map _) hm
  refine ⟨q.setRam m, ?_⟩
  simp only [pmmAlloc, hq, hs, Option.bind_eq_bind, Option.bind_some]
  rfl

/-- A `pmm_alloc` that does not fail and ends below `PmmLength` grants its pages. -/
lemma pmmAlloc_granted {n a} (ready : Ready p) (hn : 1 ≤ n)
    (h : pmmAlloc p n = some (a, p')) (ha : a ≠ 0)
    (fits : ∀ i, FirstFit p n 1 i → i + n ≤ p.pmmLength) :
    ∃ i, a = 0x1000 * i ∧ Granted p n i p' := by
  obtain ⟨i, q, m, rfl, fit, taken, rewritten, hm, rfl⟩ := pmmAlloc_placed hn h ha
  have below := fits i fit
  have hlen := p.pmmLength_lt
  have clear : ∀ j, i ≤ j → j < i + n → p.bit j = false := fun j h1 h2 => (fit.clear j h1 h2).2
  -- a page of the bitmap is marked, and the pages taken were not
  have apart : ∀ x, Storage p x → ¬ InPages i n x := by
    intro x hx hin
    obtain ⟨h1, h2⟩ := inPages_iff.mp hin
    have := ready.reserved x hx (by omega)
    rw [clear _ h1 h2] at this
    contradiction
  have marks := keeps_of_fill rewritten taken.length taken.offset taken.bit below
  have hsize : 0x1000 * n % 2 ^ 64 = 0x1000 * n := by omega
  rw [hsize] at hm
  have fills : Keeps q (q.setRam m) (InPages i n) :=
    setRam_keeps ((Ram.memset_keeps hm).mono fun x hx => by unfold InPages; omega)
  refine ⟨i, rfl, ⟨by omega, below, fit.clear.end_le hn, ?_, clear, apart, ?_, ?_, ?_⟩⟩
  · have hend := Ram.memset_end_le hm (by omega)
    rw [marks.ram.size] at hend
    omega
  · exact (marks.mono fun x hx => .inl hx).trans (fills.mono fun x hx => .inr hx)
  · intro j hj
    rw [fills.bit (fun x hx => apart x (marks.storage.mp hx)) (by rw [taken.length]; exact hj)]
    exact congrFun taken.bit j
  · intro x hx
    obtain ⟨h1, h2⟩ := hx
    exact Ram.memset_byte hm (by omega) (by omega)

/-- Writes that leave the marks of the bitmap's own pages keep the setup ready. -/
lemma Ready.keep {W : Nat → Prop} (ready : Ready p) (h : Keeps p p' W)
    (bits : ∀ j < p.pmmLength, p.bit j = true → (∃ x, Storage p x ∧ x / 0x1000 = j) →
      p'.bit j = true) : Ready p' := by
  refine ⟨fun x hx hlt => ?_, ?_, ?_⟩
  · have hx' := h.storage.mp hx
    rw [h.length] at hlt
    exact bits _ hlt (ready.reserved x hx' hlt) ⟨x, hx', rfl⟩
  · rw [h.ram.size, h.offset]
    exact ready.offset
  · rw [h.ram.size, h.offset]
    exact ready.offset_lt

/-- The header of a block at page `i`: the number of payload pages and the size. -/
structure HasHeader (p : Pmm RamBitmap) (i pages size : Nat) : Prop where
  pages : p.ram.load64 (0x1000 * i) = some pages
  size : p.ram.load64 (0x1000 * i + 8) = some size

/-- Writes outside the header's page keep it. -/
lemma HasHeader.keep {W : Nat → Prop} {i pages size} (hd : HasHeader p i pages size)
    (h : Keeps p p' W) (miss : ∀ x, InPages i 1 x → ¬ W x) : HasHeader p' i pages size := by
  constructor
  · rw [← hd.pages]
    refine Ram.load64_congr h.ram.size fun x h1 h2 => h.ram.byte x (miss x ⟨by omega, by omega⟩)
  · rw [← hd.size]
    refine Ram.load64_congr h.ram.size fun x h1 h2 => h.ram.byte x (miss x ⟨by omega, by omega⟩)

/-- The pointer to the payload of a block whose header is at page `i`. -/
def payload (p : Pmm RamBitmap) (i : Nat) : Nat := 0x1000 * i + p.memPhysOffset + 0x1000

/-- The header of a payload is at the start of the page before it. -/
lemma kmemHeader_payload {i : Nat} (h : 0x1000 * i + p.memPhysOffset < 2 ^ 64) :
    kmemHeader (payload p i) = 0x1000 * i + p.memPhysOffset := by
  unfold kmemHeader payload
  omega

/-- The physical address of the page count in the header. -/
lemma phys_kmemHeader {i : Nat} (h : 0x1000 * i + p.memPhysOffset < 2 ^ 64) :
    p.phys (kmemHeader (payload p i)) = 0x1000 * i := by
  rw [kmemHeader_payload h]
  exact phys_add (by omega) (by omega)

/-- And of the size behind it. -/
lemma phys_kmemHeader_size {i : Nat} (h : 0x1000 * i + 8 + p.memPhysOffset < 2 ^ 64) :
    p.phys (kmemHeader (payload p i) + 8) = 0x1000 * i + 8 := by
  rw [kmemHeader_payload (by omega), Nat.add_right_comm]
  exact phys_add (by omega) (by omega)

/-- The physical address of a byte of the payload. -/
lemma phys_payload {i j : Nat} (h : 0x1000 * (i + 1) + j + p.memPhysOffset < 2 ^ 64) :
    p.phys (payload p i + j) = 0x1000 * (i + 1) + j := by
  have e : payload p i + j = 0x1000 * (i + 1) + j + p.memPhysOffset := by
    unfold payload
    omega
  rw [e]
  exact phys_add (by omega) (by omega)

/-- What a successful `kmalloc` of `size` bytes does: it marks `pageCount size + 1` clear pages from
page `i` on and writes nothing else, the first page is the header and the others are zero. -/
structure Allocated (p : Pmm RamBitmap) (size i : Nat) (p' : Pmm RamBitmap) : Prop where
  pos : 1 ≤ i
  below : i + (pageCount size + 1) ≤ p.pmmLength
  span : i + (pageCount size + 1) ≤ BitStore.span p.pmmBitmap
  inRam : 0x1000 * (i + (pageCount size + 1)) ≤ p.ram.size
  clear : ∀ j, i ≤ j → j < i + (pageCount size + 1) → p.bit j = false
  apart : ∀ x, Storage p x → ¬ InPages i (pageCount size + 1) x
  keeps : Keeps p p' fun x => Storage p x ∨ InPages i (pageCount size + 1) x
  bit : ∀ j < p.pmmLength, p'.bit j = fill p.bit i (pageCount size + 1) true j
  header : HasHeader p' i (pageCount size) size
  zero : ∀ x, InPages (i + 1) (pageCount size) x → p'.ram.byte x = 0

/-- The page count does not wrap. -/
lemma pageCount_lt {size : Nat} (h : size < 2 ^ 64) : pageCount size < 2 ^ 64 := by
  unfold pageCount
  split <;> omega

/-- The two words of a header, written one after the other. -/
lemma store_header {i pages size} (hp : pages < 2 ^ 64) (hs : size < 2 ^ 64)
    (hin : 0x1000 * (i + 1) ≤ p.ram.size) (ho : p.memPhysOffset + p.ram.size < 2 ^ 64) :
    ∃ q r, p.store64 (0x1000 * i + p.memPhysOffset) pages = some q ∧
      q.store64 (0x1000 * i + p.memPhysOffset + 8) size = some r ∧
      Keeps p r (fun x => 0x1000 * i ≤ x ∧ x < 0x1000 * i + 16) ∧ HasHeader r i pages size := by
  obtain ⟨m, hm⟩ := Ram.store64_isSome (m := p.ram) (a := 0x1000 * i) (v := pages) (by omega)
  have km := Ram.store64_keeps hm
  obtain ⟨m', hm'⟩ := Ram.store64_isSome (m := m) (a := 0x1000 * i + 8) (v := size)
    (by rw [km.size]; omega)
  have km' := Ram.store64_keeps hm'
  have e1 : p.phys (0x1000 * i + p.memPhysOffset) = 0x1000 * i := phys_add (by omega) (by omega)
  have e2 : (p.setRam m).phys (0x1000 * i + p.memPhysOffset + 8) = 0x1000 * i + 8 := by
    rw [Nat.add_right_comm]
    exact phys_add (p := p.setRam m) (by omega) (show p.memPhysOffset ≤ 2 ^ 64 by omega)
  refine ⟨p.setRam m, p.setRam m', ?_, ?_, setRam_keeps ?_, ?_, ?_⟩
  · rw [Pmm.store64, e1, hm, Option.map_some]
  · rw [Pmm.store64, e2]
    exact congrArg (Option.map (p.setRam m).setRam) hm'
  · refine (km.mono fun x hx => ?_).trans (km'.mono fun x hx => ?_) <;> omega
  · show m'.load64 (0x1000 * i) = some pages
    rw [Ram.load64_congr km'.size fun x h1 h2 => km'.byte x (by omega)]
    exact Ram.load64_store64 hp hm
  · exact Ram.load64_store64 hs hm'

/-- C `kmalloc` after a `pmm_alloc` that did not fail: the header is written. -/
lemma kmalloc_of_pmmAlloc {size i q} (hs : size < 2 ^ 64)
    (h : pmmAlloc p (pageCount size + 1) = some (0x1000 * i, q)) (hi : 1 ≤ i)
    (hq : q.ram.size = p.ram.size) (ho : q.memPhysOffset = p.memPhysOffset)
    (hin : 0x1000 * (i + 1) ≤ p.ram.size) (hoff : p.memPhysOffset + p.ram.size < 2 ^ 64) :
    ∃ r, kmalloc p size = some (payload p i, r) ∧ Keeps q r (InPages i 1) ∧
      HasHeader r i (pageCount size) size := by
  obtain ⟨q1, r, h1, h2, kr, hd⟩ := store_header (p := q) (i := i) (pageCount_lt hs) hs
    (by rw [hq]; omega) (by rw [hq, ho]; omega)
  have hptr : (0x1000 * i + q.memPhysOffset) % 2 ^ 64 = 0x1000 * i + q.memPhysOffset := by
    rw [ho]
    omega
  have hret : (0x1000 * i + q.memPhysOffset + 0x1000) % 2 ^ 64 = payload p i := by
    rw [payload, ho]
    omega
  have ha : 0x1000 * i ≠ 0 := by omega
  refine ⟨r, ?_, kr.mono fun x hx => ⟨by omega, by omega⟩, hd⟩
  simp only [kmalloc, h, Option.bind_eq_bind, Option.bind_some, if_neg ha, hptr, h1, h2, hret]

/-- C `kmalloc` where its `pmm_alloc` succeeds with pages below `PmmLength`. -/
lemma kmalloc_spec {size a q} (ready : Ready p) (hs : size < 2 ^ 64)
    (h : pmmAlloc p (pageCount size + 1) = some (a, q)) (ha : a ≠ 0)
    (fits : ∀ i, FirstFit p (pageCount size + 1) 1 i → i + (pageCount size + 1) ≤ p.pmmLength) :
    ∃ i p', a = 0x1000 * i ∧ kmalloc p size = some (payload p i, p') ∧ Allocated p size i p' := by
  obtain ⟨i, rfl, g⟩ := pmmAlloc_granted ready (by omega) h ha fits
  have hram := g.inRam
  obtain ⟨r, hr, k, hd⟩ := kmalloc_of_pmmAlloc hs h g.pos g.keeps.ram.size g.keeps.offset (by omega)
    ready.offset_lt
  have miss : ∀ x, Storage q x → ¬ InPages i 1 x := fun x hx hin =>
    g.apart x (g.keeps.storage.mp hx) ⟨hin.1, by have := hin.2; omega⟩
  refine ⟨i, r, rfl, hr, ⟨g.pos, g.below, g.span, g.inRam, g.clear, g.apart, ?_, ?_, hd, ?_⟩⟩
  · refine g.keeps.trans (k.mono fun x hx => .inr ⟨hx.1, ?_⟩)
    have := hx.2
    omega
  · intro j hj
    rw [k.bit miss (by rw [g.keeps.length]; exact hj), g.bit j hj]
  · intro x hx
    obtain ⟨lo, hi⟩ := hx
    rw [k.ram.byte x fun hin => by have := hin.2; omega]
    exact g.zero x ⟨by omega, by omega⟩

/-- C `kfree` of a block with `pages` payload pages: it clears the bits of the block and writes
nothing else. -/
lemma kfree_spec {i pages size} (ready : Ready p) (hd : HasHeader p i pages size)
    (below : i + (pages + 1) ≤ p.pmmLength) (span : i + (pages + 1) ≤ BitStore.span p.pmmBitmap)
    (hin : 0x1000 * (i + (pages + 1)) ≤ p.ram.size) :
    ∃ p', kfree p (payload p i) = some p' ∧ Keeps p p' (Storage p) ∧
      p'.bit = fill p.bit i (pages + 1) false := by
  have hoff := ready.offset
  have hlt := ready.offset_lt
  have hphys : p.phys (kmemHeader (payload p i)) = 0x1000 * i := phys_kmemHeader (by omega)
  have hpages : p.load64 (kmemHeader (payload p i)) = some pages := by
    rw [Pmm.load64, hphys]
    exact hd.pages
  have hlen := p.pmmLength_lt
  have hcount : (pages + 1) % 2 ^ 64 = pages + 1 := by omega
  have hpage : 0x1000 * i / 0x1000 = i := Nat.mul_div_cancel_left i (by decide)
  obtain ⟨s, hs⟩ := Option.isSome_iff_exists.mp
    (resetBits_isSome (s := p.pmmBitmap) (i := i) (n := pages + 1) (.inr span))
  have hfree : pmmFree p (0x1000 * i) (pages + 1) =
      some { p with pmmBitmap := s, pmmFreePages := (p.pmmFreePages + (pages + 1)) % 2 ^ 64 } := by
    rw [pmmFree, if_neg (by omega), hpage, hs]
    rfl
  have hbit := (pmmFree_some hfree).1
  rw [hpage] at hbit
  refine ⟨_, ?_, ?_, hbit⟩
  · simp only [kfree, hpages, hphys, hcount, Option.bind_eq_bind, Option.bind_some]
    exact hfree
  · exact keeps_of_fill (pmmFree_rewritten hfree) rfl rfl hbit below

end Specs

end WivOS.Mem
