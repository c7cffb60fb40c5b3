import Mathlib.Data.Nat.Bitwise
import WivOS.Vmm.Calls

/-!
# Page tables on x86_64

`kernel/arch/x86_64/vmm.c`: four levels, unrolled. Entries hold the physical address in place, and a
leaf of 2 MiB is marked by `VMM_LARGE`. As on riscv64, the C functions are equal to the operations on
radix tables in a tree of entries that they wrote themselves.
-/

namespace WivOS.Vmm.X86
open WivOS.Lib WivOS.Lib.Radix

def vmmFlagMask : Nat := 0xFFF ||| 1 <<< 63
def vmmAddrMask : Nat := 2 ^ 64 - 1 - vmmFlagMask
def vmmPresent : Nat := 1 <<< 0
def vmmWrite : Nat := 1 <<< 1
def vmmUser : Nat := 1 <<< 2
def vmmLarge : Nat := 1 <<< 7

/-- C `pt_offset_t`. -/
structure PtOffset where
  pml4Off : Nat
  pdpOff : Nat
  pdOff : Nat
  ptOff : Nat

/-- C `get_addr_offsets`. -/
def getAddrOffsets (addr : Nat) : PtOffset where
  pml4Off := (addr &&& 0x1FF <<< 39) >>> 39
  pdpOff := (addr &&& 0x1FF <<< 30) >>> 30
  pdOff := (addr &&& 0x1FF <<< 21) >>> 21
  ptOff := (addr &&& 0x1FF <<< 12) >>> 12

/-- The pointer to a table that `vmm_get_or_alloc` and `vmm_get_or_null` make of an entry. -/
def tablePointer (h : Hhdm) (entry : Nat) : Nat :=
  ((entry &&& vmmAddrMask) + h.memPhysOffset) % 2 ^ 64

/-- C `vmm_get_or_alloc`; without a page it spins forever. -/
def vmmGetOrAlloc (h : Hhdm) (pt offset flags : Nat) (m : PhysMem) : Except Stop (Nat × PhysMem) :=
  let addr := h.load m pt offset
  if addr &&& vmmPresent = 0 then
    let (addr, m) := pmmAlloc m
    let m := h.store m pt offset addr
    if addr = 0 then .error .outOfFrames
    else
      let m := h.store m pt offset (h.load m pt offset ||| (flags ||| vmmPresent))
      .ok (tablePointer h addr, m)
  else .ok (tablePointer h addr, m)

/-- C `vmm_get_or_null`. -/
def vmmGetOrNull (h : Hhdm) (pt offset : Nat) (m : PhysMem) : Nat :=
  let addr := h.load m pt offset
  if addr &&& vmmPresent = 0 then 0 else tablePointer h addr

/-- The entry that maps a page: `phys | permissions | VMM_PRESENT`, with `VMM_LARGE` for 2 MiB. -/
def leafEntry (huge : Bool) (phys permissions : Nat) : Nat :=
  if huge then phys ||| permissions ||| vmmPresent ||| vmmLarge
  else phys ||| permissions ||| vmmPresent

/-- C `vmm_map_advanced`, for the table in the page at `entries`. -/
def vmmMapAdvanced (h : Hhdm) (entries permissions : Nat) (huge : Bool) :
    Nat → Nat → Nat → PhysMem → Except Stop (Bool × PhysMem)
  | 0, _, _, m => return (true, m)
  | size + 1, addr, phys, m => do
    let offset := getAddrOffsets addr
    let pml4 := (entries + h.memPhysOffset) % 2 ^ 64
    if pml4 = 0 then return (false, m)
    let (pdp, m) ← vmmGetOrAlloc h pml4 offset.pml4Off (vmmWrite ||| vmmUser) m
    if pdp = 0 then return (false, m)
    let (pd, m) ← vmmGetOrAlloc h pdp offset.pdpOff (vmmWrite ||| vmmUser) m
    if pd = 0 then return (false, m)
    let step := if huge then 0x200000 else 0x1000
    if huge then
      let m := h.store m pd offset.pdOff (leafEntry true phys permissions)
      vmmMapAdvanced h entries permissions huge size ((addr + step) % 2 ^ 64)
        ((phys + step) % 2 ^ 64) m
    else
      let (pt, m) ← vmmGetOrAlloc h pd offset.pdOff (vmmWrite ||| vmmUser) m
      if pt = 0 then return (false, m)
      let m := h.store m pt offset.ptOff (leafEntry false phys permissions)
      vmmMapAdvanced h entries permissions huge size ((addr + step) % 2 ^ 64)
        ((phys + step) % 2 ^ 64) m

/-- C `vmm_map`. -/
def vmmMap (h : Hhdm) (entries addr phys size permissions : Nat) (m : PhysMem) :
    Except Stop (Bool × PhysMem) :=
  vmmMapAdvanced h entries permissions false size addr phys m

/-- C `vmm_map_huge`. -/
def vmmMapHuge (h : Hhdm) (entries addr phys size permissions : Nat) (m : PhysMem) :
    Except Stop (Bool × PhysMem) :=
  vmmMapAdvanced h entries permissions true size addr phys m

/-- C `vmm_unmap`, for `fuel` rounds of its loop at most; a last table that is `NULL` is dereferenced. -/
def vmmUnmap (h : Hhdm) (entries : Nat) :
    Nat → Nat → Nat → PhysMem → Option (Except Stop (Bool × PhysMem))
  | 0, _, _, _ => none
  | fuel + 1, addr, size, m =>
    if size = 0 then some (.ok (true, m))
    else
      let size := size - 1
      let offset := getAddrOffsets addr
      let pml4 := (entries + h.memPhysOffset) % 2 ^ 64
      if pml4 = 0 then some (.ok (false, m))
      else
        let pdp := vmmGetOrNull h pml4 offset.pml4Off m
        if pdp = 0 then some (.ok (false, m))
        else
          let pd := vmmGetOrNull h pdp offset.pdpOff m
          if pd = 0 then some (.ok (false, m))
          else if h.load m pd offset.pdOff &&& vmmLarge ≠ 0 then
            -- a leaf of 2 MiB: `size -= 0x200`, though `size--` came before
            if size < 0x1FF then some (.ok (false, m))
            else
              vmmUnmap h entries fuel ((addr + 0x200000) % 2 ^ 64) ((size + 2 ^ 64 - 0x200) % 2 ^ 64)
                (h.store m pd offset.pdOff 0)
          else
            let pt := vmmGetOrNull h pd offset.pdOff m
            -- no test for `NULL` before the write
            if pt = 0 then some (.error .fault)
            else
              vmmUnmap h entries fuel ((addr + 0x1000) % 2 ^ 64) size (h.store m pt offset.ptOff 0)

/-- The flags of an entry: its bits 11 to 0, and 63. -/
def entryFlags (w : Nat) : Nat := w % 2 ^ 12 + w / 2 ^ 63 * 2 ^ 63

/-- What the architecture makes of an entry at level `l`: pages of 4 KiB, and pages of 2 MiB and 1 GiB
marked in bit 7 whose address has none of the reserved bits. -/
def pteDecode (l w : Nat) : Slot Nat (Nat × Nat) :=
  if w.testBit 0 = false then .empty
  else if l = 0 then .leaf (w / 2 ^ 12 % 2 ^ 40 * 2 ^ 12, entryFlags w)
  else if w.testBit 7 = true then
    if l ≤ 2 ∧ w / 2 ^ 13 % 2 ^ (9 * l - 1) = 0 then
      .leaf (w / span l % 2 ^ (40 - 9 * l) * span l, entryFlags w)
    else .empty
  else .table (w / 2 ^ 12 % 2 ^ 40)

/-- The entry that links a table, as `vmm_get_or_alloc` leaves it. -/
def tableEntry (page : Nat) : Nat := 0x1000 * page ||| (vmmWrite ||| vmmUser ||| vmmPresent)

/-- A page that can be a table: within the architecture's 52 bits. -/
structure TablePage (h : Hhdm) (page : Nat) : Prop where
  apart : h.TablePage page
  lt : page < 2 ^ 40

/-- A set of flags: `permissions` has bits of `VMM_FLAG_MASK` only. -/
def FlagBits (permissions : Nat) : Prop := permissions < 2 ^ 64 ∧ permissions % 2 ^ 63 < 2 ^ 12

/-- The entries that the kernel writes at level `l`. -/
inductive KernelEntry (h : Hhdm) (l : Nat) : Nat → Prop where
  | none : KernelEntry h l 0
  | table {page} : 0 < l → TablePage h page → KernelEntry h l (tableEntry page)
  | leaf {phys permissions} : l ≤ 1 → span l ∣ phys → phys < 2 ^ 52 → FlagBits permissions →
      KernelEntry h l (leafEntry (l = 1) phys permissions)

section Entries
variable {h : Hhdm} {l page phys permissions : Nat}

/-- An entry that links a table has its page and the bits 0 to 2. -/
lemma tableEntry_eq : tableEntry page = 2 ^ 12 * page + 7 := by
  rw [tableEntry, show 0x1000 * page = 2 ^ 12 * page from rfl, Nat.two_pow_add_eq_or_of_lt (by norm_num)]
  rfl

/-- The low bits of an entry are its flags. -/
lemma testBit_low {a b i : Nat} (hb : b < 2 ^ 12) (hi : i < 12) :
    (2 ^ 12 * a + b).testBit i = b.testBit i := by
  rw [Nat.testBit_two_pow_mul_add _ hb, if_pos hi]

/-- A zeroed entry is empty. -/
lemma pteDecode_zero : pteDecode l 0 = .empty := by
  simp [pteDecode]

/-- What links a table is decoded as one. -/
lemma pteDecode_table (hl : 0 < l) (hp : page < 2 ^ 40) :
    pteDecode l (tableEntry page) = .table page := by
  have bit : ∀ i < 12, (tableEntry page).testBit i = (7 : Nat).testBit i := by
    intro i hi
    rw [tableEntry_eq, testBit_low (by norm_num) hi]
  have e : tableEntry page / 2 ^ 12 % 2 ^ 40 = page := by
    rw [tableEntry_eq]
    omega
  simp only [pteDecode, bit 0 (by decide), bit 7 (by decide), e, Nat.ne_of_gt hl]
  simp [Nat.testBit]

/-- The flags of a leaf, whatever its address. -/
def leafFlags (huge : Bool) (permissions : Nat) : Nat := entryFlags (leafEntry huge 0 permissions)

/-- The entry of a leaf is its address and its flags. -/
lemma leafEntry_or {huge : Bool} :
    leafEntry huge phys permissions = phys ||| leafEntry huge 0 permissions := by
  unfold leafEntry
  cases huge <;> simp [Nat.or_assoc]

/-- The part of a leaf beside its address has flag bits only. -/
lemma leafEntry_flagBits {huge : Bool} (hp : FlagBits permissions) :
    FlagBits (leafEntry huge 0 permissions) := by
  have low : ∀ {a b : Nat}, FlagBits a → FlagBits b → FlagBits (a ||| b) := by
    rintro a b ⟨ha, ha'⟩ ⟨hb, hb'⟩
    refine ⟨Nat.or_lt_two_pow ha hb, ?_⟩
    rw [Nat.or_mod_two_pow]
    exact Nat.or_lt_two_pow ha' hb'
  have present : FlagBits vmmPresent := ⟨by decide, by decide⟩
  have large : FlagBits vmmLarge := ⟨by decide, by decide⟩
  unfold leafEntry
  cases huge
  · simpa using low hp present
  · simpa using low (low hp present) large

/-- It is present. -/
lemma leafEntry_testBit_zero {huge : Bool} : (leafEntry huge phys permissions).testBit 0 = true := by
  unfold leafEntry vmmPresent
  cases huge <;> simp

/-- A huge leaf has bit 7. -/
lemma leafEntry_testBit_large : (leafEntry true phys permissions).testBit 7 = true := by
  rw [leafEntry, if_pos rfl, Nat.testBit_or, show vmmLarge.testBit 7 = true by decide, Bool.or_true]

/-- What maps a page is decoded as a leaf. -/
lemma pteDecode_leaf (hl : l ≤ 1) (ha : span l ∣ phys) (hlt : phys < 2 ^ 52)
    (hp : FlagBits permissions) :
    pteDecode l (leafEntry (l = 1) phys permissions) =
      .leaf (phys, leafFlags (l = 1) permissions) := by
  obtain ⟨e, he⟩ : ∃ e, e = leafEntry (decide (l = 1)) 0 permissions := ⟨_, rfl⟩
  have hw : leafEntry (decide (l = 1)) phys permissions = phys ||| e := by rw [leafEntry_or, he]
  have hf : FlagBits e := he ▸ leafEntry_flagBits hp
  obtain ⟨hf₁, hf₂⟩ := hf
  have aligned : 0x1000 ∣ phys := by
    refine Dvd.dvd.trans ?_ ha
    interval_cases l <;> norm_num [span]
  -- the address and the flags are apart, so each part of the entry is that of one of them
  have field : ∀ s n, (phys ||| e) / 2 ^ s % 2 ^ n = phys / 2 ^ s % 2 ^ n ||| e / 2 ^ s % 2 ^ n := by
    intro s n
    rw [← Nat.shiftRight_eq_div_pow, Nat.shiftRight_or_distrib, Nat.or_mod_two_pow,
      Nat.shiftRight_eq_div_pow, Nat.shiftRight_eq_div_pow]
  have flags : entryFlags (phys ||| e) = entryFlags e := by
    have h₁ : (phys ||| e) % 2 ^ 12 = e % 2 ^ 12 := by
      rw [Nat.or_mod_two_pow, show phys % 2 ^ 12 = 0 by omega, Nat.zero_or]
    have h₂ : (phys ||| e) / 2 ^ 63 = e / 2 ^ 63 := by
      rw [← Nat.shiftRight_eq_div_pow, Nat.shiftRight_or_distrib, Nat.shiftRight_eq_div_pow,
        Nat.shiftRight_eq_div_pow, show phys / 2 ^ 63 = 0 by omega, Nat.zero_or]
    rw [entryFlags, entryFlags, h₁, h₂]
  have present : (phys ||| e).testBit 0 = true := hw ▸ leafEntry_testBit_zero
  rw [hw, leafFlags, ← he]
  interval_cases l
  · simp only [pteDecode, present, flags, field]
    rw [show phys / 2 ^ 12 % 2 ^ 40 = phys / 2 ^ 12 by omega, show e / 2 ^ 12 % 2 ^ 40 = 0 by omega,
      Nat.or_zero, show phys / 2 ^ 12 * 2 ^ 12 = phys by omega]
    simp
  · have large : (phys ||| e).testBit 7 = true := hw ▸ leafEntry_testBit_large
    norm_num [span] at ha
    simp only [pteDecode, present, large, flags, field, span]
    norm_num
    rw [show phys / 2097152 % 2147483648 = phys / 2097152 by omega,
      show e / 2097152 % 2147483648 = 0 by omega, show phys / 8192 % 256 = 0 by omega,
      show e / 8192 % 256 = 0 by omega, Nat.or_zero, show phys / 2097152 * 2097152 = phys by omega]
    simp

end Entries

section Kernel
variable {h : Hhdm} {l w f : Nat}

/-- There are no leaves above level 1. -/
lemma KernelEntry.not_leaf {v : Nat × Nat} (hs : KernelEntry h (l + 2) w) :
    pteDecode (l + 2) w ≠ .leaf v := by
  obtain _ | ⟨hl, hp⟩ | ⟨hl, _, _, _⟩ := hs
  · simp [pteDecode_zero]
  · simp [pteDecode_table hl hp.lt]
  · omega

/-- A table is one of the kernel's pages. -/
lemma KernelEntry.usable (hs : KernelEntry h l w) (hd : pteDecode l w = .table f) : TablePage h f := by
  obtain _ | ⟨hl, hp⟩ | ⟨hl, ha, hlt, perms⟩ := hs
  · simp [pteDecode_zero] at hd
  · rw [pteDecode_table hl hp.lt] at hd
    cases hd
    exact hp
  · simp [pteDecode_leaf hl ha hlt perms] at hd

/-- An empty entry is zero. -/
lemma KernelEntry.zero (hs : KernelEntry h l w) (hd : pteDecode l w = .empty) : w = 0 := by
  obtain _ | ⟨hl, hp⟩ | ⟨hl, ha, hlt, perms⟩ := hs
  · rfl
  · simp [pteDecode_table hl hp.lt] at hd
  · simp [pteDecode_leaf hl ha hlt perms] at hd

/-- There are no tables below level 0. -/
lemma pteDecode_ne_table : pteDecode 0 w ≠ .table f := by
  unfold pteDecode
  split <;> simp

end Kernel

/-- The entries of the tables, as the kernel writes them and the architecture reads them. -/
def format (h : Hhdm) : PageFormat where
  decode := pteDecode
  zero := 0
  link := tableEntry
  Usable := TablePage h
  Sane := KernelEntry h
  decode_zero _ := pteDecode_zero
  sane_zero _ := .none
  decode_link l hu := pteDecode_table (Nat.succ_pos l) hu.lt
  sane_link l hu := .table (Nat.succ_pos l) hu
  not_leaf_of_sane := KernelEntry.not_leaf
  usable_of_sane := KernelEntry.usable
  zero_of_sane := KernelEntry.zero
  not_table := pteDecode_ne_table

section Refine
variable {h : Hhdm} {l page va f w root : Nat} {k : Fin 512} {q : List (Fin 512)} {m : PhysMem}

/-- The page of a table has 44 bits. -/
lemma TablePage.lt' (hp : TablePage h page) : page < 2 ^ 44 := hp.apart.lt

/-- An entry that links a table gives the pointer to it, whatever its flags. -/
lemma tablePointer_eq {b : Nat} (hp : TablePage h page) (hb : b < 2 ^ 12) :
    tablePointer h (2 ^ 12 * page + b) = h.ptr page := by
  have hlt := hp.lt
  rw [tablePointer, show vmmAddrMask = 2 ^ 12 * (2 ^ 51 - 1) by decide, and_shifted_mask,
    show (2 ^ 12 * page + b) / 2 ^ 12 % 2 ^ 51 = page by omega]
  rfl

/-- The index of a level is cut out of the address. -/
lemma digit_eq {s : Nat} : (va &&& 0x1FF <<< s) >>> s = va / 2 ^ s % 512 := by
  rw [Nat.shiftRight_and_distrib, Nat.shiftLeft_shiftRight, Nat.shiftRight_eq_div_pow]
  exact Nat.and_two_pow_sub_one_eq_mod _ 9

/-- The index of level 3. -/
@[simp] lemma pml4Off_eq : (getAddrOffsets va).pml4Off = vpn 3 va := digit_eq

/-- The index of level 2. -/
@[simp] lemma pdpOff_eq : (getAddrOffsets va).pdpOff = vpn 2 va := digit_eq

/-- The index of level 1. -/
@[simp] lemma pdOff_eq : (getAddrOffsets va).pdOff = vpn 1 va := digit_eq

/-- The index of level 0. -/
@[simp] lemma ptOff_eq : (getAddrOffsets va).ptOff = vpn 0 va := digit_eq

/-- An entry that links a table is present. -/
lemma tableEntry_present : tableEntry page &&& vmmPresent ≠ 0 := by
  rw [tableEntry_eq, show vmmPresent = 1 from rfl, Nat.and_one_is_mod]
  omega

/-- One step down through a kernel pointer is one step down the tree. -/
lemma vmmGetOrAlloc_eq (hf : f < 2 ^ 44) (hl : 0 < l) (hk : KernelEntry h l (m.entry f k))
    (hn : ∀ v, pteDecode l (m.entry f k) ≠ .leaf v) (hu : ∀ g ∈ m.frames, TablePage h g) :
    vmmGetOrAlloc h (h.ptr f) k (vmmWrite ||| vmmUser) m =
      (getOrAlloc (format h) l f k m).map fun (g, m) => (h.ptr g, m) := by
  have load : h.load m (h.ptr f) k = m.entry f k := Hhdm.load_ptr hf k
  generalize hw : m.entry f k = w at hk hn load
  cases hk with
  | leaf hl' ha hlt perms => exact absurd (pteDecode_leaf hl' ha hlt perms) (hn _)
  | @table page _ hp =>
    have decode : (format h).decode l (m.entry f k) = .table page := by
      rw [hw]
      exact pteDecode_table hl hp.lt
    simp only [vmmGetOrAlloc, load, if_neg tableEntry_present, getOrAlloc, decode, Except.map]
    rw [tableEntry_eq, tablePointer_eq hp (by norm_num)]
  | none =>
    have decode : (format h).decode l (m.entry f k) = .empty := by
      rw [hw]
      exact pteDecode_zero (l := l)
    simp only [vmmGetOrAlloc, load, Nat.zero_and, if_true, getOrAlloc, decode]
    cases hfs : m.frames with
    | nil => simp only [pmmAlloc, hfs, if_true, Except.map]
    | cons g fs =>
      have hg : TablePage h g := hu g (by simp [hfs])
      have nonnull : 0x1000 * g ≠ 0 := by
        have := hg.apart.1
        omega
      have pointer : tablePointer h (0x1000 * g) = h.ptr g :=
        tablePointer_eq (b := 0) hg (by norm_num)
      simp only [pmmAlloc, hfs, if_neg nonnull, Except.map, Hhdm.store_ptr hf, Hhdm.load_ptr hf,
        Memory.write_self, Memory.write_write, Memory.link]
      rw [pointer]
      rfl

/-- A step down without allocation finds the table of the entry, or `NULL`. -/
lemma vmmGetOrNull_eq (hf : f < 2 ^ 44) (hl : 0 < l) (hk : KernelEntry h l (m.entry f k)) :
    (∀ g, pteDecode l (m.entry f k) = .table g → vmmGetOrNull h (h.ptr f) k m = h.ptr g) ∧
    (pteDecode l (m.entry f k) = .empty → vmmGetOrNull h (h.ptr f) k m = 0) := by
  have load : h.load m (h.ptr f) k = m.entry f k := Hhdm.load_ptr hf k
  generalize m.entry f k = w at hk load
  cases hk with
  | none => simp [vmmGetOrNull, load, pteDecode_zero]
  | @table page _ hp =>
    rw [pteDecode_table hl hp.lt]
    refine ⟨?_, by simp⟩
    rintro g ⟨⟩
    simp only [vmmGetOrNull, load, if_neg tableEntry_present]
    rw [tableEntry_eq, tablePointer_eq hp (by norm_num)]
  | leaf hl' ha hlt perms => simp [pteDecode_leaf hl' ha hlt perms]

/-- An entry of level 1 has `VMM_LARGE` if and only if it is a leaf. -/
lemma largeBit_iff (hk : KernelEntry h 1 w) :
    w &&& vmmLarge ≠ 0 ↔ ∃ v, pteDecode 1 w = .leaf v := by
  have bit : w &&& vmmLarge ≠ 0 ↔ w.testBit 7 = true := by
    rw [show vmmLarge = 2 ^ 7 from rfl, Nat.and_two_pow]
    cases w.testBit 7 <;> simp
  rw [bit]
  cases hk with
  | none => simp [pteDecode_zero]
  | @table page hl hp =>
    rw [tableEntry_eq, testBit_low (by norm_num) (by norm_num), ← tableEntry_eq]
    simp [pteDecode_table hl hp.lt, Nat.testBit]
  | leaf hl ha hlt perms =>
    exact iff_of_true leafEntry_testBit_large ⟨_, pteDecode_leaf hl ha hlt perms⟩

/-- One step down in a tree: the same in C and on the radix tables. -/
lemma step_down (hT : Tree (format h) 3 root m) (hS : Supply (format h) 3 root m)
    (hr : TablePage h root) (hq : tableAt (format h) m 3 root q = some f) (hl : q.length + l = 3)
    (hl0 : 0 < l) (hk : lookup (format h) m 3 root (q ++ [k]) = none) :
    (∃ g m', vmmGetOrAlloc h (h.ptr f) k (vmmWrite ||| vmmUser) m = .ok (h.ptr g, m') ∧
      getOrAlloc (format h) l f k m = .ok (g, m') ∧ h.ptr g ≠ 0 ∧ g < 2 ^ 44 ∧
      Grown (format h) 3 root m m' ∧ tableAt (format h) m' 3 root (q ++ [k]) = some g) ∨
    (vmmGetOrAlloc h (h.ptr f) k (vmmWrite ||| vmmUser) m = .error .outOfFrames ∧
      getOrAlloc (format h) l f k m = .error .outOfFrames) := by
  have lev : 3 - q.length = l := by omega
  have hsane := hT.sane k hq
  have notLeaf := not_leaf_of_clear hq hk
  rw [lev] at hsane notLeaf
  have e := vmmGetOrAlloc_eq (tableAt_usable hT hr hq).lt' hl0 hsane notLeaf hS.usable
  have spec := getOrAlloc_spec hT hS hq (by omega) hk
  rw [lev] at spec
  obtain ⟨g, m', d, grown, ht, _⟩ | ⟨d, _⟩ := spec
  · have hg := tableAt_usable grown.tree hr ht
    refine .inl ⟨g, m', ?_, d, hg.apart.ptr_ne_zero, hg.lt', grown, ht⟩
    rw [e, d]
    rfl
  · refine .inr ⟨?_, d⟩
    rw [e, d]
    rfl

end Refine

section Map
variable {h : Hhdm} {root permissions addr phys n size fuel : Nat} {m : PhysMem}

section
variable (hT : Tree (format h) 3 root m) (hS : Supply (format h) 3 root m) (hr : TablePage h root)
include hT hS hr

/-- One round of `vmm_map_huge`. -/
lemma vmmMapAdvanced_huge :
    vmmMapAdvanced h (0x1000 * root) permissions true (n + 1) addr phys m =
      (mapLeaf (format h) 3 root (pathFrom 2 2 addr) (vpn 1 addr)
        (leafEntry true phys permissions) m).bind fun m =>
          vmmMapAdvanced h (0x1000 * root) permissions true n ((addr + 0x200000) % 2 ^ 64)
            ((phys + 0x200000) % 2 ^ 64) m := by
  have nonnull := hr.apart.ptr_ne_zero
  have clear : lookup (format h) m 3 root ([] ++ [vpn 3 addr] ++ [vpn 2 addr]) = none :=
    Tree.clear_upper hT addr
  simp only [vmmMapAdvanced, Hhdm.ptr_eq, if_neg nonnull, pml4Off_eq, pdpOff_eq, pdOff_eq, mapLeaf,
    pathFrom, descendAlloc, bind, Except.bind, pure, Except.pure]
  obtain ⟨g, m₁, c₁, r₁, hg, _, grown₁, t₁⟩ | ⟨c₁, r₁⟩ := step_down (q := []) (l := 3) (k := vpn 3 addr)
    hT hS hr tableAt_nil rfl (by decide) (lookup_none_of_append clear)
  · have clear₁ : lookup (format h) m₁ 3 root ([] ++ [vpn 3 addr] ++ [vpn 2 addr]) = none := by
      rw [grown₁.lookup, clear]
    obtain ⟨g', m₂, c₂, r₂, hg', hlt, grown₂, t₂⟩ | ⟨c₂, r₂⟩ := step_down (l := 2) grown₁.tree
      grown₁.supply hr t₁ rfl (by decide) clear₁
    · simp [c₁, r₁, hg, c₂, r₂, hg', Hhdm.store_ptr hlt]
    · simp [c₁, r₁, hg, c₂, r₂]
  · simp [c₁, r₁]

/-- One round of `vmm_map`. -/
lemma vmmMapAdvanced_small (hc : lookup (format h) m 3 root (pathFrom 1 3 addr) = none) :
    vmmMapAdvanced h (0x1000 * root) permissions false (n + 1) addr phys m =
      (mapLeaf (format h) 3 root (pathFrom 1 3 addr) (vpn 0 addr)
        (leafEntry false phys permissions) m).bind fun m =>
          vmmMapAdvanced h (0x1000 * root) permissions false n ((addr + 0x1000) % 2 ^ 64)
            ((phys + 0x1000) % 2 ^ 64) m := by
  have nonnull := hr.apart.ptr_ne_zero
  have clear : lookup (format h) m 3 root ([] ++ [vpn 3 addr] ++ [vpn 2 addr] ++ [vpn 1 addr]) =
    none := hc
  simp only [vmmMapAdvanced, Hhdm.ptr_eq, if_neg nonnull, pml4Off_eq, pdpOff_eq, pdOff_eq, ptOff_eq,
    mapLeaf, pathFrom, descendAlloc, bind, Except.bind, pure, Except.pure]
  obtain ⟨g, m₁, c₁, r₁, hg, _, grown₁, t₁⟩ | ⟨c₁, r₁⟩ := step_down (q := []) (l := 3) (k := vpn 3 addr)
    hT hS hr tableAt_nil rfl (by decide) (lookup_none_of_append (lookup_none_of_append clear))
  · have clear₁ : lookup (format h) m₁ 3 root ([] ++ [vpn 3 addr] ++ [vpn 2 addr]) = none := by
      rw [grown₁.lookup]
      exact lookup_none_of_append clear
    obtain ⟨g', m₂, c₂, r₂, hg', _, grown₂, t₂⟩ | ⟨c₂, r₂⟩ := step_down (l := 2) grown₁.tree
      grown₁.supply hr t₁ rfl (by decide) clear₁
    · have clear₂ : lookup (format h) m₂ 3 root
          ([] ++ [vpn 3 addr] ++ [vpn 2 addr] ++ [vpn 1 addr]) = none := by
        rw [grown₂.lookup, grown₁.lookup, clear]
      obtain ⟨g'', m₃, c₃, r₃, hg'', hlt, _, _⟩ | ⟨c₃, r₃⟩ := step_down (l := 1) grown₂.tree
        grown₂.supply hr t₂ rfl (by decide) clear₂
      · simp [c₁, r₁, hg, c₂, r₂, hg', c₃, r₃, hg'', Hhdm.store_ptr hlt]
      · simp [c₁, r₁, hg, c₂, r₂, hg', c₃, r₃]
    · simp [c₁, r₁, hg, c₂, r₂]
  · simp [c₁, r₁]

end

/-- A step down without allocation, in a tree. -/
lemma step_find {q : List (Fin 512)} {k : Fin 512} {f l : Nat} (hT : Tree (format h) 3 root m)
    (hr : TablePage h root) (hq : tableAt (format h) m 3 root q = some f) (hl : q.length + l = 3)
    (hl0 : 0 < l) (notLeaf : ∀ v, pteDecode l (m.entry f k) ≠ .leaf v) :
    (∃ g, vmmGetOrNull h (h.ptr f) k m = h.ptr g ∧ h.ptr g ≠ 0 ∧ TablePage h g ∧
      pteDecode l (m.entry f k) = .table g ∧ tableAt (format h) m 3 root (q ++ [k]) = some g) ∨
    (vmmGetOrNull h (h.ptr f) k m = 0 ∧ pteDecode l (m.entry f k) = .empty ∧
      tableAt (format h) m 3 root (q ++ [k]) = none) := by
  have lev : 3 - q.length = l := by omega
  have hsane := hT.sane k hq
  rw [lev] at hsane
  obtain ⟨found, missing⟩ := vmmGetOrNull_eq (tableAt_usable hT hr hq).lt' hl0 hsane
  cases hd : pteDecode l (m.entry f k) with
  | leaf v => exact absurd hd (notLeaf v)
  | table g =>
    have ht := tableAt_concat hq (k := k) (by rw [lev]; exact hd) (by omega)
    have hg := tableAt_usable hT hr ht
    exact .inl ⟨g, found g hd, hg.apart.ptr_ne_zero, hg, rfl, ht⟩
  | empty =>
    refine .inr ⟨missing hd, rfl, ?_⟩
    rw [tableAt_append, hq, Option.bind_some, lev]
    exact tableAt_none (by simp [format, hd])

/-- C `vmm_unmap` is the loop on radix tables. -/
lemma vmmUnmap_eq (hT : Tree (format h) 3 root m) (hr : TablePage h root) :
    vmmUnmap h (0x1000 * root) fuel addr size m = unmapRange (format h) 3 root fuel addr size m := by
  have nonnull := hr.apart.ptr_ne_zero
  induction fuel generalizing addr size m with
  | zero => rfl
  | succ fuel ih =>
    cases size with
    | zero => rfl
    | succ size =>
      have upper : ∀ {q : List (Fin 512)} {f} (k : Fin 512) (i : Nat),
          tableAt (format h) m 3 root q = some f → q.length + (i + 2) = 3 →
          ∀ v, pteDecode (i + 2) (m.entry f k) ≠ .leaf v := by
        intro q f k i hq hi v
        have hsane := hT.sane k hq
        rw [show 3 - q.length = i + 2 by omega] at hsane
        exact (format h).not_leaf_of_sane hsane
      simp only [vmmUnmap, unmapRange, Hhdm.ptr_eq, if_neg nonnull, pml4Off_eq, pdpOff_eq, pdOff_eq,
        ptOff_eq, Nat.succ_ne_zero, if_false, Nat.add_sub_cancel, show (3 : Nat) - 1 = 2 from rfl]
      have path : pathFrom 2 2 addr = [] ++ [vpn 3 addr] ++ [vpn 2 addr] := rfl
      rw [path]
      obtain ⟨g, c₁, hg, _, _, t₁⟩ | ⟨c₁, _, t₁⟩ := step_find (q := []) (l := 3) (k := vpn 3 addr) hT hr
        tableAt_nil rfl (by decide) (upper _ 1 tableAt_nil rfl)
      · obtain ⟨g', c₂, hg', hp, _, t₂⟩ | ⟨c₂, _, t₂⟩ := step_find (l := 2) (k := vpn 2 addr) hT hr t₁ rfl
          (by decide) (upper _ 0 t₁ rfl)
        · have hsane := hT.sane (vpn 1 addr) t₂
          have large := largeBit_iff hsane
          simp only [c₁, if_neg hg, c₂, if_neg hg', t₂, Hhdm.load_ptr hp.lt', Hhdm.store_ptr hp.lt']
          cases hd : (format h).decode 1 (m.entry g' (vpn 1 addr)) with
          | leaf v =>
            rw [if_pos (large.mpr ⟨v, hd⟩)]
            have rest := @ih ((addr + 0x200000) % 2 ^ 64)
              ((size + 2 ^ 64 - 0x200) % 2 ^ 64) _ (hT.clear (k := vpn 1 addr) t₂).tree
            simp only [← rest]
            rfl
          | empty =>
            have noLarge : ∀ v, pteDecode 1 (m.entry g' (vpn 1 addr)) ≠ .leaf v := by
              intro v hv
              cases hd.symm.trans hv
            obtain ⟨_, _, _, _, d₃, _⟩ | ⟨c₃, _, _⟩ := step_find (l := 1) hT hr t₂ rfl (by decide) noLarge
            · cases hd.symm.trans d₃
            · rw [if_neg (mt large.mp (not_exists.mpr noLarge)), c₃, if_pos rfl]
          | table g'' =>
            have noLarge : ∀ v, pteDecode 1 (m.entry g' (vpn 1 addr)) ≠ .leaf v := by
              intro v hv
              cases hd.symm.trans hv
            obtain ⟨g₃, c₃, hg₃, hp₃, d₃, t₃⟩ | ⟨_, d₃, _⟩ :=
              step_find (l := 1) hT hr t₂ rfl (by decide) noLarge
            · cases hd.symm.trans d₃
              rw [if_neg (mt large.mp (not_exists.mpr noLarge)), c₃, if_neg hg₃,
                Hhdm.store_ptr hp₃.lt']
              exact ih (hT.clear t₃).tree
            · cases hd.symm.trans d₃
        · simp only [c₁, if_neg hg, c₂, if_true, t₂]
      · rw [tableAt_append, t₁]
        simp only [c₁, if_true, Option.bind_none]

end Map

/-- A call of `vmm_map` or `vmm_map_huge` on the table in page `root`. -/
def exec (h : Hhdm) (root : Nat) (call : MapCall) (m : PhysMem) : Except Stop (Bool × PhysMem) :=
  if call.huge then
    vmmMapHuge h (0x1000 * root) call.addr call.phys call.size call.permissions
      { m with frames := call.frames }
  else
    vmmMap h (0x1000 * root) call.addr call.phys call.size call.permissions
      { m with frames := call.frames }

/-- A well placed call with a set of flags for its permissions, within the architecture's 52 bits. -/
structure Valid (h : Hhdm) (root : Nat) (call : MapCall) (m : PhysMem) : Prop
    extends MapCall.Placed (format h) h 3 root call m where
  flags : FlagBits call.permissions
  phys_lt : call.phys + call.length ≤ 2 ^ 52

/-- The page tables that such calls, and calls of `vmm_unmap`, build from a zeroed root. -/
inductive Reachable (h : Hhdm) (root : Nat) : PhysMem → Prop where
  | zeroed {m} : TablePage h root → (∀ k, m.entry root k = 0) → Reachable h root m
  | map {m m' b} {call : MapCall} : Reachable h root m → Valid h root call m →
      exec h root call m = .ok (b, m') → Reachable h root m'
  | unmap {m m' b} {fuel addr size : Nat} : Reachable h root m →
      vmmUnmap h (0x1000 * root) fuel addr size m = some (.ok (b, m')) → Reachable h root m'

section Calls
variable {h : Hhdm} {root : Nat} {call : MapCall} {m m' : PhysMem}

/-- Huge pages are those of level 1. -/
lemma huge_eq (call : MapCall) : call.huge = decide (call.level = 1) := by
  unfold MapCall.level
  cases call.huge <;> rfl

/-- A valid call can be mapped in its space. -/
lemma Valid.mappable (hv : Valid h root call m) (hT : Tree (format h) 3 root m) :
    Mappable (format h) 3 root call.level call.addr call.phys call.size
      (leafFlags call.huge call.permissions) (leafEntry call.huge · call.permissions)
      { m with frames := call.frames } := by
  have level_le : call.level ≤ 1 := Nat.le_of_lt_succ call.level_lt
  have pos : 0 < span call.level := span_pos
  have hlim := hv.phys_lt
  rw [huge_eq]
  refine hv.toPlaced.mappable hT ?_ ?_
  · intro i hi
    obtain ⟨aligned, hend, _⟩ := hv.toPlaced.page hi
    exact pteDecode_leaf level_le aligned (by omega) hv.flags
  · intro i hi
    obtain ⟨aligned, hend, _⟩ := hv.toPlaced.page hi
    exact .leaf level_le aligned (by omega) hv.flags

/-- Both functions are `vmm_map_advanced`. -/
lemma exec_loop : exec h root call m = vmmMapAdvanced h (0x1000 * root) call.permissions call.huge
    call.size call.addr call.phys { m with frames := call.frames } := by
  unfold exec vmmMap vmmMapHuge
  cases call.huge <;> rfl

/-- A call is `mapRange` on the radix tables. -/
lemma Valid.exec_eq (hv : Valid h root call m) (hT : Tree (format h) 3 root m)
    (hr : TablePage h root) :
    exec h root call m =
      (mapRange (format h) 3 root call.level (leafEntry call.huge · call.permissions) call.size
        call.addr call.phys { m with frames := call.frames }).map fun m => (true, m) := by
  rw [exec_loop]
  refine mapRange_of_loop (by decide) call.level_lt (fun _ _ _ => rfl) ?_ hT.frames hv.supply
    (hv.mappable hT) hv.toPlaced.phys_le
  intro n a p m hT hS hm
  cases hh : call.huge with
  | true =>
    rw [MapCall.level_huge hh, vmmMapAdvanced_huge hT hS hr]
    rfl
  | false =>
    have clear := hm.clear 0 (Nat.succ_pos n)
    rw [MapCall.level_small hh] at clear ⊢
    rw [vmmMapAdvanced_small hT hS hr (by simpa using clear)]
    rfl

/-- What a valid call does to the tree of tables. -/
lemma Valid.exec_spec (hv : Valid h root call m) (hT : Tree (format h) 3 root m)
    (hr : TablePage h root) :
    (∃ m', exec h root call m = .ok (true, m') ∧
      RangeMapped (format h) 3 root call.level call.addr call.phys call.length
        (leafFlags call.huge call.permissions) { m with frames := call.frames } m') ∨
    (exec h root call m = .error .outOfFrames ∧ call.frames.length < call.size * (3 - call.level)) := by
  rw [hv.exec_eq hT hr]
  obtain ⟨m', e, mapped⟩ | ⟨e, hf⟩ := mapRange_spec (by decide) call.level_lt hT.frames hv.supply
    (hv.mappable hT)
  · exact .inl ⟨m', by rw [e]; rfl, mapped⟩
  · exact .inr ⟨by rw [e]; rfl, hf⟩

/-- The tables of a reachable state form a tree. -/
lemma Reachable.tree (hm : Reachable h root m) : TablePage h root ∧ Tree (format h) 3 root m := by
  induction hm with
  | zeroed hr hz => exact ⟨hr, Tree.zeroed hz⟩
  | map _ hv e ih =>
    refine ⟨ih.1, ?_⟩
    obtain ⟨m', e', mapped⟩ | ⟨e', _⟩ := hv.exec_spec ih.2 ih.1
    · rw [e'] at e
      cases e
      exact mapped.tree
    · rw [e'] at e
      cases e
  | unmap _ e ih =>
    rw [vmmUnmap_eq ih.2 ih.1] at e
    exact ⟨ih.1, unmapRange_tree (by decide) ih.2 e⟩

end Calls

end WivOS.Vmm.X86
