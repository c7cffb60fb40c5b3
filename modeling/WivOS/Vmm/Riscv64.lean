import WivOS.Vmm.Calls

/-!
# Page tables on riscv64

`kernel/arch/riscv64/vmm.c`: tables of `max_level` levels, walked through pointers into the direct map.
`pteDecode` is what the architecture makes of an entry, and with it `translate` is its page-table walk.
The C functions are equal to the operations on radix tables as long as the tables form a tree of entries
that they wrote themselves (`vmmGetOrAlloc_eq`, `vmmMapAdvanced_eq`).
-/

namespace WivOS.Vmm.Riscv64
open WivOS.Lib WivOS.Lib.Radix

def vmmFlagMask : Nat := 0x3FF
def vmmPresent : Nat := 1 <<< 0
def vmmRead : Nat := 1 <<< 1
def vmmWrite : Nat := 1 <<< 2
def vmmExecute : Nat := 1 <<< 3
def vmmUser : Nat := 1 <<< 4

/-- `MEM_PHYS_OFFSET` and `max_level`. -/
structure Paging where
  hhdm : Hhdm
  maxLevel : Nat
  levels : maxLevel ∈ [3, 4, 5]

/-- C `arch_vmm_preinit`: the number of levels for a direct map, 3 where it is none of the known ones. -/
def archVmmPreinit (memPhysOffset : Nat) : Nat :=
  match memPhysOffset with
  | 0xFFFFFFC000000000 => 3
  | 0xFFFF800000000000 => 4
  | 0xFF00000000000000 => 5
  | _ => 3

/-- The paging that the kernel boots with. -/
def Paging.boot (hhdm : Hhdm) : Paging where
  hhdm := hhdm
  maxLevel := archVmmPreinit hhdm.memPhysOffset
  levels := by
    unfold archVmmPreinit
    split <;> decide

/-- C `get_addr_offsets`. -/
def getAddrOffsets (addr : Nat) : List Nat :=
  [(addr &&& 0x1FF <<< 12) >>> 12,
   (addr &&& 0x1FF <<< 21) >>> 21,
   (addr &&& 0x1FF <<< 30) >>> 30,
   (addr &&& 0x1FF <<< 39) >>> 39,
   (addr &&& 0x1FF <<< 48) >>> 48]

/-- The pointer to a table that `vmm_get_or_alloc` and `vmm_get_or_null` make of an entry. -/
def tablePointer (h : Hhdm) (entry : Nat) : Nat :=
  let addr := entry &&& (2 ^ 64 - 1 - vmmFlagMask)
  let addr := addr <<< 2 % 2 ^ 64
  let addr := if addr &&& h.memPhysOffset ≠ 0 then addr ||| h.memPhysOffset else addr
  (addr + h.memPhysOffset) % 2 ^ 64

/-- C `vmm_get_or_alloc`; without a page it spins forever. -/
def vmmGetOrAlloc (h : Hhdm) (pt offset flags : Nat) (m : PhysMem) : Except Stop (Nat × PhysMem) :=
  let addr := h.load m pt offset
  if addr &&& vmmPresent = 0 then
    let (addr, m) := pmmAlloc m
    if addr = 0 then .error .outOfFrames
    else
      let addr := addr >>> 2
      let m := h.store m pt offset addr
      let m := h.store m pt offset (h.load m pt offset ||| (flags ||| vmmPresent))
      .ok (tablePointer h addr, m)
  else .ok (tablePointer h addr, m)

/-- C `vmm_get_or_null`. -/
def vmmGetOrNull (h : Hhdm) (pt offset : Nat) (m : PhysMem) : Nat :=
  let addr := h.load m pt offset
  if addr &&& vmmPresent = 0 then 0 else tablePointer h addr

/-- The loop of `vmm_map_advanced` from level `i` down to level 2; no pointer where one is `NULL`. -/
def allocTables (h : Hhdm) (levels : List Nat) : Nat → Nat → PhysMem →
    Except Stop (Option Nat × PhysMem)
  | i + 2, pt, m => do
    let (pt, m) ← vmmGetOrAlloc h pt (levels.getD (i + 2) 0) vmmPresent m
    if pt = 0 then return (none, m)
    allocTables h levels (i + 1) pt m
  | _, pt, m => return (some pt, m)

/-- The entry that maps a page: `(phys >> 2) | (permissions & VMM_FLAG_MASK) | VMM_PRESENT`. -/
def leafEntry (phys permissions : Nat) : Nat :=
  phys >>> 2 ||| (permissions &&& vmmFlagMask) ||| vmmPresent

/-- C `vmm_map_advanced`, for the table in the page at `entries`. -/
def vmmMapAdvanced (c : Paging) (entries permissions : Nat) (huge : Bool) :
    Nat → Nat → Nat → PhysMem → Except Stop (Bool × PhysMem)
  | 0, _, _, m => return (true, m)
  | size + 1, addr, phys, m => do
    let levels := getAddrOffsets addr
    let pt := (entries + c.hhdm.memPhysOffset) % 2 ^ 64
    if pt = 0 then return (false, m)
    let (pt, m) ← allocTables c.hhdm levels (c.maxLevel - 1) pt m
    let some pt := pt | return (false, m)
    let step := if huge then 0x200000 else 0x1000
    if huge then
      let m := c.hhdm.store m pt (levels.getD 1 0) (leafEntry phys permissions)
      vmmMapAdvanced c entries permissions huge size ((addr + step) % 2 ^ 64)
        ((phys + step) % 2 ^ 64) m
    else
      let (level1, m) ← vmmGetOrAlloc c.hhdm pt (levels.getD 1 0) vmmPresent m
      -- the test is of `pt` once more, not of the table of level 1
      if pt = 0 then return (false, m)
      let m := c.hhdm.store m level1 (levels.getD 0 0) (leafEntry phys permissions)
      vmmMapAdvanced c entries permissions huge size ((addr + step) % 2 ^ 64)
        ((phys + step) % 2 ^ 64) m

/-- C `vmm_map`. -/
def vmmMap (c : Paging) (entries addr phys size permissions : Nat) (m : PhysMem) :
    Except Stop (Bool × PhysMem) :=
  vmmMapAdvanced c entries permissions false size addr phys m

/-- C `vmm_map_huge`. -/
def vmmMapHuge (c : Paging) (entries addr phys size permissions : Nat) (m : PhysMem) :
    Except Stop (Bool × PhysMem) :=
  vmmMapAdvanced c entries permissions true size addr phys m

/-- The loop of `vmm_unmap` from level `i` down to level 2; no pointer where one is `NULL`. -/
def findTables (h : Hhdm) (levels : List Nat) : Nat → Nat → PhysMem → Option Nat
  | i + 2, pt, m =>
    let pt := vmmGetOrNull h pt (levels.getD (i + 2) 0) m
    if pt = 0 then none else findTables h levels (i + 1) pt m
  | _, pt, _ => some pt

/-- C `vmm_unmap`, for `fuel` rounds of its loop at most; a last table that is `NULL` is dereferenced. -/
def vmmUnmap (c : Paging) (entries : Nat) :
    Nat → Nat → Nat → PhysMem → Option (Except Stop (Bool × PhysMem))
  | 0, _, _, _ => none
  | fuel + 1, addr, size, m =>
    if size = 0 then some (.ok (true, m))
    else
      let size := size - 1
      let levels := getAddrOffsets addr
      let pt := (entries + c.hhdm.memPhysOffset) % 2 ^ 64
      if pt = 0 then some (.ok (false, m))
      else
        match findTables c.hhdm levels (c.maxLevel - 1) pt m with
        | none => some (.ok (false, m))
        | some pt =>
          if c.hhdm.load m pt (levels.getD 1 0) &&& (vmmRead ||| vmmWrite ||| vmmExecute) ≠ 0 then
            -- a leaf of 2 MiB: `size -= 0x200`, though `size--` came before
            if size < 0x1FF then some (.ok (false, m))
            else
              vmmUnmap c entries fuel ((addr + 0x200000) % 2 ^ 64) ((size + 2 ^ 64 - 0x200) % 2 ^ 64)
                (c.hhdm.store m pt (levels.getD 1 0) 0)
          else
            let level1 := vmmGetOrNull c.hhdm pt (levels.getD 1 0) m
            -- no test for `NULL` before the write
            if level1 = 0 then some (.error .fault)
            else
              vmmUnmap c entries fuel ((addr + 0x1000) % 2 ^ 64) size
                (c.hhdm.store m level1 (levels.getD 0 0) 0)

/-- What the architecture makes of an entry at level `l`. A word it rejects (not valid, writable but
not readable, with a reserved bit, a superpage that is not aligned) is as good as none. -/
def pteDecode (l w : Nat) : Slot Nat (Nat × Nat) :=
  if w.testBit 0 = false ∨ (w.testBit 1 = false ∧ w.testBit 2 = true) ∨ w / 2 ^ 54 ≠ 0 then .empty
  else if w.testBit 1 = true ∨ w.testBit 3 = true then
    if w / 2 ^ 10 % 512 ^ l = 0 then .leaf (w / 2 ^ 10 * 0x1000, w % 2 ^ 10) else .empty
  else if l = 0 ∨ w.testBit 4 = true ∨ w.testBit 6 = true ∨ w.testBit 7 = true then .empty
  else .table (w / 2 ^ 10)

/-- The entry that links a table, as `vmm_get_or_alloc` leaves it. -/
def tableEntry (page : Nat) : Nat := (0x1000 * page) >>> 2 ||| (vmmPresent ||| vmmPresent)

/-- Permissions that the architecture accepts in a leaf: readable, or executable and not writable. -/
def LeafPermissions (permissions : Nat) : Prop :=
  permissions.testBit 1 = true ∨ (permissions.testBit 3 = true ∧ permissions.testBit 2 = false)

instance (permissions : Nat) : Decidable (LeafPermissions permissions) :=
  inferInstanceAs (Decidable (_ ∨ _))

/-- The entries that the kernel writes at level `l`. -/
inductive KernelEntry (h : Hhdm) (l : Nat) : Nat → Prop where
  | none : KernelEntry h l 0
  | table {page} : 0 < l → h.TablePage page → KernelEntry h l (tableEntry page)
  | leaf {phys permissions} : l ≤ 1 → span l ∣ phys → phys < 2 ^ 56 → LeafPermissions permissions →
      KernelEntry h l (leafEntry phys permissions)

section Entries
variable {h : Hhdm} {l page phys permissions : Nat}

/-- The low bits of an entry are its flags. -/
lemma testBit_low {a b i : Nat} (hb : b < 2 ^ 10) (hi : i < 10) :
    (2 ^ 10 * a + b).testBit i = b.testBit i := by
  rw [Nat.testBit_two_pow_mul_add _ hb, if_pos hi]

/-- An entry that links a table has its page and bit 0. -/
lemma tableEntry_eq : tableEntry page = 2 ^ 10 * page + 1 := by
  have e : (0x1000 * page) >>> 2 = 2 ^ 10 * page := by
    rw [Nat.shiftRight_eq_div_pow]
    omega
  rw [tableEntry, e, Nat.two_pow_add_eq_or_of_lt (by norm_num)]
  rfl

/-- The flags of a leaf. -/
def leafFlags (permissions : Nat) : Nat := (permissions &&& vmmFlagMask) ||| vmmPresent

/-- The flags fit below the page. -/
lemma leafFlags_lt : leafFlags permissions < 2 ^ 10 :=
  Nat.or_lt_two_pow (Nat.and_lt_two_pow _ (by decide)) (by decide)

/-- The flags above bit 0 are the permissions. -/
lemma leafFlags_testBit {i : Nat} (h0 : 0 < i) (hi : i < 10) :
    (leafFlags permissions).testBit i = permissions.testBit i := by
  unfold leafFlags vmmFlagMask vmmPresent
  rw [Nat.testBit_or, Nat.testBit_and]
  interval_cases i <;> simp [Nat.testBit]

/-- Bit 0 is set. -/
lemma leafFlags_present : (leafFlags permissions).testBit 0 = true := by
  simp [leafFlags, vmmPresent]

/-- The entry of a leaf has its page and flags. -/
lemma leafEntry_eq (hp : 0x1000 ∣ phys) :
    leafEntry phys permissions = 2 ^ 10 * (phys / 0x1000) + leafFlags permissions := by
  have e : phys >>> 2 = 2 ^ 10 * (phys / 0x1000) := by
    rw [Nat.shiftRight_eq_div_pow]
    omega
  rw [leafEntry, e, Nat.or_assoc, Nat.two_pow_add_eq_or_of_lt leafFlags_lt]
  rfl

/-- A zeroed entry is empty. -/
lemma pteDecode_zero : pteDecode l 0 = .empty := by
  simp [pteDecode]

/-- What links a table is decoded as one. -/
lemma pteDecode_table (hl : 0 < l) (hp : page < 2 ^ 44) :
    pteDecode l (tableEntry page) = .table page := by
  have bit : ∀ i < 10, (tableEntry page).testBit i = (1 : Nat).testBit i := by
    intro i hi
    rw [tableEntry_eq, testBit_low (by norm_num) hi]
  have h₁ : tableEntry page / 2 ^ 54 = 0 := by rw [tableEntry_eq]; omega
  have h₂ : tableEntry page / 2 ^ 10 = page := by rw [tableEntry_eq]; omega
  simp only [pteDecode, bit 0 (by decide), bit 1 (by decide), bit 2 (by decide), bit 3 (by decide),
    bit 4 (by decide), bit 6 (by decide), bit 7 (by decide), h₁, h₂]
  simp [Nat.testBit, Nat.ne_of_gt hl]

/-- What maps a page is decoded as a leaf. -/
lemma pteDecode_leaf (hl : l ≤ 1) (hp : span l ∣ phys) (hlt : phys < 2 ^ 56)
    (perms : LeafPermissions permissions) :
    pteDecode l (leafEntry phys permissions) = .leaf (phys, leafFlags permissions) := by
  have aligned : 0x1000 ∣ phys := by
    refine Dvd.dvd.trans ?_ hp
    interval_cases l <;> norm_num [span]
  have hf : leafFlags permissions < 2 ^ 10 := leafFlags_lt
  have bit : ∀ i < 10, (leafEntry phys permissions).testBit i = (leafFlags permissions).testBit i := by
    intro i hi
    rw [leafEntry_eq aligned, testBit_low hf hi]
  have h₁ : leafEntry phys permissions / 2 ^ 54 = 0 := by rw [leafEntry_eq aligned]; omega
  have h₂ : leafEntry phys permissions / 2 ^ 10 = phys / 0x1000 := by
    rw [leafEntry_eq aligned]
    omega
  have h₃ : leafEntry phys permissions % 2 ^ 10 = leafFlags permissions := by
    rw [leafEntry_eq aligned]
    omega
  have h₄ : phys / 0x1000 % 512 ^ l = 0 := by
    interval_cases l <;> norm_num [span] at hp ⊢ <;> omega
  have h₅ : phys / 0x1000 * 0x1000 = phys := Nat.div_mul_cancel aligned
  simp only [pteDecode, bit 0 (by decide), bit 1 (by decide), bit 2 (by decide), bit 3 (by decide),
    h₁, h₂, h₃, h₄, h₅, leafFlags_present, leafFlags_testBit (i := 1) (by decide) (by decide),
    leafFlags_testBit (i := 2) (by decide) (by decide),
    leafFlags_testBit (i := 3) (by decide) (by decide)]
  obtain hr | ⟨hx, hw⟩ := perms
  · simp [hr]
  · simp [hx, hw]

end Entries

/-- The entries of the tables, as the kernel writes them and the architecture reads them. -/
def format (h : Hhdm) : PageFormat where
  decode := pteDecode
  zero := 0
  link := tableEntry
  Usable := h.TablePage
  Sane := KernelEntry h
  decode_zero _ := pteDecode_zero
  sane_zero _ := .none
  decode_link l hu := pteDecode_table (Nat.succ_pos l) hu.lt
  sane_link l hu := .table (Nat.succ_pos l) hu
  not_leaf_of_sane := by
    rintro l w v (_ | ⟨hl, hp⟩ | ⟨hl, _, _, _⟩)
    · simp [pteDecode_zero]
    · simp [pteDecode_table hl hp.lt]
    · omega
  usable_of_sane := by
    rintro l w f (_ | ⟨hl, hp⟩ | ⟨hl, ha, hlt, perms⟩) hd
    · simp [pteDecode_zero] at hd
    · rw [pteDecode_table hl hp.lt] at hd
      cases hd
      exact hp
    · simp [pteDecode_leaf hl ha hlt perms] at hd
  zero_of_sane := by
    rintro l w (_ | ⟨hl, hp⟩ | ⟨hl, ha, hlt, perms⟩) hd
    · rfl
    · simp [pteDecode_table hl hp.lt] at hd
    · simp [pteDecode_leaf hl ha hlt perms] at hd
  not_table := by
    intro w f
    unfold pteDecode
    split
    · simp
    · split
      · split <;> simp
      · simp

section Refine
variable {h : Hhdm} {l page va i f w : Nat} {k : Fin 512} {m : PhysMem}

/-- Masking clears the flags. -/
lemma and_not_flagMask {x : Nat} (hx : x < 2 ^ 64) :
    x &&& (2 ^ 64 - 1 - vmmFlagMask) = 2 ^ 10 * (x / 2 ^ 10) := by
  rw [show 2 ^ 64 - 1 - vmmFlagMask = 2 ^ 10 * (2 ^ 54 - 1) by decide, and_shifted_mask,
    Nat.mod_eq_of_lt (by omega)]

/-- An entry that links a table gives the pointer to it, whatever its flags. -/
lemma tablePointer_eq {b : Nat} (hp : h.TablePage page) (hb : b < 2 ^ 10) :
    tablePointer h (2 ^ 10 * page + b) = h.ptr page := by
  have hlt := hp.lt
  have e : (2 ^ 10 * page + b) / 2 ^ 10 = page := by omega
  have e' : (2 ^ 10 * page) <<< 2 % 2 ^ 64 = 0x1000 * page := by
    rw [Nat.shiftLeft_eq]
    omega
  simp only [tablePointer, and_not_flagMask (show 2 ^ 10 * page + b < 2 ^ 64 by omega), e, e', hp.2.2]
  rfl

/-- The offsets of an address are its indices. -/
lemma getAddrOffsets_getD (hi : i ≤ 4) : (getAddrOffsets va).getD i 0 = vpn i va := by
  have digit : ∀ s, (va &&& 0x1FF <<< s) >>> s = va / 2 ^ s % 512 := by
    intro s
    rw [Nat.shiftRight_and_distrib, Nat.shiftLeft_shiftRight, Nat.shiftRight_eq_div_pow]
    exact Nat.and_two_pow_sub_one_eq_mod _ 9
  simp only [getAddrOffsets, digit, vpn, span]
  interval_cases i <;> rfl

/-- One step down through a kernel pointer is one step down the tree. -/
lemma vmmGetOrAlloc_eq (hf : f < 2 ^ 44) (hl : 0 < l) (hk : KernelEntry h l (m.entry f k))
    (hn : ∀ v, pteDecode l (m.entry f k) ≠ .leaf v) (hu : ∀ g ∈ m.frames, h.TablePage g) :
    vmmGetOrAlloc h (h.ptr f) k vmmPresent m =
      (getOrAlloc (format h) l f k m).map fun (g, m) => (h.ptr g, m) := by
  have load : h.load m (h.ptr f) k = m.entry f k := Hhdm.load_ptr hf k
  generalize hw : m.entry f k = w at hk hn load
  cases hk with
  | leaf hl' ha hlt perms => exact absurd (pteDecode_leaf hl' ha hlt perms) (hn _)
  | @table page _ hp =>
    have present : tableEntry page &&& vmmPresent ≠ 0 := by
      rw [tableEntry_eq, show vmmPresent = 1 from rfl, Nat.and_one_is_mod]
      omega
    have decode : (format h).decode l (m.entry f k) = .table page := by
      rw [hw]
      exact pteDecode_table hl hp.lt
    simp only [vmmGetOrAlloc, load, if_neg present, getOrAlloc, decode, Except.map]
    rw [tableEntry_eq, tablePointer_eq hp (by norm_num)]
  | none =>
    have decode : (format h).decode l (m.entry f k) = .empty := by
      rw [hw]
      exact pteDecode_zero (l := l)
    simp only [vmmGetOrAlloc, load, Nat.zero_and, if_true, getOrAlloc, decode]
    cases hfs : m.frames with
    | nil => simp only [pmmAlloc, hfs, if_true, Except.map]
    | cons g fs =>
      have hg : h.TablePage g := hu g (by simp [hfs])
      have nonnull : 0x1000 * g ≠ 0 := by
        have := hg.1
        omega
      have pointer : tablePointer h ((0x1000 * g) >>> 2) = h.ptr g := by
        have e : (0x1000 * g) >>> 2 = 2 ^ 10 * g + 0 := by
          rw [Nat.shiftRight_eq_div_pow]
          omega
        rw [e, tablePointer_eq hg (by norm_num)]
      simp only [pmmAlloc, hfs, if_neg nonnull, Except.map, Hhdm.store_ptr hf, Hhdm.load_ptr hf,
        Memory.write_self, Memory.write_write, Memory.link]
      rw [pointer]
      rfl

/-- The loop of `vmm_map_advanced` goes down the tree to a table of level 1. -/
lemma allocTables_eq (va : Nat) {top root : Nat} {q : List (Fin 512)} (hT : Tree (format h) top root m)
    (hS : Supply (format h) top root m) (hr : h.TablePage root)
    (hq : tableAt (format h) m top root q = some f) (hl : q.length + (i + 1) = top) (hi : i ≤ 3) :
    allocTables h (getAddrOffsets va) (i + 1) (h.ptr f) m =
      (descendAlloc (format h) (i + 1) f (pathFrom 2 i va) m).map fun (g, m) =>
        (some (h.ptr g), m) := by
  induction i generalizing q f m with
  | zero => rfl
  | succ i ih =>
    have hlev : top - q.length = i + 2 := by omega
    have hsane := hT.sane (vpn (2 + i) va) hq
    rw [hlev] at hsane
    have notLeaf := fun v => (format h).not_leaf_of_sane (v := v) hsane
    have clear := lookup_concat_none (l := top) (k := vpn (2 + i) va) hq (by rwa [hlev])
    have down := vmmGetOrAlloc_eq (tableAt_usable hT hr hq).lt (Nat.succ_pos _) hsane notLeaf hS.usable
    have offset : (getAddrOffsets va).getD (i + 2) 0 = vpn (2 + i) va := by
      rw [getAddrOffsets_getD (by omega), Nat.add_comm]
    simp only [allocTables, offset, down, pathFrom, descendAlloc, bind, Except.bind]
    obtain ⟨g, m', e, grown, ht, _⟩ | ⟨e, _⟩ := getOrAlloc_spec hT hS hq (by omega) clear
    · rw [hlev] at e
      have hg := tableAt_usable grown.tree hr ht
      have rest := ih grown.tree grown.supply ht (by simp; omega) (by omega)
      simp only [e, Except.map, if_neg hg.ptr_ne_zero, rest]
      rfl
    · rw [hlev] at e
      simp only [e, Except.map]

/-- A step down without allocation finds the table of the entry, or `NULL`. -/
lemma vmmGetOrNull_eq (hf : f < 2 ^ 44) (hl : 0 < l) (hk : KernelEntry h l (m.entry f k)) :
    (∀ g, pteDecode l (m.entry f k) = .table g → vmmGetOrNull h (h.ptr f) k m = h.ptr g) ∧
    (pteDecode l (m.entry f k) = .empty → vmmGetOrNull h (h.ptr f) k m = 0) := by
  have load : h.load m (h.ptr f) k = m.entry f k := Hhdm.load_ptr hf k
  generalize m.entry f k = w at hk load
  cases hk with
  | none => simp [vmmGetOrNull, load, pteDecode_zero]
  | @table page _ hp =>
    have present : tableEntry page &&& vmmPresent ≠ 0 := by
      rw [tableEntry_eq, show vmmPresent = 1 from rfl, Nat.and_one_is_mod]
      omega
    rw [pteDecode_table hl hp.lt]
    refine ⟨?_, by simp⟩
    rintro g ⟨⟩
    simp only [vmmGetOrNull, load, if_neg present]
    rw [tableEntry_eq, tablePointer_eq hp (by norm_num)]
  | leaf hl' ha hlt perms => simp [pteDecode_leaf hl' ha hlt perms]

/-- The loop of `vmm_unmap` goes down the tree to a table of level 1. -/
lemma findTables_eq (va : Nat) {top root : Nat} {q : List (Fin 512)} (hT : Tree (format h) top root m)
    (hr : h.TablePage root) (hq : tableAt (format h) m top root q = some f)
    (hl : q.length + (i + 1) = top) (hi : i ≤ 3) :
    findTables h (getAddrOffsets va) (i + 1) (h.ptr f) m =
      (tableAt (format h) m (i + 1) f (pathFrom 2 i va)).map h.ptr := by
  induction i generalizing q f with
  | zero => rfl
  | succ i ih =>
    have hlev : top - q.length = i + 2 := by omega
    have hsane := hT.sane (vpn (2 + i) va) hq
    rw [hlev] at hsane
    have offset : (getAddrOffsets va).getD (i + 2) 0 = vpn (2 + i) va := by
      rw [getAddrOffsets_getD (by omega), Nat.add_comm]
    obtain ⟨found, missing⟩ := vmmGetOrNull_eq (tableAt_usable hT hr hq).lt (Nat.succ_pos _) hsane
    simp only [findTables, offset, pathFrom]
    cases hd : pteDecode (i + 2) (m.entry f (vpn (2 + i) va)) with
    | leaf v => exact absurd hd ((format h).not_leaf_of_sane hsane)
    | empty =>
      have none' : tableAt (format h) m (i + 1 + 1) f (vpn (2 + i) va :: pathFrom 2 i va) = none :=
        tableAt_none (by simp [format, hd])
      rw [missing hd, if_pos rfl, none', Option.map_none]
    | table g =>
      have hg := tableAt_concat hq (k := vpn (2 + i) va) (by rw [hlev]; exact hd) (by omega)
      have down : tableAt (format h) m (i + 1 + 1) f (vpn (2 + i) va :: pathFrom 2 i va) =
          tableAt (format h) m (i + 1) g (pathFrom 2 i va) := tableAt_table hd
      rw [found g hd, if_neg (tableAt_usable hT hr hg).ptr_ne_zero, down]
      exact ih hg (by simp; omega) (by omega)

/-- An entry of level 1 has an access bit if and only if it is a leaf. -/
lemma accessBits_iff (hk : KernelEntry h 1 w) :
    w &&& (vmmRead ||| vmmWrite ||| vmmExecute) ≠ 0 ↔ ∃ v, pteDecode 1 w = .leaf v := by
  cases hk with
  | none => simp [pteDecode_zero]
  | @table page hl hp =>
    have bits : tableEntry page &&& (vmmRead ||| vmmWrite ||| vmmExecute) = 0 := by
      apply Nat.eq_of_testBit_eq
      intro i
      rw [Nat.testBit_and, tableEntry_eq, show vmmRead ||| vmmWrite ||| vmmExecute = 14 from rfl,
        Nat.zero_testBit]
      by_cases hi : i < 10
      · rw [testBit_low (by norm_num) hi]
        interval_cases i <;> rfl
      · rw [Nat.testBit_lt_two_pow (x := 14) (lt_of_lt_of_le (b := 2 ^ 10) (by norm_num)
          (Nat.pow_le_pow_right (by decide) (by omega))), Bool.and_false]
    simp [bits, pteDecode_table hl hp.lt]
  | @leaf phys permissions hl ha hlt perms =>
    refine iff_of_true ?_ ⟨_, pteDecode_leaf hl ha hlt perms⟩
    have aligned : 0x1000 ∣ phys := by
      refine Dvd.dvd.trans ?_ ha
      norm_num [span]
    intro h0
    have bit : ∀ i, 0 < i → i < 10 → (14 : Nat).testBit i = true → permissions.testBit i = false := by
      intro i h1 h2 h3
      have := congrArg (Nat.testBit · i) h0
      simp only [Nat.testBit_and, Nat.zero_testBit, leafEntry_eq aligned,
        testBit_low leafFlags_lt h2, leafFlags_testBit h1 h2] at this
      simpa [show vmmRead ||| vmmWrite ||| vmmExecute = 14 from rfl, h3] using this
    obtain hr | ⟨hx, _⟩ := perms
    · rw [bit 1 (by decide) (by decide) (by decide)] at hr
      cases hr
    · rw [bit 3 (by decide) (by decide) (by decide)] at hx
      cases hx

end Refine

/-- The level of the root table. -/
def Paging.top (c : Paging) : Nat := c.maxLevel - 1

section Map
variable {c : Paging} {root permissions addr phys n flags : Nat} {m : PhysMem}

/-- The level of the root is the last one. -/
lemma Paging.top_succ (c : Paging) : c.top + 1 = c.maxLevel := by
  have := c.levels
  simp only [List.mem_cons, List.not_mem_nil, or_false] at this
  unfold Paging.top
  omega

/-- There are 3, 4 or 5 levels. -/
lemma Paging.top_mem (c : Paging) : c.top + 1 ∈ [3, 4, 5] := by
  rw [c.top_succ]
  exact c.levels

/-- The root is at level 2, 3 or 4. -/
lemma Paging.exists_top (c : Paging) : ∃ i, c.top = i + 1 ∧ 0 < i ∧ i ≤ 3 := by
  have := c.levels
  simp only [List.mem_cons, List.not_mem_nil, or_false] at this
  exact ⟨c.top - 1, by unfold Paging.top; omega, by unfold Paging.top; omega,
    by unfold Paging.top; omega⟩

section
variable (hT : Tree (format c.hhdm) c.top root m) (hS : Supply (format c.hhdm) c.top root m)
  (hr : c.hhdm.TablePage root)
include hT hS hr

/-- The tables of levels above 1 for an address, as `vmm_map_advanced` reaches them. -/
lemma allocTables_root (addr : Nat) :
    allocTables c.hhdm (getAddrOffsets addr) (c.maxLevel - 1) (c.hhdm.ptr root) m =
      (descendAlloc (format c.hhdm) c.top root (pathFrom 2 (c.top - 1) addr) m).map fun (g, m) =>
        (some (c.hhdm.ptr g), m) := by
  obtain ⟨i, hi, _, hi'⟩ := c.exists_top
  have e := allocTables_eq addr (q := []) (i := i) hT hS hr tableAt_nil (by simp [hi]) hi'
  rw [show c.maxLevel - 1 = i + 1 from hi, hi]
  exact e

/-- One round of `vmm_map_huge`. -/
lemma vmmMapAdvanced_huge :
    vmmMapAdvanced c (0x1000 * root) permissions true (n + 1) addr phys m =
      (mapLeaf (format c.hhdm) c.top root (pathFrom 2 (c.top - 1) addr) (vpn 1 addr)
        (leafEntry phys permissions) m).bind fun m =>
          vmmMapAdvanced c (0x1000 * root) permissions true n ((addr + 0x200000) % 2 ^ 64)
            ((phys + 0x200000) % 2 ^ 64) m := by
  have nonnull : (0x1000 * root + c.hhdm.memPhysOffset) % 2 ^ 64 ≠ 0 := hr.ptr_ne_zero
  have tables := allocTables_root hT hS hr addr
  rw [Hhdm.ptr] at tables
  simp only [vmmMapAdvanced, if_neg nonnull, tables, mapLeaf, bind, Except.bind, pure, Except.pure]
  have spec := descendAlloc_spec (q := []) (p := pathFrom 2 (c.top - 1) addr) hT hS tableAt_nil
    (by simp) (Tree.clear_upper hT _)
  obtain ⟨g, m', e, grown, ht, _⟩ | ⟨e, _⟩ := spec
  · rw [List.length_nil, Nat.sub_zero] at e
    simp only [e, Except.map, if_true, getAddrOffsets_getD (show 1 ≤ 4 by decide),
      Hhdm.store_ptr (tableAt_usable grown.tree hr ht).lt]
  · rw [List.length_nil, Nat.sub_zero] at e
    simp only [e, Except.map]

/-- One round of `vmm_map`. -/
lemma vmmMapAdvanced_small (hc : lookup (format c.hhdm) m c.top root (pathFrom 1 c.top addr) = none) :
    vmmMapAdvanced c (0x1000 * root) permissions false (n + 1) addr phys m =
      (mapLeaf (format c.hhdm) c.top root (pathFrom 1 c.top addr) (vpn 0 addr)
        (leafEntry phys permissions) m).bind fun m =>
          vmmMapAdvanced c (0x1000 * root) permissions false n ((addr + 0x1000) % 2 ^ 64)
            ((phys + 0x1000) % 2 ^ 64) m := by
  have nonnull : (0x1000 * root + c.hhdm.memPhysOffset) % 2 ^ 64 ≠ 0 := hr.ptr_ne_zero
  have tables := allocTables_root hT hS hr addr
  rw [Hhdm.ptr] at tables
  obtain ⟨i, hi, _, _⟩ := c.exists_top
  have path : pathFrom 1 c.top addr = pathFrom 2 (c.top - 1) addr ++ [vpn 1 addr] := by
    rw [hi, pathFrom_concat, Nat.add_sub_cancel]
  simp only [vmmMapAdvanced, if_neg nonnull, tables, mapLeaf, bind, Except.bind, pure, Except.pure]
  rw [path, descendAlloc_append, pathFrom_length]
  have spec := descendAlloc_spec (q := []) (p := pathFrom 2 (c.top - 1) addr) hT hS tableAt_nil
    (by simp) (Tree.clear_upper hT _)
  obtain ⟨g, m', e, grown, ht, _⟩ | ⟨e, _⟩ := spec
  · rw [List.length_nil, Nat.sub_zero] at e
    have hg := tableAt_usable grown.tree hr ht
    have hlev : c.top - (pathFrom 2 (c.top - 1) addr).length = 1 := by
      rw [pathFrom_length]
      omega
    have clear : lookup (format c.hhdm) m' c.top root (pathFrom 2 (c.top - 1) addr ++ [vpn 1 addr]) =
        none := by
      rw [grown.lookup, ← path, hc]
    have hsane := grown.tree.sane (vpn 1 addr) ht
    have notLeaf := not_leaf_of_clear ht clear
    rw [List.nil_append, hlev] at hsane notLeaf
    have down := vmmGetOrAlloc_eq hg.lt Nat.one_pos hsane notLeaf grown.supply.usable
    have step := getOrAlloc_spec grown.tree grown.supply ht (by simp; omega) clear
    rw [List.nil_append, hlev] at step
    simp only [e, Except.map, getAddrOffsets_getD (show 1 ≤ 4 by decide), down, hg.ptr_ne_zero,
      Bool.false_eq_true, if_false, Except.bind, descendAlloc, bind,
      show c.top - (c.top - 1) = 1 by omega]
    obtain ⟨g', m'', e', grown', ht', _⟩ | ⟨e', _⟩ := step
    · simp only [e', getAddrOffsets_getD (show 0 ≤ 4 by decide),
        Hhdm.store_ptr (tableAt_usable grown'.tree hr ht').lt]
    · simp only [e']
  · rw [List.length_nil, Nat.sub_zero] at e
    simp only [e, Except.map, Except.bind]

end

/-- C `vmm_unmap` is the loop on radix tables. -/
lemma vmmUnmap_eq {fuel size : Nat} (hT : Tree (format c.hhdm) c.top root m)
    (hr : c.hhdm.TablePage root) :
    vmmUnmap c (0x1000 * root) fuel addr size m =
      unmapRange (format c.hhdm) c.top root fuel addr size m := by
  have nonnull : (0x1000 * root + c.hhdm.memPhysOffset) % 2 ^ 64 ≠ 0 := hr.ptr_ne_zero
  induction fuel generalizing addr size m with
  | zero => rfl
  | succ fuel ih =>
    cases size with
    | zero => rfl
    | succ size =>
      obtain ⟨i, hi, hi0, hi'⟩ := c.exists_top
      have tables := findTables_eq addr (q := []) (i := i) hT hr tableAt_nil (by simp [hi]) hi'
      rw [← hi, Hhdm.ptr, show i = c.top - 1 by omega] at tables
      simp only [vmmUnmap, unmapRange, if_neg nonnull, show c.maxLevel - 1 = c.top from rfl, tables,
        Nat.succ_ne_zero, if_false, Nat.add_sub_cancel]
      cases hu : tableAt (format c.hhdm) m c.top root (pathFrom 2 (c.top - 1) addr) with
      | none => rfl
      | some f =>
        have lev := level_one c.top_mem addr
        have hf := (tableAt_usable hT hr hu).lt
        have hsane := hT.sane (vpn 1 addr) hu
        rw [lev] at hsane
        have access := accessBits_iff hsane
        obtain ⟨found, missing⟩ := vmmGetOrNull_eq hf Nat.one_pos hsane
        have load : c.hhdm.load m (c.hhdm.ptr f) ((getAddrOffsets addr).getD 1 0) =
            m.entry f (vpn 1 addr) := by
          rw [getAddrOffsets_getD (by decide), Hhdm.load_ptr hf]
        simp only [Option.map_some, load]
        cases hd : (format c.hhdm).decode 1 (m.entry f (vpn 1 addr)) with
        | leaf v =>
          rw [if_pos (access.mpr ⟨v, hd⟩), getAddrOffsets_getD (by decide), Hhdm.store_ptr hf]
          have rest := @ih ((addr + 0x200000) % 2 ^ 64) _
            ((size + 2 ^ 64 - 0x200) % 2 ^ 64) (hT.clear (k := vpn 1 addr) hu).tree
          simp only [← rest]
          rfl
        | empty =>
          have noAccess : ¬ ∃ v, pteDecode 1 (m.entry f (vpn 1 addr)) = .leaf v := by
            rintro ⟨v, hv⟩
            cases hd.symm.trans hv
          rw [if_neg (mt access.mp noAccess), getAddrOffsets_getD (by decide), missing hd, if_pos rfl]
        | table g =>
          have noAccess : ¬ ∃ v, pteDecode 1 (m.entry f (vpn 1 addr)) = .leaf v := by
            rintro ⟨v, hv⟩
            cases hd.symm.trans hv
          have hg := tableAt_concat hu (k := vpn 1 addr) (by rw [lev]; exact hd) (by omega)
          have usable := tableAt_usable hT hr hg
          rw [if_neg (mt access.mp noAccess), getAddrOffsets_getD (by decide), found g hd,
            if_neg usable.ptr_ne_zero, getAddrOffsets_getD (by decide), Hhdm.store_ptr usable.lt]
          exact ih (hT.clear hg).tree

end Map

end WivOS.Vmm.Riscv64
