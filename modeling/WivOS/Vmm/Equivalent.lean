import WivOS.Lib.RadixAlike
import WivOS.Vmm.UnmapNull

/-!
# One address space on both architectures

The same calls of `vmm_map`, `vmm_map_huge` and `vmm_unmap`, given the same pages by `pmm_alloc`, build
page tables that are alike on riscv64 with four levels and on x86_64: the same pages are tables at the
same places, and leaves have the same physical addresses, though the entries have different formats and
flags. So each call returns the same value on both, and both walks define one partial function.
-/

namespace WivOS.Vmm
open WivOS.Lib WivOS.Lib.Radix

section Loops
variable {fmt fmt' : PageFormat} {top root lo addr phys size fuel n : Nat} {word word' : Nat → Nat}
  {m m' : PhysMem} {loop loop' : Nat → Nat → Nat → PhysMem → Except Stop (Bool × PhysMem)}

/-- A loop over pages puts the word of each into its place, one after the other. -/
structure MapsPages (fmt : PageFormat) (top root lo : Nat) (word : Nat → Nat)
    (loop : Nat → Nat → Nat → PhysMem → Except Stop (Bool × PhysMem)) : Prop where
  done : ∀ a p m, loop 0 a p m = .ok (true, m)
  round : ∀ n a p m, Tree fmt top root m → Supply fmt top root m →
    lookup fmt m top root (pathFrom (lo + 1) (top - lo) a) = none →
    loop (n + 1) a p m = (mapLeaf fmt top root (pathFrom (lo + 1) (top - lo) a) (vpn lo a) (word p)
      m).bind fun m => loop n ((a + span lo) % 2 ^ 64) ((p + span lo) % 2 ^ 64) m
  leaf : ∀ p, span lo ∣ p → p + span lo ≤ 2 ^ 47 → ∃ flags, fmt.decode lo (word p) = .leaf (p, flags)
  sane : ∀ p, span lo ∣ p → p + span lo ≤ 2 ^ 47 → fmt.Sane lo (word p)

/-- The index of an address at a level does not change where 64 bits wrap. -/
lemma pathFrom_wrap (lo k a b : Nat) (h : lo + k ≤ 5) :
    pathFrom lo k (a % 2 ^ 64 + b) = pathFrom lo k (a + b) := by
  rw [← pathFrom_mod lo k _ h, Nat.mod_add_mod, pathFrom_mod lo k _ h]

/-- Two loops that map the same pages keep the trees alike, or run out of pages together. -/
lemma MapsPages.twins (maps : MapsPages fmt top root lo word loop)
    (maps' : MapsPages fmt' top root lo word' loop') (hl : top + 1 ∈ [3, 4, 5]) (ho : lo < 2)
    (h : Twins fmt fmt' Prod.fst Prod.fst top root m m') (aligned : span lo ∣ phys)
    (below : 0 < n → phys + n * span lo ≤ 2 ^ 47)
    (clear : ∀ i < n, lookup fmt m top root (pathFrom (lo + 1) (top - lo) (addr + i * span lo)) = none) :
    (∃ m₁ m₁', loop n addr phys m = .ok (true, m₁) ∧ loop' n addr phys m' = .ok (true, m₁') ∧
      Twins fmt fmt' Prod.fst Prod.fst top root m₁ m₁') ∨
    (loop n addr phys m = .error .outOfFrames ∧ loop' n addr phys m' = .error .outOfFrames) := by
  induction n generalizing addr phys m m' with
  | zero => exact .inl ⟨m, m', maps.done .., maps'.done .., h⟩
  | succ n ih =>
    have lo_le : lo ≤ top := lo_le_top hl ho
    have level : top - (pathFrom (lo + 1) (top - lo) addr).length = lo := by
      rw [pathFrom_length, Nat.sub_sub_self lo_le]
    have total := below (Nat.succ_pos n)
    have room : phys + span lo ≤ 2 ^ 47 := by
      rw [Nat.add_mul, Nat.one_mul] at total
      omega
    have free : lookup fmt m top root (pathFrom (lo + 1) (top - lo) addr) = none := by
      simpa using clear 0 (Nat.succ_pos n)
    have free' : lookup fmt' m' top root (pathFrom (lo + 1) (top - lo) addr) = none := by
      have leaves := h.leaves (pathFrom (lo + 1) (top - lo) addr)
      rwa [free, Option.map_none, eq_comm, Option.map_eq_none_iff] at leaves
    obtain ⟨flags, leaf⟩ := maps.leaf phys aligned room
    obtain ⟨flags', leaf'⟩ := maps'.leaf phys aligned room
    have sane := maps.sane phys aligned room
    have sane' := maps'.sane phys aligned room
    rw [← level] at leaf leaf' sane sane'
    have step := h.mapLeaf (k := vpn lo addr) (by simp) free leaf leaf' rfl sane sane'
    rw [maps.round n addr phys m h.tree h.supply free, maps'.round n addr phys m' h.tree' h.supply' free']
    obtain ⟨m₁, m₁', e, e', twins, kept⟩ | ⟨e, e'⟩ := step
    · rw [e, e']
      have small : (phys + span lo) % 2 ^ 64 = phys + span lo := Nat.mod_eq_of_lt (by omega)
      rw [small]
      refine ih twins (aligned.add (dvd_refl _)) ?_ ?_
      · intro _
        rw [Nat.add_mul, Nat.one_mul] at total
        omega
      · intro i hi
        have levels : lo + 1 + (top - lo) ≤ 5 := by
          simp only [List.mem_cons, List.not_mem_nil, or_false] at hl
          omega
        rw [pathFrom_wrap _ _ _ _ levels, kept _ (not_prefix_of_length (by simp)), Nat.add_assoc,
          show span lo + i * span lo = (i + 1) * span lo by ring]
        exact clear (i + 1) (by omega)
    · rw [e, e']
      exact .inr ⟨rfl, rfl⟩

/-- The loop of `vmm_unmap` does the same on trees that are alike. -/
lemma unmapRange_alike (hl : top + 1 ∈ [3, 4, 5]) (h : Alike fmt fmt' Prod.fst Prod.fst top root m m')
    (hT : Tree fmt top root m) (hT' : Tree fmt' top root m') :
    (unmapRange fmt top root fuel addr size m = none ∧
      unmapRange fmt' top root fuel addr size m' = none) ∨
    (∃ e, unmapRange fmt top root fuel addr size m = some (.error e) ∧
      unmapRange fmt' top root fuel addr size m' = some (.error e)) ∨
    ∃ b m₁ m₁', unmapRange fmt top root fuel addr size m = some (.ok (b, m₁)) ∧
      unmapRange fmt' top root fuel addr size m' = some (.ok (b, m₁')) ∧
      Alike fmt fmt' Prod.fst Prod.fst top root m₁ m₁' := by
  induction fuel generalizing addr size m m' with
  | zero => exact .inl ⟨rfl, rfl⟩
  | succ fuel ih =>
    unfold unmapRange
    by_cases zero : size = 0
    · rw [if_pos zero, if_pos zero]
      exact .inr (.inr ⟨true, m, m', rfl, rfl, h⟩)
    · rw [if_neg zero, if_neg zero, ← h.tables]
      cases ht : tableAt fmt m top root (pathFrom 2 (top - 1) addr) with
      | none => exact .inr (.inr ⟨false, m, m', rfl, rfl, h⟩)
      | some f =>
        have level : top - (pathFrom 2 (top - 1) addr).length = 1 := by
          simp only [List.mem_cons, List.not_mem_nil, or_false] at hl
          rw [pathFrom_length]
          omega
        have slots := h.slots (vpn 1 addr) ht
        rw [level] at slots
        obtain ⟨hd, hd'⟩ | ⟨g, hd, hd'⟩ | ⟨v, v', hd, hd', -⟩ := slots
        · simp only [hd, hd']
          exact .inr (.inl ⟨.fault, rfl, rfl⟩)
        · simp only [hd, hd']
          have below : tableAt fmt m top root (pathFrom 2 (top - 1) addr ++ [vpn 1 addr]) = some g :=
            tableAt_concat ht (by rwa [level]) (by omega)
          obtain ⟨alike, tree, tree'⟩ := h.clear hT hT' below (vpn 0 addr)
          exact ih alike tree tree'
        · simp only [hd, hd']
          by_cases few : size - 1 < 0x1FF
          · rw [if_pos few, if_pos few]
            exact .inr (.inr ⟨false, m, m', rfl, rfl, h⟩)
          · rw [if_neg few, if_neg few]
            obtain ⟨alike, tree, tree'⟩ := h.clear hT hT' ht (vpn 1 addr)
            exact ih alike tree tree'

end Loops

open Riscv64 (sv48)

/-- The same call on both architectures: `call` on riscv64, with `READ` set, and on x86_64 with the flags
`permissions`. The physical pages are below the bits of the direct map, no page of 4 KiB is under a leaf of
2 MiB, and `pmm_alloc` returns the same pages, apart from both tables. -/
structure SameCall (h : Hhdm) (root : Nat) (call : MapCall) (permissions : Nat) (m m' : PhysMem) : Prop where
  aligned : span call.level ∣ call.phys
  below : sv48.hhdm.Apart call.phys call.length
  readable : call.permissions.testBit 1 = true
  flags : X86.FlagBits permissions
  clear : call.huge = false → ∀ va, call.Covers va → ¬ HugeAt (Riscv64.format sv48.hhdm) 3 root m va
  supply : Supply (Riscv64.format sv48.hhdm) 3 root { m with frames := call.frames }
  supply' : Supply (X86.format h) 3 root { m' with frames := call.frames }

/-- The page tables that the same calls build on both architectures from zeroed roots. -/
inductive SameRuns (h : Hhdm) (root : Nat) : PhysMem → PhysMem → Prop where
  | zeroed {m m'} :
    sv48.hhdm.TablePage root →
    X86.TablePage h root →
    (∀ k, m.entry root k = 0) →
    (∀ k, m'.entry root k = 0) →
    SameRuns h root m m'
  | map {m m' m₁ m₁' b b'} {call : MapCall} {permissions : Nat} :
    SameRuns h root m m' →
    SameCall h root call permissions m m' →
    Riscv64.exec sv48 root call m = .ok (b, m₁) →
    X86.exec h root { call with permissions := permissions } m' = .ok (b', m₁') →
    SameRuns h root m₁ m₁'
  | unmap {m m' m₁ m₁' b b'} {fuel fuel' addr size : Nat} :
    SameRuns h root m m' →
    Riscv64.vmmUnmap sv48 (0x1000 * root) fuel addr size m = some (.ok (b, m₁)) →
    X86.vmmUnmap h (0x1000 * root) fuel' addr size m' = some (.ok (b', m₁')) →
    SameRuns h root m₁ m₁'

section Same
variable {h : Hhdm} {root permissions permissions' : Nat} {huge : Bool} {call : MapCall} {m m' : PhysMem}

/-- The map of the RISC-V pages walks three tables and writes a leaf. -/
lemma riscv64_mapsPages (hr : sv48.hhdm.TablePage root) (readable : permissions.testBit 1 = true) :
    MapsPages (Riscv64.format sv48.hhdm) 3 root (if huge then 1 else 0)
      (Riscv64.leafEntry · permissions)
      (Riscv64.vmmMapAdvanced sv48 (0x1000 * root) permissions huge) where
  done _ _ _ := rfl
  round n a p m hT hS clear := by
    cases huge with
    | true => exact Riscv64.vmmMapAdvanced_huge (c := sv48) hT hS hr
    | false => exact Riscv64.vmmMapAdvanced_small (c := sv48) hT hS hr clear
  leaf p aligned room := by
    refine ⟨_, Riscv64.pteDecode_leaf (by split <;> decide) aligned ?_ (.inl readable)⟩
    omega
  sane p aligned room := by
    refine .leaf (by split <;> decide) aligned ?_ (.inl readable)
    omega

/-- So does the map of the x86 pages. -/
lemma x86_mapsPages (hr : X86.TablePage h root) (flags : X86.FlagBits permissions) :
    MapsPages (X86.format h) 3 root (if huge then 1 else 0) (X86.leafEntry huge · permissions)
      (X86.vmmMapAdvanced h (0x1000 * root) permissions huge) where
  done _ _ _ := rfl
  round n a p m hT hS clear := by
    cases huge with
    | true => exact X86.vmmMapAdvanced_huge hT hS hr
    | false => exact X86.vmmMapAdvanced_small hT hS hr clear
  leaf p aligned room := by
    have leaf : X86.pteDecode _ (X86.leafEntry _ p permissions) = _ :=
      X86.pteDecode_leaf (by split <;> decide) aligned (by omega) flags
    cases huge with
    | true => exact ⟨_, leaf⟩
    | false => exact ⟨_, leaf⟩
  sane p aligned room := by
    have sane : X86.KernelEntry h _ (X86.leafEntry _ p permissions) :=
      .leaf (by split <;> decide) aligned (by omega) flags
    cases huge with
    | true => exact sane
    | false => exact sane

/-- The addresses below the bits of the direct map. -/
lemma sv48_end_le {phys len : Nat} (apart : sv48.hhdm.Apart phys len) (pos : 0 < len) :
    phys + len ≤ 2 ^ 47 := by
  have lt : ∀ {a}, a < 2 ^ 64 → a &&& sv48.hhdm.memPhysOffset = 0 → a < 2 ^ 47 := by
    intro a bound none
    rw [show sv48.hhdm.memPhysOffset = 2 ^ 47 * (2 ^ 17 - 1) from rfl, and_shifted_mask] at none
    omega
  have first := lt apart.1 (apart.2 phys le_rfl (by omega))
  by_contra more
  -- a longer range would hold the address 2 ^ 47 itself
  have := lt (a := 2 ^ 47) (by norm_num) (apart.2 _ (by omega) (by omega))
  omega

/-- Tables that are alike, each of them sound. -/
structure Together (h : Hhdm) (root : Nat) (m m' : PhysMem) : Prop where
  page : sv48.hhdm.TablePage root
  page' : X86.TablePage h root
  alike : Alike (Riscv64.format sv48.hhdm) (X86.format h) Prod.fst Prod.fst 3 root m m'
  tree : Tree (Riscv64.format sv48.hhdm) 3 root m
  tree' : Tree (X86.format h) 3 root m'

/-- The same call maps the same pages, or spins on both architectures. -/
lemma Together.exec (t : Together h root m m') (same : SameCall h root call permissions m m') :
    (∃ m₁ m₁', Riscv64.exec sv48 root call m = .ok (true, m₁) ∧
      X86.exec h root { call with permissions := permissions } m' = .ok (true, m₁') ∧
      Together h root m₁ m₁') ∨
    (Riscv64.exec sv48 root call m = .error .outOfFrames ∧
      X86.exec h root { call with permissions := permissions } m' = .error .outOfFrames) := by
  have twins : Twins (Riscv64.format sv48.hhdm) (X86.format h) Prod.fst Prod.fst 3 root
      { m with frames := call.frames } { m' with frames := call.frames } :=
    ⟨t.alike.frames _, t.tree.frames, t.tree'.frames, same.supply, same.supply', rfl⟩
  have below : 0 < call.size → call.phys + call.size * span call.level ≤ 2 ^ 47 := by
    intro pos
    exact sv48_end_le same.below (Nat.mul_pos pos span_pos)
  have clear : ∀ i < call.size, lookup (Riscv64.format sv48.hhdm) { m with frames := call.frames } 3 root
      (pathFrom (call.level + 1) (3 - call.level) (call.addr + i * span call.level)) = none := by
    intro i hi
    rw [lookup_frames]
    cases hh : call.huge with
    | true =>
      rw [MapCall.level_huge hh]
      exact Tree.clear_upper t.tree _
    | false =>
      have pos : 0 < span call.level := span_pos
      have last := call.page_end hi
      have small := same.clear hh (call.addr + i * span call.level) ⟨Nat.le_add_right _ _, by omega⟩
      rw [MapCall.level_small hh] at small ⊢
      exact Tree.clear_of_not_huge t.tree small
  rw [Riscv64.exec_loop, X86.exec_loop]
  obtain ⟨m₁, m₁', e, e', twins'⟩ | stuck := (riscv64_mapsPages t.page same.readable).twins
    (x86_mapsPages t.page' same.flags) (by decide) call.level_lt twins same.aligned below clear
  · exact .inl ⟨m₁, m₁', e, e', t.page, t.page', twins'.toAlike, twins'.tree, twins'.tree'⟩
  · exact .inr stuck

/-- The same call of `vmm_unmap` does the same on both architectures. -/
lemma Together.vmmUnmap (t : Together h root m m') (fuel addr size : Nat) :
    (Riscv64.vmmUnmap sv48 (0x1000 * root) fuel addr size m = none ∧
      X86.vmmUnmap h (0x1000 * root) fuel addr size m' = none) ∨
    (∃ e, Riscv64.vmmUnmap sv48 (0x1000 * root) fuel addr size m = some (.error e) ∧
      X86.vmmUnmap h (0x1000 * root) fuel addr size m' = some (.error e)) ∨
    ∃ b m₁ m₁', Riscv64.vmmUnmap sv48 (0x1000 * root) fuel addr size m = some (.ok (b, m₁)) ∧
      X86.vmmUnmap h (0x1000 * root) fuel addr size m' = some (.ok (b, m₁')) ∧
      Together h root m₁ m₁' := by
  have eq : Riscv64.vmmUnmap sv48 (0x1000 * root) fuel addr size m =
      unmapRange (Riscv64.format sv48.hhdm) 3 root fuel addr size m :=
    Riscv64.vmmUnmap_eq (c := sv48) t.tree t.page
  have eq' : X86.vmmUnmap h (0x1000 * root) fuel addr size m' =
      unmapRange (X86.format h) 3 root fuel addr size m' := X86.vmmUnmap_eq t.tree' t.page'
  rw [eq, eq']
  obtain none | fault | ⟨b, m₁, m₁', e, e', alike⟩ := unmapRange_alike (by decide) t.alike t.tree t.tree'
  · exact .inl none
  · exact .inr (.inl fault)
  · exact .inr (.inr ⟨b, m₁, m₁', e, e', t.page, t.page', alike, unmapRange_tree (by decide) t.tree e,
      unmapRange_tree (by decide) t.tree' e'⟩)

/-- A run of `vmm_unmap` that returns has one result, however many rounds it is given. -/
lemma unmapRange_unique {fmt : PageFormat} {top fuel fuel' addr size : Nat}
    {r r' : Except Stop (Bool × PhysMem)} (e : unmapRange fmt top root fuel addr size m = some r)
    (e' : unmapRange fmt top root fuel' addr size m = some r') : r = r' :=
  Ends.unique ⟨fuel, e⟩ ⟨fuel', e'⟩

/-- The tables that the same calls build go together. -/
lemma SameRuns.together (runs : SameRuns h root m m') : Together h root m m' := by
  induction runs with
  | zeroed hr hr' zero zero' =>
    exact ⟨hr, hr', .zeroed zero zero', Tree.zeroed zero, Tree.zeroed zero'⟩
  | map _ same e e' ih =>
    obtain ⟨m₁, m₁', d, d', t⟩ | ⟨d, -⟩ := ih.exec same
    · cases e.symm.trans d
      cases e'.symm.trans d'
      exact t
    · cases e.symm.trans d
  | @unmap m m' m₁ m₁' b b' fuel fuel' addr size _ e e' ih =>
    obtain ⟨d, -⟩ | ⟨_, d, -⟩ | ⟨b₁, m₂, m₂', d, d', t⟩ := ih.vmmUnmap fuel addr size
    · cases e.symm.trans d
    · cases e.symm.trans d
    · cases e.symm.trans d
      rw [X86.vmmUnmap_eq ih.tree' ih.page'] at d' e'
      cases unmapRange_unique d' e'
      exact t

/-- The walks of both architectures, without the flags. -/
lemma Together.walk_eq (t : Together h root m m') (va : Nat) :
    (Riscv64.walk sv48 root m va).map Prod.fst = ((Arch.x86 h).walk root m' va).map Prod.fst := by
  have leaves := t.alike.leaves (pathFrom 0 4 va)
  show (translate (Riscv64.format sv48.hhdm) 4 root m va).map Prod.fst =
    (translate (X86.format h) 4 root m' va).map Prod.fst
  unfold translate
  split
  · show ((lookup (Riscv64.format sv48.hhdm) m 3 root (pathFrom 0 4 va)).map _).map _ =
      ((lookup (X86.format h) m' 3 root (pathFrom 0 4 va)).map _).map _
    cases e : lookup (Riscv64.format sv48.hhdm) m 3 root (pathFrom 0 4 va) with
    | none =>
      rw [e, Option.map_none, eq_comm, Option.map_eq_none_iff] at leaves
      rw [leaves]
    | some x =>
      rw [e, Option.map_some, eq_comm, Option.map_eq_some_iff] at leaves
      obtain ⟨y, e', same⟩ := leaves
      rw [e']
      simp only [Prod.mk.injEq] at same
      simp [same.1, same.2.1]
  · rfl

/-- After any calls that are the same on both architectures: both walks define the same partial function,
and the next call returns the same value on both, if it returns. -/
theorem riscv64_x86_agree (runs : SameRuns h root m m') :
    (∀ va, (Riscv64.walk sv48 root m va).map Prod.fst = ((Arch.x86 h).walk root m' va).map Prod.fst) ∧
    (∀ call permissions, SameCall h root call permissions m m' →
      (Riscv64.exec sv48 root call m).map Prod.fst =
        (X86.exec h root { call with permissions := permissions } m').map Prod.fst) ∧
    ∀ fuel addr size, (Riscv64.vmmUnmap sv48 (0x1000 * root) fuel addr size m).map (Except.map Prod.fst) =
      (X86.vmmUnmap h (0x1000 * root) fuel addr size m').map (Except.map Prod.fst) := by
  have t := runs.together
  refine ⟨t.walk_eq, ?_, ?_⟩
  · intro call permissions same
    obtain ⟨m₁, m₁', e, e', -⟩ | ⟨e, e'⟩ := t.exec same
    · rw [e, e']
      rfl
    · rw [e, e']
  · intro fuel addr size
    obtain ⟨e, e'⟩ | ⟨_, e, e'⟩ | ⟨b, m₁, m₁', e, e', -⟩ := t.vmmUnmap fuel addr size
    · rw [e, e']
    · rw [e, e']
    · rw [e, e']
      rfl

end Same

open Riscv64 (zeroedMem mapPages mapPages_placed)

/-- Two pages mapped in both zeroed spaces. -/
lemma mapPages_same : SameCall sv48.hhdm 1 (mapPages 2 6) X86.vmmWrite zeroedMem zeroedMem := by
  have placed := mapPages_placed (show 2 ≤ 8 by decide) (show 6 < 2 ^ 10 by decide)
  refine ⟨placed.aligned_phys, placed.apart, by decide, ⟨by decide, by decide⟩, placed.clear,
    placed.supply, placed.supply.nodup, ?_, ?_⟩
  · intro f mem
    refine ⟨placed.supply.usable f mem, ?_⟩
    simp only [mapPages, List.mem_cons, List.not_mem_nil, or_false] at mem
    rcases mem with rfl | rfl | rfl <;> decide
  · intro f mem p ht
    obtain ⟨-, rfl⟩ := tableAt_zeroed (fun _ => rfl) ht
    simp [mapPages] at mem

/-- Two pages are mapped on both architectures. -/
theorem riscv64_x86_agree_twoPages : ∃ m m', SameRuns sv48.hhdm 1 m m' ∧
    Riscv64.walk sv48 1 m 0x5008 = some (0x11008, 7) ∧
    ((Arch.x86 sv48.hhdm).walk 1 m' 0x5008).map Prod.fst = some 0x11008 := by
  have page : sv48.hhdm.TablePage 1 := ⟨by decide, by decide, by decide⟩
  have start : SameRuns sv48.hhdm 1 zeroedMem zeroedMem :=
    .zeroed page ⟨page, by decide⟩ (fun _ => rfl) fun _ => rfl
  obtain ⟨m, m', e, e', -⟩ | ⟨e, -⟩ := start.together.exec mapPages_same
  · have runs : SameRuns sv48.hhdm 1 m m' := .map start mapPages_same e e'
    have walk : Riscv64.walk sv48 1 m 0x5008 = some (0x11008, 7) := by
      cases e
      decide
    refine ⟨m, m', runs, walk, ?_⟩
    rw [← (riscv64_x86_agree runs).1, walk]
    rfl
  · cases e

end WivOS.Vmm
