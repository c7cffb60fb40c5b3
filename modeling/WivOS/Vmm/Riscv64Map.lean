import WivOS.Vmm.Riscv64

/-!
# Mapping on riscv64

What `vmm_map` and `vmm_map_huge` do to an address space: the range of the call translates to its
physical range with the call's permissions, and no other address moves. This holds in every table that
such calls and `vmm_unmap` build from a zeroed root, for three, four and five levels, and for the
permissions that the architecture accepts in a leaf; one that is writable and executable but not
readable is encoded as the call asks and rejected by the walk.
-/

namespace WivOS.Vmm.Riscv64
open WivOS.Lib WivOS.Lib.Radix

/-- The architecture's page-table walk: the physical address and the flags of the leaf. -/
def walk (c : Paging) (root : Nat) (m : PhysMem) (va : Nat) : Option (Nat × Nat) :=
  translate (format c.hhdm) c.maxLevel root m va

/-- A call of `vmm_map` or `vmm_map_huge` on the table in page `root`. -/
def exec (c : Paging) (root : Nat) (call : MapCall) (m : PhysMem) : Except Stop (Bool × PhysMem) :=
  if call.huge then
    vmmMapHuge c (0x1000 * root) call.addr call.phys call.size call.permissions
      { m with frames := call.frames }
  else
    vmmMap c (0x1000 * root) call.addr call.phys call.size call.permissions
      { m with frames := call.frames }

/-- A call with a set of flags for its permissions and ranges as it may be given. -/
structure WellPlaced (c : Paging) (root : Nat) (call : MapCall) (m : PhysMem) : Prop
    extends MapCall.Placed (format c.hhdm) c.hhdm c.top root call m where
  flags : call.permissions < 2 ^ 10

/-- A call that is well placed and asks for permissions that the architecture has. -/
structure Valid (c : Paging) (root : Nat) (call : MapCall) (m : PhysMem) : Prop
    extends WellPlaced c root call m where
  permitted : LeafPermissions call.permissions

/-- The page tables that such calls, and calls of `vmm_unmap`, build from a zeroed root. -/
inductive Reachable (c : Paging) (root : Nat) : PhysMem → Prop where
  | zeroed {m} : c.hhdm.TablePage root → (∀ k, m.entry root k = 0) → Reachable c root m
  | map {m m' b} {call : MapCall} : Reachable c root m → Valid c root call m →
      exec c root call m = .ok (b, m') → Reachable c root m'
  | unmap {m m' b} {fuel addr size : Nat} : Reachable c root m →
      vmmUnmap c (0x1000 * root) fuel addr size m = some (.ok (b, m')) → Reachable c root m'

section Calls
variable {c : Paging} {root : Nat} {call : MapCall} {m m' : PhysMem}

/-- The flags are the permissions and `VMM_PRESENT`. -/
lemma leafFlags_eq {permissions : Nat} (h : permissions < 2 ^ 10) :
    leafFlags permissions = permissions ||| vmmPresent := by
  rw [leafFlags, show vmmFlagMask = 2 ^ 10 - 1 from rfl, Nat.and_two_pow_sub_one_eq_mod,
    Nat.mod_eq_of_lt h]

/-- A valid call can be mapped in its space. -/
lemma Valid.mappable (hv : Valid c root call m) (hT : Tree (format c.hhdm) c.top root m) :
    Mappable (format c.hhdm) c.top root call.level call.addr call.phys call.size
      (leafFlags call.permissions) (leafEntry · call.permissions)
      { m with frames := call.frames } := by
  have level_le : call.level ≤ 1 := Nat.le_of_lt_succ call.level_lt
  refine hv.toPlaced.mappable hT ?_ ?_
  · intro i hi
    obtain ⟨aligned, _, hlt⟩ := hv.toPlaced.page hi
    exact pteDecode_leaf level_le aligned hlt hv.permitted
  · intro i hi
    obtain ⟨aligned, _, hlt⟩ := hv.toPlaced.page hi
    exact .leaf level_le aligned hlt hv.permitted

/-- Both functions are `vmm_map_advanced`. -/
lemma exec_loop : exec c root call m = vmmMapAdvanced c (0x1000 * root) call.permissions call.huge
    call.size call.addr call.phys { m with frames := call.frames } := by
  unfold exec vmmMap vmmMapHuge
  cases call.huge <;> rfl

/-- A call is `mapRange` on the radix tables. -/
lemma Valid.exec_eq (hv : Valid c root call m) (hT : Tree (format c.hhdm) c.top root m)
    (hr : c.hhdm.TablePage root) :
    exec c root call m =
      (mapRange (format c.hhdm) c.top root call.level (leafEntry · call.permissions) call.size
        call.addr call.phys { m with frames := call.frames }).map fun m => (true, m) := by
  rw [exec_loop]
  refine mapRange_of_loop c.top_mem call.level_lt (fun _ _ _ => rfl) ?_ hT.frames hv.supply
    (hv.mappable hT) hv.toPlaced.phys_le
  intro n a p m hT hS hm
  cases hh : call.huge with
  | true =>
    rw [MapCall.level_huge hh, vmmMapAdvanced_huge hT hS hr]
    rfl
  | false =>
    have clear := hm.clear 0 (Nat.succ_pos n)
    rw [MapCall.level_small hh] at clear ⊢
    rw [vmmMapAdvanced_small hT hS hr (by simpa using clear)]
    rfl

/-- What a valid call does to the tree of tables. -/
lemma Valid.exec_spec (hv : Valid c root call m) (hT : Tree (format c.hhdm) c.top root m)
    (hr : c.hhdm.TablePage root) :
    (∃ m', exec c root call m = .ok (true, m') ∧
      RangeMapped (format c.hhdm) c.top root call.level call.addr call.phys call.length
        (call.permissions ||| vmmPresent) { m with frames := call.frames } m') ∨
    (exec c root call m = .error .outOfFrames ∧
      call.frames.length < call.size * (c.top - call.level)) := by
  rw [hv.exec_eq hT hr, ← leafFlags_eq hv.flags]
  obtain ⟨m', e, mapped⟩ | ⟨e, hf⟩ := mapRange_spec c.top_mem call.level_lt hT.frames hv.supply
    (hv.mappable hT)
  · exact .inl ⟨m', by rw [e]; rfl, mapped⟩
  · exact .inr ⟨by rw [e]; rfl, hf⟩

/-- The pages that a valid call takes, and the tables that it makes of them. -/
lemma Valid.exec_tables (hv : Valid c root call m) (hT : Tree (format c.hhdm) c.top root m)
    (hr : c.hhdm.TablePage root) {b : Bool} (e : exec c root call m = .ok (b, m')) :
    call.frames.length ≤ m'.frames.length + call.size * (c.top - call.level) ∧
      ∀ {r : List (Fin 512)} {f}, tableAt (format c.hhdm) m' c.top root r = some f →
        tableAt (format c.hhdm) m c.top root r = some f ∨
          (f ∈ call.frames ∧ ∃ i < call.size,
            r <+: pathFrom (call.level + 1) (c.top - call.level) (call.addr + i * span call.level)) := by
  rw [hv.exec_eq hT hr] at e
  cases run : mapRange (format c.hhdm) c.top root call.level (leafEntry · call.permissions) call.size
      call.addr call.phys { m with frames := call.frames } with
  | error stop =>
    rw [run] at e
    cases e
  | ok m₁ =>
    rw [run] at e
    cases e
    obtain ⟨taken, tables⟩ := mapRange_tables c.top_mem call.level_lt hT.frames hv.supply (hv.mappable hT) run
    refine ⟨taken, fun hr' => ?_⟩
    obtain old | new := tables hr'
    · rw [tableAt_frames] at old
      exact .inl old
    · exact .inr new

/-- The tables of a reachable state form a tree. -/
lemma Reachable.tree (h : Reachable c root m) :
    c.hhdm.TablePage root ∧ Tree (format c.hhdm) c.top root m := by
  induction h with
  | zeroed hr hz => exact ⟨hr, Tree.zeroed hz⟩
  | map _ hv e ih =>
    refine ⟨ih.1, ?_⟩
    obtain ⟨m', e', mapped⟩ | ⟨e', _⟩ := hv.exec_spec ih.2 ih.1
    · rw [e'] at e
      cases e
      exact mapped.tree
    · rw [e'] at e
      cases e
  | unmap _ e ih =>
    rw [vmmUnmap_eq ih.2 ih.1] at e
    exact ⟨ih.1, unmapRange_tree c.top_mem ih.2 e⟩

end Calls

/-- In every reachable table a valid call maps its range, with its permissions, and nothing else: the
only other outcome is that it spins for want of a page. -/
theorem exec_maps_range {c : Paging} {root : Nat} {call : MapCall} {m : PhysMem}
    (h : Reachable c root m) (hv : Valid c root call m) :
    (∃ m', exec c root call m = .ok (true, m') ∧
      (∀ va, call.Covers va →
        walk c root m' va = some (call.phys + (va - call.addr), call.permissions ||| vmmPresent)) ∧
      (∀ va, Canonical c.maxLevel va → ¬ call.Covers va → walk c root m' va = walk c root m va)) ∨
    (exec c root call m = .error .outOfFrames ∧
      call.frames.length < call.size * (c.maxLevel - 1 - call.level)) := by
  obtain ⟨hr, hT⟩ := h.tree
  obtain ⟨m', e, mapped⟩ | stuck := hv.exec_spec hT hr
  · refine .inl ⟨m', e, ?_, ?_⟩
    · intro va hva
      rw [walk, ← c.top_succ]
      exact mapped.translate_inside hv.aligned hv.canonical hva.1 hva.2
    · intro va _ hva
      rw [walk, walk, ← c.top_succ, mapped.translate_outside hva]
      simp only [translate, lookup_frames]
  · exact .inr stuck

/-- Four levels, physical memory at `0xFFFF800000000000`. -/
def sv48 : Paging := .boot ⟨0xFFFF800000000000, by decide, by decide⟩

/-- Physical memory after it was zeroed. -/
def zeroedMem : PhysMem := ⟨fun _ _ => 0, []⟩

/-- Maps the pages from 0x4000 on to the physical pages from 0x10000 on. -/
def mapPages (size permissions : Nat) : MapCall :=
  ⟨false, 0x4000, 0x10000, size, permissions, [2, 3, 4]⟩

/-- Low memory does not overlap the direct map. -/
lemma sv48_apart {phys len : Nat} (h : phys + len ≤ 2 ^ 47) (hp : phys < 2 ^ 64) :
    sv48.hhdm.Apart phys len := by
  refine ⟨hp, fun a _ ha => ?_⟩
  apply Nat.eq_of_testBit_eq
  intro i
  rw [Nat.testBit_and, show sv48.hhdm.memPhysOffset = 2 ^ 47 * (2 ^ 17 - 1) from rfl,
    Nat.testBit_two_pow_mul, Nat.zero_testBit]
  by_cases hi : 47 ≤ i
  · have low : a.testBit i = false :=
      Nat.testBit_lt_two_pow (by have := Nat.pow_le_pow_right (n := 2) (by decide) hi; omega)
    rw [low, Bool.false_and]
  · simp [hi]

/-- A few pages are well placed in the zeroed space. -/
lemma mapPages_placed {size permissions : Nat} (hs : size ≤ 8) (hp : permissions < 2 ^ 10) :
    WellPlaced sv48 1 (mapPages size permissions) zeroedMem where
  aligned := by norm_num [mapPages, MapCall.level, span]
  aligned_phys := by norm_num [mapPages, MapCall.level, span]
  canonical := by
    left
    norm_num [mapPages, MapCall.length, MapCall.level, span, sv48, Paging.boot, Paging.top,
      archVmmPreinit]
    omega
  apart := by
    apply sv48_apart
    · norm_num [mapPages, MapCall.length, MapCall.level, span]
      omega
    · norm_num [mapPages]
  flags := hp
  clear := by
    rintro _ va _ ⟨v, t, h⟩
    rw [lookup_zeroed (fun _ => rfl)] at h
    cases h
  supply :=
    { nodup := show List.Nodup [2, 3, 4] by decide
      usable := by
        intro f hf
        simp only [mapPages, List.mem_cons, List.not_mem_nil, or_false] at hf
        rcases hf with rfl | rfl | rfl <;> exact ⟨by decide, by decide, by decide⟩
      fresh := by
        intro f hf p hp
        obtain ⟨_, rfl⟩ := tableAt_zeroed (fun _ => rfl) hp
        simp [mapPages] at hf }

/-- Two readable and writable pages in an empty address space. -/
theorem exec_maps_range_twoPages :
    Valid sv48 1 (mapPages 2 6) zeroedMem ∧
    ∃ m', exec sv48 1 (mapPages 2 6) zeroedMem = .ok (true, m') ∧
      walk sv48 1 m' 0x5008 = some (0x11008, 7) := by
  have valid : Valid sv48 1 (mapPages 2 6) zeroedMem :=
    ⟨mapPages_placed (by decide) (by decide), by decide⟩
  have root : Reachable sv48 1 zeroedMem :=
    .zeroed ⟨by decide, by decide, by decide⟩ fun _ => rfl
  obtain ⟨m', e, mapped, _⟩ | ⟨e, _⟩ := exec_maps_range root valid
  · exact ⟨valid, m', e, mapped 0x5008 ⟨by decide, by decide⟩⟩
  · cases e

/-- A page that is writable and executable but not readable is mapped, and the walk rejects it. -/
theorem walk_rejects_write_execute :
    Reachable sv48 1 zeroedMem ∧
    WellPlaced sv48 1 (mapPages 1 (vmmWrite ||| vmmExecute)) zeroedMem ∧
    ∃ m', exec sv48 1 (mapPages 1 (vmmWrite ||| vmmExecute)) zeroedMem = .ok (true, m') ∧
      walk sv48 1 m' 0x4000 = none :=
  ⟨.zeroed ⟨by decide, by decide, by decide⟩ fun _ => rfl, mapPages_placed (by decide) (by decide),
    _, rfl, by decide⟩

end WivOS.Vmm.Riscv64
