import WivOS.Vmm.Equivalent

/-!
# What the mapping functions write

`vmm_get_or_alloc` follows every present entry as the pointer to a table, so what `vmm_map` writes depends on
whether an entry at level 1 can be a leaf. `Kept` says which pages are the tables of an address space, by the
path to each, and which blocks of 2 MiB have a leaf: all other entries above level 0 are empty or link such a
table. As long as no page of 4 KiB is mapped in a block that `vmm_map_huge` mapped before, every call keeps
this and changes no word outside the root and the pages that `pmm_alloc` returned for the tables. The one
page that breaks it is written into the memory that the block maps.
-/

namespace WivOS.Vmm
open WivOS.Lib WivOS.Lib.Radix

/-- A page that a table may own: it was one before the call, or `pmm_alloc` returned it since. -/
def Owned (base : Nat → Prop) (frames : List Nat) (m : PhysMem) (f : Nat) : Prop :=
  base f ∨ (f ∈ frames ∧ f ∉ m.frames)

/-- The tables of an address space by their paths and the blocks that have a leaf. The tables are owned, and
nothing else changed since the call started with the memory `m₀`. -/
structure Kept (fmt : PageFormat) (top root : Nat) (base : Nat → Prop) (frames : List Nat) (m₀ : PhysMem)
    (tables : List (Fin 512) → Option Nat) (huge : List (Fin 512) → Prop) (m : PhysMem) : Prop where
  top_table : tables [] = some root
  distinct : ∀ {p q f}, tables p = some f → tables q = some f → p = q
  usable : ∀ {p f}, tables p = some f → fmt.Usable f
  depth : ∀ {p f}, tables p = some f → p.length ≤ top
  parent : ∀ {p k}, tables p = none → tables (p ++ [k]) = none
  leaf_depth : ∀ {p}, huge p → p.length = top
  entry : ∀ {p f} k, tables p = some f → p.length < top → ¬ huge (p ++ [k]) →
    (tables (p ++ [k]) = none ∧ m.entry f k = fmt.zero) ∨
      ∃ g, tables (p ++ [k]) = some g ∧ m.entry f k = fmt.link g
  owned : ∀ {p f}, tables p = some f → Owned base frames m f
  suffix : m.frames <:+ frames
  within : ∀ f k, ¬ Owned base frames m f → m.entry f k = m₀.entry f k

/-- What `pmm_alloc` is relied on for: pages that can be tables, each once and none that is owned. -/
structure FreshFrames (fmt : PageFormat) (base : Nat → Prop) (frames : List Nat) : Prop where
  nodup : frames.Nodup
  usable : ∀ f ∈ frames, fmt.Usable f
  fresh : ∀ f ∈ frames, ¬ base f

section Kept
variable {fmt : PageFormat} {top root : Nat} {base : Nat → Prop} {frames : List Nat} {m₀ m : PhysMem}
  {tables : List (Fin 512) → Option Nat} {huge : List (Fin 512) → Prop} {p : List (Fin 512)} {k : Fin 512}
  {f w : Nat}

/-- More frames handed out leave what is owned. -/
lemma Owned.mono {m' : PhysMem} (h : Owned base frames m f) (less : m'.frames <:+ m.frames) :
    Owned base frames m' f := by
  rcases h with old | ⟨mem, taken⟩
  · exact .inl old
  · exact .inr ⟨mem, fun again => taken (less.subset again)⟩

/-- A page that is still to be handed out is none of the tables. -/
lemma Kept.notMem (h : Kept fmt top root base frames m₀ tables huge m) (new : FreshFrames fmt base frames)
    (mem : f ∈ m.frames) : ¬ Owned base frames m f := by
  rintro (old | ⟨-, taken⟩)
  · exact new.fresh f (h.suffix.subset mem) old
  · exact taken mem

/-- A word is written to a table at level 0. -/
lemma Kept.write (h : Kept fmt top root base frames m₀ tables huge m) (hp : tables p = some f)
    (last : p.length = top) : Kept fmt top root base frames m₀ tables huge (m.write f k w) where
  top_table := h.top_table
  distinct := h.distinct
  usable := h.usable
  depth := h.depth
  parent := h.parent
  leaf_depth := h.leaf_depth
  entry {p' f'} k' hp' lt clear := by
    have other : f' ≠ f := by
      rintro rfl
      rw [h.distinct hp' hp, last] at lt
      exact Nat.lt_irrefl _ lt
    have same : (m.write f k w).entry f' k' = m.entry f' k' := if_neg fun e => other e.1
    rw [same]
    exact h.entry k' hp' lt clear
  owned := h.owned
  suffix := h.suffix
  within f' k' outside := by
    have other : f' ≠ f := by
      rintro rfl
      exact outside (h.owned hp)
    have same : (m.write f k w).entry f' k' = m.entry f' k' := if_neg fun e => other e.1
    rw [same]
    exact h.within f' k' outside

/-- A path ends with one index. -/
lemma concat_inj {p q : List (Fin 512)} {j k : Fin 512} (e : q ++ [j] = p ++ [k]) : q = p ∧ j = k := by
  obtain ⟨rfl, last⟩ := List.append_inj' e rfl
  exact ⟨rfl, List.singleton_inj.mp last⟩

/-- The entry of another place is another entry. -/
lemma Kept.entry_ne (h : Kept fmt top root base frames m₀ tables huge m) {q : List (Fin 512)} {j : Fin 512}
    {f' : Nat} (hp : tables p = some f) (hq : tables q = some f') (ne : q ++ [j] ≠ p ++ [k]) :
    ¬ (f' = f ∧ j = k) := by
  rintro ⟨rfl, rfl⟩
  exact ne (by rw [h.distinct hq hp])

/-- A page that `pmm_alloc` returns is linked as a table. -/
lemma Kept.link (h : Kept fmt top root base frames m₀ tables huge m) (new : FreshFrames fmt base frames)
    (hp : tables p = some f) (lt : p.length < top) (free : tables (p ++ [k]) = none) {g : Nat}
    {fs : List Nat} (hf : m.frames = g :: fs) :
    Kept fmt top root base frames m₀ (Function.update tables (p ++ [k]) (some g)) huge
      ({ m with frames := fs }.link fmt f k g) := by
  have mem : g ∈ m.frames := by simp [hf]
  -- the frame was free, so no table has it
  have foreign : ¬ Owned base frames m g := h.notMem new mem
  have other : ∀ {q f'}, tables q = some f' → f' ≠ g := by
    rintro q f' hq rfl
    exact foreign (h.owned hq)
  have less : fs <:+ m.frames := hf ▸ List.suffix_cons g fs
  have spent : g ∉ fs := by
    have once := h.suffix.sublist.nodup new.nodup
    rw [hf, List.nodup_cons] at once
    exact once.1
  have own : Owned base frames ({ m with frames := fs }.link fmt f k g) g :=
    .inr ⟨h.suffix.subset mem, spent⟩
  have cases' : ∀ {q f'}, Function.update tables (p ++ [k]) (some g) q = some f' →
      (q = p ++ [k] ∧ f' = g) ∨ (q ≠ p ++ [k] ∧ tables q = some f') := by
    intro q f' hq
    by_cases e : q = p ++ [k]
    · rw [e, Function.update_self, Option.some.injEq] at hq
      exact .inl ⟨e, hq.symm⟩
    · rw [Function.update_of_ne e] at hq
      exact .inr ⟨e, hq⟩
  refine ⟨?_, ?_, ?_, ?_, ?_, h.leaf_depth, ?_, ?_, ?_, ?_⟩
  · rw [Function.update_of_ne (by simp), h.top_table]
  · intro q r f' hq hr
    obtain ⟨rfl, rfl⟩ | ⟨-, hq'⟩ := cases' hq <;> obtain ⟨rfl, e⟩ | ⟨-, hr'⟩ := cases' hr
    · rfl
    · exact absurd rfl (other hr')
    · exact absurd e (other hq')
    · exact h.distinct hq' hr'
  · intro q f' hq
    obtain ⟨-, rfl⟩ | ⟨-, hq'⟩ := cases' hq
    · exact new.usable _ (h.suffix.subset mem)
    · exact h.usable hq'
  · intro q f' hq
    obtain ⟨rfl, -⟩ | ⟨-, hq'⟩ := cases' hq
    · simpa using lt
    · exact h.depth hq'
  · intro q j hq
    have away : q ≠ p ++ [k] := by
      rintro rfl
      rw [Function.update_self] at hq
      cases hq
    rw [Function.update_of_ne away] at hq
    rw [Function.update_of_ne ?_, h.parent hq]
    intro e
    rw [(concat_inj e).1, hp] at hq
    cases hq
  · intro q f' j hq deep small
    -- the new table is zeroed, and the entry that points to it is the only one that changed
    obtain ⟨rfl, rfl⟩ | ⟨away, hq'⟩ := cases' hq
    · left
      rw [Function.update_of_ne (by simp)]
      exact ⟨h.parent free, link_entry_fresh (other hp).symm j⟩
    · by_cases e : q ++ [j] = p ++ [k]
      · obtain ⟨rfl, rfl⟩ := concat_inj e
        rw [hp, Option.some.injEq] at hq'
        right
        exact ⟨g, Function.update_self .., by rw [← hq', Memory.link, Memory.write_self]⟩
      · have same : ({ m with frames := fs }.link fmt f k g).entry f' j = m.entry f' j := by
          simp [Memory.link, Memory.write, Memory.fill, h.entry_ne hp hq' e, other hq']
        rw [Function.update_of_ne e, same]
        exact h.entry j hq' deep small
  · intro q f' hq
    obtain ⟨-, rfl⟩ | ⟨-, hq'⟩ := cases' hq
    · exact own
    · exact (h.owned hq').mono less
  · exact less.trans h.suffix
  · intro f' j outside
    have before : ¬ Owned base frames m f' := fun o => outside (o.mono less)
    have ne : f' ≠ f := by
      rintro rfl
      exact before (h.owned hp)
    have ne' : f' ≠ g := by
      rintro rfl
      exact outside own
    have same : ({ m with frames := fs }.link fmt f k g).entry f' j = m.entry f' j := by
      simp [Memory.link, Memory.write, Memory.fill, ne, ne']
    rw [same]
    exact h.within f' j before

/-- A leaf of 2 MiB is written: what was there, a table too, is no longer part of the tables. -/
lemma Kept.writeHuge (h : Kept fmt top root base frames m₀ tables huge m) (hp : tables p = some f)
    (last : p.length + 1 = top) :
    Kept fmt top root base frames m₀ (Function.update tables (p ++ [k]) none)
      (fun q => huge q ∨ q = p ++ [k]) (m.write f k w) := by
  have cases' : ∀ {q f'}, Function.update tables (p ++ [k]) none q = some f' →
      q ≠ p ++ [k] ∧ tables q = some f' := by
    intro q f' hq
    by_cases e : q = p ++ [k]
    · rw [e, Function.update_self] at hq
      cases hq
    · rw [Function.update_of_ne e] at hq
      exact ⟨e, hq⟩
  refine ⟨?_, ?_, ?_, ?_, ?_, ?_, ?_, ?_, h.suffix, ?_⟩
  · rw [Function.update_of_ne (by simp), h.top_table]
  · intro q r f' hq hr
    exact h.distinct (cases' hq).2 (cases' hr).2
  · intro q f' hq
    exact h.usable (cases' hq).2
  · intro q f' hq
    exact h.depth (cases' hq).2
  · intro q j hq
    by_contra some
    obtain ⟨g, hg⟩ := Option.ne_none_iff_exists'.mp some
    obtain ⟨-, hg'⟩ := cases' hg
    by_cases e : q = p ++ [k]
    · -- no table is below level 0
      have := h.depth hg'
      rw [e] at this
      simp at this
      omega
    · rw [Function.update_of_ne e] at hq
      cases (h.parent hq).symm.trans hg'
  · rintro q (old | rfl)
    · exact h.leaf_depth old
    · simpa using last
  · intro q f' j hq deep small
    obtain ⟨-, hq'⟩ := cases' hq
    have away : q ++ [j] ≠ p ++ [k] := fun e => small (.inr e)
    have same : (m.write f k w).entry f' j = m.entry f' j := if_neg (h.entry_ne hp hq' away)
    rw [Function.update_of_ne away, same]
    exact h.entry j hq' deep fun old => small (.inl old)
  · intro q f' hq
    exact h.owned (cases' hq).2
  · intro f' j outside
    -- only a frame that was handed out for a table is written
    have other : f' ≠ f := by
      rintro rfl
      exact outside (h.owned hp)
    have same : (m.write f k w).entry f' j = m.entry f' j := if_neg fun e => other e.1
    rw [same]
    exact h.within f' j outside

/-- C `vmm_get_or_alloc` through a kernel pointer, at an entry that is empty or links a table. -/
structure StepsDown (fmt : PageFormat) (h : Hhdm)
    (down : Nat → Nat → PhysMem → Except Stop (Nat × PhysMem)) : Prop where
  eq : ∀ {l f m} (k : Fin 512), fmt.Usable f →
    (m.entry f k = fmt.zero ∨ ∃ g, fmt.Usable g ∧ m.entry f k = fmt.link g) →
    (∀ g ∈ m.frames, fmt.Usable g) →
    down (h.ptr f) k m = (getOrAlloc fmt (l + 1) f k m).map fun (g, m) => (h.ptr g, m)

/-- One step down from a table ends at a table, unless the pages run out. -/
lemma Kept.down {hh : Hhdm} {down : Nat → Nat → PhysMem → Except Stop (Nat × PhysMem)}
    (steps : StepsDown fmt hh down) (h : Kept fmt top root base frames m₀ tables huge m)
    (new : FreshFrames fmt base frames) (hp : tables p = some f) (lt : p.length < top)
    (small : ¬ huge (p ++ [k])) :
    down (hh.ptr f) k m = .error .outOfFrames ∨
    ∃ g m' tables', down (hh.ptr f) k m = .ok (hh.ptr g, m') ∧
      Kept fmt top root base frames m₀ tables' huge m' ∧ tables' (p ++ [k]) = some g := by
  have supply : ∀ g ∈ m.frames, fmt.Usable g := fun g mem => new.usable g (h.suffix.subset mem)
  obtain ⟨free, zero⟩ | ⟨g, there, link⟩ := h.entry k hp lt small
  · rw [steps.eq (l := 0) k (h.usable hp) (.inl zero) supply]
    cases hf : m.frames with
    | nil =>
      left
      simp only [getOrAlloc, zero, fmt.decode_zero, hf, Except.map]
    | cons g fs =>
      right
      refine ⟨g, _, _, ?_, h.link new hp lt free hf, Function.update_self ..⟩
      simp only [getOrAlloc, zero, fmt.decode_zero, hf, Except.map]
  · have usable := h.usable there
    rw [steps.eq (l := 0) k (h.usable hp) (.inr ⟨g, usable, link⟩) supply]
    refine .inr ⟨g, m, tables, ?_, h, there⟩
    simp only [getOrAlloc, link, fmt.decode_link 0 usable, Except.map]

end Kept

/-- The RISC-V step allocates a table where there is none. -/
lemma Riscv64.stepsDown {h : Hhdm} :
    StepsDown (format h) h fun pt offset m => vmmGetOrAlloc h pt offset vmmPresent m := by
  refine ⟨?_⟩
  intro l f m k usable entry supply
  obtain zero | ⟨g, hg, link⟩ := entry
  · refine vmmGetOrAlloc_eq usable.lt (Nat.succ_pos l) ?_ ?_ supply
    · rw [zero]
      exact .none
    · intro v
      rw [zero]
      simp [format, pteDecode_zero]
  · refine vmmGetOrAlloc_eq usable.lt (Nat.succ_pos l) ?_ ?_ supply
    · rw [link]
      exact .table (Nat.succ_pos l) hg
    · intro v
      rw [link]
      simp [format, pteDecode_table (Nat.succ_pos l) hg.lt]

/-- So does the x86 step. -/
lemma X86.stepsDown {h : Hhdm} :
    StepsDown (format h) h fun pt offset m => vmmGetOrAlloc h pt offset (vmmWrite ||| vmmUser) m := by
  refine ⟨?_⟩
  intro l f m k usable entry supply
  obtain zero | ⟨g, hg, link⟩ := entry
  · refine vmmGetOrAlloc_eq usable.lt' (Nat.succ_pos l) ?_ ?_ supply
    · rw [zero]
      exact .none
    · intro v
      rw [zero]
      simp [format, pteDecode_zero]
  · refine vmmGetOrAlloc_eq usable.lt' (Nat.succ_pos l) ?_ ?_ supply
    · rw [link]
      exact .table (Nat.succ_pos l) hg
    · intro v
      rw [link]
      simp [format, pteDecode_table (Nat.succ_pos l) hg.lt]

/-- One round of a loop over pages puts a word into a table at level 0, or at level 1 for a leaf of 2 MiB. -/
def KeepsRounds (fmt : PageFormat) (top root : Nat) (large : Bool)
    (loop : Nat → Nat → Nat → PhysMem → Except Stop (Bool × PhysMem)) : Prop :=
  ∀ {base frames m₀ tables huge m} (n addr phys : Nat),
    Kept fmt top root base frames m₀ tables huge m → FreshFrames fmt base frames →
    (large = false → ¬ huge (pathFrom 1 top addr)) →
    loop (n + 1) addr phys m = .error .outOfFrames ∨
    ∃ m' tables', loop (n + 1) addr phys m =
        loop n ((addr + span (if large then 1 else 0)) % 2 ^ 64)
          ((phys + span (if large then 1 else 0)) % 2 ^ 64) m' ∧
      Kept fmt top root base frames m₀ tables' (fun q => huge q ∨ (large = true ∧ q = pathFrom 1 top addr))
        m'

section Loops
variable {fmt : PageFormat} {top root : Nat} {base : Nat → Prop} {frames : List Nat} {m₀ m : PhysMem}
  {tables : List (Fin 512) → Option Nat} {huge : List (Fin 512) → Prop} {f addr phys permissions n : Nat}

/-- The same leaves under another name. -/
lemma Kept.leaves {huge' : List (Fin 512) → Prop} (h : Kept fmt top root base frames m₀ tables huge m)
    (same : ∀ q, huge' q ↔ huge q) : Kept fmt top root base frames m₀ tables huge' m := by
  have e : huge' = huge := funext fun q => propext (same q)
  rwa [e]

/-- Upper levels have no leaves. -/
lemma Kept.upper (h : Kept fmt top root base frames m₀ tables huge m) {q : List (Fin 512)}
    (short : q.length < top) : ¬ huge q := by
  intro leaf
  rw [h.leaf_depth leaf] at short
  exact Nat.lt_irrefl _ short

/-- The loop of `vmm_map_advanced` ends at a table of level 1, unless the pages run out. -/
lemma Riscv64.allocTables_kept {h : Hhdm} {i : Nat} {q : List (Fin 512)}
    (kept : Kept (format h) top root base frames m₀ tables huge m)
    (new : FreshFrames (format h) base frames) (va : Nat) (hq : tables q = some f)
    (hl : q.length + (i + 1) = top) (hi : i ≤ 3) :
    allocTables h (getAddrOffsets va) (i + 1) (h.ptr f) m = .error .outOfFrames ∨
    ∃ g m' tables', allocTables h (getAddrOffsets va) (i + 1) (h.ptr f) m = .ok (some (h.ptr g), m') ∧
      Kept (format h) top root base frames m₀ tables' huge m' ∧
      tables' (q ++ pathFrom 2 i va) = some g := by
  induction i generalizing q f m tables with
  | zero => exact .inr ⟨f, m, tables, rfl, kept, by rwa [pathFrom, List.append_nil]⟩
  | succ i ih =>
    have offset : (getAddrOffsets va).getD (i + 2) 0 = vpn (2 + i) va := by
      rw [getAddrOffsets_getD (by omega), Nat.add_comm]
    have small : ¬ huge (q ++ [vpn (2 + i) va]) := kept.upper (by simp; omega)
    obtain stuck | ⟨g, m₁, tables₁, e, kept₁, hg⟩ := kept.down Riscv64.stepsDown new hq (by omega) small
    · left
      simp only [allocTables, offset, stuck, bind, Except.bind]
    · have nonnull : h.ptr g ≠ 0 := (kept₁.usable hg).ptr_ne_zero
      have next : allocTables h (getAddrOffsets va) (i + 1 + 1) (h.ptr f) m =
          allocTables h (getAddrOffsets va) (i + 1) (h.ptr g) m₁ := by
        simp only [allocTables, offset, e, bind, Except.bind, if_neg nonnull]
      rw [next, pathFrom, List.append_cons]
      exact ih kept₁ hg (by simp; omega) (by omega)

/-- One round of `vmm_map_advanced` on riscv64. -/
lemma Riscv64.keepsRounds {c : Paging} {large : Bool} :
    KeepsRounds (format c.hhdm) c.top root large
      (vmmMapAdvanced c (0x1000 * root) permissions large) := by
  intro base frames m₀ tables huge m n addr phys kept new clear
  obtain ⟨i, hi, -, hi'⟩ := c.exists_top
  have nonnull : (0x1000 * root + c.hhdm.memPhysOffset) % 2 ^ 64 ≠ 0 :=
    (kept.usable kept.top_table).ptr_ne_zero
  have path : pathFrom 1 c.top addr = pathFrom 2 i addr ++ [vpn 1 addr] := by
    rw [hi, pathFrom_concat]
  have walk := allocTables_kept kept new addr kept.top_table (by simpa using hi.symm) hi'
  rw [Hhdm.ptr, List.nil_append, ← show c.maxLevel - 1 = i + 1 from hi] at walk
  obtain stuck | ⟨g, m₁, tables₁, e, kept₁, hg⟩ := walk
  · left
    simp only [vmmMapAdvanced, if_neg nonnull, stuck, bind, Except.bind]
  · have page := kept₁.usable hg
    cases large with
    | true =>
      refine .inr ⟨m₁.write g (vpn 1 addr) (leafEntry phys permissions), _, ?_,
        (kept₁.writeHuge hg (by simpa using hi.symm)).leaves (by simp [path])⟩
      simp only [vmmMapAdvanced, if_neg nonnull, e, bind, Except.bind, if_true,
        getAddrOffsets_getD (show 1 ≤ 4 by decide), Hhdm.store_ptr page.lt]
      rfl
    | false =>
      have small := clear rfl
      rw [path] at small
      obtain stuck | ⟨g', m₂, tables₂, e', kept₂, hg'⟩ :=
        kept₁.down Riscv64.stepsDown new hg (by simp; omega) small
      · left
        simp only [vmmMapAdvanced, if_neg nonnull, e, bind, Except.bind, stuck,
          getAddrOffsets_getD (show 1 ≤ 4 by decide), Bool.false_eq_true, if_false]
      · refine .inr ⟨m₂.write g' (vpn 0 addr) (leafEntry phys permissions), tables₂, ?_, ?_⟩
        · simp only [vmmMapAdvanced, if_neg nonnull, e, bind, Except.bind, e', Bool.false_eq_true,
            if_false, getAddrOffsets_getD (show 1 ≤ 4 by decide), getAddrOffsets_getD (show 0 ≤ 4 by decide),
            if_neg page.ptr_ne_zero, Hhdm.store_ptr (kept₂.usable hg').lt]
          rfl
        · exact (kept₂.write hg' (by simp; omega)).leaves (by simp)

/-- One round of `vmm_map_advanced` on x86_64. -/
lemma X86.keepsRounds {h : Hhdm} {large : Bool} :
    KeepsRounds (format h) 3 root large (vmmMapAdvanced h (0x1000 * root) permissions large) := by
  intro base frames m₀ tables huge m n addr phys kept new clear
  have nonnull : (0x1000 * root + h.memPhysOffset) % 2 ^ 64 ≠ 0 :=
    (kept.usable kept.top_table).apart.ptr_ne_zero
  have path : pathFrom 1 3 addr = [] ++ [vpn 3 addr] ++ [vpn 2 addr] ++ [vpn 1 addr] := rfl
  obtain stuck | ⟨pdp, m₁, tables₁, e₁, kept₁, h₁⟩ := kept.down (k := vpn 3 addr) X86.stepsDown new
    kept.top_table (by simp) (kept.upper (by simp))
  · left
    rw [Hhdm.ptr] at stuck
    simp only [vmmMapAdvanced, if_neg nonnull, pml4Off_eq, stuck, bind, Except.bind]
  · rw [Hhdm.ptr] at e₁
    have nonnull₁ := (kept₁.usable h₁).apart.ptr_ne_zero
    obtain stuck | ⟨pd, m₂, tables₂, e₂, kept₂, h₂⟩ := kept₁.down (k := vpn 2 addr) X86.stepsDown new
      h₁ (by simp) (kept₁.upper (by simp))
    · left
      simp only [vmmMapAdvanced, if_neg nonnull, pml4Off_eq, pdpOff_eq, e₁, if_neg nonnull₁, stuck, bind,
        Except.bind]
    · have page₂ := kept₂.usable h₂
      have nonnull₂ := page₂.apart.ptr_ne_zero
      cases large with
      | true =>
        refine .inr ⟨m₂.write pd (vpn 1 addr) (leafEntry true phys permissions), _, ?_,
          (kept₂.writeHuge h₂ (by simp)).leaves (by simp [path])⟩
        simp only [vmmMapAdvanced, if_neg nonnull, pml4Off_eq, pdpOff_eq, pdOff_eq, e₁, if_neg nonnull₁,
          e₂, if_neg nonnull₂, bind, Except.bind, if_true, Hhdm.store_ptr page₂.lt']
        rfl
      | false =>
        obtain stuck | ⟨pt, m₃, tables₃, e₃, kept₃, h₃⟩ :=
          kept₂.down (k := vpn 1 addr) X86.stepsDown new h₂ (by simp) (clear rfl)
        · left
          simp only [vmmMapAdvanced, if_neg nonnull, pml4Off_eq, pdpOff_eq, pdOff_eq, e₁, if_neg nonnull₁,
            e₂, if_neg nonnull₂, stuck, bind, Except.bind, Bool.false_eq_true, if_false]
        · have page₃ := kept₃.usable h₃
          refine .inr ⟨m₃.write pt (vpn 0 addr) (leafEntry false phys permissions), tables₃, ?_,
            (kept₃.write h₃ (by simp)).leaves (by simp)⟩
          simp only [vmmMapAdvanced, if_neg nonnull, pml4Off_eq, pdpOff_eq, pdOff_eq, ptOff_eq, e₁,
            if_neg nonnull₁, e₂, if_neg nonnull₂, e₃, if_neg page₃.apart.ptr_ne_zero, bind, Except.bind,
            Bool.false_eq_true, if_false, Hhdm.store_ptr page₃.lt']
          rfl

/-- What a loop over pages leaves, if it returns. -/
lemma KeepsRounds.loop {large : Bool} {loop : Nat → Nat → Nat → PhysMem → Except Stop (Bool × PhysMem)}
    (rounds : KeepsRounds fmt top root large loop) (done : ∀ a p m, loop 0 a p m = .ok (true, m))
    (hl : top + 1 ∈ [3, 4, 5]) (h : Kept fmt top root base frames m₀ tables huge m)
    (new : FreshFrames fmt base frames)
    (clear : large = false → ∀ i < n, ¬ huge (pathFrom 1 top (addr + i * span 0))) {b : Bool}
    {m' : PhysMem} (e : loop n addr phys m = .ok (b, m')) :
    ∃ tables', Kept fmt top root base frames m₀ tables'
      (fun q => huge q ∨ (large = true ∧ ∃ j < n, q = pathFrom 1 top (addr + j * span 1))) m' := by
  induction n generalizing addr phys m tables huge with
  | zero =>
    rw [done] at e
    cases e
    exact ⟨tables, h.leaves (by simp)⟩
  | succ n ih =>
    have levels : 1 + top ≤ 5 := by
      simp only [List.mem_cons, List.not_mem_nil, or_false] at hl
      omega
    have first : large = false → ¬ huge (pathFrom 1 top addr) := by
      intro small
      simpa using clear small 0 (Nat.succ_pos n)
    obtain stuck | ⟨m₁, tables₁, e₁, kept₁⟩ := rounds n addr phys h new first
    · cases e.symm.trans stuck
    · rw [e₁] at e
      -- the loop adds to the address modulo 2 ^ 64, which the walk does not notice
      have shift : ∀ lo i, pathFrom 1 top ((addr + span lo) % 2 ^ 64 + i * span lo) =
          pathFrom 1 top (addr + (i + 1) * span lo) := by
        intro lo i
        rw [pathFrom_wrap _ _ _ _ levels]
        congr 1
        ring
      obtain ⟨tables₂, kept₂⟩ := ih kept₁ (by
        rintro rfl i hi (old | ⟨no, -⟩)
        · rw [if_neg Bool.false_ne_true, shift] at old
          exact clear rfl (i + 1) (by omega) old
        · cases no) e
      refine ⟨tables₂, kept₂.leaves ?_⟩
      intro q
      cases large with
      | false => simp
      | true =>
        simp only [if_true, shift, true_and]
        constructor
        · rintro (old | ⟨j, hj, rfl⟩)
          · exact .inl (.inl old)
          · cases j with
            | zero => exact .inl (.inr (by simp))
            | succ j => exact .inr ⟨j, by omega, rfl⟩
        · rintro ((old | rfl) | ⟨j, hj, rfl⟩)
          · exact .inl old
          · exact .inr ⟨0, Nat.succ_pos n, by simp⟩
          · exact .inr ⟨j + 1, by omega, rfl⟩

end Loops

namespace Arch

/-- A call of `vmm_map` or `vmm_map_huge` on the table in page `root`. -/
def exec : Arch → Nat → MapCall → PhysMem → Except Stop (Bool × PhysMem)
  | riscv64 c => Riscv64.exec c
  | x86 h => X86.exec h

/-- What a call leaves, if it returns. -/
lemma exec_kept {a : Arch} {root : Nat} {base : Nat → Prop} {m m' : PhysMem} {call : MapCall} {b : Bool}
    {tables : List (Fin 512) → Option Nat} {huge : List (Fin 512) → Prop}
    (kept : Kept a.format a.top root base call.frames m tables huge { m with frames := call.frames })
    (new : FreshFrames a.format base call.frames)
    (clear : call.huge = false → ∀ i < call.size, ¬ huge (pathFrom 1 a.top (call.addr + i * span 0)))
    (e : a.exec root call m = .ok (b, m')) :
    ∃ tables', Kept a.format a.top root base call.frames m tables'
      (fun q => huge q ∨
        (call.huge = true ∧ ∃ j < call.size, q = pathFrom 1 a.top (call.addr + j * span 1))) m' := by
  cases a with
  | riscv64 c =>
    rw [exec, Riscv64.exec_loop] at e
    exact Riscv64.keepsRounds.loop (fun _ _ _ => rfl) c.top_mem kept new clear e
  | x86 h =>
    rw [exec, X86.exec_loop] at e
    exact X86.keepsRounds.loop (fun _ _ _ => rfl) (by decide) kept new clear e

end Arch

/-- The pages that a call took from `pmm_alloc`. -/
def MapCall.taken (call : MapCall) (m : PhysMem) : List Nat := call.frames.filter (· ∉ m.frames)

/-- The address lies in a block of 2 MiB that a call of `vmm_map_huge` maps. -/
def MapCall.MapsBlock (top : Nat) (call : MapCall) (va : Nat) : Prop :=
  call.huge = true ∧ ∃ j < call.size, pathFrom 1 top va = pathFrom 1 top (call.addr + j * span 1)

/-- A later call of `vmm_map` has no page in a block of 2 MiB that the earlier call maps. -/
def MapCall.Clear (top : Nat) (earlier later : MapCall) : Prop :=
  later.huge = false → ∀ i < later.size, ¬ earlier.MapsBlock top (later.addr + i * span 0)

/-- The calls of `vmm_map` and `vmm_map_huge` on a table from a zeroed root on, the pages that are the
table's own after them, and the memory. The ranges and permissions are arbitrary; `pmm_alloc` returns pages
that can be tables and that are not in use. -/
inductive Built (a : Arch) (root : Nat) : List MapCall → List Nat → PhysMem → Prop where
  | zeroed {m} : a.format.Usable root → (∀ k, m.entry root k = 0) → Built a root [] [root] m
  | call {calls own m m' b} {call : MapCall} : Built a root calls own m →
      FreshFrames a.format (· ∈ own) call.frames → a.exec root call m = .ok (b, m') →
      Built a root (calls ++ [call]) (own ++ call.taken m') m'

/-- What is expected of a call after `calls`: it writes to the table's own pages only, and a page of 4 KiB
in a block that was mapped before translates to the page that was asked for. -/
structure Confined (a : Arch) (root : Nat) (calls : List MapCall) (own : List Nat) (call : MapCall)
    (m m' : PhysMem) : Prop where
  writes : ∀ f k, m'.entry f k ≠ m.entry f k → f ∈ own ++ call.taken m'
  remaps : call.huge = false → ∀ i < call.size,
    (∃ earlier ∈ calls, earlier.MapsBlock a.top (call.addr + i * span 0)) →
    (a.walk root m' (call.addr + i * span 0)).map Prod.fst = some (call.phys + i * span 0)

section Runs
variable {a : Arch} {fmt : PageFormat} {top root : Nat} {calls : List MapCall} {own : List Nat}
  {call : MapCall} {m m₀ m' : PhysMem} {tables : List (Fin 512) → Option Nat}
  {huge : List (Fin 512) → Prop} {b : Bool}

/-- An owned frame is an own one or was taken by the call. -/
lemma mem_taken {f : Nat} (h : Owned (· ∈ own) call.frames m' f) : f ∈ own ++ call.taken m' := by
  rcases h with old | ⟨mem, gone⟩
  · exact List.mem_append_left _ old
  · exact List.mem_append_right _ (List.mem_filter.mpr ⟨mem, by simpa using gone⟩)

/-- A zeroed root is the only table. -/
lemma Kept.zeroed (usable : fmt.Usable root) (zero : ∀ k, m.entry root k = fmt.zero) :
    Kept fmt top root (· ∈ [root]) [] m (Function.update (fun _ => none) [] (some root)) (fun _ => False)
      { m with frames := [] } := by
  have only : ∀ {p : List (Fin 512)} {f}, Function.update (fun _ => none) [] (some root) p = some f →
      p = [] ∧ f = root := by
    intro p f hp
    by_cases e : p = []
    · rw [e, Function.update_self, Option.some.injEq] at hp
      exact ⟨e, hp.symm⟩
    · rw [Function.update_of_ne e] at hp
      cases hp
  refine ⟨Function.update_self .., ?_, ?_, ?_, ?_, fun no => no.elim, ?_, ?_, List.suffix_refl _,
    fun _ _ _ => rfl⟩
  · intro p q f hp hq
    rw [(only hp).1, (only hq).1]
  · intro p f hp
    rwa [(only hp).2]
  · intro p f hp
    simp [(only hp).1]
  · intro p k _
    exact Function.update_of_ne (by simp) ..
  · intro p f k hp _ _
    left
    rw [(only hp).2]
    exact ⟨Function.update_of_ne (by simp) .., zero k⟩
  · intro p f hp
    exact .inl (by simp [(only hp).2])

/-- A call starts with the tables that the last one left. -/
lemma Kept.start {base : Nat → Prop} (frames : List Nat)
    (h : Kept fmt top root base [] m₀ tables huge { m with frames := [] }) :
    Kept fmt top root base frames m tables huge { m with frames := frames } where
  top_table := h.top_table
  distinct := h.distinct
  usable := h.usable
  depth := h.depth
  parent := h.parent
  leaf_depth := h.leaf_depth
  entry := h.entry
  owned hp := by
    rcases h.owned hp with old | ⟨mem, -⟩
    · exact .inl old
    · cases mem
  suffix := List.suffix_refl _
  within _ _ _ := rfl

/-- After a call, the pages that it took are the table's own. -/
lemma Kept.finish (h : Kept fmt top root (· ∈ own) call.frames m tables huge m') :
    Kept fmt top root (· ∈ own ++ call.taken m') [] m' tables huge { m' with frames := [] } where
  top_table := h.top_table
  distinct := h.distinct
  usable := h.usable
  depth := h.depth
  parent := h.parent
  leaf_depth := h.leaf_depth
  entry := h.entry
  owned hp := .inl (mem_taken (h.owned hp))
  suffix := List.suffix_refl _
  within _ _ _ := rfl

/-- The blocks of 2 MiB that the calls map, by the indices of their addresses. -/
def Blocks (top : Nat) (calls : List MapCall) (q : List (Fin 512)) : Prop :=
  ∃ call ∈ calls, call.huge = true ∧ ∃ j < call.size, q = pathFrom 1 top (call.addr + j * span 1)

/-- Calls that are clear of each other block no page. -/
lemma not_blocks (clear : ∀ earlier ∈ calls, earlier.Clear top call) (small : call.huge = false)
    {i : Nat} (hi : i < call.size) : ¬ Blocks top calls (pathFrom 1 top (call.addr + i * span 0)) := by
  rintro ⟨earlier, mem, large, block⟩
  exact clear earlier mem small i hi ⟨large, block⟩

/-- One call after others that were clear of each other. -/
lemma Arch.exec_blocks
    (kept : Kept a.format a.top root (· ∈ own) [] m₀ tables (Blocks a.top calls) { m with frames := [] })
    (new : FreshFrames a.format (· ∈ own) call.frames) (clear : ∀ earlier ∈ calls, earlier.Clear a.top call)
    (e : a.exec root call m = .ok (b, m')) :
    ∃ tables', Kept a.format a.top root (· ∈ own) call.frames m tables' (Blocks a.top (calls ++ [call]))
      m' := by
  obtain ⟨tables', kept'⟩ := Arch.exec_kept (kept.start call.frames) new
    (fun small i hi => not_blocks clear small hi) e
  refine ⟨tables', kept'.leaves ?_⟩
  intro q
  simp [Blocks, or_and_right, exists_or]

/-- The tables after any calls that are clear of each other. -/
lemma Built.kept (built : Built a root calls own m) (clear : calls.Pairwise (MapCall.Clear a.top)) :
    ∃ m₀ tables, Kept a.format a.top root (· ∈ own) [] m₀ tables (Blocks a.top calls)
      { m with frames := [] } := by
  induction built with
  | @zeroed m usable zero =>
    have start : ∀ k, m.entry root k = a.format.zero := by
      cases a with
      | riscv64 c => exact zero
      | x86 h => exact zero
    exact ⟨m, _, (Kept.zeroed usable start).leaves (by simp [Blocks])⟩
  | call _ new e ih =>
    obtain ⟨before, -, last⟩ := List.pairwise_append.mp clear
    obtain ⟨m₀, tables, kept⟩ := ih before
    obtain ⟨tables', kept'⟩ := Arch.exec_blocks kept new (fun earlier mem => last earlier mem _ (by simp)) e
    exact ⟨_, tables', kept'.finish⟩

/-- Any calls of `vmm_map` and `vmm_map_huge` on a table from a zeroed root, in which no page of 4 KiB lies in
a block of 2 MiB that an earlier call mapped: each call writes to the root and the pages that the calls have
from `pmm_alloc` only. -/
theorem vmmMap_confined (built : Built a root calls own m)
    (new : FreshFrames a.format (· ∈ own) call.frames) (e : a.exec root call m = .ok (b, m'))
    (clear : (calls ++ [call]).Pairwise (MapCall.Clear a.top)) : Confined a root calls own call m m' := by
  obtain ⟨before, -, last⟩ := List.pairwise_append.mp clear
  have apart : ∀ earlier ∈ calls, earlier.Clear a.top call := by
    intro earlier mem
    exact last earlier mem call (by simp)
  obtain ⟨m₀, tables, kept⟩ := built.kept before
  obtain ⟨tables', kept'⟩ := Arch.exec_blocks kept new apart e
  refine ⟨?_, ?_⟩
  · intro f k changed
    by_contra outside
    exact changed (kept'.within f k fun owned => outside (mem_taken owned))
  · rintro small i hi ⟨earlier, mem, block⟩
    exact absurd block (apart earlier mem small i hi)

end Runs

section Samples
open Riscv64 (sv48 zeroedMem)

/-- Maps a page of 4 KiB at `addr` to 0x10000. -/
def mapPage (addr : Nat) : MapCall := ⟨false, addr, 0x10000, 1, 6, [4]⟩

/-- Low pages can be tables of both architectures. -/
lemma sv48_usable {f : Nat} (h : f ∈ [1, 2, 3, 4]) : sv48.hhdm.TablePage f ∧ X86.TablePage sv48.hhdm f := by
  simp only [List.mem_cons, List.not_mem_nil, or_false] at h
  have page : sv48.hhdm.TablePage f := by
    rcases h with rfl | rfl | rfl | rfl <;> exact ⟨by decide, by decide, by decide⟩
  exact ⟨page, page, by omega⟩

section
variable {a : Arch} (usable : ∀ f ∈ [1, 2, 3, 4], a.format.Usable f)
include usable

/-- A block of 2 MiB is mapped with the pages 2 and 3 as tables. -/
lemma mapBlock_built {m : PhysMem} (e : a.exec 1 mapBlock zeroedMem = .ok (true, m)) (none : m.frames = []) :
    Built a 1 [mapBlock] [1, 2, 3] m := by
  have block : FreshFrames a.format (· ∈ [1]) mapBlock.frames :=
    ⟨by decide, fun f h => usable f (by revert f; decide), by decide⟩
  have built := Built.call (.zeroed (usable 1 (by decide)) fun _ => rfl) block e
  simpa [MapCall.taken, none, mapBlock] using built

/-- The frames of the call are fresh. -/
lemma mapPage_fresh (addr : Nat) : FreshFrames a.format (· ∈ [1, 2, 3]) (mapPage addr).frames := by
  show FreshFrames a.format (· ∈ [1, 2, 3]) [4]
  exact ⟨by decide, fun f h => usable f (by revert f; decide), by decide⟩

end

/-- The page at 0x4000 is mapped beside a block of 2 MiB. -/
theorem vmmMap_confined_beside : ∃ m m', Built (.riscv64 sv48) 1 [mapBlock] [1, 2, 3] m ∧
    (Arch.riscv64 sv48).exec 1 (mapPage 0x4000) m = .ok (true, m') ∧ m'.entry 4 4 ≠ m.entry 4 4 ∧
    Confined (.riscv64 sv48) 1 [mapBlock] [1, 2, 3] (mapPage 0x4000) m m' := by
  have usable : ∀ f ∈ [1, 2, 3, 4], (Arch.riscv64 sv48).format.Usable f := fun f h => (sv48_usable h).1
  have built := mapBlock_built usable rfl rfl
  refine ⟨_, _, built, rfl, by decide,
    vmmMap_confined (b := true) built (mapPage_fresh usable 0x4000) rfl ?_⟩
  simp [MapCall.Clear, MapCall.MapsBlock, mapPage, mapBlock]
  decide

/-- A page in a block of 2 MiB is written into the memory that the block maps, and translates as before. -/
def WritesInside (a : Arch) : Prop :=
  ∃ m m', Built a 1 [mapBlock] [1, 2, 3] m ∧
    FreshFrames a.format (· ∈ [1, 2, 3]) (mapPage 0x200000).frames ∧
    a.exec 1 (mapPage 0x200000) m = .ok (true, m') ∧ m'.entry 512 0 ≠ m.entry 512 0 ∧
    (a.walk 1 m' 0x200000).map Prod.fst = some 0x200000 ∧
    ¬ Confined a 1 [mapBlock] [1, 2, 3] (mapPage 0x200000) m m'

/-- On both architectures the second call writes outside the tables. -/
theorem vmmMap_inside_not_confined : WritesInside (.riscv64 sv48) ∧ WritesInside (.x86 sv48.hhdm) := by
  have apart : ∀ {a : Arch} {m m' : PhysMem}, m'.entry 512 0 ≠ m.entry 512 0 →
      ¬ Confined a 1 [mapBlock] [1, 2, 3] (mapPage 0x200000) m m' := by
    intro a m m' changed confined
    have mem := confined.writes 512 0 changed
    rw [List.mem_append, MapCall.taken, List.mem_filter] at mem
    revert mem
    simp [mapPage]
  constructor
  · have usable : ∀ f ∈ [1, 2, 3, 4], (Arch.riscv64 sv48).format.Usable f := fun f h => (sv48_usable h).1
    exact ⟨_, _, mapBlock_built usable rfl rfl, mapPage_fresh usable _, rfl, by decide, by decide,
      apart (by decide)⟩
  · have usable : ∀ f ∈ [1, 2, 3, 4], (Arch.x86 sv48.hhdm).format.Usable f := fun f h => (sv48_usable h).2
    exact ⟨_, _, mapBlock_built usable rfl rfl, mapPage_fresh usable _, rfl, by decide, by decide,
      apart (by decide)⟩

end Samples

end WivOS.Vmm
