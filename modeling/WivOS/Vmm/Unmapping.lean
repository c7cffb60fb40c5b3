import WivOS.Vmm.Riscv64Map
import WivOS.Vmm.X86

/-!
# `vmm_unmap` on both architectures

When `vmm_unmap` does what its callers take it to do. A range of mapped pages is unmapped, and `true`
returned, if and only if no leaf of 2 MiB meets it: the count of pages loses 0x201 to each such leaf. A
call that returns `false` has left every translation as it was if and only if it stopped before the
first mapped page.
-/

namespace WivOS.Vmm
open WivOS.Lib WivOS.Lib.Radix

/-- The two implementations of the page tables. -/
inductive Arch where
  | riscv64 (c : Riscv64.Paging)
  | x86 (h : Hhdm)

namespace Arch

/-- The format of an architecture's entries. -/
def format : Arch → PageFormat
  | riscv64 c => Riscv64.format c.hhdm
  | x86 h => X86.format h

/-- The level of the root table. -/
def top : Arch → Nat
  | riscv64 c => c.top
  | x86 _ => 3

/-- The hardware's walk. -/
def walk (a : Arch) (root : Nat) (m : PhysMem) (va : Nat) : Option (Nat × Nat) :=
  translate a.format (a.top + 1) root m va

/-- C `vmm_unmap`. -/
def vmmUnmap : Arch → Nat → Nat → Nat → Nat → PhysMem → Option (Except Stop (Bool × PhysMem))
  | riscv64 c => Riscv64.vmmUnmap c
  | x86 h => X86.vmmUnmap h

/-- The page tables that the functions build from a zeroed root. -/
def Reachable : Arch → Nat → PhysMem → Prop
  | riscv64 c => Riscv64.Reachable c
  | x86 h => X86.Reachable h

variable {a : Arch} {root fuel addr n : Nat} {m : PhysMem}

/-- There are 3, 4 or 5 levels. -/
lemma top_mem : a.top + 1 ∈ [3, 4, 5] := by
  cases a with
  | riscv64 c => exact c.top_mem
  | x86 _ => exact List.mem_of_elem_eq_true rfl

/-- A reachable memory is a tree. -/
lemma Reachable.tree (h : a.Reachable root m) : Tree a.format a.top root m := by
  cases a with
  | riscv64 c => exact (Riscv64.Reachable.tree h).2
  | x86 _ => exact (X86.Reachable.tree h).2

/-- Both implementations are the one loop on radix tables. -/
lemma Reachable.vmmUnmap_eq (h : a.Reachable root m) :
    a.vmmUnmap (0x1000 * root) fuel addr n m = unmapRange a.format a.top root fuel addr n m := by
  cases a with
  | riscv64 c =>
    obtain ⟨hr, hT⟩ := Riscv64.Reachable.tree h
    exact Riscv64.vmmUnmap_eq hT hr
  | x86 _ =>
    obtain ⟨hr, hT⟩ := X86.Reachable.tree h
    exact X86.vmmUnmap_eq hT hr

/-- `vmm_unmap` returns `true`, removes the translations of the range and no other. -/
def Unmaps (a : Arch) (root addr n : Nat) (m : PhysMem) : Prop :=
  ∃ fuel m', a.vmmUnmap (0x1000 * root) fuel addr n m = some (.ok (true, m')) ∧
    (∀ va, InPages addr n va → a.walk root m' va = none) ∧
    ∀ va, ¬ InPages addr n va → a.walk root m' va = a.walk root m va

/-- A reachable memory is unmapped exactly if no page is huge. -/
lemma Reachable.unmaps_iff (h : a.Reachable root m) (ha : 0x1000 ∣ addr) (hn : n < 2 ^ 64)
    (mapped : ∀ va, InPages addr n va → a.walk root m va ≠ none)
    (inside : HugeInside a.format a.top root m addr n) :
    a.Unmaps root addr n m ↔ ∀ va, InPages addr n va → ¬ HugeAt a.format a.top root m va := by
  unfold Arch.Unmaps
  simp only [h.vmmUnmap_eq]
  exact unmapRange_true_iff Arch.top_mem h.tree ha hn mapped inside

end Arch

/-- In every reachable table: a range of mapped pages with no leaf of 2 MiB across its ends is unmapped
if and only if there is no such leaf in it; and a call that returns `false` has changed nothing if and
only if it stopped before the first mapped page. -/
theorem vmmUnmap_correct_iff {a : Arch} {root addr n : Nat} {m : PhysMem} (h : a.Reachable root m)
    (ha : 0x1000 ∣ addr) (hn : n < 2 ^ 64) :
    ((∀ va, InPages addr n va → a.walk root m va ≠ none) →
      HugeInside a.format a.top root m addr n →
      (a.Unmaps root addr n m ↔ ∀ va, InPages addr n va → ¬ HugeAt a.format a.top root m va)) ∧
    ∀ fuel m', a.vmmUnmap (0x1000 * root) fuel addr n m = some (.ok (false, m')) →
      ((∀ va, a.walk root m' va = a.walk root m va) ↔ StopsFirst a.format a.top root m addr n) := by
  refine ⟨h.unmaps_iff ha hn, ?_⟩
  intro fuel m' e
  rw [h.vmmUnmap_eq] at e
  exact unmapRange_false_iff Arch.top_mem h.tree e

section Samples
open Riscv64

/-- Maps one leaf of 2 MiB at 0x200000. -/
def mapBlock : MapCall := ⟨true, 0x200000, 0x200000, 1, 6, [2, 3]⟩

/-- The block can be mapped in the zeroed space. -/
lemma mapBlock_valid : Valid sv48 1 mapBlock zeroedMem where
  aligned := by norm_num [mapBlock, MapCall.level, span]
  aligned_phys := by norm_num [mapBlock, MapCall.level, span]
  canonical := by
    left
    norm_num [mapBlock, MapCall.length, MapCall.level, span, sv48, Paging.boot, Paging.top,
      archVmmPreinit]
  apart := by
    apply sv48_apart
    · norm_num [mapBlock, MapCall.length, MapCall.level, span]
    · norm_num [mapBlock]
  flags := by decide
  permitted := by decide
  clear := by
    intro hh
    cases hh
  supply :=
    { nodup := by decide
      usable := by
        intro f hf
        simp only [mapBlock, List.mem_cons, List.not_mem_nil, or_false] at hf
        rcases hf with rfl | rfl <;> exact ⟨by decide, by decide, by decide⟩
      fresh := by
        intro f hf p hp
        obtain ⟨_, rfl⟩ := tableAt_zeroed (fun _ => rfl) hp
        simp [mapBlock] at hf }

/-- The zeroed space is reachable. -/
lemma zeroedMem_reachable : Riscv64.Reachable sv48 1 zeroedMem :=
  .zeroed ⟨by decide, by decide, by decide⟩ fun _ => rfl

/-- Two pages of 4 KiB are unmapped. -/
theorem vmmUnmap_correct_iff_twoPages :
    ∃ m, (Arch.riscv64 sv48).Reachable 1 m ∧ (Arch.riscv64 sv48).walk 1 m 0x5008 = some (0x11008, 7) ∧
      (Arch.riscv64 sv48).Unmaps 1 0x4000 2 m := by
  have valid : Valid sv48 1 (mapPages 2 6) zeroedMem :=
    ⟨mapPages_placed (by decide) (by decide), by decide⟩
  obtain ⟨hr, hT⟩ := zeroedMem_reachable.tree
  obtain ⟨m, e, mapped⟩ | ⟨e, _⟩ := valid.exec_spec hT hr
  · have reach : (Arch.riscv64 sv48).Reachable 1 m := .map zeroedMem_reachable valid e
    have pages : ∀ va, InPages 0x4000 2 va → (Arch.riscv64 sv48).walk 1 m va ≠ none := by
      intro va hva
      have h := mapped.translate_inside valid.aligned valid.canonical hva.1 hva.2
      simp [Arch.walk, Arch.format, Arch.top, h]
    have small : ∀ va, InPages 0x4000 2 va →
        ¬ HugeAt (Arch.riscv64 sv48).format (Arch.riscv64 sv48).top 1 m va := by
      rintro va hva ⟨v, t, h⟩
      cases h.symm.trans (mapped.inside va hva.1 hva.2)
    have correct := vmmUnmap_correct_iff reach (by decide : 0x1000 ∣ 0x4000) (by decide : 2 < 2 ^ 64)
    exact ⟨m, reach, mapped.translate_inside valid.aligned valid.canonical (by decide) (by decide),
      (correct.1 pages fun va hva hh => absurd hh (small va hva)).mpr small⟩
  · cases e

/-- A range that is one leaf of 2 MiB: the count wraps, and the loop runs into a missing table. -/
theorem vmmUnmap_block_faults :
    ∃ m, (Arch.riscv64 sv48).Reachable 1 m ∧
      (∀ va, InPages 0x200000 512 va → (Arch.riscv64 sv48).walk 1 m va ≠ none) ∧
      HugeInside (Arch.riscv64 sv48).format (Arch.riscv64 sv48).top 1 m 0x200000 512 ∧
      (Arch.riscv64 sv48).vmmUnmap 0x1000 2 0x200000 512 m = some (.error .fault) ∧
      ¬ (Arch.riscv64 sv48).Unmaps 1 0x200000 512 m := by
  obtain ⟨hr, hT⟩ := zeroedMem_reachable.tree
  obtain ⟨m, e, mapped⟩ | ⟨e, _⟩ := mapBlock_valid.exec_spec hT hr
  · have reach : (Arch.riscv64 sv48).Reachable 1 m := .map zeroedMem_reachable mapBlock_valid e
    have pages : ∀ va, InPages 0x200000 512 va → (Arch.riscv64 sv48).walk 1 m va ≠ none := by
      intro va hva
      have h := mapped.translate_inside mapBlock_valid.aligned mapBlock_valid.canonical hva.1 hva.2
      simp [Arch.walk, Arch.format, Arch.top, h]
    have inside : HugeInside (Arch.riscv64 sv48).format (Arch.riscv64 sv48).top 1 m 0x200000 512 := by
      intro va hva _
      unfold InPages at hva
      norm_num [span]
      omega
    have fault : (Arch.riscv64 sv48).vmmUnmap 0x1000 2 0x200000 512 m = some (.error .fault) := by
      cases e
      rfl
    refine ⟨m, reach, pages, inside, fault, ?_⟩
    rw [reach.unmaps_iff (by decide) (by decide) pages inside]
    intro small
    exact small 0x200000 (by unfold InPages; omega)
      ⟨_, _, mapped.inside 0x200000 (by decide) (by decide)⟩
  · cases e

end Samples

end WivOS.Vmm
