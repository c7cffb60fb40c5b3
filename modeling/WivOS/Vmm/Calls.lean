import WivOS.Vmm.Unmap

/-!
# Calls of the mapping functions

`vmm_map` and `vmm_map_huge` take the same arguments on both architectures. A `MapCall` is a call with
its arguments and with the pages that `pmm_alloc` returns during it; `Placed` is what is asked of the
ranges and of these pages, whatever the format of the entries.
-/

namespace WivOS.Vmm
open WivOS.Lib WivOS.Lib.Radix

/-- A call of `vmm_map` or `vmm_map_huge`, and the pages that `pmm_alloc` returns during it. -/
structure MapCall where
  huge : Bool
  addr : Nat
  phys : Nat
  size : Nat
  permissions : Nat
  frames : List Nat

namespace MapCall

/-- The level of the leaves that a call writes. -/
def level (call : MapCall) : Nat := if call.huge then 1 else 0

/-- The bytes that a call maps. -/
def length (call : MapCall) : Nat := call.size * span call.level

/-- The address is in the range of the call. -/
def Covers (call : MapCall) (va : Nat) : Prop := call.addr ≤ va ∧ va < call.addr + call.length

/-- Ranges that a call may be given: aligned, canonical, the physical one below the direct map's bits;
pages of 4 KiB outside the leaves of 2 MiB; and `pmm_alloc` returns pages apart from the table. -/
structure Placed (fmt : PageFormat) (h : Hhdm) (top root : Nat) (call : MapCall) (m : PhysMem) :
    Prop where
  aligned : span call.level ∣ call.addr
  aligned_phys : span call.level ∣ call.phys
  canonical : CanonicalRange (top + 1) call.addr call.length
  apart : h.Apart call.phys call.length
  clear : call.huge = false → ∀ va, call.Covers va → ¬ HugeAt fmt top root m va
  supply : Supply fmt top root { m with frames := call.frames }

variable {fmt : PageFormat} {h : Hhdm} {top root flags : Nat} {call : MapCall} {m : PhysMem}
  {word : Nat → Nat}

/-- A call maps at one of the two lowest levels. -/
lemma level_lt (call : MapCall) : call.level < 2 := by
  unfold level
  split <;> decide

/-- Huge pages are at level 1. -/
lemma level_huge (hh : call.huge = true) : call.level = 1 := by
  simp [level, hh]

/-- Others are at level 0. -/
lemma level_small (hh : call.huge = false) : call.level = 0 := by
  simp [level, hh]

/-- The last byte of each page of the call is still in its range. -/
lemma page_end {i : Nat} (call : MapCall) (hi : i < call.size) :
    i * span call.level + span call.level ≤ call.length := by
  have hlen : (i + 1) * span call.level ≤ call.length := Nat.mul_le_mul_right _ hi
  rwa [Nat.add_mul, Nat.one_mul] at hlen

/-- The physical page of each leaf is aligned and below the end of the physical range. -/
lemma Placed.page (hp : call.Placed fmt h top root m) {i : Nat} (hi : i < call.size) :
    span call.level ∣ call.phys + i * span call.level ∧
      call.phys + i * span call.level + span call.level ≤ call.phys + call.length ∧
      call.phys + i * span call.level < 2 ^ 56 := by
  have pos : 0 < span call.level := span_pos
  have hend := call.page_end hi
  have := hp.apart.end_le (by omega)
  exact ⟨hp.aligned_phys.add (Dvd.intro_left _ rfl), by omega, by omega⟩

/-- The physical range stays within 64 bits. -/
lemma Placed.phys_le (hp : call.Placed fmt h top root m) :
    call.phys + call.size * span call.level ≤ 2 ^ 64 := by
  have := hp.apart.1
  by_cases h0 : call.length = 0
  · unfold length at h0
    omega
  · have := hp.apart.end_le (Nat.pos_of_ne_zero h0)
    unfold length at this
    omega

/-- The pages of a well placed call can be mapped one after the other. -/
lemma Placed.mappable (hp : call.Placed fmt h top root m) (hT : Tree fmt top root m)
    (leaf : ∀ i < call.size, fmt.decode call.level (word (call.phys + i * span call.level)) =
      .leaf (call.phys + i * span call.level, flags))
    (sane : ∀ i < call.size, fmt.Sane call.level (word (call.phys + i * span call.level))) :
    Mappable fmt top root call.level call.addr call.phys call.size flags word
      { m with frames := call.frames } := by
  refine ⟨hp.aligned, hp.canonical, leaf, sane, ?_⟩
  intro i hi
  rw [lookup_frames]
  cases hh : call.huge with
  | true =>
    rw [level_huge hh]
    exact Tree.clear_upper hT _
  | false =>
    have pos : 0 < span call.level := span_pos
    have hend := call.page_end hi
    have notHuge := hp.clear hh (call.addr + i * span call.level) ⟨Nat.le_add_right _ _, by omega⟩
    rw [level_small hh] at notHuge ⊢
    exact Tree.clear_of_not_huge hT notHuge

end MapCall

end WivOS.Vmm
