import WivOS.Vmm.Space

/-!
# Unmapping a range

The loop of `vmm_unmap`, which is the same on both architectures, on radix tables. It counts down a
64-bit number of pages; a leaf of 2 MiB takes 0x200 off a count that was decremented already, so it
costs 0x201 of it. `unmapRange_small` says what the loop does where there are no such leaves. Where
there is one, either the count ends before the range does (`exists_left`), or it runs below zero and
the loop goes on until it comes round to what it has removed, never to return `true` (`never_true`).
When it returns `false`, it has changed nothing if and only if it stopped before the first mapped page
(`unmapRange_false_iff`).
-/

namespace WivOS.Vmm
open WivOS.Lib WivOS.Lib.Radix

/-- The loop of `vmm_unmap`, for `fuel` rounds at most. -/
def unmapRange (fmt : PageFormat) (top root : Nat) :
    Nat → Nat → Nat → PhysMem → Option (Except Stop (Bool × PhysMem))
  | 0, _, _, _ => none
  | fuel + 1, addr, size, m =>
    if size = 0 then some (.ok (true, m))
    else
      match tableAt fmt m top root (pathFrom 2 (top - 1) addr) with
      | none => some (.ok (false, m))
      | some f =>
        match fmt.decode 1 (m.entry f (vpn 1 addr)) with
        | .leaf _ =>
          if size - 1 < 0x1FF then some (.ok (false, m))
          else
            unmapRange fmt top root fuel ((addr + 0x200000) % 2 ^ 64)
              ((size - 1 + 2 ^ 64 - 0x200) % 2 ^ 64) (m.write f (vpn 1 addr) fmt.zero)
        | .table g =>
          unmapRange fmt top root fuel ((addr + 0x1000) % 2 ^ 64) (size - 1)
            (m.write g (vpn 0 addr) fmt.zero)
        | .empty => some (.error .fault)

/-- A table above level 1 is missing on the way to the address. -/
def NoUpper (fmt : PageFormat) (top root : Nat) (m : PhysMem) (va : Nat) : Prop :=
  tableAt fmt m top root (pathFrom 2 (top - 1) va) = none

/-- Only the last table is missing on the way to the address. -/
structure Absent (fmt : PageFormat) (top root : Nat) (m : PhysMem) (va : Nat) : Prop where
  upper : ∃ f, tableAt fmt m top root (pathFrom 2 (top - 1) va) = some f
  table : tableAt fmt m top root (pathFrom 1 top va) = none
  leaf : lookup fmt m top root (pathFrom 1 top va) = none

/-- The last table on the way to the address is there. -/
def LastTable (fmt : PageFormat) (top root : Nat) (m : PhysMem) (va : Nat) : Prop :=
  ∃ g, tableAt fmt m top root (pathFrom 1 top va) = some g

section Rounds
variable {fmt : PageFormat} {top root addr va vb size fuel d : Nat} {m m' : PhysMem}
variable (hl : top + 1 ∈ [3, 4, 5])

/-- A path depends on 64 bits of the address. -/
lemma pathFrom_mod (lo n va : Nat) (h : lo + n ≤ 5) : pathFrom lo n (va % 2 ^ 64) = pathFrom lo n va := by
  have e : 2 ^ 64 = span lo * 2 ^ (52 - 9 * lo) := by
    rw [span, ← pow_add]
    congr 1
    omega
  have dvd : 512 ^ n ∣ 2 ^ (52 - 9 * lo) := by
    rw [show 512 = 2 ^ 9 by norm_num, ← pow_mul]
    exact pow_dvd_pow 2 (by omega)
  rw [pathFrom_eq_iff, e, Nat.mod_mul_right_div_self, Nat.mod_mod_of_dvd _ dvd]

include hl in
/-- The path to a block ends with the index of level 1. -/
lemma path_block : pathFrom 1 top va = pathFrom 2 (top - 1) va ++ [vpn 1 va] := by
  simp only [List.mem_cons, List.not_mem_nil, or_false] at hl
  obtain ⟨i, rfl⟩ : ∃ i, top = i + 1 := ⟨top - 1, by omega⟩
  rw [pathFrom_concat, Nat.add_sub_cancel]

include hl in
/-- Its entry is at level 1. -/
lemma level_one (va : Nat) : top - (pathFrom 2 (top - 1) va).length = 1 := by
  simp only [List.mem_cons, List.not_mem_nil, or_false] at hl
  rw [pathFrom_length]
  omega

/-- What the loop can find on the way to an address. -/
lemma page_cases (fmt : PageFormat) (root : Nat) (m : PhysMem) (hl : top + 1 ∈ [3, 4, 5])
    (va : Nat) :
    NoUpper fmt top root m va ∨ Absent fmt top root m va ∨ HugeAt fmt top root m va ∨
      LastTable fmt top root m va := by
  cases hu : tableAt fmt m top root (pathFrom 2 (top - 1) va) with
  | none => exact .inl hu
  | some f =>
    have lev := level_one hl va
    cases hd : fmt.decode 1 (m.entry f (vpn 1 va)) with
    | empty =>
      refine .inr (.inl ⟨⟨f, hu⟩, ?_, ?_⟩)
      · rw [path_block hl, tableAt_append, hu, Option.bind_some, lev, tableAt_none (by simp [hd])]
      · rw [path_block hl]
        exact lookup_concat_none hu (by rw [lev, hd]; simp)
    | leaf v =>
      refine .inr (.inr (.inl ⟨v, [vpn 0 va], ?_⟩))
      rw [pathFrom_concat, path_block hl, List.append_assoc, lookup_append, lookup_of_tableAt hu, hu,
        Option.bind_some, lev, List.singleton_append, lookup_leaf hd]
    | table g =>
      refine .inr (.inr (.inr ⟨g, ?_⟩))
      rw [path_block hl]
      exact tableAt_concat hu (by rw [lev, hd]) (by have := lev; omega)

/-- The loop reads the address through its indices only. -/
lemma unmapRange_mod (hl : top + 1 ∈ [3, 4, 5]) :
    unmapRange fmt top root fuel (addr % 2 ^ 64) size m = unmapRange fmt top root fuel addr size m := by
  have ht : 1 ≤ top ∧ top ≤ 4 := by
    simp only [List.mem_cons, List.not_mem_nil, or_false] at hl
    omega
  have index : ∀ i ≤ 4, vpn i (addr % 2 ^ 64) = vpn i addr := by
    intro i hi
    have h := pathFrom_mod i 1 addr (by omega)
    simpa [pathFrom] using h
  cases fuel with
  | zero => rfl
  | succ fuel =>
    simp only [unmapRange, pathFrom_mod 2 (top - 1) addr (by omega),
      index 0 (by omega), index 1 (by omega), Nat.mod_add_mod]

/-- A huge leaf is no table. -/
lemma HugeAt.not_lastTable (h : HugeAt fmt top root m va) : ¬ LastTable fmt top root m va := by
  rintro ⟨g, hg⟩
  obtain ⟨v, t, h⟩ := h
  rw [pathFrom_concat, lookup_append, lookup_of_tableAt hg, hg, Option.bind_some] at h
  rw [pathFrom_length, Nat.sub_self] at h
  obtain ⟨p, k, f, e, _, hi, _⟩ := lookup_some h
  omega

/-- Without an upper table nothing is mapped. -/
lemma NoUpper.lookup (hT : Tree fmt top root m) (h : NoUpper fmt top root m va)
    (hl : top + 1 ∈ [3, 4, 5]) : Radix.lookup fmt m top root (pathFrom 0 (top + 1) va) = none := by
  rw [pathFrom_concat, path_block hl, List.append_assoc, lookup_append, Tree.clear_upper hT _, h]
  rfl

/-- Nor is it without the last table. -/
lemma Absent.lookup (h : Absent fmt top root m va) :
    Radix.lookup fmt m top root (pathFrom 0 (top + 1) va) = none := by
  rw [pathFrom_concat, lookup_append, h.leaf, h.table]
  rfl

/-- The round returns false without an upper table. -/
lemma round_noUpper (h : NoUpper fmt top root m addr) :
    unmapRange fmt top root (fuel + 1) addr (size + 1) m = some (.ok (false, m)) := by
  rw [NoUpper] at h
  simp [unmapRange, h]

section
include hl

/-- It faults without the last table. -/
lemma round_absent (h : Absent fmt top root m addr) :
    unmapRange fmt top root (fuel + 1) addr (size + 1) m = some (.error .fault) := by
  obtain ⟨f, hu⟩ := h.upper
  have lev := level_one hl addr
  have ht := h.table
  have hv := h.leaf
  rw [path_block hl] at ht hv
  have hd : fmt.decode 1 (m.entry f (vpn 1 addr)) = .empty := by
    cases hd : fmt.decode 1 (m.entry f (vpn 1 addr)) with
    | empty => rfl
    | leaf v =>
      have notLeaf := not_leaf_of_clear hu hv v
      rw [lev] at notLeaf
      exact absurd hd notLeaf
    | table g =>
      rw [tableAt_concat hu (by rw [lev, hd]) (by omega)] at ht
      cases ht
  simp [unmapRange, hu, hd]

/-- A page with its last table: the entry is cleared, and the loop goes on with the next page. -/
lemma round_small (size : Nat) (hT : Tree fmt top root m) (h : LastTable fmt top root m addr) :
    ∃ m₁, Cleared fmt top root (pathFrom 1 top addr) (vpn 0 addr) m m₁ ∧ m₁.frames = m.frames ∧
      (Radix.lookup fmt m top root (pathFrom 0 (top + 1) addr) = none → m₁ = m) ∧
      ∀ fuel, unmapRange fmt top root (fuel + 1) addr (size + 1) m =
        unmapRange fmt top root fuel (addr + 0x1000) size m₁ := by
  obtain ⟨g, hg⟩ := h
  refine ⟨m.write g (vpn 0 addr) fmt.zero, hT.clear hg, rfl, ?_, ?_⟩
  · intro hv
    rw [pathFrom_concat] at hv
    have notLeaf := not_leaf_of_clear hg hv
    have hs := hT.sane (vpn 0 addr) hg
    rw [pathFrom_length, Nat.sub_self] at notLeaf hs
    refine Memory.write_entry (fmt.zero_of_sane hs ?_)
    cases hd : fmt.decode 0 (m.entry g (vpn 0 addr)) with
    | empty => rfl
    | leaf v => exact absurd hd (notLeaf v)
    | table g' => exact absurd hd fmt.not_table
  · have lev := level_one hl addr
    rw [path_block hl, tableAt_append] at hg
    obtain ⟨f, hu, hd⟩ := Option.bind_eq_some_iff.mp hg
    have hd' : fmt.decode 1 (m.entry f (vpn 1 addr)) = .table g := by
      rw [lev] at hd
      cases hk : fmt.decode 1 (m.entry f (vpn 1 addr)) with
      | table g' =>
        rw [tableAt_table hk, tableAt_nil, Option.some.injEq] at hd
        rw [hd]
      | empty => rw [tableAt_none (by simp [hk])] at hd; cases hd
      | leaf v => rw [tableAt_none (by simp [hk])] at hd; cases hd
    intro fuel
    simp only [unmapRange, hu, hd', Nat.add_sub_cancel, Nat.succ_ne_zero, if_false]
    exact unmapRange_mod hl

/-- A page in a leaf of 2 MiB: too few pages left, or the leaf is cleared and the count takes 0x201. -/
lemma round_huge (size : Nat) (hT : Tree fmt top root m) (h : HugeAt fmt top root m addr) :
    ∃ m₁, Cleared fmt top root (pathFrom 2 (top - 1) addr) (vpn 1 addr) m m₁ ∧
      Absent fmt top root m₁ addr ∧
      ∀ fuel, unmapRange fmt top root (fuel + 1) addr (size + 1) m =
        if size < 0x1FF then some (.ok (false, m))
        else unmapRange fmt top root fuel (addr + 0x200000) ((size + 2 ^ 64 - 0x200) % 2 ^ 64) m₁ := by
  have lev := level_one hl addr
  obtain ⟨f, hu⟩ : ∃ f, tableAt fmt m top root (pathFrom 2 (top - 1) addr) = some f := by
    obtain ⟨v, t, h⟩ := h
    cases hu : tableAt fmt m top root (pathFrom 2 (top - 1) addr) with
    | none => rw [NoUpper.lookup hT hu hl] at h; cases h
    | some f => exact ⟨f, rfl⟩
  obtain ⟨v, hd⟩ : ∃ v, fmt.decode 1 (m.entry f (vpn 1 addr)) = .leaf v := by
    cases hd : fmt.decode 1 (m.entry f (vpn 1 addr)) with
    | leaf v => exact ⟨v, rfl⟩
    | table g =>
      refine absurd ⟨g, ?_⟩ h.not_lastTable
      rw [path_block hl]
      exact tableAt_concat hu (by rw [lev, hd]) (by omega)
    | empty =>
      obtain ⟨v, t, h⟩ := h
      rw [pathFrom_concat, path_block hl, List.append_assoc, lookup_append, lookup_of_tableAt hu, hu,
        Option.bind_some, lev, List.singleton_append, lookup_empty hd] at h
      cases h
  have cleared := hT.clear (k := vpn 1 addr) hu
  refine ⟨_, cleared, ⟨⟨f, ?_⟩, ?_, ?_⟩, ?_⟩
  · rw [cleared.tables (not_prefix_of_length (Nat.le_refl _)), hu]
  · rw [path_block hl]
    exact cleared.below []
  · rw [path_block hl]
    exact cleared.here []
  · intro fuel
    simp only [unmapRange, hu, hd, Nat.add_sub_cancel, Nat.succ_ne_zero, if_false]
    split
    · rfl
    · exact unmapRange_mod hl

end

/-- A missing last table stays missing. -/
lemma Absent.cleared {p : List (Fin 512)} {k : Fin 512} {m₁ : PhysMem}
    (h : Absent fmt top root m vb) (hc : Cleared fmt top root p k m m₁) (hp : top - 1 ≤ p.length) :
    Absent fmt top root m₁ vb := by
  obtain ⟨f, hf⟩ := h.upper
  refine ⟨⟨f, ?_⟩, hc.tableAt_none h.table, hc.lookup_none h.leaf⟩
  rw [hc.tables (not_prefix_of_length (by rwa [pathFrom_length])), hf]

/-- With a missing last table `d` blocks ahead and pages enough to get there, the loop does not return
`true`: it cannot step over a block. -/
lemma never_true (hl : top + 1 ∈ [3, 4, 5]) (hT : Tree fmt top root m)
    (hb : Absent fmt top root m vb)
    (hd : (addr / span 1 + d) % 512 ^ top = vb / span 1 % 512 ^ top)
    (hs : 513 * (d + 1) ≤ size + addr / 0x1000 % 512) (hs' : size < 2 ^ 64) :
    unmapRange fmt top root fuel addr size m ≠ some (.ok (true, m')) := by
  have blk : span 1 = 0x200000 := by norm_num [span]
  induction fuel generalizing addr size d m with
  | zero => simp [unmapRange]
  | succ fuel ih =>
    obtain ⟨s, rfl⟩ : ∃ s, size = s + 1 := ⟨size - 1, by omega⟩
    cases d with
    | zero =>
      have e : pathFrom 1 top addr = pathFrom 1 top vb := pathFrom_eq_iff.mpr (by simpa using hd)
      have e' : pathFrom 2 (top - 1) addr = pathFrom 2 (top - 1) vb := by
        rw [path_block hl, path_block hl] at e
        exact (List.append_inj' e rfl).1
      have here : Absent fmt top root m addr := ⟨e' ▸ hb.upper, e ▸ hb.table, e ▸ hb.leaf⟩
      simp [round_absent hl here]
    | succ d =>
      obtain h | h | h | h := page_cases fmt root m hl addr
      · simp [round_noUpper h]
      · simp [round_absent hl h]
      · obtain ⟨m₁, cleared, _, e⟩ := round_huge hl s hT h
        rw [e]
        split
        · simp
        · have hlt : (s + 2 ^ 64 - 0x200) % 2 ^ 64 = s - 0x200 := by omega
          rw [hlt]
          refine ih (d := d) cleared.tree (hb.cleared cleared (by simp)) ?_ ?_ (by omega)
          · rw [← hd, blk, show (addr + 0x200000) / 0x200000 + d = addr / 0x200000 + (d + 1) by omega]
          · omega
      · obtain ⟨m₁, cleared, _, _, e⟩ := round_small hl s hT h
        rw [e]
        have hb' := hb.cleared cleared (by simp)
        -- the next page is in the same block, or the first one of the next block
        by_cases ho : addr / 0x1000 % 512 = 511
        · refine ih (d := d) cleared.tree hb' ?_ ?_ (by omega)
          · rw [← hd, blk, show (addr + 0x1000) / 0x200000 + d = addr / 0x200000 + (d + 1) by omega]
          · omega
        · refine ih (d := d + 1) cleared.tree hb' ?_ ?_ (by omega)
          · rw [← hd, blk, show (addr + 0x1000) / 0x200000 = addr / 0x200000 by omega]
          · omega

end Rounds

/-- The address is one of the `n` pages from `addr` on. -/
def InPages (addr n va : Nat) : Prop := addr ≤ va ∧ va < addr + n * 0x1000

/-- Every leaf of 2 MiB that meets the range lies inside it. -/
def HugeInside (fmt : PageFormat) (top root : Nat) (m : PhysMem) (addr n : Nat) : Prop :=
  ∀ va, InPages addr n va → HugeAt fmt top root m va →
    addr ≤ va / span 1 * span 1 ∧ va / span 1 * span 1 + span 1 ≤ addr + n * 0x1000

section Ranges
variable {fmt : PageFormat} {top root addr va size fuel n : Nat} {m m' : PhysMem}

/-- Clearing the entry of a page is not noticed on other pages of the range. -/
lemma Cleared.page {m₁ : PhysMem} (hl : top + 1 ∈ [3, 4, 5]) (ha : 0x1000 ∣ addr)
    (hr : CanonicalRange (top + 1) addr (n * 0x1000)) (hn : 0 < n)
    (hc : Cleared fmt top root (pathFrom 1 top addr) (vpn 0 addr) m m₁)
    (hv : Canonical (top + 1) va) (hne : ¬ InPages addr 1 va) :
    lookup fmt m₁ top root (pathFrom 0 (top + 1) va) = lookup fmt m top root (pathFrom 0 (top + 1) va) := by
  refine hc.elsewhere fun hp => ?_
  have e := block_of_through 0 hl (by decide) (hr.canonical (Nat.le_refl _) (by omega)) hv hp
  norm_num [span] at e
  unfold InPages at hne
  omega

/-- Clearing an entry of level 1 unmaps its block only. -/
lemma Cleared.block {m₁ : PhysMem} (hl : top + 1 ∈ [3, 4, 5]) (ha : span 1 ∣ addr)
    (hr : CanonicalRange (top + 1) addr (n * 0x1000)) (hn : 0 < n)
    (hc : Cleared fmt top root (pathFrom 2 (top - 1) addr) (vpn 1 addr) m m₁)
    (hv : Canonical (top + 1) va) (hne : ¬ InPages addr 512 va) :
    lookup fmt m₁ top root (pathFrom 0 (top + 1) va) = lookup fmt m top root (pathFrom 0 (top + 1) va) := by
  refine hc.elsewhere fun hp => ?_
  have e := block_of_through 1 hl (by decide) (hr.canonical (Nat.le_refl _) (by omega)) hv hp
  norm_num [span] at e ha
  unfold InPages at hne
  omega

/-- What is left of a canonical range. -/
lemma CanonicalRange.tail {levels k : Nat} (h : CanonicalRange levels addr (n * 0x1000)) (hk : k ≤ n) :
    CanonicalRange levels (addr + k * 0x1000) ((n - k) * 0x1000) := by
  have e : k * 0x1000 + (n - k) * 0x1000 = n * 0x1000 := by
    rw [← Nat.add_mul, Nat.add_sub_cancel' hk]
  obtain h | ⟨h, h'⟩ := h
  · exact .inl (by omega)
  · exact .inr ⟨by omega, by omega⟩

/-- The block of an address in a leaf of 2 MiB is a leaf throughout. -/
lemma HugeAt.block {vb : Nat} (h : HugeAt fmt top root m va) (e : va / span 1 = vb / span 1)
    (hT : Tree fmt top root m) : HugeAt fmt top root m vb := by
  by_contra hn
  obtain ⟨v, t, h⟩ := h
  have clear := Tree.clear_of_not_huge hT hn
  rw [← pathFrom_of_block (n := top) e] at clear
  rw [pathFrom_concat, lookup_append, clear] at h
  obtain ⟨f, hf, h⟩ := Option.bind_eq_some_iff.mp h
  rw [pathFrom_length, Nat.sub_self] at h
  obtain ⟨p, k, g, _, _, hi, _⟩ := lookup_some h
  omega

/-- The pages behind the first `k` are pages of the range. -/
lemma InPages.of_tail {k : Nat} (h : InPages (addr + k * 0x1000) (n - k) va) (hk : k ≤ n) : InPages addr n va := by
  unfold InPages at *
  omega

section Tail
variable {m₁ : PhysMem} {k : Nat}

/-- The pages behind the first `k` are not touched. -/
def SameTail (fmt : PageFormat) (top root addr n k : Nat) (m m₁ : PhysMem) : Prop :=
  ∀ va, InPages (addr + k * 0x1000) (n - k) va →
    lookup fmt m₁ top root (pathFrom 0 (top + 1) va) = lookup fmt m top root (pathFrom 0 (top + 1) va)

variable (same : SameTail fmt top root addr n k m m₁)
include same

/-- The huge leaves behind a round are those before it. -/
lemma SameTail.huge (hva : InPages (addr + k * 0x1000) (n - k) va) :
    HugeAt fmt top root m₁ va ↔ HugeAt fmt top root m va := by
  unfold HugeAt
  rw [same va hva]

variable (hk : k ≤ n)
include hk

/-- What was mapped behind it still is. -/
lemma SameTail.mapped
    (mapped : ∀ va, InPages addr n va → lookup fmt m top root (pathFrom 0 (top + 1) va) ≠ none) :
    ∀ va, InPages (addr + k * 0x1000) (n - k) va →
      lookup fmt m₁ top root (pathFrom 0 (top + 1) va) ≠ none := by
  intro va hva
  rw [same va hva]
  exact mapped va (hva.of_tail hk)

/-- Huge leaves that were inside still are. -/
lemma SameTail.inside (inside : HugeInside fmt top root m addr n)
    (behind : ∀ va, InPages (addr + k * 0x1000) (n - k) va → HugeAt fmt top root m va →
      addr + k * 0x1000 ≤ va / span 1 * span 1) :
    HugeInside fmt top root m₁ (addr + k * 0x1000) (n - k) := by
  intro va hva huge
  have huge' := (same.huge hva).mp huge
  obtain ⟨-, ends⟩ := inside va (hva.of_tail hk) huge'
  exact ⟨behind va hva huge', by omega⟩

end Tail

/-- The count falls short of the pages that are left, or there is a leaf of 2 MiB to make it fall
short: when the loop returns `true`, a page is still mapped. -/
lemma exists_left (hl : top + 1 ∈ [3, 4, 5]) (hT : Tree fmt top root m) (ha : 0x1000 ∣ addr)
    (hr : CanonicalRange (top + 1) addr (n * 0x1000))
    (mapped : ∀ va, InPages addr n va → lookup fmt m top root (pathFrom 0 (top + 1) va) ≠ none)
    (inside : HugeInside fmt top root m addr n)
    (short : size < n ∨ (size = n ∧ ∃ va, InPages addr n va ∧ HugeAt fmt top root m va))
    (hs : size < 2 ^ 64)
    (e : unmapRange fmt top root fuel addr size m = some (.ok (true, m'))) :
    ∃ va, InPages addr n va ∧ lookup fmt m' top root (pathFrom 0 (top + 1) va) ≠ none := by
  have blk : span 1 = 0x200000 := by norm_num [span]
  induction fuel generalizing addr size n m with
  | zero => simp [unmapRange] at e
  | succ fuel ih =>
    have hn : 0 < n := by
      obtain h | ⟨h, va, hva, _⟩ := short
      · omega
      · unfold InPages at hva
        omega
    have first : InPages addr n addr := by
      unfold InPages
      omega
    cases size with
    | zero =>
      simp only [unmapRange, if_true, Option.some.injEq, Except.ok.injEq, Prod.mk.injEq, true_and] at e
      exact ⟨addr, first, e ▸ mapped addr first⟩
    | succ s =>
      obtain h | h | h | h := page_cases fmt root m hl addr
      · exact absurd (h.lookup hT hl) (mapped addr first)
      · exact absurd h.lookup (mapped addr first)
      · -- the leaf starts at `addr`, since it lies inside the range
        obtain ⟨m₁, cleared, absent, step⟩ := round_huge hl s hT h
        have start := inside addr first h
        rw [blk] at start
        have hsn : s + 1 ≤ n := by
          obtain h | ⟨h, _⟩ := short <;> omega
        rw [step] at e
        split at e
        · cases e
        · by_cases hw : s = 0x1FF
          · -- the count wraps around
            refine absurd e (never_true (d := 512 ^ top - 1) hl cleared.tree absent ?_ ?_ ?_)
            · rw [blk, show (addr + 0x200000) / 0x200000 = addr / 0x200000 + 1 by omega, Nat.add_assoc,
                Nat.add_sub_cancel' (Nat.one_le_pow _ _ (by decide)), Nat.add_mod_right]
            · simp only [List.mem_cons, List.not_mem_nil, or_false] at hl
              obtain rfl | rfl | rfl : top = 2 ∨ top = 3 ∨ top = 4 := by omega
              all_goals omega
            · omega
          · rw [show (s + 2 ^ 64 - 0x200) % 2 ^ 64 = s - 0x200 by omega] at e
            have ha' : span 1 ∣ addr := by
              rw [blk]
              omega
            have tail := hr.tail (k := 512) (by omega)
            have same : SameTail fmt top root addr n 512 m m₁ := by
              intro va hva
              unfold InPages at hva
              refine Cleared.block hl ha' hr hn cleared (hr.canonical (by omega) (by omega)) ?_
              unfold InPages
              omega
            obtain ⟨va, hva, hleft⟩ := ih cleared.tree (by omega) tail (same.mapped (by omega) mapped)
              (same.inside (by omega) inside fun va hva huge => by
                obtain ⟨starts, -⟩ := inside va (hva.of_tail (by omega)) huge
                unfold InPages at hva
                rw [blk] at starts ⊢
                omega)
              (.inl (by omega)) (by omega) e
            exact ⟨va, hva.of_tail (by omega), hleft⟩
      · obtain ⟨m₁, cleared, _, _, step⟩ := round_small hl s hT h
        rw [step] at e
        have tail := hr.tail (k := 1) hn
        have same : SameTail fmt top root addr n 1 m m₁ := by
          intro va hva
          unfold InPages at hva
          refine Cleared.page hl ha hr hn cleared (hr.canonical (by omega) (by omega)) ?_
          unfold InPages
          omega
        -- a leaf of 2 MiB is not in the block of this page
        have apart : ∀ va, HugeAt fmt top root m va → va / span 1 ≠ addr / span 1 :=
          fun va huge block => absurd h (HugeAt.block huge block hT).not_lastTable
        obtain ⟨va, hva, hleft⟩ := ih cleared.tree (by omega) tail (same.mapped hn mapped)
          (same.inside hn inside fun va hva huge => by
            obtain ⟨starts, -⟩ := inside va (hva.of_tail hn) huge
            have other := apart va huge
            rw [blk] at starts other ⊢
            omega)
          (by
            obtain hlt | ⟨rfl, va, hva, huge⟩ := short
            · exact .inl (by omega)
            · refine .inr ⟨by omega, va, ?_⟩
              have other := apart va huge
              have hva' : InPages (addr + 1 * 0x1000) (s + 1 - 1) va := by
                unfold InPages at hva ⊢
                rw [blk] at other
                omega
              exact ⟨hva', (same.huge hva').mpr huge⟩)
          (by omega) e
        exact ⟨va, hva.of_tail hn, hleft⟩

/-- What unmapping a range of pages leaves: the range has no translation, nothing else has moved. -/
structure RangeUnmapped (fmt : PageFormat) (top root addr n : Nat) (m m' : PhysMem) : Prop where
  tree : Tree fmt top root m'
  frames : m'.frames = m.frames
  inside : ∀ va, InPages addr n va → lookup fmt m' top root (pathFrom 0 (top + 1) va) = none
  outside : ∀ va, Canonical (top + 1) va → ¬ InPages addr n va →
    lookup fmt m' top root (pathFrom 0 (top + 1) va) = lookup fmt m top root (pathFrom 0 (top + 1) va)
  tables : ∀ q, tableAt fmt m' top root q = tableAt fmt m top root q

/-- Where every page has its last table, the loop returns `true` and unmaps the range. -/
lemma unmapRange_small (hl : top + 1 ∈ [3, 4, 5]) (hT : Tree fmt top root m) (ha : 0x1000 ∣ addr)
    (hr : CanonicalRange (top + 1) addr (n * 0x1000))
    (small : ∀ va, InPages addr n va → LastTable fmt top root m va) :
    ∃ m', unmapRange fmt top root (n + 1) addr n m = some (.ok (true, m')) ∧
      RangeUnmapped fmt top root addr n m m' := by
  induction n generalizing addr m with
  | zero =>
    refine ⟨m, rfl, hT, rfl, ?_, fun _ _ _ => rfl, fun _ => rfl⟩
    intro va hva
    unfold InPages at hva
    omega
  | succ n ih =>
    have first : InPages addr (n + 1) addr := by
      unfold InPages
      omega
    obtain ⟨m₁, cleared, frames, _, step⟩ := round_small hl n hT (small addr first)
    have tail := hr.tail (k := 1) (by omega)
    rw [Nat.add_sub_cancel, Nat.one_mul] at tail
    -- a table is never below the entry of a page
    have tables : ∀ q, tableAt fmt m₁ top root q = tableAt fmt m top root q := by
      intro q
      by_cases hq : pathFrom 1 top addr ++ [vpn 0 addr] <+: q
      · have hlen := hq.length_le
        simp only [List.length_append, pathFrom_length, List.length_cons, List.length_nil] at hlen
        cases h₁ : tableAt fmt m₁ top root q with
        | some f => have := tableAt_length h₁; omega
        | none =>
          cases h₂ : tableAt fmt m top root q with
          | some f => have := tableAt_length h₂; omega
          | none => rfl
      · exact cleared.tables hq
    have small' : ∀ va, InPages (addr + 0x1000) n va → LastTable fmt top root m₁ va := by
      intro va hva
      unfold LastTable
      rw [tables]
      exact small va (by unfold InPages at *; omega)
    obtain ⟨m', e, un⟩ := ih cleared.tree (by omega) tail small'
    refine ⟨m', (step _).trans e, un.tree, un.frames.trans frames, ?_, ?_, ?_⟩
    · intro va hva
      by_cases hpage : InPages addr 1 va
      · have e : va / span 0 = addr / span 0 := by
          unfold InPages at hpage
          norm_num [span]
          omega
        rw [un.outside va (hr.canonical hva.1 hva.2) (by unfold InPages at *; omega),
          path_of_block 0 (Nat.zero_le _) e]
        exact cleared.here _
      · exact un.inside va (by unfold InPages at *; omega)
    · intro va hv hva
      rw [un.outside va hv (by unfold InPages at *; omega)]
      refine Cleared.page hl ha hr (Nat.succ_pos n) cleared hv fun hp => hva ⟨hp.1, hp.2.trans_le ?_⟩
      exact Nat.add_le_add_left (Nat.mul_le_mul_right _ (Nat.succ_pos n)) _
    · intro q
      rw [un.tables, tables]

/-- An address is not translated if it is not canonical or has no leaf. -/
lemma translate_none_iff : translate fmt (top + 1) root m va = none ↔
    ¬ Canonical (top + 1) va ∨ lookup fmt m top root (pathFrom 0 (top + 1) va) = none := by
  unfold translate
  split
  · rename_i h
    simp [h]
  · rename_i h
    simp [h]

/-- A range of pages that are all mapped does not cross the canonical hole. -/
lemma canonicalRange_of_mapped (hl : top + 1 ∈ [3, 4, 5]) (hn : 0 < n)
    (h : ∀ va, InPages addr n va → Canonical (top + 1) va) :
    CanonicalRange (top + 1) addr (n * 0x1000) := by
  have h₁ := h addr (by unfold InPages; omega)
  have h₂ := h (addr + n * 0x1000 - 1) (by unfold InPages; omega)
  have h₃ := h (2 ^ (11 + 9 * (top + 1)))
  unfold InPages at h₃
  unfold Canonical at h₁ h₂ h₃
  unfold CanonicalRange
  simp only [List.mem_cons, List.not_mem_nil, or_false] at hl
  obtain rfl | rfl | rfl : top = 2 ∨ top = 3 ∨ top = 4 := by omega
  all_goals norm_num at h₁ h₂ h₃ ⊢; omega

/-- A range of mapped pages is unmapped if and only if no leaf of 2 MiB meets it. -/
theorem unmapRange_true_iff (hl : top + 1 ∈ [3, 4, 5]) (hT : Tree fmt top root m) (ha : 0x1000 ∣ addr)
    (hn : n < 2 ^ 64)
    (mapped : ∀ va, InPages addr n va → translate fmt (top + 1) root m va ≠ none)
    (inside : HugeInside fmt top root m addr n) :
    (∃ fuel m', unmapRange fmt top root fuel addr n m = some (.ok (true, m')) ∧
      (∀ va, InPages addr n va → translate fmt (top + 1) root m' va = none) ∧
      ∀ va, ¬ InPages addr n va →
        translate fmt (top + 1) root m' va = translate fmt (top + 1) root m va) ↔
      ∀ va, InPages addr n va → ¬ HugeAt fmt top root m va := by
  have canonical : ∀ va, InPages addr n va → Canonical (top + 1) va := by
    intro va hva
    have h := mapped va hva
    rw [Ne, translate_none_iff, not_or, not_not] at h
    exact h.1
  have present : ∀ va, InPages addr n va →
      lookup fmt m top root (pathFrom 0 (top + 1) va) ≠ none := by
    intro va hva
    have h := mapped va hva
    rw [Ne, translate_none_iff, not_or] at h
    exact h.2
  rcases Nat.eq_zero_or_pos n with rfl | pos
  · refine iff_of_true ⟨1, m, rfl, ?_, fun _ _ => rfl⟩ ?_
    all_goals
      intro va hva
      unfold InPages at hva
      omega
  have hr := canonicalRange_of_mapped hl pos canonical
  constructor
  · rintro ⟨fuel, m', e, gone, _⟩ va hva hh
    obtain ⟨vb, hvb, left⟩ := exists_left hl hT ha hr present inside (.inr ⟨rfl, va, hva, hh⟩) hn e
    have h := gone vb hvb
    rw [translate_none_iff] at h
    exact h.elim (fun h => h (canonical vb hvb)) left
  · intro noHuge
    have small : ∀ va, InPages addr n va → LastTable fmt top root m va := by
      intro va hva
      obtain h | h | h | h := page_cases fmt root m hl va
      · exact absurd (h.lookup hT hl) (present va hva)
      · exact absurd h.lookup (present va hva)
      · exact absurd h (noHuge va hva)
      · exact h
    obtain ⟨m', e, un⟩ := unmapRange_small hl hT ha hr small
    refine ⟨n + 1, m', e, ?_, ?_⟩
    · intro va hva
      rw [translate_none_iff]
      exact .inr (un.inside va hva)
    · intro va hva
      unfold translate
      split
      · rename_i hc
        rw [Nat.add_sub_cancel, un.outside va hc hva]
      · rfl

/-- The loop stops before the first mapped page: an upper table is missing there, or a leaf of 2 MiB
has fewer than 512 pages of the range left. -/
def StopsFirst (fmt : PageFormat) (top root : Nat) (m : PhysMem) (addr n : Nat) : Prop :=
  ∃ i < n, (∀ j < i, lookup fmt m top root (pathFrom 0 (top + 1) (addr + j * 0x1000)) = none) ∧
    (NoUpper fmt top root m (addr + i * 0x1000) ∨
      (HugeAt fmt top root m (addr + i * 0x1000) ∧ n < i + 512))

/-- Behind a page that is not mapped the run stops where it would from there on. -/
lemma StopsFirst.next (hv : lookup fmt m top root (pathFrom 0 (top + 1) addr) = none) :
    StopsFirst fmt top root m (addr + 0x1000) n → StopsFirst fmt top root m addr (n + 1) := by
  have shift : ∀ j, addr + 0x1000 + j * 0x1000 = addr + (j + 1) * 0x1000 := by
    intro j
    ring
  rintro ⟨i, hi, before, stop⟩
  refine ⟨i + 1, by omega, ?_, ?_⟩
  · intro j hj
    cases j with
    | zero => simpa using hv
    | succ j => rw [← shift]; exact before j (by omega)
  · rw [← shift]
    exact stop.imp_right fun h => ⟨h.1, by omega⟩

/-- Every index path is the path of a canonical address. -/
lemma exists_canonical (hl : top + 1 ∈ [3, 4, 5]) (va : Nat) :
    ∃ vb, Canonical (top + 1) vb ∧ pathFrom 0 (top + 1) vb = pathFrom 0 (top + 1) va := by
  simp only [List.mem_cons, List.not_mem_nil, or_false] at hl
  refine ⟨if va % 2 ^ (12 + 9 * (top + 1)) < 2 ^ (11 + 9 * (top + 1)) then
    va % 2 ^ (12 + 9 * (top + 1)) else
    va % 2 ^ (12 + 9 * (top + 1)) + (2 ^ 64 - 2 ^ (12 + 9 * (top + 1))), ?_⟩
  rw [pathFrom_eq_iff]
  unfold Canonical
  obtain rfl | rfl | rfl : top = 2 ∨ top = 3 ∨ top = 4 := by omega
  all_goals norm_num [span]; split <;> omega

/-- The loop only ever removes translations. -/
lemma unmapRange_none {b : Bool} (hl : top + 1 ∈ [3, 4, 5]) (hT : Tree fmt top root m)
    {r : List (Fin 512)} (hv : lookup fmt m top root r = none)
    (e : unmapRange fmt top root fuel addr size m = some (.ok (b, m'))) :
    lookup fmt m' top root r = none := by
  induction fuel generalizing addr size m with
  | zero => simp [unmapRange] at e
  | succ fuel ih =>
    cases size with
    | zero =>
      simp only [unmapRange, if_true, Option.some.injEq, Except.ok.injEq, Prod.mk.injEq] at e
      rwa [← e.2]
    | succ s =>
      obtain h | h | h | h := page_cases fmt root m hl addr
      · rw [round_noUpper h] at e
        cases e
        exact hv
      · rw [round_absent hl h] at e
        cases e
      · obtain ⟨m₁, cleared, _, step⟩ := round_huge hl s hT h
        rw [step] at e
        split at e
        · cases e
          exact hv
        · exact ih cleared.tree (cleared.lookup_none hv) e
      · obtain ⟨m₁, cleared, _, _, step⟩ := round_small hl s hT h
        rw [step] at e
        exact ih cleared.tree (cleared.lookup_none hv) e

/-- A loop that ends has kept the tree. -/
lemma unmapRange_tree {b : Bool} (hl : top + 1 ∈ [3, 4, 5]) (hT : Tree fmt top root m)
    (e : unmapRange fmt top root fuel addr size m = some (.ok (b, m'))) : Tree fmt top root m' := by
  induction fuel generalizing addr size m with
  | zero => simp [unmapRange] at e
  | succ fuel ih =>
    cases size with
    | zero =>
      simp only [unmapRange, if_true, Option.some.injEq, Except.ok.injEq, Prod.mk.injEq] at e
      rwa [← e.2]
    | succ s =>
      obtain h | h | h | h := page_cases fmt root m hl addr
      · rw [round_noUpper h] at e
        cases e
        exact hT
      · rw [round_absent hl h] at e
        cases e
      · obtain ⟨m₁, cleared, _, step⟩ := round_huge hl s hT h
        rw [step] at e
        split at e
        · cases e
          exact hT
        · exact ih cleared.tree e
      · obtain ⟨m₁, cleared, _, _, step⟩ := round_small hl s hT h
        rw [step] at e
        exact ih cleared.tree e

/-- Where the loop stops before the first mapped page, it has changed nothing. -/
lemma StopsFirst.unchanged (hl : top + 1 ∈ [3, 4, 5]) (hT : Tree fmt top root m)
    (stops : StopsFirst fmt top root m addr n)
    (e : unmapRange fmt top root fuel addr n m = some (.ok (false, m'))) : m' = m := by
  induction fuel generalizing addr n with
  | zero => simp [unmapRange] at e
  | succ fuel ih =>
    obtain ⟨i, hi, before, stop⟩ := stops
    obtain ⟨n, rfl⟩ : ∃ s, n = s + 1 := ⟨n - 1, by omega⟩
    cases i with
    | zero =>
      rw [Nat.zero_mul, Nat.add_zero] at stop
      obtain stop | ⟨hh, hlt⟩ := stop
      · rw [round_noUpper stop] at e
        cases e
        rfl
      · obtain ⟨m₁, _, _, step⟩ := round_huge hl n hT hh
        rw [step, if_pos (by omega)] at e
        cases e
        rfl
    | succ i =>
      have hv : lookup fmt m top root (pathFrom 0 (top + 1) addr) = none := by
        simpa using before 0 (Nat.succ_pos i)
      obtain h | h | ⟨v, t, h⟩ | h := page_cases fmt root m hl addr
      · rw [round_noUpper h] at e
        cases e
        rfl
      · rw [round_absent hl h] at e
        cases e
      · rw [hv] at h
        cases h
      · obtain ⟨m₁, _, _, same, step⟩ := round_small hl n hT h
        rw [step, same hv] at e
        have shift : ∀ j, addr + 0x1000 + j * 0x1000 = addr + (j + 1) * 0x1000 := by
          intro j
          ring
        refine ih ⟨i, by omega, ?_, ?_⟩ e
        · intro j hj
          rw [shift]
          exact before (j + 1) (by omega)
        · rw [shift]
          exact stop.imp_right fun h => ⟨h.1, by omega⟩

/-- Where the loop returns `false` and no translation is gone, it stopped before the first mapped
page. -/
lemma StopsFirst.of_unchanged (hl : top + 1 ∈ [3, 4, 5]) (hT : Tree fmt top root m)
    (same : ∀ va, lookup fmt m' top root (pathFrom 0 (top + 1) va) = none →
      lookup fmt m top root (pathFrom 0 (top + 1) va) = none)
    (e : unmapRange fmt top root fuel addr n m = some (.ok (false, m'))) :
    StopsFirst fmt top root m addr n := by
  induction fuel generalizing addr n with
  | zero => simp [unmapRange] at e
  | succ fuel ih =>
    cases n with
    | zero => simp [unmapRange] at e
    | succ n =>
      obtain h | h | h | h := page_cases fmt root m hl addr
      · exact ⟨0, Nat.succ_pos n, by omega, .inl (by simpa using h)⟩
      · rw [round_absent hl h] at e
        cases e
      · obtain ⟨m₁, cleared, absent, step⟩ := round_huge hl n hT h
        rw [step] at e
        split at e
        · exact ⟨0, Nat.succ_pos n, by omega, .inr ⟨by simpa using h, by omega⟩⟩
        · -- the leaf was there and is gone
          have gone := same addr (unmapRange_none hl cleared.tree absent.lookup e)
          obtain ⟨v, t, h⟩ := h
          rw [gone] at h
          cases h
      · obtain ⟨m₁, cleared, _, unmapped, step⟩ := round_small hl n hT h
        rw [step] at e
        have here : lookup fmt m₁ top root (pathFrom 0 (top + 1) addr) = none := by
          rw [pathFrom_concat]
          exact cleared.here []
        have hv := same addr (unmapRange_none hl cleared.tree here e)
        rw [unmapped hv] at e
        exact .next hv (ih e)

/-- When the loop returns `false`, every translation is as it was if and only if it stopped before the
first mapped page. -/
theorem unmapRange_false_iff (hl : top + 1 ∈ [3, 4, 5]) (hT : Tree fmt top root m)
    (e : unmapRange fmt top root fuel addr n m = some (.ok (false, m'))) :
    (∀ va, translate fmt (top + 1) root m' va = translate fmt (top + 1) root m va) ↔
      StopsFirst fmt top root m addr n := by
  constructor
  · intro same
    refine StopsFirst.of_unchanged hl hT (fun va hv => ?_) e
    obtain ⟨vb, hc, hp⟩ := exists_canonical hl va
    have none' : translate fmt (top + 1) root m' vb = none := by
      rw [translate_none_iff, hp]
      exact .inr hv
    rw [same, translate_none_iff, hp] at none'
    exact none'.resolve_left fun h => h hc
  · intro stops va
    rw [stops.unchanged hl hT e]

end Ranges

end WivOS.Vmm
