import WivOS.Vmm.Unmapping
import Mathlib.Data.Nat.Count

/-!
# Missing tables under `vmm_unmap`

`vmm_unmap` tests every table pointer for `NULL` but the last one. Going from one block of 2 MiB to the
next, it gets past the blocks that have their last table and past leaves, and it uses up one page of
the count for each page it passes and one more for each leaf (`needed`). What it does then is decided
by the block where it stops: `neverNull_iff` says in which tables, and for which ranges, no absent
table is written to and a range with a missing table is refused.
-/

namespace WivOS.Vmm
open WivOS.Lib WivOS.Lib.Radix

instance (fmt : PageFormat) (top root : Nat) (m : PhysMem) :
    DecidablePred (HugeAt fmt top root m) := fun va =>
  decidable_of_iff ((lookup fmt m top root (pathFrom 0 (top + 1) va)).map Prod.fst = some 1) (by
    unfold HugeAt
    constructor
    · intro h
      obtain ⟨⟨_, v, t⟩, e, rfl⟩ := Option.map_eq_some_iff.mp h
      exact ⟨v, t, e⟩
    · rintro ⟨v, t, e⟩
      rw [e]
      rfl)

section Blocks
variable (fmt : PageFormat) (top root : Nat) (m : PhysMem) (addr : Nat)

/-- A table that the address needs is missing, at any level. -/
def Missing (va : Nat) : Prop := NoUpper fmt top root m va ∨ Absent fmt top root m va

/-- The leaves among the `k` blocks from the one of `addr` on. -/
def leaves (k : Nat) : Nat := Nat.count (fun j => HugeAt fmt top root m (addr + j * span 1)) k

/-- What the count of pages has lost on the way to block `k`: the pages passed, and one for each leaf.
The first block that has its last table is passed from its page on, a leaf as a whole. -/
def needed (k : Nat) : Nat :=
  512 * k + leaves fmt top root m addr k -
    if leaves fmt top root m addr k = k then 0 else addr / 0x1000 % 512

/-- The loop gets past block `k`: the last table is there, or a leaf that it has not removed yet. -/
def Passable (k : Nat) : Prop :=
  LastTable fmt top root m (addr + k * span 1) ∨
    (HugeAt fmt top root m (addr + k * span 1) ∧ k < 512 ^ top)

/-- Within a count of `n` the loop comes to a block that lacks an upper table, or to a leaf with fewer
than 512 pages left. -/
def Refused (n : Nat) : Prop :=
  ∃ k, (∀ j < k, Passable fmt top root m addr j) ∧ needed fmt top root m addr k < n ∧
    (NoUpper fmt top root m (addr + k * span 1) ∨
      (HugeAt fmt top root m (addr + k * span 1) ∧ k < 512 ^ top ∧
        n < needed fmt top root m addr k + 512))

/-- The loop comes to a leaf with exactly 512 pages left: the count starts again below 2^64. -/
def Wraps (n : Nat) : Prop :=
  ∃ k < 512 ^ top, (∀ j < k, Passable fmt top root m addr j) ∧
    HugeAt fmt top root m (addr + k * span 1) ∧ n = needed fmt top root m addr k + 512

/-- Within a count of `n` the loop gets past every block it comes to. -/
def PassesAll (n : Nat) : Prop :=
  ∀ k, (∀ j < k, Passable fmt top root m addr j) → needed fmt top root m addr k < n →
    Passable fmt top root m addr k

/-- Within a count of `n` the loop comes to a block where the last table is missing, or where it has
removed the leaf. -/
def Faults (n : Nat) : Prop :=
  ∃ k, (∀ j < k, Passable fmt top root m addr j) ∧ needed fmt top root m addr k < n ∧
    ¬ NoUpper fmt top root m (addr + k * span 1) ∧ ¬ Passable fmt top root m addr k

/-- The count ends before the loop comes to a block that it does not get past. -/
def RunsOut (n : Nat) : Prop :=
  ∃ k, (∀ j < k, Passable fmt top root m addr j) ∧
    (n = needed fmt top root m addr k ∨
      (LastTable fmt top root m (addr + k * span 1) ∧ needed fmt top root m addr k < n ∧
        n < needed fmt top root m addr (k + 1)))

end Blocks

section Counts
variable {fmt : PageFormat} {top root addr n k : Nat} {m : PhysMem}

/-- There are no more huge leaves than blocks. -/
lemma leaves_le (fmt : PageFormat) (top root : Nat) (m : PhysMem) (addr k : Nat) :
    leaves fmt top root m addr k ≤ k := Nat.count_le _

/-- One more huge leaf. -/
lemma leaves_huge (h : HugeAt fmt top root m (addr + k * span 1)) :
    leaves fmt top root m addr (k + 1) = leaves fmt top root m addr k + 1 :=
  (Nat.count_succ ..).trans (by rw [if_pos h]; rfl)

/-- One more block that is none. -/
lemma leaves_not_huge (h : ¬ HugeAt fmt top root m (addr + k * span 1)) :
    leaves fmt top root m addr (k + 1) = leaves fmt top root m addr k :=
  (Nat.count_succ ..).trans (by rw [if_neg h]; rfl)

/-- A huge leaf takes 513 pages of the count. -/
lemma needed_huge (h : HugeAt fmt top root m (addr + k * span 1)) :
    needed fmt top root m addr (k + 1) = needed fmt top root m addr k + 513 := by
  have le := leaves_le fmt top root m addr k
  unfold needed
  rw [leaves_huge h]
  split <;> split <;> omega

/-- A last table takes the pages from the first one in it on. -/
lemma needed_table (h : LastTable fmt top root m (addr + k * span 1)) :
    needed fmt top root m addr (k + 1) = needed fmt top root m addr k +
      (512 - if leaves fmt top root m addr k = k then addr / 0x1000 % 512 else 0) := by
  have le := leaves_le fmt top root m addr k
  unfold needed
  rw [leaves_not_huge fun hh => hh.not_lastTable h]
  split <;> split <;> omega

/-- A block takes a page at least. -/
lemma le_needed : k ≤ needed fmt top root m addr k := by
  have le := leaves_le fmt top root m addr k
  unfold needed
  split <;> omega

/-- And 513 at most. -/
lemma needed_le (fmt : PageFormat) (top root : Nat) (m : PhysMem) (addr k : Nat) :
    needed fmt top root m addr k ≤ 513 * k := by
  have le := leaves_le fmt top root m addr k
  unfold needed
  omega

/-- The count falls with every block. -/
lemma needed_lt (h : Passable fmt top root m addr k) :
    needed fmt top root m addr k < needed fmt top root m addr (k + 1) := by
  obtain h | h := h
  · rw [needed_table h]
    split <;> omega
  · rw [needed_huge h.1]
    omega

/-- More blocks take more. -/
lemma needed_mono {k' : Nat} (le : k ≤ k') (pass : ∀ j < k', Passable fmt top root m addr j) :
    needed fmt top root m addr k ≤ needed fmt top root m addr k' := by
  induction le with
  | refl => rfl
  | @step k' le ih =>
    have step := needed_lt (pass k' (Nat.lt_succ_self k'))
    exact (ih fun j hj => pass j (Nat.lt_succ_of_lt hj)).trans step.le

end Counts

/-- The table after the loop has come to block `k`: the leaves of the blocks before are gone. -/
structure Trimmed (fmt : PageFormat) (top root addr k : Nat) (m m' : PhysMem) : Prop where
  tree : Tree fmt top root m'
  upper : ∀ vb, NoUpper fmt top root m' vb ↔ NoUpper fmt top root m vb
  last : ∀ vb, LastTable fmt top root m' vb ↔ LastTable fmt top root m vb
  huge : ∀ vb, HugeAt fmt top root m' vb ↔ HugeAt fmt top root m vb ∧
    ∀ j < k, pathFrom 1 top vb ≠ pathFrom 1 top (addr + j * span 1)

/-- The loop that started at `addr` is at `va`, in block `k`. -/
structure Here (fmt : PageFormat) (top root addr k : Nat) (m : PhysMem) (va : Nat) (m' : PhysMem) :
    Prop extends Trimmed fmt top root addr k m m' where
  block : va / span 1 = addr / span 1 + k
  offset : va / 0x1000 % 512 =
    if leaves fmt top root m addr k = k then addr / 0x1000 % 512 else 0

section Walk
variable {fmt : PageFormat} {top root addr va vb size n k : Nat} {m m' m₁ : PhysMem}

/-- The number of a block. -/
lemma block_add (addr k : Nat) : (addr + k * span 1) / span 1 = addr / span 1 + k :=
  Nat.add_mul_div_right _ _ span_pos

/-- The addresses of a block have the same upper tables. -/
lemma NoUpper.same_block (h : NoUpper fmt top root m va) (e : pathFrom 1 top va = pathFrom 1 top vb)
    (hl : top + 1 ∈ [3, 4, 5]) : NoUpper fmt top root m vb := by
  rw [path_block hl, path_block hl] at e
  unfold NoUpper at h ⊢
  rwa [← (List.append_inj' e rfl).1]

/-- They have the same last table. -/
lemma LastTable.same_block (h : LastTable fmt top root m va)
    (e : pathFrom 1 top va = pathFrom 1 top vb) : LastTable fmt top root m vb := by
  unfold LastTable at h ⊢
  rwa [← e]

/-- They have the same huge leaf. -/
lemma HugeAt.same_block (h : HugeAt fmt top root m va) (hT : Tree fmt top root m)
    (e : pathFrom 1 top va = pathFrom 1 top vb) : HugeAt fmt top root m vb := by
  by_contra hn
  obtain ⟨v, t, h⟩ := h
  have clear := Tree.clear_of_not_huge hT hn
  rw [pathFrom_concat, lookup_append, e, clear] at h
  obtain ⟨f, hf, h⟩ := Option.bind_eq_some_iff.mp h
  rw [pathFrom_length, Nat.sub_self] at h
  obtain ⟨p, k, g, _, _, hi, _⟩ := lookup_some h
  omega

/-- A walk through the entry of a page is one through its block. -/
lemma path_of_page (h : pathFrom 1 top va ++ [vpn 0 va] <+: pathFrom 0 (top + 1) vb) :
    pathFrom 1 top va = pathFrom 1 top vb := by
  rw [← pathFrom_concat] at h
  have e := h.eq_of_length (by simp)
  rw [pathFrom_concat, pathFrom_concat] at e
  exact (List.append_inj' e rfl).1

/-- Paths through the entry of a block are those of its addresses. -/
lemma path_of_entry (hl : top + 1 ∈ [3, 4, 5])
    (h : pathFrom 2 (top - 1) va ++ [vpn 1 va] <+: pathFrom 0 (top + 1) vb) :
    pathFrom 1 top va = pathFrom 1 top vb := by
  rw [← path_block hl, pathFrom_concat] at h
  exact (List.prefix_of_prefix_length_le h (List.prefix_append _ _) (by simp)).eq_of_length (by simp)

/-- Nothing is trimmed at first. -/
lemma Trimmed.start (hT : Tree fmt top root m) : Trimmed fmt top root addr 0 m m :=
  ⟨hT, fun _ => Iff.rfl, fun _ => Iff.rfl, fun _ => ⟨fun h => ⟨h, by omega⟩, And.left⟩⟩

/-- Clearing the entry of a page removes no table and no leaf of 2 MiB. -/
lemma Trimmed.page (h : Trimmed fmt top root addr k m m') (hv : LastTable fmt top root m' va)
    (hc : Cleared fmt top root (pathFrom 1 top va) (vpn 0 va) m' m₁) :
    Trimmed fmt top root addr k m m₁ := by
  refine ⟨hc.tree, ?_, ?_, ?_⟩
  · intro vb
    rw [← h.upper vb]
    unfold NoUpper
    rw [hc.tables (not_prefix_of_length (by simp))]
  · intro vb
    rw [← h.last vb]
    unfold LastTable
    rw [hc.tables (not_prefix_of_length (by simp))]
  · intro vb
    rw [← h.huge vb]
    by_cases hp : pathFrom 1 top va ++ [vpn 0 va] <+: pathFrom 0 (top + 1) vb
    · refine iff_of_false ?_ fun hh => hh.not_lastTable (hv.same_block (path_of_page hp))
      rintro ⟨v, t, e⟩
      obtain ⟨t', e'⟩ := exists_of_through hp
      rw [e', hc.here t'] at e
      cases e
    · unfold HugeAt
      rw [hc.elsewhere hp]

/-- Clearing the leaf of block `k` removes just that. -/
lemma Trimmed.leaf (hl : top + 1 ∈ [3, 4, 5]) (h : Trimmed fmt top root addr k m m')
    (hv : HugeAt fmt top root m' va) (e : pathFrom 1 top va = pathFrom 1 top (addr + k * span 1))
    (hc : Cleared fmt top root (pathFrom 2 (top - 1) va) (vpn 1 va) m' m₁) :
    Trimmed fmt top root addr (k + 1) m m₁ := by
  refine ⟨hc.tree, ?_, ?_, ?_⟩
  · intro vb
    rw [← h.upper vb]
    unfold NoUpper
    rw [hc.tables (not_prefix_of_length (by simp))]
  · intro vb
    rw [← h.last vb]
    by_cases hp : pathFrom 1 top va = pathFrom 1 top vb
    · refine iff_of_false ?_ fun hh => hv.not_lastTable (hh.same_block hp.symm)
      rintro ⟨g, hg⟩
      rw [← hp, path_block hl, hc.below []] at hg
      cases hg
    · unfold LastTable
      rw [hc.tables]
      intro hq
      rw [← path_block hl] at hq
      exact hp (hq.eq_of_length (by simp))
  · intro vb
    have less : (∀ j < k + 1, pathFrom 1 top vb ≠ pathFrom 1 top (addr + j * span 1)) ↔
        (∀ j < k, pathFrom 1 top vb ≠ pathFrom 1 top (addr + j * span 1)) ∧
          pathFrom 1 top vb ≠ pathFrom 1 top va := by
      rw [e]
      exact Nat.forall_lt_succ_right
    rw [less, ← and_assoc, ← h.huge vb]
    by_cases hp : pathFrom 2 (top - 1) va ++ [vpn 1 va] <+: pathFrom 0 (top + 1) vb
    · refine iff_of_false ?_ fun hh => hh.2 (path_of_entry hl hp).symm
      rintro ⟨v, t, e⟩
      obtain ⟨t', e'⟩ := exists_of_through hp
      rw [e', hc.here t'] at e
      cases e
    · have ne : pathFrom 1 top vb ≠ pathFrom 1 top va := by
        intro eq
        apply hp
        rw [← path_block hl, ← eq, pathFrom_concat]
        exact List.prefix_append _ _
      unfold HugeAt
      rw [hc.elsewhere hp, and_iff_left ne]

/-- A block that has its last table is none of the leaves. -/
lemma Trimmed.skip (h : Trimmed fmt top root addr k m m')
    (table : LastTable fmt top root m (addr + k * span 1)) :
    Trimmed fmt top root addr (k + 1) m m' := by
  refine ⟨h.tree, h.upper, h.last, ?_⟩
  intro vb
  rw [h.huge]
  refine and_congr_right fun hh => ?_
  rw [Nat.forall_lt_succ_right, and_iff_left]
  intro e
  exact hh.not_lastTable (table.same_block e.symm)

/-- The round is at this block. -/
lemma Here.path (h : Here fmt top root addr k m va m') :
    pathFrom 1 top va = pathFrom 1 top (addr + k * span 1) :=
  pathFrom_of_block (by rw [h.block, block_add])

/-- The leaf of block `k` is still there when the loop comes to it the first time. -/
lemma Here.huge_iff (h : Here fmt top root addr k m va m') (hT : Tree fmt top root m) :
    HugeAt fmt top root m' va ↔ HugeAt fmt top root m (addr + k * span 1) ∧ k < 512 ^ top := by
  have same : ∀ j, pathFrom 1 top va = pathFrom 1 top (addr + j * span 1) ↔
      addr / span 1 + k ≡ addr / span 1 + j [MOD 512 ^ top] := by
    intro j
    rw [pathFrom_eq_iff, h.block, block_add]
    rfl
  have pos : 0 < 512 ^ top := by positivity
  rw [h.huge]
  constructor
  · rintro ⟨hh, apart⟩
    refine ⟨hh.same_block hT h.path, ?_⟩
    by_contra hk
    refine apart (k - 512 ^ top) (by omega) ((same _).mpr (Nat.ModEq.add_left _ ?_))
    exact (Nat.ModEq.symm (Nat.modEq_iff_dvd' (Nat.sub_le _ _) |>.mpr ⟨1, by omega⟩))
  · rintro ⟨hh, hk⟩
    refine ⟨hh.same_block hT h.path.symm, ?_⟩
    intro j hj e
    have eq := Nat.ModEq.add_left_cancel' _ ((same j).mp e)
    have := eq.eq_of_lt_of_lt hk (hj.trans hk)
    omega

/-- Removing the leaf of block `k` takes the loop to block `k + 1`. -/
lemma Here.removed (hl : top + 1 ∈ [3, 4, 5]) (h : Here fmt top root addr k m va m')
    (here : HugeAt fmt top root m' va) (huge : HugeAt fmt top root m (addr + k * span 1))
    (hc : Cleared fmt top root (pathFrom 2 (top - 1) va) (vpn 1 va) m' m₁) :
    Here fmt top root addr (k + 1) m (va + 0x200000) m₁ := by
  have block := h.block
  have offset := h.offset
  have le := leaves_le fmt top root m addr k
  refine ⟨h.leaf hl here h.path hc, ?_, ?_⟩
  · norm_num [span] at block ⊢
    omega
  · rw [leaves_huge huge]
    split at offset <;> split <;> omega

/-- The pages of a block that has its last table, one after the other. -/
lemma Trimmed.pages (hl : top + 1 ∈ [3, 4, 5]) (c : Nat)
    (h : Trimmed fmt top root addr k m m') (hv : LastTable fmt top root m' va)
    (hc : va / 0x1000 % 512 + c ≤ 512) (hs : c ≤ size) :
    ∃ m₁, Trimmed fmt top root addr k m m₁ ∧ ∀ fuel,
      unmapRange fmt top root (fuel + c) va size m' =
        unmapRange fmt top root fuel (va + c * 0x1000) (size - c) m₁ := by
  induction c generalizing va size m' with
  | zero => exact ⟨m', h, fun _ => by simp⟩
  | succ c ih =>
    obtain ⟨s, rfl⟩ : ∃ s, size = s + 1 := ⟨size - 1, by omega⟩
    obtain ⟨m₁, cleared, _, _, step⟩ := round_small hl s h.tree hv
    have h₁ := h.page hv cleared
    cases c with
    | zero => exact ⟨m₁, h₁, fun fuel => by simpa using step fuel⟩
    | succ c =>
      -- the next page is one of the same block
      have e : va / span 1 = (va + 0x1000) / span 1 := by
        norm_num [span]
        omega
      have hv₁ : LastTable fmt top root m₁ (va + 0x1000) := by
        refine LastTable.same_block ?_ (pathFrom_of_block e)
        rw [h₁.last, ← h.last]
        exact hv
      have left : c + 1 ≤ s := by omega
      obtain ⟨m₂, h₂, run⟩ := ih h₁ hv₁ (by omega) left
      refine ⟨m₂, h₂, fun fuel => ?_⟩
      rw [← Nat.add_assoc, step, run, Nat.add_sub_add_right s 1 (c + 1)]
      congr 1
      ring

/-- From one block to the next. -/
lemma Here.next (hl : top + 1 ∈ [3, 4, 5]) (hT : Tree fmt top root m)
    (h : Here fmt top root addr k m va m') (pass : Passable fmt top root m addr k)
    (hn : needed fmt top root m addr (k + 1) ≤ needed fmt top root m addr k + size)
    (hs : size < 2 ^ 64) :
    ∃ r vb m₁, Here fmt top root addr (k + 1) m vb m₁ ∧ ∀ fuel,
      unmapRange fmt top root (fuel + r) va size m' =
        unmapRange fmt top root fuel vb
          (size - (needed fmt top root m addr (k + 1) - needed fmt top root m addr k)) m₁ := by
  have blk : span 1 = 0x200000 := by norm_num [span]
  have block := h.block
  have offset := h.offset
  have le := leaves_le fmt top root m addr k
  rw [blk] at block
  obtain table | huge := pass
  · rw [needed_table table, ← offset] at hn ⊢
    have here : LastTable fmt top root m' va := by
      rw [h.last]
      exact table.same_block h.path.symm
    have left : 512 - va / 0x1000 % 512 ≤ size := by omega
    obtain ⟨m₁, h₁, run⟩ := h.pages hl (512 - va / 0x1000 % 512) here (by omega) left
    refine ⟨512 - va / 0x1000 % 512, va + (512 - va / 0x1000 % 512) * 0x1000, m₁,
      ⟨h₁.skip table, ?_, ?_⟩, fun fuel => ?_⟩
    · rw [blk]
      omega
    · rw [leaves_not_huge fun hh => hh.not_lastTable table, if_neg (by omega)]
      omega
    · rw [run, Nat.add_sub_cancel_left]
  · obtain ⟨s, rfl⟩ : ∃ s, size = s + 1 := ⟨size - 1, by rw [needed_huge huge.1] at hn; omega⟩
    rw [needed_huge huge.1] at hn ⊢
    have here := (h.huge_iff hT).mpr huge
    obtain ⟨m₁, cleared, _, step⟩ := round_huge hl s h.tree here
    refine ⟨1, va + 0x200000, m₁, h.removed hl here huge.1 cleared, fun fuel => ?_⟩
    rw [step, if_neg (by omega), show (s + 2 ^ 64 - 0x200) % 2 ^ 64 = s - 0x200 by omega,
      Nat.add_sub_cancel_left, Nat.add_sub_add_right s 1 0x200]

/-- From block `k` on to block `k'`. -/
lemma Here.reach {k' : Nat} (hl : top + 1 ∈ [3, 4, 5]) (hT : Tree fmt top root m)
    (h : Here fmt top root addr k m va m') (le : k ≤ k')
    (pass : ∀ j < k', Passable fmt top root m addr j)
    (hn : needed fmt top root m addr k' ≤ needed fmt top root m addr k + size)
    (hs : size < 2 ^ 64) :
    ∃ r vb m₁, Here fmt top root addr k' m vb m₁ ∧ ∀ fuel,
      unmapRange fmt top root (fuel + r) va size m' =
        unmapRange fmt top root fuel vb
          (size - (needed fmt top root m addr k' - needed fmt top root m addr k)) m₁ := by
  induction k', le using Nat.le_induction with
  | base => exact ⟨0, va, m', h, fun _ => by simp⟩
  | succ k' le ih =>
    have pass' : ∀ j < k', Passable fmt top root m addr j := fun j hj => pass j (Nat.lt_succ_of_lt hj)
    have mono := needed_mono le pass'
    have step := needed_lt (pass k' (Nat.lt_succ_self k'))
    obtain ⟨r₁, vb, m₁, h₁, run₁⟩ := ih pass' (by omega)
    have left : needed fmt top root m addr (k' + 1) ≤ needed fmt top root m addr k' +
        (size - (needed fmt top root m addr k' - needed fmt top root m addr k)) := by omega
    obtain ⟨r₂, vc, m₂, h₂, run₂⟩ := h₁.next hl hT (pass k' (Nat.lt_succ_self k')) left
      (Nat.lt_of_le_of_lt (Nat.sub_le size _) hs)
    refine ⟨r₂ + r₁, vc, m₂, h₂, fun fuel => ?_⟩
    rw [← Nat.add_assoc, run₁, run₂, Nat.sub_sub]
    congr 2
    omega

end Walk

/-- The loop ends in `r`. -/
def Ends (fmt : PageFormat) (top root addr n : Nat) (m : PhysMem) (r : Except Stop (Bool × PhysMem)) :
    Prop := ∃ fuel, unmapRange fmt top root fuel addr n m = some r

/-- The loop comes to block `k` with what is left there of a count of `N`. -/
def Arrives (fmt : PageFormat) (top root addr n : Nat) (m : PhysMem) (N k : Nat) : Prop :=
  ∃ r va m', Here fmt top root addr k m va m' ∧ ∀ fuel,
    unmapRange fmt top root (fuel + r) addr n m =
      unmapRange fmt top root fuel va (N - needed fmt top root m addr k) m'

section Outcomes
variable {fmt : PageFormat} {top root addr n N k : Nat} {m : PhysMem}

/-- More fuel changes no result. -/
lemma unmapRange_succ {fuel : Nat} {r} (h : unmapRange fmt top root fuel addr n m = some r) :
    unmapRange fmt top root (fuel + 1) addr n m = some r := by
  induction fuel generalizing addr n m with
  | zero => cases h
  | succ fuel ih =>
    rw [unmapRange] at h ⊢
    by_cases hz : n = 0
    · rwa [if_pos hz] at h ⊢
    · rw [if_neg hz] at h ⊢
      split at h
      · exact h
      · split at h
        · by_cases hs : n - 1 < 0x1FF
          · rwa [if_pos hs] at h ⊢
          · rw [if_neg hs] at h ⊢
            exact ih h
        · exact ih h
        · exact h

/-- A run ends in one way. -/
lemma Ends.unique {r r' : Except Stop (Bool × PhysMem)} (h : Ends fmt top root addr n m r)
    (h' : Ends fmt top root addr n m r') : r = r' := by
  have mono : ∀ {fuel d r}, unmapRange fmt top root fuel addr n m = some r →
      unmapRange fmt top root (fuel + d) addr n m = some r := by
    intro fuel d r e
    induction d with
    | zero => exact e
    | succ d ih => exact unmapRange_succ ih
  obtain ⟨f, e⟩ := h
  obtain ⟨f', e'⟩ := h'
  have e₁ := mono (d := f') e
  rw [Nat.add_comm, mono e'] at e₁
  exact (Option.some.inj e₁).symm

/-- What the loop can do with a count of `N`. -/
lemma outcomes (fmt : PageFormat) (top root addr N : Nat) (m : PhysMem) :
    Refused fmt top root m addr N ∨ Faults fmt top root m addr N ∨ RunsOut fmt top root m addr N ∨
      Wraps fmt top root m addr N := by
  have stops : ∃ k, ¬ (Passable fmt top root m addr k ∧ needed fmt top root m addr (k + 1) ≤ N) :=
    ⟨N, fun h => absurd (le_needed.trans h.2) (by omega)⟩
  classical
  have stop := Nat.find_spec stops
  have before : ∀ j < Nat.find stops, _ := fun j hj => not_not.mp (Nat.find_min stops hj)
  set k := Nat.find stops
  have pass : ∀ j < k, Passable fmt top root m addr j := fun j hj => (before j hj).1
  have le : needed fmt top root m addr k ≤ N := by
    cases hk : k with
    | zero => simp [needed, leaves]
    | succ i => exact (before i (by omega)).2
  obtain eq | lt := Nat.eq_or_lt_of_le le
  · exact .inr (.inr (.inl ⟨k, pass, .inl eq.symm⟩))
  by_cases hp : Passable fmt top root m addr k
  · have short : N < needed fmt top root m addr (k + 1) := by
      by_contra h
      exact stop ⟨hp, by omega⟩
    obtain table | ⟨huge, hk⟩ := hp
    · exact .inr (.inr (.inl ⟨k, pass, .inr ⟨table, lt, short⟩⟩))
    · rw [needed_huge huge] at short
      by_cases hw : N = needed fmt top root m addr k + 512
      · exact .inr (.inr (.inr ⟨k, hk, pass, huge, hw⟩))
      · exact .inl ⟨k, pass, lt, .inr ⟨huge, hk, by omega⟩⟩
  · by_cases hu : NoUpper fmt top root m (addr + k * span 1)
    · exact .inl ⟨k, pass, lt, .inl hu⟩
    · exact .inr (.inl ⟨k, pass, lt, hu, hp⟩)

section
variable (hl : top + 1 ∈ [3, 4, 5]) (hT : Tree fmt top root m)
include hl hT

/-- A run that arrives at a missing upper table, or at a leaf with too few pages left, returns false. -/
lemma Arrives.refused (h : Arrives fmt top root addr n m N k)
    (left : needed fmt top root m addr k < N)
    (stop : NoUpper fmt top root m (addr + k * span 1) ∨
      (HugeAt fmt top root m (addr + k * span 1) ∧ k < 512 ^ top ∧
        N < needed fmt top root m addr k + 512)) :
    ∃ m', Ends fmt top root addr n m (.ok (false, m')) := by
  obtain ⟨r, va, m', here, run⟩ := h
  obtain ⟨s, hs⟩ : ∃ s, N - needed fmt top root m addr k = s + 1 :=
    ⟨N - needed fmt top root m addr k - 1, by omega⟩
  refine ⟨m', 1 + r, ?_⟩
  rw [run, hs]
  obtain upper | ⟨huge, hk, short⟩ := stop
  · exact round_noUpper ((here.upper va).mpr (upper.same_block here.path.symm hl))
  · obtain ⟨_, _, _, step⟩ := round_huge hl s here.tree ((here.huge_iff hT).mpr ⟨huge, hk⟩)
    rw [step 0, if_pos (by omega)]

/-- A run that arrives at a missing last table faults. -/
lemma Arrives.faults (h : Arrives fmt top root addr n m N k)
    (left : needed fmt top root m addr k < N) (upper : ¬ NoUpper fmt top root m (addr + k * span 1))
    (stop : ¬ Passable fmt top root m addr k) : Ends fmt top root addr n m (.error .fault) := by
  obtain ⟨r, va, m', here, run⟩ := h
  obtain ⟨s, hs⟩ : ∃ s, N - needed fmt top root m addr k = s + 1 :=
    ⟨N - needed fmt top root m addr k - 1, by omega⟩
  refine ⟨1 + r, ?_⟩
  rw [run, hs]
  obtain h | h | h | h := page_cases fmt root m' hl va
  · exact absurd (((here.upper va).mp h).same_block here.path hl) upper
  · exact round_absent hl h
  · exact absurd (.inr ((here.huge_iff hT).mp h)) stop
  · exact absurd (.inl (((here.last va).mp h).same_block here.path)) stop

omit hT in
/-- A run whose count is used up returns true. -/
lemma Arrives.runsOut (h : Arrives fmt top root addr n m N k)
    (stop : N = needed fmt top root m addr k ∨
      (LastTable fmt top root m (addr + k * span 1) ∧ needed fmt top root m addr k < N ∧
        N < needed fmt top root m addr (k + 1))) :
    ∃ m', Ends fmt top root addr n m (.ok (true, m')) := by
  obtain ⟨r, va, m', here, run⟩ := h
  obtain rfl | ⟨table, left, short⟩ := stop
  · refine ⟨m', 1 + r, ?_⟩
    rw [run, Nat.sub_self]
    rfl
  · rw [needed_table table, ← here.offset] at short
    have hv := (here.last va).mpr (table.same_block here.path.symm)
    obtain ⟨m₁, _, pages⟩ := here.pages hl (N - needed fmt top root m addr k) hv (by omega) le_rfl
    refine ⟨m₁, 1 + (N - needed fmt top root m addr k) + r, ?_⟩
    rw [run, pages, Nat.sub_self]
    rfl

/-- A run arrives behind blocks that it can pass. -/
lemma arrives (hn : n < 2 ^ 64) (pass : ∀ j < k, Passable fmt top root m addr j)
    (le : needed fmt top root m addr k ≤ n) : Arrives fmt top root addr n m n k := by
  have start : Here fmt top root addr 0 m addr m :=
    ⟨.start hT, by simp, by simp [leaves]⟩
  have zero : needed fmt top root m addr 0 = 0 := by simp [needed, leaves]
  obtain ⟨r, va, m', here, run⟩ := start.reach hl hT (Nat.zero_le k) pass (by omega) hn
  rw [zero, Nat.sub_zero] at run
  exact ⟨r, va, m', here, run⟩

/-- After a leaf with exactly 512 pages left, the loop goes on as with 2^64 pages more. -/
lemma arrives_wrapped {k₀ : Nat} (hn : n < 2 ^ 64) (hk : k₀ < 512 ^ top)
    (huge : HugeAt fmt top root m (addr + k₀ * span 1))
    (eq : n = needed fmt top root m addr k₀ + 512) (lt : k₀ < k)
    (pass : ∀ j < k, Passable fmt top root m addr j)
    (le : needed fmt top root m addr k ≤ n + 2 ^ 64) :
    Arrives fmt top root addr n m (n + 2 ^ 64) k := by
  obtain ⟨r, va, m', here, run⟩ :=
    arrives hl hT hn (fun j hj => pass j (hj.trans lt)) (show needed fmt top root m addr k₀ ≤ n by omega)
  have hv := (here.huge_iff hT).mpr ⟨huge, hk⟩
  obtain ⟨m₁, cleared, _, step⟩ := round_huge hl 0x1FF here.tree hv
  have next := needed_huge huge
  have mono : needed fmt top root m addr (k₀ + 1) ≤ needed fmt top root m addr k := needed_mono lt pass
  have left : needed fmt top root m addr k ≤
      needed fmt top root m addr (k₀ + 1) + (2 ^ 64 - 1) := by omega
  obtain ⟨r', vb, m₂, here₂, run₂⟩ :=
    (here.removed hl hv huge cleared).reach hl hT lt pass left (by omega)
  refine ⟨r' + 1 + r, vb, m₂, here₂, fun fuel => ?_⟩
  have e : unmapRange fmt top root (fuel + r' + 1) va (n - needed fmt top root m addr k₀) m' =
      unmapRange fmt top root (fuel + r') (va + 0x200000) (2 ^ 64 - 1) m₁ := by
    rw [show n - needed fmt top root m addr k₀ = 0x1FF + 1 by omega, step]
    rfl
  rw [← Nat.add_assoc, ← Nat.add_assoc, run, e, run₂]
  congr 1
  omega

/-- The loop does not get all the way round to the leaf where its count started again. -/
lemma needed_lt_of_wraps {k₀ : Nat} (hk : k₀ < 512 ^ top)
    (huge : HugeAt fmt top root m (addr + k₀ * span 1))
    (pass : ∀ j < k, Passable fmt top root m addr j) : needed fmt top root m addr k + 512 < 2 ^ 64 := by
  have round : k ≤ k₀ + 512 ^ top := by
    by_contra h
    have e : pathFrom 1 top (addr + k₀ * span 1) = pathFrom 1 top (addr + (k₀ + 512 ^ top) * span 1) := by
      rw [pathFrom_eq_iff, block_add, block_add, ← Nat.add_assoc, Nat.add_mod_right]
    obtain table | ⟨_, h⟩ := pass (k₀ + 512 ^ top) (by omega)
    · exact huge.not_lastTable (table.same_block e.symm)
    · omega
  have le := needed_le fmt top root m addr k
  simp only [List.mem_cons, List.not_mem_nil, or_false] at hl
  obtain rfl | rfl | rfl : top = 2 ∨ top = 3 ∨ top = 4 := by omega
  all_goals norm_num at hk round; omega

end

/-- No absent table is written to, and a range with a missing table is refused. -/
def NeverNull (fmt : PageFormat) (top root addr n : Nat) (m : PhysMem) : Prop :=
  ¬ Ends fmt top root addr n m (.error .fault) ∧
    ((∃ i < n, Missing fmt top root m (addr + i * 0x1000)) →
      ∃ m', Ends fmt top root addr n m (.ok (false, m')))

/-- The count starts again and a block without upper table comes first; or the loop is stopped within
its count by such a block or by a leaf that is too long; or it gets past all it comes to, and no page
of the range lacks a table. -/
def KeepsOff (fmt : PageFormat) (top root addr n : Nat) (m : PhysMem) : Prop :=
  (Wraps fmt top root m addr n ∧ Refused fmt top root m addr (n + 2 ^ 64)) ∨
    (¬ Wraps fmt top root m addr n ∧
      (Refused fmt top root m addr n ∨
        (PassesAll fmt top root m addr n ∧ ∀ i < n, ¬ Missing fmt top root m (addr + i * 0x1000))))

section
variable (hl : top + 1 ∈ [3, 4, 5]) (hT : Tree fmt top root m) (hn : n < 2 ^ 64)
include hl hT hn

/-- A count that is refused makes it return false. -/
lemma Refused.ends (h : Refused fmt top root m addr n) :
    ∃ m', Ends fmt top root addr n m (.ok (false, m')) := by
  obtain ⟨k, pass, left, stop⟩ := h
  exact (arrives hl hT hn pass left.le).refused hl hT left stop

/-- A count that faults. -/
lemma Faults.ends (h : Faults fmt top root m addr n) :
    Ends fmt top root addr n m (.error .fault) := by
  obtain ⟨k, pass, left, upper, stop⟩ := h
  exact (arrives hl hT hn pass left.le).faults hl hT left upper stop

/-- A count that runs out makes it return true. -/
lemma RunsOut.ends (h : RunsOut fmt top root m addr n) :
    ∃ m', Ends fmt top root addr n m (.ok (true, m')) := by
  obtain ⟨k, pass, stop⟩ := h
  refine (arrives hl hT hn pass ?_).runsOut hl stop
  obtain eq | ⟨_, lt, _⟩ := stop
  · exact eq.ge
  · exact lt.le

omit hn in
/-- A block that can be passed has its upper tables. -/
lemma Passable.not_noUpper (h : Passable fmt top root m addr k) :
    ¬ NoUpper fmt top root m (addr + k * span 1) := by
  intro upper
  obtain ⟨g, hg⟩ | ⟨⟨v, t, hv⟩, _⟩ := h
  · rw [path_block hl, tableAt_append, upper] at hg
    cases hg
  · rw [upper.lookup hT hl] at hv
    cases hv

/-- A count that starts again ends in `false` or in a fault. -/
lemma Wraps.ends (h : Wraps fmt top root m addr n) :
    (Refused fmt top root m addr (n + 2 ^ 64) ∧
      ∃ m', Ends fmt top root addr n m (.ok (false, m'))) ∨
    (¬ Refused fmt top root m addr (n + 2 ^ 64) ∧ Ends fmt top root addr n m (.error .fault)) := by
  obtain ⟨k₀, hk, pass₀, huge, eq⟩ := h
  have upTo : ∀ k ≤ k₀, Passable fmt top root m addr k := by
    intro k le
    obtain rfl | lt := Nat.eq_or_lt_of_le le
    · exact .inr ⟨huge, hk⟩
    · exact pass₀ k lt
  by_cases refused : Refused fmt top root m addr (n + 2 ^ 64)
  · refine .inl ⟨refused, ?_⟩
    obtain ⟨k, pass, left, stop⟩ := refused
    have lt : k₀ < k := by
      by_contra le
      obtain upper | ⟨_, _, short⟩ := stop
      · exact (upTo k (by omega)).not_noUpper hl hT upper
      · have := needed_mono (not_lt.mp le) pass₀
        omega
    exact (arrives_wrapped hl hT hn hk huge eq lt pass left.le).refused hl hT left stop
  · refine .inr ⟨refused, ?_⟩
    obtain h | ⟨k, pass, left, upper, stop⟩ | ⟨k, pass, stop⟩ | ⟨k, _, pass, _, e⟩ :=
      outcomes fmt top root addr (n + 2 ^ 64) m
    · exact absurd h refused
    · have lt : k₀ < k := by
        by_contra le
        exact stop (upTo k (not_lt.mp le))
      exact (arrives_wrapped hl hT hn hk huge eq lt pass left.le).faults hl hT left upper stop
    · -- the count is longer than the way round
      obtain e | ⟨table, _, short⟩ := stop
      · have := needed_lt_of_wraps hl hT hk huge pass
        omega
      · have := needed_lt_of_wraps hl hT hk huge (Nat.forall_lt_succ_right.mpr ⟨pass, .inl table⟩)
        omega
    · have := needed_lt_of_wraps hl hT hk huge pass
      omega

/-- The loop keeps off absent tables exactly in the cases of `KeepsOff`. -/
lemma neverNull_iff : NeverNull fmt top root addr n m ↔ KeepsOff fmt top root addr n m := by
  unfold NeverNull KeepsOff
  by_cases wraps : Wraps fmt top root m addr n
  · rw [and_iff_right wraps, iff_true_intro wraps, not_true, false_and, or_false]
    obtain ⟨refused, m', e⟩ | ⟨refused, e⟩ := wraps.ends hl hT hn
    · refine iff_of_true ⟨fun e' => ?_, fun _ => ⟨m', e⟩⟩ refused
      cases e.unique e'
    · exact iff_of_false (fun h => h.1 e) refused
  · rw [iff_false_intro wraps, false_and, false_or, not_false_iff, true_and]
    obtain refused | faults | runsOut | h := outcomes fmt top root addr n m
    · obtain ⟨m', e⟩ := refused.ends hl hT hn
      refine iff_of_true ⟨fun e' => ?_, fun _ => ⟨m', e⟩⟩ (.inl refused)
      cases e.unique e'
    · -- a null pointer among the tables is dereferenced
      have e := faults.ends hl hT hn
      refine iff_of_false (fun h => h.1 e) ?_
      rintro (refused | ⟨all, _⟩)
      · obtain ⟨m', e'⟩ := refused.ends hl hT hn
        cases e.unique e'
      · obtain ⟨k, pass, left, _, stop⟩ := faults
        exact stop (all k pass left)
    · obtain ⟨m', e⟩ := runsOut.ends hl hT hn
      have notRefused : ¬ Refused fmt top root m addr n := by
        intro refused
        obtain ⟨_, e'⟩ := refused.ends hl hT hn
        cases e.unique e'
      have notFaults : ¬ Faults fmt top root m addr n := by
        intro faults
        cases e.unique (faults.ends hl hT hn)
      constructor
      · rintro ⟨_, refuses⟩
        refine .inr ⟨?_, ?_⟩
        · intro k pass left
          by_contra stop
          by_cases upper : NoUpper fmt top root m (addr + k * span 1)
          · exact notRefused ⟨k, pass, left, .inl upper⟩
          · exact notFaults ⟨k, pass, left, upper, stop⟩
        · intro i hi missing
          obtain ⟨_, e'⟩ := refuses ⟨i, hi, missing⟩
          cases e.unique e'
      · rintro (refused | ⟨_, none⟩)
        · exact absurd refused notRefused
        · refine ⟨fun e' => ?_, ?_⟩
          · cases e.unique e'
          · rintro ⟨i, hi, missing⟩
            exact absurd missing (none i hi)
    · exact absurd h wraps

end

end Outcomes

namespace Arch

/-- A page table: the root is a table's page, every entry is empty, a leaf or a table, and no page is a
table twice. -/
def PageTable : Arch → Nat → PhysMem → Prop
  | riscv64 c, root, m => c.hhdm.TablePage root ∧ Tree (Riscv64.format c.hhdm) c.top root m
  | x86 h, root, m => X86.TablePage h root ∧ Tree (X86.format h) 3 root m

variable {a : Arch} {root addr n : Nat} {m : PhysMem}

/-- A reachable memory is a page table. -/
lemma Reachable.pageTable (h : a.Reachable root m) : a.PageTable root m := by
  cases a with
  | riscv64 c => exact Riscv64.Reachable.tree h
  | x86 _ => exact X86.Reachable.tree h

/-- A page table is a tree. -/
lemma PageTable.tree (h : a.PageTable root m) : Tree a.format a.top root m := by
  cases a with
  | riscv64 c => exact h.2
  | x86 _ => exact h.2

/-- `vmm_unmap` is the loop over the blocks. -/
lemma PageTable.vmmUnmap_eq {fuel : Nat} (h : a.PageTable root m) :
    a.vmmUnmap (0x1000 * root) fuel addr n m = unmapRange a.format a.top root fuel addr n m := by
  cases a with
  | riscv64 c => exact Riscv64.vmmUnmap_eq h.2 h.1
  | x86 _ => exact X86.vmmUnmap_eq h.2 h.1

/-- `vmm_unmap` writes to no absent table, and returns `false` where a page of the range lacks one. -/
def KeepsOffNull (a : Arch) (root addr n : Nat) (m : PhysMem) : Prop :=
  (∀ fuel, a.vmmUnmap (0x1000 * root) fuel addr n m ≠ some (.error .fault)) ∧
    ((∃ i < n, Missing a.format a.top root m (addr + i * 0x1000)) →
      ∃ fuel m', a.vmmUnmap (0x1000 * root) fuel addr n m = some (.ok (false, m')))

end Arch

/-- In every page table, for every range: `vmm_unmap` writes to no absent table and refuses a range that
lacks one if and only if, going from block to block, its count starts again and a block without upper
table comes first, or it is stopped within its count by such a block or by a leaf that is too long, or
it gets past all it comes to and no page of the range lacks a table. -/
theorem vmmUnmap_keepsOffNull_iff {a : Arch} {root addr n : Nat} {m : PhysMem}
    (h : a.PageTable root m) (hn : n < 2 ^ 64) :
    a.KeepsOffNull root addr n m ↔ KeepsOff a.format a.top root addr n m := by
  rw [← neverNull_iff Arch.top_mem h.tree hn]
  unfold Arch.KeepsOffNull NeverNull Ends
  simp only [h.vmmUnmap_eq, not_exists, ne_eq]
  refine and_congr_right fun _ => forall_congr' fun _ => ?_
  rw [exists_comm]

section Samples
open Riscv64

/-- Next to mapped pages, an address with no upper table: the call is refused. -/
theorem vmmUnmap_keepsOffNull_iff_far :
    ∃ m, (Arch.riscv64 sv48).PageTable 1 m ∧ (Arch.riscv64 sv48).KeepsOffNull 1 0x8000000000 1 m := by
  have valid : Valid sv48 1 (mapPages 2 6) zeroedMem :=
    ⟨mapPages_placed (by decide) (by decide), by decide⟩
  obtain ⟨hr, hT⟩ := zeroedMem_reachable.tree
  obtain ⟨m, e, mapped⟩ | ⟨e, _⟩ := valid.exec_spec hT hr
  · have table : (Arch.riscv64 sv48).PageTable 1 m := ⟨hr, mapped.tree⟩
    refine ⟨m, table, (vmmUnmap_keepsOffNull_iff table (by decide)).mpr (.inr ⟨?_, .inl ⟨0, ?_⟩⟩)⟩
    · rintro ⟨k, _, _, _, eq⟩
      omega
    · refine ⟨by omega, by simp [needed, leaves], .inl ?_⟩
      cases e
      rfl
  · cases e

/-- One page in the block after mapped pages: only the last table is missing, and it is written to. -/
theorem vmmUnmap_writes_null :
    ∃ m, (Arch.riscv64 sv48).Reachable 1 m ∧
      Missing (Arch.riscv64 sv48).format (Arch.riscv64 sv48).top 1 m 0x200000 ∧
      (Arch.riscv64 sv48).vmmUnmap 0x1000 1 0x200000 1 m = some (.error .fault) ∧
      ¬ (Arch.riscv64 sv48).KeepsOffNull 1 0x200000 1 m := by
  have valid : Valid sv48 1 (mapPages 2 6) zeroedMem :=
    ⟨mapPages_placed (by decide) (by decide), by decide⟩
  obtain ⟨hr, hT⟩ := zeroedMem_reachable.tree
  obtain ⟨m, e, mapped⟩ | ⟨e, _⟩ := valid.exec_spec hT hr
  · have reach : (Arch.riscv64 sv48).Reachable 1 m := .map zeroedMem_reachable valid e
    have fault : (Arch.riscv64 sv48).vmmUnmap 0x1000 1 0x200000 1 m = some (.error .fault) := by
      cases e
      rfl
    refine ⟨m, reach, .inr ?_, fault, fun keeps => keeps.1 1 fault⟩
    cases e
    exact ⟨⟨_, rfl⟩, rfl, rfl⟩
  · cases e

end Samples

end WivOS.Vmm
