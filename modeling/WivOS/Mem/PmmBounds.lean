import WivOS.Mem.PmmInit
import WivOS.Mem.PmmRuns

/-!
# Bits past the end of the bitmap

C `pmm_alloc_advanced` bounds the index it scans from by `PmmLength`, not the `count` bits it reads and
marks from there. To say which bits a call touches, the same code is run over a store in which only
the bits below `PmmLength` can be reached (`Guarded`): a call that returns there touches no bit past
the end. Over a guarded store a range is clear or blocked as in the store itself, cut off at the limit
(`guard_clear`, `guard_blocked`).

`FitsBelow` is the state of the bitmap in which a request does no harm: every index the scan visits
with fewer than `count` bits left has a set bit before the end.
-/

namespace WivOS.Mem
open WivOS.Lib

/-- A store of which only the bits below `limit` can be reached. -/
structure Guarded (σ : Type) where
  limit : Nat
  store : σ

section Guard
variable {σ : Type} [PageStore σ]

omit [PageStore σ] in
/-- What a guarded access needs. -/
lemma guarded_isSome {limit span i : Nat} {o : Option σ} (h : o.isSome ↔ i < span) :
    (if i < limit then o.map (Guarded.mk limit) else none).isSome ↔ i < min limit span := by
  split_ifs with hi
  · simp only [Option.isSome_map, h]
    omega
  · simp only [Option.isSome_none, Bool.false_eq_true, false_iff]
    omega

omit [PageStore σ] in
/-- A guarded test of a bit. -/
lemma guarded_test {limit span i : Nat} {b : Bool} :
    (if i < limit then if i < span then some b else none else none) =
      if i < min limit span then some b else none := by
  split_ifs <;> first | rfl | omega

instance : PageStore (Guarded σ) where
  span g := min g.limit (BitStore.span g.store)
  bit g := BitStore.bit g.store
  testBit g i := if i < g.limit then BitStore.testBit g.store i else none
  setBit g i :=
    if i < g.limit then (BitStore.setBit g.store i).map (Guarded.mk g.limit) else none
  resetBit g i :=
    if i < g.limit then (BitStore.resetBit g.store i).map (Guarded.mk g.limit) else none
  memset g a c n := (PageStore.memset g.store a c n).map (Guarded.mk g.limit)
  testBit_eq g i := by
    rw [BitStore.testBit_eq]
    exact guarded_test
  setBit_isSome g i := guarded_isSome (BitStore.setBit_isSome g.store i)
  setBit_some := by
    intro g i g' h
    simp only [Option.ite_none_right_eq_some, Option.map_eq_some_iff] at h
    obtain ⟨_, s, hs, rfl⟩ := h
    obtain ⟨h1, h2⟩ := BitStore.setBit_some hs
    exact ⟨by simp only [h1], h2⟩
  resetBit_isSome g i := guarded_isSome (BitStore.resetBit_isSome g.store i)
  resetBit_some := by
    intro g i g' h
    simp only [Option.ite_none_right_eq_some, Option.map_eq_some_iff] at h
    obtain ⟨_, s, hs, rfl⟩ := h
    obtain ⟨h1, h2⟩ := BitStore.resetBit_some hs
    exact ⟨by simp only [h1], h2⟩
  memset_span := by
    intro g a c n g' h
    obtain ⟨s, hs, rfl⟩ := Option.map_eq_some_iff.mp h
    simp only [PageStore.memset_span hs]
  span_le g := (min_le_right _ _).trans (PageStore.span_le g.store)

/-- The allocator with its bits past `PmmLength` out of reach. -/
def Pmm.guard (p : Pmm σ) : Pmm (Guarded σ) :=
  ⟨⟨p.pmmLength, p.pmmBitmap⟩, p.pmmLength, p.pmmFreePages, p.memPhysOffset, p.pmmLength_lt⟩

/-- Lift the guard again. -/
def Pmm.unguard (p : Pmm (Guarded σ)) : Pmm σ :=
  ⟨p.pmmBitmap.store, p.pmmLength, p.pmmFreePages, p.memPhysOffset, p.pmmLength_lt⟩

/-- The callers of an allocator with its bits past `PmmLength` out of reach. -/
def Client.guard (t : Client σ) : Client (Guarded σ) := ⟨t.pmm.guard, t.live⟩

/-- A range is clear below `PmmLength` if it is clear and ends there. -/
lemma guard_clear {p : Pmm σ} {lo n} :
    Clear p.guard.pmmBitmap lo n ↔ Clear p.pmmBitmap lo n ∧ (n = 0 ∨ lo + n ≤ p.pmmLength) := by
  constructor
  · intro h
    have hs : ∀ i, lo ≤ i → i < lo + n →
        i < min p.pmmLength (BitStore.span p.pmmBitmap) := fun i h1 h2 => (h i h1 h2).1
    refine ⟨fun i h1 h2 => ⟨?_, (h i h1 h2).2⟩, ?_⟩
    · have := hs i h1 h2
      omega
    · by_cases h0 : n = 0
      · exact .inl h0
      · have := hs (lo + n - 1) (by omega) (by omega)
        omega
  · rintro ⟨h, hn⟩ i h1 h2
    obtain ⟨h3, h4⟩ := h i h1 h2
    refine ⟨?_, h4⟩
    show i < min p.pmmLength (BitStore.span p.pmmBitmap)
    omega

/-- It is blocked below `PmmLength` by a bit below. -/
lemma guard_blocked {p : Pmm σ} {lo n} :
    Blocked p.guard.pmmBitmap lo n ↔ Blocked p.pmmBitmap lo (min n (p.pmmLength - lo)) := by
  constructor
  · rintro ⟨i, h1, h2, h3, h4, h5⟩
    replace h3 : i < min p.pmmLength (BitStore.span p.pmmBitmap) := h3
    exact ⟨i, h1, by omega, by omega, h4, h5⟩
  · rintro ⟨i, h1, h2, h3, h4, h5⟩
    refine ⟨i, h1, by omega, ?_, h4, h5⟩
    show i < min p.pmmLength (BitStore.span p.pmmBitmap)
    omega

/-- A longer range is blocked as well. -/
lemma Blocked.mono {s : σ} {lo n m} (h : Blocked s lo n) (hm : n ≤ m) : Blocked s lo m := by
  obtain ⟨i, h1, h2, h3⟩ := h
  exact ⟨i, h1, by omega, h3⟩

/-- What is read over the guarded store is read over the store itself. -/
lemma isBitmapPageFree_unguard {p : Pmm σ} {i n b}
    (h : isBitmapPageFree p.guard.pmmBitmap i n = some b) :
    isBitmapPageFree p.pmmBitmap i n = some b := by
  cases b with
  | true => exact isBitmapPageFree_eq_true.mpr (guard_clear.mp (isBitmapPageFree_eq_true.mp h)).1
  | false =>
    have := guard_blocked.mp (isBitmapPageFree_eq_false.mp h)
    exact isBitmapPageFree_eq_false.mpr (this.mono (by omega))

/-- A guarded search that does not fault is the search. -/
lemma allocScan_unguard {p : Pmm σ} {count alignment fuel index r}
    (h : allocScan p.guard count alignment fuel index = some r) :
    allocScan p count alignment fuel index = some r := by
  induction fuel generalizing index with
  | zero => simp [allocScan] at h
  | succ fuel ih =>
    unfold allocScan at h ⊢
    by_cases hi : index < p.pmmLength
    · have hg : index < p.guard.pmmLength := hi
      simp only [hg, ↓reduceIte, Option.bind_eq_bind, Option.bind_eq_some_iff] at h
      obtain ⟨b, hb, h⟩ := h
      simp only [hi, ↓reduceIte, isBitmapPageFree_unguard hb, Option.bind_eq_bind, Option.bind_some]
      split_ifs at h ⊢
      · exact h
      · exact ih h
    · have hg : ¬ index < p.guard.pmmLength := hi
      simpa [hi, hg] using h

/-- The same for the marking of a range. -/
lemma setBits_unguard {g g' : Guarded σ} {i n} (h : setBits g i n = some g') :
    setBits g.store i n = some g'.store := by
  induction n generalizing g i with
  | zero =>
    cases h
    rfl
  | succ n ih =>
    simp only [setBits, Option.bind_eq_bind, Option.bind_eq_some_iff] at h ⊢
    obtain ⟨t, ht, h⟩ := h
    simp only [BitStore.setBit, Option.ite_none_right_eq_some, Option.map_eq_some_iff] at ht
    obtain ⟨_, s, hs, rfl⟩ := ht
    exact ⟨s, hs, ih h⟩

/-- A call that returns over the guarded store returns the same over the store itself. -/
lemma pmmAllocAdvanced_unguard {p : Pmm σ} {count alignment addr p'}
    (h : pmmAllocAdvanced p.guard count alignment = some (addr, p')) :
    pmmAllocAdvanced p count alignment = some (addr, p'.unguard) := by
  unfold pmmAllocAdvanced at h ⊢
  simp only [Option.bind_eq_bind, Option.bind_eq_some_iff] at h ⊢
  obtain ⟨r, hr, h⟩ := h
  refine ⟨r, allocScan_unguard hr, ?_⟩
  cases r with
  | none =>
    cases h
    rfl
  | some i =>
    simp only [Option.bind_eq_some_iff] at h ⊢
    obtain ⟨bm, hbm, h⟩ := h
    cases h
    exact ⟨bm.store, setBits_unguard hbm, rfl⟩

/-- Every index the scan visits with fewer than `count` bits left below `PmmLength` has a set bit
among these. -/
def FitsBelow (p : Pmm σ) (count alignment : Nat) : Prop :=
  ∀ j, alignment ∣ j → j < p.pmmLength →
    (∀ k, k < j → alignment ∣ k → Blocked p.pmmBitmap k count) →
    p.pmmLength < j + count → Blocked p.pmmBitmap j (p.pmmLength - j)

/-- An index that a returning scan visits is clear or blocked. -/
lemma allocScan_visited {p : Pmm σ} {count alignment fuel r j} (hal : alignment < 2 ^ 64)
    (h : allocScan p count alignment fuel 0 = some r) (hd : alignment ∣ j) (hj : j < p.pmmLength)
    (before : ∀ k, k < j → alignment ∣ k → Blocked p.pmmBitmap k count) :
    Clear p.pmmBitmap j count ∨ Blocked p.pmmBitmap j count := by
  cases r with
  | none => exact .inr (allocScan_end hal (dvd_zero _) h j (Nat.zero_le j) hj hd)
  | some i =>
    obtain ⟨_, hdi, _, hclear, hfirst⟩ := allocScan_found hal (dvd_zero _) h
    rcases Nat.lt_trichotomy j i with hlt | rfl | hgt
    · exact .inr (hfirst j (Nat.zero_le j) hlt hd)
    · exact .inl hclear
    · exact absurd hclear (before i hgt hdi).not_clear

/-- The scan stays below `PmmLength` exactly where the request fits below it. -/
lemma allocScan_guard_isSome {p : Pmm σ} {count alignment r} (hc : 1 ≤ count)
    (hal1 : 1 ≤ alignment) (hal : alignment < 2 ^ 64)
    (h : allocScan p count alignment (p.pmmLength + 1) 0 = some r) :
    (allocScan p.guard count alignment (p.pmmLength + 1) 0).isSome ↔ FitsBelow p count alignment := by
  constructor
  · intro hg j hd hj before hend
    obtain ⟨r', hr'⟩ := Option.isSome_iff_exists.mp hg
    -- an earlier index is blocked in the store, so the guarded scan does not find it clear
    have before' : ∀ k, k < j → alignment ∣ k → Blocked p.guard.pmmBitmap k count := by
      intro k
      induction k using Nat.strong_induction_on with
      | _ k ih =>
        intro hk hdk
        obtain hcl | hbl := allocScan_visited (p := p.guard) hal hr' hdk (Nat.lt_trans hk hj)
          fun l hl hdl => ih l hl (by omega) hdl
        · exact absurd (guard_clear.mp hcl).1 (before k hk hdk).not_clear
        · exact hbl
    have hcut : min count (p.pmmLength - j) = p.pmmLength - j := by omega
    rw [← hcut]
    obtain hcl | hbl := allocScan_visited (p := p.guard) hal hr' hd hj before'
    · have := (guard_clear.mp hcl).2
      omega
    · exact guard_blocked.mp hbl
  · intro fits
    by_contra hn
    have hn := Option.not_isSome_iff_eq_none.mp hn
    obtain ⟨j, _, hj, hd, before, hnone⟩ :=
      allocScan_none (p := p.guard) hal1 hal (dvd_zero _) (by omega)
        (by show p.pmmLength < _; omega) hn
    have before' : ∀ k, k < j → alignment ∣ k → Blocked p.pmmBitmap k count := fun k hk hdk =>
      (guard_blocked.mp (before k (Nat.zero_le k) hk hdk)).mono (by omega)
    by_cases hend : p.pmmLength < j + count
    · have hb := fits j hd hj before' hend
      have : isBitmapPageFree p.guard.pmmBitmap j count = some false := by
        rw [isBitmapPageFree_eq_false, guard_blocked]
        exact hb.mono (by omega)
      rw [hnone] at this
      contradiction
    · obtain hcl | hbl := allocScan_visited hal h hd hj before'
      · have : isBitmapPageFree p.guard.pmmBitmap j count = some true := by
          rw [isBitmapPageFree_eq_true, guard_clear]
          exact ⟨hcl, by omega⟩
        rw [hnone] at this
        contradiction
      · have : isBitmapPageFree p.guard.pmmBitmap j count = some false := by
          rw [isBitmapPageFree_eq_false, guard_blocked]
          exact hbl.mono (by omega)
        rw [hnone] at this
        contradiction

/-- C `pmm_alloc_advanced` touches no bit past the end exactly where the request fits below it. -/
lemma pmmAllocAdvanced_guard_isSome {p : Pmm σ} {count alignment r} (hc : 1 ≤ count)
    (hal1 : 1 ≤ alignment) (hal : alignment < 2 ^ 64)
    (h : pmmAllocAdvanced p count alignment = some r) :
    (pmmAllocAdvanced p.guard count alignment).isSome ↔ FitsBelow p count alignment := by
  have hscan : ∃ i, allocScan p count alignment (p.pmmLength + 1) 0 = some i := by
    unfold pmmAllocAdvanced at h
    simp only [Option.bind_eq_bind, Option.bind_eq_some_iff] at h
    exact ⟨_, h.choose_spec.1⟩
  obtain ⟨i, hi⟩ := hscan
  rw [← allocScan_guard_isSome hc hal1 hal hi]
  constructor
  · intro hg
    obtain ⟨r', hr'⟩ := Option.isSome_iff_exists.mp hg
    unfold pmmAllocAdvanced at hr'
    simp only [Option.bind_eq_bind, Option.bind_eq_some_iff] at hr'
    exact Option.isSome_iff_exists.mpr ⟨_, hr'.choose_spec.1⟩
  · intro hg
    obtain ⟨_ | k, hk⟩ := Option.isSome_iff_exists.mp hg
    · unfold pmmAllocAdvanced
      show (Option.bind (allocScan p.guard count alignment (p.pmmLength + 1) 0) _).isSome
      rw [hk]
      rfl
    · obtain ⟨_, _, hlt, hclear, _⟩ := allocScan_found hal (dvd_zero _) hk
      have hend := hclear.end_le hc
      have hspan := PageStore.span_le p.guard.pmmBitmap
      have hn : (count + k) % 2 ^ 64 - k = count := by omega
      obtain ⟨bm, hbm⟩ := Option.isSome_iff_exists.mp (setBits_isSome (.inr hend))
      unfold pmmAllocAdvanced
      show (Option.bind (allocScan p.guard count alignment (p.pmmLength + 1) 0) _).isSome
      rw [hk]
      simp only [Option.bind_some, hn, Option.bind_eq_bind, hbm, Option.isSome_some]

/-- Zeroing the pages touches no bit by itself. -/
lemma exec_alloc_guard_isSome {t t' : Client σ} {count addr}
    (h : t.exec (.alloc count) = some (addr, t')) :
    (t.guard.exec (.alloc count)).isSome ↔ (pmmAllocAdvanced t.pmm.guard count 1).isSome := by
  obtain ⟨p, s, hp, hs, _⟩ := exec_alloc h
  constructor
  · intro hg
    obtain ⟨⟨a, u⟩, hu⟩ := Option.isSome_iff_exists.mp hg
    obtain ⟨q, _, hq, _⟩ := exec_alloc hu
    exact Option.isSome_iff_exists.mpr ⟨_, hq⟩
  · intro hg
    obtain ⟨⟨a, q⟩, hq⟩ := Option.isSome_iff_exists.mp hg
    have hu := pmmAllocAdvanced_unguard hq
    rw [hp] at hu
    cases hu
    have hm : PageStore.memset q.pmmBitmap addr 0 (0x1000 * count % 2 ^ 64) =
        some ⟨q.pmmBitmap.limit, s⟩ :=
      Option.map_eq_some_iff.mpr ⟨s, hs, rfl⟩
    have hq' : pmmAllocAdvanced t.guard.pmm count 1 = some (addr, q) := hq
    simp only [Client.exec, pmmAlloc, hq', Option.bind_eq_bind, Option.bind_some, hm,
      Option.isSome_some]

/-- C `pmm_free` touches no bit past the end exactly on pages below it. -/
lemma pmmFree_guard_isSome {p p' : Pmm σ} {addr count} (hc : 1 ≤ count)
    (h : pmmFree p addr count = some p') :
    (pmmFree p.guard addr count).isSome ↔ addr / 0x1000 + count ≤ p.pmmLength := by
  unfold pmmFree at h ⊢
  simp only [Option.ite_none_left_eq_some, Option.bind_eq_bind, Option.bind_eq_some_iff] at h
  obtain ⟨ho, bm, hbm, _⟩ := h
  have hspan := (resetBits_some hbm).2.2
  have ho' : ¬ p.guard.memPhysOffset ≤ addr := ho
  simp only [ho', ↓reduceIte, Option.bind_eq_bind]
  constructor
  · intro hg
    obtain ⟨r, hr⟩ := Option.isSome_iff_exists.mp hg
    simp only [Option.bind_eq_some_iff] at hr
    obtain ⟨g, hg, _⟩ := hr
    obtain h0 | hle := (resetBits_some hg).2.2
    · omega
    · exact Nat.le_trans hle (Nat.min_le_left _ _)
  · intro hle
    have hin : addr / 0x1000 + count ≤ BitStore.span p.guard.pmmBitmap := by
      show _ ≤ min p.pmmLength (BitStore.span p.pmmBitmap)
      omega
    obtain ⟨g, hg⟩ := Option.isSome_iff_exists.mp (resetBits_isSome (.inr hin))
    rw [hg]
    rfl

/-- The state in which a call does no harm. -/
def Call.FitsBelow (t : Client σ) : Call → Prop
  | .allocAdvanced count alignment => Mem.FitsBelow t.pmm count alignment
  | .alloc count => Mem.FitsBelow t.pmm count 1
  | .free _ _ => True

/-- A call, given or returning `addr`, touches no bit past `PmmLength`, and its pages end there. -/
def Call.StaysBelow (t : Client σ) (c : Call) (addr : Nat) : Prop :=
  (t.guard.exec c).isSome ∧ (addr ≠ 0 → addr / 0x1000 + c.count ≤ t.pmm.pmmLength)

/-- One call in a state in which it does no harm. -/
def BoundedStep (t t' : Client σ) : Prop :=
  ∃ c addr, Call.Valid t c ∧ t.exec c = some (addr, t') ∧ Call.FitsBelow t c

/-- The outstanding allocations are not empty and end below `PmmLength`. -/
def LiveBelow (t : Client σ) : Prop :=
  ∀ a ∈ t.live, 1 ≤ a.2 ∧ a.1 / 0x1000 + a.2 ≤ t.pmm.pmmLength

/-- Where an allocating call touches no bit past the end, the pages it takes end there. -/
lemma pmmAllocAdvanced_guard_end {p p' : Pmm σ} {count alignment addr} (hc : 1 ≤ count)
    (hal : alignment < 2 ^ 64) (h : pmmAllocAdvanced p count alignment = some (addr, p'))
    (hg : (pmmAllocAdvanced p.guard count alignment).isSome) (h0 : addr ≠ 0) :
    addr / 0x1000 + count ≤ p.pmmLength := by
  obtain ⟨⟨a, q⟩, hr⟩ := Option.isSome_iff_exists.mp hg
  have hu := pmmAllocAdvanced_unguard hr
  rw [h] at hu
  cases hu
  obtain ⟨i, fit, ha, _⟩ | ⟨ha, _⟩ := pmmAllocAdvanced_cases hc hal hr
  · have := (guard_clear.mp fit.clear).2
    omega
  · exact absurd ha h0

/-- A call stays below `PmmLength` exactly in a state in which it does no harm. -/
lemma Call.staysBelow_iff {t t' : Client σ} {c addr} (below : LiveBelow t) (hv : Call.Valid t c)
    (h : t.exec c = some (addr, t')) : c.StaysBelow t addr ↔ c.FitsBelow t := by
  cases c with
  | allocAdvanced count alignment =>
    obtain ⟨p, hp, rfl⟩ := exec_allocAdvanced h
    have hiff := pmmAllocAdvanced_guard_isSome hv.1 hv.2.2.1 hv.2.2.2 hp
    have hex : (t.guard.exec (.allocAdvanced count alignment)).isSome ↔
        (pmmAllocAdvanced t.pmm.guard count alignment).isSome := by
      simp [Client.exec, Client.guard, Option.isSome_bind]
    rw [StaysBelow, hex, FitsBelow, ← hiff]
    exact ⟨And.left, fun hg => ⟨hg, pmmAllocAdvanced_guard_end hv.1 hv.2.2.2 hp hg⟩⟩
  | alloc count =>
    obtain ⟨p, s, hp, hs, rfl⟩ := exec_alloc h
    have hiff := pmmAllocAdvanced_guard_isSome hv.1 le_rfl (by omega) hp
    rw [StaysBelow, exec_alloc_guard_isSome h, FitsBelow, ← hiff]
    exact ⟨And.left, fun hg => ⟨hg, pmmAllocAdvanced_guard_end hv.1 (by omega) hp hg⟩⟩
  | free a count =>
    obtain ⟨p, hp, rfl, rfl⟩ := exec_free h
    obtain ⟨hc, hend⟩ := below _ hv
    have hex : (t.guard.exec (.free addr count)).isSome ↔
        (pmmFree t.pmm.guard addr count).isSome := by
      simp [Client.exec, Client.guard, Option.isSome_bind]
    rw [StaysBelow, hex, pmmFree_guard_isSome hc hp, FitsBelow, iff_true]
    exact ⟨hend, fun _ => hend⟩

/-- `pmm_alloc_advanced` leaves `PmmLength`. -/
lemma pmmAllocAdvanced_length {p p' : Pmm σ} {count alignment addr} (hc : 1 ≤ count)
    (hal : alignment < 2 ^ 64) (h : pmmAllocAdvanced p count alignment = some (addr, p')) :
    p'.pmmLength = p.pmmLength := by
  obtain ⟨_, _, _, taken⟩ | ⟨_, rfl, _⟩ := pmmAllocAdvanced_cases hc hal h
  · exact taken.length
  · rfl

/-- So does every call. -/
lemma exec_length {t t' : Client σ} {c addr} (hv : Call.Valid t c)
    (h : t.exec c = some (addr, t')) : t'.pmm.pmmLength = t.pmm.pmmLength := by
  cases c with
  | allocAdvanced count alignment =>
    obtain ⟨p, hp, rfl⟩ := exec_allocAdvanced h
    exact pmmAllocAdvanced_length hv.1 hv.2.2.2 hp
  | alloc count =>
    obtain ⟨p, s, hp, _, rfl⟩ := exec_alloc h
    have hl := pmmAllocAdvanced_length hv.1 (by decide) hp
    exact hl
  | free a count =>
    obtain ⟨p, hp, _, rfl⟩ := exec_free h
    exact (pmmFree_some hp).2.2.1

/-- An allocation recorded by a call that stays below `PmmLength` ends there. -/
lemma exec_live {t t' : Client σ} {c addr} (hv : Call.Valid t c) (h : t.exec c = some (addr, t'))
    (a) (ha : a ∈ t'.live) :
    a ∈ t.live ∨ (a = (addr, c.count) ∧ addr ≠ 0 ∧ 1 ≤ c.count) := by
  have recorded : ∀ count, a ∈ record t.live addr count →
      a ∈ t.live ∨ (a = (addr, count) ∧ addr ≠ 0) := by
    intro count hr
    unfold record at hr
    split at hr
    · exact .inl hr
    · obtain rfl | hr := List.mem_cons.mp hr
      · exact .inr ⟨rfl, ‹_›⟩
      · exact .inl hr
  cases c with
  | allocAdvanced count alignment =>
    obtain ⟨p, hp, rfl⟩ := exec_allocAdvanced h
    exact (recorded count ha).imp_right fun ⟨e, h0⟩ => ⟨e, h0, hv.1⟩
  | alloc count =>
    obtain ⟨p, s, hp, _, rfl⟩ := exec_alloc h
    exact (recorded count ha).imp_right fun ⟨e, h0⟩ => ⟨e, h0, hv.1⟩
  | free a' count =>
    obtain ⟨p, hp, _, rfl⟩ := exec_free h
    exact .inl (List.mem_of_mem_erase ha)

/-- A call that stays below `PmmLength` keeps what is outstanding below it. -/
lemma LiveBelow.step {t t' : Client σ} (below : LiveBelow t) (st : BoundedStep t t') :
    LiveBelow t' := by
  obtain ⟨c, addr, hv, h, fits⟩ := st
  intro a ha
  rw [exec_length hv h]
  obtain hold | ⟨rfl, h0, hc⟩ := exec_live hv h a ha
  · exact below a hold
  · exact ⟨hc, ((c.staysBelow_iff below hv h).mpr fits).2 h0⟩

/-- So does a run of such calls. -/
lemma LiveBelow.run {p : Pmm σ} {t} (run : Relation.ReflTransGen BoundedStep ⟨p, []⟩ t) :
    LiveBelow t := by
  induction run with
  | refl => exact fun a ha => absurd ha (by simp)
  | tail _ st ih => exact ih.step st

end Guard

/-- From every state of the allocator, such as those `pmm_init` ends in, in every run of calls each
made where it fits below `PmmLength`, the next call stays below `PmmLength` if and only if it fits
there too. -/
theorem stays_below_iff_fits (p : Pmm RamBitmap) {t : Client RamBitmap}
    (run : Relation.ReflTransGen BoundedStep ⟨p, []⟩ t) {c addr t'} (hv : Call.Valid t c)
    (h : t.exec c = some (addr, t')) : Call.StaysBelow t c addr ↔ Call.FitsBelow t c :=
  c.staysBelow_iff (LiveBelow.run run) hv h

/-- The allocator after `pmm_init` on the pages 3 to 7 of zeroed memory, and a call made then. -/
def afterFivePages (c : Call) : Option (Pmm RamBitmap × Nat × Client RamBitmap) := do
  let p ← pmmInit 0xFFFF800000000000 [fivePages] (filledRam 0)
  let (addr, t) ← (Client.mk p []).exec c
  some (p, addr, t)

/-- `pmm_init` and the call after it. -/
lemma afterFivePages_some {c p addr t} (h : afterFivePages c = some (p, addr, t)) :
    pmmInit 0xFFFF800000000000 [fivePages] (filledRam 0) = some p ∧
      (Client.mk p []).exec c = some (addr, t) := by
  simp only [afterFivePages, Option.bind_eq_bind, Option.bind_eq_some_iff, Option.some.injEq,
    Prod.mk.injEq] at h
  obtain ⟨p', hp, ⟨a, u⟩, hu, rfl, rfl, rfl⟩ := h
  exact ⟨hp, hu⟩

/-- Two of the five pages. -/
theorem stays_below_iff_fits_fivePages :
    ∃ p addr t, pmmInit 0xFFFF800000000000 [fivePages] (filledRam 0) = some p ∧
      (Client.mk p []).exec (.allocAdvanced 2 1) = some (addr, t) ∧
      (Call.StaysBelow ⟨p, []⟩ (.allocAdvanced 2 1) addr ↔
        Call.FitsBelow ⟨p, []⟩ (.allocAdvanced 2 1)) := by
  have h : (afterFivePages (.allocAdvanced 2 1)).isSome := by decide
  obtain ⟨⟨p, addr, t⟩, hr⟩ := Option.isSome_iff_exists.mp h
  obtain ⟨hp, ht⟩ := afterFivePages_some hr
  exact ⟨p, addr, t, hp, ht, stays_below_iff_fits p .refl (by simp [Call.Valid]) ht⟩

/-- Five pages are allocated from page 4 on of a memory of eight: page 8 is past the end. -/
theorem alloc_past_end :
    ∃ p addr t, pmmInit 0xFFFF800000000000 [fivePages] (filledRam 0) = some p ∧
      Call.Valid ⟨p, []⟩ (.allocAdvanced 5 1) ∧
      (Client.mk p []).exec (.allocAdvanced 5 1) = some (addr, t) ∧
      t.live = [(addr, 5)] ∧ p.pmmLength < addr / 0x1000 + 5 ∧
      ¬ Call.StaysBelow ⟨p, []⟩ (.allocAdvanced 5 1) addr := by
  have h : (afterFivePages (.allocAdvanced 5 1)).map
      (fun r => (r.1.pmmLength, r.2.1, r.2.2.live)) = some (8, 0x4000, [(0x4000, 5)]) := by decide
  obtain ⟨⟨p, addr, t⟩, hr, e⟩ := Option.map_eq_some_iff.mp h
  obtain ⟨hp, ht⟩ := afterFivePages_some hr
  simp only [Prod.mk.injEq] at e
  obtain ⟨hl, rfl, hlive⟩ := e
  refine ⟨p, _, t, hp, by simp [Call.Valid], ht, hlive, by omega, fun hs => ?_⟩
  have hend := hs.2 (by decide)
  simp only [Call.count] at hend
  omega

end WivOS.Mem
