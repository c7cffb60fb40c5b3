import WivOS.Mem.AllocRuns
import WivOS.Mem.PmmBounds

/-!
# The free-page counter

When `PmmFreePages` is the number of clear bits below `PmmLength`. `pmm_init` adds up the pages it
frees and then reserves pages 1 and 2 behind the counter's back; it agrees with the bitmap where the
bitmap fills whole pages, no stale bit is left and these two pages were not free (`InitCounts`). From
then on the counter is kept by calls that take no page past `PmmLength` and whose `memset` does not
run over the bitmap (`Call.Harmless`): `pmm_alloc` zeroes `count` pages from address 0 when it fails.

The invariant of such a run is `Counted`. Bits past `PmmLength` are taken as set in it (`mask`): what
they hold is ordinary memory.
-/

namespace WivOS.Mem
open WivOS.Lib

/-- The counter agrees with the bitmap when `pmm_init` returns. -/
structure InitCounts (entries : List MemmapEntry) (ram : Ram) (E : MemmapEntry) : Prop where
  whole_pages : endPage E / 8 % 0x1000 = 0
  tail : ∀ p, 8 * (endPage E / 8) ≤ p → p < endPage E → p ≠ 1 → p ≠ 2 → ¬ Reusable entries E p →
    priorBit ram E.base p = true
  trampoline : ∀ p, p = 1 ∨ p = 2 → p < endPage E → ¬ Reusable entries E p

section Init
variable {entries : List MemmapEntry} {ram : Ram} {E : MemmapEntry} {s : Pmm RamBitmap}

/-- The page ranges that `pmm_init` frees. -/
def freedRanges (entries : List MemmapEntry) (E : MemmapEntry) : List (Nat × Nat) :=
  (entries.filter fun e => e.type = .usable ∧ e.base ≤ E.base).map
    (freedPages E.base (newLength E))

/-- What `pmm_init` frees is in one of the ranges. -/
lemma freed_iff_ranges {i : Nat} :
    Freed entries E i ↔ ∃ r ∈ freedRanges entries E, r.1 ≤ i ∧ i < r.1 + r.2 := by
  simp only [Freed, FreedFor, freedRanges, List.mem_map, List.mem_filter, decide_eq_true_eq]
  constructor
  · rintro ⟨e, he, hu, hb, hi⟩
    exact ⟨_, ⟨e, ⟨he, hu, hb⟩, rfl⟩, hi⟩
  · rintro ⟨_, ⟨e, ⟨he, hu, hb⟩, rfl⟩, hi⟩
    exact ⟨e, he, hu, hb, hi⟩

/-- The counter adds up the lengths of the ranges. -/
lemma freedRanges_sum (entries : List MemmapEntry) (E : MemmapEntry) :
    ((freedRanges entries E).map Prod.snd).sum =
      (entries.map (freedCount E.base (newLength E))).sum := by
  induction entries with
  | nil => rfl
  | cons e es ih =>
    simp only [freedRanges, List.map_map] at ih ⊢
    rw [List.map_cons, List.sum_cons, ← ih, freedCount]
    by_cases h : e.type = .usable ∧ e.base ≤ E.base
    · simp [h]
    · simp [h]

/-- Where the bitmap fills whole pages, an entry frees nothing or pages of its own. -/
lemma InitAt.freedPages_own (wf : WellFormed entries) (at_ : InitAt entries ram E s)
    (whole : endPage E / 8 % 0x1000 = 0) {e} (he : e ∈ entries) (hu : e.type = .usable)
    (hb : e.base ≤ E.base) :
    (freedPages E.base (newLength E) e).2 = 0 ∨
      (e.base ≤ 0x1000 * (freedPages E.base (newLength E) e).1 ∧
        0x1000 * ((freedPages E.base (newLength E) e).1 + (freedPages E.base (newLength E) e).2) ≤
          e.base + e.length) := by
  by_cases h0 : (freedPages E.base (newLength E) e).2 = 0
  · exact .inl h0
  right
  -- the first and the last page freed lie in the entry
  have own : ∀ i, FreedFor E.base (newLength E) e i →
      e.base ≤ 0x1000 * i ∧ 0x1000 * i + 0x1000 ≤ e.base + e.length := by
    intro i hf
    obtain hlt | heq := Nat.lt_or_eq_of_le hb
    · exact (InitAt.freedFor_below wf he hu hlt i).mp hf
    · obtain rfl | ⟨_, h0'⟩ := at_.same_base wf he hu heq
      · have := (at_.freedFor_self wf i).mp hf
        rw [if_pos whole] at this
        omega
      · exact absurd h0' h0
  have hfirst := own _ ⟨hu, hb, le_rfl, by omega⟩
  have hlast := own ((freedPages E.base (newLength E) e).1 +
    (freedPages E.base (newLength E) e).2 - 1) ⟨hu, hb, by omega, by omega⟩
  omega

/-- The counter is the number of clear bits when `pmm_init` returns. -/
lemma InitAt.counts (wf : WellFormed entries) (at_ : InitAt entries ram E s)
    (hc : InitCounts entries ram E) :
    s.pmmFreePages = clearCount (BitStore.bit s.pmmBitmap) s.pmmLength := by
  have hlen : s.pmmLength = endPage E := at_.length.trans (at_.newLength_eq wf)
  have hq := at_.newLength_eq wf
  have own : ∀ r ∈ freedRanges entries E, ∃ e ∈ entries, e.type = .usable ∧ e.base ≤ E.base ∧
      (r.2 = 0 ∨ (e.base ≤ 0x1000 * r.1 ∧ 0x1000 * (r.1 + r.2) ≤ e.base + e.length)) := by
    intro r hr
    simp only [freedRanges, List.mem_map, List.mem_filter, decide_eq_true_eq] at hr
    obtain ⟨e, ⟨he, hu, hb⟩, rfl⟩ := hr
    exact ⟨e, he, hu, hb, at_.freedPages_own wf hc.whole_pages he hu hb⟩
  have inside : ∀ r ∈ freedRanges entries E, r.2 = 0 ∨ r.1 + r.2 ≤ endPage E := by
    intro r hr
    obtain ⟨e, he, hu, hb, h0 | ⟨_, hend⟩⟩ := own r hr
    · exact .inl h0
    · right
      have := wf.base_aligned E at_.mem at_.usable
      have := at_.long
      unfold endPage
      obtain rfl | h | h := wf.ordered he at_.mem <;> omega
  have apart : (freedRanges entries E).Pairwise fun a b =>
      ∀ i, a.1 ≤ i → i < a.1 + a.2 → ¬ (b.1 ≤ i ∧ i < b.1 + b.2) := by
    rw [freedRanges, List.pairwise_map]
    have hp := (wf.sorted.sublist List.filter_sublist :
      (entries.filter fun e => e.type = .usable ∧ e.base ≤ E.base).Pairwise _)
    refine hp.imp_of_mem fun {a b} ha hb hab i h1 h2 h3 => ?_
    simp only [List.mem_filter, decide_eq_true_eq] at ha hb
    have own_a := at_.freedPages_own wf hc.whole_pages ha.1 ha.2.1 ha.2.2
    have own_b := at_.freedPages_own wf hc.whole_pages hb.1 hb.2.1 hb.2.2
    omega
  have clear : ∀ i < endPage E, BitStore.bit s.pmmBitmap i = false ↔
      ∃ r ∈ freedRanges entries E, r.1 ≤ i ∧ i < r.1 + r.2 := by
    intro i hi
    rw [← freed_iff_ranges]
    have no12 : i = 1 ∨ i = 2 → ¬ Freed entries E i := fun h12 hf =>
      hc.trampoline i h12 hi ((at_.freed_lt wf hi).mp hf)
    by_cases h12 : i = 1 ∨ i = 2
    · simp [at_.reserved i h12, no12 h12]
    · obtain ⟨n1, n2⟩ := not_or.mp h12
      by_cases hf : Freed entries E i
      · simp [at_.freed i n1 n2 hf, hf]
      · have hset : BitStore.bit s.pmmBitmap i = true := by
          by_cases hlo : i < 8 * (newLength E / 8)
          · exact at_.marked i hf hlo
          · rw [at_.kept i n1 n2 hf (by omega)]
            exact hc.tail i (by omega) hi n1 n2 fun hr => hf ((at_.freed_lt wf hi).mpr hr)
        simp [hset, hf]
  have hcount := clearCount_intervals _ inside apart clear
  have hle := clearCount_le (BitStore.bit s.pmmBitmap) (endPage E)
  rw [hlen, hcount, at_.free, ← freedRanges_sum]
  rw [hcount] at hle
  have := s.pmmLength_lt
  omega

end Init

/-- The `memset` of `pmm_alloc` for `count` pages at `addr` misses the bytes of the bitmap. -/
def Missed (p : Pmm RamBitmap) (addr count : Nat) : Prop :=
  addr + 0x1000 * count % 2 ^ 64 ≤ p.pmmBitmap.base ∨
    p.pmmBitmap.base + (p.pmmLength + 7) / 8 ≤ addr

/-- The state in which a call keeps the counter: the pages it will take end below `PmmLength`, and
what it will zero is not the bitmap. -/
def Call.Harmless (t : Client RamBitmap) : Call → Prop
  | .allocAdvanced count alignment =>
    ∀ i, FirstFit t.pmm count alignment i → i + count ≤ t.pmm.pmmLength
  | .alloc count =>
    (∀ i, FirstFit t.pmm count 1 i →
      i + count ≤ t.pmm.pmmLength ∧ Missed t.pmm (i * 0x1000) count) ∧
    ((∀ i, ¬ FirstFit t.pmm count 1 i) → Missed t.pmm 0 count)
  | .free _ _ => True

/-- One call in a state in which it keeps the counter. -/
def HarmlessStep (t t' : Client RamBitmap) : Prop :=
  ∃ c addr, Call.Valid t c ∧ t.exec c = some (addr, t') ∧ Call.Harmless t c

/-- The bits below `n`, and set ones past it. -/
def mask (f : Nat → Bool) (n : Nat) : Nat → Bool := fun i => if i < n then f i else true

/-- Filling a range below `n` and masking commute. -/
lemma mask_fill {f : Nat → Bool} {n lo k b} (h : lo + k ≤ n) :
    mask (fill f lo k b) n = fill (mask f n) lo k b := by
  funext i
  simp only [mask, fill]
  split_ifs <;> first | rfl | omega

/-- Only bits below `n` matter. -/
lemma mask_congr {f g : Nat → Bool} {n} (h : ∀ i < n, f i = g i) : mask f n = mask g n := by
  funext i
  unfold mask
  split
  · exact h i ‹_›
  · rfl

/-- The invariant of a run of harmless calls. -/
structure Counted (t : Client RamBitmap) : Prop where
  count : t.pmm.pmmFreePages = clearCount t.bit t.pmm.pmmLength
  sound : Sound (mask t.bit t.pmm.pmmLength) t.live
  below : LiveBelow t

/-- A clear range below `PmmLength` is no longer than the counter says. -/
lemma Counted.le_free {t : Client RamBitmap} (inv : Counted t) {i count}
    (hclear : Clear t.pmm.pmmBitmap i count) (hend : i + count ≤ t.pmm.pmmLength) :
    count ≤ t.pmm.pmmFreePages := by
  have := clearCount_fill_true (f := t.bit) hend fun j h1 h2 => (hclear j h1 h2).2
  rw [inv.count]
  omega

/-- Taking a clear range below `PmmLength` keeps the invariant, whatever else happens to memory past
the bits below `PmmLength`. -/
lemma Counted.take {t : Client RamBitmap} (inv : Counted t) {p i count} (hc : 1 ≤ count)
    (hclear : Clear t.pmm.pmmBitmap i count) (hend : i + count ≤ t.pmm.pmmLength)
    (hl : p.pmmLength = t.pmm.pmmLength) (hf : p.pmmFreePages = takePages t.pmm.pmmFreePages count)
    (hb : ∀ j < t.pmm.pmmLength, BitStore.bit p.pmmBitmap j = fill t.bit i count true j) :
    Counted ⟨p, record t.live (i * 0x1000) count⟩ := by
  have hle := inv.le_free hclear hend
  have hcount := clearCount_fill_true (f := t.bit) hend fun j h1 h2 => (hclear j h1 h2).2
  have hbound := clearCount_le t.bit t.pmm.pmmLength
  have hlen := t.pmm.pmmLength_lt
  have hm : mask (BitStore.bit p.pmmBitmap) t.pmm.pmmLength =
      fill (mask t.bit t.pmm.pmmLength) i count true := by
    rw [← mask_fill hend]
    exact mask_congr hb
  refine ⟨?_, ?_, ?_⟩
  · show p.pmmFreePages = clearCount (BitStore.bit p.pmmBitmap) p.pmmLength
    rw [hf, hl, clearCount_congr hb, takePages, if_pos (by omega)]
    have := inv.count
    omega
  · show Sound (mask (BitStore.bit p.pmmBitmap) p.pmmLength) _
    rw [hl, hm]
    refine inv.sound.allocate fun j h1 h2 => ?_
    rw [mask, if_pos (by omega)]
    exact (hclear j h1 h2).2
  · intro a ha
    show 1 ≤ a.2 ∧ a.1 / 0x1000 + a.2 ≤ p.pmmLength
    rw [hl]
    unfold record at ha
    split at ha
    · exact inv.below a ha
    · obtain rfl | ha := List.mem_cons.mp ha
      · exact ⟨hc, by omega⟩
      · exact inv.below a ha

/-- Nothing happens to the bits below `PmmLength`. -/
lemma Counted.keep {t : Client RamBitmap} (inv : Counted t) {p}
    (hl : p.pmmLength = t.pmm.pmmLength) (hf : p.pmmFreePages = t.pmm.pmmFreePages)
    (hb : ∀ j < t.pmm.pmmLength, BitStore.bit p.pmmBitmap j = t.bit j) :
    Counted ⟨p, t.live⟩ := by
  refine ⟨?_, ?_, ?_⟩
  · show p.pmmFreePages = clearCount (BitStore.bit p.pmmBitmap) p.pmmLength
    rw [hf, hl, clearCount_congr hb, inv.count]
  · show Sound (mask (BitStore.bit p.pmmBitmap) p.pmmLength) _
    rw [hl, mask_congr hb]
    exact inv.sound
  · intro a ha
    show 1 ≤ a.2 ∧ a.1 / 0x1000 + a.2 ≤ p.pmmLength
    rw [hl]
    exact inv.below a ha

/-- Freeing an outstanding allocation keeps the invariant. -/
lemma Counted.release {t : Client RamBitmap} (inv : Counted t) {p a} (ha : a ∈ t.live)
    (h : pmmFree t.pmm a.1 a.2 = some p) : Counted ⟨p, t.live.erase a⟩ := by
  obtain ⟨hb, _, hl, hf, _⟩ := pmmFree_some h
  obtain ⟨_, hend⟩ := inv.below a ha
  have hbound := clearCount_le (BitStore.bit p.pmmBitmap) t.pmm.pmmLength
  have hlen := t.pmm.pmmLength_lt
  have hcount : clearCount (fill t.bit (a.1 / 0x1000) a.2 false) t.pmm.pmmLength =
      clearCount t.bit t.pmm.pmmLength + a.2 := by
    refine clearCount_fill_false hend fun i h1 h2 => ?_
    have := inv.sound.marked a ha i ⟨h1, h2⟩
    rwa [mask, if_pos (by omega)] at this
  refine ⟨?_, ?_, ?_⟩
  · show p.pmmFreePages = clearCount (BitStore.bit p.pmmBitmap) p.pmmLength
    rw [hb] at hbound ⊢
    rw [hf, hl, inv.count, ← hcount]
    exact Nat.mod_eq_of_lt (Nat.lt_of_le_of_lt hbound (by omega))
  · show Sound (mask (BitStore.bit p.pmmBitmap) p.pmmLength) _
    rw [hl, hb, mask_fill hend]
    exact inv.sound.release ha
  · intro b hmem
    show 1 ≤ b.2 ∧ b.1 / 0x1000 + b.2 ≤ p.pmmLength
    rw [hl]
    exact inv.below b (List.mem_of_mem_erase hmem)

/-- A `memset` that misses the bitmap leaves the bits below `PmmLength`. -/
lemma Missed.bit {p q : Pmm RamBitmap} {addr count s} (hm : Missed p addr count)
    (hbase : q.pmmBitmap.base = p.pmmBitmap.base)
    (h : PageStore.memset q.pmmBitmap addr 0 (0x1000 * count % 2 ^ 64) = some s) {j}
    (hj : j < p.pmmLength) : BitStore.bit s j = BitStore.bit q.pmmBitmap j := by
  rw [RamBitmap.memset_bit h, if_neg]
  unfold Missed at hm
  omega

/-- A harmless call keeps the invariant. -/
lemma Counted.step {t t' : Client RamBitmap} (inv : Counted t) (st : HarmlessStep t t') :
    Counted t' := by
  obtain ⟨c, addr, hv, h, harmless⟩ := st
  cases c with
  | allocAdvanced count alignment =>
    obtain ⟨p, hp, rfl⟩ := exec_allocAdvanced h
    obtain ⟨i, fit, rfl, taken⟩ | ⟨rfl, rfl, _⟩ := pmmAllocAdvanced_cases hv.1 hv.2.2.2 hp
    · exact inv.take hv.1 fit.clear (harmless i fit) taken.length taken.free fun j _ => by
        rw [taken.bit]
        rfl
    · simpa [record] using inv
  | alloc count =>
    obtain ⟨p, s, hp, hs, rfl⟩ := exec_alloc h
    have hbase := (pmmAllocAdvanced_rewritten hp).base
    obtain ⟨i, fit, rfl, taken⟩ | ⟨rfl, rfl, all⟩ := pmmAllocAdvanced_cases hv.1 (by decide) hp
    · obtain ⟨hend, miss⟩ := harmless.1 i fit
      refine inv.take (p := { p with pmmBitmap := s }) hv.1 fit.clear hend taken.length taken.free
        fun j hj => ?_
      rw [miss.bit hbase hs hj, taken.bit]
      rfl
    · have miss := harmless.2 fun i fit =>
        (all i fit.lt fit.dvd).not_clear fit.clear
      simpa [record] using inv.keep (p := { t.pmm with pmmBitmap := s }) rfl rfl
        fun j hj => miss.bit rfl hs hj
  | free a count =>
    obtain ⟨p, hp, rfl, rfl⟩ := exec_free h
    exact inv.release hv hp

/-- From a `pmm_init` on whose memory map and memory the counter agrees with the bitmap, in every run
of harmless calls `PmmFreePages` is the number of clear bits below `PmmLength`, and taking a range
that ends there does not wrap it. -/
theorem freePages_eq_clearCount {hhdm entries ram p} (wf : WellFormed entries)
    (init : pmmInit hhdm entries ram = some p) {E : MemmapEntry} (hE : E ∈ entries)
    (hu : E.type = .usable) (hpos : 0 < E.length) (hb : p.pmmBitmap.base = E.base)
    (hc : InitCounts entries ram E) {t : Client RamBitmap}
    (run : Relation.ReflTransGen HarmlessStep ⟨p, []⟩ t) :
    t.pmm.pmmFreePages = clearCount t.bit t.pmm.pmmLength ∧
      ∀ count alignment i, FirstFit t.pmm count alignment i → i + count ≤ t.pmm.pmmLength →
        count ≤ t.pmm.pmmFreePages := by
  have inv : Counted t := by
    induction run with
    | refl =>
      obtain ⟨E', at_⟩ := pmmInit_initAt init
      cases at_.eq_of_base wf hE hu hpos hb
      exact ⟨at_.counts wf hc, .nil _, fun a ha => absurd ha (by simp)⟩
    | tail _ st ih => exact ih.step st
  exact ⟨inv.count, fun count alignment i fit => inv.le_free fit.clear⟩

section NinePages
variable {t : Client RamBitmap} {k n : Nat}

/-- A `pmm_alloc` takes the pages from `k` on. -/
lemma FilledTo.alloc (f : FilledTo t.pmm k) (reserved : 0x7FF8 ≤ k) (pos : 1 ≤ n) (below : k + n ≤ 0x8000) :
    ∃ p, HarmlessStep t ⟨p, (0x1000 * k, n) :: t.live⟩ ∧ FilledTo p (k + n) := by
  have span := f.span
  have size := f.size
  have length := f.length
  have fit : FirstFit t.pmm n 1 k := firstFit_of_prefix pos f.full (fun j h1 h2 => f.clear j h1 (by omega))
    (by omega) (by omega)
  obtain ⟨p, allocated⟩ := pmmAlloc_of_fit pos fit (by omega)
  obtain ⟨i, same, granted⟩ := pmmAlloc_granted (f.ready reserved) pos allocated (by omega)
    fun i other => by rw [other.unique fit]; omega
  obtain rfl : k = i := by omega
  refine ⟨p, ⟨.alloc n, 0x1000 * k, ⟨pos, by omega⟩, ?_, ?_, fun none => absurd fit (none k)⟩,
    f.mark granted.keeps granted.bit below⟩
  · simp only [Client.exec, allocated, Option.bind_eq_bind, Option.bind_some, record,
      if_neg (show 0x1000 * k ≠ 0 by omega)]
  · intro i other
    rw [other.unique fit]
    refine ⟨by omega, .inr ?_⟩
    rw [f.base, f.length]
    omega

/-- An outstanding allocation is freed. -/
lemma FilledTo.free {addr : Nat} (f : FilledTo t.pmm k) (live : (addr, n) ∈ t.live)
    (inside : addr / 0x1000 + n ≤ 0x8000) : ∃ p, HarmlessStep t ⟨p, t.live.erase (addr, n)⟩ := by
  have span := f.span
  obtain ⟨s, reset⟩ := Option.isSome_iff_exists.mp (resetBits_isSome (s := t.pmm.pmmBitmap)
    (i := addr / 0x1000) (n := n) (.inr (by omega)))
  have freed : (pmmFree t.pmm addr n).isSome := by
    simp only [pmmFree, f.offset, if_neg (show ¬ 0xFFFF800000000000 ≤ addr by omega), reset,
      Option.bind_eq_bind, Option.bind_some, Option.isSome_some]
  obtain ⟨p, freed⟩ := Option.isSome_iff_exists.mp freed
  refine ⟨p, .free addr n, addr, live, ?_, trivial⟩
  simp only [Client.exec, freed, Option.bind_eq_bind, Option.bind_some]

end NinePages

/-- The bitmap of 4096 bytes fills the first of the nine pages. Three pages are allocated, then two, and
the first three are freed. -/
theorem freePages_eq_clearCount_ninePages :
    ∃ p t, pmmInit 0xFFFF800000000000 [ninePages, firmwarePages] zeroedRam = some p ∧
      Relation.ReflTransGen HarmlessStep ⟨p, []⟩ t ∧ t.live = [(0x7FFB000, 2)] ∧
      t.pmm.pmmFreePages = clearCount t.bit t.pmm.pmmLength := by
  obtain ⟨p, hp, f⟩ := pmmInit_filledTo
  obtain ⟨p₁, three, f₁⟩ := FilledTo.alloc (t := ⟨p, []⟩) (n := 3) f le_rfl (by decide) (by decide)
  obtain ⟨p₂, two, f₂⟩ := FilledTo.alloc (t := ⟨p₁, [(0x7FF8000, 3)]⟩) (n := 2) f₁ (by decide) (by decide) (by decide)
  obtain ⟨p₃, freed⟩ := FilledTo.free (t := ⟨p₂, [(0x7FFB000, 2), (0x7FF8000, 3)]⟩) f₂
    (List.mem_cons_of_mem _ List.mem_cons_self) (by decide)
  have run := Relation.ReflTransGen.tail (.tail (.tail .refl three) two) freed
  have wf : WellFormed [ninePages, firmwarePages] :=
    ⟨List.pairwise_pair.mpr (by decide), by decide, by decide, by decide⟩
  have counts : InitCounts [ninePages, firmwarePages] zeroedRam ninePages := by
    refine ⟨by decide, fun i low high => ?_, ?_⟩
    · have : 0x8000 ≤ i := low
      have : i < 0x8000 := high
      omega
    · rintro i first - (⟨e, mem, -, below, start, -⟩ | ⟨start, -⟩)
      · obtain rfl | rfl : e = ninePages ∨ e = firmwarePages := by simpa using mem
        · exact absurd below (lt_irrefl _)
        · exact absurd below (by decide)
      · have : 0x7FF7000 + 0x1000 ≤ 0x1000 * i := start
        omega
  exact ⟨p, _, hp, run, rfl,
    (freePages_eq_clearCount wf hp (by simp) rfl (by decide) f.base counts run).1⟩

/-- The counter says five pages are free of the pages 3 to 7, and one of these holds the bitmap. -/
theorem freePages_ne_clearCount :
    ∃ p, WellFormed [fivePages] ∧
      pmmInit 0xFFFF800000000000 [fivePages] (filledRam 0xFF) = some p ∧
      p.pmmFreePages = 5 ∧ clearCount (BitStore.bit p.pmmBitmap) p.pmmLength = 4 := by
  have h : (pmmInit 0xFFFF800000000000 [fivePages] (filledRam 0xFF)).map
      (fun p => (p.pmmFreePages, clearCount (BitStore.bit p.pmmBitmap) p.pmmLength)) =
      some (5, 4) := by decide
  obtain ⟨p, hp, e⟩ := Option.map_eq_some_iff.mp h
  simp only [Prod.mk.injEq] at e
  exact ⟨p, fivePages_wellFormed, hp, e.1, e.2⟩

end WivOS.Mem
