import WivOS.Mem.Bitmap
import Mathlib.Logic.Relation

/-!
# Runs of the page allocator

The allocator together with the allocations its callers hold: a `Client` lists the outstanding
`(addr, count)` pairs, an allocation that returned `NULL` not among them, and `pmm_free` is called on
one of them. `Step` is one call; a run is `Relation.ReflTransGen Step`.

`Sound` is the invariant of a run, of a bit function and a list of allocations: outstanding ranges are
disjoint and marked. Marking a clear range keeps it (`Sound.allocate`), and so does freeing an
outstanding one (`Sound.release`). What can break it is the `memset` of `pmm_alloc`, which runs over the
memory that holds the bitmap, and from address 0 on where no range was found. `Call.SparesBitmap` is the
state in which a call does no such harm, and the main result says that it is exactly that.
-/

namespace WivOS.Mem
open WivOS.Lib

/-- A call of the allocator. -/
inductive Call where
  | allocAdvanced (count alignment : Nat)
  | alloc (count : Nat)
  | free (addr count : Nat)

/-- The number of pages a call is about. -/
def Call.count : Call → Nat
  | .allocAdvanced count _ => count
  | .alloc count => count
  | .free _ count => count

/-- The allocator and the allocations outstanding. -/
structure Client (σ : Type) where
  pmm : Pmm σ
  live : List (Nat × Nat)

/-- Page `i` belongs to the allocation `a`, an address and a number of pages. -/
def InRange (a : Nat × Nat) (i : Nat) : Prop := a.1 / 0x1000 ≤ i ∧ i < a.1 / 0x1000 + a.2

/-- Two allocations share no page. -/
def Apart (a b : Nat × Nat) : Prop := ∀ i, InRange a i → ¬ InRange b i

/-- Sharing no page is symmetric. -/
lemma Apart.symm {a b} (h : Apart a b) : Apart b a := fun i hb ha => h i ha hb

section Runs
variable {σ : Type} [PageStore σ]

/-- The arguments a call can be made with: `size_t` values of at least one, and for `pmm_free` an
outstanding allocation. -/
def Call.Valid (t : Client σ) : Call → Prop
  | .allocAdvanced count alignment =>
    1 ≤ count ∧ count < 2 ^ 64 ∧ 1 ≤ alignment ∧ alignment < 2 ^ 64
  | .alloc count => 1 ≤ count ∧ count < 2 ^ 64
  | .free addr count => (addr, count) ∈ t.live

/-- An address that is not `NULL` joins the outstanding allocations. -/
def record (live : List (Nat × Nat)) (addr count : Nat) : List (Nat × Nat) :=
  if addr = 0 then live else (addr, count) :: live

/-- What is outstanding after an allocation: what was, and the new range unless it is at `NULL`. -/
lemma mem_record {live : List (Nat × Nat)} {addr count : Nat} {a} :
    a ∈ record live addr count ↔ addr ≠ 0 ∧ a = (addr, count) ∨ a ∈ live := by
  unfold record
  split
  case isTrue h => simp [h]
  case isFalse h => simp [h]

/-- Make a call: the address it returned, or was given, and what it leaves behind. -/
def Client.exec (t : Client σ) : Call → Option (Nat × Client σ)
  | .allocAdvanced count alignment => do
    let (addr, p) ← pmmAllocAdvanced t.pmm count alignment
    some (addr, ⟨p, record t.live addr count⟩)
  | .alloc count => do
    let (addr, p) ← pmmAlloc t.pmm count
    some (addr, ⟨p, record t.live addr count⟩)
  | .free addr count => do
    let p ← pmmFree t.pmm addr count
    some (addr, ⟨p, t.live.erase (addr, count)⟩)

/-- One call of the allocator. -/
def Step (t t' : Client σ) : Prop := ∃ c addr, Call.Valid t c ∧ t.exec c = some (addr, t')

instance (t : Client σ) (c : Call) : Decidable (Call.Valid t c) :=
  match c with
  | .allocAdvanced count alignment =>
    inferInstanceAs (Decidable (1 ≤ count ∧ count < 2 ^ 64 ∧ 1 ≤ alignment ∧ alignment < 2 ^ 64))
  | .alloc count => inferInstanceAs (Decidable (1 ≤ count ∧ count < 2 ^ 64))
  | .free addr count => inferInstanceAs (Decidable ((addr, count) ∈ t.live))

/-- Make a list of calls, each of them valid where it is made. -/
def Client.runCalls (t : Client σ) : List Call → Option (Client σ)
  | [] => some t
  | c :: cs =>
    if Call.Valid t c then (t.exec c).bind fun r => r.2.runCalls cs else none

/-- The executable run is one. -/
lemma Client.runCalls_run {t t' : Client σ} {cs} (h : t.runCalls cs = some t') :
    Relation.ReflTransGen Step t t' := by
  induction cs generalizing t with
  | nil =>
    cases h
    exact .refl
  | cons c cs ih =>
    simp only [runCalls, Option.ite_none_right_eq_some, Option.bind_eq_some_iff] at h
    obtain ⟨hv, ⟨addr, u⟩, hu, h⟩ := h
    exact .head ⟨c, addr, hv, hu⟩ (ih h)

/-- The bit of page `i`. -/
def Client.bit (t : Client σ) (i : Nat) : Bool := BitStore.bit t.pmm.pmmBitmap i

/-- What `pmm_alloc_advanced` returned is recorded. -/
lemma exec_allocAdvanced {t t' : Client σ} {count alignment addr}
    (h : t.exec (.allocAdvanced count alignment) = some (addr, t')) :
    ∃ p, pmmAllocAdvanced t.pmm count alignment = some (addr, p) ∧
      t' = ⟨p, record t.live addr count⟩ := by
  simp only [Client.exec, Option.bind_eq_bind, Option.bind_eq_some_iff, Option.some.injEq,
    Prod.mk.injEq] at h
  obtain ⟨⟨a, p⟩, hp, rfl, rfl⟩ := h
  exact ⟨p, hp, rfl⟩

/-- `pmm_alloc` is `pmm_alloc_advanced` and the `memset` of its pages. -/
lemma exec_alloc {t t' : Client σ} {count addr} (h : t.exec (.alloc count) = some (addr, t')) :
    ∃ p s, pmmAllocAdvanced t.pmm count 1 = some (addr, p) ∧
      PageStore.memset p.pmmBitmap addr 0 (0x1000 * count % 2 ^ 64) = some s ∧
      t' = ⟨{ p with pmmBitmap := s }, record t.live addr count⟩ := by
  simp only [Client.exec, pmmAlloc, Option.bind_eq_bind, Option.bind_eq_some_iff,
    Option.some.injEq, Prod.mk.injEq] at h
  obtain ⟨⟨a, q⟩, ⟨⟨b, p⟩, hp, s, hs, e⟩, rfl, rfl⟩ := h
  simp only [Prod.mk.injEq] at e
  obtain ⟨rfl, rfl⟩ := e
  exact ⟨p, s, hp, hs, rfl⟩

/-- `pmm_free` takes the range out of the outstanding ones. -/
lemma exec_free {t t' : Client σ} {addr count addr'}
    (h : t.exec (.free addr count) = some (addr', t')) :
    ∃ p, pmmFree t.pmm addr count = some p ∧ addr' = addr ∧
      t' = ⟨p, t.live.erase (addr, count)⟩ := by
  simp only [Client.exec, Option.bind_eq_bind, Option.bind_eq_some_iff, Option.some.injEq,
    Prod.mk.injEq] at h
  obtain ⟨p, hp, rfl, rfl⟩ := h
  exact ⟨p, hp, rfl, rfl⟩

end Runs

/-- The invariant of a run, of the bits `f` and the outstanding allocations: ranges share no page,
their pages are marked, and none is at `NULL`. -/
structure Sound (f : Nat → Bool) (live : List (Nat × Nat)) : Prop where
  apart : live.Pairwise Apart
  marked : ∀ a ∈ live, ∀ i, InRange a i → f i = true
  nonNull : ∀ a ∈ live, a.1 ≠ 0

/-- Nothing is outstanding at first. -/
lemma Sound.nil (f : Nat → Bool) : Sound f [] := ⟨.nil, by simp, by simp⟩

/-- The pages of a range in terms of its first one. -/
lemma inRange_page {i count j : Nat} :
    InRange (i * 0x1000, count) j ↔ i ≤ j ∧ j < i + count := by
  simp only [InRange, Nat.mul_div_cancel i (by omega : 0 < 0x1000)]

/-- Marking a clear range and recording it keeps the invariant. -/
lemma Sound.allocate {f live i count} (inv : Sound f live)
    (clear : ∀ j, i ≤ j → j < i + count → f j = false) :
    Sound (fill f i count true) (record live (i * 0x1000) count) := by
  have old : ∀ a ∈ live, ∀ j, InRange a j → fill f i count true j = true := by
    intro a ha j hj
    rw [fill]
    split
    · rfl
    · exact inv.marked a ha j hj
  unfold record
  split
  case isTrue => exact ⟨inv.apart, old, inv.nonNull⟩
  case isFalse h0 =>
    refine ⟨List.pairwise_cons.mpr ⟨fun a ha j hn hj => ?_, inv.apart⟩, ?_, ?_⟩
    · -- a page of the new range was clear, so no outstanding range had it
      obtain ⟨h1, h2⟩ := inRange_page.mp hn
      have := clear j h1 h2
      rw [inv.marked a ha j hj] at this
      contradiction
    · intro a ha j hj
      obtain rfl | ha := List.mem_cons.mp ha
      · obtain ⟨h1, h2⟩ := inRange_page.mp hj
        exact fill_in h1 h2
      · exact old a ha j hj
    · intro a ha
      obtain rfl | ha := List.mem_cons.mp ha
      · exact h0
      · exact inv.nonNull a ha

/-- Clearing an outstanding range and dropping it keeps the invariant. -/
lemma Sound.release {f live a} (inv : Sound f live) (ha : a ∈ live) :
    Sound (fill f (a.1 / 0x1000) a.2 false) (live.erase a) := by
  have hp : (a :: live.erase a).Pairwise Apart :=
    (List.perm_cons_erase ha).pairwise_iff Apart.symm |>.mp inv.apart
  obtain ⟨hfar, hrest⟩ := List.pairwise_cons.mp hp
  refine ⟨hrest, fun b hmem j hj => ?_, fun b hmem => ?_⟩
  · rw [fill_out]
    · exact inv.marked b (List.mem_of_mem_erase hmem) j hj
    · have := (hfar b hmem).symm j hj
      unfold InRange at this
      omega
  · exact inv.nonNull b (List.mem_of_mem_erase hmem)

section Bitmap

/-- The `memset` of `pmm_alloc` for `count` pages at `addr` reaches the byte with the bit of page `j`. -/
def Clears (p : Pmm RamBitmap) (addr count j : Nat) : Prop :=
  addr ≤ p.pmmBitmap.base + j / 8 ∧ p.pmmBitmap.base + j / 8 < addr + 0x1000 * count % 2 ^ 64

instance (p : Pmm RamBitmap) (addr count j : Nat) : Decidable (Clears p addr count j) :=
  inferInstanceAs (Decidable (_ ∧ _))

/-- `pmm_alloc` clears from `addr` on: the first fit, and address 0 where there is none. -/
def ClearsAt (p : Pmm RamBitmap) (count addr : Nat) : Prop :=
  (∃ i, FirstFit p count 1 i ∧ addr = i * 0x1000) ∨ (∀ i, ¬ FirstFit p count 1 i) ∧ addr = 0

/-- The bit of page `j` means something: the page is below `PmmLength` or belongs to an allocation. -/
def Client.Tracks (t : Client RamBitmap) (j : Nat) : Prop :=
  j < t.pmm.pmmLength ∨ ∃ a ∈ t.live, InRange a j

/-- What `pmm_alloc` is going to clear holds no set bit of the bitmap, and not the bits of the pages that
it returns. The other calls clear no memory. -/
def Call.SparesBitmap (t : Client RamBitmap) : Call → Prop
  | .allocAdvanced _ _ => True
  | .alloc count => ∀ addr, ClearsAt t.pmm count addr → ∀ j, Clears t.pmm addr count j →
      (t.Tracks j → t.bit j = false) ∧ (addr ≠ 0 → ¬ InRange (addr, count) j)
  | .free _ _ => True

/-- One call that spares the bitmap. -/
def SparesStep (t t' : Client RamBitmap) : Prop :=
  ∃ c addr, Call.Valid t c ∧ t.exec c = some (addr, t') ∧ c.SparesBitmap t

/-- An allocation that is going to find no range. -/
def Call.FindsNone (t : Client RamBitmap) : Call → Prop
  | .allocAdvanced count alignment => ∀ i, ¬ FirstFit t.pmm count alignment i
  | .alloc count => ∀ i, ¬ FirstFit t.pmm count 1 i
  | .free _ _ => False

/-- The bit of page `j` is to stay as it is: it is one of the bitmap, or lies behind its end in memory that
the call does not clear for its caller. -/
def Call.Stays (t : Client RamBitmap) (addr j : Nat) : Call → Prop
  | .alloc count => j < t.pmm.pmmLength ∨ ¬ Clears t.pmm addr count j
  | _ => True

/-- A call keeps what a run promises: the outstanding ranges are disjoint and marked after it, the bits
outside the pages it is about are as before, and all of them are where it found no range. -/
structure Call.Keeps (t : Client RamBitmap) (c : Call) (addr : Nat) (t' : Client RamBitmap) : Prop where
  apart : t'.live.Pairwise Apart
  marked : ∀ a ∈ t'.live, ∀ j, InRange a j → t'.bit j = true
  outside : ∀ j, c.Stays t addr j → ¬ InRange (addr, c.count) j → t'.bit j = t.bit j
  unfound : c.FindsNone t → ∀ j, c.Stays t addr j → t'.bit j = t.bit j

/-- What `pmm_alloc_advanced` does to the bits and the outstanding allocations, whoever called it: it marks
a clear range, or returns `NULL` and does nothing. -/
structure Advances (t : Client RamBitmap) (count alignment addr : Nat) (u : Client RamBitmap) : Prop where
  sound : Sound u.bit u.live
  live : u.live = record t.live addr count
  outside : ∀ j, ¬ InRange (addr, count) j → u.bit j = t.bit j
  taken : ∀ i, FirstFit t.pmm count alignment i → ∀ j, InRange (addr, count) j → t.bit j = false
  unfound : (∀ i, ¬ FirstFit t.pmm count alignment i) → u.bit = t.bit

variable {t t' : Client RamBitmap} {p : Pmm RamBitmap} {count alignment addr : Nat}

/-- `pmm_alloc_advanced` keeps the invariant. -/
lemma Sound.advances (inv : Sound t.bit t.live) (pos : 1 ≤ count) (small : alignment < 2 ^ 64)
    (h : pmmAllocAdvanced t.pmm count alignment = some (addr, p)) :
    Advances t count alignment addr ⟨p, record t.live addr count⟩ := by
  obtain ⟨i, fit, rfl, taken⟩ | ⟨rfl, rfl, blocked⟩ := pmmAllocAdvanced_cases pos small h
  · have bits : Client.bit ⟨p, record t.live (i * 0x1000) count⟩ = fill t.bit i count true := taken.bit
    have clear : ∀ j, InRange (i * 0x1000, count) j → t.bit j = false := by
      intro j hj
      obtain ⟨from_, lt⟩ := inRange_page.mp hj
      exact (fit.clear j from_ lt).2
    refine ⟨?_, rfl, ?_, fun _ _ => clear, fun none => absurd fit (none i)⟩
    · rw [bits]
      exact inv.allocate fun j from_ lt => (fit.clear j from_ lt).2
    · intro j hj
      rw [inRange_page] at hj
      rw [bits, fill_out (by omega)]
  · have none : ∀ i, ¬ FirstFit t.pmm count alignment i := by
      intro i fit
      exact (blocked i fit.lt fit.dvd).not_clear fit.clear
    exact ⟨inv, rfl, fun _ _ => rfl, fun i fit => absurd fit (none i), fun _ => rfl⟩

/-- The address that a call returns is the one that it clears from. -/
lemma clearsAt_of_alloc (pos : 1 ≤ count) (h : pmmAllocAdvanced t.pmm count 1 = some (addr, p)) :
    ClearsAt t.pmm count addr := by
  obtain ⟨i, fit, rfl, -⟩ | ⟨rfl, -, blocked⟩ := pmmAllocAdvanced_cases pos (by decide) h
  · exact .inl ⟨i, fit, rfl⟩
  · refine .inr ⟨fun i fit => ?_, rfl⟩
    exact (blocked i fit.lt fit.dvd).not_clear fit.clear

/-- There is one such address. -/
lemma ClearsAt.unique {q : Pmm RamBitmap} {a b : Nat} (ha : ClearsAt q count a)
    (hb : ClearsAt q count b) : a = b := by
  rcases ha with ⟨i, fit, rfl⟩ | ⟨none, rfl⟩ <;> rcases hb with ⟨k, fit', rfl⟩ | ⟨none', rfl⟩
  · rw [fit.unique fit']
  · exact absurd fit (none' i)
  · exact absurd fit' (none k)
  · rfl

/-- After `pmm_alloc` the bits in the bytes that it cleared are clear, the others as marking left them. -/
lemma bit_cleared {s : RamBitmap} (h : pmmAllocAdvanced t.pmm count alignment = some (addr, p))
    (set : PageStore.memset p.pmmBitmap addr 0 (0x1000 * count % 2 ^ 64) = some s) (j : Nat) :
    (Clears t.pmm addr count j → BitStore.bit s j = false) ∧
      (¬ Clears t.pmm addr count j → BitStore.bit s j = BitStore.bit p.pmmBitmap j) := by
  have base := (pmmAllocAdvanced_rewritten h).base
  rw [RamBitmap.memset_bit set, base]
  constructor
  · intro cleared
    exact (if_pos cleared).trans (by simp)
  · intro spared
    exact if_neg spared

/-- `pmm_alloc` keeps the promise exactly if it spares the bitmap. -/
lemma alloc_keeps_iff (inv : Sound t.bit t.live) (pos : 1 ≤ count)
    (h : t.exec (.alloc count) = some (addr, t')) :
    (Call.alloc count).Keeps t addr t' ↔ (Call.alloc count).SparesBitmap t := by
  obtain ⟨p, s, advanced, set, rfl⟩ := exec_alloc h
  have did := inv.advances pos (by decide) advanced
  have at_ := clearsAt_of_alloc pos advanced
  have bits := bit_cleared advanced set
  constructor
  · intro keeps addr' at' j cleared
    cases at_.unique at'
    have zero := (bits j).1 cleared
    refine ⟨?_, ?_⟩
    · rintro (lt | ⟨a, mem, range⟩)
      · -- a page of the range was clear before the call, another one is as it was
        by_cases range : InRange (addr, count) j
        · rcases at_ with ⟨i, fit, -⟩ | ⟨none, -⟩
          · exact did.taken i fit j range
          · exact (keeps.unfound none j (.inl lt)).symm.trans zero
        · exact (keeps.outside j (.inl lt) range).symm.trans zero
      · have marked := keeps.marked a (mem_record.mpr (.inr mem)) j range
        exact absurd (zero.symm.trans marked) (by decide)
    · intro ne range
      have marked := keeps.marked _ (mem_record.mpr (.inl ⟨ne, rfl⟩)) j range
      exact absurd (zero.symm.trans marked) (by decide)
  · intro spares
    have spare := spares addr at_
    refine ⟨did.sound.apart, ?_, ?_, ?_⟩
    · intro a mem j range
      have marked := did.sound.marked a mem j range
      refine ((bits j).2 fun cleared => ?_).trans marked
      obtain ⟨tracked, returned⟩ := spare j cleared
      obtain ⟨ne, rfl⟩ | mem := mem_record.mp mem
      · exact returned ne range
      · have clear := tracked (.inr ⟨a, mem, range⟩)
        exact absurd (clear.symm.trans (inv.marked a mem j range)) (by decide)
    · intro j stays range
      by_cases cleared : Clears t.pmm addr count j
      · have lt := stays.resolve_right (not_not_intro cleared)
        exact ((bits j).1 cleared).trans ((spare j cleared).1 (.inl lt)).symm
      · exact ((bits j).2 cleared).trans (did.outside j range)
    · intro none j stays
      by_cases cleared : Clears t.pmm addr count j
      · have lt := stays.resolve_right (not_not_intro cleared)
        exact ((bits j).1 cleared).trans ((spare j cleared).1 (.inl lt)).symm
      · exact ((bits j).2 cleared).trans (congrFun (did.unfound none) j)

/-- `pmm_alloc_advanced` always keeps the promise. -/
lemma allocAdvanced_keeps (inv : Sound t.bit t.live) (pos : 1 ≤ count) (small : alignment < 2 ^ 64)
    (h : t.exec (.allocAdvanced count alignment) = some (addr, t')) :
    (Call.allocAdvanced count alignment).Keeps t addr t' := by
  obtain ⟨p, advanced, rfl⟩ := exec_allocAdvanced h
  have did := inv.advances pos small advanced
  refine ⟨did.sound.apart, did.sound.marked, fun j _ => did.outside j, ?_⟩
  intro none j _
  exact congrFun (did.unfound none) j

/-- And so does `pmm_free` of an outstanding allocation. -/
lemma free_keeps (inv : Sound t.bit t.live) {a addr' : Nat} (mem : (a, count) ∈ t.live)
    (h : t.exec (.free a count) = some (addr', t')) : (Call.free a count).Keeps t addr' t' := by
  obtain ⟨p, freed, rfl, rfl⟩ := exec_free h
  have bits : Client.bit ⟨p, t.live.erase (addr', count)⟩ = fill t.bit (addr' / 0x1000) count false :=
    (pmmFree_some freed).1
  have rest := inv.release mem
  refine ⟨rest.apart, ?_, ?_, False.elim⟩
  · rw [bits]
    exact rest.marked
  · intro j _ range
    rw [bits, fill_out]
    simp only [InRange, Call.count] at range
    omega

/-- A valid call that returns keeps the promise exactly if it spares the bitmap. -/
lemma Sound.keeps_iff (inv : Sound t.bit t.live) {c : Call} (valid : c.Valid t)
    (h : t.exec c = some (addr, t')) : c.Keeps t addr t' ↔ c.SparesBitmap t := by
  cases c with
  | allocAdvanced count alignment =>
    exact iff_of_true (allocAdvanced_keeps inv valid.1 valid.2.2.2 h) trivial
  | alloc count => exact alloc_keeps_iff inv valid.1 h
  | free a count => exact iff_of_true (free_keeps inv valid h) trivial

/-- An outstanding allocation is never at `NULL`. -/
lemma Sound.nonNull_exec (inv : Sound t.bit t.live) {c : Call} (h : t.exec c = some (addr, t')) :
    ∀ a ∈ t'.live, a.1 ≠ 0 := by
  have recorded : ∀ count, ∀ a ∈ record t.live addr count, a.1 ≠ 0 := by
    intro count a mem
    obtain ⟨ne, rfl⟩ | mem := mem_record.mp mem
    · exact ne
    · exact inv.nonNull a mem
  cases c with
  | allocAdvanced count alignment =>
    obtain ⟨p, -, rfl⟩ := exec_allocAdvanced h
    exact recorded count
  | alloc count =>
    obtain ⟨p, s, -, -, rfl⟩ := exec_alloc h
    exact recorded count
  | free a count =>
    obtain ⟨p, -, rfl, rfl⟩ := exec_free h
    exact fun b mem => inv.nonNull b (List.mem_of_mem_erase mem)

/-- A call that spares the bitmap keeps the invariant. -/
lemma Sound.step (inv : Sound t.bit t.live) (st : SparesStep t t') : Sound t'.bit t'.live := by
  obtain ⟨c, addr, valid, h, spares⟩ := st
  have keeps := (inv.keeps_iff valid h).mpr spares
  exact ⟨keeps.apart, keeps.marked, inv.nonNull_exec h⟩

/-- The invariant holds in every run of such calls, from any bitmap. -/
lemma Sound.run (run : Relation.ReflTransGen SparesStep ⟨p, []⟩ t) : Sound t.bit t.live := by
  induction run with
  | refl => exact .nil _
  | tail _ st ih => exact ih.step st

/-- In every run of calls that spare the bitmap, from any bitmap in memory, the outstanding ranges are
disjoint and marked; and the next call, whatever it is, keeps them so and changes no other bit if and only
if it spares the bitmap. -/
theorem outstanding_ranges_disjoint (p : Pmm RamBitmap) {t : Client RamBitmap}
    (run : Relation.ReflTransGen SparesStep ⟨p, []⟩ t) :
    t.live.Pairwise Apart ∧
      (∀ a ∈ t.live, ∀ i, InRange a i → t.bit i = true) ∧
      ∀ c addr t', Call.Valid t c → t.exec c = some (addr, t') →
        (c.Keeps t addr t' ↔ c.SparesBitmap t) := by
  have inv := Sound.run run
  exact ⟨inv.apart, inv.marked, fun c addr t' valid h => inv.keeps_iff valid h⟩

end Bitmap

/-- The memory of the bitmap is in range. -/
lemma lowMemory_le : 0x8000 ≤ 2 ^ 56 := by decide

/-- So is its length. -/
lemma eightPages_lt : 8 < 2 ^ 52 := by decide

/-- Eight pages, of which pages 0 and 1 are in use; the bitmap is at the start of page 1. -/
def lowBitmap : Pmm RamBitmap where
  pmmBitmap := ⟨⟨0x8000, fun a => if a = 0x1000 then 3 else 0xFF, lowMemory_le⟩, 0x1000⟩
  pmmLength := 8
  pmmFreePages := 6
  memPhysOffset := 0xFFFF800000000000
  pmmLength_lt := eightPages_lt

/-- Calls that spare every bitmap make a run of sparing steps. -/
lemma Client.runCalls_spares {t t' : Client RamBitmap} {cs} (h : t.runCalls cs = some t')
    (spares : ∀ c ∈ cs, ∀ u, Call.SparesBitmap u c) : Relation.ReflTransGen SparesStep t t' := by
  induction cs generalizing t with
  | nil =>
    cases h
    exact .refl
  | cons c cs ih =>
    simp only [runCalls, Option.ite_none_right_eq_some, Option.bind_eq_some_iff] at h
    obtain ⟨valid, ⟨addr, u⟩, made, h⟩ := h
    have rest := ih h fun c' mem => spares c' (List.mem_cons_of_mem _ mem)
    exact .head ⟨c, addr, valid, made, spares c List.mem_cons_self t⟩ rest

/-- Two ranges outstanding at once, behind a bitmap in low memory. -/
theorem outstanding_ranges_disjoint_low :
    ∃ t : Client RamBitmap, Relation.ReflTransGen SparesStep ⟨lowBitmap, []⟩ t ∧
      t.live = [(0x6000, 1), (0x4000, 2)] ∧ t.live.Pairwise Apart := by
  let calls : List Call := [.allocAdvanced 2 4, .allocAdvanced 1 1, .free 0x2000 2]
  have h : ((Client.mk lowBitmap []).exec (.alloc 2)).bind (fun r =>
      (r.2.runCalls calls).map fun t => (r.1, t.live)) =
      some (0x2000, [(0x6000, 1), (0x4000, 2)]) := by decide
  simp only [Option.bind_eq_some_iff, Option.map_eq_some_iff, Prod.mk.injEq] at h
  obtain ⟨⟨addr, u⟩, made, t, rest, rfl, live⟩ := h
  -- the two pages at 0x2000 are behind the one byte of the bitmap
  have first : SparesStep ⟨lowBitmap, []⟩ u := by
    refine ⟨.alloc 2, _, by decide, made, fun addr' at' j cleared => ?_⟩
    obtain ⟨p, s, advanced, -, -⟩ := exec_alloc made
    cases (clearsAt_of_alloc (by decide) advanced).unique at'
    have far : 0x2000 ≤ 0x1000 + j / 8 := cleared.1
    refine ⟨?_, ?_⟩
    · rintro (lt | ⟨a, mem, -⟩)
      · have : j < 8 := lt
        omega
      · cases mem
    · rintro - ⟨-, lt⟩
      simp only at lt
      omega
  have last : Relation.ReflTransGen SparesStep u t := by
    refine Client.runCalls_spares rest fun c mem _ => ?_
    simp only [calls, List.mem_cons, List.not_mem_nil, or_false] at mem
    rcases mem with rfl | rfl | rfl <;> trivial
  exact ⟨t, .head first last, live, (outstanding_ranges_disjoint lowBitmap (.head first last)).1⟩

/-- Seven pages are not free, so `pmm_alloc` clears the seven pages from address 0 on, the bitmap among
them, and page 2 is handed out a second time. -/
theorem alloc_clears_bitmap :
    ∃ t : Client RamBitmap, Relation.ReflTransGen Step ⟨lowBitmap, []⟩ t ∧
      t.live = [(0x2000, 1), (0x2000, 1)] ∧ ¬ t.live.Pairwise Apart := by
  let calls : List Call := [.alloc 1, .alloc 7, .allocAdvanced 1 2, .allocAdvanced 1 2]
  have h : ((Client.mk lowBitmap []).runCalls calls).map (·.live) =
      some [(0x2000, 1), (0x2000, 1)] := by decide
  obtain ⟨t, ran, live⟩ := Option.map_eq_some_iff.mp h
  have page : InRange (0x2000, 1) 2 := ⟨by decide, by decide⟩
  refine ⟨t, Client.runCalls_run ran, live, fun apart => ?_⟩
  rw [live, List.pairwise_cons] at apart
  exact apart.1 (0x2000, 1) (by simp) 2 page page

end WivOS.Mem
