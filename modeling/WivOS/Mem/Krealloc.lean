import WivOS.Mem.AllocNull
import WivOS.Mem.AllocRuns

/-!
# Changing the size of a block

What `krealloc` promises of a live block: a new block is large enough and has the old contents, and a
`NULL` leaves the old block (`Resizes`). It keeps that if `ROUND_UP` does not wrap for an empty block, and
if a failed `pmm_alloc` clears nothing of the block (`krealloc_iff`), as long as no allocation runs past the
end of the bitmap. The block is one of a heap that was reached by calls that did no harm themselves, those
that returned `NULL` among them (`SparingStep`).
-/

namespace WivOS.Mem
open WivOS.Lib

namespace Ram
variable {m m' : Ram}

/-- A copy between ranges that are apart. -/
lemma memcpy_byte {dest source n : Nat} (h : m.memcpy dest source n = some m')
    (apart : ∀ j < n, ∀ k < n, dest + j ≠ source + k) {j : Nat} (lt : j < n) :
    m'.byte (dest + j) = m.byte (source + j) := by
  induction n generalizing m dest source j with
  | zero => omega
  | succ n ih =>
    simp only [memcpy, Option.ite_none_right_eq_some, Option.bind_eq_bind, Option.bind_eq_some_iff] at h
    obtain ⟨-, m₁, stored, h⟩ := h
    simp only [store8, Option.ite_none_right_eq_some, Option.some.injEq] at stored
    obtain ⟨-, rfl⟩ := stored
    cases j with
    | zero =>
      rw [(memcpy_keeps h).byte _ (by omega)]
      exact Function.update_self ..
    | succ j =>
      have rest := ih h (by
        intro a ha b hb
        have := apart (a + 1) (by omega) (b + 1) (by omega)
        omega) (show j < n by omega)
      have other : source + (j + 1) ≠ dest := by
        have := apart 0 (by omega) (j + 1) (by omega)
        omega
      rw [Nat.add_right_comm, Nat.add_assoc] at rest
      rw [rest, Nat.add_right_comm, Nat.add_assoc]
      exact Function.update_of_ne other ..

end Ram

/-- The words of the header of a block. -/
def Block.Header (b : Block) (x : Nat) : Prop := 0x1000 * b.page ≤ x ∧ x < 0x1000 * b.page + 16

/-- The bytes of a block: the words of its header, and its payload pages. -/
def Block.Holds (b : Block) (x : Nat) : Prop :=
  b.Header x ∨ InPages (b.page + 1) (pageCount b.request) x

/-- A block is still live, with its header and its contents. -/
structure Block.Kept (b : Block) (p p' : Pmm RamBitmap) : Prop where
  marked : ∀ i, b.Has i → p'.bit i = true
  byte : ∀ x, b.Holds x → p'.ram.byte x = p.ram.byte x

/-- The block at `q` has pages for `size` bytes, and the first bytes of the old block. -/
structure Block.MovedTo (b : Block) (p : Pmm RamBitmap) (size q : Nat) (p' : Pmm RamBitmap) : Prop where
  enough : ∃ pages, p'.load64 (kmemHeader q) = some pages ∧ size ≤ pages * 0x1000
  contents : ∀ j < min b.request size,
    p'.ram.byte (p'.phys (q + j)) = p.ram.byte (p.phys (b.addr + j))

/-- What `krealloc` promises. -/
def Resizes (p : Pmm RamBitmap) (b : Block) (size : Nat) : Prop :=
  ∀ q p', krealloc p b.addr size = some (q, p') →
    (q ≠ 0 → b.MovedTo p size q p') ∧ (q = 0 → size ≠ 0 → b.Kept p p')

/-- The call asks for a new block. -/
def Moves (b : Block) (size : Nat) : Prop := size ≠ 0 ∧ roundUpPage b.request ≠ roundUpPage size

/-- The state in which `krealloc` keeps its promise: an empty block is not asked for a size that `ROUND_UP`
takes to zero; and if there are no pages for a new block, none of the bytes that are cleared is one of the
block that is not zero, or holds its marks. -/
structure Resizable (p : Pmm RamBitmap) (b : Block) (size : Nat) : Prop where
  wrap : b.request = 0 → size ≤ 2 ^ 64 - 0x1000
  spared : Moves b size → clearedBytes (pageCount size + 1) ≤ p.ram.size →
    (∀ j < p.pmmLength, Blocked p.pmmBitmap j (pageCount size + 1)) →
    (∀ x < clearedBytes (pageCount size + 1), b.Holds x → p.ram.byte x = 0) ∧
      ∀ i, b.Has i → clearedBytes (pageCount size + 1) ≤ p.pmmBitmap.base + i / 8

/-- Of the first `n` bytes those are zero already that are of the bitmap or of the header of a live block. -/
def Heap.Spared (t : Heap) (n : Nat) : Prop :=
  ∀ x < n, Storage t.pmm x ∨ (∃ b ∈ t.live, b.Header x) → t.pmm.ram.byte x = 0

/-- The state in which a call does no harm, also if its `pmm_alloc` finds no pages: what that clears then
is not of the bitmap or of a header. -/
def HeapCall.Sparing (t : Heap) (c : HeapCall) : Prop :=
  c.Careful t ∧ ∀ n, c.asks t = some n → (∀ j < t.pmm.pmmLength, Blocked t.pmm.pmmBitmap j n) →
    t.Spared (clearedBytes n)

/-- One call that returns, in a state in which it does no harm. -/
def SparingStep (t t' : Heap) : Prop :=
  ∃ c a, HeapCall.Valid t c ∧ HeapCall.Sparing t c ∧ t.exec c = some (a, t')

section Cases
variable {t : Heap} {b : Block} {p' : Pmm RamBitmap} {size q : Nat}

/-- No block is at `NULL`. -/
lemma addr_ne_zero (ok : BlockOk t.pmm b) : b.addr ≠ 0 := by
  rw [ok.addr]
  exact payload_ne_zero _ _

/-- The pointer into a payload. -/
lemma BlockOk.phys_addr {p : Pmm RamBitmap} (ready : Ready p) (ok : BlockOk p b) {j : Nat}
    (lt : j < 0x1000 * pageCount b.request) : p.phys (b.addr + j) = 0x1000 * (b.page + 1) + j := by
  have inside := ok.inRam
  have count := ok.count
  have offset := ready.offset_lt
  rw [ok.addr]
  exact phys_payload (by omega)

/-- A size that is written leaves the number of pages in the header. -/
lemma load_pages_of_size (ready : Ready t.pmm) (ok : BlockOk t.pmm b) {m : Ram}
    (stored : t.pmm.ram.store64 (0x1000 * b.page + 8) size = some m) :
    (t.pmm.setRam m).load64 (kmemHeader b.addr) = some (pageCount b.request) := by
  have keeps := Ram.store64_keeps stored
  have ptr := ok.ptr_lt ready
  have header : t.pmm.phys (kmemHeader b.addr) = 0x1000 * b.page := by
    rw [ok.addr]
    exact phys_kmemHeader (by omega)
  rw [Pmm.load64, ← ok.header.pages]
  show m.load64 (t.pmm.phys (kmemHeader b.addr)) = _
  rw [header]
  exact Ram.load64_congr keeps.size fun x _ _ => keeps.byte x (by omega)

/-- In place, the promise is kept if and only if `ROUND_UP` has not wrapped. -/
lemma resizes_in_place_iff (inv : t.Good) (hb : b ∈ t.live) (small : size < 2 ^ 64) (some_ : size ≠ 0)
    (round : roundUpPage b.request = roundUpPage size) :
    Resizes t.pmm b size ↔ (b.request = 0 → size ≤ 2 ^ 64 - 0x1000) := by
  have ok := inv.ok b hb
  have below := ok.below
  have length := t.pmm.pmmLength_lt
  have count := ok.count
  have ptr := ok.ptr_lt inv.ready
  obtain ⟨m, stored, call⟩ := krealloc_in_place inv hb some_ round
  have keeps := Ram.store64_keeps stored
  have pages := load_pages_of_size inv.ready ok stored
  constructor
  · intro resizes empty
    obtain ⟨pages', read, enough⟩ := ((resizes _ _ call).1 (addr_ne_zero ok)).enough
    rw [pages, Option.some.injEq] at read
    have none : pageCount b.request = 0 := by rw [empty]; rfl
    omega
  · intro wrap q p' h
    rw [call] at h
    cases h
    refine ⟨?_, fun null => absurd null (addr_ne_zero ok)⟩
    intro _
    have same : pageCount size = pageCount b.request := pageCount_of_roundUp (by omega) small wrap round
    have le := le_pageCount size
    refine ⟨⟨_, pages, by omega⟩, ?_⟩
    intro j lt
    have le' := le_pageCount b.request
    have phys := ok.phys_addr inv.ready (show j < 0x1000 * pageCount b.request by omega)
    show m.byte (t.pmm.phys (b.addr + j)) = _
    rw [phys]
    exact keeps.byte _ (by omega)

/-- With another number of pages, a new block is asked for. -/
lemma krealloc_of_moves (inv : t.Good) (hb : b ∈ t.live) (moves : Moves b size) :
    krealloc t.pmm b.addr size = kreallocMove t.pmm b.addr size := by
  have ok := inv.ok b hb
  rw [krealloc, if_neg (addr_ne_zero ok), if_neg moves.1, ok.size inv.ready]
  simp only [Option.bind_eq_bind, Option.bind_some, if_neg moves.2]

/-- The first fit for a new block ends at or below `PmmLength`. -/
def Fits (p : Pmm RamBitmap) (size : Nat) : Prop :=
  ∀ i, FirstFit p (pageCount size + 1) 1 i → i + (pageCount size + 1) ≤ p.pmmLength

/-- `kmalloc` of pages that fit returns what its `pmm_alloc` found, or `NULL` with it. -/
lemma kmalloc_cases {p : Pmm RamBitmap} (ready : Ready p) (small : size < 2 ^ 64) (fits : Fits p size)
    (h : kmalloc p size = some (q, p')) :
    (q = 0 ∧ pmmAlloc p (pageCount size + 1) = some (0, p')) ∨
      ∃ i, q = payload p i ∧ Allocated p size i p' := by
  have h' := h
  simp only [kmalloc, Option.bind_eq_bind, Option.bind_eq_some_iff] at h
  obtain ⟨⟨a, r⟩, got, h⟩ := h
  by_cases null : a = 0
  · subst null
    rw [if_pos rfl] at h
    cases h
    exact .inl ⟨rfl, got⟩
  · obtain ⟨i, r', -, call, al⟩ := kmalloc_spec ready small got null fits
    rw [h'] at call
    cases call
    exact .inr ⟨i, rfl, al⟩

/-- A `krealloc` that takes a new block: it is taken, the old payload is copied, the old block is freed. -/
lemma kreallocMove_cases {p : Pmm RamBitmap} {addr : Nat} (h : kreallocMove p addr size = some (q, p')) :
    (q = 0 ∧ kmalloc p size = some (0, p')) ∨
      (q ≠ 0 ∧ ∃ p₁ old m, kmalloc p size = some (q, p₁) ∧ p₁.load64 (kmemHeader addr + 8) = some old ∧
        p₁.ram.memcpy (p₁.phys q) (p₁.phys addr) (if size < old then size else old) = some m ∧
        kfree (p₁.setRam m) addr = some p') := by
  simp only [kreallocMove, Option.bind_eq_bind, Option.bind_eq_some_iff] at h
  obtain ⟨⟨a, p₁⟩, call, h⟩ := h
  by_cases null : a = 0
  · subst null
    rw [if_pos rfl] at h
    cases h
    exact .inl ⟨rfl, call⟩
  · rw [if_neg null] at h
    simp only [Option.bind_eq_some_iff, Option.some.injEq, Prod.mk.injEq] at h
    obtain ⟨old, read, m, copied, p₂, freed, rfl, rfl⟩ := h
    exact .inr ⟨null, p₁, old, m, call, read, copied, freed⟩

/-- A block that was moved is large enough and has the old contents. -/
lemma movedTo_of_allocated {i old : Nat} {p₁ : Pmm RamBitmap} {m : Ram} (inv : t.Good) (hb : b ∈ t.live)
    (small : size < 2 ^ 64) (al : Allocated t.pmm size i p₁)
    (read : p₁.load64 (kmemHeader b.addr + 8) = some old)
    (copied : p₁.ram.memcpy (p₁.phys (payload t.pmm i)) (p₁.phys b.addr)
      (if size < old then size else old) = some m)
    (freed : kfree (p₁.setRam m) b.addr = some p') : b.MovedTo t.pmm size (payload t.pmm i) p' := by
  have ok := inv.ok b hb
  -- the new block, and the old one next to it
  obtain ⟨new, new_eq⟩ : ∃ new : Block,
    (⟨payload t.pmm i, i, pageCount size + 1, size⟩ : Block) = new := ⟨_, rfl⟩
  have taken : Heap.Good ⟨p₁, new :: t.live⟩ := by
    rw [← new_eq]
    exact inv.take small al
  have addr : payload t.pmm i = new.addr := by rw [← new_eq]
  have page : new.page = i := by rw [← new_eq]
  have request : new.request = size := by rw [← new_eq]
  have memNew : new ∈ (⟨p₁, new :: t.live⟩ : Heap).live := List.mem_cons_self
  have memOld : b ∈ (⟨p₁, new :: t.live⟩ : Heap).live := List.mem_cons_of_mem _ hb
  have okNew : BlockOk p₁ new := taken.ok new memNew
  have okOld : BlockOk p₁ b := taken.ok b memOld
  have ready : Ready p₁ := taken.ready
  have count := okNew.count
  have inside := okNew.inRam
  have countOld := okOld.count
  have insideOld := okOld.inRam
  have offset := ready.offset_lt
  have few := le_pageCount size
  have fewOld := le_pageCount b.request
  rw [request] at count
  have distinct : new ≠ b := by
    intro same
    have clear := al.clear i le_rfl (by omega)
    rw [ok.marked i ⟨by rw [← same, page], by rw [← same, page]; omega⟩] at clear
    cases clear
  -- the header still has the old size, and no more is copied than either block has
  have old_eq : b.request = old := by
    have size := okOld.size ready
    rw [read] at size
    exact (Option.some.inj size).symm
  have amount : (if size < old then size else old) = min b.request size := by
    rw [← old_eq]
    split <;> omega
  have dest : p₁.phys (payload t.pmm i) = 0x1000 * (i + 1) := by
    have := phys_payload (p := p₁) (i := i) (j := 0) (by omega)
    rwa [addr, okNew.addr, page]
  have source : p₁.phys b.addr = 0x1000 * (b.page + 1) := by
    have := phys_payload (p := p₁) (i := b.page) (j := 0) (by omega)
    rwa [okOld.addr]
  rw [amount, dest, source] at copied
  have apart : ∀ j < min b.request size, ∀ k < min b.request size,
      0x1000 * (i + 1) + j ≠ 0x1000 * (b.page + 1) + k := by
    intro j ltj k ltk same
    exact inv.miss_new al hb (x := 0x1000 * (i + 1) + j) ⟨by omega, by omega⟩ (.inr ⟨by omega, by omega⟩)
  have written : Keeps p₁ (p₁.setRam m) (InPages (i + 1) (pageCount size)) :=
    setRam_keeps ((Ram.memcpy_keeps copied).mono fun x hx => ⟨hx.1, by have := hx.2; omega⟩)
  have filled : Heap.Good ⟨p₁.setRam m, new :: t.live⟩ := by
    refine taken.touch memNew written fun x hx => ?_
    rw [page, request]
    exact hx
  obtain ⟨p₃, freed', unmarked, -, left⟩ := filled.drop memOld
  have same : p₃ = p' := Option.some.inj (freed'.symm.trans freed)
  subst same
  have okFilled : BlockOk (p₁.setRam m) new := filled.ok new memNew
  have okLeft : BlockOk p₃ new := left.ok new ((filled.mem_without memOld).mpr ⟨memNew, distinct⟩)
  have readyLeft : Ready p₃ := left.ready
  rw [addr]
  refine ⟨⟨_, okLeft.load_pages readyLeft, by rw [request]; omega⟩, ?_⟩
  intro j lt
  have phys := okLeft.phys_addr readyLeft (j := j) (by rw [request]; omega)
  have physOld := ok.phys_addr inv.ready (j := j) (by omega)
  rw [page] at phys
  have inNew : InPages new.page new.count (0x1000 * (i + 1) + j) := ⟨by omega, by omega⟩
  rw [phys, physOld, unmarked.ram.byte _ fun marks => okFilled.apart _ marks inNew]
  refine (Ram.memcpy_byte copied apart lt).trans ?_
  exact al.keeps.ram.byte _ (inv.miss_new al hb ⟨by omega, by omega⟩)

/-- The bytes of a header are in the pages of the block. -/
lemma BlockOk.inPages_of_header {p : Pmm RamBitmap} (ok : BlockOk p b) {x : Nat} (header : b.Header x) :
    InPages b.page b.count x := by
  have count := ok.count
  have lt := header.2
  exact ⟨header.1, by omega⟩

/-- The bytes of a block are in its pages. -/
lemma BlockOk.inPages_of_holds {p : Pmm RamBitmap} (ok : BlockOk p b) {x : Nat} (holds : b.Holds x) :
    InPages b.page b.count x := by
  rcases holds with header | ⟨from_, lt⟩
  · exact ok.inPages_of_header header
  · have count := ok.count
    exact ⟨by omega, by omega⟩

/-- The block after a `NULL` for want of free pages: it is kept if nothing of it is cleared. -/
lemma kept_exhausted_iff {p : Pmm RamBitmap} {n : Nat} {m : Ram} (ok : BlockOk p b)
    (cleared : p.ram.memset 0 0 n = some m) :
    b.Kept p (p.setRam m) ↔
      (∀ x < n, b.Holds x → p.ram.byte x = 0) ∧ ∀ i, b.Has i → n ≤ p.pmmBitmap.base + i / 8 := by
  have bit : ∀ i, (p.setRam m).bit i = (m.byte (p.pmmBitmap.base + i / 8)).getLsbD (i % 8) := fun _ => rfl
  constructor
  · rintro ⟨marked, byte⟩
    refine ⟨?_, ?_⟩
    · intro x lt holds
      rw [← byte x holds]
      exact Ram.memset_byte cleared (Nat.zero_le x) (by omega)
    · intro i has
      by_contra inside
      have set := marked i has
      rw [bit, Ram.memset_byte cleared (Nat.zero_le _) (by omega)] at set
      simp at set
  · rintro ⟨zeros, marks⟩
    refine ⟨?_, ?_⟩
    · intro i has
      rw [bit, memset_byte_of_le cleared (marks i has)]
      exact ok.marked i has
    · intro x holds
      by_cases lt : x < n
      · rw [zeros x lt holds]
        exact Ram.memset_byte cleared (Nat.zero_le x) (by omega)
      · exact memset_byte_of_le cleared (by omega)

/-- The block after a `NULL` that is the address of page 0. -/
lemma kept_first {p q : Pmm RamBitmap} {n : Nat} {m : Ram} (ready : Ready p) (ok : BlockOk p b)
    (rewritten : RamBitmap.Rewritten p.pmmBitmap q.pmmBitmap) (clear : Clear p.pmmBitmap 0 n)
    (taken : Taken p n 0 q) (fits : n ≤ p.pmmLength) (cleared : q.ram.memset 0 0 (clearedBytes n) = some m) :
    b.Kept p (q.setRam m) := by
  have marks : Keeps p q (Storage p) :=
    keeps_of_fill rewritten taken.length taken.offset taken.bit (by omega)
  have most : clearedBytes n ≤ 0x1000 * n := Nat.mod_le _ _
  have unmarked : ∀ i < n, p.bit i = false := fun i lt => (clear i (Nat.zero_le i) (by omega)).2
  -- a page that is marked is not one of those that are cleared
  have above : ∀ x, p.bit (x / 0x1000) = true → clearedBytes n ≤ x := by
    intro x set
    by_contra below
    rw [unmarked (x / 0x1000) (by omega)] at set
    cases set
  refine ⟨?_, ?_⟩
  · intro i has
    have below := ok.below
    have index := has.2
    have storage : Storage p (p.pmmBitmap.base + i / 8) := ⟨by omega, by omega⟩
    have outside : clearedBytes n ≤ p.pmmBitmap.base + i / 8 := by
      by_cases page : (p.pmmBitmap.base + i / 8) / 0x1000 < p.pmmLength
      · exact above _ (ready.reserved _ storage page)
      · omega
    have bit : (q.setRam m).bit i = (m.byte (p.pmmBitmap.base + i / 8)).getLsbD (i % 8) := by
      rw [← marks.base]
      rfl
    have bit' : q.bit i = (q.ram.byte (p.pmmBitmap.base + i / 8)).getLsbD (i % 8) := by
      rw [← marks.base]
      rfl
    rw [bit, memset_byte_of_le cleared outside, ← bit']
    have set : q.bit i = fill p.bit 0 n true i := congrFun taken.bit i
    rw [set, fill]
    split
    · rfl
    · exact ok.marked i has
  · intro x holds
    have inPages := ok.inPages_of_holds holds
    refine (memset_byte_of_le cleared (above x (ok.marked _ (has_iff.mpr inPages)))).trans ?_
    exact marks.ram.byte x fun storage => ok.apart x storage inPages

/-- With a new block the promise is kept if and only if nothing of the old one is cleared. -/
lemma resizes_moves_iff (inv : t.Good) (hb : b ∈ t.live) (small : size < 2 ^ 64) (moves : Moves b size)
    (fits : Fits t.pmm size) :
    Resizes t.pmm b size ↔ (clearedBytes (pageCount size + 1) ≤ t.pmm.ram.size →
      (∀ j < t.pmm.pmmLength, Blocked t.pmm.pmmBitmap j (pageCount size + 1)) →
      (∀ x < clearedBytes (pageCount size + 1), b.Holds x → t.pmm.ram.byte x = 0) ∧
        ∀ i, b.Has i → clearedBytes (pageCount size + 1) ≤ t.pmm.pmmBitmap.base + i / 8) := by
  have ok := inv.ok b hb
  have call := krealloc_of_moves inv hb moves
  constructor
  · intro resizes inside blocked
    obtain ⟨m, cleared⟩ := memset_isSome inside
    have null : pmmAlloc t.pmm (pageCount size + 1) = some (0, t.pmm.setRam m) :=
      pmmAlloc_of_memset (pmmAllocAdvanced_of_blocked (by omega) blocked) cleared
    have failed : krealloc t.pmm b.addr size = some (0, t.pmm.setRam m) := by
      simp only [call, kreallocMove, kmalloc, null, Option.bind_eq_bind, Option.bind_some, if_true]
    exact (kept_exhausted_iff ok cleared).mp ((resizes _ _ failed).2 rfl moves.1)
  · intro spared q p' h
    rw [call] at h
    rcases kreallocMove_cases h with ⟨rfl, failed⟩ | ⟨other, p₁, old, m, got, read, copied, freed⟩
    · refine ⟨fun h => absurd rfl h, fun _ _ => ?_⟩
      rcases kmalloc_cases inv.ready small fits failed with ⟨-, null⟩ | ⟨i, zero, -⟩
      · obtain ⟨r, m, -, cleared, rfl, rewritten, ⟨rfl, blocked⟩ | ⟨some_, clear, taken⟩⟩ :=
          pmmAlloc_null_cases (by omega) null
        · refine (kept_exhausted_iff ok cleared).mpr ?_
          by_cases none : clearedBytes (pageCount size + 1) = 0
          · exact spared (by omega) blocked
          · exact spared (by have := Ram.memset_end_le cleared none; omega) blocked
        · have fit := fits 0 ⟨one_dvd _, some_, clear, fun j lt => by omega⟩
          exact kept_first inv.ready ok rewritten clear taken (by omega) cleared
      · exact absurd zero.symm (payload_ne_zero _ _)
    · refine ⟨fun _ => ?_, fun null => absurd null other⟩
      rcases kmalloc_cases inv.ready small fits got with ⟨null, -⟩ | ⟨i, rfl, al⟩
      · exact absurd null other
      · exact movedTo_of_allocated inv hb small al read copied freed

/-- For a live block of a heap that is as it should be: `krealloc` keeps its promise if and only if the block
is resizable, provided that the first fit for a new block, if it needs one, ends at or below `PmmLength`. -/
lemma resizes_iff (inv : t.Good) (hb : b ∈ t.live) (small : size < 2 ^ 64)
    (fits : Moves b size → Fits t.pmm size) : Resizes t.pmm b size ↔ Resizable t.pmm b size := by
  have ok := inv.ok b hb
  by_cases none : size = 0
  · subst none
    refine ⟨fun _ => ⟨fun _ => by omega, fun moves => absurd rfl moves.1⟩, fun _ q p' h => ?_⟩
    rw [krealloc, if_neg (addr_ne_zero ok), if_pos rfl] at h
    simp only [Option.bind_eq_bind, Option.bind_eq_some_iff, Option.some.injEq, Prod.mk.injEq] at h
    obtain ⟨-, -, rfl, -⟩ := h
    exact ⟨fun h => absurd rfl h, fun _ h => absurd rfl h⟩
  by_cases round : roundUpPage b.request = roundUpPage size
  · rw [resizes_in_place_iff inv hb small none round]
    exact ⟨fun wrap => ⟨wrap, fun moves => absurd round moves.2⟩, fun h => h.wrap⟩
  · have moves : Moves b size := ⟨none, round⟩
    rw [resizes_moves_iff inv hb small moves (fits moves)]
    refine ⟨fun spared => ⟨?_, fun _ => spared⟩, fun h => h.spared moves⟩
    intro empty
    by_contra large
    rw [empty, roundUpPage_wrap (by omega) small] at round
    exact round rfl

end Cases

section History
variable {t t' : Heap} {p p' : Pmm RamBitmap} {a n : Nat}

/-- Writes that leave the marks and the headers keep the invariant. -/
lemma Heap.Good.keep {W : Nat → Prop} (inv : t.Good) (k : Keeps t.pmm p' W)
    (bits : ∀ j < t.pmm.pmmLength, t.pmm.bit j = true → p'.bit j = true)
    (headers : ∀ b ∈ t.live, ∀ x, b.Header x → p'.ram.byte x = t.pmm.ram.byte x) :
    Heap.Good ⟨p', t.live⟩ := by
  refine ⟨inv.ready.keep k fun j lt set _ => bits j lt set, ?_, inv.apart⟩
  intro b hb
  have ok := inv.ok b hb
  have below := ok.below
  have marked : ∀ i, b.Has i → p'.bit i = true := by
    intro i has
    have lt := has.2
    exact bits i (by omega) (ok.marked i has)
  have header : HasHeader p' b.page (pageCount b.request) b.request := by
    constructor
    · rw [← ok.header.pages]
      exact Ram.load64_congr k.ram.size fun x from_ lt => headers b hb x ⟨by omega, by omega⟩
    · rw [← ok.header.size]
      exact Ram.load64_congr k.ram.size fun x from_ lt => headers b hb x ⟨by omega, by omega⟩
  exact ok.update k marked ok.request_lt rfl header

/-- A `NULL` from `pmm_alloc` keeps the invariant, if it spares the marks and the headers. -/
lemma Heap.Good.failed (inv : t.Good) (pos : 1 ≤ n)
    (fits : ∀ i, FirstFit t.pmm n 1 i → i + n ≤ t.pmm.pmmLength)
    (spared : (∀ j < t.pmm.pmmLength, Blocked t.pmm.pmmBitmap j n) → t.Spared (clearedBytes n))
    (null : pmmAlloc t.pmm n = some (0, p')) : Heap.Good ⟨p', t.live⟩ := by
  obtain ⟨q, m, -, cleared, rfl, rewritten, ⟨rfl, blocked⟩ | ⟨some_, clear, taken⟩⟩ :=
    pmmAlloc_null_cases pos null
  · -- no pages are free, and the bytes that are cleared and matter were zero
    have same : ∀ x, Storage t.pmm x ∨ (∃ b ∈ t.live, b.Header x) → m.byte x = t.pmm.ram.byte x := by
      intro x of
      by_cases lt : x < clearedBytes n
      · rw [spared blocked x lt of]
        exact Ram.memset_byte cleared (Nat.zero_le x) (by omega)
      · exact memset_byte_of_le cleared (by omega)
    refine inv.keep (setRam_keeps (Ram.memset_keeps cleared)) ?_ fun b hb x header =>
      same x (.inr ⟨b, hb, header⟩)
    intro j lt set
    have storage : Storage t.pmm (t.pmm.pmmBitmap.base + j / 8) := ⟨by omega, by omega⟩
    rw [← set]
    exact congrArg (BitVec.getLsbD · (j % 8)) (same _ (.inl storage))
  · -- page 0 is taken: what is cleared is of pages that no live block and not the bitmap has
    have fit := fits 0 ⟨one_dvd _, some_, clear, fun j lt => by omega⟩
    have most : clearedBytes n ≤ 0x1000 * n := Nat.mod_le _ _
    have above : ∀ x, t.pmm.bit (x / 0x1000) = true → clearedBytes n ≤ x := by
      intro x set
      by_contra below
      have unset : t.pmm.bit (x / 0x1000) = false := (clear _ (Nat.zero_le _) (by omega)).2
      rw [unset] at set
      cases set
    have marks : Keeps t.pmm q (Storage t.pmm) :=
      keeps_of_fill rewritten taken.length taken.offset taken.bit (by omega)
    have zeros : Keeps q (q.setRam m) (fun x => 0 ≤ x ∧ x < 0 + clearedBytes n) :=
      setRam_keeps (Ram.memset_keeps cleared)
    have both : Keeps t.pmm (q.setRam m) (fun x => Storage t.pmm x ∨ 0 ≤ x ∧ x < 0 + clearedBytes n) :=
      (marks.mono fun _ => .inl).trans (zeros.mono fun _ => .inr)
    refine inv.keep both ?_ ?_
    · intro j lt set
      have storage : Storage t.pmm (t.pmm.pmmBitmap.base + j / 8) := ⟨by omega, by omega⟩
      have outside : clearedBytes n ≤ t.pmm.pmmBitmap.base + j / 8 := by
        by_cases page : (t.pmm.pmmBitmap.base + j / 8) / 0x1000 < t.pmm.pmmLength
        · exact above _ (inv.ready.reserved _ storage page)
        · omega
      have bit : (q.setRam m).bit j = q.bit j := by
        refine congrArg (BitVec.getLsbD · (j % 8)) (memset_byte_of_le cleared ?_)
        exact outside.trans_eq (congrArg (· + j / 8) rewritten.base.symm)
      have filled : q.bit j = fill t.pmm.bit 0 n true j := congrFun taken.bit j
      rw [bit, filled, fill]
      split
      · rfl
      · exact set
    · intro b hb x header
      have ok := inv.ok b hb
      have inPages := ok.inPages_of_header header
      refine both.ram.byte x ?_
      rintro (storage | ⟨-, lt⟩)
      · exact ok.apart x storage inPages
      · have := above x (ok.marked _ (has_iff.mpr inPages))
        omega

/-- `kmalloc` is `NULL` if its `pmm_alloc` is. -/
lemma kmalloc_of_null {size : Nat} (null : ∀ a q, pmmAlloc p (pageCount size + 1) = some (a, q) → a = 0)
    (h : kmalloc p size = some (a, p')) : a = 0 ∧ pmmAlloc p (pageCount size + 1) = some (0, p') := by
  simp only [kmalloc, Option.bind_eq_bind, Option.bind_eq_some_iff] at h
  obtain ⟨⟨a', q⟩, got, h⟩ := h
  have zero := null a' q got
  subst zero
  rw [if_pos rfl] at h
  cases h
  exact ⟨rfl, got⟩

/-- A call whose `pmm_alloc` finds nothing changes what that has changed. -/
lemma exec_failed {c : HeapCall} (asks : c.asks t = some n)
    (null : ∀ a q, pmmAlloc t.pmm n = some (a, q) → a = 0) (h : t.exec c = some (a, t')) :
    ∃ p', pmmAlloc t.pmm n = some (0, p') ∧ t' = ⟨p', t.live⟩ := by
  cases c with
  | kmalloc size =>
    cases asks
    simp only [Heap.exec, Option.bind_eq_bind, Option.bind_eq_some_iff] at h
    obtain ⟨⟨a', q⟩, call, h⟩ := h
    obtain ⟨rfl, got⟩ := kmalloc_of_null null call
    rw [if_pos rfl] at h
    cases h
    exact ⟨_, got, rfl⟩
  | kcalloc num nsize =>
    simp only [HeapCall.asks, Option.ite_none_left_eq_some, Option.some.injEq, not_or, not_not] at asks
    obtain ⟨⟨some_, some', exact_⟩, rfl⟩ := asks
    simp only [Heap.exec, Option.bind_eq_bind, Option.bind_eq_some_iff] at h
    obtain ⟨⟨a', q⟩, call, h⟩ := h
    rw [kcalloc, if_neg (not_or.mpr ⟨some_, some'⟩)] at call
    simp only [← exact_, ne_eq, not_true_eq_false, if_false, Option.bind_eq_bind,
      Option.bind_eq_some_iff] at call
    obtain ⟨⟨a'', q'⟩, call, rest⟩ := call
    obtain ⟨rfl, got⟩ := kmalloc_of_null null call
    rw [if_pos rfl] at rest
    cases rest
    rw [if_pos rfl] at h
    cases h
    exact ⟨_, got, rfl⟩
  | krealloc addr size =>
    simp only [Heap.exec, Option.bind_eq_bind, Option.bind_eq_some_iff] at h
    obtain ⟨⟨a', q⟩, call, h⟩ := h
    rw [HeapCall.asks] at asks
    rw [krealloc] at call
    by_cases new : addr = 0
    · rw [if_pos new] at asks call
      cases asks
      obtain ⟨rfl, got⟩ := kmalloc_of_null null call
      rw [Heap.regrant, if_neg fun h => h.2 new, if_neg (not_not.mpr rfl), if_neg fun h => h.1 new] at h
      cases h
      exact ⟨_, got, rfl⟩
    rw [if_neg new] at asks call
    by_cases none : size = 0
    · rw [if_pos none] at asks
      cases asks
    rw [if_neg none] at asks call
    simp only [Option.bind_eq_bind, Option.bind_eq_some_iff] at call
    obtain ⟨old, read, call⟩ := call
    simp only [read, Option.map_some, Option.some.injEq] at asks
    by_cases round : roundUpPage old = roundUpPage size
    · rw [if_pos round] at asks
      cases asks
    rw [if_neg round] at asks call
    cases asks
    rcases kreallocMove_cases call with ⟨rfl, taken⟩ | ⟨other, p₁, _, _, taken, -⟩
    · obtain ⟨-, got⟩ := kmalloc_of_null null taken
      rw [Heap.regrant, if_neg fun h => h.2 h.1.symm, if_neg (not_not.mpr rfl), if_neg fun h => none h.2] at h
      cases h
      exact ⟨_, got, rfl⟩
    · exact absurd (kmalloc_of_null null taken).1 other
  | kfree addr => cases asks
  | write addr offset c => cases asks

/-- The number of pages that a call asks for. -/
lemma asks_pos {c : HeapCall} (asks : c.asks t = some n) : 1 ≤ n := by
  cases c with
  | kmalloc size =>
    cases asks
    omega
  | kcalloc num nsize =>
    simp only [HeapCall.asks, Option.ite_none_left_eq_some, Option.some.injEq] at asks
    omega
  | krealloc addr size =>
    simp only [HeapCall.asks] at asks
    split_ifs at asks
    · cases asks
      omega
    · cases asks
      omega
  | kfree addr => cases asks
  | write addr offset c => cases asks

/-- A call that returns, in a state in which it does no harm, keeps the invariant. -/
lemma Heap.Good.sparing_step (inv : t.Good) (st : SparingStep t t') : t'.Good := by
  obtain ⟨c, a, valid, ⟨careful, sparing⟩, h⟩ := st
  by_cases served : c.Served t
  · obtain ⟨a', u, call, good, -⟩ := inv.outcome valid served careful
    rw [h] at call
    cases call
    exact good
  · simp only [HeapCall.Served, not_forall, not_exists, not_and, not_not] at served
    obtain ⟨n, asks, null⟩ := served
    obtain ⟨p', got, rfl⟩ := exec_failed asks null h
    exact inv.failed (asks_pos asks) (careful.1 n asks) (sparing n asks) got

/-- And so does a run of such calls. -/
lemma Heap.Good.sparing_run (ready : Ready p) (run : Relation.ReflTransGen SparingStep ⟨p, []⟩ t) :
    t.Good := by
  induction run with
  | refl => exact ⟨ready, nofun, .nil⟩
  | tail _ st ih => exact ih.sparing_step st

/-- A call whose `pmm_alloc` does not fail has nothing to spare. -/
lemma CarefulStep.sparing (st : CarefulStep t t') : SparingStep t t' := by
  obtain ⟨c, a, valid, served, careful, h⟩ := st
  refine ⟨c, a, valid, ⟨careful, ?_⟩, h⟩
  intro n asks blocked
  obtain ⟨x, q, got, some_⟩ := served n asks
  have null := pmmAllocAdvanced_of_blocked (asks_pos asks) blocked
  simp only [pmmAlloc, null, Option.bind_eq_bind, Option.bind_some, Option.bind_eq_some_iff,
    Option.some.injEq, Prod.mk.injEq] at got
  obtain ⟨-, -, zero, -⟩ := got
  exact absurd zero.symm some_

end History

/-- For every live block of every heap that was reached by calls that did no harm, and every size: `krealloc`
keeps its promise if and only if the block is resizable, provided that the first fit for a new block, if it
needs one, ends at or below `PmmLength`. -/
theorem krealloc_iff {p : Pmm RamBitmap} (ready : Ready p) {t : Heap}
    (run : Relation.ReflTransGen SparingStep ⟨p, []⟩ t) {b : Block} (hb : b ∈ t.live) {size : Nat}
    (small : size < 2 ^ 64) (fits : Moves b size → Fits t.pmm size) :
    Resizes t.pmm b size ↔ Resizable t.pmm b size :=
  resizes_iff (.sparing_run ready run) hb small fits

/-- Three pages, of which the last one is free: the bitmap is in page 1. -/
def onePage : Pmm RamBitmap where
  pmmBitmap := ⟨⟨0x4000, fun x => if x = 0x1000 then 3 else 0, by decide⟩, 0x1000⟩
  pmmLength := 3
  pmmFreePages := 1
  memPhysOffset := 0xFFFF800000000000
  pmmLength_lt := by decide

/-- The bitmap is one byte. -/
lemma onePage_ready : Ready onePage := by
  refine ⟨?_, by decide, by decide⟩
  rintro x ⟨from_, lt⟩ _
  simp only [onePage] at from_ lt
  have byte : x = 0x1000 := by omega
  rw [byte]
  rfl

/-- `kmalloc(0)` takes the page that is free. -/
lemma exists_emptyBlock :
    ∃ t b, Relation.ReflTransGen SparingStep ⟨onePage, []⟩ t ∧ b ∈ t.live ∧ b.request = 0 := by
  have fit : FirstFit onePage (pageCount 0 + 1) 1 2 := by
    refine firstFit_of_prefix (by decide) ?_ ?_ (by decide) (by decide)
    · intro j lt
      interval_cases j <;> rfl
    · intro j from_ lt
      have page : j = 2 := by
        have one : pageCount 0 = 0 := rfl
        omega
      rw [page]
      rfl
  have good : Heap.Good ⟨onePage, []⟩ := ⟨onePage_ready, nofun, .nil⟩
  obtain ⟨p', step, -⟩ := good.kmalloc_at (by decide) (by decide) fit (by decide) (by decide)
  exact ⟨_, _, .single step.sparing, List.mem_cons_self, rfl⟩

/-- The largest `size_t`. -/
def sizeMax : Nat := 2 ^ 64 - 1

/-- `ROUND_UP` takes it to zero. -/
lemma sizeMax_bounds : 2 ^ 64 - 0x1000 < sizeMax ∧ sizeMax < 2 ^ 64 := by
  unfold sizeMax
  omega

/-- It is rounded up to the size of an empty block. -/
lemma empty_round {b : Block} (empty : b.request = 0) : roundUpPage b.request = roundUpPage sizeMax := by
  obtain ⟨large, small⟩ := sizeMax_bounds
  have wraps : roundUpPage sizeMax = 0 := roundUpPage_wrap large small
  rw [wraps, empty]
  rfl

/-- A block of no bytes, resized to `SIZE_MAX`. -/
theorem krealloc_iff_empty :
    ∃ t b, Relation.ReflTransGen SparingStep ⟨onePage, []⟩ t ∧ b ∈ t.live ∧ b.request = 0 ∧
      (Resizes t.pmm b sizeMax ↔ Resizable t.pmm b sizeMax) := by
  obtain ⟨t, b, run, hb, empty⟩ := exists_emptyBlock
  refine ⟨t, b, run, hb, empty, krealloc_iff onePage_ready run hb sizeMax_bounds.2 ?_⟩
  exact fun moves => absurd (empty_round empty) moves.2

/-- An empty block that is asked for `2 ^ 64 - 1` bytes is returned as it is, without a payload page. -/
theorem krealloc_round_up_wraps :
    ∃ t b, Relation.ReflTransGen SparingStep ⟨onePage, []⟩ t ∧ b ∈ t.live ∧ b.request = 0 ∧
      (∃ p', krealloc t.pmm b.addr sizeMax = some (b.addr, p') ∧
        p'.load64 (kmemHeader b.addr) = some 0) ∧
      ¬ Resizes t.pmm b sizeMax := by
  obtain ⟨large, small⟩ := sizeMax_bounds
  have some_ : sizeMax ≠ 0 := by omega
  obtain ⟨t, b, run, hb, empty⟩ := exists_emptyBlock
  have inv := Heap.Good.sparing_run onePage_ready run
  have round := empty_round empty
  refine ⟨t, b, run, hb, empty, ?_, ?_⟩
  · obtain ⟨m, stored, call⟩ := krealloc_in_place inv hb some_ round
    have pages := load_pages_of_size inv.ready (inv.ok b hb) stored
    rw [empty] at pages
    exact ⟨_, call, pages⟩
  · rw [resizes_in_place_iff inv hb small some_ round]
    intro wrap
    exact absurd (wrap empty) (Nat.not_le.mpr large)

end WivOS.Mem
