import WivOS.Mem.Alloc
import WivOS.Mem.PmmInit
import Mathlib.Logic.Relation
import Mathlib.Data.List.Pairwise

/-!
# Runs of the kernel heap

The heap together with the blocks its callers hold. A `Heap` lists the live blocks, each with the
pointer its caller has, the pages that `pmm_alloc` gave for it and the size that was asked for. A run
is made of calls of the four functions, `kfree` and `krealloc` on live blocks, and of writes by callers
into the payload pages of their own blocks.

`Heap.Intact` is what every state should have and `HeapCall.Proper` what every call should do; both
read the number of payload pages from the header in memory. They hold in every run from a state whose
bitmap is marked in itself (`Ready`), as long as `pmm_alloc` takes no page past `PmmLength` and no
`krealloc` rounds its size up to zero (`HeapCall.Careful`). The invariant is `Heap.Good`: headers,
bitmap and the list of live blocks agree.
-/

namespace WivOS.Mem
open WivOS.Lib

/-- A live block: its pointer, the page of its header, the number of pages `pmm_alloc` was asked for
and the size asked of the heap. -/
structure Block where
  addr : Nat
  page : Nat
  count : Nat
  request : Nat

/-- Page `i` was allocated for the block. -/
def Block.Has (b : Block) (i : Nat) : Prop := b.page ≤ i ∧ i < b.page + b.count

/-- The heap and the live blocks. -/
structure Heap where
  pmm : Pmm RamBitmap
  live : List Block

/-- A call of the heap, or a byte that a caller writes `offset` bytes into its block at `addr`. -/
inductive HeapCall where
  | kmalloc (size : Nat)
  | kcalloc (num nsize : Nat)
  | krealloc (addr size : Nat)
  | kfree (addr : Nat)
  | write (addr offset : Nat) (c : BitVec 8)

/-- `header->pages` of the block at `addr`, as memory has it. -/
def Heap.pages (t : Heap) (addr : Nat) : Nat := (t.pmm.load64 (kmemHeader addr)).getD 0

/-- Page `i` is the header page of the block or one of its `header->pages` payload pages. -/
def Heap.Owns (t : Heap) (b : Block) (i : Nat) : Prop :=
  b.page ≤ i ∧ i < b.page + (1 + t.pages b.addr)

/-- Page `i` was allocated for a live block. -/
def Heap.Held (t : Heap) (i : Nat) : Prop := ∃ b ∈ t.live, b.Has i

/-- The live blocks apart from the one at `addr`. -/
def Heap.without (t : Heap) (addr : Nat) : List Block := t.live.filter fun b => b.addr ≠ addr

/-- The block that a `kmalloc` of `size` bytes returned at `addr`. -/
def grant (p : Pmm RamBitmap) (addr size request : Nat) : Block :=
  ⟨addr, p.phys (kmemHeader addr) / 0x1000, pageCount size + 1, request⟩

/-- The live blocks after a `krealloc` of `addr` that returned `newAddr`. -/
def Heap.regrant (t : Heap) (addr size newAddr : Nat) (p : Pmm RamBitmap) : List Block :=
  if newAddr = addr ∧ addr ≠ 0 then
    t.live.map fun b => if b.addr = addr then { b with request := size } else b
  else if newAddr ≠ 0 then grant p newAddr size size :: t.without addr
  else if addr ≠ 0 ∧ size = 0 then t.without addr
  else t.live

/-- Make a call: the pointer it returned, or was given, and what it leaves behind. -/
def Heap.exec (t : Heap) : HeapCall → Option (Nat × Heap)
  | .kmalloc size => do
    let (a, p) ← kmalloc t.pmm size
    some (a, ⟨p, if a = 0 then t.live else grant p a size size :: t.live⟩)
  | .kcalloc num nsize => do
    let (a, p) ← kcalloc t.pmm num nsize
    some (a, ⟨p, if a = 0 then t.live
      else grant p a (num * nsize % 2 ^ 64) (num * nsize) :: t.live⟩)
  | .krealloc addr size => do
    let (a, p) ← krealloc t.pmm addr size
    some (a, ⟨p, t.regrant addr size a p⟩)
  | .kfree addr => do
    let p ← kfree t.pmm addr
    some (addr, ⟨p, t.without addr⟩)
  | .write addr offset c => do
    let m ← t.pmm.ram.store8 (t.pmm.phys (addr + offset)) c
    some (addr, ⟨t.pmm.setRam m, t.live⟩)

/-- The calls that can be made: `size_t` arguments, pointers of live blocks, and writes inside the
payload pages. -/
def HeapCall.Valid (t : Heap) : HeapCall → Prop
  | .kmalloc size => size < 2 ^ 64
  | .kcalloc num nsize => num < 2 ^ 64 ∧ nsize < 2 ^ 64
  | .krealloc addr size => size < 2 ^ 64 ∧ (addr = 0 ∨ ∃ b ∈ t.live, b.addr = addr)
  | .kfree addr => ∃ b ∈ t.live, b.addr = addr
  | .write addr offset _ => ∃ b ∈ t.live, b.addr = addr ∧ offset < 0x1000 * t.pages addr

/-- The number of pages for which a call calls `pmm_alloc`, if it does. -/
def HeapCall.asks (t : Heap) : HeapCall → Option Nat
  | .kmalloc size => some (pageCount size + 1)
  | .kcalloc num nsize =>
    if num = 0 ∨ nsize = 0 ∨ nsize ≠ num * nsize % 2 ^ 64 / num then none
    else some (pageCount (num * nsize % 2 ^ 64) + 1)
  | .krealloc addr size =>
    if addr = 0 then some (pageCount size + 1)
    else if size = 0 then none
    else if (t.pmm.load64 (kmemHeader addr + 8)).map roundUpPage = some (roundUpPage size) then none
    else some (pageCount size + 1)
  | .kfree _ => none
  | .write _ _ _ => none

/-- The call's `pmm_alloc`, if it makes one, does not fail. -/
def HeapCall.Served (t : Heap) (c : HeapCall) : Prop :=
  ∀ n, c.asks t = some n → ∃ a p, pmmAlloc t.pmm n = some (a, p) ∧ a ≠ 0

/-- The state in which a call does no harm: the first fit of its `pmm_alloc` ends below `PmmLength`,
and `krealloc` does not ask an empty block for a size that `ROUND_UP` takes to zero. -/
def HeapCall.Careful (t : Heap) (c : HeapCall) : Prop :=
  (∀ n, c.asks t = some n → ∀ i, FirstFit t.pmm n 1 i → i + n ≤ t.pmm.pmmLength) ∧
    ∀ addr size, c = .krealloc addr size → t.pmm.load64 (kmemHeader addr + 8) = some 0 →
      size ≤ 2 ^ 64 - 0x1000

/-- One call whose `pmm_alloc` does not fail. -/
def HeapStep (t t' : Heap) : Prop :=
  ∃ c a, HeapCall.Valid t c ∧ HeapCall.Served t c ∧ t.exec c = some (a, t')

/-- One such call in a state in which it does no harm. -/
def CarefulStep (t t' : Heap) : Prop :=
  ∃ c a, HeapCall.Valid t c ∧ HeapCall.Served t c ∧ HeapCall.Careful t c ∧ t.exec c = some (a, t')

/-- What holds of the live blocks: they share no page, their pages are marked, and their payload pages
are enough for what was asked for. -/
structure Heap.Intact (t : Heap) : Prop where
  apart : t.live.Pairwise fun a b => ∀ i, t.Owns a i → ¬ t.Owns b i
  marked : ∀ b ∈ t.live, ∀ i, t.Owns b i → t.pmm.bit i = true
  enough : ∀ b ∈ t.live, b.request ≤ t.pages b.addr * 0x1000

/-- The block a call is about. -/
def HeapCall.target : HeapCall → Option Nat
  | .kmalloc _ => none
  | .kcalloc _ _ => none
  | .krealloc addr _ => some addr
  | .kfree addr => some addr
  | .write addr _ _ => some addr

/-- The call returns a new block. -/
def HeapCall.isNew : HeapCall → Bool
  | .kmalloc _ => true
  | .kcalloc _ _ => true
  | _ => false

/-- What a call does: it succeeds where its `pmm_alloc` did, a new payload is zero, the pages of
blocks that are no longer live are clear and bits of pages outside live blocks stay, `kfree` releases
the pages allocated for its block, and the other live blocks keep their bytes. -/
structure HeapCall.Proper (t : Heap) (c : HeapCall) (a : Nat) (t' : Heap) : Prop where
  succeeds : c.asks t ≠ none → a ≠ 0
  zeroed : c.isNew = true → a ≠ 0 →
    ∀ j < 0x1000 * t'.pages a, t'.pmm.ram.byte (t'.pmm.phys (a + j)) = 0
  released : ∀ i, t.Held i → ¬ t'.Held i → t'.pmm.bit i = false
  kept : ∀ i < t.pmm.pmmLength, ¬ t.Held i → ¬ t'.Held i → t'.pmm.bit i = t.pmm.bit i
  frees : ∀ b ∈ t.live, c = .kfree b.addr →
    t'.pmm.bit = fill t.pmm.bit b.page b.count false ∧ t'.live = t.without b.addr
  untouched : ∀ b ∈ t.live, c.target ≠ some b.addr → ∀ x, t.Owns b (x / 0x1000) →
    t'.pmm.ram.byte x = t.pmm.ram.byte x

/-- A live block as the invariant has it: marked pages below `PmmLength` and inside physical memory,
none of them of the bitmap, and a header that says so. -/
structure BlockOk (p : Pmm RamBitmap) (b : Block) : Prop where
  below : b.page + b.count ≤ p.pmmLength
  span : b.page + b.count ≤ BitStore.span p.pmmBitmap
  inRam : 0x1000 * (b.page + b.count) ≤ p.ram.size
  request_lt : b.request < 2 ^ 64
  addr : b.addr = payload p b.page
  count : b.count = pageCount b.request + 1
  marked : ∀ i, b.Has i → p.bit i = true
  apart : ∀ x, Storage p x → ¬ InPages b.page b.count x
  header : HasHeader p b.page (pageCount b.request) b.request

/-- The invariant of a run. -/
structure Heap.Good (t : Heap) : Prop where
  ready : Ready t.pmm
  ok : ∀ b ∈ t.live, BlockOk t.pmm b
  apart : t.live.Pairwise fun a b => ∀ i, a.Has i → ¬ b.Has i

/-- A request fits its pages. -/
lemma le_pageCount (size : Nat) : size ≤ 0x1000 * pageCount size := by
  unfold pageCount
  split <;> omega

/-- Rounding up gives whole pages where it does not wrap. -/
lemma roundUpPage_eq {n : Nat} (h : n ≤ 2 ^ 64 - 0x1000) : roundUpPage n = 0x1000 * pageCount n := by
  unfold roundUpPage pageCount
  split <;> omega

/-- In the last page of the address space it wraps to 0. -/
lemma roundUpPage_wrap {n : Nat} (h : 2 ^ 64 - 0x1000 < n) (hn : n < 2 ^ 64) : roundUpPage n = 0 := by
  unfold roundUpPage
  omega

/-- The rounding test of `krealloc` compares the numbers of payload pages, unless it wraps. -/
lemma pageCount_of_roundUp {old size : Nat} (hold : pageCount old + 1 < 2 ^ 52) (hs : size < 2 ^ 64)
    (wrap : old = 0 → size ≤ 2 ^ 64 - 0x1000) (h : roundUpPage old = roundUpPage size) :
    pageCount size = pageCount old := by
  have hle := le_pageCount old
  rw [roundUpPage_eq (by omega)] at h
  by_cases hw : size ≤ 2 ^ 64 - 0x1000
  · rw [roundUpPage_eq hw] at h
    omega
  · rw [roundUpPage_wrap (by omega) hs] at h
    have := wrap (by omega)
    omega

section Invariant
variable {p p' : Pmm RamBitmap} {t : Heap} {b : Block}

/-- The pages of a block as addresses. -/
lemma has_iff {x : Nat} : b.Has (x / 0x1000) ↔ InPages b.page b.count x := inPages_iff.symm

/-- A block has a page at least, that of its header. -/
lemma BlockOk.count_pos (ok : BlockOk p b) : 1 ≤ b.count := by
  have := ok.count
  omega

/-- The payload of a block is below the end of the address space. -/
lemma BlockOk.ptr_lt (ready : Ready p) (ok : BlockOk p b) :
    0x1000 * b.page + p.memPhysOffset + 0x1000 < 2 ^ 64 := by
  have := ready.offset_lt
  have := ok.inRam
  have := ok.count_pos
  omega

/-- Writes that leave the bits of a block keep it, with the request its header has then. -/
lemma BlockOk.update {W : Nat → Prop} {r} (ok : BlockOk p b) (k : Keeps p p' W)
    (bits : ∀ i, b.Has i → p'.bit i = true) (hr : r < 2 ^ 64)
    (hcount : pageCount r = pageCount b.request) (hd : HasHeader p' b.page (pageCount r) r) :
    BlockOk p' { b with request := r } where
  below := by
    rw [k.length]
    exact ok.below
  span := by
    rw [k.span]
    exact ok.span
  inRam := by
    rw [k.ram.size]
    exact ok.inRam
  request_lt := hr
  addr := by
    rw [ok.addr, payload, payload, k.offset]
  count := by
    rw [ok.count, hcount]
  marked := bits
  apart := fun x hx => ok.apart x (k.storage.mp hx)
  header := hd

/-- Writes outside the header page that leave the bits of a block keep it. -/
lemma BlockOk.keep {W : Nat → Prop} (ok : BlockOk p b) (k : Keeps p p' W)
    (miss : ∀ x, InPages b.page 1 x → ¬ W x) (bits : ∀ i, b.Has i → p'.bit i = true) :
    BlockOk p' b :=
  ok.update k bits ok.request_lt rfl (ok.header.keep k miss)

/-- The header page is one of the block's pages. -/
lemma BlockOk.header_page (ok : BlockOk p b) {x} (hx : InPages b.page 1 x) :
    InPages b.page b.count x := by
  have := ok.count_pos
  exact ⟨hx.1, by have := hx.2; omega⟩

/-- The header in memory says how many pages were allocated. -/
lemma BlockOk.load_pages (ready : Ready p) (ok : BlockOk p b) :
    p.load64 (kmemHeader b.addr) = some (pageCount b.request) := by
  have := ok.ptr_lt ready
  rw [Pmm.load64, ok.addr, phys_kmemHeader (by omega), ok.header.pages]

/-- The header of a block holds the pages of its request. -/
lemma BlockOk.pages (ready : Ready t.pmm) (ok : BlockOk t.pmm b) :
    t.pages b.addr = pageCount b.request := by
  rw [Heap.pages, ok.load_pages ready]
  rfl

/-- And what size was asked for. -/
lemma BlockOk.size (ready : Ready p) (ok : BlockOk p b) :
    p.load64 (kmemHeader b.addr + 8) = some b.request := by
  have := ok.ptr_lt ready
  rw [Pmm.load64, ok.addr, phys_kmemHeader_size (by omega), ok.header.size]

/-- What the header says a block owns is what it has. -/
lemma BlockOk.owns_iff (ready : Ready t.pmm) (ok : BlockOk t.pmm b) {i} :
    t.Owns b i ↔ b.Has i := by
  rw [Heap.Owns, Block.Has, ok.pages ready, ok.count, Nat.add_comm 1]

/-- The invariant gives what holds of the live blocks. -/
lemma Heap.Good.intact (inv : t.Good) : t.Intact where
  apart := by
    refine inv.apart.imp_of_mem fun {a b} ha hb h i hi => ?_
    rw [(inv.ok a ha).owns_iff inv.ready] at hi
    rw [(inv.ok b hb).owns_iff inv.ready]
    exact h i hi
  marked := fun b hb i hi => (inv.ok b hb).marked i (((inv.ok b hb).owns_iff inv.ready).mp hi)
  enough := fun b hb => by
    rw [(inv.ok b hb).pages inv.ready, Nat.mul_comm]
    exact le_pageCount _

/-- Two live blocks are the same block or share no page. -/
lemma Heap.Good.apart_of_ne (inv : t.Good) {a b} (ha : a ∈ t.live) (hb : b ∈ t.live) (hne : a ≠ b)
    (i : Nat) (hi : a.Has i) : ¬ b.Has i := by
  have symm : Std.Symm fun a b : Block => ∀ i, a.Has i → ¬ b.Has i :=
    ⟨fun a b h i hb ha => h i ha hb⟩
  exact inv.apart.forall ha hb hne i hi

/-- A block is known by its pointer. -/
lemma Heap.Good.eq_of_addr (inv : t.Good) {a b} (ha : a ∈ t.live) (hb : b ∈ t.live)
    (h : a.addr = b.addr) : a = b := by
  by_contra hne
  have oka := inv.ok a ha
  have okb := inv.ok b hb
  rw [oka.addr, okb.addr, payload, payload] at h
  have hp : a.page = b.page := by omega
  have := oka.count_pos
  have := okb.count_pos
  exact inv.apart_of_ne ha hb hne a.page ⟨le_rfl, by omega⟩ ⟨by omega, by omega⟩

/-- The pages a new block takes are of no live block. -/
lemma Heap.Good.miss_new {size i} (inv : t.Good) (al : Allocated t.pmm size i p') (hb : b ∈ t.live)
    {x} (hx : InPages b.page b.count x) :
    ¬ (Storage t.pmm x ∨ InPages i (pageCount size + 1) x) := by
  have ok := inv.ok b hb
  rintro (hs | hn)
  · exact ok.apart x hs hx
  · obtain ⟨h1, h2⟩ := inPages_iff.mp hn
    have := ok.marked _ (has_iff.mpr hx)
    rw [al.clear _ h1 h2] at this
    contradiction

/-- Taking a block keeps the invariant. -/
lemma Heap.Good.take {size i} (inv : t.Good) (hs : size < 2 ^ 64) (al : Allocated t.pmm size i p') :
    Heap.Good ⟨p', ⟨payload t.pmm i, i, pageCount size + 1, size⟩ :: t.live⟩ := by
  have bits : ∀ j < t.pmm.pmmLength, t.pmm.bit j = true → p'.bit j = true := by
    intro j hj hset
    rw [al.bit j hj, fill]
    split
    · rfl
    · exact hset
  refine ⟨inv.ready.keep al.keeps fun j hj hset _ => bits j hj hset, fun b hb => ?_,
    List.pairwise_cons.mpr ⟨fun b hb j hj hbj => ?_, inv.apart⟩⟩
  · obtain rfl | hb := List.mem_cons.mp hb
    · have hbelow := al.below
      refine ⟨?_, ?_, ?_, hs, ?_, rfl, ?_, ?_, al.header⟩
      · rw [al.keeps.length]
        exact al.below
      · rw [al.keeps.span]
        exact al.span
      · rw [al.keeps.ram.size]
        exact al.inRam
      · rw [payload, payload, al.keeps.offset]
      · rintro j ⟨h1, h2⟩
        simp only at h1 h2
        rw [al.bit j (by omega)]
        exact fill_in h1 h2
      · exact fun x hx => al.apart x (al.keeps.storage.mp hx)
    · have ok := inv.ok b hb
      refine ok.keep al.keeps (fun x hx => inv.miss_new al hb (ok.header_page hx)) fun j hj => ?_
      have := ok.below
      exact bits j (by have := hj.2; omega) (ok.marked j hj)
  · have hset := (inv.ok b hb).marked j hbj
    rw [al.clear j hj.1 hj.2] at hset
    contradiction

/-- Writes into the pages of one block leave the bitmap and the other blocks. -/
lemma Heap.Good.written {W : Nat → Prop} (inv : t.Good) (hb : b ∈ t.live) (k : Keeps t.pmm p' W)
    (hW : ∀ x, W x → InPages b.page b.count x) :
    Ready p' ∧ (∀ j < t.pmm.pmmLength, p'.bit j = t.pmm.bit j) ∧
      (∀ c ∈ t.live, ∀ i, c.Has i → p'.bit i = true) ∧ ∀ c ∈ t.live, c ≠ b → BlockOk p' c := by
  have bits : ∀ j < t.pmm.pmmLength, p'.bit j = t.pmm.bit j := fun j hj =>
    k.bit (fun x hx hw => (inv.ok b hb).apart x hx (hW x hw)) hj
  have marked : ∀ c ∈ t.live, ∀ i, c.Has i → p'.bit i = true := by
    intro c hc i hi
    have ok := inv.ok c hc
    have := ok.below
    rw [bits i (by have := hi.2; omega)]
    exact ok.marked i hi
  refine ⟨inv.ready.keep k fun j hj hset _ => (bits j hj).trans hset, bits, marked,
    fun c hc hne => ?_⟩
  refine (inv.ok c hc).keep k (fun x hx hw => ?_) (marked c hc)
  have hin := (inv.ok c hc).header_page hx
  exact inv.apart_of_ne hc hb hne _ (has_iff.mpr hin) (has_iff.mpr (hW x hw))

/-- Writes into the payload of a block keep the invariant. -/
lemma Heap.Good.touch {W : Nat → Prop} (inv : t.Good) (hb : b ∈ t.live) (k : Keeps t.pmm p' W)
    (hW : ∀ x, W x → InPages (b.page + 1) (pageCount b.request) x) : Heap.Good ⟨p', t.live⟩ := by
  have ok := inv.ok b hb
  have hcount := ok.count
  obtain ⟨ready, _, marked, others⟩ := inv.written hb k fun x hx => by
    obtain ⟨h1, h2⟩ := hW x hx
    exact ⟨by omega, by omega⟩
  refine ⟨ready, fun c hc => ?_, inv.apart⟩
  by_cases e : c = b
  · subst e
    -- the header page is not among the payload pages
    refine ok.keep k (fun x hx hw => ?_) (marked c hc)
    have := hx.2
    have := (hW x hw).1
    omega
  · exact others c hc e

/-- Another size in the header of a block, for the same pages, keeps the invariant. -/
lemma Heap.Good.resize {W : Nat → Prop} {r} (inv : t.Good) (hb : b ∈ t.live)
    (k : Keeps t.pmm p' W) (hW : ∀ x, W x → InPages b.page 1 x) (hr : r < 2 ^ 64)
    (hcount : pageCount r = pageCount b.request) (hd : HasHeader p' b.page (pageCount r) r) :
    Heap.Good ⟨p', t.live.map fun c => if c.addr = b.addr then { c with request := r } else c⟩ := by
  have ok := inv.ok b hb
  obtain ⟨ready, _, marked, others⟩ := inv.written hb k fun x hx => ok.header_page (hW x hx)
  have has : ∀ c : Block, ∀ i, (if c.addr = b.addr then { c with request := r } else c).Has i ↔
      c.Has i := by
    intro c i
    split <;> rfl
  refine ⟨ready, fun c hc => ?_, ?_⟩
  · obtain ⟨c, hmem, rfl⟩ := List.mem_map.mp hc
    split
    case isTrue e =>
      cases inv.eq_of_addr hmem hb e
      exact ok.update k (marked b hb) hr hcount hd
    case isFalse e => exact others c hmem fun h => e (by rw [h])
  · rw [List.pairwise_map]
    refine inv.apart.imp fun h i hi => ?_
    rw [has] at hi ⊢
    exact h i hi

/-- Freeing an address takes out its block and no other. -/
lemma Heap.Good.mem_without (inv : t.Good) (hb : b ∈ t.live) {c} :
    c ∈ t.without b.addr ↔ c ∈ t.live ∧ c ≠ b := by
  simp only [Heap.without, List.mem_filter, decide_eq_true_eq]
  refine and_congr_right fun hc => not_congr ⟨inv.eq_of_addr hc hb, fun h => by rw [h]⟩

/-- Freeing a live block clears its pages and keeps the invariant. -/
lemma Heap.Good.drop (inv : t.Good) (hb : b ∈ t.live) :
    ∃ p', kfree t.pmm b.addr = some p' ∧ Keeps t.pmm p' (Storage t.pmm) ∧
      p'.bit = fill t.pmm.bit b.page b.count false ∧ Heap.Good ⟨p', t.without b.addr⟩ := by
  have ok := inv.ok b hb
  obtain ⟨p', hfree, k, bits⟩ := kfree_spec inv.ready ok.header (by rw [← ok.count]; exact ok.below)
    (by rw [← ok.count]; exact ok.span) (by rw [← ok.count]; exact ok.inRam)
  rw [← ok.count] at bits
  rw [← ok.addr] at hfree
  have out : ∀ j, ¬ b.Has j → p'.bit j = t.pmm.bit j := by
    intro j hj
    rw [bits, fill_out]
    unfold Block.Has at hj
    omega
  refine ⟨p', hfree, k, bits, ⟨inv.ready.keep k ?_, fun c hc => ?_, ?_⟩⟩
  · rintro j hj hset ⟨x, hx, rfl⟩
    rw [out _ fun hin => ok.apart x hx (has_iff.mp hin)]
    exact hset
  · obtain ⟨hc, hne⟩ := (inv.mem_without hb).mp hc
    have okc := inv.ok c hc
    refine okc.keep k (fun x hx hs => okc.apart x hs (okc.header_page hx)) fun i hi => ?_
    rw [out i (inv.apart_of_ne hc hb hne i hi)]
    exact okc.marked i hi
  · exact inv.apart.sublist List.filter_sublist

end Invariant

section Calls
variable {t t' : Heap} {p' : Pmm RamBitmap} {b : Block}

/-- What a step leaves of the bits and of the bytes of live blocks, in terms of the pages allocated
for them. -/
structure Frame (t t' : Heap) (target : Option Nat) : Prop where
  released : ∀ i, t.Held i → ¬ t'.Held i → t'.pmm.bit i = false
  kept : ∀ i < t.pmm.pmmLength, ¬ t.Held i → ¬ t'.Held i → t'.pmm.bit i = t.pmm.bit i
  untouched : ∀ b ∈ t.live, target ≠ some b.addr → ∀ x, InPages b.page b.count x →
    t'.pmm.ram.byte x = t.pmm.ram.byte x

/-- A call that frames the rest, succeeds and zeroes what it should. -/
lemma Frame.proper {c : HeapCall} {a} (inv : t.Good) (fr : Frame t t' c.target)
    (succeeds : c.asks t ≠ none → a ≠ 0)
    (zeroed : c.isNew = true → a ≠ 0 →
      ∀ j < 0x1000 * t'.pages a, t'.pmm.ram.byte (t'.pmm.phys (a + j)) = 0)
    (frees : ∀ b ∈ t.live, c = .kfree b.addr →
      t'.pmm.bit = fill t.pmm.bit b.page b.count false ∧ t'.live = t.without b.addr) :
    HeapCall.Proper t c a t' where
  succeeds := succeeds
  zeroed := zeroed
  released := fr.released
  kept := fr.kept
  frees := frees
  untouched := fun b hb htarget x hx =>
    fr.untouched b hb htarget x (has_iff.mp (((inv.ok b hb).owns_iff inv.ready).mp hx))

/-- A step that changes nothing. -/
lemma Frame.refl (t : Heap) (target) : Frame t t target :=
  ⟨fun _ h h' => absurd h h', fun _ _ _ _ => rfl, fun _ _ _ _ _ => rfl⟩

/-- One step after another, where no block of the first is lost in it and only such blocks in the
second. -/
lemma Frame.trans {u : Heap} {target} (h : Frame t u target) (h' : Frame u t' target)
    (sub : ∀ b ∈ t.live, b ∈ u.live) (lost : ∀ i, u.Held i → ¬ t'.Held i → t.Held i)
    (length : u.pmm.pmmLength = t.pmm.pmmLength) : Frame t t' target where
  released := fun i ⟨b, hb, hi⟩ hn => h'.released i ⟨b, sub b hb, hi⟩ hn
  kept := fun i hi hn hn' => by
    have hu : ¬ u.Held i := fun hu => hn (lost i hu hn')
    rw [h'.kept i (by rw [length]; exact hi) hu hn', h.kept i hi hn hu]
  untouched := fun b hb ht x hx => by
    rw [h'.untouched b (sub b hb) ht x hx, h.untouched b hb ht x hx]

/-- Taking a block, and writing into its payload then. -/
lemma Frame.take {size i request target} (inv : t.Good) {q} (al : Allocated t.pmm size i q)
    (k : Keeps q p' (InPages (i + 1) (pageCount size))) :
    Frame t ⟨p', ⟨payload t.pmm i, i, pageCount size + 1, request⟩ :: t.live⟩ target := by
  have sub : ∀ x, InPages (i + 1) (pageCount size) x → InPages i (pageCount size + 1) x :=
    fun x hx => ⟨by have := hx.1; omega, by have := hx.2; omega⟩
  refine ⟨fun j ⟨b, hb, hj⟩ h' => absurd ⟨b, List.mem_cons_of_mem _ hb, hj⟩ h', ?_, ?_⟩
  · intro j hlt _ h'
    have hnew : ¬ (i ≤ j ∧ j < i + (pageCount size + 1)) := fun h => h' ⟨_, List.mem_cons_self, h⟩
    show p'.bit j = t.pmm.bit j
    rw [k.bit (fun x hx hw => al.apart x (al.keeps.storage.mp hx) (sub x hw))
      (by rw [al.keeps.length]; exact hlt), al.bit j hlt, fill_out (by omega)]
  · intro b hb _ x hx
    have miss := inv.miss_new al hb hx
    show p'.ram.byte x = t.pmm.ram.byte x
    rw [k.ram.byte x fun hw => miss (.inr (sub x hw)), al.keeps.ram.byte x miss]

/-- Writing into the pages of a block, where the live blocks stay but for their requests. -/
lemma Frame.touch {W : Nat → Prop} {live} (inv : t.Good) (hb : b ∈ t.live) (k : Keeps t.pmm p' W)
    (hW : ∀ x, W x → InPages b.page b.count x)
    (held : ∀ i, (⟨p', live⟩ : Heap).Held i ↔ t.Held i) :
    Frame t ⟨p', live⟩ (some b.addr) := by
  obtain ⟨_, bits, _, _⟩ := inv.written hb k hW
  refine ⟨fun j h h' => absurd ((held j).mpr h) h', fun j hj _ _ => bits j hj, ?_⟩
  intro c hc htarget x hx
  have hne : c ≠ b := fun e => htarget (by rw [e])
  exact k.ram.byte x fun hw =>
    inv.apart_of_ne hc hb hne _ (has_iff.mpr hx) (has_iff.mpr (hW x hw))

/-- Freeing a block. -/
lemma Frame.drop (inv : t.Good) (hb : b ∈ t.live) (k : Keeps t.pmm p' (Storage t.pmm))
    (bits : p'.bit = fill t.pmm.bit b.page b.count false) {target} :
    Frame t ⟨p', t.without b.addr⟩ target := by
  refine ⟨?_, ?_, ?_⟩
  · rintro j ⟨c, hc, hj⟩ h'
    obtain rfl : c = b := by
      by_contra hne
      exact h' ⟨c, (inv.mem_without hb).mpr ⟨hc, hne⟩, hj⟩
    show p'.bit j = false
    rw [bits]
    exact fill_in hj.1 hj.2
  · intro j _ h _
    have hj : ¬ b.Has j := fun hj => h ⟨b, hb, hj⟩
    show p'.bit j = t.pmm.bit j
    rw [bits, fill_out]
    unfold Block.Has at hj
    omega
  · intro c hc _ x hx
    exact k.ram.byte x fun hs => (inv.ok c hc).apart x hs hx

/-- The block `kmalloc` returned, as it is listed. -/
lemma grant_eq {size i request} (inv : t.Good) (al : Allocated t.pmm size i p') {q}
    (hq : q.memPhysOffset = t.pmm.memPhysOffset) :
    grant q (payload t.pmm i) size request =
      ⟨payload t.pmm i, i, pageCount size + 1, request⟩ := by
  have hoff := inv.ready.offset_lt
  have hram := al.inRam
  have e : payload t.pmm i = payload q i := by rw [payload, payload, hq]
  rw [grant, e, phys_kmemHeader (by rw [hq]; omega), Nat.mul_div_cancel_left i (by decide)]

/-- A payload is not at `NULL`. -/
lemma payload_ne_zero (p : Pmm RamBitmap) (i : Nat) : payload p i ≠ 0 := by
  unfold payload
  omega

/-- What a call should come to. -/
def HeapCall.Outcome (t : Heap) (c : HeapCall) : Prop :=
  ∃ a t', t.exec c = some (a, t') ∧ t'.Good ∧ HeapCall.Proper t c a t'

/-- A new payload that is zero in physical memory is zero behind its pointer. -/
lemma zeroed_of_pages {size i} (good : t'.Good)
    (hb : (⟨payload t.pmm i, i, pageCount size + 1, size⟩ : Block) ∈ t'.live)
    (hz : ∀ x, InPages (i + 1) (pageCount size) x → t'.pmm.ram.byte x = 0) :
    ∀ j < 0x1000 * t'.pages (payload t.pmm i),
      t'.pmm.ram.byte (t'.pmm.phys (payload t.pmm i + j)) = 0 := by
  intro j hj
  have ok := good.ok _ hb
  have hpages := ok.pages good.ready
  have hram := ok.inRam
  have hoff := good.ready.offset_lt
  have e : payload t.pmm i = payload t'.pmm i := ok.addr
  simp only at hram hpages
  rw [hpages] at hj
  rw [e, phys_payload (by omega)]
  exact hz _ ⟨by omega, by omega⟩

/-- A careful `kmalloc` that is served. -/
lemma kmalloc_outcome {size} (inv : t.Good) (valid : HeapCall.Valid t (.kmalloc size))
    (served : HeapCall.Served t (.kmalloc size)) (careful : HeapCall.Careful t (.kmalloc size)) :
    HeapCall.Outcome t (.kmalloc size) := by
  obtain ⟨a, q, hq, ha⟩ := served _ rfl
  obtain ⟨i, p', _, hk, al⟩ := kmalloc_spec inv.ready valid hq ha (careful.1 _ rfl)
  have good := inv.take valid al
  refine ⟨payload t.pmm i, _, ?_, good, ?_⟩
  · simp only [Heap.exec, hk, Option.bind_eq_bind, Option.bind_some, if_neg (payload_ne_zero _ _),
      grant_eq inv al al.keeps.offset]
  · refine Frame.proper inv (Frame.take inv al (.refl p' _)) (fun _ => payload_ne_zero _ _) ?_ nofun
    exact fun _ _ => zeroed_of_pages good List.mem_cons_self al.zero

/-- The division test of `kcalloc` lets no product through that wraps. -/
lemma mul_mod_eq_of_div {num nsize : Nat} (h : nsize = num * nsize % 2 ^ 64 / num) :
    num * nsize % 2 ^ 64 = num * nsize := by
  have h1 : num * nsize % 2 ^ 64 / num * num ≤ num * nsize % 2 ^ 64 := Nat.div_mul_le_self _ _
  rw [← h, Nat.mul_comm] at h1
  exact Nat.le_antisymm (Nat.mod_le _ _) h1

/-- A careful `kcalloc` that is served. -/
lemma kcalloc_outcome {num nsize} (inv : t.Good)
    (served : HeapCall.Served t (.kcalloc num nsize))
    (careful : HeapCall.Careful t (.kcalloc num nsize)) :
    HeapCall.Outcome t (.kcalloc num nsize) := by
  by_cases h0 : num = 0 ∨ nsize = 0 ∨ nsize ≠ num * nsize % 2 ^ 64 / num
  · -- `NULL` without an allocation
    have hk : kcalloc t.pmm num nsize = some (0, t.pmm) := by
      unfold kcalloc
      split
      · rfl
      · rw [if_pos]
        tauto
    refine ⟨0, t, ?_, inv, Frame.proper inv (.refl t _) (fun h => ?_) (fun _ h => absurd rfl h) nofun⟩
    · simp only [Heap.exec, hk, Option.bind_eq_bind, Option.bind_some, ↓reduceIte]
    · exact absurd (if_pos h0) h
  have hasks : (HeapCall.kcalloc num nsize).asks t = some (pageCount (num * nsize % 2 ^ 64) + 1) :=
    if_neg h0
  simp only [not_or, not_not] at h0
  obtain ⟨hnum, hnsize, hdiv⟩ := h0
  have hexact := mul_mod_eq_of_div hdiv
  obtain ⟨size, hsize⟩ : ∃ size, num * nsize = size := ⟨_, rfl⟩
  rw [hsize] at hasks hdiv hexact
  rw [hexact] at hasks hdiv
  have hlt : size < 2 ^ 64 := by
    rw [← hexact]
    exact Nat.mod_lt _ (by decide)
  obtain ⟨a, q, hq, ha⟩ := served _ hasks
  obtain ⟨i, p', _, hk, al⟩ := kmalloc_spec inv.ready hlt hq ha (careful.1 _ hasks)
  have hoff := inv.ready.offset_lt
  have hram := al.inRam
  have hle := le_pageCount size
  have hphys : p'.phys (payload t.pmm i) = 0x1000 * (i + 1) := by
    have e : payload t.pmm i = payload p' i := by rw [payload, payload, al.keeps.offset]
    have := phys_payload (p := p') (i := i) (j := 0) (by rw [al.keeps.offset]; omega)
    rwa [e]
  obtain ⟨m, hm⟩ : ∃ m, p'.ram.memset (0x1000 * (i + 1)) 0 size = some m :=
    ⟨_, if_pos (.inr (by rw [al.keeps.ram.size]; omega))⟩
  have k : Keeps p' (p'.setRam m) (InPages (i + 1) (pageCount size)) :=
    setRam_keeps ((Ram.memset_keeps hm).mono fun x hx => ⟨hx.1, by have := hx.2; omega⟩)
  have good := (inv.take hlt al).touch List.mem_cons_self k fun x hx => hx
  have hcall : kcalloc t.pmm num nsize = some (payload t.pmm i, p'.setRam m) := by
    simp only [kcalloc, hsize, hexact, hk, hphys, hm, Option.bind_eq_bind, Option.bind_some]
    rw [if_neg (fun h => h.elim hnum hnsize), if_neg (not_not.mpr hdiv), if_neg (payload_ne_zero _ _)]
  refine ⟨payload t.pmm i, _, ?_, good, ?_⟩
  · simp only [Heap.exec, hcall, hsize, hexact, Option.bind_eq_bind, Option.bind_some,
      if_neg (payload_ne_zero _ _)]
    rw [grant_eq inv al (k.offset.trans al.keeps.offset)]
  · refine Frame.proper inv (Frame.take inv al k) (fun _ => payload_ne_zero _ _) (fun _ _ => ?_) nofun
    refine zeroed_of_pages good List.mem_cons_self fun x hx => ?_
    by_cases hin : 0x1000 * (i + 1) ≤ x ∧ x < 0x1000 * (i + 1) + size
    · exact Ram.memset_byte hm hin.1 hin.2
    · show m.byte x = 0
      rw [(Ram.memset_keeps hm).byte x hin]
      exact al.zero x hx

/-- A `kfree` of a live block. -/
lemma kfree_outcome {addr} (inv : t.Good) (valid : HeapCall.Valid t (.kfree addr)) :
    HeapCall.Outcome t (.kfree addr) := by
  obtain ⟨b, hb, rfl⟩ := valid
  obtain ⟨p', hfree, k, bits, good⟩ := inv.drop hb
  refine ⟨b.addr, _, ?_, good, Frame.proper inv (Frame.drop inv hb k bits) ?_ nofun ?_⟩
  · simp only [Heap.exec, hfree, Option.bind_eq_bind, Option.bind_some]
  · exact fun h => absurd rfl h
  · intro c hc e
    cases inv.eq_of_addr hb hc (HeapCall.kfree.inj e)
    exact ⟨bits, rfl⟩

/-- A write of the client into one of its blocks. -/
lemma write_outcome {addr offset c} (inv : t.Good)
    (valid : HeapCall.Valid t (.write addr offset c)) :
    HeapCall.Outcome t (.write addr offset c) := by
  obtain ⟨b, hb, rfl, hlt⟩ := valid
  have ok := inv.ok b hb
  have hcount := ok.count
  have hram := ok.inRam
  have hoff := inv.ready.offset_lt
  rw [ok.pages inv.ready] at hlt
  have hphys : t.pmm.phys (b.addr + offset) = 0x1000 * (b.page + 1) + offset := by
    rw [ok.addr]
    exact phys_payload (by omega)
  obtain ⟨m, hm⟩ : ∃ m, t.pmm.ram.store8 (0x1000 * (b.page + 1) + offset) c = some m :=
    ⟨_, if_pos (by omega)⟩
  have k : Keeps t.pmm (t.pmm.setRam m) (InPages (b.page + 1) (pageCount b.request)) := by
    refine setRam_keeps ((Ram.store8_keeps hm).mono fun x hx => ?_)
    subst hx
    exact ⟨by omega, by omega⟩
  refine ⟨b.addr, _, ?_, inv.touch hb k fun x hx => hx, Frame.proper inv ?_ ?_ nofun nofun⟩
  · simp only [Heap.exec, hphys, hm, Option.bind_eq_bind, Option.bind_some]
  · refine Frame.touch inv hb k (fun x hx => ?_) fun i => Iff.rfl
    obtain ⟨h1, h2⟩ := hx
    exact ⟨by omega, by omega⟩
  · exact fun h => absurd rfl h

/-- `krealloc` with a size that `ROUND_UP` takes to the same: only the header is written. -/
lemma krealloc_in_place {size} (inv : t.Good) (hb : b ∈ t.live) (h0 : size ≠ 0)
    (hround : roundUpPage b.request = roundUpPage size) :
    ∃ m, t.pmm.ram.store64 (0x1000 * b.page + 8) size = some m ∧
      krealloc t.pmm b.addr size = some (b.addr, t.pmm.setRam m) := by
  have ok := inv.ok b hb
  have hsize := ok.size inv.ready
  have hram := ok.inRam
  have hoff := inv.ready.offset_lt
  have hcount := ok.count
  have haddr : b.addr ≠ 0 := by
    rw [ok.addr]
    exact payload_ne_zero _ _
  have hphys : t.pmm.phys (kmemHeader b.addr + 8) = 0x1000 * b.page + 8 := by
    rw [ok.addr]
    exact phys_kmemHeader_size (by omega)
  obtain ⟨m, hm⟩ := Ram.store64_isSome (m := t.pmm.ram) (a := 0x1000 * b.page + 8) (v := size)
    (by omega)
  refine ⟨m, hm, ?_⟩
  rw [krealloc, if_neg haddr, if_neg h0, hsize]
  simp only [Option.bind_eq_bind, Option.bind_some, if_pos hround, Pmm.store64, hphys, hm, Option.map_some]

/-- `krealloc` with a size that takes the same pages. -/
lemma krealloc_same {b : Block} {size} (inv : t.Good) (hb : b ∈ t.live) (hs : size < 2 ^ 64)
    (h0 : size ≠ 0) (careful : HeapCall.Careful t (.krealloc b.addr size))
    (hround : roundUpPage b.request = roundUpPage size) :
    HeapCall.Outcome t (.krealloc b.addr size) := by
  have ok := inv.ok b hb
  have hsize := ok.size inv.ready
  have hbelow := ok.below
  have hlen := t.pmm.pmmLength_lt
  have hcount := ok.count
  have hpages : pageCount size = pageCount b.request := by
    refine pageCount_of_roundUp (by omega) hs (fun h => ?_) hround
    exact careful.2 _ _ rfl (by rw [hsize, h])
  have haddr : b.addr ≠ 0 := by
    rw [ok.addr]
    exact payload_ne_zero _ _
  obtain ⟨m, hm, hcall⟩ := krealloc_in_place inv hb h0 hround
  have km := Ram.store64_keeps hm
  have k : Keeps t.pmm (t.pmm.setRam m) (InPages b.page 1) :=
    setRam_keeps (km.mono fun x hx => ⟨by omega, by omega⟩)
  have hd : HasHeader (t.pmm.setRam m) b.page (pageCount size) size := by
    constructor
    · rw [hpages, ← ok.header.pages]
      exact Ram.load64_congr km.size fun x h1 h2 => km.byte x (by omega)
    · exact Ram.load64_store64 hs hm
  refine ⟨b.addr, _, ?_, inv.resize hb k (fun x hx => hx) hs hpages hd, Frame.proper inv ?_ ?_ nofun
    nofun⟩
  · simp only [Heap.exec, hcall, Option.bind_eq_bind, Option.bind_some]
    rw [Heap.regrant, if_pos ⟨rfl, haddr⟩]
  · refine Frame.touch inv hb k (fun x hx => ok.header_page hx) fun i => ?_
    simp only [Heap.Held, List.mem_map, exists_exists_and_eq_and]
    refine exists_congr fun c => and_congr_right fun _ => ?_
    split <;> rfl
  · exact fun _ => haddr

/-- `krealloc` with a size that takes other pages: a new block is taken, the old payload copied into
it and the old block freed. -/
lemma krealloc_move {b : Block} {size} (inv : t.Good) (hb : b ∈ t.live) (hs : size < 2 ^ 64)
    (h0 : size ≠ 0) (served : HeapCall.Served t (.krealloc b.addr size))
    (careful : HeapCall.Careful t (.krealloc b.addr size))
    (hround : roundUpPage b.request ≠ roundUpPage size) :
    HeapCall.Outcome t (.krealloc b.addr size) := by
  have ok := inv.ok b hb
  have hsize := ok.size inv.ready
  have haddr : b.addr ≠ 0 := by
    rw [ok.addr]
    exact payload_ne_zero _ _
  have hasks : (HeapCall.krealloc b.addr size).asks t = some (pageCount size + 1) := by
    rw [HeapCall.asks, if_neg haddr, if_neg h0, hsize]
    exact if_neg fun e => hround (Option.some.inj e)
  obtain ⟨a, q, hq, ha⟩ := served _ hasks
  obtain ⟨i, p1, _, hk, al⟩ := kmalloc_spec inv.ready hs hq ha (careful.1 _ hasks)
  -- the new block, and the old one next to it
  obtain ⟨new, hnew⟩ : ∃ new : Block,
    (⟨payload t.pmm i, i, pageCount size + 1, size⟩ : Block) = new := ⟨_, rfl⟩
  have good1 : Heap.Good ⟨p1, new :: t.live⟩ := by
    rw [← hnew]
    exact inv.take hs al
  have hnewmem : new ∈ (⟨p1, new :: t.live⟩ : Heap).live := List.mem_cons_self
  have hbmem : b ∈ (⟨p1, new :: t.live⟩ : Heap).live := List.mem_cons_of_mem _ hb
  have ok1 := good1.ok new hnewmem
  have okb1 := good1.ok b hbmem
  have hram := ok1.inRam
  have hramb := okb1.inRam
  have hoff := good1.ready.offset_lt
  have hcountb := okb1.count
  have hle := le_pageCount size
  have hleb := le_pageCount b.request
  have hne : new ≠ b := by
    rintro rfl
    refine (List.pairwise_cons.mp good1.apart).1 new hb new.page ?_ ?_ <;>
      exact ⟨le_rfl, by have := ok1.count_pos; omega⟩
  have hadd : payload t.pmm i = new.addr := by rw [← hnew]
  have hpage : new.page = i := by rw [← hnew]
  have hcount : new.count = pageCount size + 1 := by rw [← hnew]
  have hreq : new.request = size := by rw [← hnew]
  have hphys : p1.phys new.addr = 0x1000 * (i + 1) := by
    have := phys_payload (p := p1) (i := i) (j := 0) (by simp only at hram hoff; omega)
    rwa [ok1.addr, hpage]
  have hphysb : p1.phys b.addr = 0x1000 * (b.page + 1) := by
    have := phys_payload (p := p1) (i := b.page) (j := 0) (by simp only at hramb hoff; omega)
    rwa [okb1.addr]
  -- no more is copied than either block has
  obtain ⟨n, hn⟩ : ∃ n, (if size < b.request then size else b.request) = n := ⟨_, rfl⟩
  have hn1 : n ≤ size := by rw [← hn]; split <;> omega
  have hn2 : n ≤ b.request := by rw [← hn]; split <;> omega
  obtain ⟨m, hm⟩ := Ram.memcpy_isSome (m := p1.ram) (n := n)
    (show 0x1000 * (i + 1) + n ≤ p1.ram.size by simp only at hram; omega)
    (show 0x1000 * (b.page + 1) + n ≤ p1.ram.size by simp only at hramb; omega)
  have k : Keeps p1 (p1.setRam m) (InPages (i + 1) (pageCount size)) :=
    setRam_keeps ((Ram.memcpy_keeps hm).mono fun x hx => ⟨hx.1, by have := hx.2; omega⟩)
  have good2 : Heap.Good ⟨p1.setRam m, new :: t.live⟩ := by
    refine good1.touch hnewmem k fun x hx => ?_
    rw [hpage, hreq]
    exact hx
  obtain ⟨p3, hfree, k3, bits, good3⟩ := good2.drop hbmem
  have hwithout : (⟨p1.setRam m, new :: t.live⟩ : Heap).without b.addr = new :: t.without b.addr := by
    refine List.filter_cons_of_pos (decide_eq_true fun e => hne ?_)
    exact good1.eq_of_addr hnewmem hbmem e
  have hcall : krealloc t.pmm b.addr size = some (new.addr, p3) := by
    have hsz : p1.load64 (kmemHeader b.addr + 8) = some b.request := okb1.size good1.ready
    rw [krealloc, if_neg haddr, if_neg h0, hsize]
    simp only [Option.bind_eq_bind, Option.bind_some, if_neg hround, kreallocMove, hk, hadd]
    rw [if_neg (by rw [← hadd]; exact payload_ne_zero _ _), hsz]
    simp only [Option.bind_some, hphys, hphysb, hn, hm, hfree]
  have taken : Frame t ⟨p1.setRam m, new :: t.live⟩ (some b.addr) := by
    rw [← hnew]
    exact Frame.take inv al k
  have dropped : Frame ⟨p1.setRam m, new :: t.live⟩ ⟨p3, new :: t.without b.addr⟩ (some b.addr) := by
    rw [← hwithout]
    exact Frame.drop good2 hbmem k3 bits
  rw [hwithout] at good3
  refine ⟨new.addr, _, ?_, good3, Frame.proper inv (taken.trans dropped ?_ ?_ ?_) ?_ nofun nofun⟩
  · have hmoved : ¬ (new.addr = b.addr ∧ b.addr ≠ 0) := fun e =>
      hne (good1.eq_of_addr hnewmem hbmem e.1)
    have hgrant : grant p3 new.addr size size = new := by
      rw [← hadd, grant_eq inv al (k3.offset.trans (k.offset.trans al.keeps.offset)), hnew]
    simp only [Heap.exec, hcall, Option.bind_eq_bind, Option.bind_some]
    rw [Heap.regrant, if_neg hmoved, if_pos (by rw [← hadd]; exact payload_ne_zero _ _), hgrant]
  · exact fun c hc => List.mem_cons_of_mem _ hc
  · rintro j ⟨c, hc, hj⟩ hn
    obtain rfl | hc := List.mem_cons.mp hc
    · exact absurd ⟨c, List.mem_cons_self, hj⟩ hn
    · exact ⟨c, hc, hj⟩
  · exact al.keeps.length
  · intro _
    rw [← hadd]
    exact payload_ne_zero _ _

/-- A careful `krealloc` that is served: it copies, allocates and frees. -/
lemma krealloc_outcome {addr size} (inv : t.Good) (valid : HeapCall.Valid t (.krealloc addr size))
    (served : HeapCall.Served t (.krealloc addr size))
    (careful : HeapCall.Careful t (.krealloc addr size)) :
    HeapCall.Outcome t (.krealloc addr size) := by
  obtain ⟨hs, rfl | ⟨b, hb, rfl⟩⟩ := valid
  · -- `krealloc(NULL, size)` is `kmalloc(size)`
    have hasks : (HeapCall.krealloc 0 size).asks t = some (pageCount size + 1) := rfl
    obtain ⟨a, q, hq, ha⟩ := served _ hasks
    obtain ⟨i, p', _, hk, al⟩ := kmalloc_spec inv.ready hs hq ha (careful.1 _ hasks)
    have hall : t.without 0 = t.live := by
      refine List.filter_eq_self.mpr fun b hb => decide_eq_true ?_
      rw [(inv.ok b hb).addr]
      exact payload_ne_zero _ _
    refine ⟨payload t.pmm i, _, ?_, inv.take hs al, ?_⟩
    · simp only [Heap.exec, krealloc, ↓reduceIte, hk, Option.bind_eq_bind, Option.bind_some]
      rw [Heap.regrant, if_neg (fun h => h.2 rfl), if_pos (payload_ne_zero _ _), hall,
        grant_eq inv al al.keeps.offset]
    · exact Frame.proper inv (Frame.take inv al (.refl p' _)) (fun _ => payload_ne_zero _ _) nofun
        nofun
  have ok := inv.ok b hb
  have haddr : b.addr ≠ 0 := by
    rw [ok.addr]
    exact payload_ne_zero _ _
  by_cases h0 : size = 0
  · subst h0
    obtain ⟨p', hfree, k, bits, good⟩ := inv.drop hb
    refine ⟨0, _, ?_, good, Frame.proper inv (Frame.drop inv hb k bits) ?_ nofun nofun⟩
    · simp only [Heap.exec, krealloc, if_neg haddr, ↓reduceIte, hfree, Option.bind_eq_bind,
        Option.bind_some]
      rw [Heap.regrant, if_neg (fun h => h.2 h.1.symm), if_neg (not_not.mpr rfl),
        if_pos ⟨haddr, rfl⟩]
    · intro h
      rw [HeapCall.asks, if_neg haddr, if_pos rfl] at h
      exact absurd rfl h
  · by_cases hround : roundUpPage b.request = roundUpPage size
    · exact krealloc_same inv hb hs h0 careful hround
    · exact krealloc_move inv hb hs h0 served careful hround

/-- Every call that does no harm comes to what it should. -/
lemma Heap.Good.outcome {c : HeapCall} (inv : t.Good) (valid : c.Valid t) (served : c.Served t)
    (careful : c.Careful t) : c.Outcome t := by
  cases c with
  | kmalloc size => exact kmalloc_outcome inv valid served careful
  | kcalloc num nsize => exact kcalloc_outcome inv served careful
  | krealloc addr size => exact krealloc_outcome inv valid served careful
  | kfree addr => exact kfree_outcome inv valid
  | write addr offset c => exact write_outcome inv valid

/-- A careful call keeps the heap good. -/
lemma Heap.Good.step (inv : t.Good) (st : CarefulStep t t') : t'.Good := by
  obtain ⟨c, a, valid, served, careful, h⟩ := st
  obtain ⟨a', u, hu, good, _⟩ := inv.outcome valid served careful
  rw [h] at hu
  cases hu
  exact good

/-- So does a run of careful calls. -/
lemma Heap.Good.run {p : Pmm RamBitmap} (ready : Ready p)
    (run : Relation.ReflTransGen CarefulStep ⟨p, []⟩ t) : t.Good := by
  induction run with
  | refl => exact ⟨ready, nofun, .nil⟩
  | tail _ st ih => exact ih.step st

/-- In every run of calls whose `pmm_alloc` does not fail, from a bitmap whose own pages are marked
and with each call made where it does no harm, the live blocks are intact in every state, and the next
such call returns and does what it should. -/
theorem heap_intact {p : Pmm RamBitmap} (ready : Ready p)
    (run : Relation.ReflTransGen CarefulStep ⟨p, []⟩ t) :
    t.Intact ∧ ∀ c : HeapCall, c.Valid t → c.Served t → c.Careful t →
      ∃ a t', t.exec c = some (a, t') ∧ t'.Intact ∧ c.Proper t a t' := by
  have inv := Heap.Good.run ready run
  refine ⟨inv.intact, fun c valid served careful => ?_⟩
  obtain ⟨a, t', h, good, proper⟩ := inv.outcome valid served careful
  exact ⟨a, t', h, good.intact, proper⟩

end Calls

section Overrun
variable {t : Heap} {p : Pmm RamBitmap}

/-- The first fit behind pages that are all in use. -/
lemma firstFit_of_prefix {n i} (hn : 1 ≤ n) (full : ∀ j < i, p.bit j = true)
    (clear : ∀ j, i ≤ j → j < i + n → p.bit j = false)
    (span : i + n ≤ BitStore.span p.pmmBitmap) (hlt : i < p.pmmLength) : FirstFit p n 1 i where
  dvd := one_dvd i
  lt := hlt
  clear := fun j h1 h2 => ⟨by omega, clear j h1 h2⟩
  first := fun j hj _ => ⟨j, le_rfl, by omega, by omega, full j hj, fun k h1 h2 => by omega⟩

/-- A `kmalloc` whose first fit is known and ends below `PmmLength`. -/
lemma Heap.Good.kmalloc_at {size i} (inv : t.Good) (hs : size < 2 ^ 64) (hi : 1 ≤ i)
    (fit : FirstFit t.pmm (pageCount size + 1) 1 i)
    (below : i + (pageCount size + 1) ≤ t.pmm.pmmLength)
    (hin : 0x1000 * (i + (pageCount size + 1)) ≤ t.pmm.ram.size) :
    ∃ p', CarefulStep t ⟨p', ⟨payload t.pmm i, i, pageCount size + 1, size⟩ :: t.live⟩ ∧
      Allocated t.pmm size i p' := by
  obtain ⟨q, hq⟩ := pmmAlloc_of_fit (by omega) fit hin
  have fits : ∀ j, FirstFit t.pmm (pageCount size + 1) 1 j →
      j + (pageCount size + 1) ≤ t.pmm.pmmLength := by
    intro j hj
    rw [hj.unique fit]
    exact below
  obtain ⟨k, p', hk, hcall, al⟩ := kmalloc_spec inv.ready hs hq (by omega) fits
  obtain rfl : i = k := by omega
  refine ⟨p', ⟨.kmalloc size, payload t.pmm i, hs, ?_, ⟨?_, nofun⟩, ?_⟩, al⟩
  · rintro n hn
    cases hn
    exact ⟨_, q, hq, by omega⟩
  · rintro n hn
    cases hn
    exact fits
  · simp only [Heap.exec, hcall, Option.bind_eq_bind, Option.bind_some,
      if_neg (payload_ne_zero _ _), grant_eq inv al al.keeps.offset]

/-- Nine usable pages that end at 128 MiB: the bitmap fills the first one, and the page after the
bitmap holds the bits past `PmmLength`. -/
def ninePages : MemmapEntry := ⟨0x7FF7000, 0x9000, .usable⟩

/-- Two pages above them. -/
def firmwarePages : MemmapEntry := ⟨0x8000000, 0x2000, .reserved⟩

/-- Zeroed memory up to the end of these pages. -/
def zeroedRam : Ram := ⟨0x8002000, fun _ => 0, by decide⟩

/-- The bitmap of the nine pages with exactly the pages below `k` in use. -/
structure FilledTo (p : Pmm RamBitmap) (k : Nat) : Prop where
  base : p.pmmBitmap.base = 0x7FF7000
  length : p.pmmLength = 0x8000
  offset : p.memPhysOffset = 0xFFFF800000000000
  size : p.ram.size = 0x8002000
  full : ∀ j < k, p.bit j = true
  clear : ∀ j, k ≤ j → j < 0x8000 → p.bit j = false

/-- `pmm_init` marks everything below the pages it frees. -/
lemma pmmInit_filledTo :
    ∃ p, pmmInit 0xFFFF800000000000 [ninePages, firmwarePages] zeroedRam = some p ∧
      FilledTo p 0x7FF8 := by
  have h : (pmmInit 0xFFFF800000000000 [ninePages, firmwarePages] zeroedRam).map
      (fun p => (p.pmmBitmap.base, p.pmmLength, p.memPhysOffset, p.ram.size)) =
      some (0x7FF7000, 0x8000, 0xFFFF800000000000, 0x8002000) := by decide
  obtain ⟨p, hp, e⟩ := Option.map_eq_some_iff.mp h
  simp only [Prod.mk.injEq] at e
  obtain ⟨hb, hl, ho, hs⟩ := e
  obtain ⟨E, at_⟩ := pmmInit_initAt hp
  obtain rfl : E = ninePages := by
    have hu := at_.usable
    have hm := at_.mem
    simp only [List.mem_cons, List.not_mem_nil, or_false] at hm
    obtain rfl | rfl := hm
    · rfl
    · exact absurd hu (by decide)
  have hpages : freedPages ninePages.base (newLength ninePages) ninePages = (0x7FF8, 8) := by decide
  have hfreed : ∀ j, Freed [ninePages, firmwarePages] ninePages j ↔ 0x7FF8 ≤ j ∧ j < 0x7FF8 + 8 := by
    intro j
    constructor
    · rintro ⟨e, he, hu, hbase, h⟩
      simp only [List.mem_cons, List.not_mem_nil, or_false] at he
      obtain rfl | rfl := he
      · rwa [hpages] at h
      · exact absurd hu (by decide)
    · intro h
      refine ⟨ninePages, List.mem_cons_self, rfl, le_rfl, ?_⟩
      rwa [hpages]
  have hnew : newLength ninePages = 0x8000 := by decide
  refine ⟨p, hp, hb, hl, ho, hs, fun j hj => ?_, fun j h1 h2 => ?_⟩
  · exact at_.marked j (fun hf => by have := ((hfreed j).mp hf).1; omega) (by rw [hnew]; omega)
  · exact at_.freed j (by omega) (by omega) ((hfreed j).mpr ⟨h1, h2⟩)

/-- The page of the bitmap is marked. -/
lemma FilledTo.ready {k} (f : FilledTo p k) (hk : 0x7FF8 ≤ k) : Ready p := by
  refine ⟨fun x hx _ => f.full _ ?_, ?_, ?_⟩
  · unfold Storage at hx
    rw [f.base, f.length] at hx
    omega
  · rw [f.size, f.offset]
    omega
  · rw [f.size, f.offset]
    omega

/-- The bitmap can be read two pages past its end. -/
lemma FilledTo.span {k} (f : FilledTo p k) : 0x8002 ≤ BitStore.span p.pmmBitmap := by
  have hs : p.pmmBitmap.ram.size = 0x8002000 := f.size
  show 0x8002 ≤ RamBitmap.span p.pmmBitmap
  rw [RamBitmap.span, f.base, hs]
  omega

/-- Marking the pages from `k` on, with writes anywhere else. -/
lemma FilledTo.mark {q : Pmm RamBitmap} {k n} {W : Nat → Prop} (f : FilledTo p k) (keeps : Keeps p q W)
    (bit : ∀ j < p.pmmLength, q.bit j = fill p.bit k n true j) (below : k + n ≤ 0x8000) :
    FilledTo q (k + n) := by
  have length := f.length
  refine ⟨keeps.base.trans f.base, keeps.length.trans length, keeps.offset.trans f.offset,
    keeps.ram.size.trans f.size, fun j hj => ?_, fun j h1 h2 => ?_⟩
  · rw [bit j (by omega)]
    by_cases hlt : j < k
    · rw [fill_out (by omega)]
      exact f.full j hlt
    · exact fill_in (by omega) hj
  · rw [bit j (by omega), fill_out (by omega)]
    exact f.clear j (by omega) h2

/-- A `kmalloc` takes the pages from `k` on. -/
lemma FilledTo.kmalloc {k size n} (good : t.Good) (f : FilledTo t.pmm k) (hs : size < 2 ^ 64)
    (hn : pageCount size + 1 = n) (hk : 1 ≤ k) (hend : k + n ≤ 0x8000) :
    ∃ p', CarefulStep t ⟨p', ⟨payload t.pmm k, k, n, size⟩ :: t.live⟩ ∧
      Allocated t.pmm size k p' ∧ FilledTo p' (k + n) := by
  subst hn
  have hspan := f.span
  have hlen := f.length
  have hsize := f.size
  have fit := firstFit_of_prefix (by omega) f.full (fun j h1 h2 => f.clear j h1 (by omega))
    (show k + (pageCount size + 1) ≤ _ by omega) (by omega)
  obtain ⟨p', st, al⟩ := good.kmalloc_at hs hk fit (by omega) (by omega)
  exact ⟨p', st, al, f.mark al.keeps al.bit hend⟩

/-- A block of two payload pages and one of three are allocated after each other; of the nine pages
the last one is left. -/
lemma FilledTo.two_blocks (f : FilledTo p 0x7FF8) :
    ∃ q, Relation.ReflTransGen CarefulStep ⟨p, []⟩
        ⟨q, [⟨payload p 0x7FFB, 0x7FFB, 4, 0x3000⟩, ⟨payload p 0x7FF8, 0x7FF8, 3, 0x2000⟩]⟩ ∧
      FilledTo q 0x7FFF ∧ q.memPhysOffset = p.memPhysOffset := by
  have good0 : Heap.Good ⟨p, []⟩ := ⟨f.ready le_rfl, nofun, .nil⟩
  obtain ⟨p1, st1, al1, f1⟩ := FilledTo.kmalloc (n := 3) good0 f
    (show 0x2000 < 2 ^ 64 by decide) (by decide) (by decide) (by decide)
  obtain ⟨p2, st2, al2, f2⟩ := FilledTo.kmalloc (n := 4) (good0.step st1) f1
    (show 0x3000 < 2 ^ 64 by decide) (by decide) (by decide) (by decide)
  have e : payload p1 0x7FFB = payload p 0x7FFB := by rw [payload, payload, al1.keeps.offset]
  simp only [e] at st2
  exact ⟨p2, .tail (.tail .refl st1) st2, f2, al2.keeps.offset.trans al1.keeps.offset⟩

/-- Two blocks after each other in the nine pages. -/
theorem heap_intact_ninePages :
    ∃ p q, pmmInit 0xFFFF800000000000 [ninePages, firmwarePages] zeroedRam = some p ∧ Ready p ∧
      Relation.ReflTransGen CarefulStep ⟨p, []⟩
        ⟨q, [⟨payload p 0x7FFB, 0x7FFB, 4, 0x3000⟩, ⟨payload p 0x7FF8, 0x7FF8, 3, 0x2000⟩]⟩ ∧
      Heap.Intact
        ⟨q, [⟨payload p 0x7FFB, 0x7FFB, 4, 0x3000⟩, ⟨payload p 0x7FF8, 0x7FF8, 3, 0x2000⟩]⟩ := by
  obtain ⟨p, hp, f⟩ := pmmInit_filledTo
  obtain ⟨q, run, _⟩ := f.two_blocks
  exact ⟨p, q, hp, f.ready le_rfl, run, (heap_intact (f.ready le_rfl) run).1⟩

/-- The bits past `PmmLength` are those of the first word after the bitmap. -/
lemma bit_past_end {v j} (base : p.pmmBitmap.base = 0x7FF7000)
    (h : p.ram.load64 (0x1000 * 0x7FF8) = some v) (hj : j < 64) :
    p.bit (0x8000 + j) = v.testBit j := by
  have e1 : p.pmmBitmap.base + (0x8000 + j) / 8 = 0x1000 * 0x7FF8 + j / 8 := by omega
  have e2 : (0x8000 + j) % 8 = j % 8 := by omega
  rw [Ram.load64_testBit h hj]
  show (p.ram.byte (p.pmmBitmap.base + (0x8000 + j) / 8)).getLsbD ((0x8000 + j) % 8) = _
  rw [e1, e2]

/-- The number 2 with its lowest bit set. -/
lemma eq_three {v : Nat} (hv : v < 2 ^ 64)
    (h : ∀ j < 64, v.testBit j = if j = 0 then true else Nat.testBit 2 j) : v = 3 := by
  apply Nat.eq_of_testBit_eq
  intro j
  by_cases hj : j < 64
  · rw [h j hj]
    interval_cases j <;> rfl
  · have hpow : 2 ^ 64 ≤ 2 ^ j := Nat.pow_le_pow_right (by decide) (by omega)
    rw [Nat.testBit_lt_two_pow (hv.trans_le hpow),
      Nat.testBit_lt_two_pow ((by decide : 3 < 2 ^ 64).trans_le hpow)]

/-- One page is left and `kmalloc` asks for two. Bit `PmmLength` is the lowest bit of the first word
after the bitmap: it is clear where that word is 2, the page past the end is taken with the last one
and the word is 3 then. -/
lemma FilledTo.overrun (live) (f : FilledTo p 0x7FFF)
    (hword : p.ram.load64 (0x1000 * 0x7FF8) = some 2) :
    ∃ r b, HeapStep ⟨p, live⟩ ⟨r, b :: live⟩ ∧ r.ram.load64 (0x1000 * 0x7FF8) = some 3 ∧
      r.memPhysOffset = p.memPhysOffset := by
  have hspan := f.span
  have fit : FirstFit p 2 1 0x7FFF := by
    refine firstFit_of_prefix (by omega) f.full (fun j h1 h2 => ?_) (by omega)
      (by rw [f.length]; omega)
    obtain rfl | rfl : j = 0x7FFF ∨ j = 0x8000 := by omega
    · exact f.clear _ le_rfl (by omega)
    · exact bit_past_end (j := 0) f.base hword (by omega)
  obtain ⟨q', hq'⟩ := pmmAlloc_of_fit (by omega) fit (by rw [f.size]; omega)
  obtain ⟨i, q, m, hi, _, taken, rewritten, hm, rfl⟩ := pmmAlloc_placed (by omega) hq' (by omega)
  obtain rfl : i = 0x7FFF := by omega
  have km := Ram.memset_keeps hm
  have hsize : (q.setRam m).ram.size = p.ram.size := km.size.trans rewritten.size
  have halloc : pmmAlloc p (pageCount 1 + 1) = some (0x1000 * 0x7FFF, q.setRam m) := hq'
  obtain ⟨r, hr, k, _⟩ := kmalloc_of_pmmAlloc (by omega) halloc (by omega) hsize taken.offset
    (by rw [f.size]; omega) (by rw [f.offset, f.size]; omega)
  -- the word after the bitmap is not in the pages taken
  have hkept : r.ram.load64 (0x1000 * 0x7FF8) = q.ram.load64 (0x1000 * 0x7FF8) := by
    refine Ram.load64_congr (k.ram.size.trans km.size) fun x h1 h2 => ?_
    rw [k.ram.byte x fun hin => by have := hin.1; omega]
    exact km.byte x (by omega)
  have hq : q.ram.size = 0x8002000 := rewritten.size.trans f.size
  obtain ⟨v, hv⟩ := Ram.load64_isSome (m := q.ram) (a := 0x1000 * 0x7FF8) (by omega)
  obtain rfl : v = 3 := by
    refine eq_three (Ram.load64_lt hv) fun j hj => ?_
    have hbit : q.bit (0x8000 + j) = fill p.bit 0x7FFF 2 true (0x8000 + j) := congrFun taken.bit _
    rw [← bit_past_end (rewritten.base.trans f.base) hv hj, hbit]
    by_cases h0 : j = 0
    · rw [if_pos h0]
      exact fill_in (by omega) (by omega)
    · rw [if_neg h0, fill_out (by omega)]
      exact bit_past_end f.base hword hj
  refine ⟨r, grant r (payload p 0x7FFF) 1 1, ?_, hkept.trans hv, k.offset.trans taken.offset⟩
  refine ⟨.kmalloc 1, payload p 0x7FFF, (by decide : 1 < 2 ^ 64), ?_, ?_⟩
  · intro n hn
    cases hn
    exact ⟨_, _, halloc, by omega⟩
  · simp only [Heap.exec, hr, Option.bind_eq_bind, Option.bind_some, if_neg (payload_ne_zero _ _)]

/-- After the overrun the header of the first block says three payload pages, and the third of them is
the header page of the second block. -/
theorem kmalloc_corrupts_header :
    ∃ p t, WellFormed [ninePages, firmwarePages] ∧
      pmmInit 0xFFFF800000000000 [ninePages, firmwarePages] zeroedRam = some p ∧ Ready p ∧
      Relation.ReflTransGen HeapStep ⟨p, []⟩ t ∧ ¬ t.Intact := by
  obtain ⟨p, hp, f⟩ := pmmInit_filledTo
  have ready := f.ready le_rfl
  obtain ⟨q, run, fq, hoff⟩ := f.two_blocks
  obtain ⟨A, hA⟩ : ∃ A : Block, (⟨payload p 0x7FF8, 0x7FF8, 3, 0x2000⟩ : Block) = A := ⟨_, rfl⟩
  obtain ⟨B, hB⟩ : ∃ B : Block, (⟨payload p 0x7FFB, 0x7FFB, 4, 0x3000⟩ : Block) = B := ⟨_, rfl⟩
  rw [hA, hB] at run
  have hword := ((Heap.Good.run ready run).ok A (by simp)).header.pages
  simp only [← hA] at hword
  obtain ⟨r, C, step, h3, hr⟩ := fq.overrun [B, A] hword
  refine ⟨p, ⟨r, [C, B, A]⟩, ⟨?_, by decide, by decide, by decide⟩, hp, ready, ?_, fun intact => ?_⟩
  · exact List.pairwise_pair.mpr (by decide)
  · refine .tail (Relation.ReflTransGen.mono (fun t u => ?_) _ _ run) step
    rintro ⟨c, a, valid, served, _, h⟩
    exact ⟨c, a, valid, served, h⟩
  · have hpages : Heap.pages ⟨r, [C, B, A]⟩ A.addr = 3 := by
      have e : A.addr = payload r 0x7FF8 := by rw [← hA, payload, payload, hr, hoff]
      rw [Heap.pages, Pmm.load64, e, phys_kmemHeader (by rw [hr, fq.offset]; omega), h3]
      rfl
    obtain ⟨_, hlive⟩ := List.pairwise_cons.mp intact.apart
    refine (List.pairwise_cons.mp hlive).1 A (by simp) 0x7FFB ⟨?_, ?_⟩ ⟨?_, ?_⟩
    · rw [← hB]
    · rw [← hB]
      simp only
      omega
    · rw [← hA]
      simp only
      omega
    · rw [hpages, ← hA]
      simp only
      omega

end Overrun

end WivOS.Mem
