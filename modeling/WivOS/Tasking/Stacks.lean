import WivOS.Tasking.Alone
import WivOS.Tasking.Tables
import WivOS.Vmm.Riscv64Map

/-!
# Stacks of threads

`thread_create` maps the stack of a thread outside the kernel's process and unmaps the guard page below it.
The stacks lie one below the other, five pages each with the guard page, so each page table covers those of
about a hundred threads. `vmm_map` allocates the tables of the stack. The guard page shares its last table
with the page above it, unless the stack starts with a block of 2 MiB: of the threads that a process can have
that is the one with the `tid` 204.
-/

namespace WivOS.Tasking
open WivOS.Lib WivOS.Lib.LockProg WivOS.Lib.LockProg.Prog WivOS.Lib.Radix WivOS.Vmm WivOS.Vmm.Riscv64

/-- The permissions of a stack, as its leaves have them. -/
def stackFlags : Nat := (vmmExecute ||| vmmRead ||| vmmWrite ||| vmmUser) ||| vmmPresent

/-- The stacks of the first threads of a process are in place: each in frames of its own, which `frames` names
by the first one, and apart from the others, with a guard page that is not mapped. -/
structure StacksMapped (c : Paging) (root : Nat) (frames : List Nat) (m : PhysMem) : Prop where
  own : frames.Pairwise fun f g => f + 4 ≤ g ∨ g + 4 ≤ f
  stack : ∀ tid, ∀ f ∈ frames[tid]?, ∀ va, stackBottom tid ≤ va → va < stackBottom tid + stackSize →
    walk c root m va = some (0x1000 * f + (va - stackBottom tid), stackFlags)
  guard : ∀ tid < frames.length, ∀ va, stackGuardPage tid ≤ va → va < stackBottom tid →
    walk c root m va = none
  apart : ∀ tid tid', tid < tid' → tid' < frames.length → stackBottom tid' + stackSize ≤ stackGuardPage tid

/-- A process that has the threads below `n` and its own page table, in which nothing is mapped below their
stacks; and pages that `pmm_alloc` can return, for tables and for stacks. -/
structure HasThreads {C : Type} (cfg : Config C) (pid root n : Nat) (k : Kernel C) : Prop where
  process : ∃ process, k.processTable pid = some process ∧ process.pageTable = 0x1000 * root ∧
    (∀ tid < n, ∃ t, process.threads tid = .thread t) ∧
    ∀ tid, n ≤ tid → tid < maxThreads → process.threads tid = .null ∨ process.threads tid = .deleted
  usable : cfg.paging.hhdm.TablePage root
  tree : Radix.Tree (format cfg.paging.hhdm) cfg.paging.top root k.mem
  supply : Supply (format cfg.paging.hhdm) cfg.paging.top root k.mem
  unmapped : ∀ va, va + 0x5000 * n < stackLocationTop → walk cfg.paging root k.mem va = none
  own : k.stackPages.Pairwise fun f g => f + 4 ≤ g ∨ g + 4 ≤ f
  apart : ∀ f ∈ k.stackPages, cfg.paging.hhdm.Apart (0x1000 * f) stackSize
  fresh : ∀ f ∈ k.stackPages, ∀ i < 4, f + i ∉ k.mem.frames ∧
    ∀ p, tableAt (format cfg.paging.hhdm) k.mem cfg.paging.top root p ≠ some (f + i)

/-- The last table of the guard page of thread 204 is there. -/
def HasTable204 (c : Paging) (root : Nat) (m : PhysMem) : Prop :=
  LastTable (format c.hhdm) c.top root m (stackGuardPage 204)

/-- Calls `thread_create`, one call after the other: what the calls return. -/
def createThreads {C : Type} [DecidableEq C] (cfg : Config C) (c : C) (pid : Nat) :
    List (Nat × Nat) → M C (List Nat)
  | [] => return []
  | (entry, arg) :: calls => do
    let tid ← threadCreate cfg c pid entry arg
    let tids ← createThreads cfg c pid calls
    return tid :: tids

section Layout
variable {tid tid' va : Nat}

/-- The stacks are five pages apart from the top down. -/
lemma stackGuardPage_add (lt : tid < maxThreads) :
    stackGuardPage tid + 0x5000 * (tid + 1) = stackLocationTop := by
  have few : maxThreads = 256 := rfl
  simp only [stackGuardPage, stackSize, stackGuardSize, stackLocationTop]
  omega

/-- A stack begins behind its guard page. -/
lemma stackBottom_eq (tid : Nat) : stackBottom tid = stackGuardPage tid + 0x1000 := rfl

/-- What is below the next guard page is below the stack. -/
lemma below_next (lt : tid < maxThreads) (low : va + 0x5000 * (tid + 1) < stackLocationTop) :
    va + 0x5000 * tid < stackLocationTop ∧ va < stackBottom tid := by
  have place := stackGuardPage_add lt
  rw [stackBottom_eq]
  constructor <;> omega

/-- A stack is below the guard page of every thread before. -/
lemma stack_below (less : tid < tid') (lt : tid' < maxThreads) :
    stackBottom tid' + stackSize ≤ stackGuardPage tid := by
  have first := stackGuardPage_add (Nat.lt_trans less lt)
  have second := stackGuardPage_add lt
  have size : stackSize = 0x4000 := rfl
  rw [stackBottom_eq, size]
  omega

/-- The guard page is in the block of the page above it, except for one thread. -/
lemma guard_block (lt : tid < maxThreads) (ne : tid ≠ 204) :
    stackGuardPage tid / span 1 = stackBottom tid / span 1 := by
  have few : maxThreads = 256 := rfl
  have place := stackGuardPage_add lt
  have high : stackLocationTop = 0x200000 * 67108864 := rfl
  have block : span 1 = 0x200000 := rfl
  rw [stackBottom_eq, block]
  generalize stackGuardPage tid = guard at place ⊢
  omega

/-- The guard page of the thread 204 is below the blocks of its stack and of all stacks before. -/
lemma guard_204 (le : tid ≤ 204) (above : stackBottom tid ≤ va) :
    stackGuardPage 204 / span 1 < va / span 1 := by
  have few : maxThreads = 256 := rfl
  have place := stackGuardPage_add (show tid < maxThreads by omega)
  have last := stackGuardPage_add (show 204 < maxThreads by decide)
  have high : stackLocationTop = 0x200000 * 67108864 := rfl
  have block : span 1 = 0x200000 := rfl
  rw [block]
  rw [stackBottom_eq] at above
  omega

/-- Both are in one block of 1 GiB: the last one below the top, for every thread. -/
lemma guard_upper (lt : tid < maxThreads) : stackGuardPage tid / span 2 = stackBottom tid / span 2 := by
  have few : maxThreads = 256 := rfl
  have place := stackGuardPage_add lt
  have high : stackLocationTop = 0x40000000 * 131072 := rfl
  have block : span 2 = 0x40000000 := rfl
  have low : 131071 * 0x40000000 ≤ stackGuardPage tid := by omega
  have bottom : stackBottom tid < (131071 + 1) * 0x40000000 := by rw [stackBottom_eq]; omega
  rw [stackBottom_eq] at bottom ⊢
  rw [block, Nat.div_eq_of_lt_le low (Nat.lt_of_le_of_lt (Nat.le_add_right _ _) bottom),
    Nat.div_eq_of_lt_le (Nat.le_trans low (Nat.le_add_right _ _)) bottom]

end Layout

section Fill
variable {fmt : PageFormat} {top root : Nat} {m : PhysMem} {f : Nat}

/-- Pages that are no tables are filled. -/
lemma fill_pages (is : List Nat) (hT : Radix.Tree fmt top root m) (hS : Supply fmt top root m)
    (fresh : ∀ i ∈ is, ∀ p, tableAt fmt m top root p ≠ some (f + i)) :
    Radix.Tree fmt top root (is.foldl (fun m i => m.fill (f + i) 0) m) ∧
      Supply fmt top root (is.foldl (fun m i => m.fill (f + i) 0) m) ∧
      (is.foldl (fun m i => m.fill (f + i) 0) m).frames = m.frames ∧
      (∀ r, tableAt fmt (is.foldl (fun m i => m.fill (f + i) 0) m) top root r = tableAt fmt m top root r) ∧
      ∀ r, lookup fmt (is.foldl (fun m i => m.fill (f + i) 0) m) top root r = lookup fmt m top root r := by
  induction is generalizing m with
  | nil => exact ⟨hT, hS, rfl, fun _ => rfl, fun _ => rfl⟩
  | cons i is ih =>
    have here := fresh i List.mem_cons_self
    have tables : ∀ r, tableAt fmt (m.fill (f + i) 0) top root r = tableAt fmt m top root r :=
      fun _ => tableAt_congr (agree_fill here)
    have hS' : Supply fmt top root (m.fill (f + i) 0) :=
      ⟨hS.nodup, hS.usable, fun g hg p => by rw [tables]; exact hS.fresh g hg p⟩
    obtain ⟨hT', hS'', frames, tables', lookups⟩ := ih (hT.fill here) hS' (by
      intro j hj p
      rw [tables]
      exact fresh j (List.mem_cons_of_mem i hj) p)
    refine ⟨hT', hS'', frames, ?_, ?_⟩
    · intro r
      rw [List.foldl_cons, tables', tables]
    · intro r
      rw [List.foldl_cons, lookups, lookup_congr (agree_fill here)]

end Fill

section StackAdded
variable {c : Paging} {root tid f : Nat} {m : PhysMem}

/-- A stack more: its pages are mapped to the frames from `f` on, and the new tables are on the way to them. -/
structure StackAdded (c : Paging) (root tid f : Nat) (m m' : PhysMem) : Prop where
  tree : Radix.Tree (format c.hhdm) c.top root m'
  supply : Supply (format c.hhdm) c.top root m'
  frames : m'.frames <:+ m.frames
  taken : m.frames.length ≤ m'.frames.length + 12
  stack : ∀ va, stackBottom tid ≤ va → va < stackBottom tid + stackSize →
    walk c root m' va = some (0x1000 * f + (va - stackBottom tid), stackFlags)
  others : ∀ va, ¬ (stackBottom tid ≤ va ∧ va < stackBottom tid + stackSize) →
    walk c root m' va = walk c root m va
  kept : ∀ {q g}, q.length ≤ c.top → tableAt (format c.hhdm) m c.top root q = some g →
    tableAt (format c.hhdm) m' c.top root q = some g
  tables : ∀ {q g}, tableAt (format c.hhdm) m' c.top root q = some g →
    tableAt (format c.hhdm) m c.top root q = some g ∨
      (g ∈ m.frames ∧ ∃ i < 4, q <+: pathFrom 1 c.top (stackBottom tid + i * span 0))
  last : LastTable (format c.hhdm) c.top root m' (stackBottom tid)

/-- The call of `vmm_map` for a stack. -/
def stackCall (tid f : Nat) (frames : List Nat) : MapCall :=
  ⟨false, stackBottom tid, 0x1000 * f, 4, vmmExecute ||| vmmRead ||| vmmWrite ||| vmmUser, frames⟩

/-- The level of the root with four levels. -/
lemma top_four (sv48 : c.maxLevel = 4) : c.top = 3 := by
  rw [Paging.top, sv48]

/-- An address of the lower half is not mapped. -/
lemma walk_none_iff {va : Nat} (sv48 : c.maxLevel = 4) (low : va < stackLocationTop) :
    walk c root m va = none ↔
      lookup (format c.hhdm) m c.top root (pathFrom 0 (c.top + 1) va) = none := by
  have canonical : Canonical (c.top + 1) va := by
    rw [top_four sv48]
    exact .inl low
  rw [walk, ← c.top_succ, translate_none_iff]
  simp [canonical]

/-- The stack of a thread is in the lower half. -/
lemma stack_low (lt : tid < maxThreads) : stackBottom tid + stackSize ≤ stackLocationTop := by
  have place := stackGuardPage_add lt
  have size : stackSize = 0x4000 := rfl
  rw [stackBottom_eq, size]
  omega

/-- The call that maps a stack is valid in a space without it. -/
lemma stackCall_valid (sv48 : c.maxLevel = 4) (hS : Supply (format c.hhdm) c.top root m)
    (lt : tid < maxThreads) (apart : c.hhdm.Apart (0x1000 * f) stackSize)
    (clear : ∀ va, stackBottom tid ≤ va → va < stackBottom tid + stackSize → walk c root m va = none) :
    Valid c root (stackCall tid f m.frames) m where
  aligned := by
    have place := stackGuardPage_add lt
    simp only [stackCall, MapCall.level, span, stackBottom_eq, stackLocationTop] at *
    norm_num
    omega
  aligned_phys := by
    simp [stackCall, MapCall.level, span]
  canonical := by
    left
    have place := stackGuardPage_add lt
    rw [top_four sv48]
    simp only [stackCall, MapCall.length, MapCall.level, span, stackBottom_eq, stackLocationTop] at *
    norm_num
    omega
  apart := apart
  clear := by
    rintro - va ⟨low, high⟩ ⟨v, t, found⟩
    have size : stackBottom tid + stackSize = stackBottom tid + (stackCall tid f m.frames).length := rfl
    have none := clear va low (size ▸ high)
    have below : va < stackLocationTop := Nat.lt_of_lt_of_le (size ▸ high) (stack_low lt)
    rw [walk_none_iff sv48 below, found] at none
    cases none
  supply := hS
  flags := by
    show vmmExecute ||| vmmRead ||| vmmWrite ||| vmmUser < 2 ^ 10
    decide
  permitted := by
    show LeafPermissions (vmmExecute ||| vmmRead ||| vmmWrite ||| vmmUser)
    decide

/-- `vmm_map` adds a stack. -/
lemma vmmMap_stack (sv48 : c.maxLevel = 4) (hr : c.hhdm.TablePage root)
    (hT : Radix.Tree (format c.hhdm) c.top root m) (hS : Supply (format c.hhdm) c.top root m)
    (lt : tid < maxThreads) (apart : c.hhdm.Apart (0x1000 * f) stackSize)
    (clear : ∀ va, stackBottom tid ≤ va → va < stackBottom tid + stackSize → walk c root m va = none)
    (enough : 12 ≤ m.frames.length) :
    ∃ m', vmmMap c (0x1000 * root) (stackBottom tid) (0x1000 * f) (stackSize / 0x1000)
        (vmmExecute ||| vmmRead ||| vmmWrite ||| vmmUser) m = .ok (true, m') ∧
      StackAdded c root tid f m m' := by
  have valid := stackCall_valid sv48 hS lt apart clear
  obtain ⟨m', e, mapped⟩ | ⟨-, few⟩ := valid.exec_spec hT hr
  · refine ⟨m', e, ?_⟩
    obtain ⟨taken, tables⟩ := valid.exec_tables hT hr e
    have less : m.frames.length ≤ m'.frames.length + 4 * (c.top - 0) := taken
    rw [top_four sv48] at less
    refine ⟨mapped.tree, mapped.supply, mapped.frames, less, ?_, ?_, mapped.tables, tables, ?_⟩
    · intro va low high
      rw [walk, ← c.top_succ]
      exact mapped.translate_inside valid.aligned valid.canonical low high
    · intro va outside
      rw [walk, walk, ← c.top_succ, mapped.translate_outside outside]
      rfl
    · exact mapped.parents (stackBottom tid) le_rfl (Nat.lt_add_of_pos_right (show 0 < 4 * span 0 by decide))
  · rw [top_four sv48] at few
    have less : m.frames.length < 4 * (3 - 0) := few
    omega

end StackAdded

section Create
variable {C : Type} {cfg : Config C} {pid root n f : Nat} {fs : List Nat} {k : Kernel C}

/-- The stack of the next thread, before the guard page is unmapped. -/
lemma HasThreads.vmmMap (h : HasThreads cfg pid root n k) (sv48 : cfg.paging.maxLevel = 4) (lt : n < maxThreads)
    (pages : k.stackPages = f :: fs) (enough : 12 ≤ k.mem.frames.length) :
    ∃ m, StackAdded cfg.paging root n f k.mem m ∧
      mapStack cfg (0x1000 * root) n k =
        match vmmUnmap cfg.paging (0x1000 * root) 2 (stackGuardPage n) 1 m with
        | some (.ok (_, m)) => .ok { k with mem := m, stackPages := fs }
        | some (.error e) => .error (.memory e)
        | none => .error .hangs := by
  have mem : f ∈ k.stackPages := by simp [pages]
  obtain ⟨hT, hS, frames, tables, lookups⟩ := fill_pages (List.range 4) h.tree h.supply
    fun i hi => (h.fresh f mem i (List.mem_range.mp hi)).2
  have walks : ∀ va, walk cfg.paging root ((List.range 4).foldl (fun m i => m.fill (f + i) 0) k.mem) va =
      walk cfg.paging root k.mem va := by
    intro va
    simp only [walk, Vmm.translate, ← cfg.paging.top_succ, Nat.add_sub_cancel, lookups]
  have clear : ∀ va, stackBottom n ≤ va → va < stackBottom n + stackSize →
      walk cfg.paging root ((List.range 4).foldl (fun m i => m.fill (f + i) 0) k.mem) va = none := by
    intro va low high
    rw [walks]
    apply h.unmapped
    have place := stackGuardPage_add lt
    have size : stackSize = 0x4000 := rfl
    rw [stackBottom_eq, size] at high
    omega
  obtain ⟨m, e, added⟩ := vmmMap_stack sv48 h.usable hT hS lt (h.apart f mem) clear (by rwa [frames])
  refine ⟨m, ?_, ?_⟩
  · refine ⟨added.tree, added.supply, frames ▸ added.frames, frames ▸ added.taken, added.stack, ?_, ?_, ?_,
      added.last⟩
    · intro va outside
      rw [added.others va outside, walks]
    · intro q g hq ht
      exact added.kept hq (by rwa [tables])
    · intro q g ht
      obtain old | ⟨mem', place⟩ := added.tables ht
      · exact .inl (by rwa [tables] at old)
      · exact .inr ⟨frames ▸ mem', place⟩
  · have alloc : pmmAllocStack k = (0x1000 * f, { k with
        stackPages := fs
        mem := (List.range 4).foldl (fun m i => m.fill (f + i) 0) k.mem }) := by
      rw [pmmAllocStack, pages]
      rfl
    have guard : stackGuardSize / 0x1000 = 1 := rfl
    unfold mapStack
    cases u : vmmUnmap cfg.paging (0x1000 * root) 2 (stackGuardPage n) 1 m with
    | none => simp only [alloc, e, guard, u]
    | some r =>
      cases r with
      | error e' => simp only [alloc, e, guard, u]
      | ok r => simp only [alloc, e, guard, u]

/-- Neither the new stack nor a stack before is in the guard page. -/
lemma HasThreads.guard (h : HasThreads cfg pid root n k) (lt : n < maxThreads) {m : PhysMem}
    (added : StackAdded cfg.paging root n f k.mem m) {va : Nat} (below : va < stackBottom n) :
    walk cfg.paging root m va = none := by
  rw [added.others va fun inside => absurd inside.1 (Nat.not_le.mpr below)]
  apply h.unmapped
  have place := stackGuardPage_add lt
  rw [stackBottom_eq] at below
  omega

/-- The last table of the guard page is there after the stack was mapped: it is that of the stack, or it was
there before. -/
lemma StackAdded.guard_table {c : Paging} {m m' : PhysMem} (added : StackAdded c root n f m m')
    (lt : n < maxThreads)
    (there : n ≠ 204 ∨ HasTable204 c root m) :
    LastTable (format c.hhdm) c.top root m' (stackGuardPage n) := by
  by_cases e : n = 204
  · obtain ⟨g, hg⟩ := there.resolve_left (not_not.mpr e)
    exact ⟨g, added.kept (by simp) (e ▸ hg)⟩
  · obtain ⟨g, hg⟩ := added.last
    rw [LastTable, pathFrom_of_block (guard_block lt e)]
    exact ⟨g, hg⟩

/-- The last table of the guard page of thread 204 is none of the tables of the stacks before, nor of its own. -/
lemma StackAdded.no_table {c : Paging} {m m' : PhysMem} (sv48 : c.maxLevel = 4)
    (added : StackAdded c root n f m m') (le : n ≤ 204) (table : HasTable204 c root m') :
    HasTable204 c root m := by
  obtain ⟨g, hg⟩ := table
  obtain old | ⟨-, i, hi, place⟩ := added.tables hg
  · exact ⟨g, old⟩
  · have same := place.eq_of_length (by simp)
    have lt : n < maxThreads := Nat.lt_of_le_of_lt le (by decide)
    have low := stack_low lt
    have size : stackSize = 4 * span 0 := rfl
    have page : span 0 = 0x1000 := rfl
    have guard : Canonical 4 (stackGuardPage 204) := by decide
    have canonical : Canonical 4 (stackBottom n + i * span 0) := by
      refine .inl (show _ < stackLocationTop from ?_)
      rw [size] at low
      rw [page] at low ⊢
      omega
    have blocks : stackGuardPage 204 / span 1 = (stackBottom n + i * span 0) / span 1 := by
      rw [top_four sv48] at same
      exact Canonical.eq_of_path (by decide) (by decide) guard canonical same
    have less := guard_204 le (Nat.le_add_right (stackBottom n) (i * span 0))
    omega

/-- `thread_create` maps the stack and leaves the guard page as it is: not mapped. -/
lemma HasThreads.mapStack (h : HasThreads cfg pid root n k) (sv48 : cfg.paging.maxLevel = 4)
    (lt : n < maxThreads) (pages : k.stackPages = f :: fs) (enough : 12 ≤ k.mem.frames.length)
    (there : n ≠ 204 ∨ HasTable204 cfg.paging root k.mem) :
    ∃ m, StackAdded cfg.paging root n f k.mem m ∧
      Tasking.mapStack cfg (0x1000 * root) n k = .ok { k with mem := m, stackPages := fs } := by
  obtain ⟨m, added, e⟩ := h.vmmMap sv48 lt pages enough
  refine ⟨m, added, ?_⟩
  have table := added.guard_table lt there
  obtain ⟨m₁, -, -, same, round⟩ := round_small cfg.paging.top_mem 0 added.tree table
  have below : stackGuardPage n < stackBottom n := Nat.lt_add_of_pos_right (by decide)
  have low : stackGuardPage n < stackLocationTop :=
    Nat.lt_of_lt_of_le below ((Nat.le_add_right ..).trans (stack_low lt))
  have none := h.guard lt added below
  rw [walk_none_iff sv48 low] at none
  rw [e, vmmUnmap_eq added.tree h.usable, round, same none]
  rfl

/-- Without that table, the call for thread 204 writes through `NULL`. -/
lemma HasThreads.mapStack_faults (h : HasThreads cfg pid root 204 k) (sv48 : cfg.paging.maxLevel = 4)
    (pages : k.stackPages = f :: fs) (enough : 12 ≤ k.mem.frames.length)
    (missing : ¬ HasTable204 cfg.paging root k.mem) :
    Tasking.mapStack cfg (0x1000 * root) 204 k = .error (.memory .fault) := by
  have lt : 204 < maxThreads := by decide
  obtain ⟨m, added, e⟩ := h.vmmMap sv48 lt pages enough
  have low : stackGuardPage 204 < stackLocationTop := by decide
  have none := h.guard lt added (show stackGuardPage 204 < stackBottom 204 by decide)
  rw [walk_none_iff sv48 low] at none
  have absent : Absent (format cfg.paging.hhdm) cfg.paging.top root m (stackGuardPage 204) := by
    rcases page_cases (format cfg.paging.hhdm) root m cfg.paging.top_mem (stackGuardPage 204) with
      upper | absent | ⟨v, t, found⟩ | table
    · obtain ⟨g, hg⟩ := added.last
      rw [path_block cfg.paging.top_mem, tableAt_append] at hg
      obtain ⟨table, hu, -⟩ := Option.bind_eq_some_iff.mp hg
      rw [NoUpper, pathFrom_of_block (guard_upper lt), hu] at upper
      cases upper
    · exact absent
    · rw [found] at none
      cases none
    · exact absurd (added.no_table sv48 le_rfl table) missing
  rw [e, vmmUnmap_eq added.tree h.usable, round_absent cfg.paging.top_mem absent]

/-- The first `tid` that is free is the next one. -/
lemma freeTid_next {process : Process} (lt : n < maxThreads)
    (threads : ∀ tid < n, ∃ t, process.threads tid = .thread t)
    (free : ∀ tid, n ≤ tid → tid < maxThreads →
      process.threads tid = .null ∨ process.threads tid = .deleted) :
    process.freeTid = some n := by
  refine List.find?_range_eq_some.mpr ⟨?_, List.mem_range.mpr lt, fun tid hlt => ?_⟩
  · simpa using free n le_rfl lt
  · obtain ⟨t, ht⟩ := threads tid hlt
    simp [ht]

/-- A thread more. -/
lemma HasThreads.create (h : HasThreads cfg pid root n k) (sv48 : cfg.paging.maxLevel = 4) (user : pid ≠ 0)
    (lt : n < maxThreads) (pages : k.stackPages = f :: fs) (enough : 12 ≤ k.mem.frames.length)
    (there : n ≠ 204 ∨ HasTable204 cfg.paging root k.mem)
    (entry arg : Nat) :
    ∃ k', newThread cfg pid entry arg k = .ok (n, k') ∧ HasThreads cfg pid root (n + 1) k' ∧
      StackAdded cfg.paging root n f k.mem k'.mem ∧ k'.stackPages = fs := by
  obtain ⟨m, added, map⟩ := h.mapStack sv48 lt pages enough there
  obtain ⟨process, found, table, threads, free⟩ := h.process
  have more : ∀ g ∈ fs, g ∈ k.stackPages := fun g hg => pages ▸ List.mem_cons_of_mem f hg
  have own := h.own
  rw [pages, List.pairwise_cons] at own
  unfold newThread
  rw [found]
  dsimp only
  rw [freeTid_next lt threads free, table]
  dsimp only
  rw [if_neg user, map]
  refine ⟨_, rfl, ⟨⟨_, Function.update_self .., rfl, ?_, ?_⟩, h.usable, added.tree, added.supply, ?_, own.2, ?_,
    ?_⟩, added, rfl⟩
  · intro tid hlt
    by_cases e : tid = n
    · subst e
      exact ⟨k.nextThread, Function.update_self ..⟩
    · obtain ⟨t, ht⟩ := threads tid (by omega)
      exact ⟨t, (Function.update_of_ne e ..).trans ht⟩
  · intro tid le hlt
    dsimp only
    rw [Function.update_of_ne (by omega)]
    exact free tid (by omega) hlt
  · intro va low
    obtain ⟨above, below⟩ := below_next lt low
    rw [added.others va fun inside => absurd inside.1 (Nat.not_le.mpr below)]
    exact h.unmapped va above
  · intro g hg
    exact h.apart g (more g hg)
  · intro g hg i hi
    obtain ⟨spent, clear⟩ := h.fresh g (more g hg) i hi
    refine ⟨fun again => spent (added.frames.subset again), fun p hp => ?_⟩
    obtain old | ⟨taken, -⟩ := added.tables hp
    · exact clear p old
    · exact spent taken

end Create

section Runs
variable {C : Type} [DecidableEq C] {cfg : Config C} {c : C} {pid root n f entry arg : Nat} {fs frames : List Nat}
  {k : Kernel C} {locked : Lock → Bool}

/-- A stack more, below the others. -/
lemma StacksMapped.add {c : Paging} {m m' : PhysMem} (h : StacksMapped c root frames m)
    (added : StackAdded c root frames.length f m m') (lt : frames.length < maxThreads)
    (guard : ∀ va, va < stackBottom frames.length → walk c root m' va = none)
    (apart : ∀ g ∈ frames, g + 4 ≤ f ∨ f + 4 ≤ g) : StacksMapped c root (frames ++ [f]) m' := by
  have same : ∀ tid < frames.length, ∀ va, stackGuardPage tid ≤ va → walk c root m' va = walk c root m va := by
    intro tid less va above
    have bound := stack_below less lt
    exact added.others va fun inside => absurd inside.2 (Nat.not_lt.mpr (bound.trans above))
  refine ⟨?_, ?_, ?_, ?_⟩
  · rw [List.pairwise_append]
    refine ⟨h.own, List.pairwise_singleton .., fun g hg f' hf' => ?_⟩
    rw [List.mem_singleton.mp hf']
    exact apart g hg
  · intro tid f' hf' va low high
    by_cases less : tid < frames.length
    · rw [List.getElem?_append_left less] at hf'
      rw [same tid less va ((Nat.le_add_right _ _).trans low)]
      exact h.stack tid f' hf' va low high
    · have le : tid < (frames ++ [f]).length := (List.getElem?_eq_some_iff.mp hf').1
      rw [List.length_append, List.length_singleton] at le
      obtain rfl : tid = frames.length := by omega
      rw [List.getElem?_concat_length, Option.mem_some_iff] at hf'
      subst hf'
      exact added.stack va low high
  · intro tid less va low high
    by_cases before : tid < frames.length
    · rw [same tid before va low]
      exact h.guard tid before va low high
    · rw [List.length_append, List.length_singleton] at less
      obtain rfl : tid = frames.length := by omega
      exact guard va high
  · intro tid tid' less lt'
    rw [List.length_append, List.length_singleton] at lt'
    exact stack_below less (by omega)

/-- `thread_create` on a process that is there fails where its body does. -/
lemma run_threadCreate_failed {process : Process} {e : Fault} (below : pid < maxProcesses)
    (table : locked .processLock = false) (free : locked (.process pid) = false)
    (found : k.processTable pid = some process) (failed : newThread cfg pid entry arg k = .error e) :
    (threadCreate cfg c pid entry arg).run locked k = .failed e := by
  have create : (perform (newThread cfg pid entry arg)).run (Function.update locked (.process pid) true)
      (k.addPreempt c 1) = .failed e := by
    refine run_perform_error ?_
    rw [newThread_addPreempt, failed]
    rfl
  simp only [threadCreate, run_bind, run_processGetProcess below table free found, Outcome.andThen_done,
    create, Outcome.andThen_failed]

section
variable (sv48 : cfg.paging.maxLevel = 4) (user : pid ≠ 0) (below : pid < maxProcesses)
  (table : locked .processLock = false) (free : locked (.process pid) = false)
include sv48 user below table free

/-- The calls for as many threads as have the last tables of their guard pages. -/
lemma createThreads_run (calls : List (Nat × Nat)) (h : HasThreads cfg pid root frames.length k)
    (mapped : StacksMapped cfg.paging root frames k.mem)
    (apart : ∀ g ∈ frames, ∀ f ∈ k.stackPages, g + 4 ≤ f ∨ f + 4 ≤ g)
    (le : frames.length + calls.length ≤ maxThreads) (pages : calls.length ≤ k.stackPages.length)
    (enough : 12 * calls.length ≤ k.mem.frames.length)
    (there : frames.length + calls.length ≤ 204 ∨ HasTable204 cfg.paging root k.mem) :
    ∃ k', (createThreads cfg c pid calls).run locked k =
        .done (List.range' frames.length calls.length) locked k' ∧
      StacksMapped cfg.paging root (frames ++ k.stackPages.take calls.length) k'.mem := by
  induction calls generalizing k frames with
  | nil => exact ⟨k, rfl, by simpa using mapped⟩
  | cons call calls ih =>
    obtain ⟨entry, arg⟩ := call
    rw [List.length_cons] at le pages enough there
    have lt : frames.length < maxThreads := by omega
    obtain ⟨f, fs, hp⟩ : ∃ f fs, k.stackPages = f :: fs :=
      List.exists_cons_of_length_pos (Nat.lt_of_lt_of_le (Nat.succ_pos _) pages)
    have there' : frames.length ≠ 204 ∨ HasTable204 cfg.paging root k.mem :=
      there.imp_left fun few => by omega
    obtain ⟨k₁, e, h₁, added, hp₁⟩ := h.create sv48 user lt hp (by omega) there' entry arg
    obtain ⟨process, found, -⟩ := h.process
    have call := run_threadCreate (c := c) below table free found e
    have own := h.own
    rw [hp, List.pairwise_cons] at own
    have mapped₁ : StacksMapped cfg.paging root (frames ++ [f]) k₁.mem :=
      mapped.add added lt (fun va => h.guard lt added) fun g hg => apart g hg f (by simp [hp])
    have taken := added.taken
    rw [hp] at apart pages
    rw [← List.length_singleton (a := f), ← List.length_append] at h₁
    -- the frames of the remaining stacks are apart from the one just taken
    obtain ⟨k', run, mapped'⟩ := ih h₁ mapped₁ (by
        rw [hp₁]
        intro g hg f' hf'
        rcases List.mem_append.mp hg with old | new
        · exact apart g old f' (List.mem_cons_of_mem f hf')
        · rw [List.mem_singleton.mp new]
          exact own.1 f' hf')
      (by simp only [List.length_append, List.length_singleton]; omega)
      (by rw [hp₁]; exact Nat.le_of_succ_le_succ pages) (by omega)
      (by
        simp only [List.length_append, List.length_singleton]
        rcases there with few | ⟨g, hg⟩
        · exact .inl (by omega)
        · exact .inr ⟨g, added.kept (by simp) hg⟩)
    refine ⟨k', ?_, ?_⟩
    · rw [List.length_append, List.length_singleton] at run
      simp only [createThreads, run_bind, call, Outcome.andThen_done, run, run_pure, List.length_cons,
        List.range'_succ]
    · rw [hp, List.length_cons, List.take_succ_cons]
      rw [hp₁, List.append_assoc] at mapped'
      exact mapped'

/-- Without the last table of its guard page, the call for thread 204 does not return. -/
lemma createThreads_fails (calls : List (Nat × Nat)) (h : HasThreads cfg pid root n k) (le : n ≤ 204)
    (more : 204 < n + calls.length) (pages : calls.length ≤ k.stackPages.length)
    (enough : 12 * calls.length ≤ k.mem.frames.length)
    (missing : ¬ HasTable204 cfg.paging root k.mem) :
    (createThreads cfg c pid calls).run locked k = .failed (.memory .fault) := by
  induction calls generalizing k n with
  | nil =>
    rw [List.length_nil] at more
    omega
  | cons call calls ih =>
    obtain ⟨entry, arg⟩ := call
    rw [List.length_cons] at more pages enough
    obtain ⟨f, fs, hp⟩ : ∃ f fs, k.stackPages = f :: fs :=
      List.exists_cons_of_length_pos (Nat.lt_of_lt_of_le (Nat.succ_pos _) pages)
    obtain ⟨process, found, pageTable, threads, slots⟩ := h.process
    by_cases last : n = 204
    · subst last
      have map := h.mapStack_faults sv48 hp (by omega) missing
      have failed : newThread cfg pid entry arg k = .error (.memory .fault) := by
        unfold newThread
        rw [found]
        dsimp only
        rw [freeTid_next (by decide) threads slots, pageTable]
        dsimp only
        rw [if_neg user, map]
      simp only [createThreads, run_bind, run_threadCreate_failed below table free found failed,
        Outcome.andThen_failed]
    · have lt : n < maxThreads := Nat.lt_of_le_of_lt le (by decide)
      obtain ⟨k₁, e, h₁, added, hp₁⟩ := h.create sv48 user lt hp (by omega) (.inl last) entry arg
      have taken := added.taken
      have run := ih h₁ (by omega) (by omega) (by rw [hp₁]; rw [hp] at pages; exact Nat.le_of_succ_le_succ pages)
        (by omega) fun there => missing (added.no_table sv48 le there)
      simp only [createThreads, run_bind, run_threadCreate below table free found e, Outcome.andThen_done, run,
        Outcome.andThen_failed]

/-- In every row of calls of `thread_create` on a process with its own page table, each call returns with all
stacks in place and all guard pages unmapped, if and only if the row ends before thread 204 or the table has the
last table of that thread's guard page already. -/
theorem thread_create_stacks_iff (calls : List (Nat × Nat)) (start : HasThreads cfg pid root 0 k)
    (le : calls.length ≤ maxThreads) (pages : calls.length ≤ k.stackPages.length)
    (enough : 12 * calls.length ≤ k.mem.frames.length) :
    (∀ n ≤ calls.length, ∃ k', (createThreads cfg c pid (calls.take n)).run locked k =
        .done (List.range n) locked k' ∧ StacksMapped cfg.paging root (k.stackPages.take n) k'.mem) ↔
      calls.length ≤ 204 ∨ HasTable204 cfg.paging root k.mem := by
  constructor
  · intro keeps
    by_contra neither
    rw [not_or, Nat.not_le] at neither
    obtain ⟨k', run, -⟩ := keeps 205 neither.1
    have count : (calls.take 205).length = 205 := List.length_take_of_le neither.1
    have fails := createThreads_fails (c := c) sv48 user below table free (calls.take 205) start (Nat.zero_le _)
      (show 204 < 0 + (calls.take 205).length by omega) (by omega) (by omega) neither.2
    rw [run] at fails
    cases fails
  · intro condition n hn
    have count : (calls.take n).length = n := List.length_take_of_le hn
    have none : StacksMapped cfg.paging root [] k.mem :=
      ⟨.nil, by simp, by simp, by simp⟩
    obtain ⟨k', run, mapped⟩ := createThreads_run (c := c) sv48 user below table free (calls.take n)
      start none (by simp) (by rw [count, List.length_nil]; omega) (by omega) (by omega)
      (condition.imp_left fun few => by rw [count, List.length_nil]; omega)
    rw [count, List.length_nil, ← List.range_eq_range'] at run
    rw [count, List.nil_append] at mapped
    exact ⟨k', run, mapped⟩

end

end Runs

section Samples

/-- A process whose page table is the zeroed page 1, and pages for some threads. -/
def newborn (calls : Nat) : Kernel (Fin 1) :=
  { Kernel.boot (Fin 1) with
    processTable := Function.update (fun _ => none) 1 (some ⟨1, 0x1000, fun _ => .null⟩)
    mem := ⟨fun _ _ => 0, List.range' 0x100 (12 * calls)⟩
    stackPages := (List.range calls).map fun i => 0x10000 + 4 * i }

/-- A low page can be a table. -/
lemma flat_tablePage {page : Nat} (pos : page ≠ 0) (low : page < 2 ^ 35) :
    (Config.flat 1).paging.hhdm.TablePage page := by
  have apart : sv48.hhdm.Apart (0x1000 * page) 1 := sv48_apart (by omega) (by omega)
  exact ⟨pos, by omega, apart.2 _ le_rfl (Nat.lt_succ_self _)⟩

/-- The process has no threads at first. -/
lemma newborn_hasThreads {calls : Nat} (le : calls ≤ maxThreads) :
    HasThreads (.flat 1) 1 1 0 (newborn calls) := by
  have few : maxThreads = 256 := rfl
  have zero : ∀ j, (newborn calls).mem.entry 1 j = 0 := fun _ => rfl
  have page : ∀ {f}, f ∈ (newborn calls).mem.frames → 0x100 ≤ f ∧ f < 0x100 + 12 * calls := by
    intro f hf
    have mem : f ∈ List.range' 0x100 (12 * calls) := hf
    rwa [List.mem_range'_1] at mem
  have stack : ∀ {f}, f ∈ (newborn calls).stackPages → ∃ i < calls, f = 0x10000 + 4 * i := by
    intro f hf
    obtain ⟨i, hi, rfl⟩ := List.mem_map.mp hf
    exact ⟨i, List.mem_range.mp hi, rfl⟩
  refine ⟨⟨⟨1, 0x1000, fun _ => .null⟩, rfl, rfl, nofun, fun _ _ _ => .inl rfl⟩, flat_tablePage (by decide)
    (by decide), .zeroed zero, ⟨List.nodup_range', ?_, ?_⟩, ?_, ?_, ?_, ?_⟩
  · intro f hf
    obtain ⟨low, high⟩ := page hf
    exact flat_tablePage (by omega) (by omega)
  · intro f hf p hp
    obtain ⟨low, -⟩ := page hf
    obtain ⟨-, rfl⟩ := tableAt_zeroed zero hp
    omega
  · intro va _
    have none : ∀ l p, lookup (format (Config.flat 1).paging.hhdm) (newborn calls).mem l 1 p = none :=
      fun _ _ => lookup_zeroed zero
    simp only [walk, Vmm.translate, none, Option.map_none, ite_self]
  · refine List.Pairwise.map _ ?_ (List.pairwise_lt_range (n := calls))
    intro i j less
    omega
  · intro f hf
    obtain ⟨i, hi, rfl⟩ := stack hf
    exact sv48_apart (by show _ + 0x4000 ≤ _; omega) (by omega)
  · intro f hf i hi
    obtain ⟨j, hj, rfl⟩ := stack hf
    refine ⟨fun spent => ?_, fun p hp => ?_⟩
    · have := (page spent).2
      omega
    · obtain ⟨-, e⟩ := tableAt_zeroed zero hp
      omega

/-- Two threads in a process with a zeroed page table. -/
theorem thread_create_stacks_iff_two :
    ∃ k', (createThreads (.flat 1) 0 1 [(0x1000, 0), (0x1000, 0)]).run (fun _ => false) (newborn 2) =
        .done [0, 1] (fun _ => false) k' ∧
      StacksMapped (Config.flat 1).paging 1 [0x10000, 0x10004] k'.mem := by
  have start : HasThreads (.flat 1) 1 1 0 (newborn 2) := newborn_hasThreads (by decide)
  exact (thread_create_stacks_iff (c := 0) rfl (by decide) (by decide) rfl rfl [(0x1000, 0), (0x1000, 0)] start
    (by decide) (by decide) (by decide)).mpr (.inl (by decide)) 2 le_rfl

/-- The 205th thread of such a process: `vmm_unmap` takes the missing table of its guard page for one. -/
theorem thread_create_205th :
    (createThreads (.flat 1) 0 1 (List.replicate 205 (0x1000, 0))).run (fun _ => false) (newborn 205) =
        .failed (.memory .fault) ∧
      ¬ ∀ n ≤ 205, ∃ k', (createThreads (.flat 1) 0 1 ((List.replicate 205 (0x1000, 0)).take n)).run
          (fun _ => false) (newborn 205) = .done (List.range n) (fun _ => false) k' ∧
        StacksMapped (Config.flat 1).paging 1 ((newborn 205).stackPages.take n) k'.mem := by
  have start : HasThreads (.flat 1) 1 1 0 (newborn 205) := newborn_hasThreads (by decide)
  have count : (List.replicate 205 (0x1000, 0)).length = 205 := List.length_replicate
  have pages : (newborn 205).stackPages.length = 205 := by
    rw [newborn, List.length_map, List.length_range]
  have frames : (newborn 205).mem.frames.length = 12 * 205 := List.length_range'
  have fails : (createThreads (.flat 1) 0 1 (List.replicate 205 (0x1000, 0))).run (fun _ => false)
      (newborn 205) = .failed (.memory .fault) := by
    refine createThreads_fails rfl (by decide) (by decide) rfl rfl _ start (Nat.zero_le _) (by rw [count]; decide)
      (by rw [count, pages]) (by rw [count, frames]) ?_
    rintro ⟨g, hg⟩
    obtain ⟨empty, -⟩ := tableAt_zeroed (fun _ => rfl) hg
    cases empty
  refine ⟨fails, fun keeps => ?_⟩
  obtain ⟨k', run, -⟩ := keeps 205 le_rfl
  rw [List.take_of_length_le (by rw [count]), fails] at run
  cases run

end Samples

end WivOS.Tasking
