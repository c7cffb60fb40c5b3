import WivOS.Tasking.TaskBounds

/-!
# A full task table

A run on one CPU that fills `ActiveTasks`: 256 threads of the kernel's process, and two of each of 128
processes that share a page table. The CPU is then preempted again and again, and goes from each task to
the next. When it is preempted in the last one, `scheduler_get_next_task` looks behind the table.
-/

namespace WivOS.Tasking
open WivOS.Lib.LockProg WivOS.Lib.LockProg.Prog WivOS.Lib.LockProg.Sys WivOS.Vmm WivOS.Vmm.Riscv64

section Stacks

/-- Zeroed memory, with three pages for tables. -/
def emptyMem : PhysMem := ⟨fun _ _ => 0, [2, 3, 4]⟩

/-- The tables on the way to the stacks are the pages 1 to 4. -/
structure Linked (m : PhysMem) : Prop where
  first : m.entry 1 255 = 0x801
  second : m.entry 2 511 = 0xC01
  third : m.entry 3 511 = 0x1001

/-- The paging of `Config.flat`. -/
def flatPaging : Paging := (Config.flat 1).paging

/-- What follows a success goes on with its value. -/
lemma ok_bind {ε α β : Type} (a : α) (f : α → Except ε β) : (Except.ok a >>= f) = f a := rfl

/-- A page of the stacks, with the tables on the way to it. -/
lemma map_page {addr phys size permissions : Nat} {i : Fin 512} {m m₁ m₂ m₃ : PhysMem}
    (ha : getAddrOffsets addr = [i.val, 511, 511, 255, 0])
    (first : vmmGetOrAlloc flatPaging.hhdm 0xFFFF800000001000 255 vmmPresent m =
      .ok (0xFFFF800000002000, m₁))
    (second : vmmGetOrAlloc flatPaging.hhdm 0xFFFF800000002000 511 vmmPresent m₁ =
      .ok (0xFFFF800000003000, m₂))
    (third : vmmGetOrAlloc flatPaging.hhdm 0xFFFF800000003000 511 vmmPresent m₂ =
      .ok (0xFFFF800000004000, m₃)) :
    vmmMapAdvanced flatPaging 0x1000 permissions false (size + 1) addr phys m =
      vmmMapAdvanced flatPaging 0x1000 permissions false size ((addr + 0x1000) % 2 ^ 64)
        ((phys + 0x1000) % 2 ^ 64) (m₃.write 4 i (leafEntry phys permissions)) := by
  have tables : allocTables flatPaging.hhdm [i.val, 511, 511, 255, 0] 3 0xFFFF800000001000 m =
      .ok (some 0xFFFF800000003000, m₂) := by
    simp only [allocTables, List.getD_cons_succ, List.getD_cons_zero, first, second, ok_bind]
    rfl
  have store : ∀ w, flatPaging.hhdm.store m₃ 0xFFFF800000004000 i.val w = m₃.write 4 i w := fun w =>
    Hhdm.store_ptr (h := flatPaging.hhdm) (show 4 < 2 ^ 44 by decide) i
  have root : (0x1000 + flatPaging.hhdm.memPhysOffset) % 2 ^ 64 = 0xFFFF800000001000 := rfl
  have top : flatPaging.maxLevel - 1 = 3 := rfl
  rw [vmmMapAdvanced, ha]
  dsimp only
  rw [root, top, if_neg (by decide), tables, ok_bind]
  dsimp only
  rw [if_neg (by decide), List.getD_cons_succ, List.getD_cons_zero, third, ok_bind]
  dsimp only
  rw [if_neg (by decide), List.getD_cons_zero, store, if_neg (by decide)]

section
variable {m : PhysMem} (h : Linked m)
include h

/-- The last table can be written. -/
lemma Linked.write (i : Fin 512) (w : Nat) : Linked (m.write 4 i w) :=
  ⟨h.first, h.second, h.third⟩

/-- The entry of the root. -/
lemma Linked.load_first : flatPaging.hhdm.load m 0xFFFF800000001000 255 = 0x801 := h.first

/-- The entry of the second table. -/
lemma Linked.load_second : flatPaging.hhdm.load m 0xFFFF800000002000 511 = 0xC01 := h.second

/-- The entry of the third one. -/
lemma Linked.load_third : flatPaging.hhdm.load m 0xFFFF800000003000 511 = 0x1001 := h.third

/-- No table is missing on the way to a page of the stacks. -/
lemma Linked.map_page {addr phys size permissions : Nat} {i : Fin 512}
    (ha : getAddrOffsets addr = [i.val, 511, 511, 255, 0]) :
    vmmMapAdvanced flatPaging 0x1000 permissions false (size + 1) addr phys m =
      vmmMapAdvanced flatPaging 0x1000 permissions false size ((addr + 0x1000) % 2 ^ 64)
        ((phys + 0x1000) % 2 ^ 64) (m.write 4 i (leafEntry phys permissions)) := by
  have first : vmmGetOrAlloc flatPaging.hhdm 0xFFFF800000001000 255 vmmPresent m =
      .ok (0xFFFF800000002000, m) := by
    simp only [vmmGetOrAlloc, h.load_first]
    rfl
  have second : vmmGetOrAlloc flatPaging.hhdm 0xFFFF800000002000 511 vmmPresent m =
      .ok (0xFFFF800000003000, m) := by
    simp only [vmmGetOrAlloc, h.load_second]
    rfl
  have third : vmmGetOrAlloc flatPaging.hhdm 0xFFFF800000003000 511 vmmPresent m =
      .ok (0xFFFF800000004000, m) := by
    simp only [vmmGetOrAlloc, h.load_third]
    rfl
  exact Tasking.map_page ha first second third

/-- The page is unmapped, whether it was mapped or not. -/
lemma Linked.unmap_page {addr : Nat} {i : Fin 512} (ha : getAddrOffsets addr = [i.val, 511, 511, 255, 0]) :
    vmmUnmap flatPaging 0x1000 2 addr 1 m = some (.ok (true, m.write 4 i 0)) := by
  have first : vmmGetOrNull flatPaging.hhdm 0xFFFF800000001000 255 m = 0xFFFF800000002000 := by
    simp only [vmmGetOrNull, h.load_first]
    rfl
  have second : vmmGetOrNull flatPaging.hhdm 0xFFFF800000002000 511 m = 0xFFFF800000003000 := by
    simp only [vmmGetOrNull, h.load_second]
    rfl
  have third : vmmGetOrNull flatPaging.hhdm 0xFFFF800000003000 511 m = 0xFFFF800000004000 := by
    simp only [vmmGetOrNull, h.load_third]
    rfl
  have tables : findTables flatPaging.hhdm [i.val, 511, 511, 255, 0] 3 0xFFFF800000001000 m =
      some 0xFFFF800000003000 := by
    simp only [findTables, List.getD_cons_succ, List.getD_cons_zero, first, second]
    rfl
  have store : flatPaging.hhdm.store m 0xFFFF800000004000 i.val 0 = m.write 4 i 0 :=
    Hhdm.store_ptr (h := flatPaging.hhdm) (show 4 < 2 ^ 44 by decide) i
  have root : (0x1000 + flatPaging.hhdm.memPhysOffset) % 2 ^ 64 = 0xFFFF800000001000 := rfl
  have top : flatPaging.maxLevel - 1 = 3 := rfl
  rw [vmmUnmap, if_neg (by decide), ha]
  dsimp only
  rw [root, top, if_neg (by decide), tables]
  dsimp only
  rw [List.getD_cons_succ, List.getD_cons_zero, h.load_third, if_neg (by decide), third,
    if_neg (by decide), List.getD_cons_zero, store]
  rfl

end

/-- The page is in the table of the stacks. -/
def InStacks (addr : Nat) : Prop := ∃ i : Fin 512, getAddrOffsets addr = [i.val, 511, 511, 255, 0]

/-- Pages of the stacks can be mapped without a page for tables. -/
lemma Linked.map_pages {size addr phys permissions : Nat} {m : PhysMem} (h : Linked m)
    (below : addr + 0x1000 * size < 2 ^ 64) (pages : ∀ j < size, InStacks (addr + 0x1000 * j)) :
    ∃ m', vmmMap flatPaging 0x1000 addr phys size permissions m = .ok (true, m') ∧ Linked m' := by
  induction size generalizing addr phys m with
  | zero => exact ⟨m, rfl, h⟩
  | succ size ih =>
    obtain ⟨i, hi⟩ := pages 0 (by omega)
    have next : (addr + 0x1000) % 2 ^ 64 = addr + 0x1000 := by
      refine Nat.mod_eq_of_lt (Nat.lt_of_le_of_lt ?_ below)
      omega
    rw [Nat.mul_zero, Nat.add_zero] at hi
    rw [vmmMap, h.map_page hi, next]
    refine ih (h.write ..) (by omega) fun j hj => ?_
    rw [show addr + 0x1000 + 0x1000 * j = addr + 0x1000 * (j + 1) by omega]
    exact pages (j + 1) (by omega)

/-- Two stacks below the top, with their guard pages. -/
lemma inStacks {tid : Nat} (low : tid < 2) :
    InStacks (stackGuardPage tid) ∧ ∀ j < 4, InStacks (stackBottom tid + 0x1000 * j) := by
  interval_cases tid
  · refine ⟨⟨507, rfl⟩, fun j hj => ?_⟩
    interval_cases j
    exacts [⟨508, rfl⟩, ⟨509, rfl⟩, ⟨510, rfl⟩, ⟨511, rfl⟩]
  · refine ⟨⟨502, rfl⟩, fun j hj => ?_⟩
    interval_cases j
    exacts [⟨503, rfl⟩, ⟨504, rfl⟩, ⟨505, rfl⟩, ⟨506, rfl⟩]

/-- A table that is not there yet is allocated. -/
lemma alloc_table {m : PhysMem} {f : Nat} {fs : List Nat} (page : Nat) (i : Fin 512)
    (frames : m.frames = f :: fs) (hp : page < 2 ^ 44) (hf : ∀ g ∈ f :: fs, flatPaging.hhdm.TablePage g)
    (none_ : m.entry page i = 0) :
    vmmGetOrAlloc flatPaging.hhdm (flatPaging.hhdm.ptr page) i vmmPresent m =
      .ok (flatPaging.hhdm.ptr f,
        { m with frames := fs }.link (Riscv64.format flatPaging.hhdm) page i f) := by
  have empty : (Riscv64.format flatPaging.hhdm).decode 1 (m.entry page i) = .empty := by
    rw [none_]
    exact pteDecode_zero (l := 1)
  rw [vmmGetOrAlloc_eq (l := 1) hp (by decide) (none_ ▸ .none) (by rw [none_, pteDecode_zero]; simp)
    (frames ▸ hf)]
  simp only [WivOS.Lib.Radix.getOrAlloc, empty, frames, Except.map]

/-- The first stack is mapped when the tables are not there yet. -/
lemma linked_emptyMem {phys permissions : Nat} :
    ∃ m, vmmMap flatPaging 0x1000 (stackBottom 0) phys 4 permissions emptyMem = .ok (true, m) ∧
      Linked m := by
  have usable : ∀ g ∈ [2, 3, 4], flatPaging.hhdm.TablePage g := by
    intro g hg
    simp only [List.mem_cons, List.not_mem_nil, or_false] at hg
    obtain rfl | rfl | rfl := hg <;> exact ⟨by decide, by decide, by decide⟩
  have first := alloc_table (m := emptyMem) 1 255 rfl (by decide) usable rfl
  have second := alloc_table (m := { emptyMem with frames := [3, 4] }.link
    (Riscv64.format flatPaging.hhdm) 1 255 2) 2 511 rfl (by decide)
    (fun g hg => usable g (List.mem_cons_of_mem 2 hg)) rfl
  have third := alloc_table (m := { { emptyMem with frames := [3, 4] }.link
    (Riscv64.format flatPaging.hhdm) 1 255 2 with frames := [4] }.link
    (Riscv64.format flatPaging.hhdm) 2 511 3) 3 511 rfl (by decide)
    (fun g hg => usable g (List.mem_cons_of_mem 2 (List.mem_cons_of_mem 3 hg))) rfl
  rw [vmmMap, map_page (i := 508) rfl first second third]
  refine Linked.map_pages ?_ (by decide) ?_
  · exact ⟨rfl, rfl, rfl⟩
  · intro j hj
    interval_cases j
    exacts [⟨509, rfl⟩, ⟨510, rfl⟩, ⟨511, rfl⟩]

/-- A stack below the top is mapped, with the tables that it needs. -/
lemma mapStack_low {k : Kernel (Fin 1)} {tid : Nat} (low : tid < 2)
    (mem : Linked k.mem ∨ (k.mem = emptyMem ∧ tid = 0)) (pages : k.stackPages = []) :
    ∃ m, mapStack (.flat 1) 0x1000 tid k = .ok { k with mem := m } ∧ Linked m := by
  have alloc : pmmAllocStack k = (0, k) := by
    unfold pmmAllocStack
    rw [pages]
  obtain ⟨⟨i, guard⟩, stack⟩ := inStacks low
  have mapped : ∃ m, vmmMap flatPaging 0x1000 (stackBottom tid) 0 4
      (vmmExecute ||| vmmRead ||| vmmWrite ||| vmmUser) k.mem = .ok (true, m) ∧ Linked m := by
    obtain linked | ⟨empty, rfl⟩ := mem
    · refine linked.map_pages ?_ stack
      interval_cases tid <;> decide
    · rw [empty]
      exact linked_emptyMem
  obtain ⟨m, map, linked⟩ := mapped
  refine ⟨m.write 4 i 0, ?_, linked.write i 0⟩
  have unmap := linked.unmap_page guard
  unfold mapStack
  rw [alloc]
  dsimp only
  rw [show (Config.flat 1).paging = flatPaging from rfl, show stackSize / 0x1000 = 4 from rfl,
    show stackGuardSize / 0x1000 = 1 from rfl, map]
  dsimp only
  rw [unmap]

end Stacks

section Fill
variable {k k' : Kernel (Fin 1)} {p n : Nat}

/-- What the kernel is like while the table is filled: the processes below `p` are there, the last of
them has the threads below `n`, every thread is a task, and no CPU executes one. -/
structure Shape (k : Kernel (Fin 1)) (p n : Nat) : Prop where
  tables : Tables k
  tasks : k.nextThread = k.totalActiveTasks
  home : ∀ t < k.nextThread, (k.threads t).pid < p
  processes : ∀ pid, (k.processTable pid).isSome = decide (pid < p)
  last : ∀ {pid process}, pid + 1 = p → k.processTable pid = some process →
    process.pageTable = 0x1000 ∧ (∀ tid < n, ∃ t, process.threads tid = .thread t) ∧
      ∀ tid, n ≤ tid → process.threads tid = .null
  mem : Linked k.mem ∨ (k.mem = emptyMem ∧ (p ≤ 1 ∨ n = 0))
  pages : k.stackPages = []
  cpu : (k.cpus 0).preemptCounter = 0 ∧ (k.cpus 0).currentTaskID = minusOne ∧
    (k.cpus 0).currentPid = minusOne

/-- A process more. -/
lemma Shape.newProcess (h : Shape k p n) (lt : p < maxProcesses) :
    Shape (newProcess 0x1000 k).2 (p + 1) 0 ∧
      (Tasking.newProcess 0x1000 k).2.totalActiveTasks = k.totalActiveTasks ∧
      (Tasking.newProcess 0x1000 k).2.schedulerRunning = k.schedulerRunning := by
  have tables := h.tables.newProcess 0x1000
  have free : k.freePid = some p := by
    refine List.find?_range_eq_some.mpr ⟨?_, List.mem_range.mpr lt, fun j hj => ?_⟩
    · have := h.processes p
      simp_all
    · have := h.processes j
      simp_all
  unfold Tasking.newProcess at tables ⊢
  rw [free] at tables ⊢
  refine ⟨⟨tables, h.tasks, ?_, ?_, ?_, ?_, h.pages, h.cpu⟩, rfl, rfl⟩
  · intro t ht
    exact Nat.lt_succ_of_lt (h.home t ht)
  · intro pid
    by_cases hp : pid = p
    · subst hp
      simp
    · simp only [Function.update_of_ne hp, h.processes pid, decide_eq_decide]
      omega
  · intro pid process hp found
    obtain rfl : pid = p := by omega
    simp only [Function.update_self, Option.some.injEq] at found
    subst found
    simp
  · obtain linked | ⟨empty, _⟩ := h.mem
    · exact .inl linked
    · exact .inr ⟨empty, .inr rfl⟩

/-- The last process exists. -/
lemma Shape.exists_process (h : Shape k (p + 1) n) : ∃ process, k.processTable p = some process :=
  Option.isSome_iff_exists.mp (by rw [h.processes p]; simp)

/-- The first `tid` that is free is the next. -/
lemma Shape.freeTid (h : Shape k (p + 1) n) (lt : n < maxThreads) {process : Process}
    (found : k.processTable p = some process) : process.freeTid = some n := by
  obtain ⟨_, threads, null⟩ := h.last rfl found
  refine List.find?_range_eq_some.mpr ⟨?_, List.mem_range.mpr lt, fun tid hlt => ?_⟩
  · simp [null n le_rfl]
  · obtain ⟨t, ht⟩ := threads tid hlt
    simp [ht]

/-- The stack of a thread is mapped. -/
lemma Shape.withStack (h : Shape k (p + 1) n) (lt : n < maxThreads) (low : p = 0 ∨ n < 2)
    (entry arg : Nat) :
    ∃ k', newThread (.flat 1) p entry arg k = .ok (n, k') ∧
      (Linked k'.mem ∨ (k'.mem = emptyMem ∧ p = 0)) ∧ k'.stackPages = [] := by
  obtain ⟨process, found⟩ := h.exists_process
  have tid := h.freeTid lt found
  obtain ⟨table, _⟩ := h.last rfl found
  unfold newThread
  rw [found]
  dsimp only
  rw [tid, table]
  dsimp only
  by_cases hp : p = 0
  · rw [if_pos hp]
    refine ⟨_, rfl, ?_, h.pages⟩
    obtain linked | ⟨empty, _⟩ := h.mem
    · exact .inl linked
    · exact .inr ⟨empty, hp⟩
  · have mem : Linked k.mem ∨ (k.mem = emptyMem ∧ n = 0) := by
      obtain linked | ⟨empty, _ | first⟩ := h.mem
      · exact .inl linked
      · omega
      · exact .inr ⟨empty, first⟩
    obtain ⟨m, map, linked⟩ := mapStack_low (low.resolve_left hp) mem h.pages
    rw [if_neg hp, map]
    exact ⟨_, rfl, .inl linked, h.pages⟩

/-- The first free slot is behind those in use. -/
lemma Tables.freeTask_total {C : Type} {k : Kernel C} (h : Tables k)
    (lt : k.totalActiveTasks < maxThreads * 2) : k.freeTask = some k.totalActiveTasks := by
  refine List.find?_range_eq_some.mpr ⟨?_, List.mem_range.mpr lt, fun i hi => ?_⟩
  · simp [h.null le_rfl]
  · obtain ⟨t, _, ht, _⟩ := h.task hi
    simp [ht]

/-- A thread more, and a task more. -/
lemma Shape.grow (h : Shape k (p + 1) n) (lt : n < maxThreads) (low : p = 0 ∨ n < 2)
    (room : k.totalActiveTasks < maxThreads * 2) (entry arg : Nat) :
    ∃ k' process, newThread (.flat 1) p entry arg k = .ok (n, k') ∧
      k'.processTable p = some process ∧ process.threads n = .thread k.nextThread ∧
      (k'.threads k.nextThread).taskID = minusOne ∧
      Shape (addTask k.nextThread k').2 (p + 1) (n + 1) ∧
      (addTask k.nextThread k').2.totalActiveTasks = k.totalActiveTasks + 1 ∧
      (addTask k.nextThread k').2.schedulerRunning = k.schedulerRunning := by
  obtain ⟨k', created, mem, pages⟩ := h.withStack lt low entry arg
  have tables := h.tables.newThread created
  obtain ⟨bad, _⟩ | ⟨process, thread, _, _, found, _, pid, _, task, _, _, rfl⟩ := newThread_ok created
  · have : n ≠ minusOne := by
      have : maxThreads < minusOne := by decide
      omega
    contradiction
  have free := tables.freeTask_total room
  have added := tables.addTask (t := k.nextThread) (Nat.lt_succ_self _)
    (by simp only [Function.update_self, task]) (Prod.mk.eta.symm)
  -- the last process has its first `n` threads, and no other
  obtain ⟨table, threads, null⟩ := h.last rfl found
  refine ⟨_, _, created, Function.update_self .., Function.update_self .., ?_, ?_, ?_⟩
  · simp only [Function.update_self, task]
  · refine ⟨added, ?_, ?_, ?_, ?_, ?_, ?_, ?_⟩
    all_goals unfold addTask; rw [free]
    · exact congrArg (· + 1) h.tasks
    · intro t ht
      dsimp only [Kernel.setThread] at ht ⊢
      by_cases hn : t = k.nextThread
      · subst hn
        rw [Function.update_self, Function.update_self]
        exact pid.trans_lt (Nat.lt_succ_self p)
      · rw [Function.update_of_ne hn, Function.update_of_ne hn]
        exact h.home t (by omega)
    · intro pid'
      dsimp only [Kernel.setThread]
      by_cases hp : pid' = p
      · subst hp
        simp
      · rw [Function.update_of_ne hp]
        exact h.processes pid'
    · intro pid' process' hp found'
      obtain rfl : pid' = p := by omega
      dsimp only [Kernel.setThread] at found'
      rw [Function.update_self, Option.some.injEq] at found'
      subst found'
      refine ⟨table, fun tid ht => ?_, fun tid ht => ?_⟩
      · by_cases hn : tid = n
        · subst hn
          exact ⟨_, Function.update_self ..⟩
        · obtain ⟨t, at_⟩ := threads tid (by omega)
          exact ⟨t, (Function.update_of_ne hn ..).trans at_⟩
      · exact (Function.update_of_ne (by omega) ..).trans (null tid (by omega))
    · obtain linked | ⟨empty, rfl⟩ := mem
      · exact .inl linked
      · exact .inr ⟨empty, .inl le_rfl⟩
    · exact pages
    · exact h.cpu
  · unfold addTask
    rw [free]
    exact ⟨rfl, rfl⟩

end Fill

section Reaches
variable {k k' : Kernel (Fin 1)} {locked locked' : Lock → Bool} {p n : Nat}

/-- The CPU comes to a state between two of its calls. -/
def Reaches (k : Kernel (Fin 1)) (locked : Lock → Bool) : Prop :=
  ∃ s : Cpus (Fin 1), TaskRuns (.flat 1) (fun _ _ _ => True) s ∧ (∀ c, s.prog c = none) ∧ s.data = k ∧
    taken s = locked

/-- A call that returns leads to a state between two calls. -/
lemma Reaches.call (h : Reaches k locked) (call : Call)
    (run : (call.body (.flat 1) 0).run locked k = .done () locked' k') : Reaches k' locked' := by
  obtain ⟨s, runs, idle, rfl, rfl⟩ := h
  obtain ⟨s', runs', prog, data, locks⟩ := Runs.done runs (idle 0) trivial run
  exact ⟨s', runs', fun c => by rw [prog, idle], data, locks⟩

/-- So does `process_create`. -/
lemma Reaches.createProcess {pageTable : Nat} (h : Reaches k fun _ => false) :
    Reaches (newProcess pageTable k).2 fun _ => false := by
  refine h.call (.createProcess pageTable) ?_
  simp only [Call.body, run_bind, run_processCreate, Outcome.andThen_done, run_pure]

/-- A thread is created and added to the tasks. -/
lemma Shape.run_grow (h : Shape k (p + 1) n) (hp : p < maxProcesses) (hn : n < maxThreads)
    (low : p = 0 ∨ n < 2) (room : k.totalActiveTasks < maxThreads * 2) :
    ∃ k₁ k' r, (threadCreate (.flat 1) 0 p 0 0).run (fun _ => false) k = .done n (fun _ => false) k₁ ∧
      (schedulerAddTask 0 p n).run (fun _ => false) k₁ = .done r (fun _ => false) k' ∧
      Shape k' (p + 1) (n + 1) ∧ k'.totalActiveTasks = k.totalActiveTasks + 1 ∧
      k'.schedulerRunning = k.schedulerRunning := by
  obtain ⟨k₁, process, created, found, thread, new, shape, rest⟩ := h.grow hn low room 0 0
  obtain ⟨old, before⟩ := h.exists_process
  exact ⟨k₁, _, _, run_threadCreate hp rfl rfl before created,
    run_schedulerAddTask hp rfl rfl found hn thread new rfl, shape, rest⟩

/-- One more thread and its task. -/
lemma Reaches.grow (h : Reaches k fun _ => false) (shape : Shape k (p + 1) n) (hp : p < maxProcesses)
    (hn : n < maxThreads) (low : p = 0 ∨ n < 2) (room : k.totalActiveTasks < maxThreads * 2) :
    ∃ k', Reaches k' (fun _ => false) ∧ Shape k' (p + 1) (n + 1) ∧
      k'.totalActiveTasks = k.totalActiveTasks + 1 ∧ k'.schedulerRunning = k.schedulerRunning := by
  obtain ⟨k₁, k', r, create, add, rest⟩ := shape.run_grow hp hn low room
  have created : Reaches k₁ fun _ => false := by
    refine h.call (.createThread p 0 0) ?_
    simp only [Call.body, run_bind, create, Outcome.andThen_done, run_pure]
  refine ⟨k', created.call (.addTask p n) ?_, rest⟩
  simp only [Call.body, run_bind, add, Outcome.andThen_done, run_pure]

/-- Before `scheduler_init`. -/
def bare : Kernel (Fin 1) := { Kernel.boot (Fin 1) with mem := emptyMem }

/-- Nothing was created yet. -/
lemma shape_bare : Shape bare 0 0 where
  tables := ⟨nofun, nofun, by decide, nofun, fun _ => rfl, nofun⟩
  tasks := rfl
  home := nofun
  processes _ := rfl
  last := nofun
  mem := .inr ⟨rfl, .inr rfl⟩
  pages := rfl
  cpu := ⟨rfl, rfl, rfl⟩

/-- The flag of the scheduler is no matter. -/
lemma Shape.run (h : Shape k p n) : Shape { k with schedulerRunning := true } p n :=
  { h with tables := h.tables.congr ⟨rfl, rfl, rfl, rfl, fun _ => rfl, fun _ => rfl, fun _ => rfl⟩ }

/-- After `scheduler_init`. -/
lemma reaches_started :
    ∃ k, Reaches k (fun _ => false) ∧ Shape k 1 1 ∧ k.totalActiveTasks = 1 ∧ k.schedulerRunning = true := by
  obtain ⟨shape, total, _⟩ := shape_bare.newProcess (by decide)
  obtain ⟨k₁, k', r, create, add, shape', total', _⟩ :=
    shape.run_grow (by decide) (by decide) (.inl rfl) (by decide)
  refine ⟨{ k' with schedulerRunning := true }, ?_, shape'.run, by rw [total', total]; rfl, rfl⟩
  refine ⟨⟨fun _ => none, { k' with schedulerRunning := true }, fun _ => none⟩, ?_, fun _ => rfl, rfl, rfl⟩
  refine .idle ⟨fun _ => rfl, fun _ => rfl⟩ ⟨bare, 0, 0, fun _ => false, ⟨rfl, rfl, fun _ => rfl⟩, ?_⟩
  have init : (processInitProcessTable 0).run (fun _ => false) bare =
      .done () (fun _ => false) bare := run_processInitProcessTable rfl
  have process : (processCreate 0 0x1000).run (fun _ => false) bare =
      .done 0 (fun _ => false) (newProcess 0x1000 bare).2 := run_processCreate rfl
  rw [schedulerInit, run_bind, init, Outcome.andThen_done, run_bind, run_modify, Outcome.andThen_done,
    run_bind, show { bare with activeTasks := fun _ => Slot.null } = bare from rfl,
    show (Config.flat 1).kernelPageMap = 0x1000 from rfl, process, Outcome.andThen_done, run_bind, create,
    Outcome.andThen_done, run_bind, add]
  rfl

/-- The kernel's process gets all the threads that it can have. -/
lemma reaches_kernelThreads (le : n < maxThreads) :
    ∃ k, Reaches k (fun _ => false) ∧ Shape k 1 (n + 1) ∧ k.totalActiveTasks = n + 1 ∧
      k.schedulerRunning = true := by
  induction n with
  | zero => exact reaches_started
  | succ n ih =>
    obtain ⟨k, reaches, shape, total, running⟩ := ih (by omega)
    obtain ⟨k', reaches', shape', total', running'⟩ :=
      reaches.grow shape (by decide) le (.inl rfl) (by rw [total]; omega)
    exact ⟨k', reaches', shape', by rw [total', total], running'.trans running⟩

/-- Two threads for each process more. -/
lemma reaches_processes (le : p ≤ 128) :
    ∃ k n, Reaches k (fun _ => false) ∧ Shape k (p + 1) n ∧ k.totalActiveTasks = maxThreads + 2 * p ∧
      k.schedulerRunning = true := by
  induction p with
  | zero =>
    obtain ⟨k, reaches, shape, total, running⟩ := reaches_kernelThreads (n := 255) (by decide)
    exact ⟨k, 256, reaches, shape, total, running⟩
  | succ p ih =>
    have below : p + 1 < maxProcesses := by
      have : maxProcesses = 256 := rfl
      omega
    have room : maxThreads + 2 * p + 1 < maxThreads * 2 := by
      have : maxThreads = 256 := rfl
      omega
    obtain ⟨k, n, reaches, shape, total, running⟩ := ih (by omega)
    obtain ⟨shape₁, total₁, running₁⟩ := shape.newProcess below
    obtain ⟨k₂, reaches₂, shape₂, total₂, running₂⟩ :=
      reaches.createProcess.grow shape₁ below (by decide) (.inr (by decide)) (by omega)
    obtain ⟨k₃, reaches₃, shape₃, total₃, running₃⟩ :=
      reaches₂.grow shape₂ below (by decide) (.inr (by decide)) (by omega)
    refine ⟨k₃, _, reaches₃, shape₃, by omega, ?_⟩
    rw [running₃, running₂, running₁, running]

end Reaches

section Turns
variable {k k' : Kernel (Fin 1)} {i : Nat}

/-- The table is full, and `ActiveTasks[i]` is the next task of the CPU: it executes the one before, whose
lock is the only one that is taken, or none yet. -/
structure Turn (k : Kernel (Fin 1)) (i : Nat) : Prop where
  tables : Tables k
  full : k.totalActiveTasks = maxThreads * 2
  on : k.schedulerRunning = true ∧ (k.cpus 0).preemptCounter = 0
  home : ∀ t < k.nextThread,
    (k.threads t).pid < maxProcesses ∧ (k.processTable (k.threads t).pid).isSome
  current : (i = 0 ∧ (k.cpus 0).currentTaskID = minusOne ∧ (k.cpus 0).currentPid = minusOne ∧
      Reaches k fun _ => false) ∨
    ∃ j t, i = j + 1 ∧ (k.cpus 0).currentTaskID = j ∧ k.activeTasks j = .thread t ∧
      (k.cpus 0).currentPid = (k.threads t).pid ∧
      Reaches k (Function.update (fun _ => false) (.thread t) true)

/-- The table can be filled before a CPU schedules. -/
lemma turn_zero : ∃ k, Turn k 0 := by
  obtain ⟨k, n, reaches, shape, total, running⟩ := reaches_processes (p := 128) le_rfl
  refine ⟨k, shape.tables, total, ⟨running, shape.cpu.1⟩, fun t ht => ?_,
    .inl ⟨rfl, shape.cpu.2.1, shape.cpu.2.2, reaches⟩⟩
  have below := shape.home t ht
  rw [shape.processes]
  exact ⟨below.trans (by decide), by simpa using below⟩

/-- What `scheduler_schedule` has done by the time that it looks for the next task. -/
lemma Turn.stored (h : Turn k i) (regs : Regs) :
    ∃ locked o k₁, Reaches k locked ∧ storeCurrent 0 regs k = .ok (o, k₁) ∧
      locked .entrySchedulerLock = false ∧ locked .schedulerLock = false ∧
      unlockThread (lockScheduler locked) o = lockScheduler fun _ => false := by
  obtain ⟨_, current, _, reaches⟩ | ⟨j, t, _, current, slot, _, reaches⟩ := h.current
  · refine ⟨_, none, k, reaches, ?_, rfl, rfl, rfl⟩
    unfold storeCurrent
    rw [if_pos current]
  · have below := (h.tables.of_slot slot).1
    have store : ∃ k₁, storeCurrent 0 regs k = .ok (some t, k₁) := by
      unfold storeCurrent
      dsimp only
      rw [current, if_neg (h.tables.ne_minusOne below), Kernel.activeTask, if_pos (h.full ▸ below), slot]
      exact ⟨_, rfl⟩
    obtain ⟨k₁, store⟩ := store
    refine ⟨_, some t, k₁, reaches, store, by simp, by simp, ?_⟩
    funext l
    cases l <;> simp [unlockThread, lockScheduler, Function.update_apply]

/-- The search starts at the next task. -/
lemma Turn.start (h : Turn k i) : ((k.cpus 0).currentTaskID + 1) % 2 ^ 64 = i := by
  obtain ⟨rfl, current, _⟩ | ⟨j, t, rfl, current, slot, _⟩ := h.current
  · rw [current]
    rfl
  · have below := (h.tables.of_slot slot).1
    have total := h.tables.total
    have : maxThreads * 2 < 2 ^ 64 := by decide
    rw [current, Nat.mod_eq_of_lt (by omega)]

/-- In a round from where the search starts the first slot is looked at first. -/
lemma findSome_rotate {f : Nat → Option Nat} {n t : Nat} (lt : i < n) (found : f i = some t) :
    ((List.range n).rotate i).findSome? f = some t := by
  obtain ⟨n, rfl⟩ : ∃ m, n = m + 1 := ⟨n - 1, by omega⟩
  rw [← slotsFrom_rotate, slotsFrom_succ, Nat.mod_eq_of_lt lt, List.findSome?_cons, found]

/-- What a switch makes of the kernel. -/
lemma switched {t : Nat} {pageTable : Option Nat}
    (h : k' = restoreContext 0 t (prepareSwitch (.flat 1) 0 t pageTable (makeCurrent 0 t k))) :
    SameTables k k' ∧ k'.schedulerRunning = k.schedulerRunning ∧
      (k'.cpus 0).preemptCounter = (k.cpus 0).preemptCounter ∧
      (k'.cpus 0).currentTaskID = (k.threads t).taskID ∧
      (k'.cpus 0).currentPid = (k.threads t).pid := by
  subst h
  refine ⟨SameTables.makeCurrent.trans (SameTables.prepareSwitch.trans .setCpu), ?_⟩
  cases pageTable with
  | none => simp [restoreContext, prepareSwitch, makeCurrent, Kernel.setCpu, Kernel.setThread]
  | some entries => simp [restoreContext, prepareSwitch, makeCurrent, Kernel.setCpu, Kernel.setThread]

/-- The CPU goes on with the next task. -/
lemma Turn.next (h : Turn k i) (lt : i < maxThreads * 2) : ∃ k', Turn k' (i + 1) := by
  obtain ⟨locked, o, k₁, reaches, store, entry, scheduler, unlocked⟩ := h.stored fun _ => 0
  obtain ⟨same, cpus⟩ := storeCurrent_ok store
  have running := storeCurrent_running store
  have tables := h.tables.congr same
  have full : k₁.totalActiveTasks = maxThreads * 2 := same.totalActiveTasks.trans h.full
  obtain ⟨t, ht, slot, id⟩ := tables.task (full ▸ lt)
  have home : ∀ t < k₁.nextThread,
      (k₁.threads t).pid < maxProcesses ∧ (k₁.processTable (k₁.threads t).pid).isSome := by
    intro t ht
    rw [same.pid, same.processTable]
    exact h.home t (same.nextThread ▸ ht)
  -- the search starts behind the current task, so it finds the thread with the number `i`
  have search : (schedulerGetNextTask 0 513 (k.cpus 0).currentTaskID).run
      (lockScheduler fun _ => false) k₁ =
      .done (some t) (Function.update (lockScheduler fun _ => false) (.thread t) true) k₁ := by
    rw [tables.taskTable.run_schedulerGetNextTask ?_ (by decide), h.start,
      findSome_rotate (full ▸ lt) (t := t)]
    · rfl
    · simp [Kernel.freeThread, slot, lockScheduler]
    · obtain ⟨_, current, _⟩ | ⟨j, t, rfl, current, slot, _⟩ := h.current
      · exact .inl current
      · rw [current]
        exact .inr ⟨full ▸ Nat.lt_of_succ_lt lt, lt⟩
  have current : (k.cpus 0).currentPid = minusOne ∨ ((k.cpus 0).currentPid < maxProcesses ∧
      (k₁.processTable (k.cpus 0).currentPid).isSome) := by
    obtain ⟨_, _, pid, _⟩ | ⟨j, t, _, _, slot, pid, _⟩ := h.current
    · exact .inl pid
    · rw [pid, same.processTable]
      exact .inr (h.home t (h.tables.of_slot slot).2.1)
  have table : Function.update (lockScheduler fun _ => false) (.thread t) true .processLock = false := by
    simp [lockScheduler]
  obtain ⟨pageTable, switch⟩ := run_switchTo (c := 0) table (home t ht) current
  have run : (schedulerSchedule (.flat 1) 0 513 fun _ => 0).run locked k =
      .done () (Function.update (fun _ => false) (.thread t) true)
        (restoreContext 0 t (prepareSwitch (.flat 1) 0 t pageTable (makeCurrent 0 t k₁))) := by
    rw [schedulerSchedule, run_bind, run_decideTask h.on entry scheduler store, unlocked, search,
      Outcome.andThen_done, switch, Outcome.andThen_done]
    simp only [archSchedulerSwitchTask, run_bind, run_modify, Outcome.andThen_done,
      run_archSchedulerUnlockLocks]
    congr 1
    funext l
    cases l <;> simp [lockScheduler, Function.update_apply]
  obtain ⟨same', running', counter, taskID, pid⟩ := switched (k := k₁) rfl
  refine ⟨_, tables.congr same', same'.totalActiveTasks.trans full, ⟨?_, ?_⟩, ?_,
    .inr ⟨i, t, rfl, taskID.trans id, ?_, ?_, reaches.call (.schedule 513 fun _ => 0) run⟩⟩
  · rw [running', running]
    exact h.on.1
  · rw [counter, cpus]
    exact h.on.2
  · intro t' ht'
    rw [same'.pid, same'.processTable]
    exact home t' (same'.nextThread ▸ ht')
  · rw [same'.activeTasks]
    exact slot
  · rw [pid, same'.pid]

/-- Every slot gets its turn. -/
lemma exists_turn (le : i ≤ maxThreads * 2) : ∃ k, Turn k i := by
  induction i with
  | zero => exact turn_zero
  | succ i ih =>
    obtain ⟨k, turn⟩ := ih (by omega)
    exact turn.next le

/-- A run after `scheduler_init`, on one CPU: the table of tasks is full, and when the CPU is preempted
in the last one, `scheduler_get_next_task` looks at the slot behind it. -/
theorem last_task_faults :
    ∃ s : Cpus (Fin 1), TaskRuns (.flat 1) (fun _ _ _ => True) s ∧ ¬ TasksInside s := by
  obtain ⟨k, turn⟩ := exists_turn le_rfl
  obtain ⟨locked, o, k₁, ⟨s, runs, idle, rfl, rfl⟩, store, entry, scheduler, unlocked⟩ :=
    turn.stored fun _ => 0
  obtain ⟨same, _⟩ := storeCurrent_ok store
  have total : ¬ k₁.totalActiveTasks ≤ 0 := by
    rw [same.totalActiveTasks, turn.full]
    decide
  have look : (perform fun k : Kernel (Fin 1) => (k.taskFrom (maxThreads * 2)).map (·, k)).run
      (lockScheduler fun _ => false) k₁ = (.failed .outOfBounds : Outcome Lock _ _ _) :=
    run_perform_error rfl
  have search : (schedulerGetNextTask 0 1 (s.data.cpus 0).currentTaskID).run
      (lockScheduler fun _ => false) k₁ = .failed .outOfBounds := by
    rw [schedulerGetNextTask, turn.start]
    simp only [nextTaskLoop, run_bind, run_read, Outcome.andThen_done, if_neg total, look,
      Outcome.andThen_failed]
  have run : ((Call.schedule 1 fun _ => 0).body (.flat 1) 0).run (taken s) s.data =
      .failed .outOfBounds := by
    rw [Call.body, schedulerSchedule, run_bind, run_decideTask turn.on entry scheduler store, unlocked, search]
    rfl
  obtain ⟨s', runs', fails⟩ := Runs.failed runs (idle 0) trivial run
  exact ⟨s', runs', fun inside => inside.schedule 0 1 (fun _ => 0) fails⟩

end Turns

end WivOS.Tasking
