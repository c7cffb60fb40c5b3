import WivOS.Tasking.Ownership

/-!
# The stacks that CPUs stand on

A switch in the steps of the source. `scheduler_schedule` decides under the scheduler's locks; then
`arch_scheduler_context_switch` releases these, still on the stack of the thread that was given up, and
loads the stack pointer of the next one; `arch_scheduler_idle` loads the CPU's own stack first and
releases the locks last. No two CPUs are on the kernel stack of one thread in the runs where no CPU
decides while another one is still on the stack of a thread that it has given up
(`no_shared_kernel_stack`).
-/

namespace WivOS.Tasking
open WivOS.Lib.LockProg WivOS.Lib.LockProg.Prog

/-- A stack pointer is on the kernel stack of a thread. -/
def OnStack {C : Type} (cfg : Config C) (t sp : Nat) : Prop :=
  cfg.kstack t < sp ∧ sp ≤ cfg.kstack t + kstackSize

/-- The kernel stacks that `kmalloc` returns are apart, and above all user stacks. -/
structure StacksApart {C : Type} (cfg : Config C) : Prop where
  disjoint : ∀ {t t' sp}, OnStack cfg t sp → OnStack cfg t' sp → t' = t
  high : ∀ t, stackLocationTop ≤ cfg.kstack t

/-- Where a CPU is in `scheduler_schedule`. -/
inductive Phase where
  | running
  /-- The next thread is locked, the scheduler's locks are held. -/
  | chosen (t : Nat)
  /-- The scheduler's locks are released. -/
  | released (t : Nat)
  /-- There is no next thread, the scheduler's locks are held. -/
  | stopping
  /-- The CPU is on its own stack, the scheduler's locks are held. -/
  | stopped
deriving DecidableEq, Repr

/-- The phases in which the CPU holds the scheduler's locks. -/
def Phase.holds : Phase → Bool
  | .chosen _ | .stopping | .stopped => true
  | .running | .released _ => false

/-- The task of a CPU, which it gives up when it stops and not only when `arch_scheduler_idle_halt` says
so. -/
def Phase.task (taskID : Nat) : Phase → Nat
  | .stopping | .stopped => minusOne
  | .running | .chosen _ | .released _ => taskID

/-- The kernel, and where each CPU is. -/
structure Switching (C : Type) where
  locked : Lock → Bool
  kernel : Kernel C
  phase : C → Phase

namespace Switching
variable {C : Type}

/-- The number of a CPU's task. -/
def current (s : Switching C) (c : C) : Nat := (s.phase c).task (s.kernel.cpus c).currentTaskID

/-- The stack pointer of a CPU. -/
def sp (s : Switching C) (c : C) : Nat := (s.kernel.cpus c).regs .sp

/-- The thread is the one of the CPU's task. -/
def Owns (s : Switching C) (c : C) (t : Nat) : Prop :=
  s.current c ≠ minusOne ∧ s.kernel.activeTasks (s.current c) = .thread t

/-- Code of a CPU has a stack pointer that is on no kernel stack but that of the CPU's thread. -/
def Keeps (cfg : Config C) (s : Switching C) (c : C) (regs : Regs) : Prop :=
  ∀ t, OnStack cfg t (regs .sp) → s.kernel.executes c = some t

/-- No other CPU that has released the scheduler's locks is still on the stack of a thread whose lock is
free. -/
def Settled (cfg : Config C) (s : Switching C) (c : C) : Prop :=
  ∀ c' t t', c' ≠ c → s.phase c' = .released t' → OnStack cfg t (s.sp c') →
    s.locked (.thread t) = true

variable [DecidableEq C]

/-- What a CPU has decided. -/
def decided (cfg : Config C) (s : Switching C) (c : C) (locked : Lock → Bool) (k : Kernel C) :
    Decision → Switching C
  | .skip => ⟨locked, k, s.phase⟩
  | .idle => ⟨locked, k, Function.update s.phase c .stopping⟩
  | .task t pageTable =>
    ⟨locked, prepareSwitch cfg c t pageTable k, Function.update s.phase c (.chosen t)⟩

/-- One step of a CPU, where `ok` says when it may decide. -/
inductive Step (cfg : Config C) (ok : Switching C → C → Prop) : Switching C → Switching C → Prop where
  | decide {s : Switching C} {c fuel regs d locked' k'} :
      s.phase c = .running → ok s c → s.Keeps cfg c regs →
      (decideTask c fuel regs).run s.locked s.kernel = .done d locked' k' →
      Step cfg ok s (s.decided cfg c locked' k' d)
  | unlock {s : Switching C} {c t locked' k'} :
      s.phase c = .chosen t →
      (archSchedulerUnlockLocks c).run s.locked s.kernel = .done () locked' k' →
      Step cfg ok s ⟨locked', k', Function.update s.phase c (.released t)⟩
  | load {s : Switching C} {c t} :
      s.phase c = .released t →
      Step cfg ok s ⟨s.locked, restoreContext c t s.kernel, Function.update s.phase c .running⟩
  | loadIdle {s : Switching C} {c} :
      s.phase c = .stopping →
      Step cfg ok s ⟨s.locked, loadIdleStack cfg c s.kernel, Function.update s.phase c .stopped⟩
  | halt {s : Switching C} {c locked' k'} :
      s.phase c = .stopped →
      (archSchedulerIdleHalt c).run s.locked s.kernel = .done () locked' k' →
      Step cfg ok s ⟨locked', k', Function.update s.phase c .running⟩
  | addTask {s : Switching C} {c pid tid r locked' k'} :
      s.phase c = .running →
      (schedulerAddTask c pid tid).run s.locked s.kernel = .done r locked' k' →
      Step cfg ok s ⟨locked', k', s.phase⟩
  | createThread {s : Switching C} {c pid entry arg r locked' k'} :
      s.phase c = .running →
      (threadCreate cfg c pid entry arg).run s.locked s.kernel = .done r locked' k' →
      Step cfg ok s ⟨locked', k', s.phase⟩
  | createProcess {s : Switching C} {c pageTable r locked' k'} :
      s.phase c = .running →
      (processCreate c pageTable).run s.locked s.kernel = .done r locked' k' →
      Step cfg ok s ⟨locked', k', s.phase⟩
  | execute {s : Switching C} {c} (counter : BitVec 64) (regs : Regs) :
      s.phase c = .running → s.Keeps cfg c regs →
      Step cfg ok s ⟨s.locked, s.kernel.setCpu c fun cpu =>
        { cpu with preemptCounter := counter, regs := regs }, s.phase⟩

/-- The states of the runs from `scheduler_init` on, where no CPU starts on the kernel stack of a thread
and the CPUs' own stacks are none of these. -/
inductive Reachable (cfg : Config C) (ok : Switching C → C → Prop) : Switching C → Prop where
  | init {k₀ c firstTask locked k} : Machine.Boot k₀ →
      (∀ c t, ¬ OnStack cfg t (k₀.cpus c).kernelStack) →
      (∀ c t, ¬ OnStack cfg t ((k₀.cpus c).regs .sp)) →
      (schedulerInit cfg c firstTask).run (fun _ => false) k₀ = .done () locked k →
      Reachable cfg ok ⟨locked, k, fun _ => .running⟩
  | step {s s'} : Reachable cfg ok s → Step cfg ok s s' → Reachable cfg ok s'

end Switching

/-- Of the things that CPUs own and stand on: no CPU stands on what another one owns, and no two CPUs
stand on one. -/
structure Separated {C T : Type} (on owns : C → T → Prop) : Prop where
  clear : ∀ {c c' t}, on c t → owns c' t → c' = c
  unique : ∀ {c c' t}, on c t → on c' t → c' = c

section Separated
variable {C T : Type} {on on' owns owns' : C → T → Prop} {c : C}

/-- A CPU steps onto nothing but what it owns. -/
lemma Separated.move (h : Separated on owns)
    (single : ∀ {c c' t}, owns c t → owns c' t → c' = c)
    (others : ∀ c', c' ≠ c → ∀ t, on' c' t → on c' t) (own : ∀ t, on' c t → owns c t) :
    Separated on' owns := by
  constructor
  · intro c₁ c₂ t ht ho
    by_cases h₁ : c₁ = c
    · subst h₁
      exact single (own t ht) ho
    · exact h.clear (others c₁ h₁ t ht) ho
  · intro c₁ c₂ t ht₁ ht₂
    by_cases h₁ : c₁ = c
    · subst h₁
      by_cases h₂ : c₂ = c₁
      · exact h₂
      · exact (h.clear (others c₂ h₂ t ht₂) (own t ht₁)).symm
    · by_cases h₂ : c₂ = c
      · subst h₂
        exact h.clear (others c₁ h₁ t ht₁) (own t ht₂)
      · exact h.unique (others c₁ h₁ t ht₁) (others c₂ h₂ t ht₂)

/-- A CPU comes to own nothing but what no other one stands on. -/
lemma Separated.reassign (h : Separated on owns)
    (others : ∀ c', c' ≠ c → ∀ t, owns' c' t → owns c' t)
    (free : ∀ t, owns' c t → ∀ c', c' ≠ c → ¬ on c' t) : Separated on owns' := by
  refine ⟨?_, h.unique⟩
  intro c₁ c₂ t ht ho
  by_cases h₂ : c₂ = c
  · subst h₂
    by_contra hne
    exact free t ho c₁ (Ne.symm hne) ht
  · exact h.clear ht (others c₂ h₂ t ho)

end Separated

/-- The locks of the scheduler are held by the CPU that is in its midst, if there is one. -/
structure Held {C : Type} (locked : Lock → Bool) (phase : C → Phase) : Prop where
  table : locked .processLock = false
  scheduler : locked .schedulerLock = locked .entrySchedulerLock
  holder : ∀ {c}, (phase c).holds = true → locked .entrySchedulerLock = true
  single : ∀ {c c'}, (phase c).holds = true → (phase c').holds = true → c' = c

section Held
variable {C : Type} [DecidableEq C] {locked locked' : Lock → Bool} {phase : C → Phase} {c : C}
  {p : Phase}

/-- The other CPUs hold the locks as before. -/
lemma holds_update {c' : C} (hp : p.holds = false)
    (h : (Function.update phase c p c').holds = true) : c' ≠ c ∧ (phase c').holds = true := by
  by_cases hc : c' = c
  · subst hc
    rw [Function.update_self, hp] at h
    cases h
  · rw [Function.update_of_ne hc] at h
    exact ⟨hc, h⟩

/-- The locks are taken. -/
lemma Held.take (h : Held locked phase) (entry : locked .entrySchedulerLock = false)
    (taken : ∀ l, (∀ t, l ≠ .thread t) → locked' l = lockScheduler locked l) :
    Held locked' (Function.update phase c p) := by
  -- no CPU held them
  have none : ∀ c', (phase c').holds ≠ true := by
    intro c' hc'
    cases entry.symm.trans (h.holder hc')
  have self : ∀ {c'}, (Function.update phase c p c').holds = true → c' = c := by
    intro c' hc'
    by_contra hne
    rw [Function.update_of_ne hne] at hc'
    exact none c' hc'
  refine ⟨?_, ?_, ?_, ?_⟩
  · rw [taken _ (by simp)]
    simp [lockScheduler, h.table]
  · rw [taken _ (by simp), taken _ (by simp)]
    simp [lockScheduler]
  · intro c' _
    rw [taken _ (by simp)]
    simp [lockScheduler]
  · intro c₁ c₂ h₁ h₂
    rw [self h₁, self h₂]

/-- `arch_scheduler_unlock_locks` of the CPU that held them. -/
lemma Held.release (h : Held locked phase) (hc : (phase c).holds = true) (hp : p.holds = false) :
    Held (Function.update (Function.update locked .schedulerLock false) .entrySchedulerLock false)
      (Function.update phase c p) := by
  have none : ∀ c', (Function.update phase c p c').holds ≠ true := by
    intro c' hc'
    obtain ⟨hne, hc'⟩ := holds_update hp hc'
    exact hne (h.single hc hc')
  refine ⟨?_, ?_, ?_, ?_⟩
  · simp [h.table]
  · simp
  · intro c' hc'
    exact absurd hc' (none c')
  · intro c₁ _ h₁
    exact absurd h₁ (none c₁)

/-- A step between two phases that hold the locks, or between two that do not. -/
lemma Held.keep (h : Held locked phase) (hp : p.holds = (phase c).holds) :
    Held locked (Function.update phase c p) := by
  have same : ∀ c', (Function.update phase c p c').holds = (phase c').holds := by
    intro c'
    by_cases hc : c' = c
    · subst hc
      rw [Function.update_self, hp]
    · rw [Function.update_of_ne hc]
  refine ⟨h.table, h.scheduler, ?_, ?_⟩
  · intro c' hc'
    exact h.holder (same c' ▸ hc')
  · intro c₁ c₂ h₁ h₂
    exact h.single (same c₁ ▸ h₁) (same c₂ ▸ h₂)

end Held

/-- Threads are stored with a stack pointer that is on no kernel stack but their own. -/
def SavedOnOwn {C : Type} (cfg : Config C) (k : Kernel C) : Prop :=
  ∀ t < k.nextThread, ∀ t', OnStack cfg t' ((k.threads t).savedRegs .sp) → t' = t

section Saved
variable {C : Type} [DecidableEq C] {cfg : Config C} {k k' : Kernel C} {locked locked' : Lock → Bool}
  {c : C}

/-- A new thread starts on its own kernel stack, or on a user stack. -/
lemma SavedOnOwn.threadCreate {pid entry arg r : Nat} (h : SavedOnOwn cfg k) (apart : StacksApart cfg)
    (table : locked .processLock = false)
    (run : (threadCreate cfg c pid entry arg).run locked k = .done r locked' k') :
    SavedOnOwn cfg k' := by
  obtain ⟨_, rfl | e⟩ := threadCreate_done table run
  · exact h
  · obtain ⟨_, rfl⟩ | ⟨_, thread, _, _, _, _, _, _, _, _, sp, rfl⟩ := newThread_ok e
    · exact h
    · intro t hn t' ht'
      dsimp only at hn ht'
      by_cases hne : t = k.nextThread
      · subst hne
        rw [Function.update_self, sp] at ht'
        split at ht'
        · have top : OnStack cfg k.nextThread (cfg.kstack k.nextThread + kstackSize) :=
            ⟨Nat.lt_add_of_pos_right (by decide), Nat.le_refl _⟩
          exact apart.disjoint top ht'
        · have := apart.high t'
          have : stackBottom r + stackSize ≤ stackLocationTop := by
            simp only [stackBottom, stackGuardPage, stackLocationTop, stackSize, stackGuardSize]
            omega
          have := ht'.1
          omega
      · rw [Function.update_of_ne hne] at ht'
        exact h t (by omega) t' ht'

/-- `scheduler_add_task` stores no registers. -/
lemma SavedOnOwn.schedulerAddTask {pid tid r : Nat} (h : SavedOnOwn cfg k) (tables : Tables k)
    (table : locked .processLock = false)
    (run : (schedulerAddTask c pid tid).run locked k = .done r locked' k') : SavedOnOwn cfg k' := by
  obtain ⟨_, rfl | ⟨_, added, _, _, _, e, _⟩⟩ := schedulerAddTask_done table run
  · exact h
  · obtain ⟨_, rfl⟩ | ⟨_, _, rfl⟩ := tables.addTask_eq e
    · exact h
    · intro t hn t' ht'
      refine h t hn t' ?_
      by_cases hne : t = added
      · subst hne
        simpa using ht'
      · simpa [hne] using ht'

/-- Nor does `process_create`. -/
lemma SavedOnOwn.processCreate {pageTable r : Nat} (h : SavedOnOwn cfg k)
    (table : locked .processLock = false)
    (run : (processCreate c pageTable).run locked k = .done r locked' k') : SavedOnOwn cfg k' := by
  rw [run_processCreate table] at run
  simp only [Outcome.done.injEq] at run
  obtain ⟨_, rfl, rfl⟩ := run
  unfold newProcess
  split
  · exact h
  · exact h

end Saved

section Slots
variable {C : Type} [DecidableEq C] {cfg : Config C} {k k' : Kernel C} {locked locked' : Lock → Bool}
  {c : C}

/-- A task is added behind the others. -/
lemma schedulerAddTask_slots {pid tid r i : Nat} (tables : Tables k)
    (table : locked .processLock = false)
    (run : (schedulerAddTask c pid tid).run locked k = .done r locked' k')
    (hi : i < k.totalActiveTasks) : k'.activeTasks i = k.activeTasks i := by
  obtain ⟨_, rfl | ⟨_, t, _, _, _, e, _⟩⟩ := schedulerAddTask_done table run
  · rfl
  · obtain ⟨_, rfl⟩ | ⟨_, _, rfl⟩ := tables.addTask_eq e
    · rfl
    · exact Function.update_of_ne (Nat.ne_of_lt hi) ..

/-- `thread_create` leaves the task table. -/
lemma threadCreate_slots {pid entry arg r : Nat} (table : locked .processLock = false)
    (run : (threadCreate cfg c pid entry arg).run locked k = .done r locked' k') :
    k'.activeTasks = k.activeTasks := by
  obtain ⟨_, rfl | e⟩ := threadCreate_done table run
  · rfl
  · obtain ⟨_, rfl⟩ | ⟨_, _, _, _, _, _, _, _, _, _, _, rfl⟩ := newThread_ok e
    · rfl
    · rfl

/-- So does `process_create`. -/
lemma processCreate_slots {pageTable r : Nat} (table : locked .processLock = false)
    (run : (processCreate c pageTable).run locked k = .done r locked' k') :
    k'.activeTasks = k.activeTasks := by
  rw [run_processCreate table] at run
  simp only [Outcome.done.injEq] at run
  obtain ⟨_, rfl, rfl⟩ := run
  unfold newProcess
  split
  · rfl
  · rfl

end Slots

/-- What the threads were stored with is what they are stored with. -/
lemma Owned.self {C : Type} {cfg : Config C} {held : Nat → Bool} {k : Kernel C} {stored : Nat → Regs}
    {current : C → Nat} (h : Owned cfg held k stored current) :
    Owned cfg held k (fun t => (k.threads t).savedRegs) current :=
  { h with regs := fun _ _ _ => rfl }

namespace Switching
variable {C : Type}

/-- The threads that the CPUs own, the stacks that they are on, and the scheduler's locks. -/
structure Apart (cfg : Config C) (s : Switching C) : Prop where
  owned : Owned cfg (threadLocks s.locked) s.kernel (fun t => (s.kernel.threads t).savedRegs) s.current
  saved : SavedOnOwn cfg s.kernel
  held : Held s.locked s.phase
  target : ∀ {c t}, s.phase c = .chosen t ∨ s.phase c = .released t → s.Owns c t
  kernelStack : ∀ c t, ¬ OnStack cfg t (s.kernel.cpus c).kernelStack
  running : ∀ {c t}, s.phase c = .running → OnStack cfg t (s.sp c) → s.Owns c t
  stopped : ∀ {c}, s.phase c = .stopped → ∀ t, ¬ OnStack cfg t (s.sp c)
  separated : Separated (fun c t => OnStack cfg t (s.sp c)) s.Owns

section Apart
variable {cfg : Config C} {s s' : Switching C} {c c' : C} {t : Nat} {k k' : Kernel C}
  {locked locked' : Lock → Bool} {p : Phase} {regs : Regs}

/-- A thread has one owner. -/
lemma owns_single {held : Nat → Bool} {stored : Nat → Regs} (h : Owned cfg held s.kernel stored s.current)
    (ho : s.Owns c t) (ho' : s.Owns c' t) : c' = c := by
  have hid := (h.tables.of_slot ho.2).2.2
  have hid' := (h.tables.of_slot ho'.2).2.2
  exact h.distinct (hid'.symm.trans hid) ho'.1

/-- A thread whose lock is held has an owner. -/
lemma exists_owns {held : Nat → Bool} {stored : Nat → Regs}
    (h : Owned cfg held s.kernel stored s.current) (ht : held t = true) : ∃ c, s.Owns c t := by
  have hn : t < s.kernel.nextThread := by
    by_contra hn
    cases ht.symm.trans (h.fresh (Nat.le_of_not_lt hn))
  obtain ⟨c, hc, hid⟩ := (h.lock hn).mp ht
  exact ⟨c, hc, by rw [hid]; exact h.tables.listed hn (hid ▸ hc)⟩

/-- A CPU that runs has the task it says. -/
lemma current_running (hp : s.phase c = .running) :
    s.current c = (s.kernel.cpus c).currentTaskID := by
  unfold current
  rw [hp]
  rfl

/-- A CPU that runs owns the thread it executes. -/
lemma owns_of_executes (hp : s.phase c = .running) (h : s.kernel.executes c = some t) :
    s.Owns c t := by
  unfold Owns
  rw [current_running hp]
  unfold Kernel.executes at h
  split at h
  · cases h
  · rename_i hid
    split at h
    · rename_i t' ht'
      cases h
      exact ⟨hid, ht'⟩
    · cases h

variable [DecidableEq C]

/-- The tasks after one CPU went on. -/
lemma current_update (locked' : Lock → Bool)
    (others : ∀ c', c' ≠ c → (k'.cpus c').currentTaskID = (s.kernel.cpus c').currentTaskID) :
    current ⟨locked', k', Function.update s.phase c p⟩ =
      Function.update s.current c (p.task (k'.cpus c).currentTaskID) := by
  funext c'
  by_cases hc : c' = c
  · subst hc
    simp [current]
  · simp [current, hc, others c' hc]

omit [DecidableEq C] in
/-- The registers that are stored are those of the CPU's own thread. -/
lemma saved_record {held : Nat → Bool} {cur : C → Nat} (saved : SavedOnOwn cfg s.kernel)
    (next : k'.nextThread = s.kernel.nextThread) (keeps : s.Keeps cfg c regs)
    (owned : Owned cfg held k'
      (recordRegs (fun t => (s.kernel.threads t).savedRegs) (s.kernel.executes c) regs) cur) :
    SavedOnOwn cfg k' := by
  intro t hn t' ht'
  rw [owned.regs hn .sp (by decide)] at ht'
  rw [next] at hn
  cases he : s.kernel.executes c with
  | none =>
    rw [he] at ht'
    exact saved t hn t' ht'
  | some t₀ =>
    rw [he] at ht'
    by_cases hne : t = t₀
    · subst hne
      simp only [recordRegs, Function.update_self] at ht'
      have own := keeps t' ht'
      rw [he, Option.some.injEq] at own
      exact own.symm
    · simp only [recordRegs, Function.update_of_ne hne] at ht'
      exact saved t hn t' ht'

/-- A CPU takes the scheduler's locks, stores its thread and takes the next, if there is one. -/
lemma Apart.take (h : Apart cfg s) (hp : s.phase c = .running) (ok : s.Settled cfg c)
    (keeps : s.Keeps cfg c regs) (entry : s.locked .entrySchedulerLock = false)
    (taken : ∀ l, (∀ t, l ≠ .thread t) → locked' l = lockScheduler s.locked l)
    (same : SameTables s.kernel k')
    (cpus : ∀ c', (k'.cpus c').regs = (s.kernel.cpus c').regs ∧
      (k'.cpus c').kernelStack = (s.kernel.cpus c').kernelStack)
    (others : ∀ c', c' ≠ c → (k'.cpus c').currentTaskID = (s.kernel.cpus c').currentTaskID)
    (next : p = .stopping ∨ ∃ t, p = .chosen t ∧
      Owns ⟨locked', k', Function.update s.phase c p⟩ c t)
    (owned : Owned cfg (threadLocks locked') k'
      (recordRegs (fun t => (s.kernel.threads t).savedRegs) (s.kernel.executes c) regs)
      (Function.update s.current c (p.task (k'.cpus c).currentTaskID))) :
    Apart cfg ⟨locked', k', Function.update s.phase c p⟩ := by
  rw [← current_update locked' others] at owned
  have phase : ∀ {c'}, c' ≠ c → Function.update s.phase c p c' = s.phase c' :=
    fun hc => Function.update_of_ne hc ..
  have self : Function.update s.phase c p c = p := Function.update_self ..
  have stack : ∀ c', sp ⟨locked', k', Function.update s.phase c p⟩ c' = s.sp c' := by
    intro c'
    unfold sp
    rw [(cpus c').1]
  -- the other CPUs own what they owned
  have owns : ∀ {c' t}, c' ≠ c →
      (Owns ⟨locked', k', Function.update s.phase c p⟩ c' t ↔ s.Owns c' t) := by
    intro c' t hc
    unfold Owns
    rw [current_update locked' others, Function.update_of_ne hc, same.activeTasks]
  have hold : p.holds = true ∧ p ≠ .running ∧ p ≠ .stopped ∧ ∀ t, p ≠ .released t := by
    obtain rfl | ⟨t, rfl, _⟩ := next
    · exact ⟨rfl, by simp, by simp, by simp⟩
    · exact ⟨rfl, by simp, by simp, by simp⟩
  obtain ⟨_, notRunning, notStopped, notReleased⟩ := hold
  refine ⟨owned.self, saved_record h.saved same.nextThread keeps owned, h.held.take entry taken, ?_, ?_,
    ?_, ?_, ?_⟩
  · intro c' t' ht'
    by_cases hc : c' = c
    · subst hc
      dsimp only at ht'
      rw [self] at ht'
      obtain rfl | ⟨t, rfl, ho⟩ := next
      · simp at ht'
      · simp only [Phase.chosen.injEq, reduceCtorEq, or_false] at ht'
        exact ht' ▸ ho
    · dsimp only at ht'
      rw [phase hc] at ht'
      exact (owns hc).mpr (h.target ht')
  · intro c' t'
    dsimp only
    rw [(cpus c').2]
    exact h.kernelStack c' t'
  · intro c' t' hp' ht'
    by_cases hc : c' = c
    · subst hc
      exact absurd (self.symm.trans hp') notRunning
    · rw [stack] at ht'
      exact (owns hc).mpr (h.running ((phase hc).symm.trans hp') ht')
  · intro c' hp' t' ht'
    by_cases hc : c' = c
    · subst hc
      exact absurd (self.symm.trans hp') notStopped
    · rw [stack] at ht'
      exact h.stopped ((phase hc).symm.trans hp') t' ht'
  · simp only [stack]
    refine h.separated.reassign (c := c) (fun c' hc t ho => (owns hc).mp ho) fun t ho c' hc ht => ?_
    -- a CPU on the stack of the thread that was taken would own it
    have own : s.Owns c' t := by
      cases hp' : s.phase c' with
      | running => exact h.running hp' ht
      | released t' =>
        obtain ⟨c₂, ho₂⟩ := exists_owns h.owned (ok c' t t' hc hp' ht)
        have hc₂ := h.separated.clear ht ho₂
        exact hc₂ ▸ ho₂
      | chosen t' => cases entry.symm.trans (h.held.holder (c := c') (by rw [hp']; rfl))
      | stopping => cases entry.symm.trans (h.held.holder (c := c') (by rw [hp']; rfl))
      | stopped => exact absurd ht (h.stopped hp' t)
    exact hc (owns_single owned ho ((owns hc).mpr own))

/-- A CPU goes on with the thread that it owns, on another stack or in another phase. -/
lemma Apart.turn {f : Cpu → Cpu} (h : Apart cfg s)
    (held : Held locked' (Function.update s.phase c p))
    (locks : threadLocks locked' = threadLocks s.locked)
    (current : p.task (f (s.kernel.cpus c)).currentTaskID = s.current c)
    (owned : Owned cfg (threadLocks s.locked) (s.kernel.setCpu c f)
      (fun t => (s.kernel.threads t).savedRegs) s.current)
    (kernelStack : (f (s.kernel.cpus c)).kernelStack = (s.kernel.cpus c).kernelStack)
    (target : ∀ t, p = .chosen t ∨ p = .released t → s.Owns c t)
    (stack : (∀ t, OnStack cfg t ((f (s.kernel.cpus c)).regs .sp) → s.Owns c t ∧ p ≠ .stopped) ∨
      ((f (s.kernel.cpus c)).regs .sp = s.sp c ∧ p ≠ .running ∧ p ≠ .stopped)) :
    Apart cfg ⟨locked', s.kernel.setCpu c f, Function.update s.phase c p⟩ := by
  have others : ∀ {c'}, c' ≠ c → (s.kernel.setCpu c f).cpus c' = s.kernel.cpus c' :=
    fun hc => Function.update_of_ne hc ..
  have self : (s.kernel.setCpu c f).cpus c = f (s.kernel.cpus c) := Function.update_self ..
  have same : Switching.current ⟨locked', s.kernel.setCpu c f, Function.update s.phase c p⟩ =
      s.current := by
    rw [current_update locked' (fun c' hc => by rw [others hc]), self, current, Function.update_eq_self]
  have owns : Owns ⟨locked', s.kernel.setCpu c f, Function.update s.phase c p⟩ = s.Owns := by
    funext c' t
    unfold Owns
    rw [same]
    rfl
  have stackOthers : ∀ {c'}, c' ≠ c →
      sp ⟨locked', s.kernel.setCpu c f, Function.update s.phase c p⟩ c' = s.sp c' := by
    intro c' hc
    unfold sp
    dsimp only
    rw [others hc]
  have stackSelf : sp ⟨locked', s.kernel.setCpu c f, Function.update s.phase c p⟩ c =
      (f (s.kernel.cpus c)).regs .sp := by
    unfold sp
    dsimp only
    rw [self]
  have phaseSelf : Function.update s.phase c p c = p := Function.update_self ..
  have phaseOthers : ∀ {c'}, c' ≠ c → Function.update s.phase c p c' = s.phase c' :=
    fun hc => Function.update_of_ne hc ..
  refine ⟨by rw [same, locks]; exact owned, h.saved, held, ?_, ?_, ?_, ?_, ?_⟩
  · intro c' t' ht'
    rw [owns]
    dsimp only at ht'
    -- each part: CPU `c` by its own hypothesis, the others as before
    by_cases hc : c' = c
    · subst hc
      rw [phaseSelf] at ht'
      exact target t' ht'
    · rw [phaseOthers hc] at ht'
      exact h.target ht'
  · intro c' t'
    by_cases hc : c' = c
    · subst hc
      dsimp only
      rw [self, kernelStack]
      exact h.kernelStack c' t'
    · dsimp only
      rw [others hc]
      exact h.kernelStack c' t'
  · intro c' t' hp' ht'
    rw [owns]
    dsimp only at hp'
    by_cases hc : c' = c
    · subst hc
      rw [phaseSelf] at hp'
      rw [stackSelf] at ht'
      obtain own | ⟨_, notRunning, _⟩ := stack
      · exact (own t' ht').1
      · exact absurd hp' notRunning
    · rw [phaseOthers hc] at hp'
      rw [stackOthers hc] at ht'
      exact h.running hp' ht'
  · intro c' hp' t' ht'
    dsimp only at hp'
    by_cases hc : c' = c
    · subst hc
      rw [phaseSelf] at hp'
      rw [stackSelf] at ht'
      obtain own | ⟨_, _, notStopped⟩ := stack
      · exact (own t' ht').2 hp'
      · exact notStopped hp'
    · rw [phaseOthers hc] at hp'
      rw [stackOthers hc] at ht'
      exact h.stopped hp' t' ht'
  · rw [owns]
    obtain own | ⟨stays, _⟩ := stack
    · refine h.separated.move (c := c) (owns_single h.owned) ?_ ?_
      · intro c' hc t' ht'
        rwa [stackOthers hc] at ht'
      · intro t' ht'
        rw [stackSelf] at ht'
        exact (own t' ht').1
    · -- no stack pointer moves
      have every : ∀ c', sp ⟨locked', s.kernel.setCpu c f, Function.update s.phase c p⟩ c' = s.sp c' := by
        intro c'
        by_cases hc : c' = c
        · subst hc
          rw [stackSelf, stays]
        · exact stackOthers hc
      simp only [every]
      exact h.separated

omit [DecidableEq C] in
/-- Threads and tasks are created, and the CPUs own what they owned. -/
lemma Apart.create {stored : Nat → Regs} (h : Apart cfg s) (cpus : k'.cpus = s.kernel.cpus)
    (slots : ∀ c, s.current c ≠ minusOne →
      k'.activeTasks (s.current c) = s.kernel.activeTasks (s.current c))
    (owned : Owned cfg (threadLocks s.locked) k' stored s.current) (saved : SavedOnOwn cfg k') :
    Apart cfg ⟨s.locked, k', s.phase⟩ := by
  have current : Switching.current ⟨s.locked, k', s.phase⟩ = s.current := by
    funext c
    unfold Switching.current
    rw [cpus]
  have owns : Owns ⟨s.locked, k', s.phase⟩ = s.Owns := by
    funext c t
    unfold Owns
    rw [current]
    exact propext (and_congr_right fun hc => by rw [slots c hc])
  have stack : sp ⟨s.locked, k', s.phase⟩ = s.sp := by
    funext c
    unfold sp
    rw [cpus]
  refine ⟨by rw [current]; exact owned.self, saved, h.held, ?_, ?_, ?_, ?_, ?_⟩
  · rw [owns]
    exact h.target
  · dsimp only
    rw [cpus]
    exact h.kernelStack
  · rw [owns, stack]
    exact h.running
  · rw [stack]
    exact h.stopped
  · rw [owns, stack]
    exact h.separated

/-- `scheduler_schedule` keeps the stacks and the tables until it has decided. -/
lemma decideTask_frame {fuel : Nat} {d : Decision} (table : locked .processLock = false)
    (scheduler : locked .entrySchedulerLock = false → locked .schedulerLock = false)
    (run : (decideTask c fuel regs).run locked k = .done d locked' k') :
    SameTables k k' ∧ ∀ c', (k'.cpus c').regs = (k.cpus c').regs ∧
      (k'.cpus c').kernelStack = (k.cpus c').kernelStack := by
  obtain ⟨_, _, rfl, _⟩ | ⟨_, _, o, k₁, store, ⟨_, rfl, _⟩ | ⟨t, j, _, _, _, _, rfl, _⟩⟩ :=
    decideTask_done table scheduler run
  · exact ⟨.refl, fun _ => ⟨rfl, rfl⟩⟩
  · obtain ⟨same, cpus⟩ := storeCurrent_ok store
    rw [cpus]
    exact ⟨same, fun _ => ⟨rfl, rfl⟩⟩
  · obtain ⟨same, cpus⟩ := storeCurrent_ok store
    refine ⟨same.trans .makeCurrent, fun c' => ?_⟩
    rw [← cpus]
    by_cases hc : c' = c
    · subst hc
      simp [makeCurrent, Kernel.setThread, Kernel.setCpu]
    · rw [makeCurrent_other hc]
      exact ⟨rfl, rfl⟩

/-- Preparing a switch leaves the stack pointers. -/
lemma prepareSwitch_stack {pageTable : Option Nat} (c' : C) :
    ((prepareSwitch cfg c t pageTable k).cpus c').regs = (k.cpus c').regs ∧
    ((prepareSwitch cfg c t pageTable k).cpus c').kernelStack = (k.cpus c').kernelStack := by
  cases pageTable with
  | none => exact ⟨rfl, rfl⟩
  | some entries =>
    by_cases hc : c' = c
    · subst hc
      simp [prepareSwitch, Kernel.setCpu, Kernel.setThread]
    · simp [prepareSwitch, Kernel.setCpu, Kernel.setThread, hc]

/-- A CPU decides. -/
lemma Apart.decide {fuel : Nat} {d : Decision} (h : Apart cfg s) (hp : s.phase c = .running)
    (ok : s.Settled cfg c) (keeps : s.Keeps cfg c regs)
    (run : (decideTask c fuel regs).run s.locked s.kernel = .done d locked' k') :
    Apart cfg (s.decided cfg c locked' k' d) := by
  have scheduler : s.locked .entrySchedulerLock = false → s.locked .schedulerLock = false :=
    fun entry => h.held.scheduler.trans entry
  obtain ⟨same, cpus⟩ := decideTask_frame h.held.table scheduler run
  obtain ⟨rfl, rfl, rfl, _⟩ | ⟨_, entry, taken, others, ⟨rfl, owned⟩ |
    ⟨t, pageTable, rfl, hid, slot, task, owned⟩⟩ :=
    h.owned.decideTask (current_running hp) h.held.table scheduler run
  · exact h
  · exact h.take hp ok keeps entry taken same cpus (fun c' hc => by rw [others c' hc]) (.inl rfl) owned
  · have kept : ∀ c', c' ≠ c → ((prepareSwitch cfg c t pageTable k').cpus c').currentTaskID =
        (s.kernel.cpus c').currentTaskID := by
      intro c' hc
      rw [(prepareSwitch_cpus c').2.2, others c' hc]
    have now : ((prepareSwitch cfg c t pageTable k').cpus c).currentTaskID =
        (k'.threads t).taskID := by
      rw [(prepareSwitch_cpus c).2.2, task]
    refine h.take hp ok keeps entry taken (same.trans .prepareSwitch) ?_ kept
      (.inr ⟨t, rfl, ?_⟩) ?_
    · intro c'
      rw [(prepareSwitch_stack c').1, (prepareSwitch_stack c').2]
      exact cpus c'
    · unfold Owns
      rw [current_update locked' kept, Function.update_self, now, SameTables.prepareSwitch.activeTasks]
      exact ⟨hid, slot⟩
    · rw [now]
      exact owned

/-- Every step keeps it, where no CPU decides that may not. -/
lemma Apart.step (h : Apart cfg s) (apart : StacksApart cfg) (e : Step cfg (Settled cfg) s s') :
    Apart cfg s' := by
  have table := h.held.table
  cases e with
  | decide hp ok keeps run => exact h.decide hp ok keeps run
  | @unlock c t _ _ hp run =>
    rw [run_archSchedulerUnlockLocks] at run
    simp only [Outcome.done.injEq, true_and] at run
    obtain ⟨rfl, rfl⟩ := run
    have same : s.kernel = s.kernel.setCpu c id := by simp [Kernel.setCpu]
    rw [show (⟨_, s.kernel, _⟩ : Switching C) = ⟨_, s.kernel.setCpu c id, _⟩ by rw [← same]]
    refine h.turn (h.held.release (by rw [hp]; rfl) rfl) Machine.threadLocks_unlock ?_
      (same ▸ h.owned) rfl ?_ (.inr ⟨rfl, by simp, by simp⟩)
    · simp [current, hp, Phase.task]
    · intro t' ht'
      simp only [reduceCtorEq, Phase.released.injEq, false_or] at ht'
      exact h.target (.inl (ht' ▸ hp))
  | @load c t hp =>
    have own := h.target (.inr hp)
    refine h.turn (h.held.keep (by rw [hp]; rfl)) rfl ?_ h.owned.restoreContext rfl (by simp)
      (.inl fun t' ht' => ⟨?_, by simp⟩)
    · simp [current, hp, Phase.task]
    · -- the thread was stored on its own stack
      have hn := (h.owned.tables.of_slot own.2).2.1
      exact (h.saved t hn t' ht') ▸ own
  | @loadIdle c hp =>
    refine h.turn (h.held.keep (by rw [hp]; rfl)) rfl ?_ h.owned.loadIdleStack rfl (by simp)
      (.inl fun t' ht' => ?_)
    · simp [current, hp, Phase.task]
    · simp only [Function.update_self] at ht'
      exact absurd ht' (h.kernelStack c t')
  | @halt c _ _ hp run =>
    simp only [archSchedulerIdleHalt, run_bind, run_modify, Outcome.andThen_done,
      run_archSchedulerUnlockLocks, Outcome.done.injEq, true_and] at run
    obtain ⟨rfl, rfl⟩ := run
    -- a CPU that stops has no thread
    have none : s.current c = minusOne := by
      unfold current
      rw [hp]
      rfl
    refine h.turn (h.held.release (by rw [hp]; rfl) rfl) Machine.threadLocks_unlock ?_
      (h.owned.makeIdle none) rfl (by simp) (.inl fun t' ht' => ?_)
    · exact none.symm
    · exact absurd ht' (h.stopped hp t')
  | addTask _ run =>
    obtain ⟨rfl, cpus, owned⟩ := h.owned.schedulerAddTask table run
    refine h.create cpus (fun c hc => ?_) owned (h.saved.schedulerAddTask h.owned.tables table run)
    exact schedulerAddTask_slots h.owned.tables table run (h.owned.valid c hc)
  | createThread _ run =>
    obtain ⟨rfl, cpus, owned⟩ := h.owned.threadCreate table run
    refine h.create cpus (fun c _ => ?_) owned (h.saved.threadCreate apart table run)
    rw [threadCreate_slots table run]
  | createProcess _ run =>
    obtain ⟨rfl, cpus, owned⟩ := h.owned.processCreate table run
    refine h.create cpus (fun c _ => ?_) owned (h.saved.processCreate table run)
    rw [processCreate_slots table run]
  | @execute c counter regs hp keeps =>
    have phase : s.phase = Function.update s.phase c .running := by
      rw [← hp, Function.update_eq_self]
    rw [show (⟨_, _, s.phase⟩ : Switching C) = ⟨_, _, Function.update s.phase c .running⟩ by
      rw [← phase]]
    refine h.turn (phase ▸ h.held) rfl ?_ (h.owned.setCpu (fun _ => rfl) fun _ => rfl) rfl (by simp)
      (.inl fun t' ht' => ⟨owns_of_executes hp (keeps t' ht'), by simp⟩)
    exact (current_running hp).symm

/-- `scheduler_init` leaves the CPUs on no stack of a thread. -/
lemma Apart.init {firstTask : Nat} (apart : StacksApart cfg) (boot : Machine.Boot k)
    (kernelStack : ∀ c t, ¬ OnStack cfg t (k.cpus c).kernelStack)
    (start : ∀ c t, ¬ OnStack cfg t ((k.cpus c).regs .sp))
    (run : (schedulerInit cfg c firstTask).run (fun _ => false) k = .done () locked' k') :
    Apart cfg ⟨locked', k', fun _ => .running⟩ := by
  obtain ⟨rfl, cpus, stored, owned⟩ := Machine.schedulerInit_done boot run
  have current : Switching.current ⟨fun _ => false, k', fun _ => .running⟩ = fun _ => minusOne := by
    funext c
    simp [Switching.current, Phase.task, cpus, boot.2.2]
  have off : ∀ c t, ¬ OnStack cfg t (sp ⟨fun _ => false, k', fun _ => .running⟩ c) := by
    intro c
    unfold sp
    rw [cpus]
    exact start c
  have saved : SavedOnOwn cfg k' := by
    obtain ⟨_, _, k₁, _, _, k₂, _, _, process, thread, task, rfl⟩ := Machine.schedulerInit_calls run
    have empty : Owned cfg (fun _ => false)
        { k with processTable := fun _ => none, activeTasks := fun _ => .null }
        (fun t => (k.threads t).savedRegs) fun _ => minusOne := Machine.owned_empty boot
    have none : SavedOnOwn cfg
        { k with processTable := fun _ => none, activeTasks := fun _ => .null } := by
      intro t hn
      dsimp only at hn
      rw [boot.2.1] at hn
      cases hn
    have saved₁ := none.processCreate rfl process
    obtain ⟨rfl, _, owned₁⟩ := empty.processCreate rfl process
    have saved₂ := saved₁.threadCreate apart rfl thread
    obtain ⟨rfl, _, owned₂⟩ := owned₁.threadCreate rfl thread
    have saved₃ := saved₂.schedulerAddTask owned₂.tables rfl task
    exact saved₃
  have held : Held (fun _ => false) fun _ : C => Phase.running :=
    ⟨rfl, rfl, by simp [Phase.holds], by simp [Phase.holds]⟩
  refine ⟨by rw [current]; exact owned.self, saved, held, ?_, ?_, ?_, ?_, ?_⟩
  · simp
  · dsimp only
    rw [cpus]
    exact kernelStack
  · intro c t _ ht
    exact absurd ht (off c t)
  · simp
  · refine ⟨?_, ?_⟩
    · intro c c' t ht
      exact absurd ht (off c t)
    · intro c c' t ht
      exact absurd ht (off c t)

/-- In the runs where no CPU decides while another is still on the stack of a thread whose lock is
free. -/
lemma Reachable.apart (h : Reachable cfg (Settled cfg) s) (apart : StacksApart cfg) :
    Apart cfg s := by
  induction h with
  | init boot kernelStack start run => exact .init apart boot kernelStack start run
  | step _ e ih => exact ih.step apart e

end Apart

end Switching

/-- No two CPUs are on the kernel stack of one thread, in every run where no CPU decides while another
one that has released the scheduler's locks is still on the stack of a thread whose lock is free. -/
theorem no_shared_kernel_stack {C : Type} [DecidableEq C] {cfg : Config C} (apart : StacksApart cfg)
    {s : Switching C} (h : s.Reachable cfg (Switching.Settled cfg)) {c c' : C} {t : Nat}
    (hc : OnStack cfg t (s.sp c)) (hc' : OnStack cfg t (s.sp c')) : c' = c :=
  (h.apart apart).separated.unique hc hc'

namespace Switching
variable {C : Type} [DecidableEq C]

/-- The next step of a CPU's switch, which starts with the registers that the CPU has. -/
def advance (cfg : Config C) (s : Switching C) (c : C) : Switching C :=
  match s.phase c with
  | .running =>
    match (decideTask c 4 (s.kernel.cpus c).regs).run s.locked s.kernel with
    | .done d locked' k' => s.decided cfg c locked' k' d
    | _ => s
  | .chosen t =>
    match (archSchedulerUnlockLocks c).run s.locked s.kernel with
    | .done () locked' k' => ⟨locked', k', Function.update s.phase c (.released t)⟩
    | _ => s
  | .released t => ⟨s.locked, restoreContext c t s.kernel, Function.update s.phase c .running⟩
  | .stopping => ⟨s.locked, loadIdleStack cfg c s.kernel, Function.update s.phase c .stopped⟩
  | .stopped =>
    match (archSchedulerIdleHalt c).run s.locked s.kernel with
    | .done () locked' k' => ⟨locked', k', Function.update s.phase c .running⟩
    | _ => s

/-- A CPU that may goes on to its next step. -/
lemma Reachable.advance {cfg : Config C} {ok : Switching C → C → Prop} {s : Switching C} {c : C}
    (h : Reachable cfg ok s) (may : s.phase c = .running → ok s c)
    (keeps : s.phase c = .running → s.Keeps cfg c (s.kernel.cpus c).regs) :
    Reachable cfg ok (s.advance cfg c) := by
  unfold Switching.advance
  split
  · rename_i hp
    split
    · exact .step h (.decide hp (may hp) (keeps hp) ‹_›)
    · exact h
  · rename_i hp
    split
    · exact .step h (.unlock hp ‹_›)
    · exact h
  · rename_i hp
    exact .step h (.load hp)
  · rename_i hp
    exact .step h (.loadIdle hp)
  · rename_i hp
    split
    · exact .step h (.halt hp ‹_›)
    · exact h

/-- A switch that is under way goes on. -/
lemma Reachable.proceed {cfg : Config C} {ok : Switching C → C → Prop} {s : Switching C} {c : C}
    (h : Reachable cfg ok s) (hp : s.phase c ≠ .running) : Reachable cfg ok (s.advance cfg c) :=
  h.advance (fun running => absurd running hp) fun running => absurd running hp

/-- After a call that returned. -/
def after (s : Switching C) : Outcome Lock (Kernel C) Fault Nat → Switching C
  | .done _ locked' k' => ⟨locked', k', s.phase⟩
  | _ => s

/-- After `scheduler_init` on CPU 0. -/
def started (n : Nat) [NeZero n] : Switching (Fin n) :=
  let o := (schedulerInit (.flat n) 0 0).run (fun _ => false) (.boot (Fin n))
  ⟨o.locks, o.state (.boot (Fin n)), fun _ => .running⟩

/-- The state after `scheduler_init` is reachable. -/
lemma started_reachable (n : Nat) [NeZero n] (ok : Switching (Fin n) → Fin n → Prop)
    (h : ((schedulerInit (.flat n) 0 0).run (fun _ => false) (.boot (Fin n))).isDone = true) :
    (started n).Reachable (.flat n) ok := by
  have off : ∀ c t, ¬ OnStack (.flat n) t ((Kernel.boot (Fin n)).cpus c).kernelStack :=
    fun _ _ h => Nat.not_lt_zero _ h.1
  have off' : ∀ c t, ¬ OnStack (.flat n) t (((Kernel.boot (Fin n)).cpus c).regs .sp) :=
    fun _ _ h => Nat.not_lt_zero _ h.1
  have boot : Machine.Boot (.boot (Fin n)) := ⟨rfl, rfl, fun _ => rfl⟩
  obtain ⟨_, run⟩ := Outcome.exists_done h (.boot (Fin n))
  exact .init boot off off' run

section TwoTasks
variable {ok : Switching (Fin 2) → Fin 2 → Prop} {s : Switching (Fin 2)}

/-- CPU 0 creates a thread of the kernel's process. -/
def createSecond (s : Switching (Fin 2)) : Switching (Fin 2) :=
  s.after ((threadCreate (.flat 2) 0 0 0 0).run s.locked s.kernel)

/-- `thread_create` returns there. -/
lemma Reachable.createSecond (h : Reachable (.flat 2) ok s) (hp : s.phase 0 = .running) :
    Reachable (.flat 2) ok s.createSecond := by
  unfold Switching.createSecond after
  split
  · exact .step h (.createThread hp ‹_›)
  · exact h

/-- CPU 0 adds the second thread of the kernel's process. -/
def addSecond (s : Switching (Fin 2)) : Switching (Fin 2) :=
  s.after ((schedulerAddTask 0 0 1).run s.locked s.kernel)

/-- So does `scheduler_add_task`. -/
lemma Reachable.addSecond (h : Reachable (.flat 2) ok s) (hp : s.phase 0 = .running) :
    Reachable (.flat 2) ok s.addSecond := by
  unfold Switching.addSecond after
  split
  · exact .step h (.addTask hp ‹_›)
  · exact h

/-- Two threads of the kernel's process, which are tasks. -/
def twoTasks : Switching (Fin 2) := (started 2).createSecond.addSecond

/-- Two tasks can be reached. -/
lemma twoTasks_reachable (ok : Switching (Fin 2) → Fin 2 → Prop) :
    Reachable (.flat 2) ok twoTasks := by
  have first := started_reachable 2 ok (by decide +kernel)
  exact (first.createSecond rfl).addSecond (by decide +kernel)

end TwoTasks

end Switching

/-- Kernel stacks one above the other are apart. -/
lemma flat_apart (n : Nat) : StacksApart (.flat n) := by
  constructor
  · rintro t t' sp ⟨h₁, h₂⟩ ⟨h₃, h₄⟩
    simp only [Config.flat, kstackSize] at h₁ h₂ h₃ h₄
    omega
  · intro t
    simp only [Config.flat, stackLocationTop]
    omega

namespace Switching

/-- A CPU that is on no kernel stack. -/
lemma keeps_zero {n : Nat} {s : Switching (Fin n)} {c : Fin n} (h : s.sp c = 0) :
    s.Keeps (.flat n) c (s.kernel.cpus c).regs := by
  intro t ht
  have : 0 < s.sp c := Nat.zero_lt_of_lt ht.1
  omega

/-- A CPU at the top of the stack of the first thread, which it executes. -/
lemma keeps_first {n : Nat} {s : Switching (Fin n)} {c : Fin n}
    (h : s.sp c = Config.kstack (.flat n) 0 + kstackSize) (he : s.kernel.executes c = some 0) :
    s.Keeps (.flat n) c (s.kernel.cpus c).regs := by
  intro t ht
  have top : OnStack (.flat n) 0 (s.sp c) := by
    rw [h]
    exact ⟨Nat.lt_add_of_pos_right (by decide), Nat.le_refl _⟩
  rw [he, (flat_apart n).disjoint top ht]

end Switching

/-- CPU 0 switches to the first task; no other CPU is on its stack. -/
theorem no_shared_kernel_stack_firstTask :
    ∃ s : Switching (Fin 2), s.Reachable (.flat 2) (Switching.Settled (.flat 2)) ∧
      OnStack (.flat 2) 0 (s.sp 0) ∧ ∀ c', OnStack (.flat 2) 0 (s.sp c') → c' = 0 := by
  have start := Switching.twoTasks_reachable (Switching.Settled (.flat 2))
  have phase : ∀ c, Switching.twoTasks.phase c = .running := by decide +kernel
  have settled : Switching.twoTasks.Settled (.flat 2) 0 := by
    intro c' t t' _ hp
    rw [phase] at hp
    cases hp
  have chosen := start.advance (fun _ => settled) fun _ =>
    Switching.keeps_zero (by decide +kernel)
  have released := chosen.proceed (c := 0) (by decide +kernel)
  have loaded := released.proceed (c := 0) (by decide +kernel)
  refine ⟨_, loaded, ?on, fun c' hc' => no_shared_kernel_stack (flat_apart 2) loaded ?on hc'⟩
  unfold OnStack
  decide +kernel

/-- CPU 0 gives up the first thread and releases the locks; before it loads the stack of the second
thread, CPU 1 switches to the first. -/
theorem shared_kernel_stack :
    ∃ s : Switching (Fin 2), s.Reachable (.flat 2) (fun _ _ => True) ∧
      ∃ t c c', c ≠ c' ∧ OnStack (.flat 2) t (s.sp c) ∧ OnStack (.flat 2) t (s.sp c') := by
  have start := Switching.twoTasks_reachable fun _ _ => True
  -- CPU 0 switches to the first thread
  have chosen := start.advance (c := 0) (fun _ => trivial) fun _ =>
    Switching.keeps_zero (by decide +kernel)
  have released := chosen.proceed (c := 0) (by decide +kernel)
  have loaded := released.proceed (c := 0) (by decide +kernel)
  -- it decides for the second one and releases the locks
  have chosen' := loaded.advance (fun _ => trivial) fun _ =>
    Switching.keeps_first (c := 0) (by decide +kernel) (by decide +kernel)
  have released' := chosen'.proceed (c := 0) (by decide +kernel)
  -- CPU 1 switches to the first thread
  have chosen₁ := released'.advance (fun _ => trivial) fun _ =>
    Switching.keeps_zero (c := 1) (by decide +kernel)
  have released₁ := chosen₁.proceed (c := 1) (by decide +kernel)
  have loaded₁ := released₁.proceed (c := 1) (by decide +kernel)
  refine ⟨_, loaded₁, 0, 0, 1, by decide, ?_⟩
  unfold OnStack
  decide +kernel

end WivOS.Tasking
