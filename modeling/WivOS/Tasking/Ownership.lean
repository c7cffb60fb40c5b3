import WivOS.Tasking.Tables

/-!
# Which CPU owns a thread

A thread that is a task is owned by the CPU whose `currentTaskID` is its own, and its lock is held as
long as it is. `Owned` says so of any assignment of tasks to CPUs, together with the registers that
each thread was stored with; storing a thread, taking one, creating threads and adding tasks keep it.
In a run of whole calls the assignment is that of the `currentTaskID`s (`thread_owned`).
-/

namespace WivOS.Tasking
open WivOS.Lib.LockProg WivOS.Lib.LockProg.Prog

/-- The threads and the CPUs, where `held` are the locks of the threads, `stored` the registers that a
thread had when it was last preempted or created, and `current` the tasks of the CPUs. -/
structure Owned {C : Type} (cfg : Config C) (held : Nat → Bool) (k : Kernel C) (stored : Nat → Regs)
    (current : C → Nat) : Prop where
  tables : Tables k
  valid : ∀ c, current c ≠ minusOne → current c < k.totalActiveTasks
  distinct : ∀ {c c'}, current c = current c' → current c ≠ minusOne → c = c'
  lock : ∀ {t}, t < k.nextThread →
    (held t = true ↔ ∃ c, current c ≠ minusOne ∧ current c = (k.threads t).taskID)
  fresh : ∀ {t}, k.nextThread ≤ t → held t = false
  numbers : ∀ {c t}, t < k.nextThread → current c ≠ minusOne → current c = (k.threads t).taskID →
    (k.cpus c).currentPid = (k.threads t).pid ∧ (k.cpus c).currentTid = (k.threads t).tid ∧
      (k.threads t).savedRegs .tp = cfg.cpuStruct c
  regs : ∀ {t}, t < k.nextThread → ∀ r, r ≠ .tp → (k.threads t).savedRegs r = stored t r

/-- The thread that a CPU executes. -/
def Kernel.executes {C : Type} (k : Kernel C) (c : C) : Option Nat :=
  if (k.cpus c).currentTaskID = minusOne then none
  else
    match k.activeTasks (k.cpus c).currentTaskID with
    | .thread t => some t
    | _ => none

/-- The registers that threads were stored with, after one more was. -/
def recordRegs (stored : Nat → Regs) (o : Option Nat) (regs : Regs) : Nat → Regs :=
  match o with
  | none => stored
  | some t => Function.update stored t regs

/-- The locks of threads. -/
def threadLocks (locked : Lock → Bool) (t : Nat) : Bool := locked (.thread t)

/-- The locks of threads after that of one thread was released. -/
def releaseThread (held : Nat → Bool) : Option Nat → Nat → Bool
  | none => held
  | some t => Function.update held t false

section Owned
variable {C : Type} {cfg : Config C} {held : Nat → Bool} {k k' : Kernel C} {stored : Nat → Regs}
  {current : C → Nat} {c : C}

/-- The kernel matters by its tables, the registers of threads and the numbers of CPUs. -/
lemma Owned.congr (h : Owned cfg held k stored current) (same : SameTables k k')
    (saved : ∀ t, (k'.threads t).savedRegs = (k.threads t).savedRegs)
    (cpus : ∀ c, current c ≠ minusOne → (k'.cpus c).currentPid = (k.cpus c).currentPid ∧
      (k'.cpus c).currentTid = (k.cpus c).currentTid) :
    Owned cfg held k' stored current where
  tables := h.tables.congr same
  valid c hc := by
    rw [same.totalActiveTasks]
    exact h.valid c hc
  distinct := h.distinct
  lock hn := by
    rw [same.taskID]
    exact h.lock (same.nextThread ▸ hn)
  fresh hn := h.fresh (same.nextThread ▸ hn)
  numbers hn hc ht := by
    rw [same.taskID] at ht
    rw [same.pid, same.tid, saved, (cpus _ hc).1, (cpus _ hc).2]
    exact h.numbers (same.nextThread ▸ hn) hc ht
  regs hn r hr := by
    rw [saved]
    exact h.regs (same.nextThread ▸ hn) r hr

/-- The thread in the slot of a CPU's task has the task's number and is locked. -/
lemma Owned.current_thread (h : Owned cfg held k stored current) (hc : current c ≠ minusOne) :
    ∃ t < k.nextThread, k.activeTasks (current c) = .thread t ∧
      (k.threads t).taskID = current c ∧ held t = true := by
  obtain ⟨t, hn, hs, hid⟩ := h.tables.task (h.valid c hc)
  exact ⟨t, hn, hs, hid, (h.lock hn).mpr ⟨c, hc, hid.symm⟩⟩

section Switch
variable [DecidableEq C]

/-- A CPU that owns no thread may change as it likes. -/
lemma Owned.setCpu_idle (h : Owned cfg held k stored current) (hc : current c = minusOne)
    {f : Cpu → Cpu} : Owned cfg held (k.setCpu c f) stored current := by
  refine h.congr .setCpu (fun _ => rfl) fun c' hc' => ?_
  have hne : c' ≠ c := by
    rintro rfl
    exact hc' hc
  simp [Kernel.setCpu, hne]

/-- A CPU may change as it likes but for its numbers. -/
lemma Owned.setCpu (h : Owned cfg held k stored current) {f : Cpu → Cpu}
    (pid : ∀ cpu, (f cpu).currentPid = cpu.currentPid)
    (tid : ∀ cpu, (f cpu).currentTid = cpu.currentTid) :
    Owned cfg held (k.setCpu c f) stored current := by
  refine h.congr .setCpu (fun _ => rfl) fun c' _ => ?_
  by_cases hc : c' = c
  · subst hc
    simp [Kernel.setCpu, pid, tid]
  · simp [Kernel.setCpu, hc]

/-- The stack of an idle CPU has nothing to do with threads. -/
lemma Owned.loadIdleStack (h : Owned cfg held k stored current) :
    Owned cfg held (loadIdleStack cfg c k) stored current := by
  unfold Tasking.loadIdleStack
  exact h.setCpu (fun _ => rfl) fun _ => rfl

/-- A CPU without a task is made idle. -/
lemma Owned.makeIdle (h : Owned cfg held k stored current) (hc : current c = minusOne) :
    Owned cfg held (makeIdle c k) stored current := by
  unfold Tasking.makeIdle
  exact h.setCpu_idle hc

/-- Loading the registers of a thread changes no thread. -/
lemma Owned.restoreContext {t : Nat} (h : Owned cfg held k stored current) :
    Owned cfg held (restoreContext c t k) stored current := by
  unfold Tasking.restoreContext
  exact h.setCpu (fun _ => rfl) fun _ => rfl

omit [DecidableEq C] in
/-- A thread has one number as a task. -/
lemma Owned.eq_of_taskID {t t' : Nat} (h : Owned cfg held k stored current) (hn : t < k.nextThread)
    (hn' : t' < k.nextThread) (hid : (k.threads t).taskID ≠ minusOne)
    (e : (k.threads t').taskID = (k.threads t).taskID) : t' = t := by
  have listed := h.tables.listed hn hid
  have listed' := h.tables.listed hn' (e ▸ hid)
  rw [e, listed, Slot.thread.injEq] at listed'
  exact listed'.symm

/-- The thread of a CPU is stored and given back. -/
lemma Owned.release {t : Nat} {f : Thread → Thread} {regs : Regs}
    (h : Owned cfg held k stored current) (hn : t < k.nextThread) (hc : current c ≠ minusOne)
    (hid : (k.threads t).taskID = current c) (same : SameTables k (k.setThread t f))
    (saved : (f (k.threads t)).savedRegs = regs) :
    Owned cfg (Function.update held t false) (k.setThread t f) (Function.update stored t regs)
      (Function.update current c minusOne) := by
  have threads : ∀ {t'}, t' ≠ t → (k.setThread t f).threads t' = k.threads t' :=
    fun h => Function.update_of_ne h ..
  -- another CPU has another thread
  have other : ∀ {c' t'}, Function.update current c minusOne c' ≠ minusOne →
      Function.update current c minusOne c' = (k.threads t').taskID →
      current c' ≠ minusOne ∧ current c' = (k.threads t').taskID ∧ t' ≠ t := by
    intro c' t' hc' ht'
    have hne : c' ≠ c := by
      rintro rfl
      simp at hc'
    rw [Function.update_of_ne hne] at hc' ht'
    refine ⟨hc', ht', ?_⟩
    rintro rfl
    exact hne (h.distinct (ht'.trans hid) hc')
  constructor
  · exact h.tables.congr same
  · intro c' hc'
    by_cases hne : c' = c
    · subst hne
      simp at hc'
    · rw [Function.update_of_ne hne] at hc' ⊢
      exact h.valid c' hc'
  · intro c' c'' e hc'
    have hne : c' ≠ c := by
      rintro rfl
      simp at hc'
    have hne' : c'' ≠ c := by
      rintro rfl
      rw [e] at hc'
      simp at hc'
    rw [Function.update_of_ne hne] at e hc'
    rw [Function.update_of_ne hne'] at e
    exact h.distinct e hc'
  · intro t' hn'
    rw [same.taskID]
    constructor
    · intro held'
      have hne : t' ≠ t := by
        rintro rfl
        simp at held'
      rw [Function.update_of_ne hne] at held'
      obtain ⟨c', hc', ht'⟩ := (h.lock hn').mp held'
      have hcc : c' ≠ c := by
        rintro rfl
        exact hne (h.eq_of_taskID hn hn' (hid ▸ hc) (ht'.symm.trans hid.symm))
      exact ⟨c', by rwa [Function.update_of_ne hcc], by rwa [Function.update_of_ne hcc]⟩
    · rintro ⟨c', hc', ht'⟩
      obtain ⟨hc', ht', hne⟩ := other hc' ht'
      rw [Function.update_of_ne hne]
      exact (h.lock hn').mpr ⟨c', hc', ht'⟩
  · intro t' hn'
    have hne : t' ≠ t := by
      have : k.nextThread ≤ t' := hn'
      omega
    rw [Function.update_of_ne hne]
    exact h.fresh hn'
  · intro c' t' hn' hc' ht'
    rw [same.taskID] at ht'
    obtain ⟨hc', ht', hne⟩ := other hc' ht'
    rw [threads hne]
    exact h.numbers hn' hc' ht'
  · intro t' hn' r hr
    by_cases hne : t' = t
    · subst hne
      simp [Kernel.setThread, saved]
    · rw [threads hne, Function.update_of_ne hne]
      exact h.regs hn' r hr

/-- Storing the thread of a CPU gives it back. -/
lemma Owned.store {regs : Regs} {o : Option Nat} (h : Owned cfg held k stored current)
    (hc : current c = (k.cpus c).currentTaskID) (e : storeCurrent c regs k = .ok (o, k')) :
    o = k.executes c ∧
      Owned cfg (releaseThread held o) k' (recordRegs stored o regs)
        (Function.update current c minusOne) := by
  have same := (storeCurrent_ok e).1
  unfold storeCurrent at e
  unfold Kernel.executes
  dsimp only at e
  by_cases hi : (k.cpus c).currentTaskID = minusOne
  · rw [if_pos hi] at e ⊢
    cases e
    rw [show Function.update current c minusOne = current by rw [← hi, ← hc, Function.update_eq_self]]
    exact ⟨rfl, h⟩
  · rw [if_neg hi] at e ⊢
    rw [← hc] at hi e ⊢
    obtain ⟨t, hn, slot, hid, _⟩ := h.current_thread hi
    have inside : current c < maxThreads * 2 := Nat.lt_of_lt_of_le (h.valid c hi) h.tables.total
    rw [Kernel.activeTask, if_pos inside, slot] at e
    cases e
    refine ⟨by rw [slot], ?_⟩
    exact h.release hn hi hid same rfl

section Take
variable {t : Nat} {pageTable : Option Nat}

/-- A switch stores the CPU in the saved `tp` of its thread. -/
lemma prepareSwitch_threads :
    (prepareSwitch cfg c t pageTable k).threads =
      Function.update k.threads t { k.threads t with
        savedRegs := Function.update (k.threads t).savedRegs .tp (cfg.cpuStruct c) } := by
  cases pageTable <;> rfl

/-- It leaves what the CPUs execute. -/
lemma prepareSwitch_cpus (c' : C) :
    ((prepareSwitch cfg c t pageTable k).cpus c').currentPid = (k.cpus c').currentPid ∧
    ((prepareSwitch cfg c t pageTable k).cpus c').currentTid = (k.cpus c').currentTid ∧
    ((prepareSwitch cfg c t pageTable k).cpus c').currentTaskID = (k.cpus c').currentTaskID := by
  cases pageTable with
  | none => exact ⟨rfl, rfl, rfl⟩
  | some entries =>
    by_cases hc : c' = c
    · subst hc
      simp [prepareSwitch, Kernel.setCpu, Kernel.setThread]
    · simp [prepareSwitch, Kernel.setCpu, Kernel.setThread, hc]

/-- It leaves the tables. -/
lemma SameTables.prepareSwitch : SameTables k (prepareSwitch cfg c t pageTable k) := by
  have thread : SameTables k (k.setThread t fun thread =>
      { thread with savedRegs := Function.update thread.savedRegs .tp (cfg.cpuStruct c) }) :=
    .setThread (fun _ => rfl) (fun _ => rfl) (fun _ => rfl)
  unfold Tasking.prepareSwitch
  cases pageTable with
  | none => exact thread
  | some entries => exact thread.trans .setCpu

/-- Making a thread current leaves the saved registers. -/
lemma makeCurrent_savedRegs (t' : Nat) :
    ((makeCurrent c t k).threads t').savedRegs = (k.threads t').savedRegs := by
  by_cases h : t' = t
  · subst h
    simp [makeCurrent, Kernel.setThread, Kernel.setCpu]
  · simp [makeCurrent, Kernel.setThread, Kernel.setCpu, h]

/-- The CPU executes the thread then. -/
lemma makeCurrent_self :
    ((makeCurrent c t k).cpus c).currentPid = (k.threads t).pid ∧
    ((makeCurrent c t k).cpus c).currentTid = (k.threads t).tid ∧
    ((makeCurrent c t k).cpus c).currentTaskID = (k.threads t).taskID := by
  simp [makeCurrent, Kernel.setThread, Kernel.setCpu]

/-- The other CPUs execute what they did. -/
lemma makeCurrent_other {c' : C} (h : c' ≠ c) : (makeCurrent c t k).cpus c' = k.cpus c' := by
  simp [makeCurrent, Kernel.setThread, Kernel.setCpu, h]

/-- A CPU without a thread takes one whose lock was free. -/
lemma Owned.take (pageTable : Option Nat) {j : Nat} (h : Owned cfg held k stored current)
    (hc : current c = minusOne) (slot : k.activeTasks j = .thread t) (free : held t = false) :
    Owned cfg (Function.update held t true) (prepareSwitch cfg c t pageTable (makeCurrent c t k)) stored
      (Function.update current c (k.threads t).taskID) := by
  obtain ⟨hj, hn, hid⟩ := h.tables.of_slot slot
  have hid' : (k.threads t).taskID ≠ minusOne := hid ▸ h.tables.ne_minusOne hj
  have same : SameTables k (prepareSwitch cfg c t pageTable (makeCurrent c t k)) :=
    SameTables.makeCurrent.trans .prepareSwitch
  -- no CPU has the thread yet
  have unowned : ∀ c', current c' ≠ (k.threads t).taskID := by
    intro c' hc'
    have := (h.lock hn).mpr ⟨c', hc' ▸ hid', hc'⟩
    rw [free] at this
    cases this
  have other : ∀ {c'}, c' ≠ c → Function.update current c (k.threads t).taskID c' = current c' :=
    fun h => Function.update_of_ne h ..
  constructor
  · exact h.tables.congr same
  · intro c' hc'
    rw [same.totalActiveTasks]
    by_cases hne : c' = c
    · subst hne
      rw [Function.update_self, hid]
      exact hj
    · rw [other hne] at hc' ⊢
      exact h.valid c' hc'
  · -- `t` is the thread of `c` alone
    intro c' c'' e hc'
    by_cases hne : c' = c
    · subst hne
      rw [Function.update_self] at e
      by_contra hcc
      rw [other (Ne.symm hcc)] at e
      exact unowned c'' e.symm
    · rw [other hne] at e hc'
      by_cases hne' : c'' = c
      · subst hne'
        rw [Function.update_self] at e
        exact absurd e (unowned c')
      · rw [other hne'] at e
        exact h.distinct e hc'
  · intro t' hn'
    rw [same.nextThread] at hn'
    rw [same.taskID]
    by_cases ht : t' = t
    · subst ht
      simp only [Function.update_self, true_iff]
      exact ⟨c, by rwa [Function.update_self], Function.update_self ..⟩
    · rw [Function.update_of_ne ht, h.lock hn']
      constructor
      · -- `c` had no thread before, so the lock of another thread is held as it was
        rintro ⟨c', hc', ht'⟩
        have hne : c' ≠ c := by
          rintro rfl
          exact hc' hc
        exact ⟨c', by rwa [other hne], by rwa [other hne]⟩
      · rintro ⟨c', hc', ht'⟩
        have hne : c' ≠ c := by
          rintro rfl
          rw [Function.update_self] at ht'
          exact ht (h.eq_of_taskID hn hn' hid' ht'.symm)
        rw [other hne] at hc' ht'
        exact ⟨c', hc', ht'⟩
  · intro t' hn'
    rw [same.nextThread] at hn'
    rw [Function.update_of_ne (by omega)]
    exact h.fresh hn'
  · intro c' t' hn' hc' ht'
    rw [same.nextThread] at hn'
    rw [same.taskID] at ht'
    rw [same.pid, same.tid, (prepareSwitch_cpus c').1, (prepareSwitch_cpus c').2.1,
      prepareSwitch_threads]
    by_cases hne : c' = c
    · subst hne
      rw [Function.update_self] at ht'
      have ht := h.eq_of_taskID hn hn' hid' ht'.symm
      subst ht
      exact ⟨makeCurrent_self.1, makeCurrent_self.2.1, by simp⟩
    · rw [other hne] at hc' ht'
      have ht : t' ≠ t := by
        rintro rfl
        exact unowned c' ht'
      rw [makeCurrent_other hne, Function.update_of_ne ht, makeCurrent_savedRegs]
      exact h.numbers hn' hc' ht'
  · intro t' hn' r hr
    rw [same.nextThread] at hn'
    rw [prepareSwitch_threads]
    by_cases ht : t' = t
    · subst ht
      simp only [Function.update_self, Function.update_of_ne hr, makeCurrent_savedRegs]
      exact h.regs hn' r hr
    · rw [Function.update_of_ne ht, makeCurrent_savedRegs]
      exact h.regs hn' r hr

end Take

end Switch

/-- A new process has no threads. -/
lemma Owned.newProcess (h : Owned cfg held k stored current) (pageTable : Nat) :
    Owned cfg held (newProcess pageTable k).2 stored current := by
  have tables := h.tables.newProcess pageTable
  unfold Tasking.newProcess at tables ⊢
  split
  · exact h
  · rename_i e
    simp only [e] at tables
    exact { h with tables := tables }

/-- The registers of threads that are not there yet do not matter. -/
lemma Owned.record_fresh {regs : Regs} (h : Owned cfg held k stored current) :
    Owned cfg held k (Function.update stored k.nextThread regs) current := by
  refine { h with regs := ?_ }
  intro t hn r hr
  rw [Function.update_of_ne (by omega)]
  exact h.regs hn r hr

/-- A new thread is no task, and its lock is free. -/
lemma Owned.newThread {pid entry arg r : Nat} (h : Owned cfg held k stored current)
    (e : newThread cfg pid entry arg k = .ok (r, k')) :
    Owned cfg held k'
      (Function.update stored k.nextThread (k'.threads k.nextThread).savedRegs) current := by
  have tables := h.tables.newThread e
  obtain ⟨_, rfl⟩ | ⟨process, thread, m, pages, _, _, _, _, task_eq, _, _, rfl⟩ := newThread_ok e
  · exact h.record_fresh
  · have old : ∀ {t}, t < k.nextThread →
        Function.update k.threads k.nextThread thread t = k.threads t :=
      fun h => Function.update_of_ne (by omega) ..
    refine ⟨tables, h.valid, h.distinct, ?_, ?_, ?_, ?_⟩
    · intro t hn
      dsimp only at hn ⊢
      by_cases ht : t = k.nextThread
      · subst ht
        rw [Function.update_self, task_eq, h.fresh (Nat.le_refl _)]
        constructor
        · intro held'
          cases held'
        · rintro ⟨c, hc, hc'⟩
          exact absurd hc' hc
      · rw [old (by omega)]
        exact h.lock (by omega)
    · intro t hn
      dsimp only at hn
      exact h.fresh (by omega)
    · intro c t hn hc ht
      dsimp only at hn ht ⊢
      by_cases hne : t = k.nextThread
      · subst hne
        rw [Function.update_self, task_eq] at ht
        exact absurd ht hc
      · rw [old (by omega)] at ht ⊢
        exact h.numbers (by omega) hc ht
    · intro t hn r hr
      dsimp only at hn ⊢
      by_cases hne : t = k.nextThread
      · subst hne
        simp only [Function.update_self]
      · rw [old (by omega), Function.update_of_ne hne]
        exact h.regs (by omega) r hr

/-- A thread that becomes a task is not owned yet. -/
lemma Owned.addTask {t r : Nat} (h : Owned cfg held k stored current) (hn : t < k.nextThread)
    (hid : (k.threads t).taskID = minusOne) (e : addTask t k = (r, k')) :
    Owned cfg held k' stored current := by
  have tables := h.tables.addTask hn hid e
  obtain ⟨_, rfl⟩ | ⟨_, hlt, rfl⟩ := h.tables.addTask_eq e
  · exact h
  · have other : ∀ {t'}, t' ≠ t → Function.update k.threads t
        { k.threads t with taskID := k.totalActiveTasks } t' = k.threads t' :=
      fun h => Function.update_of_ne h ..
    have unowned : ∀ c, current c ≠ minusOne → current c ≠ k.totalActiveTasks :=
      fun c hc => Nat.ne_of_lt (h.valid c hc)
    refine ⟨tables, ?_, h.distinct, ?_, h.fresh, ?_, ?_⟩
    · intro c hc
      exact Nat.lt_succ_of_lt (h.valid c hc)
    · intro t' hn'
      dsimp only at hn' ⊢
      by_cases ht : t' = t
      · subst ht
        rw [h.lock hn, hid, Function.update_self]
        constructor
        · rintro ⟨c, hc, hc'⟩
          exact absurd hc' hc
        · rintro ⟨c, hc, hc'⟩
          exact absurd hc' (unowned c hc)
      · rw [other ht]
        exact h.lock hn'
    · intro c t' hn' hc ht'
      dsimp only at hn' ht' ⊢
      by_cases ht : t' = t
      · subst ht
        rw [Function.update_self] at ht'
        exact absurd ht' (unowned c hc)
      · rw [other ht] at ht' ⊢
        exact h.numbers hn' hc ht'
    · intro t' hn' r hr
      dsimp only at hn' ⊢
      by_cases ht : t' = t
      · subst ht
        rw [Function.update_self]
        exact h.regs hn r hr
      · rw [other ht]
        exact h.regs hn' r hr

section Calls
variable [DecidableEq C] {locked locked' : Lock → Bool}

/-- `thread_create` creates a thread and changes no CPU. -/
lemma Owned.threadCreate {pid entry arg r : Nat} (h : Owned cfg held k stored current)
    (table : locked .processLock = false)
    (run : (threadCreate cfg c pid entry arg).run locked k = .done r locked' k') :
    locked' = locked ∧ k'.cpus = k.cpus ∧ Owned cfg held k'
      (Function.update stored k.nextThread (k'.threads k.nextThread).savedRegs) current := by
  obtain ⟨rfl, rfl | e⟩ := threadCreate_done table run
  · exact ⟨rfl, rfl, h.record_fresh⟩
  · refine ⟨rfl, ?_, h.newThread e⟩
    obtain ⟨_, rfl⟩ | ⟨_, _, _, _, _, _, _, _, _, _, _, rfl⟩ := newThread_ok e
    · rfl
    · rfl

/-- `scheduler_add_task` adds a task and changes no CPU. -/
lemma Owned.schedulerAddTask {pid tid r : Nat} (h : Owned cfg held k stored current)
    (table : locked .processLock = false)
    (run : (schedulerAddTask c pid tid).run locked k = .done r locked' k') :
    locked' = locked ∧ k'.cpus = k.cpus ∧ Owned cfg held k' stored current := by
  obtain ⟨rfl, rfl | ⟨process, t, hp, ht, hid, e, _⟩⟩ := schedulerAddTask_done table run
  · exact ⟨rfl, rfl, h⟩
  · refine ⟨rfl, ?_, h.addTask (h.tables.thread hp ht).1 hid e⟩
    obtain ⟨_, rfl⟩ | ⟨_, _, rfl⟩ := h.tables.addTask_eq e
    · rfl
    · rfl

/-- `process_create` creates a process and changes no CPU. -/
lemma Owned.processCreate {pageTable r : Nat} (h : Owned cfg held k stored current)
    (table : locked .processLock = false)
    (run : (processCreate c pageTable).run locked k = .done r locked' k') :
    locked' = locked ∧ k'.cpus = k.cpus ∧ Owned cfg held k' stored current := by
  rw [run_processCreate table] at run
  simp only [Outcome.done.injEq] at run
  obtain ⟨_, rfl, rfl⟩ := run
  refine ⟨rfl, ?_, h.newProcess pageTable⟩
  unfold Tasking.newProcess
  split
  · rfl
  · rfl

/-- The locks of threads after the preemption. -/
lemma threadLocks_unlockThread {o : Option Nat} :
    threadLocks (unlockThread (lockScheduler locked) o) = releaseThread (threadLocks locked) o := by
  funext t'
  cases o with
  | none => simp [threadLocks, unlockThread, releaseThread, lockScheduler]
  | some t =>
    by_cases h : t' = t
    · subst h
      simp [threadLocks, unlockThread, releaseThread]
    · simp [threadLocks, unlockThread, releaseThread, lockScheduler, h]

/-- The locks of threads after one was taken. -/
lemma threadLocks_take {t : Nat} :
    threadLocks (Function.update locked (.thread t) true) =
      Function.update (threadLocks locked) t true := by
  funext t'
  by_cases h : t' = t
  · subst h
    simp [threadLocks]
  · simp [threadLocks, h]

/-- What `scheduler_schedule` has done by the time it decides, to the CPU's thread and to the next. -/
lemma Owned.decideTask {fuel : Nat} {regs : Regs} {d : Decision}
    (h : Owned cfg (threadLocks locked) k stored current)
    (hc : current c = (k.cpus c).currentTaskID) (table : locked .processLock = false)
    (scheduler : locked .entrySchedulerLock = false → locked .schedulerLock = false)
    (run : (decideTask c fuel regs).run locked k = .done d locked' k') :
    (d = .skip ∧ locked' = locked ∧ k' = k ∧
      ¬ (k.schedulerRunning = true ∧ (k.cpus c).preemptCounter = 0)) ∨
    ((k.schedulerRunning = true ∧ (k.cpus c).preemptCounter = 0) ∧
      locked .entrySchedulerLock = false ∧
      (∀ l, (∀ t, l ≠ .thread t) → locked' l = lockScheduler locked l) ∧
      (∀ c', c' ≠ c → k'.cpus c' = k.cpus c') ∧
      ((d = .idle ∧ Owned cfg (threadLocks locked') k' (recordRegs stored (k.executes c) regs)
          (Function.update current c minusOne)) ∨
        ∃ t pageTable, d = .task t pageTable ∧
          (k'.threads t).taskID ≠ minusOne ∧ k'.activeTasks (k'.threads t).taskID = .thread t ∧
          (k'.cpus c).currentTaskID = (k'.threads t).taskID ∧
          Owned cfg (threadLocks locked') (prepareSwitch cfg c t pageTable k')
            (recordRegs stored (k.executes c) regs)
            (Function.update current c (k'.threads t).taskID))) := by
  obtain skip | ⟨on, entry, o, k₁, store, ⟨rfl, rfl, rfl⟩ |
    ⟨t, j, pageTable, rfl, slot, free, rfl, rfl⟩⟩ := decideTask_done table scheduler run
  · exact .inl skip
  · -- no thread is free: the CPU gives its own back and becomes idle
    obtain ⟨rfl, owned⟩ := h.store hc store
    refine .inr ⟨on, entry, ?_, ?_, .inl ⟨rfl, ?_⟩⟩
    · intro l hl
      cases k.executes c with
      | none => rfl
      | some t => exact Function.update_of_ne (hl t) ..
    · intro c' _
      rw [(storeCurrent_ok store).2]
    · rwa [threadLocks_unlockThread]
  · obtain ⟨rfl, owned⟩ := h.store hc store
    obtain ⟨hj, _, hid⟩ := owned.tables.of_slot slot
    refine .inr ⟨on, entry, ?_, ?_, .inr ⟨t, pageTable, rfl, ?_, ?_, ?_, ?_⟩⟩
    · intro l hl
      rw [Function.update_of_ne (hl t)]
      cases k.executes c with
      | none => rfl
      | some t => exact Function.update_of_ne (hl t) ..
    · intro c' hc'
      rw [makeCurrent_other hc', (storeCurrent_ok store).2]
    · rw [SameTables.makeCurrent.taskID, hid]
      exact owned.tables.ne_minusOne hj
    · rw [SameTables.makeCurrent.taskID, SameTables.makeCurrent.activeTasks, hid]
      exact slot
    · rw [SameTables.makeCurrent.taskID]
      exact makeCurrent_self.2.2
    · rw [threadLocks_take, threadLocks_unlockThread, SameTables.makeCurrent.taskID]
      have taken := owned.take pageTable (Function.update_self ..) slot
        (by rw [← threadLocks_unlockThread]; exact free)
      rwa [Function.update_idem] at taken

end Calls

end Owned

/-- The kernel between two calls, and the registers that each thread had when it was last preempted, or
when it was created if it never ran. -/
structure Machine (C : Type) where
  locked : Lock → Bool
  kernel : Kernel C
  stored : Nat → Regs

namespace Machine
variable {C : Type} [DecidableEq C]

/-- One call, or a CPU that executes something else. A `scheduler_schedule` that is not skipped preempts
the thread that the CPU executes. -/
inductive Step (cfg : Config C) : Machine C → Machine C → Prop where
  | schedule {s : Machine C} {c fuel regs locked' k'} :
      (schedulerSchedule cfg c fuel regs).run s.locked s.kernel = .done () locked' k' →
      Step cfg s ⟨locked', k',
        if s.kernel.schedulerRunning = true ∧ (s.kernel.cpus c).preemptCounter = 0
        then recordRegs s.stored (s.kernel.executes c) regs else s.stored⟩
  | addTask {s : Machine C} {c pid tid r locked' k'} :
      (schedulerAddTask c pid tid).run s.locked s.kernel = .done r locked' k' →
      Step cfg s ⟨locked', k', s.stored⟩
  | createThread {s : Machine C} {c pid entry arg r locked' k'} :
      (threadCreate cfg c pid entry arg).run s.locked s.kernel = .done r locked' k' →
      Step cfg s ⟨locked', k',
        Function.update s.stored s.kernel.nextThread (k'.threads s.kernel.nextThread).savedRegs⟩
  | createProcess {s : Machine C} {c pageTable r locked' k'} :
      (processCreate c pageTable).run s.locked s.kernel = .done r locked' k' →
      Step cfg s ⟨locked', k', s.stored⟩
  | execute {s : Machine C} {c} (counter : BitVec 64) (regs : Regs) :
      Step cfg s ⟨s.locked, s.kernel.setCpu c fun cpu =>
        { cpu with preemptCounter := counter, regs := regs }, s.stored⟩

/-- Before `scheduler_init`: there are no threads and no tasks. -/
def Boot (k : Kernel C) : Prop :=
  k.totalActiveTasks = 0 ∧ k.nextThread = 0 ∧ ∀ c, (k.cpus c).currentTaskID = minusOne

/-- The states of the runs from `scheduler_init` on, as long as the task table is not full. -/
inductive Reachable (cfg : Config C) : Machine C → Prop where
  | init {k₀ c firstTask locked k} : Boot k₀ →
      (schedulerInit cfg c firstTask).run (fun _ => false) k₀ = .done () locked k →
      Reachable cfg ⟨locked, k, fun t => (k.threads t).savedRegs⟩
  | step {s s'} : Reachable cfg s → (∃ i < maxThreads * 2, s.kernel.activeTasks i = .null) →
      Step cfg s s' → Reachable cfg s'

/-- Between two calls only locks of threads are held, and the tasks of the CPUs are current. -/
structure Sound (cfg : Config C) (s : Machine C) : Prop where
  quiet : ∀ l, (∀ t, l ≠ .thread t) → s.locked l = false
  owned : Owned cfg (threadLocks s.locked) s.kernel s.stored fun c => (s.kernel.cpus c).currentTaskID

section Sound
variable {cfg : Config C} {s s' : Machine C} {k k' : Kernel C} {locked locked' : Lock → Bool} {c : C}

/-- The calls of `scheduler_init`, on empty tables. -/
lemma schedulerInit_calls {firstTask : Nat}
    (run : (schedulerInit cfg c firstTask).run (fun _ => false) k = .done () locked' k') :
    ∃ pid locked₁ k₁ tid locked₂ k₂ taskID k₃,
      (processCreate c cfg.kernelPageMap).run (fun _ => false)
        { k with processTable := fun _ => none, activeTasks := fun _ => .null } =
          .done pid locked₁ k₁ ∧
      (threadCreate cfg c 0 firstTask 0).run locked₁ k₁ = .done tid locked₂ k₂ ∧
      (schedulerAddTask c 0 tid).run locked₂ k₂ = .done taskID locked' k₃ ∧
      k' = { k₃ with schedulerRunning := true } := by
  obtain ⟨_, _, _, first, rest₁⟩ := run_bind_done run
  rw [run_processInitProcessTable rfl] at first
  cases first
  obtain ⟨_, _, _, clear, rest₂⟩ := run_bind_done rest₁
  cases clear
  obtain ⟨pid, locked₁, k₁, process, rest₃⟩ := run_bind_done rest₂
  obtain ⟨tid, locked₂, k₂, thread, rest₄⟩ := run_bind_done rest₃
  obtain ⟨taskID, locked₃, k₃, task, rest₅⟩ := run_bind_done rest₄
  cases rest₅
  exact ⟨pid, locked₁, k₁, tid, locked₂, k₂, taskID, k₃, process, thread, task, rfl⟩

omit [DecidableEq C] in
/-- Nothing is owned where there is nothing. -/
lemma owned_empty (boot : Boot k) :
    Owned cfg (fun _ => false)
      { k with processTable := fun _ => none, activeTasks := fun _ => .null }
      (fun t => (k.threads t).savedRegs) fun _ => minusOne := by
  obtain ⟨total, next, _⟩ := boot
  refine ⟨⟨?_, ?_, ?_, ?_, ?_, ?_⟩, ?_, ?_, ?_, ?_, ?_, ?_⟩ <;> simp [total, next]

/-- After `scheduler_init` no thread is owned. -/
lemma schedulerInit_done {firstTask : Nat} (boot : Boot k)
    (run : (schedulerInit cfg c firstTask).run (fun _ => false) k = .done () locked' k') :
    locked' = (fun _ => false) ∧ k'.cpus = k.cpus ∧
      ∃ stored, Owned cfg (fun _ => false) k' stored fun _ => minusOne := by
  have empty : Owned cfg (fun _ => false)
      { k with processTable := fun _ => none, activeTasks := fun _ => .null }
      (fun t => (k.threads t).savedRegs) fun _ => minusOne := owned_empty boot
  obtain ⟨_, _, _, _, _, _, _, _, process, thread, task, rfl⟩ := schedulerInit_calls run
  obtain ⟨rfl, cpus₁, owned₁⟩ := empty.processCreate rfl process
  obtain ⟨rfl, cpus₂, owned₂⟩ := owned₁.threadCreate rfl thread
  obtain ⟨rfl, cpus₃, owned₃⟩ := owned₂.schedulerAddTask rfl task
  refine ⟨rfl, ?_, _, owned₃.congr ⟨rfl, rfl, rfl, rfl, fun _ => rfl, fun _ => rfl, fun _ => rfl⟩
    (fun _ => rfl) fun _ _ => ⟨rfl, rfl⟩⟩
  exact cpus₃.trans (cpus₂.trans cpus₁)

/-- `scheduler_init` leads to a sound machine. -/
lemma Sound.init {firstTask : Nat} (boot : Boot k)
    (run : (schedulerInit cfg c firstTask).run (fun _ => false) k = .done () locked' k') :
    Sound cfg ⟨locked', k', fun t => (k'.threads t).savedRegs⟩ := by
  obtain ⟨rfl, cpus, stored, owned⟩ := schedulerInit_done boot run
  refine ⟨fun _ _ => rfl, ?_⟩
  have current : (fun c => (k'.cpus c).currentTaskID) = fun _ => minusOne := by
    funext c
    rw [cpus, boot.2.2]
  rw [current]
  exact { owned with regs := fun _ _ _ => rfl }

/-- The locks after `arch_scheduler_unlock_locks`. -/
lemma quiet_unlock {l : Lock} (quiet : ∀ l, (∀ t, l ≠ .thread t) → locked l = false)
    (scheduled : ∀ l, (∀ t, l ≠ .thread t) → locked' l = lockScheduler locked l)
    (hl : ∀ t, l ≠ .thread t) :
    Function.update (Function.update locked' .schedulerLock false) .entrySchedulerLock false l =
      false := by
  by_cases h₁ : l = .entrySchedulerLock
  · simp [h₁]
  · by_cases h₂ : l = .schedulerLock
    · simp [h₂]
    · rw [Function.update_of_ne h₁, Function.update_of_ne h₂, scheduled l hl, lockScheduler,
        Function.update_of_ne h₂, Function.update_of_ne h₁, quiet l hl]

/-- The scheduler's locks are none of threads. -/
lemma threadLocks_unlock :
    threadLocks (Function.update (Function.update locked .schedulerLock false)
      .entrySchedulerLock false) = threadLocks locked := by
  funext t
  simp [threadLocks]

/-- A whole `scheduler_schedule`. -/
lemma Sound.schedule {fuel : Nat} {regs : Regs} (h : Sound cfg s)
    (run : (schedulerSchedule cfg c fuel regs).run s.locked s.kernel = .done () locked' k') :
    Sound cfg ⟨locked', k',
      if s.kernel.schedulerRunning = true ∧ (s.kernel.cpus c).preemptCounter = 0
      then recordRegs s.stored (s.kernel.executes c) regs else s.stored⟩ := by
  obtain ⟨d, locked₁, k₁, decide, rest⟩ := run_bind_done run
  obtain ⟨rfl, rfl, rfl, off⟩ | ⟨on, _, scheduled, others, ⟨rfl, owned⟩ |
    ⟨t, pageTable, rfl, _, _, current, owned⟩⟩ :=
    h.owned.decideTask (c := c) rfl (h.quiet _ (by simp)) (fun _ => h.quiet _ (by simp)) decide
  · cases rest
    rw [if_neg off]
    exact h
  · rw [if_pos on]
    simp only [archSchedulerIdle, archSchedulerIdleHalt, run_bind, run_modify, Outcome.andThen_done,
      run_archSchedulerUnlockLocks, Outcome.done.injEq, true_and] at rest
    obtain ⟨rfl, rfl⟩ := rest
    refine ⟨fun l => quiet_unlock h.quiet scheduled, ?_⟩
    have current : (fun c' => ((makeIdle c (loadIdleStack cfg c k₁)).cpus c').currentTaskID) =
        Function.update (fun c' => (s.kernel.cpus c').currentTaskID) c minusOne := by
      funext c'
      by_cases hc : c' = c
      · subst hc
        simp [makeIdle, Kernel.setCpu]
      · simp [makeIdle, loadIdleStack, Kernel.setCpu, hc, others c' hc]
    rw [threadLocks_unlock, current]
    exact owned.loadIdleStack.makeIdle (Function.update_self ..)
  · rw [if_pos on]
    simp only [archSchedulerSwitchTask, run_bind, run_modify, Outcome.andThen_done,
      run_archSchedulerUnlockLocks, Outcome.done.injEq, true_and] at rest
    obtain ⟨rfl, rfl⟩ := rest
    refine ⟨fun l => quiet_unlock h.quiet scheduled, ?_⟩
    have current' : (fun c' =>
        ((restoreContext c t (prepareSwitch cfg c t pageTable k₁)).cpus c').currentTaskID) =
        Function.update (fun c' => (s.kernel.cpus c').currentTaskID) c (k₁.threads t).taskID := by
      funext c'
      by_cases hc : c' = c
      · subst hc
        simp [restoreContext, Kernel.setCpu, (prepareSwitch_cpus c').2.2, current]
      · simp [restoreContext, Kernel.setCpu, hc, (prepareSwitch_cpus c').2.2, others c' hc]
    rw [threadLocks_unlock, current']
    exact owned.restoreContext

/-- Every step keeps it. -/
lemma Sound.step (h : Sound cfg s) (e : Step cfg s s') : Sound cfg s' := by
  have table : s.locked .processLock = false := h.quiet _ (by simp)
  cases e with
  | schedule run => exact h.schedule run
  | addTask run =>
    obtain ⟨rfl, cpus, owned⟩ := h.owned.schedulerAddTask table run
    exact ⟨h.quiet, by simpa only [cpus] using owned⟩
  | createThread run =>
    obtain ⟨rfl, cpus, owned⟩ := h.owned.threadCreate table run
    exact ⟨h.quiet, by simpa only [cpus] using owned⟩
  | createProcess run =>
    obtain ⟨rfl, cpus, owned⟩ := h.owned.processCreate table run
    exact ⟨h.quiet, by simpa only [cpus] using owned⟩
  | @execute c counter regs =>
    refine ⟨h.quiet, ?_⟩
    have current : (fun c' => ((s.kernel.setCpu c fun cpu =>
        { cpu with preemptCounter := counter, regs := regs }).cpus c').currentTaskID) =
        fun c' => (s.kernel.cpus c').currentTaskID := by
      funext c'
      by_cases hc : c' = c
      · subst hc
        simp [Kernel.setCpu]
      · simp [Kernel.setCpu, hc]
    rw [current]
    dsimp only
    exact h.owned.setCpu (fun _ => rfl) fun _ => rfl

/-- Every reachable machine is sound. -/
lemma Reachable.sound (h : Reachable cfg s) : Sound cfg s := by
  induction h with
  | init boot run => exact .init boot run
  | step _ _ e ih => exact ih.step e

end Sound

end Machine

/-- In every reachable state: a thread's lock is held if and only if it is a task and it is the one of
exactly one CPU; no two CPUs have the same task; and the CPU that has it has its numbers, and switched
to it with the registers that it had when it was last preempted, or created, but for `tp`. -/
theorem thread_owned {C : Type} [DecidableEq C] {cfg : Config C} {s : Machine C}
    (h : s.Reachable cfg) :
    (∀ t < s.kernel.nextThread, (s.locked (.thread t) = true ↔
      (s.kernel.threads t).taskID ≠ minusOne ∧
        ∃! c, (s.kernel.cpus c).currentTaskID = (s.kernel.threads t).taskID)) ∧
    (∀ c c', (s.kernel.cpus c).currentTaskID = (s.kernel.cpus c').currentTaskID →
      (s.kernel.cpus c).currentTaskID ≠ minusOne → c = c') ∧
    (∀ c, ∀ t < s.kernel.nextThread, (s.kernel.threads t).taskID ≠ minusOne →
      (s.kernel.cpus c).currentTaskID = (s.kernel.threads t).taskID →
      (s.kernel.cpus c).currentPid = (s.kernel.threads t).pid ∧
      (s.kernel.cpus c).currentTid = (s.kernel.threads t).tid ∧
      (s.kernel.threads t).savedRegs = Function.update (s.stored t) .tp (cfg.cpuStruct c)) := by
  have owned := h.sound.owned
  refine ⟨fun t hn => ?_, fun c c' => owned.distinct, fun c t hn hid hc => ?_⟩
  · have lock := owned.lock hn
    constructor
    · intro held
      obtain ⟨c, hc, ht⟩ := lock.mp held
      refine ⟨ht ▸ hc, c, ht, fun c' ht' => ?_⟩
      exact (owned.distinct (ht.trans ht'.symm) hc).symm
    · rintro ⟨hid, c, ht, _⟩
      exact lock.mpr ⟨c, ht ▸ hid, ht⟩
  · obtain ⟨pid, tid, tp⟩ := owned.numbers hn (hc ▸ hid) hc
    refine ⟨pid, tid, ?_⟩
    funext r
    by_cases hr : r = .tp
    · subst hr
      rw [Function.update_self, tp]
    · rw [Function.update_of_ne hr]
      exact owned.regs hn r hr

namespace Machine

/-- The state after `scheduler_init` on CPU 0. -/
def started (n : Nat) [NeZero n] : Machine (Fin n) :=
  let o := (schedulerInit (.flat n) 0 0).run (fun _ => false) (.boot (Fin n))
  let k := o.state (.boot (Fin n))
  ⟨o.locks, k, fun t => (k.threads t).savedRegs⟩

/-- The state after `scheduler_init` is reachable. -/
lemma started_reachable (n : Nat) [NeZero n]
    (h : ((schedulerInit (.flat n) 0 0).run (fun _ => false) (.boot (Fin n))).isDone = true) :
    (started n).Reachable (.flat n) := by
  obtain ⟨_, run⟩ := Outcome.exists_done h (.boot (Fin n))
  have boot : Boot (.boot (Fin n)) := ⟨rfl, rfl, fun _ => rfl⟩
  exact .init boot run

end Machine

/-- CPU 1 switches to the first task. -/
theorem thread_owned_firstTask :
    ∃ s : Machine (Fin 2), s.Reachable (.flat 2) ∧ s.locked (.thread 0) = true ∧
      (s.kernel.threads 0).savedRegs =
        Function.update (s.stored 0) .tp (Config.cpuStruct (.flat 2) 1) := by
  obtain ⟨o, run, done, locked, hn, hid, hc⟩ : ∃ o,
      (schedulerSchedule (.flat 2) 1 4 fun _ => 0).run (Machine.started 2).locked
        (Machine.started 2).kernel = o ∧
      o.isDone = true ∧ o.locks (.thread 0) = true ∧
      0 < (o.state (.boot (Fin 2))).nextThread ∧
      ((o.state (.boot (Fin 2))).threads 0).taskID ≠ minusOne ∧
      ((o.state (.boot (Fin 2))).cpus 1).currentTaskID =
        ((o.state (.boot (Fin 2))).threads 0).taskID := ⟨_, rfl, by decide +kernel⟩
  obtain ⟨_, step⟩ := Outcome.exists_done done (.boot (Fin 2))
  have reached := Machine.Reachable.step (Machine.started_reachable 2 (by decide +kernel))
    ⟨1, by decide, by decide +kernel⟩ (.schedule (run.trans step))
  exact ⟨_, reached, locked, ((thread_owned reached).2.2 1 0 hn hid hc).2.2⟩

/-- A thread that was not added yet is not locked, and the only CPU has its `taskID`, which is -1. -/
theorem thread_unlocked_before_add :
    ∃ s : Machine (Fin 1), s.Reachable (.flat 1) ∧ ∃ t < s.kernel.nextThread,
      ¬ (s.locked (.thread t) = true ↔
        ∃! c, (s.kernel.cpus c).currentTaskID = (s.kernel.threads t).taskID) := by
  obtain ⟨o, run, done, free, hn, hc⟩ : ∃ o,
      (threadCreate (.flat 1) 0 0 0 0).run (Machine.started 1).locked (Machine.started 1).kernel = o ∧
      o.isDone = true ∧ o.locks (.thread 1) = false ∧
      1 < (o.state (.boot (Fin 1))).nextThread ∧
      ((o.state (.boot (Fin 1))).cpus 0).currentTaskID =
        ((o.state (.boot (Fin 1))).threads 1).taskID := ⟨_, rfl, by decide +kernel⟩
  obtain ⟨_, step⟩ := Outcome.exists_done done (.boot (Fin 1))
  refine ⟨_, .step (Machine.started_reachable 1 (by decide +kernel)) ⟨1, by decide, by decide +kernel⟩
    (.createThread (run.trans step)), 1, hn, fun h => ?_⟩
  have held := h.mpr ⟨0, hc, fun c _ => Subsingleton.elim c 0⟩
  cases free.symm.trans held

end WivOS.Tasking
