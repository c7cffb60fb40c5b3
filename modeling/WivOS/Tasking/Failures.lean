import WivOS.Tasking.Creation

/-!
# Numbers that denote nothing

`process_get_process`, `thread_create` and `scheduler_add_task` on a `pid` or a `tid` that denotes
nothing, in the states of all runs of creations. `process_get_process` tests its argument against the
size of the table and not the entry that it finds, and `scheduler_add_task` tests the entry that it
finds and not its argument. `refusesInvalid_iff` says for which numbers the calls fail as they should.
-/

namespace WivOS.Tasking
open WivOS.Lib.LockProg WivOS.Lib.LockProg.Prog

variable {C : Type} [DecidableEq C]

/-- A `pid` that denotes no process is refused by the three functions, and a `tid` that denotes no
thread of a process by `scheduler_add_task`; the locks and the kernel are as they were. -/
structure RefusesInvalid (cfg : Config C) (c : C) (locked : Lock → Bool) (k : Kernel C)
    (pid tid : Nat) : Prop where
  get : k.processTable pid = none → (processGetProcess c pid).run locked k = .done none locked k
  create : k.processTable pid = none → ∀ entry arg,
    (threadCreate cfg c pid entry arg).run locked k = .done minusOne locked k
  add : k.processTable pid = none →
    (schedulerAddTask c pid tid).run locked k = .done minusOne locked k
  addThread : ∀ process, k.processTable pid = some process →
    (∀ t, process.threads tid ≠ .thread t) →
    (schedulerAddTask c pid tid).run locked k = .done minusOne locked k

section Failures
variable {cfg : Config C} {c : C} {locked : Lock → Bool} {k : Kernel C} {pid tid : Nat}

/-- `thread_create` for a process that does not exist. -/
lemma run_threadCreate_none {entry arg : Nat}
    (get : (processGetProcess c pid).run locked k = .done none locked k) :
    (threadCreate cfg c pid entry arg).run locked k = .done minusOne locked k := by
  simp only [threadCreate, run_bind, get, Outcome.andThen_done, run_pure]

/-- `scheduler_add_task` for such a process. -/
lemma run_schedulerAddTask_none
    (get : (processGetProcess c pid).run locked k = .done none locked k) :
    (schedulerAddTask c pid tid).run locked k = .done minusOne locked k := by
  simp only [schedulerAddTask, run_bind, get, Outcome.andThen_done, run_pure]

section Process
variable {process : Process} (lt : pid < maxProcesses) (table : locked .processLock = false)
  (free : locked (.process pid) = false) (some_ : k.processTable pid = some process)
include lt table free some_

/-- No thread has the number: -1, and the lock of the process is released again. -/
lemma run_schedulerAddTask_null (inside : tid < maxThreads) (null : process.threads tid = .null) :
    (schedulerAddTask c pid tid).run locked k = .done minusOne locked k := by
  refine run_schedulerAddTask_refused lt table free some_ ?_
  simp only [taskToAdd, some_, if_neg (Nat.not_le.mpr inside), null]

/-- The number is not one of the table's: it is indexed past its end. -/
lemma run_schedulerAddTask_beyond (outside : maxThreads ≤ tid) :
    (schedulerAddTask c pid tid).run locked k = .failed .outOfBounds := by
  have find : (perform (taskToAdd pid tid)).run (Function.update locked (.process pid) true)
      (k.addPreempt c 1) = .failed .outOfBounds := by
    refine run_perform_error ?_
    have some' : (k.addPreempt c 1).processTable pid = some process := some_
    simp only [taskToAdd, some', if_pos outside]
  simp only [schedulerAddTask, run_bind, run_processGetProcess lt table free some_,
    Outcome.andThen_done, find, Outcome.andThen_failed]

end Process

/-- Processes have numbers below `MAX_PROCESSES`. -/
lemma Created.pid_lt {locked : Lock → Bool} (h : Created cfg locked k) {process : Process}
    (hp : k.processTable pid = some process) : pid < maxProcesses := by
  induction h generalizing pid process with
  | @init k₀ c locked k total next run =>
    rw [run_clearTables] at run
    simp only [Outcome.done.injEq, true_and] at run
    obtain ⟨_, rfl⟩ := run
    cases hp
  | @step locked k r locked' k' created e ih =>
    obtain ⟨rfl, _, _⟩ := created.tables
    cases e with
    | @process c pageTable run =>
      rw [run_processCreate rfl] at run
      simp only [Outcome.done.injEq] at run
      obtain ⟨_, _, rfl⟩ := run
      obtain e | ⟨new, lt, e⟩ := newProcess_eq pageTable k
      · rw [e] at hp
        exact ih hp
      · rw [e] at hp
        obtain ⟨rfl, _⟩ | ⟨_, hp⟩ := update_some hp
        · exact lt
        · exact ih hp
    | thread _ run =>
      obtain ⟨_, rfl | e⟩ := threadCreate_done rfl run
      · exact ih hp
      · obtain ⟨_, rfl⟩ | ⟨process', _, _, _, hp', _, _, _, _, _, _, rfl⟩ := newThread_ok e
        · exact ih hp
        · obtain ⟨rfl, _⟩ | ⟨_, hp⟩ := update_some hp
          · exact ih hp'
          · exact ih hp
    | task _ _ run =>
      obtain ⟨_, rfl | ⟨_, t, _, _, _, e, _⟩⟩ := schedulerAddTask_done rfl run
      · exact ih hp
      · obtain ⟨_, ht, _⟩ := created.tables
        obtain ⟨_, rfl⟩ | ⟨_, _, rfl⟩ := ht.addTask_eq e
        · exact ih hp
        · exact ih hp

end Failures

/-- In every state of a run of creations, with no process locked: numbers that denote nothing are
refused if and only if the `pid` of no process is not below `MAX_PROCESSES`, and the `tid` of no thread
of a process is below `MAX_THREADS`. -/
theorem refusesInvalid_iff {cfg : Config C} {locked₀ : Lock → Bool} {k : Kernel C}
    (h : Created cfg locked₀ k) {c : C} {locked : Lock → Bool} {pid tid : Nat}
    (table : locked .processLock = false) (free : locked (.process pid) = false) :
    RefusesInvalid cfg c locked k pid tid ↔
      (k.processTable pid = none → maxProcesses ≤ pid) ∧
      ∀ process, k.processTable pid = some process → (∀ t, process.threads tid ≠ .thread t) →
        tid < maxThreads := by
  constructor
  · intro refuses
    refine ⟨fun none_ => ?_, fun process some_ noThread => ?_⟩
    · by_contra lt
      have get := refuses.get none_
      rw [run_processGetProcess_null (by omega) table none_] at get
      cases get
    · by_contra outside
      have add := refuses.addThread process some_ noThread
      rw [run_schedulerAddTask_beyond (h.pid_lt some_) table free some_ (by omega)] at add
      cases add
  · rintro ⟨beyond, inside⟩
    refine ⟨fun none_ => ?_, fun none_ entry arg => ?_, fun none_ => ?_, fun process some_ noThread => ?_⟩
    · exact run_processGetProcess_beyond (beyond none_)
    · exact run_threadCreate_none (run_processGetProcess_beyond (beyond none_))
    · exact run_schedulerAddTask_none (run_processGetProcess_beyond (beyond none_))
    · have null : process.threads tid = .null := by
        cases slot : process.threads tid with
        | null => rfl
        | deleted => exact absurd slot (h.tables.2.2 pid process tid some_)
        | thread t => exact absurd slot (noThread t)
      exact run_schedulerAddTask_null (h.pid_lt some_) table free some_
        (inside process some_ noThread) null

section Samples

/-- The kernel's process, and nothing else. -/
def onlyKernel : Kernel (Fin 1) :=
  (newProcess 0x1000
    { Kernel.boot (Fin 1) with processTable := fun _ => none, activeTasks := fun _ => .null }).2

/-- The kernel's process is the first one created. -/
lemma onlyKernel_created : Created (.flat 1) (fun _ => false) onlyKernel :=
  .step (.init rfl rfl (run_clearTables (c := 0) (k := .boot (Fin 1))))
    (.process (run_processCreate (c := 0) rfl))

/-- The `pid` -1, and the first `tid` of a process without threads. -/
theorem refusesInvalid_iff_kernel :
    RefusesInvalid (.flat 1) 0 (fun _ => false) onlyKernel minusOne 0 ∧
      RefusesInvalid (.flat 1) 0 (fun _ => false) onlyKernel 0 0 := by
  refine ⟨(refusesInvalid_iff onlyKernel_created rfl rfl).mpr ⟨fun _ => by decide, ?_⟩,
    (refusesInvalid_iff onlyKernel_created rfl rfl).mpr ⟨fun none_ => ?_, fun _ _ _ => by decide⟩⟩
  · intro process some_
    exact absurd (onlyKernel_created.pid_lt some_) (by decide)
  · cases none_

/-- The entry of process 1 is `NULL` and dereferenced; the `tid` -1 of a failed `thread_create` is past
the threads of process 0. -/
theorem invalid_numbers_fault :
    onlyKernel.processTable 1 = none ∧
    (processGetProcess 0 1).run (fun _ => false) onlyKernel = .failed .badPointer ∧
    (schedulerAddTask 0 0 minusOne).run (fun _ => false) onlyKernel = .failed .outOfBounds ∧
    ¬ RefusesInvalid (.flat 1) 0 (fun _ => false) onlyKernel 1 0 ∧
    ¬ RefusesInvalid (.flat 1) 0 (fun _ => false) onlyKernel 0 minusOne := by
  have null : (processGetProcess 0 1).run (fun _ => false) onlyKernel = .failed .badPointer :=
    run_processGetProcess_null (by decide) rfl rfl
  have beyond : (schedulerAddTask 0 0 minusOne).run (fun _ => false) onlyKernel =
      .failed .outOfBounds :=
    run_schedulerAddTask_beyond (by decide) rfl rfl rfl (by decide)
  refine ⟨rfl, null, beyond, fun refuses => ?_, fun refuses => ?_⟩
  · cases null.symm.trans (refuses.get rfl)
  · have noThread : ∀ t, (⟨0, 0x1000, fun _ => .null⟩ : Process).threads minusOne ≠ .thread t := by
      intro t ht
      cases ht
    cases beyond.symm.trans (refuses.addThread _ rfl noThread)

end Samples

end WivOS.Tasking
