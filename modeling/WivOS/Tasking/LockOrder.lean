import WivOS.Tasking.Kernel

/-!
# The order of the kernel's locks

Any number of CPUs, each executing calls of `scheduler_schedule`, `scheduler_add_task`,
`thread_create` and `process_create`, with every operation on a lock as one step. `Order` lists which
lock each call asks for while it holds which others. Three of its lines close a circle:
`scheduler_schedule` asks for `process_lock` under the scheduler's locks, `process_get_process` for the
lock of a process under `process_lock`, and `scheduler_add_task` for `EntrySchedulerLock` under the lock
of a process. CPUs that stand at these three lines wait for each other forever (`schedule_wait_cycle`).
This takes a `process_get_process` that begins while a `scheduler_add_task` holds the lock of its
process; in runs where that never happens no CPUs wait for each other (`no_wait_cycle`).
-/

namespace WivOS.Tasking
open WivOS.Lib.LockProg WivOS.Lib.LockProg.Prog WivOS.Lib.LockProg.Sys

/-- A call that a CPU executes. -/
inductive Call where
  | schedule (fuel : Nat) (regs : Regs)
  | addTask (pid tid : Nat)
  | createThread (pid entry arg : Nat)
  | createProcess (pageTable : Nat)

namespace Call

/-- The code of a call. -/
def body {C : Type} [DecidableEq C] (cfg : Config C) (c : C) : Call → M C Unit
  | schedule fuel regs => schedulerSchedule cfg c fuel regs
  | addTask pid tid => do let _ ← schedulerAddTask c pid tid
  | createThread pid entry arg => do let _ ← threadCreate cfg c pid entry arg
  | createProcess pageTable => do let _ ← processCreate c pageTable

/-- The process that a call looks up with `process_get_process`. -/
def process : Call → Option Nat
  | addTask pid _ => some pid
  | createThread pid _ _ => some pid
  | _ => none

/-- The call is one of `scheduler_add_task`. -/
def isAddTask : Call → Bool
  | addTask _ _ => true
  | _ => false

end Call

/-- Only the locks of threads are handed over to other CPUs; only `SchedulerLock` is tried among the
others. -/
def Lock.discipline : Discipline Lock where
  owned l := match l with
    | .thread _ => false
    | _ => true
  tried l := match l with
    | .schedulerLock => true
    | _ => false

/-- Which lock a call asks for, and what it holds then. -/
inductive Order : Call → Set Lock → Lock → Prop where
  | entry {fuel regs} : Order (.schedule fuel regs) ∅ .entrySchedulerLock
  | noLock {fuel regs} :
      Order (.schedule fuel regs) {.schedulerLock, .entrySchedulerLock} .processLock
  | create {pageTable} : Order (.createProcess pageTable) ∅ .processLock
  | table {call pid} : call.process = some pid → Order call ∅ .processLock
  | process {call pid} : call.process = some pid → Order call {.processLock} (.process pid)
  | add {pid tid} : Order (.addTask pid tid) {.process pid} .entrySchedulerLock

section Follows
variable {C : Type} [DecidableEq C] {c : C} {R : Set Lock → Lock → Prop} {H : Set Lock} {l : Lock}
variable {cfg : Config C} {α : Type}

/-- `spinlock_lock` for the next lock of the order. -/
lemma follows_lock {Q : Unit → Set Lock → Prop} (hl : Lock.discipline.owned l = true) (hr : R H l)
    (h : Q () (insert l H)) : (spinlockLock c l : M C Unit).Follows Lock.discipline R Q H :=
  ⟨hl, hr, fun _ => h⟩

/-- The macro for the next lock of the order. -/
lemma follows_lockSkippreempt {Q : Unit → Set Lock → Prop} (hl : Lock.discipline.owned l = true) (hr : R H l)
    (h : Q () (insert l H)) :
    (spinlockLockSkippreempt c l : M C Unit).Follows Lock.discipline R Q H :=
  ⟨hl, hr, fun _ _ => h⟩

/-- `spinlock_unlock` for a lock that is held. -/
lemma follows_unlock {Q : Unit → Set Lock → Prop} (hl : l ∈ H) (ho : Lock.discipline.owned l = true)
    (h : Q () (H \ {l})) : (spinlockUnlock c l : M C Unit).Follows Lock.discipline R Q H := by
  refine ⟨fun _ => hl, fun _ => ?_⟩
  rwa [if_pos ho]

/-- The macro for a lock that is held. -/
lemma follows_unlockSkippreempt {Q : Unit → Set Lock → Prop} (hl : l ∈ H) (ho : Lock.discipline.owned l = true)
    (h : Q () (H \ {l})) :
    (spinlockUnlockSkippreempt c l : M C Unit).Follows Lock.discipline R Q H :=
  fun _ => follows_unlock (c := c) hl ho h

/-- The lock of a thread may be released by any CPU. -/
lemma follows_unlock_thread {t : Nat} {Q : Unit → Set Lock → Prop} (h : Q () H) :
    (spinlockUnlockSkippreempt c (.thread t) : M C Unit).Follows Lock.discipline R Q H :=
  fun _ => ⟨fun h => (by cases h), fun _ => h⟩

/-- The attempt may fail. -/
lemma follows_tryLock {Q : Bool → Set Lock → Prop}
    (ht : Lock.discipline.owned l = true → Lock.discipline.tried l = true)
    (taken : Q true H)
    (free : Q false (if Lock.discipline.owned l then insert l H else H)) :
    (spinlockTryLockSkippreempt c l : M C Bool).Follows Lock.discipline R Q H :=
  ⟨ht, taken, fun _ _ => free⟩

/-- `process_get_process` asks for `process_lock` and then for the lock of the process. -/
lemma follows_processGetProcess {pid : Nat} {Q : Option Nat → Set Lock → Prop}
    (table : R ∅ .processLock) (process : R {.processLock} (.process pid)) (none : Q none ∅)
    (some : Q (some pid) {.process pid}) :
    (processGetProcess c pid : M C _).Follows Lock.discipline R Q ∅ := by
  unfold processGetProcess
  split
  · exact none
  · have rest : ({.process pid, .processLock} : Set Lock) \ {.processLock} = {.process pid} := by
      ext l
      cases l <;> simp
    simp only [follows_bind]
    refine follows_lock rfl table (follows_perform fun _ => follows_lock rfl ?_ ?_)
    · simpa using process
    · refine follows_unlock (by simp) rfl ?_
      rw [insert_empty_eq, rest]
      exact follows_pure some

/-- `process_get_process_no_lock` asks for `process_lock` and releases it. -/
lemma follows_processGetProcessNoLock {pid : Nat} {Q : Option Process → Set Lock → Prop}
    (table : R H .processLock) (hH : .processLock ∉ H) (done : ∀ p, Q p H) :
    (processGetProcessNoLock c pid : M C _).Follows Lock.discipline R Q H := by
  unfold processGetProcessNoLock
  split
  · exact done _
  · simp only [follows_bind]
    refine follows_lock rfl table (follows_read fun p => follows_unlock (by simp) rfl ?_)
    rw [Set.insert_sdiff_self_of_notMem hH]
    exact done p

/-- The search for a task asks for no lock but those of threads. -/
lemma follows_nextTaskLoop {fuel i currentTask : Nat} {Q : Option Nat → Set Lock → Prop}
    (done : ∀ t, Q t H) :
    (nextTaskLoop c fuel i currentTask : M C _).Follows Lock.discipline R Q H := by
  induction fuel generalizing i currentTask with
  | zero => exact follows_perform done
  | succ fuel ih =>
    simp only [nextTaskLoop, follows_bind]
    refine follows_read fun total => ?_
    split
    · exact done _
    · rw [follows_bind]
      refine follows_perform fun r => ?_
      obtain ⟨slot, task⟩ := r
      cases slot with
      | null => exact done _
      | deleted => exact ih
      | thread t =>
        simp only [follows_bind]
        exact follows_tryLock (fun h => by cases h) ih (done _)

omit [DecidableEq C] in
/-- The end of `scheduler_schedule` takes no lock. -/
lemma follows_decideSwitch {currentPid t : Nat} {p q : Option Process} {Q : Decision → Set Lock → Prop}
    (done : ∀ pt, Q (.task t pt) H) :
    (decideSwitch currentPid t p q : M C _).Follows Lock.discipline R Q H := by
  unfold decideSwitch pageTableOf
  split
  · rw [follows_bind]
    exact follows_perform fun _ => done _
  · simp only [follows_bind]
    exact follows_perform fun _ => follows_perform fun _ => done _

/-- Preempting a thread takes none either. -/
lemma follows_preemptCurrent {regs : Regs} {Q : Unit → Set Lock → Prop} (done : Q () H) :
    (preemptCurrent c regs : M C Unit).Follows Lock.discipline R Q H := by
  simp only [preemptCurrent, follows_bind]
  refine follows_perform fun t => ?_
  cases t with
  | none => exact follows_pure done
  | some t => exact follows_unlock_thread done

/-- After the task was found, `process_lock` is taken and released at most twice. -/
lemma follows_switchTo {currentPid t : Nat} {Q : Decision → Set Lock → Prop}
    (table : R H .processLock) (hH : .processLock ∉ H) (done : ∀ pt, Q (.task t pt) H) :
    (switchTo c currentPid t : M C _).Follows Lock.discipline R Q H := by
  simp only [switchTo, follows_bind]
  refine follows_modify (follows_read fun pid => ?_)
  refine follows_processGetProcessNoLock table hH fun p => ?_
  split
  · exact follows_decideSwitch done
  · split
    · rw [follows_bind]
      exact follows_processGetProcessNoLock table hH fun q => follows_decideSwitch done
    · exact follows_decideSwitch done

/-- `scheduler_schedule` decides with the scheduler's locks held, unless it returns. -/
lemma follows_decideTask {fuel : Nat} {regs : Regs} {Q : Decision → Set Lock → Prop}
    (skip : Q .skip ∅)
    (decided : ∀ d, d ≠ .skip → Q d {.schedulerLock, .entrySchedulerLock}) :
    (decideTask c fuel regs : M C _).Follows Lock.discipline (Order (.schedule fuel regs)) Q ∅ := by
  simp only [decideTask, follows_bind]
  refine follows_read fun r => ?_
  split
  · exact skip
  · simp only [follows_bind]
    refine follows_lockSkippreempt rfl .entry ?_
    rw [insert_empty_eq]
    refine follows_tryLock (fun _ => rfl) ?_ ?_
    · simp only [if_true, follows_bind]
      refine follows_unlockSkippreempt rfl rfl ?_
      rw [Set.sdiff_self]
      exact follows_pure skip
    · rw [if_pos (show Lock.discipline.owned .schedulerLock = true from rfl)]
      simp only [Bool.false_eq_true, if_false, follows_bind]
      refine follows_read fun r => follows_preemptCurrent ?_
      refine follows_nextTaskLoop fun t => ?_
      cases t with
      | none => exact follows_pure (decided _ (by simp))
      | some t => exact follows_switchTo .noLock (by simp) fun pt => decided _ (by simp)

/-- The two locks of the scheduler are released. -/
lemma follows_archSchedulerUnlockLocks {Q : Unit → Set Lock → Prop} (h : Q () ∅) :
    (archSchedulerUnlockLocks c : M C Unit).Follows Lock.discipline R Q
      {.schedulerLock, .entrySchedulerLock} := by
  have rest : ({.schedulerLock, .entrySchedulerLock} : Set Lock) \ {.schedulerLock} =
      {.entrySchedulerLock} := by
    ext l
    cases l <;> simp
  simp only [archSchedulerUnlockLocks, follows_bind]
  refine follows_unlockSkippreempt (by simp) rfl ?_
  rw [rest]
  refine follows_unlockSkippreempt rfl rfl ?_
  rwa [Set.sdiff_self]

/-- Every call asks for its locks in the given order and ends without one. -/
lemma follows_body (call : Call) :
    (call.body cfg c).Follows Lock.discipline (Order call) (fun _ H => H = ∅) ∅ := by
  cases call with
  | schedule fuel regs =>
    simp only [Call.body, schedulerSchedule, follows_bind]
    refine follows_decideTask rfl fun d hd => ?_
    cases d with
    | skip => exact absurd rfl hd
    | idle =>
      simp only [archSchedulerIdle, archSchedulerIdleHalt, follows_bind]
      exact follows_modify (follows_modify (follows_archSchedulerUnlockLocks rfl))
    | task t pt =>
      simp only [archSchedulerSwitchTask, follows_bind]
      exact follows_modify (follows_archSchedulerUnlockLocks (follows_modify rfl))
  | addTask pid tid =>
    simp only [Call.body, schedulerAddTask, follows_bind]
    refine follows_processGetProcess (.table rfl) (.process rfl) (follows_pure rfl) ?_
    simp only [follows_bind]
    refine follows_perform fun t => ?_
    cases t with
    | none =>
      simp only [follows_bind]
      exact follows_unlock rfl rfl (follows_pure (follows_pure (Set.sdiff_self)))
    | some t =>
      have rest : ({.entrySchedulerLock, .process pid} : Set Lock) \ {.entrySchedulerLock} =
          {.process pid} := by
        ext l
        cases l <;> simp
      simp only [follows_bind]
      refine follows_lock rfl .add (follows_perform fun _ => follows_unlock (by simp) rfl ?_)
      rw [rest]
      exact follows_unlock rfl rfl (follows_pure (follows_pure (Set.sdiff_self)))
  | createThread pid entry arg =>
    simp only [Call.body, threadCreate, follows_bind]
    refine follows_processGetProcess (.table rfl) (.process rfl) (follows_pure rfl) ?_
    simp only [follows_bind]
    exact follows_perform fun _ => follows_unlock rfl rfl
      (follows_pure (follows_pure (Set.sdiff_self)))
  | createProcess pageTable =>
    simp only [Call.body, processCreate, follows_bind]
    refine follows_lock rfl .create (follows_perform fun _ => ?_)
    rw [insert_empty_eq]
    exact follows_unlock rfl rfl (follows_pure (follows_pure (Set.sdiff_self)))

end Follows

/-- The CPUs with their calls. -/
abbrev Cpus (C : Type) := Sys C Call Lock (Kernel C) Fault

section Runs
variable {C : Type} [DecidableEq C]

/-- The call that a CPU executes. -/
def callOf (s : Cpus C) (c : C) : Option Call := (s.prog c).map Prod.fst

/-- The CPU executes a call of `scheduler_add_task`. -/
def adding (s : Cpus C) (c : C) : Bool := (callOf s c).any Call.isAddTask

/-- The next step of the CPU does not take `process_lock` in a `process_get_process` for a process
whose lock is held in `scheduler_add_task`. -/
def entersApart (s : Cpus C) (c : C) : Bool :=
  match s.prog c with
  | some (call, .lock .processLock _) =>
    match call.process.bind fun pid => s.holder (.process pid) with
    | some c' => !adding s c'
    | none => true
  | _ => true

/-- Where a `process_get_process` holds `process_lock`, the lock of its process is not held by another
CPU in `scheduler_add_task`. -/
def Separate (s : Cpus C) : Prop :=
  ∀ b c' call pid, callOf s b = some call → call.process = some pid →
    s.holder .processLock = some b → s.holder (.process pid) = some c' → c' ≠ b →
    adding s c' = false

variable {cfg : Config C} {s s' : Cpus C} {b c c' : C} {call : Call}

/-- The calls of the other CPUs stay. -/
lemma callOf_setProg (hc : b ≠ c) {p : Option (Call × M C Unit)} :
    callOf (s.setProg c p) b = callOf s b := by
  rw [callOf, setProg_of_ne hc, callOf]

/-- A CPU that goes on is in the same call. -/
lemma callOf_continue {k : Call} {p q : M C Unit} (h : s.prog c = some (k, p)) (b : C) :
    callOf (s.setProg c (some (k, q))) b = callOf s b := by
  by_cases hb : b = c
  · subst hb
    rw [callOf, setProg_self, callOf, h]
    rfl
  · exact callOf_setProg hb

omit [DecidableEq C] in
/-- The calls and the holders of the locks of processes decide. -/
lemma Separate.congr (hs : Separate s) (calls : ∀ b, callOf s' b = callOf s b)
    (table : ∀ b, s'.holder .processLock = some b → s.holder .processLock = some b)
    (process : ∀ pid b, s'.holder (.process pid) = some b → s.holder (.process pid) = some b) :
    Separate s' := by
  intro b c' call pid hcall hpid hb hc' hne
  rw [adding, calls]
  rw [calls] at hcall
  exact hs b c' call pid hcall hpid (table b hb) (process pid c' hc') hne

/-- A CPU that holds nothing can begin and end a call. -/
lemma Separate.setProg (hs : Separate s) (nothing : heldBy Lock.discipline s c = ∅)
    {p : Option (Call × M C Unit)} : Separate (s.setProg c p) := by
  have other : ∀ b l, Lock.discipline.owned l = true → s.holder l = some b → b ≠ c := by
    rintro b l howned hl rfl
    have member : l ∈ heldBy Lock.discipline s b := ⟨howned, hl⟩
    rw [nothing] at member
    exact member
  intro b c' call pid hcall hpid hb hc' hne
  have hbc := other b _ rfl hb
  have hcc := other c' _ rfl hc'
  rw [adding, callOf_setProg hcc]
  rw [callOf_setProg hbc] at hcall
  exact hs b c' call pid hcall hpid hb hc' hne

/-- The lock of a process is taken under `process_lock`, and `process_lock` as the step allows. -/
lemma Separate.lock {k : Call} {l : Lock} {p : M C Unit} (hs : Separate s)
    (h : s.prog c = some (k, .lock l p)) (order : Order k (heldBy Lock.discipline s c) l)
    (ok : entersApart s c = true) :
    Separate ((s.setHolder l (some c)).setProg c (some (k, p))) := by
  have calls : ∀ b, callOf ((s.setHolder l (some c)).setProg c (some (k, p))) b = callOf s b :=
    fun b => callOf_continue (s := s.setHolder l (some c)) h b
  have own : callOf s c = some k := by rw [callOf, h]; rfl
  intro b c' call pid hcall hpid hb hc' hne
  rw [adding, calls]
  rw [calls] at hcall
  change Function.update s.holder l (some c) .processLock = some b at hb
  change Function.update s.holder l (some c) (.process pid) = some c' at hc'
  by_cases hl : l = .processLock
  · subst hl
    rw [Function.update_self] at hb
    rw [Function.update_of_ne (by simp)] at hc'
    cases hb
    cases own.symm.trans hcall
    simpa [entersApart, h, hpid, hc', adding] using ok
  · rw [Function.update_of_ne (Ne.symm hl)] at hb
    by_cases hl' : l = .process pid
    · subst hl'
      rw [Function.update_self] at hc'
      cases hc'
      -- it holds `process_lock` itself, so it is the CPU in `process_get_process`
      have held : Lock.processLock ∈ heldBy Lock.discipline s c := by
        generalize heldBy Lock.discipline s c = H at order
        cases order with
        | process _ => rfl
      exact absurd (Option.some.inj (held.2.symm.trans hb)) hne
    · rw [Function.update_of_ne (Ne.symm hl')] at hc'
      exact hs b c' call pid hcall hpid hb hc' hne

/-- A step that enters apart keeps the calls separate. -/
lemma Separate.step (hs : Separate s) (hd : Disciplined Lock.discipline Order s)
    (ok : entersApart s c = true) (e : s.step (fun c k => k.body cfg c) c call = some s') :
    Separate s' := by
  have own := hd c
  obtain ⟨h, rfl⟩ | ⟨k, h, rfl⟩ | ⟨k, l, p, h, free, rfl⟩ | ⟨k, l, p, h, free, rfl⟩ |
    ⟨k, l, p, h, rfl⟩ | ⟨k, l, p, h, rfl⟩ | ⟨k, β, f, p, b, d, h, _, rfl⟩ := step_cases e
  all_goals rw [h] at own
  · exact hs.setProg own
  · exact hs.setProg own
  · exact hs.lock h own.2.1 ok
  · -- only `SchedulerLock` and the locks of threads are tried
    have tried := own.1
    refine hs.congr (callOf_continue (s := s.setHolder l (some c)) h) ?_ ?_
    · intro b hb
      cases l with
      | processLock => cases tried rfl
      | _ => simpa [setHolder, Sys.setProg] using hb
    · intro pid b hb
      cases l with
      | process _ => cases tried rfl
      | _ => simpa [setHolder, Sys.setProg] using hb
  · exact hs.congr (callOf_continue h) (fun _ h => h) fun _ _ h => h
  · have released : ∀ l' b, ((s.setHolder l none).setProg c (some (k, p))).holder l' = some b →
        s.holder l' = some b := by
      intro l' b hb
      change Function.update s.holder l none l' = some b at hb
      by_cases hl : l' = l
      · subst hl
        rw [Function.update_self] at hb
        cases hb
      · rwa [Function.update_of_ne hl] at hb
    exact hs.congr (callOf_continue (s := s.setHolder l none) h) (released _) fun _ => released _
  · exact hs.congr (callOf_continue (s := { s with data := d }) h) (fun _ h => h) fun _ _ h => h

/-- The runs in which `process_get_process` begins apart from `scheduler_add_task`. -/
lemma Reachable.separate (h : Reachable (fun c (k : Call) => k.body cfg c) entersApart s) :
    Disciplined Lock.discipline Order s ∧ Separate s := by
  induction h with
  | idle h =>
    refine ⟨h.disciplined, fun b c' call pid _ _ hb => ?_⟩
    rw [h.1] at hb
    cases hb
  | step _ ok e ih => exact ⟨ih.1.step (follows_body _) e, ih.2.step ih.1 ok e⟩

omit [DecidableEq C] in
/-- Where a CPU on a circle of waiting CPUs stands, and what the next one holds. -/
lemma cycle_cases (hd : Disciplined Lock.discipline Order s)
    (h : Relation.TransGen (Waits s) c c) :
    ∃ c', Relation.TransGen (Waits s) c' c' ∧
      ((heldBy Lock.discipline s c = {.schedulerLock, .entrySchedulerLock} ∧
          .processLock ∈ heldBy Lock.discipline s c') ∨
        (∃ call pid, callOf s c = some call ∧ call.process = some pid ∧
          heldBy Lock.discipline s c = {.processLock} ∧
          .process pid ∈ heldBy Lock.discipline s c') ∨
        (∃ pid, adding s c = true ∧ heldBy Lock.discipline s c = {.process pid} ∧
          .entrySchedulerLock ∈ heldBy Lock.discipline s c')) := by
  obtain ⟨c', waits, cycle⟩ := exists_next_of_cycle h
  obtain ⟨k, l, p, hp, order, held⟩ := hd.waits waits
  have own : callOf s c = some k := by rw [callOf, hp]; rfl
  -- another CPU waits for this one, so it holds something
  have some : heldBy Lock.discipline s c ≠ ∅ := by
    obtain ⟨b, prev⟩ := exists_prev_of_cycle h
    obtain ⟨_, l', _, _, _, held'⟩ := hd.waits prev
    exact Set.nonempty_iff_ne_empty.mp ⟨l', held'⟩
  refine ⟨c', cycle, ?_⟩
  generalize heldBy Lock.discipline s c = H at order some
  cases order with
  | entry => exact absurd rfl some
  | noLock => exact .inl ⟨rfl, held⟩
  | create => exact absurd rfl some
  | table _ => exact absurd rfl some
  | process hpid => exact .inr (.inl ⟨k, _, own, hpid, rfl, held⟩)
  | add => exact .inr (.inr ⟨_, by rw [adding, own]; rfl, rfl, held⟩)

omit [DecidableEq C] in
/-- A CPU in `process_get_process` is on no circle: the next one would be in `scheduler_add_task`. -/
lemma Separate.not_cycle {pid : Nat} (hs : Separate s) (hd : Disciplined Lock.discipline Order s)
    (hcall : callOf s c = some call) (hpid : call.process = some pid)
    (held : heldBy Lock.discipline s c = {.processLock})
    (held' : .process pid ∈ heldBy Lock.discipline s c') :
    ¬ Relation.TransGen (Waits s) c' c' := by
  intro cycle
  have table : Lock.processLock ∈ heldBy Lock.discipline s c := by simp [held]
  have hne : c' ≠ c := by
    rintro rfl
    simp [held] at held'
  obtain ⟨_, _, ⟨held₂, _⟩ | ⟨_, _, _, _, held₂, _⟩ | ⟨_, add, _⟩⟩ := cycle_cases hd cycle
  · simp [held₂] at held'
  · simp [held₂] at held'
  · cases add.symm.trans (hs c c' call pid hcall hpid table.2 held'.2 hne)

omit [DecidableEq C] in
/-- A CPU under the scheduler's locks is on no circle: the next one would be in
`process_get_process`. -/
lemma Separate.not_cycle_schedule (hs : Separate s) (hd : Disciplined Lock.discipline Order s)
    (held : heldBy Lock.discipline s c = {.schedulerLock, .entrySchedulerLock}) :
    ¬ Relation.TransGen (Waits s) c c := by
  intro cycle
  have scheduler : Lock.schedulerLock ∈ heldBy Lock.discipline s c := by simp [held]
  obtain ⟨c', cycle', ⟨_, next⟩ | ⟨_, _, _, _, held₂, _⟩ | ⟨_, _, held₂, _⟩⟩ := cycle_cases hd cycle
  · obtain ⟨c'', cycle'', ⟨held₂, _⟩ | ⟨_, _, hcall, hpid, held₂, next'⟩ | ⟨_, _, held₂, _⟩⟩ :=
      cycle_cases hd cycle'
    · simp [held₂] at next
    · exact hs.not_cycle hd hcall hpid held₂ next' cycle''
    · simp [held₂] at next
  · simp [held₂] at scheduler
  · simp [held₂] at scheduler

end Runs

/-- In every run in which no CPU takes `process_lock` in a `process_get_process` for a process whose
lock is held in `scheduler_add_task`, no CPUs wait for each other in a circle. -/
theorem no_wait_cycle {C : Type} [DecidableEq C] {cfg : Config C} {s : Cpus C}
    (h : Reachable (fun c (k : Call) => k.body cfg c) entersApart s) (c : C) :
    ¬ Relation.TransGen (Waits s) c c := by
  obtain ⟨hd, hs⟩ := Reachable.separate h
  intro cycle
  obtain ⟨c', cycle', ⟨held, _⟩ | ⟨_, _, hcall, hpid, held, next⟩ | ⟨_, _, _, next⟩⟩ :=
    cycle_cases hd cycle
  · exact hs.not_cycle_schedule hd held cycle
  · exact hs.not_cycle hd hcall hpid held next cycle'
  · obtain ⟨c'', cycle'', ⟨held, _⟩ | ⟨_, _, _, _, held, _⟩ | ⟨_, _, held, _⟩⟩ :=
      cycle_cases hd cycle'
    · exact hs.not_cycle_schedule hd held cycle'
    · simp [held] at next
    · simp [held] at next

/-- Three CPUs after `scheduler_init`, before their first calls. -/
def threeCpus : Cpus (Fin 3) where
  holder _ := none
  data :=
    match (schedulerInit (.flat 3) 0 0).run (fun _ => false) (.boot (Fin 3)) with
    | .done _ _ k => k
    | _ => .boot (Fin 3)
  prog _ := none

/-- What CPU 2 does, CPU 1 before it takes the lock of process 0, and CPU 0 before it takes
`process_lock` in `scheduler_schedule`. -/
def threeCalls (second : List (Fin 3 × Call)) : List (Fin 3 × Call) :=
  List.replicate 12 (2, .createThread 0 0 0) ++ second ++ List.replicate 4 (1, .createThread 0 0 0) ++
    List.replicate 17 (0, .schedule 2 fun _ => 0)

/-- One CPU spins for `process_lock`, which another one holds in `process_get_process`. -/
theorem no_wait_cycle_twoCpus :
    ∃ s : Cpus (Fin 3), Reachable (fun c (k : Call) => k.body (.flat 3) c) entersApart s ∧
      Waits s 0 1 ∧ ¬ Relation.TransGen (Waits s) 0 0 := by
  have run : (play (fun c (k : Call) => k.body (.flat 3) c) entersApart (threeCalls []) threeCpus).map
      (waitsFor · 0) = some (some 1) := by decide +kernel
  obtain ⟨s, e, waits⟩ := Option.map_eq_some_iff.mp run
  have reached : Reachable (fun c (k : Call) => k.body (.flat 3) c) entersApart s :=
    Reachable.play (.idle ⟨fun _ => rfl, fun _ => rfl⟩) e
  exact ⟨s, reached, waits_of_waitsFor waits, no_wait_cycle reached 0⟩

/-- CPU 0 in `scheduler_schedule` waits for CPU 1 in `process_get_process`, which waits for CPU 2 in
`scheduler_add_task`, which waits for CPU 0. -/
theorem schedule_wait_cycle :
    ∃ s : Cpus (Fin 3), Reachable (fun c (k : Call) => k.body (.flat 3) c) (fun _ _ => true) s ∧
      Relation.TransGen (Waits s) 0 0 := by
  have run : (play (fun c (k : Call) => k.body (.flat 3) c) (fun _ _ => true)
      (threeCalls (List.replicate 9 (2, .addTask 0 1))) threeCpus).map
      (fun s => (s.waitsFor 0, s.waitsFor 1, s.waitsFor 2)) = some (some 1, some 2, some 0) := by
    decide +kernel
  obtain ⟨s, e, waits⟩ := Option.map_eq_some_iff.mp run
  simp only [Prod.mk.injEq] at waits
  obtain ⟨first, second, third⟩ := waits
  refine ⟨s, Reachable.play (.idle ⟨fun _ => rfl, fun _ => rfl⟩) e, ?_⟩
  exact .tail (.tail (.single (waits_of_waitsFor first)) (waits_of_waitsFor second))
    (waits_of_waitsFor third)

end WivOS.Tasking
