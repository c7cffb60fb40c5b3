import Mathlib.Data.Finset.Card
import WivOS.Tasking.Schedule
import WivOS.Tasking.Tables

/-!
# The preemption counters

Any number of CPUs call the lock functions in threads and in `scheduler_schedule`, in any order, with
each call as one step. The locks that a CPU holds are booked as counted or as skipped, by the function
that took them (`Holding`). The preemption counter of each CPU is the number of its counted locks, and
`scheduler_schedule` leaves it as it found it; it goes on to another thread only where it is zero
(`preempt_counter`).
-/

namespace WivOS.Tasking
open WivOS.Lib WivOS.Lib.LockProg WivOS.Lib.CallProg
open WivOS.Lib.LockProg.Prog (run_bind_done)

/-- The locks that a CPU holds: those that were taken through `spinlock_lock` and `spinlock_try_lock`,
and those through the `skippreempt` macros. -/
structure Holding where
  counted : Finset Lock
  skipped : Finset Lock
deriving DecidableEq

namespace Holding

/-- The CPU holds the lock. -/
def Has (g : Holding) (l : Lock) : Prop := l ∈ g.counted ∨ l ∈ g.skipped

def count (g : Holding) (l : Lock) : Holding := { g with counted := insert l g.counted }
def skip (g : Holding) (l : Lock) : Holding := { g with skipped := insert l g.skipped }
def uncount (g : Holding) (l : Lock) : Holding := { g with counted := g.counted.erase l }
def unskip (g : Holding) (l : Lock) : Holding := { g with skipped := g.skipped.erase l }

end Holding

namespace LockCall

/-- The locks after a call that returns. -/
def effect (g : Holding) : LockCall → Bool → Holding
  | lock l, _ => g.count l
  | tryLock l, taken => if taken then g else g.count l
  | unlock l, _ => g.uncount l
  | lockSkip l, _ => g.skip l
  | tryLockSkip l, taken => if taken then g else g.skip l
  | unlockSkip l, _ => g.unskip l

/-- A lock that is taken exists, and one that is released was taken by a function of the same kind. -/
def Paired (locks : Finset Lock) (g : Holding) : LockCall → Prop
  | lock l | tryLock l => l ∈ locks
  | unlock l => l ∈ g.counted
  | lockSkip _ | tryLockSkip _ => True
  | unlockSkip l => l ∈ g.skipped

/-- The functions that threads call. -/
def Counted : LockCall → Bool
  | lock _ | tryLock _ | unlock _ => true
  | lockSkip _ | tryLockSkip _ | unlockSkip _ => false

end LockCall

variable {C : Type}

/-- The tasks of the table have their own numbers. -/
def Tasks (k : Kernel C) : Prop :=
  ∀ i t, k.activeTasks i = .thread t →
    (k.threads t).taskID < maxThreads * 2 ∧ k.activeTasks (k.threads t).taskID = .thread t

/-- What code of a CPU may change between two lock calls: no counter, not the task of another CPU, and
no task of the table. -/
structure Interferes (c : C) (k k' : Kernel C) : Prop where
  counter : ∀ c', (k'.cpus c').preemptCounter = (k.cpus c').preemptCounter
  task : ∀ c', c' ≠ c → (k'.cpus c').currentTaskID = (k.cpus c').currentTaskID
  slots : ∀ i t, k.activeTasks i = .thread t → k'.activeTasks i = .thread t
  tasks : Tasks k → Tasks k'

/-- A fact that only the CPU itself breaks. -/
def Stable (c : C) (P : Kernel C → Prop) : Prop :=
  ∀ k k', (k'.cpus c).currentTaskID = (k.cpus c).currentTaskID →
    (∀ i t, k.activeTasks i = .thread t → k'.activeTasks i = .thread t) → P k → P k'

/-- The CPU executes no thread, or one whose lock it holds. -/
def Current (c : C) (g : Holding) (k : Kernel C) : Prop :=
  (k.cpus c).currentTaskID = minusOne ∨
    ∃ t, k.activeTasks (k.cpus c).currentTaskID = .thread t ∧ Lock.thread t ∈ g.skipped

/-- All of the locks are locks of threads. -/
def OnlyThreads (locks : Finset Lock) : Prop := ∀ l ∈ locks, ∃ t, l = .thread t

/-- What a CPU had when `scheduler_schedule` was entered. -/
structure Entry where
  counted : Finset Lock
  counter : BitVec 64

/-- A CPU executes a thread, or is in `scheduler_schedule`. -/
inductive Control (C : Type) : Type 1 where
  | running
  | scheduling (entry : Entry) (code : Code C Decision)

/-- The CPUs with their locks. -/
structure Harts (C : Type) : Type 1 where
  locked : Lock → Bool
  kernel : Kernel C
  control : C → Control C
  holding : C → Holding

variable [DecidableEq C]

/-- One step of a CPU, with the locks that exist. -/
inductive HartStep (cfg : Config C) (locks : Finset Lock) : Harts C → Harts C → Prop where
  /-- A thread calls a lock function. -/
  | thread {s : Harts C} {c r locked' k'} {q : LockCall} :
      s.control c = .running → q.Counted = true → q.Paired locks (s.holding c) →
      (q.body c).run s.locked s.kernel = .done r locked' k' →
      HartStep cfg locks s
        ⟨locked', k', s.control, Function.update s.holding c (q.effect (s.holding c) r)⟩
  /-- A thread does something else. -/
  | execute {s : Harts C} {c k'} :
      s.control c = .running → Interferes c s.kernel k' →
      (k'.cpus c).currentTaskID = (s.kernel.cpus c).currentTaskID →
      HartStep cfg locks s ⟨s.locked, k', s.control, s.holding⟩
  /-- The reschedule interrupt. -/
  | interrupt {s : Harts C} {c} (fuel : Nat) (regs : Regs) :
      s.control c = .running →
      HartStep cfg locks s ⟨s.locked, s.kernel, Function.update s.control c
        (.scheduling ⟨(s.holding c).counted, (s.kernel.cpus c).preemptCounter⟩
          (Code.schedulerSchedule cfg c fuel regs)), s.holding⟩
  | call {s : Harts C} {c entry k r locked' k'} {q : LockCall} :
      s.control c = .scheduling entry (.call q k) →
      (q.body c).run s.locked s.kernel = .done r locked' k' →
      HartStep cfg locks s ⟨locked', k', Function.update s.control c (.scheduling entry (k r)),
        Function.update s.holding c (q.effect (s.holding c) r)⟩
  | act {s : Harts C} {c entry β} {f : Kernel C → Except Fault (β × Kernel C)} {k b k'} :
      s.control c = .scheduling entry (.act f k) → f s.kernel = .ok (b, k') →
      HartStep cfg locks s
        ⟨s.locked, k', Function.update s.control c (.scheduling entry (k b)), s.holding⟩
  /-- `scheduler_schedule` returns, or the CPU goes on with another thread or idles. -/
  | exit {s : Harts C} {c entry d} :
      s.control c = .scheduling entry (.ret d) →
      HartStep cfg locks s ⟨s.locked, s.kernel, Function.update s.control c .running, s.holding⟩

/-- The states of the runs after `riscv_cpu_init`. -/
inductive HartsReachable (cfg : Config C) (locks : Finset Lock) : Harts C → Prop where
  | init {k} : (∀ c, (k.cpus c).preemptCounter = 0) → (∀ c, (k.cpus c).currentTaskID = minusOne) →
      Tasks k → HartsReachable cfg locks ⟨fun _ => false, k, fun _ => .running, fun _ => ⟨∅, ∅⟩⟩
  | step {s s'} : HartsReachable cfg locks s → HartStep cfg locks s s' → HartsReachable cfg locks s'

/-- What a call does to the locks and to the counter of its CPU. -/
inductive Moves (c : C) (locks : Finset Lock) (g : Holding) (locked : Lock → Bool) (k : Kernel C) :
    Holding → (Lock → Bool) → Kernel C → Prop where
  | count {l} : l ∈ locks → locked l = false →
      Moves c locks g locked k (g.count l) (Function.update locked l true) (k.addPreempt c 1)
  | uncount {l} : l ∈ g.counted →
      Moves c locks g locked k (g.uncount l) (Function.update locked l false) (k.addPreempt c (-1))
  | skip {l} : locked l = false →
      Moves c locks g locked k (g.skip l) (Function.update locked l true) k
  | unskip {l} : l ∈ g.skipped →
      Moves c locks g locked k (g.unskip l) (Function.update locked l false) k
  | fail : Moves c locks g locked k g locked k

section Moves
variable {c : C} {locks : Finset Lock} {g : Holding} {locked locked' : Lock → Bool} {k k' : Kernel C}

/-- The increments and decrements of each function and macro cancel but for the lock itself. -/
lemma LockCall.moves {q : LockCall} {r : Bool} (paired : q.Paired locks g)
    (run : (q.body c).run locked k = .done r locked' k') :
    Moves c locks g locked k (q.effect g r) locked' k' := by
  cases q with
  | lock l =>
    obtain ⟨_, _, _, first, rest⟩ := run_bind_done run
    have free := run_lock_done first
    rw [run_lock free] at first
    cases first
    cases rest
    exact .count paired free
  | tryLock l =>
    have run : (spinlockTryLock c l).run locked k = .done r locked' k' := run
    cases free : locked l with
    | false =>
      rw [run_spinlockTryLock_free free] at run
      cases run
      exact .count paired free
    | true =>
      rw [run_spinlockTryLock_taken free] at run
      cases run
      exact .fail
  | unlock l =>
    obtain ⟨_, _, _, first, rest⟩ := run_bind_done run
    rw [run_unlock] at first
    cases first
    cases rest
    exact .uncount paired
  | lockSkip l =>
    obtain ⟨_, _, _, first, rest⟩ := run_bind_done run
    obtain ⟨_, _, _, lock, _⟩ := run_bind_done first
    have free := run_lock_done lock
    rw [run_lockSkippreempt free] at first
    cases first
    cases rest
    exact .skip free
  | tryLockSkip l =>
    have run : (spinlockTryLockSkippreempt c l).run locked k = .done r locked' k' := run
    cases free : locked l with
    | false =>
      rw [run_tryLock_free free] at run
      cases run
      exact .skip free
    | true =>
      rw [run_tryLock_taken free] at run
      cases run
      exact .fail
  | unlockSkip l =>
    obtain ⟨_, _, _, first, rest⟩ := run_bind_done run
    rw [run_unlockSkippreempt] at first
    cases first
    cases rest
    exact .unskip paired

end Moves

/-- The books are right: every lock that is booked is taken, it is booked once and for one CPU, and the
counters are the numbers of the counted locks. -/
structure Books (locks : Finset Lock) (locked : Lock → Bool) (k : Kernel C) (g : C → Holding) :
    Prop where
  counter : ∀ c, (k.cpus c).preemptCounter = BitVec.ofNat 64 (g c).counted.card
  exist : ∀ c, (g c).counted ⊆ locks
  locked : ∀ {c l}, (g c).Has l → locked l = true
  kinds : ∀ {c l}, l ∈ (g c).counted → l ∉ (g c).skipped
  owner : ∀ {c c' l}, (g c).Has l → (g c').Has l → c' = c

section Books
variable {c : C} {locks : Finset Lock} {g : C → Holding} {g' : Holding} {locked locked' : Lock → Bool}
  {k k' : Kernel C}

/-- The counter of one CPU changes. -/
lemma addPreempt_counter (d : BitVec 64) (c' : C) :
    ((k.addPreempt c d).cpus c').preemptCounter =
      if c' = c then (k.cpus c).preemptCounter + d else (k.cpus c').preemptCounter := by
  by_cases h : c' = c
  · subst h
    simp [Kernel.addPreempt, Kernel.setCpu]
  · simp [Kernel.addPreempt, Kernel.setCpu, h]

/-- A lock that was free is booked. -/
lemma Books.take {l : Lock} (h : Books locks locked k g) (free : locked l = false)
    (has : ∀ l', g'.Has l' ↔ l' = l ∨ (g c).Has l') (kinds : ∀ l', l' ∈ g'.counted → l' ∉ g'.skipped)
    (exist : g'.counted ⊆ locks)
    (counter : ∀ c', (k'.cpus c').preemptCounter =
      BitVec.ofNat 64 (Function.update g c g' c').counted.card) :
    Books locks (Function.update locked l true) k' (Function.update g c g') := by
  have new : ∀ c', ¬ (g c').Has l := by
    intro c' hl
    cases free.symm.trans (h.locked hl)
  have booked : ∀ {c' l'}, (Function.update g c g' c').Has l' → (c' = c ∧ l' = l) ∨ (g c').Has l' := by
    intro c' l' hl
    by_cases hc : c' = c
    · subst hc
      rw [Function.update_self, has] at hl
      obtain rfl | hl := hl
      · exact .inl ⟨rfl, rfl⟩
      · exact .inr hl
    · rw [Function.update_of_ne hc] at hl
      exact .inr hl
  refine ⟨counter, ?_, ?_, ?_, ?_⟩
  · intro c'
    by_cases hc : c' = c
    · subst hc
      rwa [Function.update_self]
    · rw [Function.update_of_ne hc]
      exact h.exist c'
  · intro c' l' hl
    obtain ⟨_, rfl⟩ | hl := booked hl
    · exact Function.update_self ..
    · rw [Function.update_apply]
      split
      · rfl
      · exact h.locked hl
  · intro c' l' hl
    by_cases hc : c' = c
    · subst hc
      rw [Function.update_self] at hl ⊢
      exact kinds l' hl
    · rw [Function.update_of_ne hc] at hl ⊢
      exact h.kinds hl
  · intro c₁ c₂ l' h₁ h₂
    obtain ⟨rfl, rfl⟩ | old₁ := booked h₁
    · obtain ⟨rfl, _⟩ | old₂ := booked h₂
      · rfl
      · exact absurd old₂ (new c₂)
    · obtain ⟨rfl, rfl⟩ | old₂ := booked h₂
      · exact absurd old₁ (new c₁)
      · exact h.owner old₁ old₂

/-- A lock that was booked is released. -/
lemma Books.free {l : Lock} (h : Books locks locked k g) (held : (g c).Has l)
    (has : ∀ l', g'.Has l' ↔ l' ≠ l ∧ (g c).Has l') (kinds : ∀ l', l' ∈ g'.counted → l' ∉ g'.skipped)
    (exist : g'.counted ⊆ locks)
    (counter : ∀ c', (k'.cpus c').preemptCounter =
      BitVec.ofNat 64 (Function.update g c g' c').counted.card) :
    Books locks (Function.update locked l false) k' (Function.update g c g') := by
  have booked : ∀ {c' l'}, (Function.update g c g' c').Has l' → l' ≠ l ∧ (g c').Has l' := by
    intro c' l' hl
    by_cases hc : c' = c
    · subst hc
      rwa [Function.update_self, has] at hl
    · rw [Function.update_of_ne hc] at hl
      refine ⟨?_, hl⟩
      rintro rfl
      exact hc (h.owner held hl)
  refine ⟨counter, ?_, ?_, ?_, ?_⟩
  · intro c'
    by_cases hc : c' = c
    · subst hc
      rwa [Function.update_self]
    · rw [Function.update_of_ne hc]
      exact h.exist c'
  · intro c' l' hl
    obtain ⟨hne, hl⟩ := booked hl
    rw [Function.update_of_ne hne]
    exact h.locked hl
  · intro c' l' hl
    by_cases hc : c' = c
    · subst hc
      rw [Function.update_self] at hl ⊢
      exact kinds l' hl
    · rw [Function.update_of_ne hc] at hl ⊢
      exact h.kinds hl
  · intro c₁ c₂ l' h₁ h₂
    exact h.owner (booked h₁).2 (booked h₂).2

omit [DecidableEq C] in
/-- Nothing that is booked changes. -/
lemma Books.congr (h : Books locks locked k g)
    (counter : ∀ c, (k'.cpus c).preemptCounter = (k.cpus c).preemptCounter) :
    Books locks locked k' g :=
  { h with counter := fun c => (counter c).trans (h.counter c) }

/-- The books after a call. -/
lemma Books.moves (h : Books locks locked k g) (move : Moves c locks (g c) locked k g' locked' k') :
    Books locks locked' k' (Function.update g c g') := by
  -- the counter of `c` moves with its locks, those of the other CPUs stay
  have others : ∀ {g₁ : Holding} {d : BitVec 64},
      (k.cpus c).preemptCounter + d = BitVec.ofNat 64 g₁.counted.card →
      ∀ c', ((k.addPreempt c d).cpus c').preemptCounter =
        BitVec.ofNat 64 (Function.update g c g₁ c').counted.card := by
    intro g₁ d own c'
    rw [addPreempt_counter]
    by_cases hc : c' = c
    · subst hc
      rw [if_pos rfl, Function.update_self, own]
    · rw [if_neg hc, Function.update_of_ne hc, h.counter]
  have same : ∀ {g₁ : Holding}, g₁.counted = (g c).counted → ∀ c', (k.cpus c').preemptCounter =
      BitVec.ofNat 64 (Function.update g c g₁ c').counted.card := by
    intro g₁ eq c'
    by_cases hc : c' = c
    · subst hc
      rw [Function.update_self, eq, h.counter]
    · rw [Function.update_of_ne hc, h.counter]
  cases move with
  | @count l exist free =>
    have new : ¬ (g c).Has l := fun hl => Bool.false_ne_true (free.symm.trans (h.locked hl))
    refine h.take free ?_ ?_ ?_ (others ?_)
    · intro l'
      simp [Holding.Has, Holding.count, or_assoc]
    · intro l' hl
      obtain rfl | hl := Finset.mem_insert.mp hl
      · exact fun hs => new (.inr hs)
      · exact h.kinds hl
    · exact Finset.insert_subset exist (h.exist c)
    · have absent : l ∉ (g c).counted := fun hl => new (.inl hl)
      rw [Holding.count, Finset.card_insert_of_notMem absent, h.counter]
      exact (BitVec.ofNat_add _ _).symm
  | @uncount l held =>
    refine h.free (.inl held) ?_ ?_ ?_ (others ?_)
    · intro l'
      have kind := h.kinds held
      simp only [Holding.Has, Holding.uncount, Finset.mem_erase]
      constructor
      · rintro (⟨hne, hl⟩ | hl)
        · exact ⟨hne, .inl hl⟩
        · exact ⟨fun e => kind (e ▸ hl), .inr hl⟩
      · rintro ⟨hne, hl | hl⟩
        · exact .inl ⟨hne, hl⟩
        · exact .inr hl
    · intro l' hl
      exact h.kinds (Finset.mem_of_mem_erase hl)
    · exact (Finset.erase_subset _ _).trans (h.exist c)
    · have card := Finset.card_erase_add_one held
      rw [Holding.uncount, h.counter, ← card, BitVec.ofNat_add]
      simp [BitVec.add_assoc]
  | @skip l free =>
    have new : ¬ (g c).Has l := fun hl => Bool.false_ne_true (free.symm.trans (h.locked hl))
    refine h.take free ?_ ?_ (h.exist c) (same rfl)
    · intro l'
      simp only [Holding.Has, Holding.skip, Finset.mem_insert]
      tauto
    · intro l' hl hs
      obtain rfl | hs := Finset.mem_insert.mp hs
      · exact new (.inl hl)
      · exact h.kinds hl hs
  | @unskip l held =>
    refine h.free (.inr held) ?_ ?_ (h.exist c) (same rfl)
    · intro l'
      simp only [Holding.Has, Holding.unskip, Finset.mem_erase]
      constructor
      · rintro (hl | ⟨hne, hl⟩)
        · exact ⟨fun e => h.kinds hl (e ▸ held), .inl hl⟩
        · exact ⟨hne, .inr hl⟩
      · rintro ⟨hne, hl | hl⟩
        · exact .inl hl
        · exact .inr ⟨hne, hl⟩
    · intro l' hl hs
      exact h.kinds hl (Finset.mem_of_mem_erase hs)
  | fail =>
    rw [Function.update_eq_self]
    exact h

end Books

/-- The rules of a CPU in `scheduler_schedule`. -/
def rules (locks : Finset Lock) (c : C) : Rules LockCall (Kernel C) Holding where
  allowed g q := q.Paired locks g
  effect g q r := q.effect g r
  stable := Stable c
  valid g k := (k.cpus c).preemptCounter = BitVec.ofNat 64 g.counted.card ∧ g.counted ⊆ locks ∧ Tasks k
  guarantee := Interferes c

/-- The CPU is under the locks of the scheduler. -/
structure Within (g : Holding) : Prop where
  counted : g.counted = ∅
  entry : .entrySchedulerLock ∈ g.skipped
  scheduler : .schedulerLock ∈ g.skipped
  others : ∀ l ∈ g.skipped, l = .entrySchedulerLock ∨ l = .schedulerLock ∨ ∃ t, l = .thread t

/-- The CPU's task is a thread of the table. -/
def Executing (c : C) (t : Nat) (k : Kernel C) : Prop :=
  k.activeTasks (k.cpus c).currentTaskID = .thread t

/-- How `scheduler_schedule` leaves the locks. -/
def Ends (c : C) (entry : Entry) (d : Decision) (g : Holding) (P : Kernel C → Prop) : Prop :=
  g.counted = entry.counted ∧ (d ≠ .skip → entry.counted = ∅) ∧ OnlyThreads g.skipped ∧
    ∀ k, P k → Current c g k

section Safe
omit [DecidableEq C]
variable {c : C} {locks : Finset Lock} {g : Holding} {k k' : Kernel C} {P P' : Kernel C → Prop}

/-- Code that leaves counters, the other tasks and the table. -/
lemma Interferes.of_eq (counter : ∀ c', (k'.cpus c').preemptCounter = (k.cpus c').preemptCounter)
    (task : ∀ c', c' ≠ c → (k'.cpus c').currentTaskID = (k.cpus c').currentTaskID)
    (slots : k'.activeTasks = k.activeTasks)
    (ids : ∀ t, (k'.threads t).taskID = (k.threads t).taskID) : Interferes c k k' := by
  refine ⟨counter, task, ?_, ?_⟩
  · intro i t h
    rwa [slots]
  · intro h i t hi
    rw [slots] at hi
    rw [slots, ids]
    exact h i t hi

/-- Code that changes nothing. -/
lemma Interferes.refl (c : C) (k : Kernel C) : Interferes c k k :=
  .of_eq (fun _ => rfl) (fun _ _ => rfl) rfl fun _ => rfl

/-- No other CPU changes which thread a CPU executes. -/
lemma stable_executing (c : C) (t : Nat) : Stable c (Executing c t) := by
  intro k k' task slots h
  unfold Executing at h ⊢
  rw [task]
  exact slots _ t h

/-- Nothing to break. -/
lemma stable_true (c : C) : Stable c fun _ => True := fun _ _ _ _ h => h

/-- No other CPU changes that a CPU holds the lock of its thread. -/
lemma stable_current (c : C) (g : Holding) : Stable c (Current c g) := by
  intro k k' task slots h
  unfold Current at h ⊢
  rw [task]
  obtain h | ⟨t, ht, held⟩ := h
  · exact .inl h
  · exact .inr ⟨t, slots _ t ht, held⟩

/-- An action that changes nothing. -/
lemma safe_look {α : Type} {f : Kernel C → Except Fault (α × Kernel C)}
    {post : α → Holding → (Kernel C → Prop) → Prop} (stable : Stable c P)
    (same : ∀ k a k', f k = .ok (a, k') → k' = k)
    (rest : ∀ k a k', (rules locks c).valid g k → P k → f k = .ok (a, k') → post a g P) :
    (perform f : Code C α).Safe (rules locks c) post g P := by
  intro k a k' valid fact run
  obtain rfl := same k a k' run
  exact ⟨.refl c _, P, stable, fact, rest _ a _ valid fact run⟩

/-- A read, after which the others have not broken what is known. -/
lemma safe_read {α : Type} {f : Kernel C → α} {post : α → Holding → (Kernel C → Prop) → Prop}
    (stable : Stable c P) (rest : ∀ k, (rules locks c).valid g k → P k → post (f k) g P) :
    (read f : Code C α).Safe (rules locks c) post g P := by
  refine safe_look stable ?_ ?_
  · intro k a k' h
    cases h
    rfl
  · intro k a k' valid fact h
    cases h
    exact rest _ valid fact

/-- A write that interferes with no other CPU. -/
lemma safe_modify {f : Kernel C → Kernel C} {post : Unit → Holding → (Kernel C → Prop) → Prop}
    (stable : Stable c P') (kept : ∀ k, Interferes c k (f k))
    (fact : ∀ k, (rules locks c).valid g k → P k → P' (f k)) (rest : post () g P') :
    (modify f : Code C Unit).Safe (rules locks c) post g P := by
  intro k a k' valid known run
  cases run
  exact ⟨kept k, P', stable, fact k valid known, rest⟩

end Safe

section Schedule
variable {c : C} {locks : Finset Lock} {g : Holding} {P : Kernel C → Prop}

/-- A lock that is taken and released is not booked any more. -/
lemma Holding.uncount_count {l : Lock} (absent : l ∉ g.counted) : (g.count l).uncount l = g := by
  obtain ⟨counted, skipped⟩ := g
  simp only [Holding.count, Holding.uncount, Finset.erase_insert absent]

/-- A lock just taken is released. -/
lemma Holding.unskip_skip {l : Lock} (absent : l ∉ g.skipped) : (g.skip l).unskip l = g := by
  obtain ⟨counted, skipped⟩ := g
  simp only [Holding.skip, Holding.unskip, Finset.erase_insert absent]

/-- Taking the lock of a thread under the scheduler's locks. -/
lemma Within.skip (h : Within g) (t : Nat) : Within (g.skip (.thread t)) where
  counted := h.counted
  entry := Finset.mem_insert_of_mem h.entry
  scheduler := Finset.mem_insert_of_mem h.scheduler
  others := by
    intro l hl
    obtain rfl | hl := Finset.mem_insert.mp hl
    · exact .inr (.inr ⟨t, rfl⟩)
    · exact h.others l hl

/-- And releasing it. -/
lemma Within.unskip (h : Within g) (t : Nat) : Within (g.unskip (.thread t)) where
  counted := h.counted
  entry := Finset.mem_erase_of_ne_of_mem (by simp) h.entry
  scheduler := Finset.mem_erase_of_ne_of_mem (by simp) h.scheduler
  others l hl := h.others l (Finset.mem_of_mem_erase hl)

omit [DecidableEq C] in
/-- The process table is locked through the counted functions, and unlocked again. -/
lemma processGetProcessNoLock_safe (table : .processLock ∈ locks) (empty : g.counted = ∅)
    (stable : Stable c P) (pid : Nat) :
    (Code.processGetProcessNoLock pid : Code C _).Safe (rules locks c)
      (fun _ g' P' => g' = g ∧ P' = P) g P := by
  unfold Code.processGetProcessNoLock
  split
  · exact ⟨rfl, rfl⟩
  · refine (safe_bind ..).mpr (safe_invoke table fun _ => ?_)
    refine (safe_bind ..).mpr (safe_read stable fun k _ _ => ?_)
    refine (safe_bind ..).mpr (safe_invoke (Finset.mem_insert_self ..) fun _ => ⟨?_, rfl⟩)
    exact Holding.uncount_count (by simp [empty])

omit [DecidableEq C] in
/-- The search for a task takes the lock of the thread that it returns. -/
lemma nextTaskLoop_safe (within : Within g) (stable : Stable c P) (fuel i currentTask : Nat) :
    (Code.nextTaskLoop fuel i currentTask : Code C _).Safe (rules locks c)
      (fun r g' P' => Within g' ∧ Stable c P' ∧ ∀ t, r = some t →
        .thread t ∈ g'.skipped ∧ ∀ k, P' k → ∃ i, k.activeTasks i = .thread t) g P := by
  induction fuel generalizing P i currentTask with
  | zero =>
    intro k a k' _ _ run
    cases run
  | succ fuel ih =>
    unfold Code.nextTaskLoop
    refine (safe_bind ..).mpr (safe_read stable fun k _ _ => ?_)
    split
    · exact ⟨within, stable, fun t h => by cases h⟩
    · refine (safe_bind ..).mpr ?_
      intro k r k' _ known run
      obtain ⟨slot, at_⟩ := r
      have run : (k.taskFrom currentTask).map (·, k) = .ok ((slot, at_), k') := run
      cases look : k.taskFrom currentTask with
      | error e =>
        rw [look] at run
        cases run
      | ok found =>
        rw [look] at run
        cases run
        have slot_eq := (taskFrom_ok look).2
        refine ⟨.refl c k, ?_⟩
        cases slot with
        | null => exact ⟨P, stable, known, within, stable, fun t h => by cases h⟩
        | deleted => exact ⟨P, stable, known, ih stable ..⟩
        | thread t =>
          have active : Stable c fun k => ∃ i, k.activeTasks i = .thread t := by
            rintro k k' _ slots ⟨i, hi⟩
            exact ⟨i, slots i t hi⟩
          refine ⟨_, active, ⟨_, slot_eq⟩, trivial, fun taken => ?_⟩
          cases taken with
          | true => exact ih active ..
          | false =>
            refine ⟨within.skip t, active, fun t' h => ?_⟩
            cases h
            exact ⟨Finset.mem_insert_self .., fun k h => h⟩

omit [DecidableEq C] in
/-- The thread that a CPU executes is unlocked. -/
lemma preemptCurrent_safe (within : Within g) (current : ∀ k, P k → Current c g k) (regs : Regs) :
    (Code.preemptCurrent c regs).Safe (rules locks c)
      (fun _ g' P' => Within g' ∧ Stable c P') g P := by
  refine (safe_bind ..).mpr ?_
  intro k o k' _ known run
  have run : storeCurrent c regs k = .ok (o, k') := run
  unfold storeCurrent at run
  dsimp only at run
  split at run
  · cases run
    exact ⟨.refl c k, _, stable_true c, trivial, within, stable_true c⟩
  · rename_i busy
    split at run
    · cases run
    · rename_i t look
      cases run
      refine ⟨.of_eq (fun _ => rfl) (fun _ _ => rfl) rfl ?_, _, stable_true c, trivial, ?_⟩
      · intro t'
        by_cases ht : t' = t
        · subst ht
          simp [Kernel.setThread]
        · simp [Kernel.setThread, ht]
      · obtain idle | ⟨t', slot, held⟩ := current k known
        · exact absurd idle busy
        · obtain rfl : t' = t := by
            rw [(activeTask_ok look).2] at slot
            cases slot
            rfl
          exact safe_invoke held fun _ => ⟨within.unskip t', stable_true c⟩
    · cases run
      exact ⟨.refl c k, _, stable_true c, trivial, within, stable_true c⟩

omit [DecidableEq C] in
/-- The end of `scheduler_schedule` decides for the thread found. -/
lemma decideSwitch_safe (stable : Stable c P) (currentPid t : Nat) (process currentProcess : Option Process) :
    (Code.decideSwitch currentPid t process currentProcess : Code C _).Safe (rules locks c)
      (fun d g' P' => (∃ pageTable, d = .task t pageTable) ∧ g' = g ∧ P' = P) g P := by
  have look : ∀ {process} {post : Nat → Holding → (Kernel C → Prop) → Prop}, (∀ n, post n g P) →
      (Code.pageTableOf process : Code C _).Safe (rules locks c) post g P := by
    intro process post rest
    refine safe_look stable ?_ fun _ n _ _ _ _ => rest n
    intro k a k' run
    cases process with
    | none => cases run
    | some process =>
      cases run
      rfl
  unfold Code.decideSwitch
  split
  · exact (safe_bind ..).mpr (look fun _ => ⟨⟨_, rfl⟩, rfl, rfl⟩)
  · refine (safe_bind ..).mpr (look fun _ => ?_)
    exact (safe_bind ..).mpr (look fun _ => ⟨⟨_, rfl⟩, rfl, rfl⟩)

/-- The task that was found becomes the one of the CPU. -/
lemma switchTo_safe (table : .processLock ∈ locks) (within : Within g) {t : Nat}
    (active : ∀ k, P k → ∃ i, k.activeTasks i = .thread t) (currentPid : Nat) :
    (Code.switchTo c currentPid t).Safe (rules locks c)
      (fun d g' P' => (∃ pageTable, d = .task t pageTable) ∧ g' = g ∧ P' = Executing c t) g P := by
  have stable := stable_executing c t
  have kept : ∀ k : Kernel C, Interferes c k (makeCurrent c t k) := by
    intro k
    refine .of_eq ?_ ?_ rfl ?_
    · intro c'
      by_cases hc : c' = c
      · subst hc
        simp [makeCurrent, Kernel.setCpu, Kernel.setThread]
      · simp [makeCurrent, Kernel.setCpu, Kernel.setThread, hc]
    · intro c' hc
      simp [makeCurrent, Kernel.setCpu, Kernel.setThread, hc]
    · intro t'
      by_cases ht : t' = t
      · subst ht
        simp [makeCurrent, Kernel.setCpu, Kernel.setThread]
      · simp [makeCurrent, Kernel.setCpu, Kernel.setThread, ht]
  have executing : ∀ k, (rules locks c).valid g k → P k → Executing c t (makeCurrent c t k) := by
    rintro k ⟨_, _, tasks⟩ known
    obtain ⟨i, hi⟩ := active k known
    have := (tasks i t hi).2
    simpa [Executing, makeCurrent, Kernel.setCpu, Kernel.setThread] using this
  unfold Code.switchTo
  refine (safe_bind ..).mpr (safe_modify stable kept executing ?_)
  refine (safe_bind ..).mpr (safe_read stable fun k _ _ => ?_)
  refine (processGetProcessNoLock_safe table within.counted stable _).bind ?_
  rintro process _ _ ⟨rfl, rfl⟩
  split
  · exact decideSwitch_safe stable ..
  · split
    · refine (processGetProcessNoLock_safe table within.counted stable _).bind ?_
      rintro process _ _ ⟨rfl, rfl⟩
      exact decideSwitch_safe stable ..
    · exact decideSwitch_safe stable ..

/-- What `scheduler_schedule` decides, with the locks under which it does. -/
def Decides (c : C) (g : Holding) (P : Kernel C → Prop) (d : Decision) (g' : Holding)
    (P' : Kernel C → Prop) : Prop :=
  match d with
  | .skip => g' = g ∧ P' = P
  | .idle => g.counted = ∅ ∧ Within g'
  | .task t _ => g.counted = ∅ ∧ Within g' ∧ .thread t ∈ g'.skipped ∧ P' = Executing c t

/-- `scheduler_schedule` pairs its locks up to its decision. -/
lemma decideTask_safe (small : locks.card < 2 ^ 62) (table : .processLock ∈ locks)
    (threads : OnlyThreads g.skipped) (stable : Stable c P) (current : ∀ k, P k → Current c g k)
    (fuel : Nat) (regs : Regs) :
    (Code.decideTask c fuel regs).Safe (rules locks c) (Decides c g P) g P := by
  have noEntry : .entrySchedulerLock ∉ g.skipped := by
    intro h
    obtain ⟨t, ht⟩ := threads _ h
    cases ht
  unfold Code.decideTask
  refine (safe_bind ..).mpr (safe_read stable ?_)
  rintro k ⟨counter, exist, _⟩ _
  dsimp only
  split
  · exact ⟨rfl, rfl⟩
  · rename_i zero
    -- the counter is zero, so nothing is counted
    have empty : g.counted = ∅ := by
      have zero : (k.cpus c).preemptCounter = 0 := by
        by_contra h
        exact zero (.inr h)
      have bound := Finset.card_le_card exist
      have none : g.counted.card % 2 ^ 64 = 0 := by
        have := congrArg BitVec.toNat (counter.symm.trans zero)
        simpa using this
      rw [← Finset.card_eq_zero]
      omega
    refine (safe_bind ..).mpr (safe_invoke trivial fun _ => ?_)
    -- the scheduler lock may be taken; then the entry lock is released and nothing is decided
    refine (safe_bind ..).mpr (safe_ask trivial fun taken => ?_)
    cases taken with
    | true =>
      refine (safe_bind ..).mpr (safe_invoke (Finset.mem_insert_self ..) fun _ => ⟨?_, rfl⟩)
      exact Holding.unskip_skip noEntry
    | false =>
      -- from here on the locks taken are not counted
      let g₂ := (g.skip .entrySchedulerLock).skip .schedulerLock
      have within : Within g₂ := by
        refine ⟨empty, by simp [g₂, Holding.skip], by simp [g₂, Holding.skip], ?_⟩
        intro l hl
        simp only [g₂, Holding.skip, Finset.mem_insert] at hl
        obtain rfl | rfl | hl := hl
        · exact .inr (.inl rfl)
        · exact .inl rfl
        · exact .inr (.inr (threads l hl))
      have current₂ : ∀ k, P k → Current c g₂ k := by
        intro k known
        obtain idle | ⟨t, slot, held⟩ := current k known
        · exact .inl idle
        · exact .inr ⟨t, slot, Finset.mem_insert_of_mem (Finset.mem_insert_of_mem held)⟩
      show Safe (rules locks c) _ _ g₂ P
      simp only [Bool.false_eq_true, if_false]
      refine (safe_bind ..).mpr (safe_read stable fun k _ _ => ?_)
      refine (preemptCurrent_safe within current₂ regs).bind ?_
      rintro _ g₃ P₃ ⟨within₃, stable₃⟩
      refine (nextTaskLoop_safe within₃ stable₃ ..).bind ?_
      rintro task g₄ P₄ ⟨within₄, _, found⟩
      cases task with
      | none => exact ⟨empty, within₄⟩
      | some t =>
        obtain ⟨held, active⟩ := found t rfl
        refine (switchTo_safe table within₄ active _).mono ?_
        rintro d g₅ P₅ ⟨⟨_, rfl⟩, rfl, rfl⟩
        exact ⟨empty, within₄, held, rfl⟩

omit [DecidableEq C] in
/-- `arch_scheduler_unlock_locks` leaves the locks of threads. -/
lemma unlockLocks_safe (within : Within g) :
    (Code.archSchedulerUnlockLocks : Code C _).Safe (rules locks c)
      (fun _ g' P' => g'.counted = ∅ ∧ OnlyThreads g'.skipped ∧ P' = P ∧
        ∀ t, .thread t ∈ g.skipped → .thread t ∈ g'.skipped) g P := by
  refine (safe_bind ..).mpr (safe_invoke within.scheduler fun _ => ?_)
  have entry : .entrySchedulerLock ∈ (g.unskip .schedulerLock).skipped :=
    Finset.mem_erase_of_ne_of_mem (by simp) within.entry
  refine safe_invoke entry fun _ => ⟨within.counted, ?_, rfl, ?_⟩
  · intro l hl
    obtain ⟨notEntry, hl⟩ := Finset.mem_erase.mp hl
    obtain ⟨notScheduler, hl⟩ := Finset.mem_erase.mp hl
    obtain rfl | rfl | thread := within.others l hl
    · exact absurd rfl notEntry
    · exact absurd rfl notScheduler
    · exact thread
  · intro t ht
    exact Finset.mem_erase_of_ne_of_mem (by simp) (Finset.mem_erase_of_ne_of_mem (by simp) ht)

/-- A CPU changes its own `cpu_t`, but for the counter. -/
lemma Interferes.setCpu {f : Cpu → Cpu} (k : Kernel C)
    (counter : ∀ cpu, (f cpu).preemptCounter = cpu.preemptCounter) : Interferes c k (k.setCpu c f) := by
  refine .of_eq ?_ ?_ rfl fun _ => rfl
  · intro c'
    by_cases hc : c' = c
    · subst hc
      simp [Kernel.setCpu, counter]
    · simp [Kernel.setCpu, hc]
  · intro c' hc
    simp [Kernel.setCpu, hc]

/-- Preparing a switch interferes with no other CPU. -/
lemma Interferes.prepareSwitch (cfg : Config C) (t : Nat) (pageTable : Option Nat) (k : Kernel C) :
    Interferes c k (prepareSwitch cfg c t pageTable k) := by
  have ids : ∀ t', ((Tasking.prepareSwitch cfg c t pageTable k).threads t').taskID =
      (k.threads t').taskID := by
    intro t'
    by_cases ht : t' = t
    · subst ht
      cases pageTable <;> simp [Tasking.prepareSwitch, Kernel.setThread, Kernel.setCpu]
    · cases pageTable <;> simp [Tasking.prepareSwitch, Kernel.setThread, Kernel.setCpu, ht]
  have cpu : ∀ c', ((Tasking.prepareSwitch cfg c t pageTable k).cpus c').preemptCounter =
        (k.cpus c').preemptCounter ∧
      ((Tasking.prepareSwitch cfg c t pageTable k).cpus c').currentTaskID =
        (k.cpus c').currentTaskID := by
    intro c'
    by_cases hc : c' = c
    · subst hc
      cases pageTable <;> simp [Tasking.prepareSwitch, Kernel.setThread, Kernel.setCpu]
    · cases pageTable <;> simp [Tasking.prepareSwitch, Kernel.setThread, Kernel.setCpu, hc]
  refine .of_eq (fun c' => (cpu c').1) (fun c' _ => (cpu c').2) ?_ ids
  cases pageTable <;> rfl

/-- It leaves the thread that a CPU executes. -/
lemma executing_prepareSwitch {cfg : Config C} {t : Nat} {pageTable : Option Nat} {k : Kernel C}
    (h : Executing c t k) : Executing c t (prepareSwitch cfg c t pageTable k) := by
  cases pageTable with
  | none => exact h
  | some entries => simpa [Executing, prepareSwitch, Kernel.setThread, Kernel.setCpu] using h

/-- `scheduler_schedule` keeps to the rules. -/
lemma schedulerSchedule_safe (cfg : Config C) (small : locks.card < 2 ^ 62)
    (table : .processLock ∈ locks) (threads : OnlyThreads g.skipped) (stable : Stable c P)
    (current : ∀ k, P k → Current c g k) (fuel : Nat) (regs : Regs) (counter : BitVec 64) :
    (Code.schedulerSchedule cfg c fuel regs).Safe (rules locks c) (Ends c ⟨g.counted, counter⟩) g P := by
  refine (decideTask_safe small table threads stable current fuel regs).bind ?_
  intro d g₁ P₁ decided
  cases d with
  | skip =>
    obtain ⟨rfl, rfl⟩ := decided
    exact ⟨rfl, fun h => absurd rfl h, threads, current⟩
  | idle =>
    obtain ⟨empty, within⟩ := decided
    have idle : Stable c fun k : Kernel C => (k.cpus c).currentTaskID = minusOne := by
      intro k k' task _ h
      exact task.trans h
    refine (safe_bind ..).mpr ?_
    refine (safe_bind ..).mpr (safe_modify (stable_true c) (fun k => .setCpu k fun _ => rfl)
      (fun _ _ _ => trivial) ?_)
    refine (safe_bind ..).mpr (safe_modify idle (fun k => .setCpu k fun _ => rfl) ?_ ?_)
    · intro k _ _
      simp [makeIdle, Kernel.setCpu]
    · refine (unlockLocks_safe within).mono ?_
      rintro _ g₂ P₂ ⟨counted, threads₂, rfl, _⟩
      exact ⟨counted.trans empty.symm, fun _ => empty, threads₂, fun k h => .inl h⟩
  | task t pageTable =>
    obtain ⟨empty, within, held, rfl⟩ := decided
    have stable₁ := stable_executing c t
    refine (safe_bind ..).mpr ?_
    refine (safe_bind ..).mpr (safe_modify stable₁ (Interferes.prepareSwitch cfg t pageTable)
      (fun _ _ => executing_prepareSwitch) ?_)
    refine (unlockLocks_safe within).bind ?_
    rintro _ g₂ P₂ ⟨counted, threads₂, rfl, kept⟩
    refine safe_modify stable₁ (fun k => .setCpu k fun _ => rfl) ?_ ?_
    · intro k _ h
      simpa [Executing, restoreContext, Kernel.setCpu] using h
    · exact ⟨counted.trans empty.symm, fun _ => empty, threads₂, fun k h => .inr ⟨t, h, kept t held⟩⟩

end Schedule

section Functions
variable {c : C} {k k' : Kernel C}

omit [DecidableEq C] in
/-- A thread calls `process_create`. -/
lemma Interferes.newProcess (pageTable : Nat) : Interferes c k (newProcess pageTable k).2 := by
  unfold Tasking.newProcess
  split <;> exact .of_eq (fun _ => rfl) (fun _ _ => rfl) rfl fun _ => rfl

omit [DecidableEq C] in
/-- A thread calls `thread_create`, which does not touch the threads of the table. -/
lemma Interferes.newThread {cfg : Config C} {pid entry arg r : Nat}
    (fresh : ∀ i, k.activeTasks i ≠ .thread k.nextThread)
    (h : newThread cfg pid entry arg k = .ok (r, k')) : Interferes c k k' := by
  obtain ⟨_, rfl⟩ | ⟨_, thread, _, _, _, _, _, _, _, _, _, rfl⟩ := newThread_ok h
  · exact .refl c _
  · refine ⟨fun _ => rfl, fun _ _ => rfl, fun _ _ h => h, fun tasks i t hi => ?_⟩
    have hne : t ≠ k.nextThread := by
      rintro rfl
      exact fresh i hi
    simpa [hne] using tasks i t hi

omit [DecidableEq C] in
/-- A thread calls `scheduler_add_task`, which uses a slot that is free. -/
lemma Interferes.addTask (t : Nat) : Interferes c k (addTask t k).2 := by
  unfold Tasking.addTask
  split
  · exact .refl c k
  · rename_i taskID free
    have found := List.find?_some free
    have bound := List.mem_range.mp (List.mem_of_find?_eq_some free)
    have kept : ∀ i t', k.activeTasks i = .thread t' →
        Function.update k.activeTasks taskID (.thread t) i = .thread t' := by
      intro i t' hi
      rw [Function.update_of_ne, hi]
      rintro rfl
      simp [hi] at found
    refine ⟨fun _ => rfl, fun _ _ => rfl, kept, fun tasks i t' hi => ?_⟩
    have hi : Function.update k.activeTasks taskID (.thread t) i = .thread t' := hi
    by_cases ht : t' = t
    · subst ht
      simpa [Kernel.setThread] using bound
    · rw [Function.update_apply] at hi
      split at hi
      · cases hi
        exact absurd rfl ht
      · obtain ⟨lt, slot⟩ := tasks i t' hi
        simpa [Kernel.setThread, ht] using And.intro lt (kept _ _ slot)

end Functions

/-- What holds where a CPU is. -/
def Controlled (locks : Finset Lock) (c : C) (g : Holding) (k : Kernel C) : Control C → Prop
  | .running => Current c g k ∧ OnlyThreads g.skipped
  | .scheduling entry code => entry.counter = BitVec.ofNat 64 entry.counted.card ∧
      ∃ P, Stable c P ∧ P k ∧ code.Safe (rules locks c) (Ends c entry) g P

/-- The books are right, and every CPU is where it can be. -/
structure Sane (locks : Finset Lock) (s : Harts C) : Prop where
  books : Books locks s.locked s.kernel s.holding
  tasks : Tasks s.kernel
  control : ∀ c, Controlled locks c (s.holding c) s.kernel (s.control c)

section Sane
variable {cfg : Config C} {locks : Finset Lock} {s s' : Harts C} {c : C} {g g' : Holding}
  {k k' : Kernel C} {control : Control C}

omit [DecidableEq C] in
/-- Other CPUs do not change where a CPU is. -/
lemma Controlled.stable (h : Controlled locks c g k control)
    (task : (k'.cpus c).currentTaskID = (k.cpus c).currentTaskID)
    (slots : ∀ i t, k.activeTasks i = .thread t → k'.activeTasks i = .thread t) :
    Controlled locks c g k' control := by
  cases control with
  | running => exact ⟨stable_current c g k k' task slots h.1, h.2⟩
  | scheduling entry code =>
    obtain ⟨counter, P, stable, known, safe⟩ := h
    exact ⟨counter, P, stable, stable k k' task slots known, safe⟩

/-- A call changes nothing of the kernel but the counter. -/
lemma Moves.kernel {locked locked' : Lock → Bool} (h : Moves c locks g locked k g' locked' k') :
    (∀ c', (k'.cpus c').currentTaskID = (k.cpus c').currentTaskID) ∧ k'.activeTasks = k.activeTasks ∧
      k'.threads = k.threads := by
  have added : ∀ d c', ((k.addPreempt c d).cpus c').currentTaskID = (k.cpus c').currentTaskID := by
    intro d c'
    by_cases hc : c' = c
    · subst hc
      simp [Kernel.addPreempt, Kernel.setCpu]
    · simp [Kernel.addPreempt, Kernel.setCpu, hc]
  cases h with
  | count => exact ⟨added 1, rfl, rfl⟩
  | uncount => exact ⟨added (-1), rfl, rfl⟩
  | skip => exact ⟨fun _ => rfl, rfl, rfl⟩
  | unskip => exact ⟨fun _ => rfl, rfl, rfl⟩
  | fail => exact ⟨fun _ => rfl, rfl, rfl⟩

/-- The step of a call, by what it does. -/
lemma Sane.moves {locked' : Lock → Bool} (h : Sane locks s)
    (move : Moves c locks (s.holding c) s.locked s.kernel g' locked' k')
    (own : Controlled locks c g' k' control) :
    Sane locks ⟨locked', k', Function.update s.control c control, Function.update s.holding c g'⟩ := by
  obtain ⟨task, slots, threads⟩ := move.kernel
  refine ⟨h.books.moves move, ?_, ?_⟩
  · intro i t hi
    rw [slots] at hi ⊢
    rw [threads]
    exact h.tasks i t hi
  · intro c'
    by_cases hc : c' = c
    · subst hc
      simpa using own
    · simp only [Function.update_of_ne hc]
      exact (h.control c').stable (task c') fun i t hi => by rwa [slots]

/-- The step of an action. -/
lemma Sane.interferes (h : Sane locks s) (kept : Interferes c s.kernel k')
    (own : Controlled locks c (s.holding c) k' control) :
    Sane locks ⟨s.locked, k', Function.update s.control c control, s.holding⟩ := by
  refine ⟨h.books.congr kept.counter, kept.tasks h.tasks, ?_⟩
  intro c'
  by_cases hc : c' = c
  · subst hc
    simpa using own
  · simp only [Function.update_of_ne hc]
    exact (h.control c').stable (kept.task c' hc) kept.slots

/-- Every step of a CPU keeps the books. -/
lemma Sane.step (small : locks.card < 2 ^ 62) (table : .processLock ∈ locks) (h : Sane locks s)
    (step : HartStep cfg locks s s') : Sane locks s' := by
  cases step with
  | @thread c r locked' k' q running counted paired run =>
    have move := LockCall.moves paired run
    have own := h.control c
    rw [running] at own
    -- outside the scheduler the calls of a thread are all counted
    have skipped : (q.effect (s.holding c) r).skipped = (s.holding c).skipped := by
      cases q with
      | lock l => rfl
      | tryLock l => cases r <;> rfl
      | unlock l => rfl
      | lockSkip l => cases counted
      | tryLockSkip l => cases counted
      | unlockSkip l => cases counted
    have own' : Controlled locks c (q.effect (s.holding c) r) k' .running := by
      obtain ⟨task, slots, _⟩ := move.kernel
      obtain ⟨current, threads⟩ := own.stable (task c) fun i t hi => by rwa [slots]
      refine ⟨?_, skipped ▸ threads⟩
      unfold Current at current ⊢
      rwa [skipped]
    have sane := h.moves move own'
    rwa [← running, Function.update_eq_self] at sane
  | @execute c k' running kept task =>
    have own : Controlled locks c (s.holding c) k' (s.control c) :=
      (h.control c).stable task kept.slots
    have sane := h.interferes kept own
    rwa [Function.update_eq_self] at sane
  | @interrupt c fuel regs running =>
    have own := h.control c
    rw [running] at own
    obtain ⟨current, threads⟩ := own
    refine h.interferes (.refl c _) ⟨h.books.counter c, _, stable_current c _, current, ?_⟩
    exact schedulerSchedule_safe cfg small table threads (stable_current c _) (fun _ h => h) fuel regs _
  | @call c entry k r locked' k' q at_ run =>
    have own := h.control c
    rw [at_] at own
    obtain ⟨counter, P, stable, known, paired, safe⟩ := own
    have move := LockCall.moves paired run
    obtain ⟨task, slots, _⟩ := move.kernel
    refine h.moves move ⟨counter, P, stable, stable _ _ (task c) ?_ known, safe r⟩
    intro i t hi
    rwa [slots]
  | @act c entry β f k b k' at_ run =>
    have own := h.control c
    rw [at_] at own
    obtain ⟨counter, P, stable, known, safe⟩ := own
    obtain ⟨kept, P', stable', known', safe'⟩ :=
      safe s.kernel b k' ⟨h.books.counter c, h.books.exist c, h.tasks⟩ known run
    exact h.interferes kept ⟨counter, P', stable', known', safe'⟩
  | @exit c entry d at_ =>
    have own := h.control c
    rw [at_] at own
    obtain ⟨counter, P, stable, known, _, _, threads, current⟩ := own
    exact h.interferes (.refl c _) ⟨current _ known, threads⟩

/-- In every reachable state they are right. -/
lemma HartsReachable.sane (small : locks.card < 2 ^ 62) (table : .processLock ∈ locks)
    (h : HartsReachable cfg locks s) : Sane locks s := by
  induction h with
  | init counter task tasks =>
    refine ⟨⟨?_, ?_, ?_, ?_, ?_⟩, tasks, ?_⟩
    · intro c
      simp [counter c]
    · simp
    · simp [Holding.Has]
    · simp
    · simp [Holding.Has]
    · intro c
      exact ⟨.inl (task c), by simp [OnlyThreads]⟩
  | step _ step ih => exact ih.step small table step

/-- In every state the preemption counter of a CPU is the number of the locks that it holds through
the counted functions, and each lock is held by one CPU. At every exit of `scheduler_schedule` the counter
and the counted locks are those of the entry, and the CPU holds a lock of the scheduler only where it
skips and held this as a counted lock before; with any other exit nothing was counted. -/
theorem preempt_counter (small : locks.card < 2 ^ 62) (table : .processLock ∈ locks)
    (h : HartsReachable cfg locks s) :
    (∀ c, (s.kernel.cpus c).preemptCounter.toNat = (s.holding c).counted.card) ∧
    (∀ c l, (s.holding c).Has l → s.locked l = true ∧ ∀ c', (s.holding c').Has l → c' = c) ∧
    ∀ c entry d, s.control c = .scheduling entry (.ret d) →
      (s.kernel.cpus c).preemptCounter = entry.counter ∧ (s.holding c).counted = entry.counted ∧
      (∀ l, l = .entrySchedulerLock ∨ l = .schedulerLock → (s.holding c).Has l →
        d = .skip ∧ l ∈ entry.counted) ∧
      (d ≠ .skip → entry.counted = ∅) := by
  have sane := h.sane small table
  refine ⟨?_, ?_, ?_⟩
  · intro c
    have bound := Finset.card_le_card (sane.books.exist c)
    rw [sane.books.counter, BitVec.toNat_ofNat]
    omega
  · intro c l hl
    exact ⟨sane.books.locked hl, fun c' hl' => sane.books.owner hl hl'⟩
  · intro c entry d at_
    have own := sane.control c
    rw [at_] at own
    obtain ⟨counter, P, _, _, counted, none, threads, _⟩ := own
    refine ⟨?_, counted, ?_, none⟩
    · rw [sane.books.counter, counted, counter]
    · intro l hl held
      obtain held | held := held
      · rw [counted] at held
        refine ⟨?_, held⟩
        by_contra other
        rw [none other] at held
        cases held
      · obtain ⟨t, rfl⟩ := threads l held
        obtain hl | hl := hl <;> cases hl

end Sane

section Skip

/-- The first thing that `scheduler_schedule` does is to look at the counter. -/
lemma schedulerSchedule_head (cfg : Config C) (c : C) (fuel : Nat) (regs : Regs) :
    ∃ rest : Bool × BitVec 64 → Code C Decision, Code.schedulerSchedule cfg c fuel regs =
        .act (fun k => .ok ((k.schedulerRunning, (k.cpus c).preemptCounter), k)) rest ∧
      ∀ running counter, counter ≠ 0 → rest (running, counter) = .ret .skip := by
  refine ⟨_, rfl, fun running counter h => ?_⟩
  have busy : !running ∨ counter ≠ 0 := .inr h
  simp only [CallProg.bind, if_pos busy]
  rfl

/-- An interrupt of a thread that holds counted locks is skipped. -/
lemma HartsReachable.skip {cfg : Config C} {locks : Finset Lock} {s : Harts C} {c : C}
    (h : HartsReachable cfg locks s) (running : s.control c = .running)
    (busy : (s.kernel.cpus c).preemptCounter ≠ 0) :
    HartsReachable cfg locks ⟨s.locked, s.kernel, Function.update s.control c
      (.scheduling ⟨(s.holding c).counted, (s.kernel.cpus c).preemptCounter⟩ (.ret .skip)),
      s.holding⟩ := by
  have interrupted := h.step (.interrupt 0 (fun _ => 0) running)
  obtain ⟨rest, head, skip⟩ := schedulerSchedule_head cfg c 0 fun _ => 0
  rw [head] at interrupted
  have looked := interrupted.step (.act (c := c) (Function.update_self ..) rfl)
  rw [skip _ _ busy, Function.update_idem] at looked
  exact looked

/-- What a CPU comes to in `scheduler_schedule` while the others do nothing. -/
def solo (c : C) : Code C Decision → Holding → (Lock → Bool) → Kernel C →
    Option (Decision × Holding × (Lock → Bool) × Kernel C)
  | .ret d, g, locked, k => some (d, g, locked, k)
  | .call q rest, g, locked, k =>
    match (q.body c).run locked k with
    | .done r locked' k' => solo c (rest r) (q.effect g r) locked' k'
    | _ => none
  | .act f rest, g, locked, k =>
    match f k with
    | .ok (b, k') => solo c (rest b) g locked k'
    | .error _ => none

/-- It is reached. -/
lemma HartsReachable.solo {cfg : Config C} {locks : Finset Lock} {s : Harts C} {c : C} {entry : Entry}
    {code : Code C Decision} {d : Decision} {g : Holding} {locked' : Lock → Bool} {k' : Kernel C}
    (h : HartsReachable cfg locks s) (at_ : s.control c = .scheduling entry code)
    (ends : solo c code (s.holding c) s.locked s.kernel = some (d, g, locked', k')) :
    ∃ s', HartsReachable cfg locks s' ∧ s'.control c = .scheduling entry (.ret d) ∧ s'.holding c = g ∧
      s'.locked = locked' ∧ s'.kernel = k' := by
  induction code generalizing s with
  | ret d' =>
    cases ends
    exact ⟨s, h, at_, rfl, rfl, rfl⟩
  | call q rest ih =>
    simp only [Tasking.solo] at ends
    split at ends
    · rename_i r locked₁ k₁ run
      exact ih r (h.step (.call at_ run)) (Function.update_self ..)
        (by simpa only [Function.update_self] using ends)
    · cases ends
  | act f rest ih =>
    simp only [Tasking.solo] at ends
    split at ends
    · rename_i b k₁ run
      exact ih b (h.step (.act at_ run)) (Function.update_self ..) ends
    · cases ends

/-- A CPU whose thread has taken the lock that `scheduler_add_task` takes. -/
def addingTask : Harts (Fin 1) where
  locked := Function.update (fun _ => false) .entrySchedulerLock true
  kernel := Kernel.addPreempt 0 1 { Kernel.boot (Fin 1) with schedulerRunning := true }
  control _ := .running
  holding := Function.update (fun _ => ⟨∅, ∅⟩) 0 ⟨{.entrySchedulerLock}, ∅⟩

/-- The CPU comes there by one call of its thread. -/
lemma addingTask_reachable :
    HartsReachable (.flat 1) {.processLock, .entrySchedulerLock} addingTask := by
  let k : Kernel (Fin 1) := { Kernel.boot (Fin 1) with schedulerRunning := true }
  have start : HartsReachable (.flat 1) {.processLock, .entrySchedulerLock}
      ⟨fun _ => false, k, fun _ => .running, fun _ => ⟨∅, ∅⟩⟩ := by
    refine .init (fun _ => rfl) (fun _ => rfl) ?_
    intro i t h
    cases h
  have lock : ((LockCall.lock .entrySchedulerLock).body 0).run (fun _ => false) k =
      .done false (Function.update (fun _ => false) .entrySchedulerLock true) (k.addPreempt 0 1) := rfl
  have exists_lock : .entrySchedulerLock ∈ ({.processLock, .entrySchedulerLock} : Finset Lock) := by decide
  exact start.step (.thread (q := .lock .entrySchedulerLock) rfl rfl exists_lock lock)

end Skip

/-- A kernel with one task, of its own process. -/
def oneTask : Kernel (Fin 1) :=
  { Kernel.boot (Fin 1) with
    schedulerRunning := true
    activeTasks := Function.update (fun _ => .null) 0 (.thread 0)
    totalActiveTasks := 1
    processTable := Function.update (fun _ => none) 0
      (some ⟨0, 0x1000, Function.update (fun _ => .null) 0 (.thread 0)⟩)
    nextThread := 1 }

/-- The task has its own number. -/
lemma oneTask_tasks : Tasks oneTask := by
  intro i t at_
  by_cases first : i = 0
  · subst first
    cases at_
    exact ⟨by decide, rfl⟩
  · simp [oneTask, Kernel.boot, first] at at_

/-- The CPU is interrupted without a lock and goes on with the task; there it takes `ProcessLock`, and the
next interrupt is skipped. -/
theorem preempt_counter_switched :
    ∃ (s s' : Harts (Fin 1)) (entry entry' : Entry),
      HartsReachable (.flat 1) {.processLock} s ∧ HartsReachable (.flat 1) {.processLock} s' ∧
      s.control 0 = .scheduling entry (.ret (.task 0 (some 0x1000))) ∧
      (s.kernel.cpus 0).currentTaskID = 0 ∧ (s.holding 0).counted = ∅ ∧
      ¬ (s.holding 0).Has .schedulerLock ∧
      s'.control 0 = .scheduling entry' (.ret .skip) ∧ entry'.counted = {.processLock} ∧
      (s'.kernel.cpus 0).preemptCounter = entry'.counter ∧ (s'.holding 0).counted = {.processLock} := by
  have start : HartsReachable (.flat 1) {.processLock}
      ⟨fun _ => false, oneTask, fun _ => .running, fun _ => ⟨∅, ∅⟩⟩ :=
    .init (fun _ => rfl) (fun _ => rfl) oneTask_tasks
  have interrupted := start.step (.interrupt (c := 0) 2 (fun _ => 0) rfl)
  obtain ⟨g, locked, k, ends, holds, free, task, idle⟩ : ∃ g locked k,
      solo 0 (Code.schedulerSchedule (.flat 1) 0 2 fun _ => 0) ⟨∅, ∅⟩ (fun _ => false) oneTask =
        some (.task 0 (some 0x1000), g, locked, k) ∧ g = ⟨∅, {.thread 0}⟩ ∧ locked .processLock = false ∧
      (k.cpus 0).currentTaskID = 0 ∧ (k.cpus 0).preemptCounter = 0 :=
    ⟨_, _, _, rfl, by decide, rfl, rfl, rfl⟩
  obtain ⟨s, switched, at_, holding, locks, kernel⟩ := interrupted.solo (Function.update_self ..) ends
  let s₁ : Harts (Fin 1) := ⟨s.locked, s.kernel, Function.update s.control 0 .running, s.holding⟩
  have running : HartsReachable (.flat 1) {.processLock} s₁ := switched.step (.exit at_)
  have at₁ : s₁.control 0 = .running := by simp [s₁]
  have lock : ((LockCall.lock .processLock).body 0).run s₁.locked s₁.kernel =
      .done false (Function.update s₁.locked .processLock true) (s₁.kernel.addPreempt 0 1) := by
    have open_ : s₁.locked .processLock = false := by simp only [s₁, locks, free]
    simp only [LockCall.body, Prog.run_bind, run_lock open_, Prog.Outcome.andThen_done, Prog.run_pure]
  have taken := running.step (.thread (q := .lock .processLock) at₁ rfl (Finset.mem_singleton_self _) lock)
  have counter : ((s₁.kernel.addPreempt 0 1).cpus 0).preemptCounter = 1 := by
    simp [Kernel.addPreempt, Kernel.setCpu, s₁, kernel, idle]
  have skipped := taken.skip (c := 0) at₁ (by simp only [counter]; decide)
  obtain ⟨-, -, first⟩ := preempt_counter (by decide) (by decide) switched
  obtain ⟨-, -, second⟩ := preempt_counter (by decide) (by decide) skipped
  obtain ⟨-, counted, scheduler, none_⟩ := first 0 _ _ at_
  obtain ⟨same, counted', -, -⟩ := second 0 _ _ rfl
  have only : (LockCall.effect (s₁.holding 0) (.lock .processLock) false).counted = {.processLock} := by
    simp only [s₁, holding, holds]
    rfl
  refine ⟨s, _, _, _, switched, skipped, at_, by rw [kernel, task], counted, ?_, rfl,
    ?_, same, counted'.trans ?_⟩
  · intro held
    exact absurd (scheduler _ (.inr rfl) held).1 (by decide)
  · simpa using only
  · simpa using only

/-- An interrupt in `scheduler_add_task` is skipped, and the CPU still holds `EntrySchedulerLock`. -/
theorem skip_holds_entrySchedulerLock :
    ∃ (s : Harts (Fin 1)) (entry : Entry),
      HartsReachable (.flat 1) {.processLock, .entrySchedulerLock} s ∧
      s.control 0 = .scheduling entry (.ret .skip) ∧ (s.holding 0).Has .entrySchedulerLock :=
  ⟨_, _, addingTask_reachable.skip rfl (by decide), Function.update_self .., .inl (by decide)⟩

end WivOS.Tasking
