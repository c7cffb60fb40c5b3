import WivOS.Tasking.Tables

/-!
# The search for the next task

`scheduler_get_next_task` on any table whose filled slots come first. It goes round the filled slots
once, from the one after the current task on: at a slot that is `NULL` and at the end of the table it
starts again with the first. Of the threads it comes to it takes the first whose lock is free.
-/

namespace WivOS.Tasking
open WivOS.Lib.LockProg WivOS.Lib.LockProg.Prog

variable {C : Type}

/-- The slot holds a thread. -/
def Slot.isThread : Slot → Bool
  | thread _ => true
  | _ => false

/-- The first `n` slots of `ActiveTasks` are threads or `(void *)-1`, the others are `NULL`, and
`TotalActiveTasks` is the number of the threads. -/
structure TaskTable (k : Kernel C) (n : Nat) : Prop where
  le : n ≤ maxThreads * 2
  filled : ∀ i < n, k.activeTasks i ≠ .null
  null : ∀ i, n ≤ i → i < maxThreads * 2 → k.activeTasks i = .null
  total : k.totalActiveTasks = (List.range n).countP fun i => (k.activeTasks i).isThread

/-- The thread of a slot, if its lock is free. -/
def Kernel.freeThread (k : Kernel C) (locked : Lock → Bool) (i : Nat) : Option Nat :=
  match k.activeTasks i with
  | .thread t => if locked (.thread t) then none else some t
  | _ => none

/-- The slots below `n`, `len` of them from `start` on and round again. -/
def slotsFrom (n start len : Nat) : List Nat := (List.range len).map fun j => (start + j) % n

section Slots
variable {n start len : Nat}

/-- The first slot, and those after it. -/
lemma slotsFrom_succ : slotsFrom n start (len + 1) = start % n :: slotsFrom n (start % n + 1) len := by
  unfold slotsFrom
  rw [List.range_succ_eq_map, List.map_cons, List.map_map, Nat.add_zero]
  congr 1
  refine List.map_congr_left fun j _ => ?_
  rw [Function.comp_apply, Nat.add_assoc, Nat.mod_add_mod, Nat.add_comm 1 j]

/-- Where the round starts counts modulo the number of slots. -/
lemma slotsFrom_mod : slotsFrom n (start % n) len = slotsFrom n start len :=
  List.map_congr_left fun j _ => Nat.mod_add_mod start n j

/-- All slots, from `start` on, are the slots in another order. -/
lemma slotsFrom_rotate : slotsFrom n start n = (List.range n).rotate start := by
  refine List.ext_getElem (by simp [slotsFrom]) fun i h₁ h₂ => ?_
  simp [slotsFrom, List.getElem_rotate, Nat.add_comm]

end Slots

/-- The tables that the functions build are such tables: their first slots are the tasks. -/
lemma Tables.taskTable {k : Kernel C} (h : Tables k) : TaskTable k k.totalActiveTasks where
  le := h.total
  filled i hi := by
    obtain ⟨t, _, ht, _⟩ := h.task hi
    simp [ht]
  null i hi _ := h.null hi
  total := by
    have all : ∀ i ∈ List.range k.totalActiveTasks, (k.activeTasks i).isThread = true := by
      intro i hi
      obtain ⟨t, _, ht, _⟩ := h.task (List.mem_range.mp hi)
      rw [ht]
      rfl
    rw [List.countP_eq_length.mpr all, List.length_range]

section Search
variable [DecidableEq C] {c : C} {k : Kernel C} {locked : Lock → Bool} {n i currentTask : Nat}

omit [DecidableEq C] in
/-- Where the search looks: round again at the first slot that is not filled. -/
lemma TaskTable.taskFrom_eq (h : TaskTable k n) (pos : 0 < n) (le : currentTask ≤ n)
    (lt : currentTask < maxThreads * 2) :
    k.taskFrom currentTask = .ok (k.activeTasks (currentTask % n), currentTask % n) := by
  have size := h.le
  have at_ : k.activeTask currentTask = .ok (k.activeTasks currentTask) := if_pos lt
  have first : k.activeTask 0 = .ok (k.activeTasks 0) := if_pos (by omega)
  unfold Kernel.taskFrom
  rw [at_]
  obtain rfl | hlt := Nat.eq_or_lt_of_le le
  · rw [h.null currentTask le_rfl lt, first, Nat.mod_self]
    rfl
  · rw [Nat.mod_eq_of_lt hlt]
    have filled := h.filled currentTask hlt
    cases hs : k.activeTasks currentTask with
    | null => exact absurd hs filled
    | deleted => rfl
    | thread t => rfl

/-- The outcome of a search that found a free thread, or none. -/
def searched (locked : Lock → Bool) (k : Kernel C) :
    Option Nat → Outcome Lock (Kernel C) Fault (Option Nat)
  | none => .done none locked k
  | some t => .done (some t) (Function.update locked (.thread t) true) k

omit [DecidableEq C] in
/-- Without threads none is free. -/
lemma freeThread_none_of_noThread {slots : List Nat}
    (h : (slots.countP fun i => (k.activeTasks i).isThread) = 0) :
    slots.findSome? (k.freeThread locked) = none := by
  rw [List.findSome?_eq_none_iff]
  intro i hi
  have notThread := List.countP_eq_zero.mp h i hi
  unfold Kernel.freeThread
  cases hs : k.activeTasks i with
  | null => rfl
  | deleted => rfl
  | thread t => simp [hs, Slot.isThread] at notThread

/-- The loop, with `len` slots to go: the threads there are those that it has not counted yet. -/
lemma TaskTable.run_nextTaskLoop (h : TaskTable k n) {len fuel : Nat} (hf : len < fuel) (pos : 0 < n)
    (le : currentTask ≤ n) (lt : currentTask < maxThreads * 2)
    (left : i + (slotsFrom n currentTask len).countP (fun i => (k.activeTasks i).isThread) =
      k.totalActiveTasks) :
    (nextTaskLoop c fuel i currentTask).run locked k =
      searched locked k ((slotsFrom n currentTask len).findSome? (k.freeThread locked)) := by
  induction len generalizing fuel i currentTask with
  | zero =>
    obtain ⟨fuel, rfl⟩ : ∃ f, fuel = f + 1 := ⟨fuel - 1, by omega⟩
    have ended : k.totalActiveTasks ≤ i := by simp [slotsFrom] at left; omega
    simp [nextTaskLoop, run_bind, ended, slotsFrom, searched]
  | succ len ih =>
    obtain ⟨fuel, rfl⟩ : ∃ f, fuel = f + 1 := ⟨fuel - 1, by omega⟩
    by_cases ended : k.totalActiveTasks ≤ i
    · rw [freeThread_none_of_noThread (by omega)]
      simp [nextTaskLoop, run_bind, ended, searched]
    have look : (perform fun k' : Kernel C => (k'.taskFrom currentTask).map (·, k')).run locked k =
        (.done (k.activeTasks (currentTask % n), currentTask % n) locked k :
          Outcome Lock (Kernel C) Fault _) := by
      refine run_perform_ok ?_
      rw [h.taskFrom_eq pos le lt]
      rfl
    simp only [nextTaskLoop, run_bind, run_read, Outcome.andThen_done, if_neg ended, look]
    rw [slotsFrom_succ] at left ⊢
    -- the slot where the loop looks next, in both ways of starting again
    have below : currentTask % n < n := Nat.mod_lt _ pos
    have size := h.le
    have rounds : len < fuel := by omega
    have same : slotsFrom n (currentTask % n + 1) len =
        slotsFrom n (if currentTask % n + 1 = maxThreads * 2 then 0 else currentTask % n + 1) len := by
      split
      · rename_i last
        rw [← slotsFrom_mod, show currentTask % n + 1 = n by omega, Nat.mod_self]
      · rfl
    have le' : (if currentTask % n + 1 = maxThreads * 2 then 0 else currentTask % n + 1) ≤ n := by
      split <;> omega
    have lt' : (if currentTask % n + 1 = maxThreads * 2 then 0 else currentTask % n + 1) <
        maxThreads * 2 := by
      split <;> omega
    generalize (if currentTask % n + 1 = maxThreads * 2 then 0 else currentTask % n + 1) = following
      at same le' lt' ⊢
    rw [same] at left ⊢
    rw [List.countP_cons] at left
    rw [List.findSome?_cons]
    -- a slot that is not free to take is passed over
    cases hs : k.activeTasks (currentTask % n) with
    | null => exact absurd hs (h.filled _ below)
    | deleted =>
      have free : k.freeThread locked (currentTask % n) = none := by simp [Kernel.freeThread, hs]
      rw [hs, if_neg (by decide), Nat.add_zero] at left
      rw [free]
      exact ih rounds le' lt' left
    | thread t =>
      rw [hs, if_pos (by rfl), Nat.add_comm _ 1, ← Nat.add_assoc] at left
      cases hl : locked (.thread t) with
      | true =>
        have free : k.freeThread locked (currentTask % n) = none := by simp [Kernel.freeThread, hs, hl]
        rw [free]
        simp only [run_bind, run_tryLock_taken hl, Outcome.andThen_done, if_true]
        exact ih rounds le' lt' left
      | false =>
        have free : k.freeThread locked (currentTask % n) = some t := by
          simp [Kernel.freeThread, hs, hl]
        rw [free]
        simp only [run_bind, run_tryLock_free hl, Outcome.andThen_done, Bool.false_eq_true, if_false,
          run_pure]
        rfl

/-- `scheduler_get_next_task` searches once round from the next task. -/
lemma TaskTable.run_schedulerGetNextTask (h : TaskTable k n)
    (current : currentTask = minusOne ∨ (currentTask < n ∧ currentTask + 1 < maxThreads * 2))
    {fuel : Nat} (hf : maxThreads * 2 < fuel) :
    (schedulerGetNextTask c fuel currentTask).run locked k = searched locked k
      (((List.range n).rotate ((currentTask + 1) % 2 ^ 64)).findSome? (k.freeThread locked)) := by
  have size := h.le
  have start : (currentTask + 1) % 2 ^ 64 ≤ n ∧ (currentTask + 1) % 2 ^ 64 < maxThreads * 2 := by
    obtain rfl | ⟨below, last⟩ := current
    · exact ⟨Nat.zero_le n, by decide⟩
    · have : maxThreads * 2 < 2 ^ 64 := by decide
      rw [Nat.mod_eq_of_lt (by omega)]
      exact ⟨below, last⟩
  have total := h.total
  rw [← ((List.range n).rotate_perm ((currentTask + 1) % 2 ^ 64)).countP_eq] at total
  rw [← slotsFrom_rotate] at total ⊢
  obtain rfl | pos := Nat.eq_zero_or_pos n
  · -- no slot is filled, and there is nothing to count
    obtain ⟨fuel, rfl⟩ : ∃ f, fuel = f + 1 := ⟨fuel - 1, by omega⟩
    have none_ : k.totalActiveTasks = 0 := total
    simp [schedulerGetNextTask, nextTaskLoop, run_bind, none_, slotsFrom, searched]
  · exact h.run_nextTaskLoop (by omega) pos start.1 start.2 (by omega)

/-- On every table whose filled slots come first, and from no task or from any slot but the last one:
the search ends within as many rounds as there are slots, and one more. It takes the first thread, in
the order of the slots from the one after the current task on and round again, whose lock is free, and
returns `NULL` if there is none; no other lock and nothing else is changed. -/
theorem schedulerGetNextTask_spec (h : TaskTable k n)
    (current : currentTask = minusOne ∨ (currentTask < n ∧ currentTask + 1 < maxThreads * 2))
    {fuel : Nat} (hf : maxThreads * 2 < fuel) :
    (schedulerGetNextTask c fuel currentTask).run locked k =
      match ((List.range n).rotate ((currentTask + 1) % 2 ^ 64)).findSome? (k.freeThread locked) with
      | none => .done none locked k
      | some t => .done (some t) (Function.update locked (.thread t) true) k := by
  rw [h.run_schedulerGetNextTask current hf]
  cases ((List.range n).rotate ((currentTask + 1) % 2 ^ 64)).findSome? (k.freeThread locked) with
  | none => rfl
  | some t => rfl

end Search

section Samples

/-- Two threads with a task between them that was deleted. -/
def twoTasks : Kernel Unit :=
  { Kernel.boot Unit with
    activeTasks := fun i => if i = 0 then .thread 0 else if i = 1 then .deleted
      else if i = 2 then .thread 1 else .null
    totalActiveTasks := 2 }

/-- Its table has three slots in use. -/
lemma twoTasks_table : TaskTable twoTasks 3 where
  le := by decide
  filled := by decide
  null i hi _ := by
    simp only [twoTasks]
    rw [if_neg (by omega), if_neg (by omega), if_neg (by omega)]
  total := rfl

/-- From the first slot, with its thread locked: the thread of the third. -/
theorem schedulerGetNextTask_spec_third :
    (schedulerGetNextTask () 513 0).run (· = Lock.thread 0) twoTasks =
      .done (some 1) (Function.update (fun l => decide (l = Lock.thread 0)) (.thread 1) true) twoTasks :=
  schedulerGetNextTask_spec twoTasks_table (.inr ⟨by decide, by decide⟩) (by decide)

end Samples

end WivOS.Tasking
