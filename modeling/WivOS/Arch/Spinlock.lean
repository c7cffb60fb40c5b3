import WivOS.Arch.Atomics
import WivOS.Lib.Runs

/-!
# Spinlocks

Model of `spinlock_lock`, `spinlock_try_lock` and `spinlock_unlock` of `kernel/arch/*/spinlock.c`, with and
without `_DEBUG_`. A step of a CPU is a call of one of them or the next atomic instruction of the call that
it is in; the CPUs act in any order. The lock of the deadlock reports is taken with the `locked_write` of the
machine.

All builds keep the lock to one CPU and give it to one that finds it free, except for that of x86_64 without
`_DEBUG_` (`spinlock_excludes_iff`): its `spinlock_try_lock` does not return the carry flag, and its
`spinlock_lock` waits until it finds the lock taken.
-/

namespace WivOS.Arch
open WivOS.Lib

/-- A machine, and whether `_DEBUG_` is defined. -/
structure Build where
  machine : Machine
  debug : Bool
deriving Repr, DecidableEq

/-- `DEADLOCK_MAX_ITER` -/
def deadlockMaxIter : Nat := 0x4000000

/-! ## The atomic instructions -/

/-- The instruction of `spinlock_try_lock`: the new lock word and the return value. On riscv64 it is
`__sync_lock_test_and_set`; on x86_64 only the debug version has the carry flag as an output. -/
def tryLock (b : Build) (lock : Word) : Word × Word :=
  match b.machine, b.debug with
  | .riscv64, _ => (1, lock)
  | .x86_64, true => ((X86.btsl lock).1, X86.ccc (X86.btsl lock).2)
  | .x86_64, false => ((X86.btsl lock).1, 0)

/-- The instruction in the loop of `spinlock_lock`: the new lock word, and whether the loop ends. The debug
version calls `spinlock_try_lock`; the other one of x86_64 does `btrl` and leaves at a carry. -/
def lockTurn (b : Build) (lock : Word) : Word × Bool :=
  match b.machine, b.debug with
  | _, true => ((tryLock b lock).1, (tryLock b lock).2 = 0)
  | .riscv64, false => (1, lock = 0)
  | .x86_64, false => X86.btrl lock

/-- The instruction of `spinlock_unlock`: the new lock word. -/
def unlockWord (b : Build) (lock : Word) : Word :=
  match b.machine with
  | .riscv64 => 0
  | .x86_64 => (X86.btrl lock).1

/-! ## The calls of the CPUs -/

/-- Where a CPU is in the code of the lock, before its next atomic instruction. -/
inductive Place where
  | out
  /-- In `spinlock_try_lock`. -/
  | trying
  /-- In `spinlock_lock`, in turn `i` of its loop. -/
  | locking (i : Nat)
  /-- In `deadlock_detect`, before it has its own lock. -/
  | detecting
  /-- In `deadlock_detect`, before it gives its own lock back. -/
  | reporting
  /-- In `spinlock_unlock`. -/
  | unlocking
deriving Repr, DecidableEq

/-- A lock and the CPUs that use it. `held` counts what a CPU has acquired and not released. -/
structure LockState (Cpu : Type) where
  lock : Word
  deadlockDetectLock : Word
  place : Cpu → Place
  held : Cpu → Nat

/-- What a CPU does next. -/
inductive LockAct where
  | callTryLock
  | callLock
  | callUnlock
  | run
deriving Repr, DecidableEq

section Step
variable {Cpu : Type} [DecidableEq Cpu]

/-- C `INIT_SPINLOCK`; no CPU is in the code of the lock. -/
def LockState.init : LockState Cpu := ⟨0, 0, fun _ => .out, fun _ => 0⟩

namespace LockState
variable (b : Build) (s : LockState Cpu) (c : Cpu)

/-- The state with a CPU at another place. -/
def move (place : Place) : LockState Cpu := { s with place := Function.update s.place c place }

/-- The end of a call that got the lock. -/
def acquired (lock : Word) : LockState Cpu :=
  { s.move c .out with lock := lock, held := Function.update s.held c (s.held c + 1) }

/-- The next atomic instruction of a CPU, and what the call returns if it ends with it. -/
def run : Option (Option Word × LockState Cpu) :=
  match s.place c with
  | .out => none
  | .trying =>
    let (lock, ret) := tryLock b s.lock
    if ret = 0 then some (some ret, s.acquired c lock)
    else some (some ret, { s.move c .out with lock := lock })
  | .locking i =>
    let (lock, leaves) := lockTurn b s.lock
    if leaves then some (none, s.acquired c lock)
    else
      -- the counter of the turns is kept in debug builds only
      let place :=
        if !b.debug then .locking i
        else if i + 1 < deadlockMaxIter then .locking (i + 1)
        else .detecting
      some (none, { s.move c place with lock := lock })
  | .detecting =>
    let (word, ret) := lockedWrite b.machine 1 s.deadlockDetectLock
    let place := if ret ≠ 0 then .detecting else .reporting
    some (none, { s.move c place with deadlockDetectLock := word })
  | .reporting =>
    let (word, _) := lockedWrite b.machine 0 s.deadlockDetectLock
    some (none, { s.move c (.locking 0) with deadlockDetectLock := word })
  | .unlocking =>
    some (none, { s.move c .out with
      lock := unlockWord b s.lock
      held := Function.update s.held c (s.held c - 1) })

/-- A step of a CPU. Calls are made outside the code of the lock, and a CPU only unlocks what it has
acquired. -/
def step : LockAct → Option (Option Word × LockState Cpu)
  | .callTryLock => if s.place c = .out then some (none, s.move c .trying) else none
  | .callLock => if s.place c = .out then some (none, s.move c (.locking 0)) else none
  | .callUnlock => if s.place c = .out ∧ 0 < s.held c then some (none, s.move c .unlocking) else none
  | .run => s.run b c

/-- Instructions of one CPU, while no other one acts. -/
def runAlone : Nat → Option (LockState Cpu)
  | 0 => some s
  | n + 1 => (runAlone n).bind fun s' => (s'.run b c).map Prod.snd

end LockState

/-- At most one CPU has acquired the lock and not released it. -/
def LockState.Exclusive (s : LockState Cpu) : Prop := ∀ c d, 0 < s.held c → 0 < s.held d → c = d

/-- A CPU that tries to acquire the lock while it is free gets it, if no other CPU acts. -/
def LockState.Obtains (b : Build) (s : LockState Cpu) : Prop :=
  s.lock = 0 → ∀ c, (s.place c = .trying ∨ ∃ i, s.place c = .locking i) →
    ∃ n s', s.runAlone b c n = some s' ∧ s'.held c = s.held c + 1 ∧ s'.place c = .out

/-- The lock word tells whether there is a holder. -/
structure LockState.Owned (s : LockState Cpu) (holder : Option Cpu) : Prop where
  lock : s.lock = if holder.isSome then 1 else 0
  held : ∀ c, s.held c = if holder = some c then 1 else 0

end Step

/-! ## Mutual exclusion -/

/-- The build whose lock does not exclude. -/
def Build.broken : Build := ⟨.x86_64, false⟩

/-- The instructions of all other builds: they take a free lock, and find out about a taken one. -/
lemma Build.instructions {b : Build} (sound : b ≠ .broken) :
    tryLock b 0 = (1, 0) ∧ tryLock b 1 = (1, 1) ∧ lockTurn b 0 = (1, true) ∧ lockTurn b 1 = (1, false) ∧
      unlockWord b 1 = 0 := by
  obtain ⟨machine, debug⟩ := b
  cases machine <;> cases debug <;> first | decide | exact absurd rfl sound

section Steps
variable {Cpu : Type} [DecidableEq Cpu] {b : Build} {s s' : LockState Cpu} {c : Cpu} {holder : Option Cpu}

namespace LockState

/-- Going on does not touch the lock word. -/
@[simp] lemma move_lock {place} : (s.move c place).lock = s.lock := rfl

/-- Nor who holds the lock. -/
@[simp] lemma move_held {place} : (s.move c place).held = s.held := rfl

/-- Nobody owns the lock at first. -/
lemma init_owned : (init : LockState Cpu).Owned none := ⟨rfl, fun _ => rfl⟩

/-- A step that leaves the lock word and what is held. -/
lemma Owned.keep (owned : s.Owned holder) (lock : s'.lock = s.lock) (held : s'.held = s.held) :
    s'.Owned holder :=
  ⟨lock.trans owned.lock, fun c => by rw [held, owned.held]⟩

/-- The lock is free, or it is taken. -/
lemma Owned.cases (owned : s.Owned holder) :
    (holder = none ∧ s.lock = 0) ∨ ∃ h, holder = some h ∧ s.lock = 1 := by
  have lock := owned.lock
  cases holder with
  | none => exact .inl ⟨rfl, lock⟩
  | some h => exact .inr ⟨h, rfl, lock⟩

/-- A CPU that finds the lock free owns it. -/
lemma Owned.acquired (owned : s.Owned none) : (s.acquired c 1).Owned (some c) := by
  refine ⟨rfl, ?_⟩
  intro d
  have none := owned.held
  by_cases same : d = c
  · subst same
    simp [LockState.acquired, none]
  · simp [LockState.acquired, none, same, Ne.symm same]

/-- The CPU that has something to unlock is the holder. -/
lemma Owned.holder_eq (owned : s.Owned holder) (pos : 0 < s.held c) : holder = some c := by
  by_contra other
  rw [owned.held, if_neg other] at pos
  omega

/-- An owner excludes all others. -/
lemma Owned.exclusive (owned : s.Owned holder) : s.Exclusive := by
  intro c d hc hd
  have first := owned.holder_eq hc
  have second := owned.holder_eq hd
  rw [first] at second
  exact Option.some.inj second

/-- A CPU in `spinlock_unlock` has something to unlock. -/
def Unlocks (s : LockState Cpu) : Prop := ∀ c, s.place c = .unlocking → 0 < s.held c

/-- What holds in every state: the lock word tells who holds the lock, and CPUs only unlock what they
have. -/
structure Inv (s : LockState Cpu) : Prop where
  owned : ∃ holder, s.Owned holder
  unlocks : s.Unlocks

/-- A CPU that moves to a place other than `spinlock_unlock`, if no CPU loses anything. -/
lemma Unlocks.move (unlocks : s.Unlocks) {place : Place} (other : place ≠ .unlocking)
    (places : s'.place = Function.update s.place c place) (held : ∀ d, d ≠ c → s'.held d = s.held d) :
    s'.Unlocks := by
  intro d unlocking
  rw [places] at unlocking
  by_cases same : d = c
  · subst same
    rw [Function.update_self] at unlocking
    exact absurd unlocking other
  · rw [Function.update_of_ne same] at unlocking
    rw [held d same]
    exact unlocks d unlocking

/-- Going on anywhere but into an unlock keeps the invariant. -/
lemma Inv.move (inv : s.Inv) {place : Place} (other : place ≠ .unlocking)
    (places : s'.place = Function.update s.place c place) (lock : s'.lock = s.lock)
    (held : s'.held = s.held) : s'.Inv := by
  obtain ⟨⟨holder, owned⟩, unlocks⟩ := inv
  exact ⟨⟨holder, owned.keep lock held⟩, unlocks.move other places fun d _ => by rw [held]⟩

/-- So does taking the free lock. -/
lemma Inv.acquired (inv : s.Inv) (free : s.lock = 0) : (s.acquired c 1).Inv := by
  obtain ⟨⟨holder, owned⟩, unlocks⟩ := inv
  rcases owned.cases with ⟨rfl, -⟩ | ⟨h, rfl, taken⟩
  · refine ⟨⟨_, owned.acquired⟩, unlocks.move (by decide) rfl ?_⟩
    intro d other
    exact Function.update_of_ne other _ _
  · rw [free] at taken
    cases taken

/-- The lock word is 0 or 1. -/
lemma Inv.word (inv : s.Inv) : s.lock = 0 ∨ s.lock = 1 := by
  obtain ⟨⟨holder, owned⟩, -⟩ := inv
  rcases owned.cases with ⟨-, free⟩ | ⟨h, -, taken⟩
  · exact .inl free
  · exact .inr taken

/-- The instructions of the calls keep the invariant. -/
lemma Inv.run (sound : b ≠ .broken) (inv : s.Inv) {ret : Option Word} (h : s.run b c = some (ret, s')) :
    s'.Inv := by
  obtain ⟨tryFree, tryTaken, turnFree, turnTaken, unlocked⟩ := Build.instructions sound
  unfold LockState.run at h
  cases place : s.place c with
  | out => simp [place] at h
  | trying =>
    rcases inv.word with free | taken
    · simp only [place, free, tryFree, if_true, Option.some.injEq, Prod.mk.injEq] at h
      rw [← h.2]
      exact inv.acquired free
    · simp only [place, taken, tryTaken] at h
      obtain ⟨-, rfl⟩ := Prod.mk.inj (Option.some.inj h)
      exact inv.move (show Place.out ≠ .unlocking by decide) rfl taken.symm rfl
  | locking i =>
    rcases inv.word with free | taken
    · simp only [place, free, turnFree, if_true, Option.some.injEq, Prod.mk.injEq] at h
      rw [← h.2]
      exact inv.acquired free
    · simp only [place, taken, turnTaken, Bool.false_eq_true, if_false, Option.some.injEq,
        Prod.mk.injEq] at h
      rw [← h.2]
      refine inv.move ?_ rfl taken.symm rfl
      split_ifs <;> simp
  | detecting =>
    simp only [place, Option.some.injEq, Prod.mk.injEq] at h
    rw [← h.2]
    refine inv.move ?_ rfl rfl rfl
    split_ifs <;> simp
  | reporting =>
    simp only [place, Option.some.injEq, Prod.mk.injEq] at h
    rw [← h.2]
    exact inv.move (by simp) rfl rfl rfl
  | unlocking =>
    simp only [place, Option.some.injEq, Prod.mk.injEq] at h
    rw [← h.2]
    obtain ⟨⟨holder, owned⟩, unlocks⟩ := inv
    -- only the holder unlocks, so nobody has the lock afterwards
    have holds := owned.holder_eq (unlocks c place)
    subst holds
    have taken : s.lock = 1 := owned.lock
    refine ⟨⟨none, ?_, ?_⟩, unlocks.move (by decide) rfl ?_⟩
    · show unlockWord b s.lock = 0
      rw [taken, unlocked]
    · intro d
      have held := owned.held d
      by_cases same : d = c
      · subst same
        simp_all
      · simp_all [Ne.symm same]
    · intro d other
      exact Function.update_of_ne other _ _

/-- All steps keep the invariant. -/
lemma Inv.step (sound : b ≠ .broken) (inv : s.Inv) {act : LockAct} {ret : Option Word}
    (h : s.step b c act = some (ret, s')) : s'.Inv := by
  cases act with
  | callTryLock =>
    obtain ⟨-, e⟩ := Option.ite_none_right_eq_some.mp h
    cases e
    exact inv.move (by decide) rfl rfl rfl
  | callLock =>
    obtain ⟨-, e⟩ := Option.ite_none_right_eq_some.mp h
    cases e
    exact inv.move (by simp) rfl rfl rfl
  | callUnlock =>
    obtain ⟨⟨-, pos⟩, e⟩ := Option.ite_none_right_eq_some.mp h
    cases e
    obtain ⟨⟨holder, owned⟩, unlocks⟩ := inv
    refine ⟨⟨holder, owned.keep rfl rfl⟩, ?_⟩
    intro d unlocking
    by_cases same : d = c
    · subst same
      exact pos
    · refine unlocks d ?_
      simpa [LockState.move, same] using unlocking
  | run => exact inv.run sound h

/-- A CPU that finds the lock free has it after its next instruction. -/
lemma obtains_of_sound (sound : b ≠ .broken) : s.Obtains b := by
  obtain ⟨tryFree, -, turnFree, -, -⟩ := Build.instructions sound
  intro free c attempt
  obtain ⟨ret, runs⟩ : ∃ ret, s.run b c = some (ret, s.acquired c 1) := by
    unfold LockState.run
    rcases attempt with trying | ⟨i, locking⟩
    · exact ⟨some 0, by simp only [trying, free, tryFree, if_true]⟩
    · exact ⟨none, by simp only [locking, free, turnFree, if_true]⟩
  refine ⟨1, s.acquired c 1, ?_, ?_, ?_⟩
  · simp [runAlone, runs]
  · simp [LockState.acquired]
  · simp [LockState.acquired, LockState.move]

/-- A CPU in `spinlock_lock` of the broken build goes round for as long as it finds the lock free. -/
lemma broken_spins {i : Nat} (free : s.lock = 0) (locking : s.place c = .locking i) (n : Nat) :
    ∃ s', s.runAlone .broken c n = some s' ∧ s'.lock = 0 ∧ s'.place c = .locking i ∧ s'.held = s.held := by
  induction n with
  | zero => exact ⟨s, rfl, free, locking, rfl⟩
  | succ n ih =>
    obtain ⟨s', alone, free', locking', held⟩ := ih
    have turn : lockTurn .broken 0 = (0, false) := by decide
    have debug : Build.broken.debug = false := rfl
    have runs : s'.run .broken c = some (none, { s'.move c (.locking i) with lock := 0 }) := by
      unfold LockState.run
      simp only [locking', free', turn, debug, Bool.not_false, if_true, Bool.false_eq_true, if_false]
    refine ⟨{ s'.move c (.locking i) with lock := 0 }, ?_, rfl, ?_, held⟩
    · simp [runAlone, alone, runs]
    · simp [LockState.move]

/-- So it does not get a free lock. -/
lemma broken_not_obtains (c : Cpu) : ¬ ((init : LockState Cpu).move c (.locking 0)).Obtains .broken := by
  intro obtains
  have locking : ((init : LockState Cpu).move c (.locking 0)).place c = .locking 0 := by
    simp [LockState.move]
  obtain ⟨n, s', alone, -, out⟩ := obtains rfl c (.inr ⟨0, locking⟩)
  obtain ⟨s'', alone', -, locking', -⟩ := broken_spins rfl locking n
  rw [alone] at alone'
  cases alone'
  rw [out] at locking'
  cases locking'

end LockState

/-- For every build, any number of CPUs and all runs of their calls and atomic instructions: never two CPUs
have the lock, and one that tries to acquire it while it is free gets it if no other one acts, if and only
if the build is not that of x86_64 without `_DEBUG_`. -/
theorem spinlock_excludes_iff [Inhabited Cpu] (b : Build) :
    (∀ events s, Run (LockState.step b) (LockState.init : LockState Cpu) events s →
        s.Exclusive ∧ s.Obtains b) ↔
      b ≠ ⟨.x86_64, false⟩ := by
  constructor
  · rintro all rfl
    let locking := (LockState.init : LockState Cpu).move default (.locking 0)
    have start : Run (LockState.step .broken) (LockState.init : LockState Cpu) [] .init := .nil
    have calls : Run (LockState.step .broken) (LockState.init : LockState Cpu)
        [⟨.init, default, .callLock, none, locking⟩] locking :=
      Run.snoc (e := ⟨.init, default, .callLock, none, locking⟩) start rfl
    exact LockState.broken_not_obtains default (all _ _ calls).2
  · intro sound events s run
    obtain ⟨inv, -⟩ := run.invariant (I := LockState.Inv) (P := fun _ => True)
      ⟨⟨none, LockState.init_owned⟩, by intro c h; cases h⟩
      fun e _ inv done => ⟨inv.step sound done, trivial⟩
    obtain ⟨holder, owned⟩ := inv.owned
    exact ⟨owned.exclusive, LockState.obtains_of_sound sound⟩

end Steps

/-- Two CPUs that get the lock of x86_64 without `_DEBUG_` from `spinlock_try_lock`. -/
theorem spinlock_tryLock_twice :
    ∃ events s, Run (LockState.step ⟨.x86_64, false⟩) (LockState.init : LockState (Fin 2)) events s ∧
      s.held 0 = 1 ∧ s.held 1 = 1 ∧ ¬ s.Exclusive := by
  have outcome : ∃ events s, schedule (LockState.step ⟨.x86_64, false⟩)
      (LockState.init : LockState (Fin 2))
      [(0, .callTryLock), (0, .run), (1, .callTryLock), (1, .run)] = some (events, s) ∧
      s.held 0 = 1 ∧ s.held 1 = 1 := ⟨_, _, rfl, rfl, rfl⟩
  obtain ⟨events, s, done, first, second⟩ := outcome
  refine ⟨events, s, .of_schedule done, first, second, ?_⟩
  intro exclusive
  have := exclusive 0 1 (by omega) (by omega)
  cases this

end WivOS.Arch
