import Mathlib.Tactic

/-!
# Atomic variables

Model of `locked_read`, `locked_write`, `locked_inc` and `locked_dec` of `kernel/arch/*/spinlock.c`: on
riscv64 they are the atomics of the compiler, on x86_64 inline assembly, of which the instructions are
given first. An operation takes the contents of its variable to the new contents and a return value.

The two agree only on the reads and on those operations of which the new contents are `0` or `1`, which are
then also what x86_64 returns (`locked_agree_iff`): its `locked_write` stores a zero, and its `locked_inc`
and `locked_dec` return a flag.
-/

namespace WivOS.Arch

/-- C `uint32_t`. -/
abbrev Word := BitVec 32

/-! ## Instructions -/

namespace X86

/-- `xadd reg, mem`: the new memory and the new register. -/
def xadd (reg mem : Word) : Word × Word := (mem + reg, mem)

/-- `xchg reg, mem`: the new memory and the new register. -/
def xchg (reg mem : Word) : Word × Word := (reg, mem)

/-- `incl mem`: the new memory and the zero flag. -/
def incl (mem : Word) : Word × Bool := (mem + 1, mem + 1 = 0)

/-- `decl mem`: the new memory and the zero flag. -/
def decl (mem : Word) : Word × Bool := (mem - 1, mem - 1 = 0)

/-- `btsl $0, mem`: the new memory and the carry flag. -/
def btsl (mem : Word) : Word × Bool := (mem ||| 1, mem.getLsbD 0)

/-- `btrl $0, mem`: the new memory and the carry flag. -/
def btrl (mem : Word) : Word × Bool := (mem &&& ~~~1, mem.getLsbD 0)

/-- The output constraint `=@ccnz`. -/
def ccnz (zero : Bool) : Word := if zero then 0 else 1

/-- The output constraint `=@ccc`. -/
def ccc (carry : Bool) : Word := if carry then 1 else 0

end X86

/-- The machines that the kernel is built for. -/
inductive Machine where
  | riscv64 | x86_64
deriving Repr, DecidableEq

/-! ## The operations -/

/-- C `locked_read`: the new contents and the return value. On x86_64 it is `xadd` of a zero. -/
def lockedRead (m : Machine) (var : Word) : Word × Word :=
  match m with
  | .riscv64 => (var, var)
  | .x86_64 => X86.xadd 0 var

/-- C `locked_write`. On x86_64 the register of `xchg` is `ret`, which is zero; `value` is not used. -/
def lockedWrite (m : Machine) (value var : Word) : Word × Word :=
  match m with
  | .riscv64 => (value, var)
  | .x86_64 => X86.xchg 0 var

/-- C `locked_inc`. On x86_64 `ret` is the flag that the new contents are not zero. -/
def lockedInc (m : Machine) (var : Word) : Word × Word :=
  match m with
  | .riscv64 => (var + 1, var + 1)
  | .x86_64 => ((X86.incl var).1, X86.ccnz (X86.incl var).2)

/-- C `locked_dec`. -/
def lockedDec (m : Machine) (var : Word) : Word × Word :=
  match m with
  | .riscv64 => (var - 1, var - 1)
  | .x86_64 => ((X86.decl var).1, X86.ccnz (X86.decl var).2)

/-- A call on an atomic variable. -/
inductive LockedOp where
  | read
  | write (value : Word)
  | inc
  | dec
deriving Repr, DecidableEq

/-- A call as a machine does it. -/
def Machine.locked (m : Machine) : LockedOp → Word → Word × Word
  | .read => lockedRead m
  | .write value => lockedWrite m value
  | .inc => lockedInc m
  | .dec => lockedDec m

/-- A call as it is meant: the new contents and the return value. -/
def LockedOp.meant : LockedOp → Word → Word × Word
  | .read, var => (var, var)
  | .write value, var => (value, var)
  | .inc, var => (var + 1, var + 1)
  | .dec, var => (var - 1, var - 1)

/-- The contents and return values of calls behind each other. -/
def history (op : LockedOp → Word → Word × Word) : Word → List LockedOp → List (Word × Word)
  | _, [] => []
  | var, o :: rest => op o var :: history op (op o var).1 rest

/-- A call that does not write, or of which the new contents are `0` or `1` and a return value alike: one
writes a zero, and one counts up to or down to `0` or `1`. -/
def LockedOp.Plain : LockedOp → Word → Prop
  | .read, _ => True
  | .write value, _ => value = 0
  | .inc, var => var = 0 ∨ var = 0xFFFFFFFF
  | .dec, var => var = 1 ∨ var = 2

/-- All calls are plain in the contents that the calls before them leave. -/
def Plain : Word → List LockedOp → Prop
  | _, [] => True
  | var, o :: rest => o.Plain var ∧ Plain (o.meant var).1 rest

/-- On riscv64 the calls do what is meant. -/
lemma riscv64_locked : Machine.riscv64.locked = LockedOp.meant := by
  funext o var
  cases o <;> rfl

/-- The flag of a count is the count itself if that is `0` or `1`. -/
lemma ccnz_eq_iff (new : Word) : X86.ccnz (decide (new = 0)) = new ↔ new = 0 ∨ new = 1 := by
  unfold X86.ccnz
  by_cases zero : new = 0
  · simp [zero]
  · rw [decide_eq_false zero, if_neg (by simp)]
    exact ⟨fun h => .inr h.symm, fun h => (h.resolve_left zero).symm⟩

/-- On x86_64 a call does what is meant if and only if it is plain. -/
lemma x86_64_locked_iff (o : LockedOp) (var : Word) :
    Machine.x86_64.locked o var = o.meant var ↔ o.Plain var := by
  cases o with
  | read => simp [Machine.locked, lockedRead, X86.xadd, LockedOp.meant, LockedOp.Plain]
  | write value =>
    show ((0 : Word), var) = (value, var) ↔ value = 0
    rw [Prod.mk.injEq, and_iff_left rfl]
    exact eq_comm
  | inc =>
    have counts : Machine.x86_64.locked .inc var = LockedOp.inc.meant var ↔ var + 1 = 0 ∨ var + 1 = 1 := by
      rw [← ccnz_eq_iff]
      simp [Machine.locked, lockedInc, X86.incl, LockedOp.meant]
    rw [counts]
    show _ ↔ var = 0 ∨ var = 0xFFFFFFFF
    constructor <;> rintro (h | h) <;> bv_omega
  | dec =>
    have counts : Machine.x86_64.locked .dec var = LockedOp.dec.meant var ↔ var - 1 = 0 ∨ var - 1 = 1 := by
      rw [← ccnz_eq_iff]
      simp [Machine.locked, lockedDec, X86.decl, LockedOp.meant]
    rw [counts]
    show _ ↔ var = 1 ∨ var = 2
    constructor <;> rintro (h | h) <;> bv_omega

/-- The history of a machine is the one that is meant if and only if every call is. -/
lemma history_eq_iff (var : Word) (ops : List LockedOp) :
    history Machine.x86_64.locked var ops = history LockedOp.meant var ops ↔ Plain var ops := by
  induction ops generalizing var with
  | nil => simp [history, Plain]
  | cons o rest ih =>
    rw [history, history, List.cons.injEq, Plain, x86_64_locked_iff]
    constructor
    · rintro ⟨plain, same⟩
      rw [(x86_64_locked_iff o var).mpr plain, ih] at same
      exact ⟨plain, same⟩
    · rintro ⟨plain, rest'⟩
      rw [(x86_64_locked_iff o var).mpr plain, ih]
      exact ⟨plain, rest'⟩

/-- For all initial contents and calls: the two machines leave the same contents and return the same values,
those that are meant, if and only if every call is plain in the contents that it finds. -/
theorem locked_agree_iff (var : Word) (ops : List LockedOp) :
    (history Machine.x86_64.locked var ops = history Machine.riscv64.locked var ops ∧
        history Machine.riscv64.locked var ops = history LockedOp.meant var ops) ↔
      Plain var ops := by
  rw [riscv64_locked, history_eq_iff]
  simp

/-- `locked_write` of a one, and a `locked_inc` behind it: x86_64 stores a zero, and counts it up to one. -/
theorem locked_write_differs :
    history Machine.riscv64.locked 0 [.write 1, .inc] = [(1, 0), (2, 2)] ∧
      history Machine.x86_64.locked 0 [.write 1, .inc] = [(0, 0), (1, 1)] := by
  decide

end WivOS.Arch
