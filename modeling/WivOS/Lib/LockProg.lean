import Mathlib.Data.Set.Insert
import Mathlib.Logic.Relation
import Mathlib.Tactic

/-!
# Programs with locks

Programs that take and release locks and act on a shared state, over any type of locks. A program runs
alone (`Prog.run`), or a number of CPUs run programs of their own and every lock operation and every
action is one step (`Sys.step`). `Prog.Follows` is a discipline of locks for one program: which locks
it asks for while it holds which others. Where the programs of all CPUs follow theirs, it holds of the
whole system in every state (`Disciplined.reachable`), and says who waits for whom.
-/

namespace WivOS.Lib.LockProg

/-- A program over locks `L` and a shared state `σ`; an action may fail with an error. -/
inductive Prog (L σ ε : Type) (α : Type) : Type 1 where
  | ret (a : α)
  | lock (l : L) (k : Prog L σ ε α)
  /-- One attempt; the rest is told whether the lock was taken already. -/
  | tryLock (l : L) (k : Bool → Prog L σ ε α)
  | unlock (l : L) (k : Prog L σ ε α)
  | act {β : Type} (f : σ → Except ε (β × σ)) (k : β → Prog L σ ε α)

/-- The kinds of locks: those that only their holder frees, and those that are tried and never spun
for. -/
structure Discipline (L : Type) where
  owned : L → Bool
  tried : L → Bool

namespace Prog
variable {L σ ε α β γ : Type}

/-- Runs one program and then another. -/
def bind : Prog L σ ε α → (α → Prog L σ ε β) → Prog L σ ε β
  | ret a, f => f a
  | lock l k, f => lock l (k.bind f)
  | tryLock l k, f => tryLock l fun taken => (k taken).bind f
  | unlock l k, f => unlock l (k.bind f)
  | act g k, f => act g fun b => (k b).bind f

instance : Monad (Prog L σ ε) where
  pure := ret
  bind := bind

/-- Spins until the lock is free and takes it. -/
def acquire (l : L) : Prog L σ ε Unit := lock l (ret ())

/-- Takes the lock if it is free, and returns whether it was taken already. -/
def attempt (l : L) : Prog L σ ε Bool := tryLock l ret

/-- Frees the lock. -/
def release (l : L) : Prog L σ ε Unit := unlock l (ret ())

/-- An action that may fail. -/
def perform (f : σ → Except ε (α × σ)) : Prog L σ ε α := act f ret

/-- Reads the state. -/
def read (f : σ → α) : Prog L σ ε α := perform fun s => .ok (f s, s)

/-- Changes the state. -/
def modify (f : σ → σ) : Prog L σ ε Unit := perform fun s => .ok ((), f s)

/-- What becomes of a program that runs alone: it returns, waits for a lock forever, or fails. -/
inductive Outcome (L σ ε α : Type) where
  | done (a : α) (locked : L → Bool) (s : σ)
  | blocked (l : L)
  | failed (e : ε)

namespace Outcome

/-- The program returned. -/
def isDone : Outcome L σ ε α → Bool
  | done _ _ _ => true
  | _ => false

/-- The locks when the program returned. -/
def locks : Outcome L σ ε α → L → Bool
  | done _ locked _ => locked
  | _ => fun _ => false

/-- The state when the program returned. -/
def state (d : σ) : Outcome L σ ε α → σ
  | done _ _ s => s
  | _ => d

/-- The outcome of a program that ran to its end. -/
lemma exists_done {o : Outcome L σ ε α} (h : o.isDone = true) (d : σ) :
    ∃ a, o = .done a o.locks (o.state d) := by
  cases o with
  | done a locked s => exact ⟨a, rfl⟩
  | blocked l => cases h
  | failed e => cases h

end Outcome

section Run
variable [DecidableEq L]

/-- Runs a program alone. -/
def run : Prog L σ ε α → (L → Bool) → σ → Outcome L σ ε α
  | ret a, locked, s => .done a locked s
  | lock l k, locked, s =>
    if locked l then .blocked l else k.run (Function.update locked l true) s
  | tryLock l k, locked, s =>
    if locked l then (k true).run locked s else (k false).run (Function.update locked l true) s
  | unlock l k, locked, s => k.run (Function.update locked l false) s
  | act f k, locked, s =>
    match f s with
    | .ok (b, s) => (k b).run locked s
    | .error e => .failed e

/-- Goes on from an outcome. -/
def Outcome.andThen (o : Outcome L σ ε α) (f : α → (L → Bool) → σ → Outcome L σ ε β) :
    Outcome L σ ε β :=
  match o with
  | .done a locked s => f a locked s
  | .blocked l => .blocked l
  | .failed e => .failed e

variable {locked : L → Bool} {s : σ} {l : L}

/-- Returning leaves locks and state alone. -/
@[simp] lemma run_pure (a : α) : (pure a : Prog L σ ε α).run locked s = .done a locked s := rfl

/-- A sequence is run part after part. -/
lemma run_bind (p : Prog L σ ε α) (f : α → Prog L σ ε β) :
    (p >>= f).run locked s = (p.run locked s).andThen fun a locked s => (f a).run locked s := by
  change (p.bind f).run locked s = _
  induction p generalizing locked s with
  | ret a => rfl
  | lock l k ih =>
    simp only [bind, run]
    split
    · rfl
    · exact ih
  | tryLock l k ih =>
    simp only [bind, run]
    split
    · exact ih true
    · exact ih false
  | unlock l k ih => exact ih
  | act g k ih =>
    simp only [bind, run]
    cases g s with
    | ok r => exact ih r.1
    | error e => rfl

omit [DecidableEq L] in
/-- What follows goes on with the result. -/
@[simp] lemma Outcome.andThen_done {a : α} {f : α → (L → Bool) → σ → Outcome L σ ε β} :
    (Outcome.done a locked s : Outcome L σ ε α).andThen f = f a locked s := rfl

omit [DecidableEq L] in
/-- Nothing follows a failure. -/
@[simp] lemma Outcome.andThen_failed {e : ε} {f : α → (L → Bool) → σ → Outcome L σ ε β} :
    (Outcome.failed e : Outcome L σ ε α).andThen f = .failed e := rfl

/-- Both parts of a sequence that ends have ended. -/
lemma run_bind_done {p : Prog L σ ε α} {f : α → Prog L σ ε β} {b : β} {locked' : L → Bool} {s' : σ}
    (h : (p >>= f).run locked s = .done b locked' s') :
    ∃ a locked₁ s₁, p.run locked s = .done a locked₁ s₁ ∧ (f a).run locked₁ s₁ = .done b locked' s' := by
  rw [run_bind] at h
  cases hp : p.run locked s with
  | done a locked₁ s₁ =>
    rw [hp] at h
    exact ⟨a, locked₁, s₁, rfl, h⟩
  | blocked l =>
    rw [hp] at h
    cases h
  | failed e =>
    rw [hp] at h
    cases h

/-- A free lock is taken. -/
lemma run_acquire (h : locked l = false) :
    (acquire l : Prog L σ ε Unit).run locked s = .done () (Function.update locked l true) s := by
  simp [acquire, run, h]

/-- A lock that is held blocks. -/
lemma run_acquire_blocked (h : locked l = true) :
    (acquire l : Prog L σ ε Unit).run locked s = .blocked l := by
  simp [acquire, run, h]

/-- An attempt takes a free lock. -/
lemma run_attempt_free (h : locked l = false) :
    (attempt l : Prog L σ ε Bool).run locked s = .done false (Function.update locked l true) s := by
  simp [attempt, run, h]

/-- An attempt at a lock that is held leaves it. -/
lemma run_attempt_taken (h : locked l = true) :
    (attempt l : Prog L σ ε Bool).run locked s = .done true locked s := by
  simp [attempt, run, h]

/-- A release frees the lock. -/
@[simp] lemma run_release :
    (release l : Prog L σ ε Unit).run locked s = .done () (Function.update locked l false) s := rfl

/-- A read returns a part of the state. -/
@[simp] lemma run_read (f : σ → α) :
    (read f : Prog L σ ε α).run locked s = .done (f s) locked s := rfl

/-- A write changes the state. -/
@[simp] lemma run_modify (f : σ → σ) :
    (modify f : Prog L σ ε Unit).run locked s = .done () locked (f s) := rfl

/-- An action that succeeds. -/
lemma run_perform_ok {f : σ → Except ε (α × σ)} {a : α} {s' : σ} (h : f s = .ok (a, s')) :
    (perform f : Prog L σ ε α).run locked s = .done a locked s' := by
  simp [perform, run, h]

/-- An action that ended has succeeded, and has no effect on the locks. -/
lemma run_perform_done {f : σ → Except ε (α × σ)} {a : α} {locked' : L → Bool} {s' : σ}
    (h : (perform f : Prog L σ ε α).run locked s = .done a locked' s') :
    locked = locked' ∧ f s = .ok (a, s') := by
  simp only [perform, run] at h
  split at h
  next b s₁ e =>
    cases h
    exact ⟨rfl, e⟩
  next => cases h

/-- A lock that was taken was free. -/
lemma run_acquire_done {locked' : L → Bool} {s' : σ}
    (h : (acquire l : Prog L σ ε Unit).run locked s = .done () locked' s') : locked l = false := by
  cases hl : locked l with
  | false => rfl
  | true =>
    rw [run_acquire_blocked hl] at h
    cases h

/-- An action that fails. -/
lemma run_perform_error {f : σ → Except ε (α × σ)} {e : ε} (h : f s = .error e) :
    (perform f : Prog L σ ε α).run locked s = .failed e := by
  simp [perform, run, h]

end Run

section Laws
variable (p : Prog L σ ε α)

/-- Returning the result adds nothing. -/
lemma bind_ret : p.bind ret = p := by
  induction p with
  | ret a => rfl
  | lock l k ih => rw [bind, ih]
  | tryLock l k ih => rw [bind, funext ih]
  | unlock l k ih => rw [bind, ih]
  | act g k ih => rw [bind, funext ih]

/-- Sequences are associative. -/
lemma bind_bind (f : α → Prog L σ ε β) (g : β → Prog L σ ε γ) :
    (p.bind f).bind g = p.bind fun a => (f a).bind g := by
  induction p with
  | ret a => rfl
  | lock l k ih => rw [bind, bind, bind, ih]
  | tryLock l k ih =>
    rw [bind, bind, bind]
    exact congrArg _ (funext ih)
  | unlock l k ih => rw [bind, bind, bind, ih]
  | act h k ih =>
    rw [bind, bind, bind]
    exact congrArg _ (funext ih)

instance : LawfulMonad (Prog L σ ε) :=
  LawfulMonad.mk' _ bind_ret (fun _ _ => rfl) bind_bind

end Laws

/-- The program holds the owned locks of `H` and follows the order `R`, which says what it may spin for
while it holds what. It ends with `Q`. -/
def Follows (D : Discipline L) (R : Set L → L → Prop) (Q : α → Set L → Prop) :
    Prog L σ ε α → Set L → Prop
  | ret a, H => Q a H
  | lock l k, H => D.owned l = true ∧ R H l ∧ k.Follows D R Q (insert l H)
  | tryLock l k, H =>
    (D.owned l = true → D.tried l = true) ∧ (k true).Follows D R Q H ∧
      (k false).Follows D R Q (if D.owned l then insert l H else H)
  | unlock l k, H => (D.owned l = true → l ∈ H) ∧ k.Follows D R Q (if D.owned l then H \ {l} else H)
  | act _ k, H => ∀ b, (k b).Follows D R Q H

section Follows
variable {D : Discipline L} {R : Set L → L → Prop} {Q : α → Set L → Prop} {H : Set L}

/-- A sequence follows the order if its first part does and leads to where the rest does. -/
lemma follows_bind {Q : β → Set L → Prop} (p : Prog L σ ε α) (f : α → Prog L σ ε β) :
    (p >>= f).Follows D R Q H ↔ p.Follows D R (fun a H => (f a).Follows D R Q H) H := by
  change (p.bind f).Follows D R Q H ↔ _
  induction p generalizing H with
  | ret a => rfl
  | lock l k ih => exact and_congr_right' (and_congr_right' ih)
  | tryLock l k ih => exact and_congr_right' (and_congr (ih true) (ih false))
  | unlock l k ih => exact and_congr_right' ih
  | act g k ih => exact forall_congr' fun b => ih b

/-- Returning follows any order. -/
lemma follows_pure {a : α} (h : Q a H) : (pure a : Prog L σ ε α).Follows D R Q H := h

/-- So does an action. -/
lemma follows_perform {f : σ → Except ε (α × σ)} (h : ∀ a, Q a H) :
    (perform f : Prog L σ ε α).Follows D R Q H := h

/-- So does a read. -/
lemma follows_read {f : σ → α} (h : ∀ a, Q a H) : (read f : Prog L σ ε α).Follows D R Q H := h

/-- So does a write. -/
lemma follows_modify {Q : Unit → Set L → Prop} {f : σ → σ} (h : Q () H) :
    (modify f : Prog L σ ε Unit).Follows D R Q H := fun _ => h

/-- A weaker postcondition. -/
lemma Follows.mono {Q' : α → Set L → Prop} {p : Prog L σ ε α} (h : p.Follows D R Q H)
    (hQ : ∀ a H, Q a H → Q' a H) : p.Follows D R Q' H := by
  induction p generalizing H with
  | ret a => exact hQ a H h
  | lock l k ih => exact ⟨h.1, h.2.1, ih h.2.2⟩
  | tryLock l k ih => exact ⟨h.1, ih true h.2.1, ih false h.2.2⟩
  | unlock l k ih => exact ⟨h.1, ih h.2⟩
  | act g k ih => exact fun b => ih b (h b)

end Follows

end Prog

/-- A number of CPUs with what is left of the call that each executes, if any. -/
structure Sys (C K L σ ε : Type) where
  holder : L → Option C
  data : σ
  prog : C → Option (K × Prog L σ ε Unit)

namespace Sys
variable {C K L σ ε : Type} [DecidableEq C] [DecidableEq L]

/-- What is left of the call of a CPU. -/
def setProg (s : Sys C K L σ ε) (c : C) (p : Option (K × Prog L σ ε Unit)) : Sys C K L σ ε :=
  { s with prog := Function.update s.prog c p }

/-- Who holds a lock. -/
def setHolder (s : Sys C K L σ ε) (l : L) (o : Option C) : Sys C K L σ ε :=
  { s with holder := Function.update s.holder l o }

/-- One step of CPU `c`; where it executes nothing, it begins the call. A CPU that spins on a lock that
is taken, or whose action fails, has no step. -/
def step (body : C → K → Prog L σ ε Unit) (c : C) (call : K) (s : Sys C K L σ ε) :
    Option (Sys C K L σ ε) :=
  match s.prog c with
  | none => some (s.setProg c (some (call, body c call)))
  | some (_, .ret ()) => some (s.setProg c none)
  | some (k, .lock l p) =>
    match s.holder l with
    | none => some ((s.setHolder l (some c)).setProg c (some (k, p)))
    | some _ => none
  | some (k, .tryLock l p) =>
    match s.holder l with
    | none => some ((s.setHolder l (some c)).setProg c (some (k, p false)))
    | some _ => some (s.setProg c (some (k, p true)))
  | some (k, .unlock l p) => some ((s.setHolder l none).setProg c (some (k, p)))
  | some (k, .act f p) =>
    match f s.data with
    | .ok (b, d) => some ({ s with data := d }.setProg c (some (k, p b)))
    | .error _ => none

/-- No call has begun and no lock is taken. -/
def Idle (s : Sys C K L σ ε) : Prop := (∀ l, s.holder l = none) ∧ ∀ c, s.prog c = none

/-- The states of the runs from an idle one whose every step is one that `ok` allows its CPU. -/
inductive Reachable (body : C → K → Prog L σ ε Unit) (ok : Sys C K L σ ε → C → Bool) :
    Sys C K L σ ε → Prop where
  | idle {s} : Idle s → Reachable body ok s
  | step {s s' c call} : Reachable body ok s → ok s c = true → s.step body c call = some s' →
      Reachable body ok s'

/-- Runs the CPUs in the given order. -/
def play (body : C → K → Prog L σ ε Unit) (ok : Sys C K L σ ε → C → Bool) :
    List (C × K) → Sys C K L σ ε → Option (Sys C K L σ ε)
  | [], s => some s
  | (c, call) :: rest, s =>
    if ok s c then (s.step body c call).bind (play body ok rest) else none

/-- CPU `c` spins on a lock that `c'` holds. -/
def Waits (s : Sys C K L σ ε) (c c' : C) : Prop :=
  ∃ k l p, s.prog c = some (k, .lock l p) ∧ s.holder l = some c'

/-- The CPU that holds the lock on which `c` spins. -/
def waitsFor (s : Sys C K L σ ε) (c : C) : Option C :=
  match s.prog c with
  | some (_, .lock l _) => s.holder l
  | _ => none

/-- The owned locks that a CPU holds. -/
def heldBy (D : Discipline L) (s : Sys C K L σ ε) (c : C) : Set L :=
  {l | D.owned l = true ∧ s.holder l = some c}

/-- What a CPU may hold: what the rest of its call expects, and nothing between its calls. -/
def Expects (D : Discipline L) (R : K → Set L → L → Prop) (H : Set L) :
    Option (K × Prog L σ ε Unit) → Prop
  | none => H = ∅
  | some (k, p) => p.Follows D (R k) (fun _ H => H = ∅) H

/-- Every CPU holds what it may. -/
def Disciplined (D : Discipline L) (R : K → Set L → L → Prop) (s : Sys C K L σ ε) : Prop :=
  ∀ c, Expects D R (heldBy D s c) (s.prog c)

omit [DecidableEq L] in
/-- The program of the CPU that was set. -/
@[simp] lemma setProg_self {s : Sys C K L σ ε} {c : C} {p : Option (K × Prog L σ ε Unit)} :
    (s.setProg c p).prog c = p := Function.update_self ..

omit [DecidableEq L] in
/-- The program of another CPU. -/
lemma setProg_of_ne {s : Sys C K L σ ε} {b c : C} {p : Option (K × Prog L σ ε Unit)} (h : b ≠ c) :
    (s.setProg c p).prog b = s.prog b := Function.update_of_ne h ..

section Steps
variable {body : C → K → Prog L σ ε Unit} {s s' : Sys C K L σ ε} {c c' : C} {call : K} {l : L}
  {D : Discipline L} {R : K → Set L → L → Prop}

/-- Everything that a step can do. -/
lemma step_cases (e : s.step body c call = some s') :
    (s.prog c = none ∧ s' = s.setProg c (some (call, body c call))) ∨
    (∃ k, s.prog c = some (k, .ret ()) ∧ s' = s.setProg c none) ∨
    (∃ k l p, s.prog c = some (k, .lock l p) ∧ s.holder l = none ∧
      s' = (s.setHolder l (some c)).setProg c (some (k, p))) ∨
    (∃ k l p, s.prog c = some (k, .tryLock l p) ∧ s.holder l = none ∧
      s' = (s.setHolder l (some c)).setProg c (some (k, p false))) ∨
    (∃ k l p, s.prog c = some (k, .tryLock l p) ∧ s' = s.setProg c (some (k, p true))) ∨
    (∃ k l p, s.prog c = some (k, .unlock l p) ∧
      s' = (s.setHolder l none).setProg c (some (k, p))) ∨
    (∃ k, ∃ β : Type, ∃ (f : σ → Except ε (β × σ)) (p : β → Prog L σ ε Unit) (b : β) (d : σ),
      s.prog c = some (k, .act f p) ∧ f s.data = .ok (b, d) ∧
      s' = { s with data := d }.setProg c (some (k, p b))) := by
  unfold step at e
  split at e
  next h => exact .inl ⟨h, (Option.some.inj e).symm⟩
  next k h => exact .inr (.inl ⟨k, h, (Option.some.inj e).symm⟩)
  next k l p h =>
    split at e
    next hl => exact .inr (.inr (.inl ⟨k, l, p, h, hl, (Option.some.inj e).symm⟩))
    next => cases e
  next k l p h =>
    split at e
    next hl => exact .inr (.inr (.inr (.inl ⟨k, l, p, h, hl, (Option.some.inj e).symm⟩)))
    next => exact .inr (.inr (.inr (.inr (.inl ⟨k, l, p, h, (Option.some.inj e).symm⟩))))
  next k l p h =>
    exact .inr (.inr (.inr (.inr (.inr (.inl ⟨k, l, p, h, (Option.some.inj e).symm⟩)))))
  next k β f p h =>
    split at e
    next b d run =>
      exact .inr (.inr (.inr (.inr (.inr (.inr ⟨k, β, f, p, b, d, h, run, (Option.some.inj e).symm⟩)))))
    next => cases e

omit [DecidableEq C] in
/-- Taking a free lock adds it to what its new holder holds. -/
lemma heldBy_take (h : s.holder l = none) :
    heldBy D (s.setHolder l (some c)) c = if D.owned l then insert l (heldBy D s c) else heldBy D s c := by
  ext l'
  by_cases e : l' = l
  · subst e
    cases howned : D.owned l' <;> simp [heldBy, setHolder, howned]
  · cases howned : D.owned l <;> simp [heldBy, setHolder, e]

omit [DecidableEq C] in
/-- Taking a free lock changes nothing for another CPU. -/
lemma heldBy_take_other (h : s.holder l = none) (hc : c' ≠ c) :
    heldBy D (s.setHolder l (some c)) c' = heldBy D s c' := by
  ext l'
  by_cases e : l' = l
  · subst e
    simp [heldBy, setHolder, h, hc.symm]
  · simp [heldBy, setHolder, e]

omit [DecidableEq C] in
/-- Freeing a lock takes it from what its holder holds. -/
lemma heldBy_free :
    heldBy D (s.setHolder l none) c = if D.owned l then heldBy D s c \ {l} else heldBy D s c := by
  ext l'
  by_cases e : l' = l
  · subst e
    cases howned : D.owned l' <;> simp [heldBy, setHolder, howned]
  · cases howned : D.owned l <;> simp [heldBy, setHolder, e]

omit [DecidableEq C] in
/-- Nor does giving up a lock of one's own. -/
lemma heldBy_free_other (h : D.owned l = true → l ∈ heldBy D s c) (hc : c' ≠ c) :
    heldBy D (s.setHolder l none) c' = heldBy D s c' := by
  ext l'
  by_cases e : l' = l
  · subst e
    constructor
    · rintro ⟨_, h'⟩
      simp [setHolder] at h'
    · rintro ⟨howned, h'⟩
      exact absurd (Option.some.inj (h'.symm.trans (h howned).2)) hc
  · simp [heldBy, setHolder, e]

omit [DecidableEq L] in
/-- The discipline of the CPUs that take no step carries over. -/
lemma Disciplined.set {p : Option (K × Prog L σ ε Unit)} {s' : Sys C K L σ ε}
    (hs : Disciplined D R s) (prog : s'.prog = s.prog)
    (others : ∀ c' ≠ c, heldBy D s' c' = heldBy D s c')
    (own : Expects D R (heldBy D s' c) p) : Disciplined D R (s'.setProg c p) := by
  intro c'
  change Expects D R (heldBy D s' c') ((s'.setProg c p).prog c')
  by_cases hc : c' = c
  · subst hc
    rwa [setProg_self]
  · rw [setProg_of_ne hc, others c' hc, prog]
    exact hs c'

/-- A step keeps the discipline, where the calls begin in it. -/
lemma Disciplined.step (hs : Disciplined D R s)
    (begins : (body c call).Follows D (R call) (fun _ H => H = ∅) ∅)
    (e : s.step body c call = some s') : Disciplined D R s' := by
  have own := hs c
  obtain ⟨h, rfl⟩ | ⟨k, h, rfl⟩ | ⟨k, l, p, h, free, rfl⟩ | ⟨k, l, p, h, free, rfl⟩ |
    ⟨k, l, p, h, rfl⟩ | ⟨k, l, p, h, rfl⟩ | ⟨k, β, f, p, b, d, h, _, rfl⟩ := step_cases e
  all_goals rw [h] at own
  · refine hs.set rfl (fun _ _ => rfl) ?_
    rw [show heldBy D s c = ∅ from own]
    exact begins
  · exact hs.set rfl (fun _ _ => rfl) own
  · obtain ⟨howned, _, rest⟩ := own
    refine hs.set rfl (fun c' hc => heldBy_take_other free hc) ?_
    rw [heldBy_take free, if_pos howned]
    exact rest
  · refine hs.set rfl (fun c' hc => heldBy_take_other free hc) ?_
    rw [heldBy_take free]
    exact own.2.2
  · exact hs.set rfl (fun _ _ => rfl) own.2.1
  · refine hs.set rfl (fun c' hc => heldBy_free_other own.1 hc) ?_
    rw [heldBy_free]
    exact own.2
  · exact hs.set rfl (fun _ _ => rfl) (own b)

omit [DecidableEq C] [DecidableEq L] in
/-- A system without calls is disciplined. -/
lemma Idle.disciplined (h : Idle s) : Disciplined D R s := by
  intro c
  rw [h.2 c]
  change heldBy D s c = ∅
  ext l
  simp [heldBy, h.1 l]

/-- Every state of every run keeps the discipline. -/
lemma Reachable.disciplined {ok : Sys C K L σ ε → C → Bool} (h : Reachable body ok s)
    (begins : ∀ c call, (body c call).Follows D (R call) (fun _ H => H = ∅) ∅) :
    Disciplined D R s := by
  induction h with
  | idle h => exact h.disciplined
  | step _ _ e ih => exact ih.step (begins _ _) e

/-- A schedule leads to a reachable state. -/
lemma Reachable.play {ok : Sys C K L σ ε → C → Bool} {order : List (C × K)}
    (h : Reachable body ok s) (e : s.play body ok order = some s') : Reachable body ok s' := by
  induction order generalizing s with
  | nil =>
    cases e
    exact h
  | cons first rest ih =>
    rw [Sys.play] at e
    split at e
    next allowed =>
      obtain ⟨s₁, e₁, e₂⟩ := Option.bind_eq_some_iff.mp e
      exact ih (h.step allowed e₁) e₂
    next => cases e

omit [DecidableEq C] [DecidableEq L] in
/-- The executable search for a CPU to wait for finds one. -/
lemma waits_of_waitsFor (h : s.waitsFor c = some c') : Waits s c c' := by
  unfold waitsFor at h
  split at h
  next k l p hp => exact ⟨k, l, p, hp, h⟩
  next => cases h

omit [DecidableEq C] [DecidableEq L] in
/-- Who waits asks for a lock in the order of its call, and the other CPU holds that lock. -/
lemma Disciplined.waits (hs : Disciplined D R s) (h : Waits s c c') :
    ∃ k l p, s.prog c = some (k, .lock l p) ∧ R k (heldBy D s c) l ∧ l ∈ heldBy D s c' := by
  obtain ⟨k, l, p, hp, hl⟩ := h
  have own := hs c
  rw [hp] at own
  exact ⟨k, l, p, hp, own.2.1, own.1, hl⟩

end Steps

end Sys

/-- Every element of a cycle has a successor on it. -/
lemma exists_next_of_cycle {C : Type} {r : C → C → Prop} {c : C} (h : Relation.TransGen r c c) :
    ∃ c', r c c' ∧ Relation.TransGen r c' c' := by
  obtain ⟨c', first, rest⟩ := Relation.TransGen.head'_iff.mp h
  exact ⟨c', first, Relation.TransGen.tail' rest first⟩

/-- Every element of a cycle has a predecessor. -/
lemma exists_prev_of_cycle {C : Type} {r : C → C → Prop} {c : C} (h : Relation.TransGen r c c) :
    ∃ c', r c' c := by
  obtain ⟨c', _, last⟩ := Relation.TransGen.tail'_iff.mp h
  exact ⟨c', last⟩

end WivOS.Lib.LockProg
