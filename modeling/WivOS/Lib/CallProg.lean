import WivOS.Lib.LockProg

/-!
# Programs of calls

Programs whose steps are calls of given functions, each of which is one step, and actions on a shared
state. Such a program stands for one over locks, where each call is expanded (`expand`). `Safe` is a
rule of rely and guarantee for one thread: it has a ghost value that its calls change, and it may rely
on facts about the state that no other thread breaks.
-/

namespace WivOS.Lib

/-- A program of calls `Q`, which return a boolean, and of actions that may fail. -/
inductive CallProg (Q σ ε : Type) (α : Type) : Type 1 where
  | ret (a : α)
  | call (q : Q) (k : Bool → CallProg Q σ ε α)
  | act {β : Type} (f : σ → Except ε (β × σ)) (k : β → CallProg Q σ ε α)

/-- The rules of a thread: when it may make a call and what this does to its ghost value, the facts that
others do not break, what ties the ghost value to the state, and what an action may change. -/
structure Rules (Q σ γ : Type) where
  allowed : γ → Q → Prop
  effect : γ → Q → Bool → γ
  stable : (σ → Prop) → Prop
  valid : γ → σ → Prop
  guarantee : σ → σ → Prop

namespace CallProg
variable {Q σ ε α β L γ : Type}

/-- Runs one program and then another. -/
def bind : CallProg Q σ ε α → (α → CallProg Q σ ε β) → CallProg Q σ ε β
  | ret a, f => f a
  | call q k, f => call q fun r => (k r).bind f
  | act g k, f => act g fun b => (k b).bind f

instance : Monad (CallProg Q σ ε) where
  pure := ret
  bind := bind

/-- A call, of which the result is used. -/
def ask (q : Q) : CallProg Q σ ε Bool := call q ret

/-- A call. -/
def invoke (q : Q) : CallProg Q σ ε Unit := call q fun _ => ret ()

/-- An action that may fail. -/
def perform (f : σ → Except ε (α × σ)) : CallProg Q σ ε α := act f ret

/-- Reads the state. -/
def read (f : σ → α) : CallProg Q σ ε α := perform fun s => .ok (f s, s)

/-- Changes the state. -/
def modify (f : σ → σ) : CallProg Q σ ε Unit := perform fun s => .ok ((), f s)

/-- The program with every call expanded. -/
def expand (body : Q → LockProg.Prog L σ ε Bool) : CallProg Q σ ε α → LockProg.Prog L σ ε α
  | ret a => pure a
  | call q k => body q >>= fun r => (k r).expand body
  | act f k => LockProg.Prog.perform f >>= fun b => (k b).expand body

section Expand
variable {body : Q → LockProg.Prog L σ ε Bool}

/-- Returning is no call. -/
@[simp] lemma expand_pure (a : α) : (pure a : CallProg Q σ ε α).expand body = pure a := rfl

/-- The parts of a sequence are expanded on their own. -/
@[simp] lemma expand_bind (p : CallProg Q σ ε α) (f : α → CallProg Q σ ε β) :
    (p >>= f).expand body = p.expand body >>= fun a => (f a).expand body := by
  change (p.bind f).expand body = _
  induction p with
  | ret a => rfl
  | call q k ih =>
    simp only [bind, expand, ih]
    exact (bind_assoc ..).symm
  | act g k ih =>
    simp only [bind, expand, ih]
    exact (bind_assoc ..).symm

/-- A call whose result is used becomes the body of the function. -/
@[simp] lemma expand_ask (q : Q) : (ask q : CallProg Q σ ε Bool).expand body = body q :=
  bind_pure (body q)

/-- A call whose result is dropped becomes the body and a return. -/
@[simp] lemma expand_invoke (q : Q) :
    (invoke q : CallProg Q σ ε Unit).expand body = (body q >>= fun _ => pure ()) := rfl

/-- An action on the state stays. -/
@[simp] lemma expand_perform (f : σ → Except ε (α × σ)) :
    (perform f : CallProg Q σ ε α).expand body = LockProg.Prog.perform f := rfl

/-- A read stays. -/
@[simp] lemma expand_read (f : σ → α) :
    (read f : CallProg Q σ ε α).expand body = LockProg.Prog.read f := rfl

/-- A write stays. -/
@[simp] lemma expand_modify (f : σ → σ) :
    (modify f : CallProg Q σ ε Unit).expand body = LockProg.Prog.modify f := rfl

end Expand

/-- The program keeps to the rules from a ghost value and a fact on, and ends with `post`. -/
def Safe (R : Rules Q σ γ) (post : α → γ → (σ → Prop) → Prop) :
    CallProg Q σ ε α → γ → (σ → Prop) → Prop
  | ret a, g, P => post a g P
  | call q k, g, P => R.allowed g q ∧ ∀ r, (k r).Safe R post (R.effect g q r) P
  | act f k, g, P => ∀ s b s', R.valid g s → P s → f s = .ok (b, s') →
      R.guarantee s s' ∧ ∃ P', R.stable P' ∧ P' s' ∧ (k b).Safe R post g P'

section Safe
variable {R : Rules Q σ γ} {g : γ} {P : σ → Prop}

/-- A sequence is safe where its first part is and leads to where the rest is. -/
lemma safe_bind {post : β → γ → (σ → Prop) → Prop} (p : CallProg Q σ ε α)
    (f : α → CallProg Q σ ε β) :
    (p >>= f).Safe R post g P ↔ p.Safe R (fun a g P => (f a).Safe R post g P) g P := by
  change (p.bind f).Safe R post g P ↔ _
  induction p generalizing g P with
  | ret a => rfl
  | call q k ih => simp only [bind, Safe, ih]
  | act h k ih => simp only [bind, Safe, ih]

variable {post post' : α → γ → (σ → Prop) → Prop}

/-- A weaker postcondition. -/
lemma Safe.mono {p : CallProg Q σ ε α} (h : p.Safe R post g P)
    (weaker : ∀ a g P, post a g P → post' a g P) : p.Safe R post' g P := by
  induction p generalizing g P with
  | ret a => exact weaker a g P h
  | call q k ih => exact ⟨h.1, fun r => ih r (h.2 r)⟩
  | act f k ih =>
    intro s b s' valid fact run
    obtain ⟨kept, P', stable, fact', rest⟩ := h s b s' valid fact run
    exact ⟨kept, P', stable, fact', ih b rest⟩

/-- One program and then another. -/
lemma Safe.bind {post : β → γ → (σ → Prop) → Prop} {mid : α → γ → (σ → Prop) → Prop}
    {p : CallProg Q σ ε α} {f : α → CallProg Q σ ε β} (h : p.Safe R mid g P)
    (rest : ∀ a g P, mid a g P → (f a).Safe R post g P) : (p >>= f).Safe R post g P :=
  (safe_bind p f).mpr (h.mono rest)

/-- A call that is allowed, with a rest that is safe for either result. -/
lemma safe_ask {q : Q} {post : Bool → γ → (σ → Prop) → Prop} (h : R.allowed g q)
    (rest : ∀ r, post r (R.effect g q r) P) : (ask q : CallProg Q σ ε Bool).Safe R post g P := ⟨h, rest⟩

/-- The same for a call whose result is dropped. -/
lemma safe_invoke {q : Q} {post : Unit → γ → (σ → Prop) → Prop} (h : R.allowed g q)
    (rest : ∀ r, post () (R.effect g q r) P) : (invoke q : CallProg Q σ ε Unit).Safe R post g P :=
  ⟨h, rest⟩

end Safe

end CallProg

end WivOS.Lib
