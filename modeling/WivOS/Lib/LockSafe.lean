import WivOS.Lib.LockProg

/-!
# Programs with locks that keep an invariant

A rule of rely and guarantee for programs over locks. `Prog.Keeps` says of a program, from a state on,
that its actions keep an invariant and do to the state no more than they may, whatever the others do in
between; and that no action fails with an error that is not allowed. Where the programs of all CPUs keep
to their contracts, the invariant holds in every state of every run, and no CPU comes to an action that
fails so (`Runs.keeps`). A call that runs alone is a run (`Runs.done`, `Runs.failed`).
-/

namespace WivOS.Lib.LockProg
open Prog

variable {L σ ε α β : Type}

/-- What a program keeps, what others may do, what it may do itself, and how it must not fail. -/
structure Contract (σ ε : Type) where
  inv : σ → Prop
  rely : σ → σ → Prop
  guarantee : σ → σ → Prop
  bad : ε → Prop

namespace Prog

/-- The program keeps to the contract from a state on, and ends with `Q`. -/
def Keeps (R : Contract σ ε) (Q : α → σ → Prop) : Prog L σ ε α → σ → Prop
  | ret a, s => Q a s
  | lock _ k, s => k.Keeps R Q s
  | tryLock _ k, s => ∀ taken, (k taken).Keeps R Q s
  | unlock _ k, s => k.Keeps R Q s
  | act f k, s => ∀ s', R.rely s s' → R.inv s' →
      (∀ e, f s' = .error e → ¬ R.bad e) ∧
      ∀ b s'', f s' = .ok (b, s'') → R.inv s'' ∧ R.guarantee s' s'' ∧ (k b).Keeps R Q s''

section Keeps
variable {R : Contract σ ε} {s s' : σ}

/-- A sequence keeps the invariant if its first part does and leads to where the rest does. -/
lemma keeps_bind {Q : β → σ → Prop} (p : Prog L σ ε α) (f : α → Prog L σ ε β) :
    (p >>= f).Keeps R Q s ↔ p.Keeps R (fun a s => (f a).Keeps R Q s) s := by
  change (p.bind f).Keeps R Q s ↔ _
  induction p generalizing s with
  | ret a => rfl
  | lock l k ih => exact ih
  | tryLock l k ih => exact forall_congr' fun taken => ih taken
  | unlock l k ih => exact ih
  | act g k ih => simp only [Prog.bind, Keeps, ih]

variable {Q : α → σ → Prop}

/-- Returning keeps what holds. -/
lemma keeps_pure {a : α} (h : Q a s) : (pure a : Prog L σ ε α).Keeps R Q s := h

/-- Taking a lock does not touch the data. -/
lemma keeps_acquire {l : L} {Q : Unit → σ → Prop} (h : Q () s) :
    (acquire l : Prog L σ ε Unit).Keeps R Q s := h

/-- Nor does an attempt, however it ends. -/
lemma keeps_attempt {l : L} {Q : Bool → σ → Prop} (h : ∀ taken, Q taken s) :
    (attempt l : Prog L σ ε Bool).Keeps R Q s := h

/-- Nor does a release. -/
lemma keeps_release {l : L} {Q : Unit → σ → Prop} (h : Q () s) :
    (release l : Prog L σ ε Unit).Keeps R Q s := h

/-- An action in whatever state the other CPUs have left. -/
lemma keeps_perform {f : σ → Except ε (α × σ)}
    (errors : ∀ s' e, R.rely s s' → R.inv s' → f s' = .error e → ¬ R.bad e)
    (h : ∀ s' a s'', R.rely s s' → R.inv s' → f s' = .ok (a, s'') →
      R.inv s'' ∧ R.guarantee s' s'' ∧ Q a s'') :
    (perform f : Prog L σ ε α).Keeps R Q s :=
  fun s' rely inv => ⟨fun e => errors s' e rely inv, fun a s'' => h s' a s'' rely inv⟩

/-- An action that never fails. -/
lemma keeps_commit {f : σ → α × σ}
    (h : ∀ s', R.rely s s' → R.inv s' →
      R.inv (f s').2 ∧ R.guarantee s' (f s').2 ∧ Q (f s').1 (f s').2) :
    (perform fun s => .ok (f s) : Prog L σ ε α).Keeps R Q s := by
  refine keeps_perform (fun s' e rely inv eq => ?_) fun s' a s'' rely inv eq => ?_
  · cases eq
  · have same : f s' = (a, s'') := Except.ok.inj eq
    have kept := h s' rely inv
    rwa [same] at kept

/-- A read, for which the guarantee has to be reflexive. -/
lemma keeps_read {f : σ → α} (refl : ∀ s, R.guarantee s s)
    (h : ∀ s', R.rely s s' → R.inv s' → Q (f s') s') : (read f : Prog L σ ε α).Keeps R Q s :=
  keeps_commit (f := fun s => (f s, s)) fun s' rely inv => ⟨inv, refl s', h s' rely inv⟩

/-- A write. -/
lemma keeps_modify {f : σ → σ} {Q : Unit → σ → Prop}
    (h : ∀ s', R.rely s s' → R.inv s' → R.inv (f s') ∧ R.guarantee s' (f s') ∧ Q () (f s')) :
    (modify f : Prog L σ ε Unit).Keeps R Q s :=
  keeps_commit (f := fun s => ((), f s)) h

/-- What others do in between is no matter. -/
lemma Keeps.later {p : Prog L σ ε α} (h : p.Keeps R Q s)
    (trans : ∀ {s₁ s₂ s₃}, R.rely s₁ s₂ → R.rely s₂ s₃ → R.rely s₁ s₃) (rely : R.rely s s')
    (stable : ∀ a, Q a s → Q a s') : p.Keeps R Q s' := by
  induction p with
  | ret a => exact stable a h
  | lock l k ih => exact ih h
  | tryLock l k ih => exact fun taken => ih taken (h taken)
  | unlock l k ih => exact ih h
  | act f k ih => exact fun s'' rely' inv => h s'' (trans rely rely') inv

end Keeps

end Prog

namespace Sys
variable {C K : Type} [DecidableEq C] [DecidableEq L]

/-- The states of the runs from an idle one on whose data is as `start` says, where a call begins only
if `may` allows it. -/
inductive Runs (body : C → K → Prog L σ ε Unit) (start : σ → Prop) (may : σ → C → K → Prop) :
    Sys C K L σ ε → Prop where
  | idle {s} : Idle s → start s.data → Runs body start may s
  | step {s s' c call} : Runs body start may s → (s.prog c = none → may s.data c call) →
      s.step body c call = some s' → Runs body start may s'

/-- The next action of a CPU in a call fails. -/
def Fails (s : Sys C K L σ ε) (c : C) (call : K) (e : ε) : Prop :=
  ∃ β : Type, ∃ (f : σ → Except ε (β × σ)) (p : β → Prog L σ ε Unit),
    s.prog c = some (call, .act f p) ∧ f s.data = .error e

/-- The contracts of the CPUs fit together: they have one invariant, no CPU does what another one does
not expect, and doing nothing and going on is what each of them expects. -/
structure Fit (R : C → K → Contract σ ε) (inv : σ → Prop) : Prop where
  inv_eq : ∀ c call, (R c call).inv = inv
  refl : ∀ c call s, (R c call).rely s s
  trans : ∀ c call {s₁ s₂ s₃}, (R c call).rely s₁ s₂ → (R c call).rely s₂ s₃ → (R c call).rely s₁ s₃
  others : ∀ {c c' call call' s s'}, c' ≠ c → (R c call).guarantee s s' → (R c' call').rely s s'

section Runs
variable {body : C → K → Prog L σ ε Unit} {start : σ → Prop} {may : σ → C → K → Prop}
  {s s' : Sys C K L σ ε} {c : C} {call : K} {R : C → K → Contract σ ε} {inv : σ → Prop}

/-- Every CPU keeps to the contract of its call. -/
def Keeping (R : C → K → Contract σ ε) (s : Sys C K L σ ε) : Prop :=
  ∀ c k p, s.prog c = some (k, p) → p.Keeps (R c k) (fun _ _ => True) s.data

omit [DecidableEq L] in
/-- A CPU goes on with a program that keeps the invariant. -/
lemma Keeping.set {s₁ : Sys C K L σ ε} {o : Option (K × Prog L σ ε Unit)} (h : Keeping R s)
    (prog : s₁.prog = s.prog) (data : s₁.data = s.data)
    (own : ∀ k p, o = some (k, p) → p.Keeps (R c k) (fun _ _ => True) s.data) :
    Keeping R (s₁.setProg c o) := by
  intro c' k p hp
  change p.Keeps (R c' k) _ s₁.data
  rw [data]
  by_cases hc : c' = c
  · subst hc
    rw [setProg_self] at hp
    exact own k p hp
  · rw [setProg_of_ne hc, prog] at hp
    exact h c' k p hp

/-- A step keeps the invariant, where the calls begin with it. -/
lemma Keeping.step (fit : Fit R inv) (h : Keeping R s) (hi : inv s.data)
    (begins : s.prog c = none → (body c call).Keeps (R c call) (fun _ _ => True) s.data)
    (e : s.step body c call = some s') : inv s'.data ∧ Keeping R s' := by
  have own := h c
  obtain ⟨hp, rfl⟩ | ⟨k, hp, rfl⟩ | ⟨k, l, p, hp, _, rfl⟩ | ⟨k, l, p, hp, _, rfl⟩ |
    ⟨k, l, p, hp, rfl⟩ | ⟨k, l, p, hp, rfl⟩ | ⟨k, β, f, p, b, d, hp, run, rfl⟩ := step_cases e
  · refine ⟨hi, h.set rfl rfl fun k p eq => ?_⟩
    cases eq
    exact begins hp
  · refine ⟨hi, h.set rfl rfl fun k p eq => ?_⟩
    cases eq
  · refine ⟨hi, h.set rfl rfl fun k p eq => ?_⟩
    cases eq
    have kept := own _ _ hp
    exact kept
  · refine ⟨hi, h.set rfl rfl fun k p eq => ?_⟩
    cases eq
    exact own _ _ hp false
  · refine ⟨hi, h.set rfl rfl fun k p eq => ?_⟩
    cases eq
    exact own _ _ hp true
  · refine ⟨hi, h.set rfl rfl fun k p eq => ?_⟩
    cases eq
    have kept := own _ _ hp
    exact kept
  · have kept := own _ _ hp
    obtain ⟨_, ok⟩ := kept s.data (fit.refl c k s.data) (by rwa [fit.inv_eq])
    obtain ⟨hi', guarantee, rest⟩ := ok b d run
    rw [fit.inv_eq] at hi'
    refine ⟨hi', ?_⟩
    intro c' k' p' hp'
    change p'.Keeps (R c' k') _ d
    by_cases hc : c' = c
    · subst hc
      rw [setProg_self] at hp'
      cases hp'
      exact rest
    · rw [setProg_of_ne hc] at hp'
      exact (h c' k' p' hp').later (fit.trans c' k') (fit.others hc guarantee) fun _ _ => trivial

/-- In every state of every run the invariant holds, and no CPU's next action fails with an error that
the contract of its call does not allow. -/
lemma Runs.keeps (fit : Fit R inv) (h : Runs body start may s) (init : ∀ d, start d → inv d)
    (begins : ∀ d c call, inv d → may d c call →
      (body c call).Keeps (R c call) (fun _ _ => True) d) :
    inv s.data ∧ ∀ c call e, Fails s c call e → ¬ (R c call).bad e := by
  have both : inv s.data ∧ Keeping R s := by
    induction h with
    | @idle s idle hs =>
      refine ⟨init s.data hs, fun c k p hp => ?_⟩
      rw [idle.2 c] at hp
      cases hp
    | step _ allowed e ih => exact ih.2.step fit ih.1 (fun hp => begins _ _ _ ih.1 (allowed hp)) e
  refine ⟨both.1, ?_⟩
  rintro c call e ⟨β, f, p, hp, fails⟩
  have kept := both.2 c call _ hp
  exact (kept s.data (fit.refl c call s.data) (by rw [fit.inv_eq]; exact both.1)).1 e fails

/-- The locks that are taken. -/
def taken (s : Sys C K L σ ε) (l : L) : Bool := (s.holder l).isSome

omit [DecidableEq C] in
/-- The locks that are taken once a holder is set. -/
lemma taken_setHolder {l : L} {o : Option C} :
    taken (s.setHolder l o) = Function.update (taken s) l o.isSome := by
  funext l'
  by_cases h : l' = l
  · subst h
    simp [taken, setHolder]
  · simp [taken, setHolder, h]

/-- What a CPU comes to when the rest of its call runs alone: the end, or the action that fails. -/
def Alone (body : C → K → Prog L σ ε Unit) (start : σ → Prop) (may : σ → C → K → Prop)
    (s : Sys C K L σ ε) (c : C) (call : K) : Outcome L σ ε Unit → Prop
  | .done _ locked d => ∃ s', Runs body start may s' ∧ s'.prog = Function.update s.prog c none ∧
      s'.data = d ∧ taken s' = locked
  | .blocked _ => True
  | .failed e => ∃ s', Runs body start may s' ∧ Fails s' c call e

/-- Which program the CPU was at does not matter for where its call leads. -/
lemma Alone.set {s₁ : Sys C K L σ ε} {p : Option (K × Prog L σ ε Unit)}
    {o : Outcome L σ ε Unit} (h : Alone body start may (s₁.setProg c p) c call o)
    (prog : s₁.prog = s.prog) : Alone body start may s c call o := by
  cases o with
  | done a locked d =>
    obtain ⟨s', runs, eq, rest⟩ := h
    refine ⟨s', runs, ?_, rest⟩
    rw [eq, ← prog]
    exact Function.update_idem ..
  | blocked l => trivial
  | failed e => exact h

/-- A CPU goes on with its call. -/
lemma Runs.resume {p : K × Prog L σ ε Unit} (h : Runs body start may s) (hp : s.prog c = some p)
    (e : s.step body c call = some s') : Runs body start may s' := by
  refine h.step (fun none_ => ?_) e
  rw [none_] at hp
  cases hp

/-- What is left of a call can be run alone. -/
lemma Runs.rest {p : Prog L σ ε Unit} (h : Runs body start may s) (hp : s.prog c = some (call, p)) :
    Alone body start may s c call (p.run (taken s) s.data) := by
  induction p generalizing s with
  | ret a =>
    have e : s.step body c call = some (s.setProg c none) := by simp [Sys.step, hp]
    exact ⟨s.setProg c none, h.resume hp e, rfl, rfl, rfl⟩
  | lock l k ih =>
    cases hl : s.holder l with
    | some c' =>
      rw [Prog.run, if_pos (by simp [taken, hl])]
      trivial
    | none =>
      have e : s.step body c call = some ((s.setHolder l (some c)).setProg c (some (call, k))) := by
        simp [Sys.step, hp, hl]
      have rest := ih (h.resume hp e) setProg_self
      rw [Prog.run, if_neg (by simp [taken, hl])]
      exact (taken_setHolder (s := s) ▸ rest).set rfl
  | tryLock l k ih =>
    cases hl : s.holder l with
    | some c' =>
      have e : s.step body c call = some (s.setProg c (some (call, k true))) := by
        simp [Sys.step, hp, hl]
      have rest := ih true (h.resume hp e) setProg_self
      rw [Prog.run, if_pos (by simp [taken, hl])]
      exact rest.set rfl
    | none =>
      have e : s.step body c call =
          some ((s.setHolder l (some c)).setProg c (some (call, k false))) := by
        simp [Sys.step, hp, hl]
      have rest := ih false (h.resume hp e) setProg_self
      rw [Prog.run, if_neg (by simp [taken, hl])]
      exact (taken_setHolder (s := s) ▸ rest).set rfl
  | unlock l k ih =>
    have e : s.step body c call = some ((s.setHolder l none).setProg c (some (call, k))) := by
      simp [Sys.step, hp]
    have rest := ih (h.resume hp e) setProg_self
    rw [Prog.run]
    exact (taken_setHolder (s := s) ▸ rest).set rfl
  | act f k ih =>
    rw [Prog.run]
    cases run : f s.data with
    | error e => exact ⟨s, h, _, f, k, hp, run⟩
    | ok r =>
      have e : s.step body c call =
          some ({ s with data := r.2 }.setProg c (some (call, k r.1))) := by
        simp [Sys.step, hp, run]
      have rest := ih r.1 (h.resume hp e) setProg_self
      exact rest.set rfl

section Calls
variable (h : Runs body start may s) (idle : s.prog c = none) (allowed : may s.data c call)
include h idle allowed

/-- A whole call can be run alone. -/
lemma Runs.whole : Alone body start may s c call ((body c call).run (taken s) s.data) := by
  have e : s.step body c call = some (s.setProg c (some (call, body c call))) := by
    simp [Sys.step, idle]
  exact (Runs.rest (h.step (fun _ => allowed) e) setProg_self).set rfl

/-- A call that runs alone and returns. -/
lemma Runs.done {locked : L → Bool} {d : σ} (run : (body c call).run (taken s) s.data = .done () locked d) :
    ∃ s', Runs body start may s' ∧ s'.prog = s.prog ∧ s'.data = d ∧ taken s' = locked := by
  have alone := h.whole idle allowed
  rw [run] at alone
  obtain ⟨s', runs, prog, data, locks⟩ := alone
  refine ⟨s', runs, ?_, data, locks⟩
  rw [prog, ← idle, Function.update_eq_self]

/-- A call that runs alone and fails. -/
lemma Runs.failed {e : ε} (run : (body c call).run (taken s) s.data = .failed e) :
    ∃ s', Runs body start may s' ∧ Fails s' c call e := by
  have alone := h.whole idle allowed
  rwa [run] at alone

end Calls

end Runs

end Sys

end WivOS.Lib.LockProg
