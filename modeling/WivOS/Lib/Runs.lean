import Mathlib.Tactic

/-!
# Runs of threads

Runs of a system of which the steps are those of its threads, in any order. A run is the list of its
events, so that it can be said of each of them what it found and what it left. What holds of the state
that a step finds, if it is kept by every step, holds in every state of a run (`Run.invariant`).
-/

namespace WivOS.Lib
variable {σ T A R : Type*}

/-- A step of a thread, with the state before and after it. -/
structure Event (σ T A R : Type*) where
  before : σ
  thread : T
  action : A
  result : R
  after : σ

/-- Steps of threads behind each other. -/
inductive Run (step : σ → T → A → Option (R × σ)) (init : σ) : List (Event σ T A R) → σ → Prop where
  | nil : Run step init [] init
  | snoc {events e} : Run step init events e.before →
      step e.before e.thread e.action = some (e.result, e.after) →
      Run step init (events ++ [e]) e.after

/-- The run of a schedule, if no step of it faults. -/
def schedule (step : σ → T → A → Option (R × σ)) : σ → List (T × A) → Option (List (Event σ T A R) × σ)
  | s, [] => some ([], s)
  | s, (t, a) :: rest => (step s t a).bind fun (r, s') =>
    (schedule step s' rest).map fun (events, last) => (⟨s, t, a, r, s'⟩ :: events, last)

/-- A step before a run. -/
lemma Run.cons {step : σ → T → A → Option (R × σ)} {e : Event σ T A R} {events : List (Event σ T A R)}
    {s : σ} (run : Run step e.after events s)
    (done : step e.before e.thread e.action = some (e.result, e.after)) :
    Run step e.before (e :: events) s := by
  generalize init : e.after = first at run
  induction run with
  | nil =>
    subst init
    have start : Run step e.before [] e.before := .nil
    exact start.snoc done
  | @snoc events e' run last ih =>
    have earlier : Run step e.before (e :: events) e'.before := ih
    exact earlier.snoc last

/-- An executable schedule is a run. -/
lemma Run.of_schedule {step : σ → T → A → Option (R × σ)} {init s : σ} {acts : List (T × A)}
    {events : List (Event σ T A R)} (h : schedule step init acts = some (events, s)) :
    Run step init events s := by
  induction acts generalizing init events with
  | nil =>
    cases h
    exact .nil
  | cons a acts ih =>
    obtain ⟨⟨r, s'⟩, done, rest⟩ := Option.bind_eq_some_iff.mp h
    obtain ⟨⟨events', last⟩, rest, e⟩ := Option.map_eq_some_iff.mp rest
    cases e
    exact .cons (e := ⟨init, a.1, a.2, r, s'⟩) (ih rest) done

/-- An invariant that the events of a run keep, and what they do where it holds. -/
lemma Run.invariant {step : σ → T → A → Option (R × σ)} {init s : σ} {events : List (Event σ T A R)}
    {I : σ → Prop} {P : Event σ T A R → Prop} (run : Run step init events s) (start : I init)
    (keeps : ∀ e ∈ events, I e.before → step e.before e.thread e.action = some (e.result, e.after) →
      I e.after ∧ P e) :
    I s ∧ ∀ e ∈ events, P e := by
  induction run with
  | nil => exact ⟨start, by simp⟩
  | @snoc events e run done ih =>
    obtain ⟨inv, earlier⟩ := ih fun e' mem => keeps e' (by simp [mem])
    obtain ⟨inv', last⟩ := keeps e (by simp) inv done
    refine ⟨inv', ?_⟩
    intro e' mem
    rcases List.mem_append.mp mem with mem | mem
    · exact earlier e' mem
    · rw [List.mem_singleton.mp mem]
      exact last

end WivOS.Lib
