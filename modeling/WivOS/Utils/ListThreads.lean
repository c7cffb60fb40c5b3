import WivOS.Lib.Runs
import WivOS.Utils.Lists

/-!
# Lists shared by threads

Threads that call the functions of `utils/lists.c` on one list. What a function does between
`spinlock_lock` and `spinlock_unlock` is one step. All functions have one such section but `list_remove`,
which has a second one for a node at an end of the list, and `list_remove_indexed`, which has another
before them. `list_remove` takes its node out exactly when the node is still at that end (`EndKept`) in
the second section.
-/

namespace WivOS.Utils
open Lib LinkedList

/-- Where a thread stands between two sections of a call. -/
inductive Pending where
  /-- `list_remove_indexed` has the node for `list_remove`. -/
  | remove (node : Nat)
  /-- `list_remove` has the value to return, and an end to remove. -/
  | rest (node : Nat) (value : Option Nat) (rest : RemoveRest)
deriving DecidableEq, Repr

/-- The node that the call removes. -/
def Pending.node : Pending → Nat
  | remove node => node
  | rest node _ _ => node

variable {T : Type} [DecidableEq T]

/-- A list and its threads. -/
structure ListThreads (T : Type) where
  list : LinkedList
  pending : T → Option Pending

/-- The next section of a thread: the first of a call, or a later one. -/
inductive ListAction where
  | start (call : ListCall)
  | resume

namespace ListThreads

/-- The threads after a section that ends the call of one. -/
def finish (s : ListThreads T) (t : T) (list : LinkedList) : ListThreads T :=
  ⟨list, Function.update s.pending t none⟩

/-- The threads after a section that does not end the call of one. -/
def wait (s : ListThreads T) (t : T) (list : LinkedList) (p : Pending) : ListThreads T :=
  ⟨list, Function.update s.pending t (some p)⟩

/-- The first section of `list_remove`. -/
def removeSection (s : ListThreads T) (t : T) (node : Nat) :
    Option (Option ListResult × ListThreads T) := do
  let (value, rest, list) ← listRemoveLocked s.list node
  match rest with
  | .done => return (some (.value value), s.finish t list)
  | rest => return (none, s.wait t list (.rest node value rest))

/-- A section of a thread, with what the call returns if it ends here. -/
def step (s : ListThreads T) (t : T) : ListAction → Option (Option ListResult × ListThreads T)
  | .start call =>
    match s.pending t, call with
    | some _, _ => none
    | none, .remove node => s.removeSection t node
    | none, .removeIndexed index => do
      let node ← listGetIndexed s.list index
      return (none, s.wait t s.list (.remove (← node)))
    | none, call => do
      let (result, list) ← call.exec s.list
      return (some result, s.finish t list)
  | .resume =>
    match s.pending t with
    | none => none
    | some (.remove node) => s.removeSection t node
    | some (.rest _ value rest) => do
      let list ← listRemoveRest s.list rest
      return (some (.value value), s.finish t list)

/-- A thread begins a call or goes on with it. A new node is at an address that was free, a node to remove
is in the list, and so is an index. -/
def Allowed (s : ListThreads T) (t : T) : ListAction → Prop
  | .start call => s.pending t = none ∧
    match call with
    | .pushBack node _ | .pushFront node _ => Address node ∧ s.list.nodes node = none
    | .remove node => s.list.Member node
    | .removeIndexed index => index < s.list.length
    | _ => True
  | .resume => s.pending t ≠ none

end ListThreads

/-- A section of a run. -/
abbrev ListEvent (T : Type) := Event (ListThreads T) T ListAction (Option ListResult)

namespace ListEvent

/-- The event of a section. -/
abbrev of (s : ListThreads T) (t : T) (action : ListAction) (result : Option ListResult)
    (s' : ListThreads T) : ListEvent T :=
  ⟨s, t, action, result, s'⟩

/-- The node that the call of `list_remove` is for to which the section belongs. -/
def target (e : ListEvent T) : Option Nat :=
  match e.action with
  | .start (.remove node) => some node
  | .start _ => none
  | .resume => (e.before.pending e.thread).map Pending.node

/-- What a section has to do to the values. A call of `list_remove` takes out its node where it ends. -/
def expected (e : ListEvent T) (l : Contents) : Contents :=
  match e.target, e.action with
  | some node, _ => if e.result.isSome then l.filter (·.1 ≠ node) else l
  | none, .start (.removeIndexed _) => l
  | none, .start call => (call.spec l).2
  | none, .resume => l

/-- The section does to the values what it has to, and a call of `list_remove` that ends here returns
the value of its node. -/
def TakesNode (e : ListEvent T) : Prop :=
  ∃ l, e.before.list.WellFormed l ∧ e.after.list.WellFormed (e.expected l) ∧
    ∀ node result, e.target = some node → e.result = some result →
      node ∈ l.map Prod.fst ∧ result = .value ((l.find? (·.1 = node)).bind Prod.snd)

/-- Where the section is the second one of `list_remove`, the node is still at the end of the list at
which the first one found it. -/
def EndKept (e : ListEvent T) : Prop :=
  ∀ node value, (e.before.pending e.thread = some (.rest node value .front) →
      e.before.list.root = some node) ∧
    (e.before.pending e.thread = some (.rest node value .back) → e.before.list.tail = some node)

/-- No other thread takes a node out of the list that a call is about to remove. -/
structure Proper (e : ListEvent T) : Prop where
  allowed : e.before.Allowed e.thread e.action
  others : ∀ {t p}, t ≠ e.thread → e.before.pending t = some p → e.after.list.Member p.node

end ListEvent

/-! ## What a section does -/

/-- The node that a call removes is in the list, with the value that the call will return. -/
def Pending.Ok (l : Contents) : Pending → Prop
  | remove node => node ∈ l.map Prod.fst
  | rest node value r => (node, value) ∈ l ∧ r ≠ .done

/-- Values that stay, and values of new nodes. -/
def Renewed (l l' : Contents) : Prop := ∀ x ∈ l', x ∈ l ∨ x.1 ∉ l.map Prod.fst

section Renewed
variable {l l' : Contents} {list : LinkedList} {p : Pending} {call : ListCall} {node : Nat}

/-- Fewer values are no new ones. -/
lemma renewed_of_subset (h : l' ⊆ l) : Renewed l l' := fun _ mem => .inl (h mem)

/-- The node of a pending call was in the list. -/
lemma Pending.Ok.mem (h : p.Ok l) : p.node ∈ l.map Prod.fst := by
  cases p with
  | remove node => exact h
  | rest node value rest => exact List.mem_map_of_mem h.1

/-- A pending call stays right if its node stays in the list. -/
lemma Pending.Ok.renewed (h : p.Ok l) (nodup : (l.map Prod.fst).Nodup) (renewed : Renewed l l')
    (mem : p.node ∈ l'.map Prod.fst) : p.Ok l' := by
  cases p with
  | remove node => exact mem
  | rest node value rest =>
    obtain ⟨y, hy, e⟩ := List.mem_map.mp mem
    refine ⟨?_, h.2⟩
    rcases renewed y hy with old | new
    · have same : y = (node, value) := List.inj_on_of_nodup_map nodup old h.1 e
      rwa [← same]
    · exact absurd (e ▸ List.mem_map_of_mem h.1) new

/-- Nodes that an operation adds are new. -/
lemma spec_renewed (h : list.Holds l) (proper : call.Proper list l) : Renewed l (call.spec l).2 := by
  cases call with
  | pushBack node value =>
    intro x mem
    rcases List.mem_append.mp mem with mem | mem
    · exact .inl mem
    · rw [List.mem_singleton.mp mem]
      exact .inr (h.fresh proper.2)
  | pushFront node value =>
    intro x mem
    rcases List.mem_cons.mp mem with rfl | mem
    · exact .inr (h.fresh proper.2)
    · exact .inl mem
  | removeBack => exact renewed_of_subset (List.dropLast_subset l)
  | removeFront => exact renewed_of_subset (List.tail_subset l)
  | pop => exact renewed_of_subset (List.dropLast_subset l)
  | remove node => exact renewed_of_subset (List.filter_subset_self _)
  | removeIndexed index => exact renewed_of_subset (List.eraseIdx_subset)
  | getBack => exact renewed_of_subset (List.Subset.refl l)
  | getFront => exact renewed_of_subset (List.Subset.refl l)
  | contains value => exact renewed_of_subset (List.Subset.refl l)
  | getIndexed index => exact renewed_of_subset (List.Subset.refl l)

end Renewed

/-- The list has the values `l`, and every call that is under way finds its node. -/
structure ListThreads.Inv (s : ListThreads T) (l : Contents) : Prop where
  holds : s.list.Holds l
  pending : ∀ {t p}, s.pending t = some p → p.Ok l

/-- What a section does to the values `l`. -/
structure ListEvent.Outcome (e : ListEvent T) (l l' : Contents) : Prop where
  holds : e.after.list.Holds l'
  renewed : Renewed l l'
  own : ∀ {p}, e.after.pending e.thread = some p → p.Ok l'
  others : ∀ {t}, t ≠ e.thread → e.after.pending t = e.before.pending t
  takes : e.TakesNode ↔ e.EndKept

section Outcome
variable {s s' : ListThreads T} {t : T} {l : Contents} {result : Option ListResult} {node : Nat}
  {action : ListAction} {call : ListCall}

omit [DecidableEq T] in
/-- Every section but the second one of `list_remove`. -/
lemma endKept_of {e : ListEvent T}
    (h : ∀ node value r, e.before.pending e.thread ≠ some (.rest node value r)) : e.EndKept := by
  intro node value
  constructor
  · intro rest
    exact absurd rest (h _ _ _)
  · intro rest
    exact absurd rest (h _ _ _)

/-- A section that leaves the list as it is and does not end the call. -/
lemma wait_outcome {p : Pending} (h : s.list.Holds l) (ok : p.Ok l)
    (expected : (ListEvent.of s t action none (s.wait t s.list p)).expected l = l)
    (pending : ∀ node value r, s.pending t ≠ some (.rest node value r)) :
    (ListEvent.of s t action none (s.wait t s.list p)).Outcome l l where
  holds := h
  renewed := renewed_of_subset (List.Subset.refl l)
  own := by
    intro q e
    simp only [ListThreads.wait, Function.update_self, Option.some.injEq] at e
    exact e ▸ ok
  others := by
    intro u other
    exact Function.update_of_ne other ..
  takes := by
    refine iff_of_true ⟨l, h.wellFormed, ?_, ?_⟩ (endKept_of pending)
    · rw [expected]
      exact h.wellFormed
    · intro node result _ e
      cases e

/-- A section that ends a call, and does what it has to. -/
lemma finish_outcome {list' : LinkedList} {r : ListResult} (h : s.list.Holds l)
    (holds : list'.Holds ((ListEvent.of s t action (some r) (s.finish t list')).expected l))
    (renewed : Renewed l ((ListEvent.of s t action (some r) (s.finish t list')).expected l))
    (returned : ∀ node, (ListEvent.of s t action (some r) (s.finish t list')).target = some node →
      node ∈ l.map Prod.fst ∧ r = .value ((l.find? (·.1 = node)).bind Prod.snd))
    (kept : (ListEvent.of s t action (some r) (s.finish t list')).EndKept) :
    (ListEvent.of s t action (some r) (s.finish t list')).Outcome l
      ((ListEvent.of s t action (some r) (s.finish t list')).expected l) where
  holds := holds
  renewed := renewed
  own := by
    intro p e
    simp [ListThreads.finish] at e
  others := by
    intro u other
    exact Function.update_of_ne other ..
  takes := by
    refine iff_of_true ⟨l, h.wellFormed, holds.wellFormed, ?_⟩ kept
    rintro node result target ⟨⟩
    exact returned node target

/-- The first section of `list_remove`. -/
lemma removeSection_outcome (h : s.list.Holds l) (mem : node ∈ l.map Prod.fst)
    (done : s.removeSection t node = some (result, s'))
    (target : (ListEvent.of s t action result s').target = some node)
    (pending : ∀ node value r, s.pending t ≠ some (.rest node value r)) :
    ∃ l', (ListEvent.of s t action result s').Outcome l l' := by
  obtain ⟨a, x, b, rfl, rfl⟩ := exists_split mem
  have ok : ∀ {r}, r ≠ .done → (Pending.rest x.1 x.2 r).Ok (a ++ x :: b) := by
    intro r ne
    exact ⟨by simp, ne⟩
  rcases h.removeLocked_cases with ⟨-, locked⟩ | ⟨-, -, locked⟩ | ⟨-, -, list', locked, holds⟩
  · simp only [ListThreads.removeSection, locked] at done
    cases done
    exact ⟨_, wait_outcome h (ok (by simp)) (by simp [ListEvent.expected, target]) pending⟩
  · simp only [ListThreads.removeSection, locked] at done
    cases done
    exact ⟨_, wait_outcome h (ok (by simp)) (by simp [ListEvent.expected, target]) pending⟩
  · simp only [ListThreads.removeSection, locked] at done
    cases done
    have expected : (ListEvent.of s t action (some (.value x.2)) (s.finish t list')).expected
        (a ++ x :: b) = a ++ b := by
      rw [← h.filter_ne]
      simp [ListEvent.expected, target]
    refine ⟨_, finish_outcome h (expected ▸ holds) ?_ ?_ (endKept_of pending)⟩
    · rw [expected, ← h.filter_ne]
      exact renewed_of_subset (List.filter_subset_self _)
    · intro node target'
      obtain rfl : x.1 = node := by simpa [target] using target'
      exact ⟨mem, by rw [h.find?_eq]; rfl⟩

/-- A call of one section. -/
lemma callSection_outcome (h : s.list.Holds l) (proper : call.Proper s.list l)
    (done : (do
      let (r, list) ← call.exec s.list
      return (some r, s.finish t list)) = some (result, s'))
    (target : (ListEvent.of s t (.start call) result s').target = none)
    (expected : (ListEvent.of s t (.start call) result s').expected l = (call.spec l).2)
    (pending : ∀ node value r, s.pending t ≠ some (.rest node value r)) :
    ∃ l', (ListEvent.of s t (.start call) result s').Outcome l l' := by
  obtain ⟨list', exec, holds⟩ := ListCall.exec_eq h proper
  simp only [exec] at done
  cases done
  refine ⟨_, finish_outcome h (expected ▸ holds) ?_ ?_ (endKept_of pending)⟩
  · rw [expected]
    exact spec_renewed h proper
  · intro node target'
    rw [target] at target'
    cases target'

/-- The second section of `list_remove` takes out the node `x` at an end. -/
lemma restSection_outcome {list' : LinkedList} {a b : Contents} {x : Nat × Option Nat}
    {value : Option Nat} {r : RemoveRest} (h : s.list.Holds (a ++ x :: b)) (holds : list'.Holds (a ++ b))
    (mem : (node, value) ∈ a ++ x :: b) (pending : s.pending t = some (.rest node value r))
    (kept : (ListEvent.of s t .resume (some (.value value)) (s.finish t list')).EndKept ↔
      x.1 = node) :
    (ListEvent.of s t .resume (some (.value value)) (s.finish t list')).Outcome (a ++ x :: b)
      (a ++ b) where
  holds := holds
  renewed := by
    apply renewed_of_subset
    intro y
    simp only [List.mem_append, List.mem_cons]
    tauto
  own := by
    intro p e
    simp [ListThreads.finish] at e
  others := by
    intro u other
    exact Function.update_of_ne other ..
  takes := by
    have target : (ListEvent.of s t .resume (some (.value value)) (s.finish t list')).target =
        some node := by
      simp [ListEvent.target, pending, Pending.node]
    have expected : (ListEvent.of s t .resume (some (.value value)) (s.finish t list')).expected
        (a ++ x :: b) = (a ++ x :: b).filter (·.1 ≠ node) := by
      simp [ListEvent.expected, target]
    rw [kept]
    constructor
    · rintro ⟨l, before, after, -⟩
      obtain rfl := h.wellFormed.unique before
      rw [expected] at after
      by_contra different
      -- another node than `x` is expected to go, and `x` is gone
      have stays : x ∈ (a ++ x :: b).filter (·.1 ≠ node) := by simp [different]
      rw [← holds.wellFormed.unique after] at stays
      rcases List.mem_append.mp stays with mem | mem
      · exact h.split.1 (List.mem_map_of_mem mem)
      · exact h.split.2.1 (List.mem_map_of_mem mem)
    · rintro rfl
      have same : x = (x.1, value) := List.inj_on_of_nodup_map h.nodup (by simp) mem rfl
      obtain rfl : x.2 = value := congrArg Prod.snd same
      refine ⟨_, h.wellFormed, ?_, ?_⟩
      · rw [expected, h.filter_ne]
        exact holds.wellFormed
      · rintro node' result target' ⟨⟩
        obtain rfl : x.1 = node' := by simpa [target] using target'
        exact ⟨by simp, by rw [h.find?_eq]; rfl⟩

/-- The second section of `list_remove`. -/
lemma resume_outcome {value : Option Nat} {r : RemoveRest} (h : s.list.Holds l)
    (ok : (Pending.rest node value r).Ok l) (pending : s.pending t = some (.rest node value r))
    (done : s.step t .resume = some (result, s')) :
    ∃ l', (ListEvent.of s t .resume result s').Outcome l l' := by
  obtain ⟨mem, notDone⟩ := ok
  have nonempty : l ≠ [] := List.ne_nil_of_mem mem
  cases r with
  | done => exact absurd rfl notDone
  | front =>
    obtain ⟨x, b, rfl⟩ := List.exists_cons_of_ne_nil nonempty
    obtain ⟨list', removed, holds⟩ := h.removeFront
    simp only [ListThreads.step, pending, listRemoveRest, removed] at done
    cases done
    have root : s.list.root = some x.1 := h.root
    refine ⟨_, restSection_outcome (a := []) h holds mem pending ?_⟩
    simp [ListEvent.EndKept, pending, root]
  | back =>
    obtain ⟨a, x, rfl⟩ := List.eq_nil_or_concat' l |>.resolve_left nonempty
    obtain ⟨list', removed, holds⟩ := h.removeBack
    simp only [ListThreads.step, pending, listRemoveRest, removed] at done
    cases done
    have tail : s.list.tail = some x.1 := by simp [h.tail]
    refine ⟨_, restSection_outcome (b := []) h (by simpa using holds) mem pending ?_⟩
    simp [ListEvent.EndKept, pending, tail]

/-- Every section has an outcome. -/
lemma ListEvent.exists_outcome {e : ListEvent T} (h : e.before.Inv l)
    (done : e.before.step e.thread e.action = some (e.result, e.after)) (proper : e.Proper) :
    ∃ l', e.Outcome l l' := by
  obtain ⟨s, t, action, result, s'⟩ := e
  cases action with
  | resume =>
    cases pending : s.pending t with
    | none => simp [ListThreads.step, pending] at done
    | some p =>
      have ok := h.pending pending
      cases p with
      | remove node =>
        simp only [ListThreads.step, pending] at done
        refine removeSection_outcome h.holds ok done ?_ ?_
        · simp [ListEvent.target, pending, Pending.node]
        · intro node value r e
          cases pending.symm.trans e
      | rest node value r => exact resume_outcome h.holds ok pending done
  | start call =>
    cases pending : s.pending t with
    | some p => simp [ListThreads.step, pending] at done
    | none =>
      have idle : ∀ node value r, s.pending t ≠ some (.rest node value r) := by simp [pending]
      have allowed := proper.allowed.2
      cases call with
      | remove node =>
        simp only [ListThreads.step, pending] at done
        have mem : node ∈ l.map Prod.fst := h.holds.wellFormed.member_iff.mp allowed
        exact removeSection_outcome h.holds mem done rfl idle
      | removeIndexed index =>
        simp only [ListThreads.step, pending, h.holds.getIndexed] at done
        have inside : index < l.length := h.holds.length ▸ allowed
        simp only [List.getElem?_eq_getElem inside] at done
        cases done
        have mem : l[index].1 ∈ l.map Prod.fst := List.mem_map_of_mem (List.getElem_mem inside)
        exact ⟨_, wait_outcome h.holds mem rfl idle⟩
      | pushBack node value =>
        simp only [ListThreads.step, pending] at done
        exact callSection_outcome h.holds allowed done rfl rfl idle
      | pushFront node value =>
        simp only [ListThreads.step, pending] at done
        exact callSection_outcome h.holds allowed done rfl rfl idle
      | _ =>
        simp only [ListThreads.step, pending] at done
        exact callSection_outcome h.holds trivial done rfl rfl idle

/-- The first section of `list_remove` does not fault. -/
lemma removeSection_isSome (h : s.list.Holds l) (mem : node ∈ l.map Prod.fst) :
    ∃ result s', s.removeSection t node = some (result, s') := by
  obtain ⟨a, x, b, rfl, rfl⟩ := exists_split mem
  rcases h.removeLocked_cases with ⟨-, locked⟩ | ⟨-, -, locked⟩ | ⟨-, -, list', locked, -⟩
  all_goals exact ⟨_, _, by simp only [ListThreads.removeSection, locked]; rfl⟩

/-- No section faults. -/
lemma ListThreads.Inv.step_isSome (h : s.Inv l) (allowed : s.Allowed t action) :
    ∃ result s', s.step t action = some (result, s') := by
  cases action with
  | resume =>
    obtain ⟨p, pending⟩ := Option.ne_none_iff_exists'.mp allowed
    have ok := h.pending pending
    simp only [ListThreads.step, pending]
    cases p with
    | remove node => exact removeSection_isSome h.holds ok
    | rest node value r =>
      have nonempty : l ≠ [] := List.ne_nil_of_mem ok.1
      cases r with
      | done => exact absurd rfl ok.2
      | front =>
        obtain ⟨x, b, rfl⟩ := List.exists_cons_of_ne_nil nonempty
        obtain ⟨list', removed, -⟩ := h.holds.removeFront
        exact ⟨_, _, by simp only [listRemoveRest, removed]; rfl⟩
      | back =>
        obtain ⟨a, x, rfl⟩ := List.eq_nil_or_concat' l |>.resolve_left nonempty
        obtain ⟨list', removed, -⟩ := h.holds.removeBack
        exact ⟨_, _, by simp only [listRemoveRest, removed]; rfl⟩
  | start call =>
    obtain ⟨pending, allowed⟩ := allowed
    have called : call.Proper s.list l →
        ∃ result s', (do
          let (r, list) ← call.exec s.list
          return (some r, s.finish t list)) = some (result, s') := by
      intro proper
      obtain ⟨list', exec, -⟩ := ListCall.exec_eq h.holds proper
      exact ⟨_, _, by simp only [exec]; rfl⟩
    cases call with
    | remove node =>
      simp only [ListThreads.step, pending]
      exact removeSection_isSome h.holds (h.holds.wellFormed.member_iff.mp allowed)
    | removeIndexed index =>
      have inside : index < l.length := h.holds.length ▸ allowed
      refine ⟨none, s.wait t s.list (.remove l[index].1), ?_⟩
      simp [ListThreads.step, pending, h.holds.getIndexed, inside]
    | pushBack node value =>
      simp only [ListThreads.step, pending]
      exact called allowed
    | pushFront node value =>
      simp only [ListThreads.step, pending]
      exact called allowed
    | _ =>
      simp only [ListThreads.step, pending]
      exact called trivial

/-- A section keeps the invariant. -/
lemma ListEvent.inv {e : ListEvent T} (h : e.before.Inv l)
    (done : e.before.step e.thread e.action = some (e.result, e.after)) (proper : e.Proper) :
    ∃ l', e.after.Inv l' ∧ (e.TakesNode ↔ e.EndKept) := by
  obtain ⟨l', out⟩ := e.exists_outcome h done proper
  refine ⟨l', ⟨out.holds, ?_⟩, out.takes⟩
  intro t p pending
  by_cases own : t = e.thread
  · subst own
    exact out.own pending
  · rw [out.others own] at pending
    have stays := out.holds.wellFormed.member_iff.mp (proper.others own pending)
    exact (h.pending pending).renewed h.holds.nodup out.renewed stays

/-- The invariant after any run, and what each of its sections does. -/
lemma listRun_inv {init : ListThreads T} {events : List (ListEvent T)}
    (run : Run ListThreads.step init events s) (start : init.Inv l) (proper : ∀ e ∈ events, ListEvent.Proper e) :
    (∃ l', s.Inv l') ∧ ∀ e ∈ events, (ListEvent.TakesNode e ↔ ListEvent.EndKept e) := by
  refine run.invariant (I := fun s => ∃ l, s.Inv l) ⟨l, start⟩ ?_
  rintro e mem ⟨l, inv⟩ done
  obtain ⟨l', inv', takes⟩ := ListEvent.inv inv done (proper e mem)
  exact ⟨⟨l', inv'⟩, takes⟩

end Outcome

/-- In every run on a new list no section faults, and every call of `list_remove` takes out exactly its
node exactly if each of them finds its node still at the end of the list in its second section. -/
theorem list_remove_exact_iff {nodes : Nat → Option ListNode} {events : List (ListEvent T)}
    {s : ListThreads T} (run : Run ListThreads.step ⟨listCreate nodes, fun _ => none⟩ events s)
    (proper : ∀ e ∈ events, e.Proper) :
    (∀ t action, s.Allowed t action → ∃ result s', s.step t action = some (result, s')) ∧
      ((∀ e ∈ events, e.TakesNode) ↔ ∀ e ∈ events, e.EndKept) := by
  have start : ListThreads.Inv ⟨listCreate nodes, fun _ : T => none⟩ [] := by
    refine ⟨holds_create nodes, ?_⟩
    intro t p e
    cases e
  obtain ⟨⟨l, inv⟩, sections⟩ := listRun_inv run start proper
  refine ⟨fun t action allowed => inv.step_isSome allowed, ?_⟩
  constructor
  · intro h e mem
    exact (sections e mem).mp (h e mem)
  · intro h e mem
    exact (sections e mem).mpr (h e mem)

section Race

/-- An empty list and two threads. -/
def twoThreads : ListThreads Bool := ⟨listCreate fun _ => none, fun _ => none⟩

/-- A list of one node. -/
def oneNode : LinkedList :=
  ⟨1, some 16, some 16, Function.update (fun _ => none) 16 (some ⟨some 5, none, none⟩)⟩

/-- The first section of `list_remove` for the only node of the list. -/
def removingNode : ListThreads Bool := (twoThreads.finish true oneNode).wait true oneNode
  (.rest 16 (some 5) .front)

/-- The list holds its node. -/
lemma oneNode_holds : oneNode.Holds [(16, some 5)] := by
  refine ⟨by simp, ?_, ?_, rfl, rfl, rfl⟩
  · intro x mem
    rw [List.mem_singleton.mp mem]
    exact ⟨by omega, by omega⟩
  · exact ⟨rfl, trivial⟩

/-- The sections before the second one of `list_remove`. -/
def removingEvents : List (ListEvent Bool) :=
  [⟨twoThreads, true, .start (.pushBack 16 (some 5)), some (.node (some 16)),
      twoThreads.finish true oneNode⟩,
    ⟨twoThreads.finish true oneNode, true, .start (.remove 16), none, removingNode⟩]

/-- The two sections are a run. -/
lemma removing_run : Run ListThreads.step twoThreads removingEvents removingNode := by
  have pushed : twoThreads.step true (.start (.pushBack 16 (some 5))) =
      some (some (.node (some 16)), twoThreads.finish true oneNode) := rfl
  have started : (twoThreads.finish true oneNode).step true (.start (.remove 16)) =
      some (none, removingNode) := rfl
  exact .snoc (e := ⟨_, _, _, _, removingNode⟩) (.snoc (e := ⟨_, _, _, _, _⟩) .nil pushed) started

/-- A section is proper where no other thread is in a call. -/
lemma proper_of_idle {e : ListEvent Bool} (allowed : e.before.Allowed e.thread e.action)
    (idle : ∀ t, t ≠ e.thread → e.before.pending t = none) : e.Proper := by
  refine ⟨allowed, ?_⟩
  intro t p other pending
  rw [idle t other] at pending
  cases pending

/-- Both sections are proper. -/
lemma removing_proper : ∀ e ∈ removingEvents, e.Proper := by
  simp only [removingEvents, List.forall_mem_cons, List.not_mem_nil, false_imp_iff, implies_true,
    and_true]
  refine ⟨proper_of_idle ⟨rfl, ⟨by omega, by omega⟩, rfl⟩ ?_, proper_of_idle ⟨rfl, ?_⟩ ?_⟩
  · intro t _
    rfl
  · exact oneNode_holds.wellFormed.member_iff.mpr (by simp)
  · intro t other
    exact Function.update_of_ne other ..

/-- The other thread is in no call. -/
lemma removing_idle (t : Bool) (other : t ≠ true) : removingNode.pending t = none := by
  obtain rfl : t = false := by simpa using other
  rfl

/-- The other thread pushes the node 32 between the two sections. -/
def pushingNode (call : ListCall) (list' : LinkedList) : ListEvent Bool :=
  ⟨removingNode, false, .start call, some (.node (some 32)), removingNode.finish false list'⟩

/-- The second section of `list_remove` after that. -/
def removedFront (list' list'' : LinkedList) : ListEvent Bool :=
  ⟨removingNode.finish false list', true, .resume, some (.value (some 5)),
    (removingNode.finish false list').finish true list''⟩

/-- All sections of the two threads. -/
def pushedEvents (call : ListCall) (list' list'' : LinkedList) : List (ListEvent Bool) :=
  removingEvents ++ [pushingNode call list'] ++ [removedFront list' list'']

/-- The second section takes the first node, whichever that is then. -/
lemma pushed_run (call : ListCall) (list' : LinkedList) {list'' : LinkedList} {value : Option Nat}
    (meanwhile : removingNode.step false (.start call) =
      some (some (.node (some 32)), removingNode.finish false list'))
    (front : listRemoveFront list' = some (value, list'')) :
    Run ListThreads.step twoThreads (pushedEvents call list' list'') (removedFront list' list'').after := by
  have done : (removingNode.finish false list').step true .resume =
      some (some (.value (some 5)), (removingNode.finish false list').finish true list'') := by
    have pending : (removingNode.finish false list').pending true = some (.rest 16 (some 5) .front) := rfl
    have : listRemoveFront (removingNode.finish false list').list = _ := front
    simp [ListThreads.step, pending, listRemoveRest, this]
  exact (removing_run.snoc (e := pushingNode call list') meanwhile).snoc done

/-- The push is proper because the first node stays in the list. -/
lemma pushed_proper (call : ListCall) {list' : LinkedList} (list'' : LinkedList)
    (allowed : removingNode.Allowed false (.start call)) (member : list'.Member 16) :
    ∀ e ∈ pushedEvents call list' list'', e.Proper := by
  simp only [pushedEvents, List.forall_mem_append, List.forall_mem_singleton]
  refine ⟨⟨removing_proper, allowed, ?_⟩, proper_of_idle (Option.some_ne_none _) ?_⟩
  · intro t p other pending
    obtain rfl : t = true := by simpa [pushingNode] using other
    cases pending
    exact member
  · intro t other
    obtain rfl : t = false := by simpa [removedFront] using other
    rfl

/-- Another thread pushes a node to the back between the two sections of `list_remove` for the first node
of the list. -/
theorem list_remove_exact_iff_other_end :
    ∃ (events : List (ListEvent Bool)) (s : ListThreads Bool), Run ListThreads.step twoThreads events s ∧
      (∀ e ∈ events, e.Proper) ∧ (∀ e ∈ events, e.TakesNode) ∧ s.list.WellFormed [(32, some 6)] := by
  have address : Address 32 := ⟨by omega, by omega⟩
  obtain ⟨list', pushed, holds'⟩ := oneNode_holds.pushBack (some 6) address rfl
  obtain ⟨list'', front, holds''⟩ := holds'.removeFront
  have run := pushed_run (.pushBack 32 (some 6)) list'
    (by
      have : listPushBack removingNode.list 32 (some 6) = _ := pushed
      simp [ListThreads.step, removing_idle, ListCall.exec, this]) front
  have proper := pushed_proper (.pushBack 32 (some 6)) list'' ⟨rfl, address, rfl⟩
    (holds'.wellFormed.member_iff.mpr (by simp))
  have kept : ∀ e ∈ pushedEvents (.pushBack 32 (some 6)) list' list'', e.EndKept := by
    simp only [pushedEvents, List.forall_mem_append, List.forall_mem_singleton, removingEvents,
      List.forall_mem_cons]
    refine ⟨⟨⟨endKept_of fun _ _ _ => (Option.some_ne_none _).symm,
      endKept_of fun _ _ _ => (Option.some_ne_none _).symm⟩,
      endKept_of fun _ _ _ => (Option.some_ne_none _).symm⟩, ?_⟩
    intro node value
    constructor
    · intro front
      cases front
      -- The new node is behind the one to be removed, so that is still the first one.
      exact holds'.root
    · intro back
      cases back
  exact ⟨_, _, run, proper, (list_remove_exact_iff run proper).2.mpr kept, holds''.wellFormed⟩

/-- Another thread pushes a node to the front between the two sections of `list_remove`. It is the new
node that goes, and the value of the other one is returned. -/
theorem list_remove_takes_pushed :
    ∃ (events : List (ListEvent Bool)) (s : ListThreads Bool), Run ListThreads.step twoThreads events s ∧
      (∀ e ∈ events, e.Proper) ∧ s.list.WellFormed [(16, some 5)] ∧ ¬ ∀ e ∈ events, e.TakesNode := by
  have address : Address 32 := ⟨by omega, by omega⟩
  obtain ⟨list', pushed, holds'⟩ := oneNode_holds.pushFront (some 6) address rfl
  obtain ⟨list'', front, holds''⟩ := holds'.removeFront
  have run := pushed_run (.pushFront 32 (some 6)) list'
    (by
      have : listPushFront removingNode.list 32 (some 6) = _ := pushed
      simp [ListThreads.step, removing_idle, ListCall.exec, this]) front
  have proper := pushed_proper (.pushFront 32 (some 6)) list'' ⟨rfl, address, rfl⟩
    (holds'.wellFormed.member_iff.mpr (by simp))
  refine ⟨_, _, run, proper, holds''.wellFormed, ?_⟩
  have start : twoThreads.Inv [] := by
    refine ⟨holds_create _, fun pending => ?_⟩
    cases pending
  intro takes
  have last : removedFront list' list'' ∈ pushedEvents (.pushFront 32 (some 6)) list' list'' := by
    simp [pushedEvents]
  have kept := ((listRun_inv run start proper).2 _ last).mp (takes _ last)
  have root : list'.root = some 16 := (kept 16 (some 5)).1 rfl
  rw [holds'.root] at root
  cases root

end Race

end WivOS.Utils
