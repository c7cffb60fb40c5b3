import WivOS.Lib.Runs
import WivOS.Utils.Lists

/-!
# Trees shared by threads

Threads that call `gentree_insert` and `gentree_remove` on one tree. What a function does while it holds
a lock is one step, and so is what it reads or frees between two locks. The children of a node are the
contents of its list, on which each section of a list function does what `ListCall.exec_eq` and
`removeLocked_refines` say of the list itself. `gentree_remove` looks for the parent of its node from the
root, by a search that other threads may disturb, and removes a child by its index afterwards.
-/

namespace WivOS.Utils
open Lib LinkedList

namespace Contents

/-- The critical section of C `list_remove`. -/
def removeLocked (l : Contents) (node : Nat) : Option (Option Nat × RemoveRest × Contents) := do
  let x ← l.find? (·.1 = node)
  if l.head?.map Prod.fst = some node then return (x.2, .front, l)
  if l.getLast?.map Prod.fst = some node then return (x.2, .back, l)
  return (x.2, .done, l.filter (·.1 ≠ node))

/-- The second critical section of C `list_remove`. -/
def removeRest (l : Contents) : RemoveRest → Contents
  | .front => l.tail
  | .back => l.dropLast
  | .done => l

/-- C `child->next`, for a child that is in the list. -/
def next (l : Contents) (child : Nat) : Option (Option Nat) :=
  if child ∈ l.map Prod.fst then
    some (((l.dropWhile (·.1 ≠ child)).tail.head?).map Prod.fst)
  else none

end Contents

section Refines
variable {list : LinkedList} {l : Contents} {node : Nat}

/-- A node is at an end of its list if nothing is on that side of it. -/
lemma Contents.ends_of_nodup {a b : Contents} {x : Nat × Option Nat}
    (nodup : ((a ++ x :: b).map Prod.fst).Nodup) :
    ((a ++ x :: b).head?.map Prod.fst = some x.1 ↔ a = []) ∧
      ((a ++ x :: b).getLast?.map Prod.fst = some x.1 ↔ b = []) := by
  obtain ⟨before, behind, -⟩ := notMem_of_nodup nodup
  constructor
  · cases a with
    | nil => simp
    | cons y a =>
      have other : y.1 ≠ x.1 := fun e => before (by simp [e])
      simpa using other
  · rcases List.eq_nil_or_concat' b with rfl | ⟨b, z, rfl⟩
    · simp
    · have other : z.1 ≠ x.1 := fun e => behind (by simp [e])
      rw [← List.cons_append, ← List.append_assoc, List.getLast?_concat]
      simpa using other

/-- The critical section finds its node at an end, or takes it out. -/
lemma Contents.removeLocked_cases {a b : Contents} {x : Nat × Option Nat}
    (nodup : ((a ++ x :: b).map Prod.fst).Nodup) :
    Contents.removeLocked (a ++ x :: b) x.1 =
      if a = [] then some (x.2, .front, a ++ x :: b)
      else if b = [] then some (x.2, .back, a ++ x :: b) else some (x.2, .done, a ++ b) := by
  rw [Contents.removeLocked, find?_of_nodup nodup, filter_ne_of_nodup nodup, Option.bind_eq_bind,
    Option.bind_some]
  obtain ⟨first, last⟩ := ends_of_nodup nodup
  simp only [first, last]
  rfl

/-- `list_remove` does to a list in its critical section what it does to the contents. -/
lemma removeLocked_refines (h : list.Holds l) (mem : node ∈ l.map Prod.fst) :
    ∃ value rest list' l', listRemoveLocked list node = some (value, rest, list') ∧
      Contents.removeLocked l node = some (value, rest, l') ∧ list'.Holds l' := by
  obtain ⟨a, x, b, rfl, rfl⟩ := exists_split mem
  have contents := Contents.removeLocked_cases h.nodup
  rcases h.removeLocked_cases with ⟨rfl, locked⟩ | ⟨ha, rfl, locked⟩ | ⟨ha, hb, list', locked, holds⟩
  · exact ⟨_, _, _, _, locked, by rw [contents, if_pos rfl], h⟩
  · exact ⟨_, _, _, _, locked, by rw [contents, if_neg ha, if_pos rfl], h⟩
  · exact ⟨_, _, _, _, locked, by rw [contents, if_neg ha, if_neg hb], holds⟩

/-- So it does in the second one. -/
lemma removeRest_refines (h : list.Holds l) (nonempty : l ≠ []) (rest : RemoveRest) :
    ∃ list', listRemoveRest list rest = some list' ∧ list'.Holds (Contents.removeRest l rest) := by
  cases rest with
  | done => exact ⟨list, rfl, h⟩
  | front =>
    obtain ⟨x, b, rfl⟩ := List.exists_cons_of_ne_nil nonempty
    obtain ⟨list', removed, holds⟩ := h.removeFront
    exact ⟨list', by simp [listRemoveRest, removed], holds⟩
  | back =>
    obtain ⟨a, x, rfl⟩ := List.eq_nil_or_concat' l |>.resolve_left nonempty
    obtain ⟨list', removed, holds⟩ := h.removeBack
    exact ⟨list', by simp [listRemoveRest, removed], by simpa [Contents.removeRest] using holds⟩

end Refines

/-- `gentree_node_t`, with its list of children. -/
structure TreeNode where
  value : Option Nat
  children : Contents

/-- Where a thread stands in `gentree_remove`. The stack has the callers of
`gentree_get_parent_recursive`, each with the node and the child it is at. -/
inductive RemovePhase where
  /-- Before `list_contains`. -/
  | enter (stack : List (Nat × Nat)) (subroot : Nat)
  /-- Before the loop over the children. -/
  | scan (stack : List (Nat × Nat)) (subroot : Nat)
  /-- Before the call for a child. -/
  | descend (stack : List (Nat × Nat)) (subroot child : Nat)
  /-- After a call for a child that found nothing. -/
  | next (stack : List (Nat × Nat)) (subroot child : Nat)
  /-- Before `list_get_indexed`. -/
  | indexed (parent index : Nat)
  /-- Before `list_remove`. -/
  | remove (parent child : Nat)
  /-- Before the second section of `list_remove`. -/
  | rest (parent child : Nat) (value : Option Nat) (rest : RemoveRest)
  /-- Before `kfree`. -/
  | free (nodeToFree : Option Nat)

/-- `gentree_t`, with the nodes in memory. -/
structure SharedTree where
  root : Option Nat
  nodes : Nat → Option TreeNode

/-- A tree and its threads; a thread that removes a node is somewhere in `gentree_remove`. -/
structure TreeThreads (T : Type) where
  tree : SharedTree
  removing : T → Option (Nat × RemovePhase)

/-- The next section of a thread: of `gentree_insert`, for which `kmalloc` returns `node` and the node
`child` of a list; the first one of `gentree_remove`; or a later one. -/
inductive TreeAction where
  | insert (subroot value : Option Nat) (node child : Nat)
  | remove (node : Nat)
  | resume

namespace SharedTree

/-- Changes the children of a node. -/
def setChildren (tree : SharedTree) (n : Nat) (g : TreeNode) (children : Contents) : SharedTree :=
  { tree with nodes := Function.update tree.nodes n (some { g with children := children }) }

/-- C `gentree_insert`. -/
def insert (tree : SharedTree) (subroot value : Option Nat) (node child : Nat) : Option SharedTree :=
  let created := { tree with nodes := Function.update tree.nodes node (some ⟨value, []⟩) }
  match tree.root with
  | none => some { created with root := some node }
  | some _ => do
    let subroot ← subroot
    let g ← created.nodes subroot
    return created.setChildren subroot g ((child, some node) :: g.children)

/-- C `kfree` of a node. -/
def kfree (tree : SharedTree) (n : Nat) : SharedTree :=
  { tree with nodes := Function.update tree.nodes n none }

end SharedTree

namespace TreeThreads
variable {T : Type} [DecidableEq T]

/-- A thread goes on with `gentree_remove`. -/
def goOn (s : TreeThreads T) (t : T) (node : Nat) (tree : SharedTree) (phase : RemovePhase) :
    TreeThreads T :=
  ⟨tree, Function.update s.removing t (some (node, phase))⟩

/-- A thread returns from `gentree_remove`. -/
def finish (s : TreeThreads T) (t : T) (tree : SharedTree) : TreeThreads T :=
  ⟨tree, Function.update s.removing t none⟩

/-- `gentree_get_parent_recursive` returns `NULL` to its caller. -/
def giveUp (s : TreeThreads T) (t : T) (node : Nat) : List (Nat × Nat) → TreeThreads T
  | [] => s.finish t s.tree
  | (subroot, child) :: stack => s.goOn t node s.tree (.next stack subroot child)

/-- A later section of `gentree_remove`. -/
def resume (s : TreeThreads T) (t : T) (node : Nat) : RemovePhase → Option (TreeThreads T)
  | .enter stack subroot => do
    let g ← s.tree.nodes subroot
    match g.children.findIdx? (·.2 = some node) with
    | some index => return s.goOn t node s.tree (.indexed subroot index)
    | none => return s.goOn t node s.tree (.scan stack subroot)
  | .scan stack subroot => do
    let g ← s.tree.nodes subroot
    match g.children.head? with
    | some child => return s.goOn t node s.tree (.descend stack subroot child.1)
    | none => return s.giveUp t node stack
  | .descend stack subroot child => do
    let g ← s.tree.nodes subroot
    let c ← g.children.find? (·.1 = child)
    return s.goOn t node s.tree (.enter ((subroot, child) :: stack) (← c.2))
  | .next stack subroot child => do
    let g ← s.tree.nodes subroot
    match ← Contents.next g.children child with
    | some child => return s.goOn t node s.tree (.descend stack subroot child)
    | none => return s.giveUp t node stack
  | .indexed parent index => do
    let g ← s.tree.nodes parent
    -- `list_remove_indexed` takes what is at the index now
    let c ← g.children[index]?
    return s.goOn t node s.tree (.remove parent c.1)
  | .remove parent child => do
    let g ← s.tree.nodes parent
    let (value, rest, children) ← Contents.removeLocked g.children child
    let tree := s.tree.setChildren parent g children
    match rest with
    | .done => return s.goOn t node tree (.free value)
    | rest => return s.goOn t node tree (.rest parent child value rest)
  | .rest parent _ value rest => do
    let g ← s.tree.nodes parent
    let tree := s.tree.setChildren parent g (Contents.removeRest g.children rest)
    return s.goOn t node tree (.free value)
  | .free nodeToFree => do
    let freed ← nodeToFree
    let _ ← s.tree.nodes freed
    return s.finish t (s.tree.kfree freed)

/-- A section of a thread. -/
def step (s : TreeThreads T) (t : T) : TreeAction → Option (TreeThreads T)
  | .insert subroot value node child =>
    match s.removing t with
    | some _ => none
    | none => (s.tree.insert subroot value node child).map (⟨·, s.removing⟩)
  | .remove node =>
    match s.removing t with
    | some _ => none
    | none =>
      if some node = s.tree.root then some s
      else s.tree.root.map fun r => s.goOn t node s.tree (.enter [] r)
  | .resume =>
    match s.removing t with
    | none => none
    | some (node, phase) => s.resume t node phase

/-- A section as a step of a run. -/
def runStep (s : TreeThreads T) (t : T) (action : TreeAction) : Option (Unit × TreeThreads T) :=
  (s.step t action).map ((), ·)

end TreeThreads

namespace SharedTree

/-- A node is in the list of children of another one. -/
def Child (tree : SharedTree) (m n : Nat) : Prop :=
  ∃ g, tree.nodes m = some g ∧ some n ∈ g.children.map Prod.snd

/-- A node is reached from the root. -/
def InTree (tree : SharedTree) (n : Nat) : Prop :=
  ∃ r, tree.root = some r ∧ Relation.ReflTransGen tree.Child r n

/-- What the next section of `gentree_remove` relies on is still so: the node and the child where the
search stands are there, the index is that of the node to remove, and it is still at the end of the list
at which `list_remove` found it. -/
def Settled (tree : SharedTree) (node : Nat) : RemovePhase → Prop
  | .enter _ subroot | .scan _ subroot => ∃ g, tree.nodes subroot = some g
  | .descend _ subroot child | .next _ subroot child =>
    ∃ g, tree.nodes subroot = some g ∧ child ∈ g.children.map Prod.fst
  | .indexed parent index =>
    ∃ g, tree.nodes parent = some g ∧ (g.children[index]?).map Prod.snd = some (some node)
  | .rest parent child _ .front =>
    ∃ g, tree.nodes parent = some g ∧ g.children.head?.map Prod.fst = some child
  | .rest parent child _ .back =>
    ∃ g, tree.nodes parent = some g ∧ g.children.getLast?.map Prod.fst = some child
  | _ => True

/-- The section takes the node out of its list of children: one that `list_remove` does not find at an
end of the list, or one that is left to its second section. -/
def Detaches (tree : SharedTree) : RemovePhase → Prop
  | .remove parent child => ∀ g, tree.nodes parent = some g →
    g.children.head?.map Prod.fst ≠ some child ∧ g.children.getLast?.map Prod.fst ≠ some child
  | .rest .. => True
  | _ => False

end SharedTree

/-- A thread may insert a new node below one that is in the tree, and it may remove a node of the tree
that is not the root and that no other thread removes. -/
def TreeThreads.Proper {T : Type} (s : TreeThreads T) : TreeAction → Prop
  | .insert subroot _ node child => s.tree.nodes node = none ∧ ∀ r, s.tree.root = some r →
    ∃ p g, subroot = some p ∧ s.tree.InTree p ∧ s.tree.nodes p = some g ∧
      child ∉ g.children.map Prod.fst
  | .remove node => s.tree.InTree node ∧ s.tree.root ≠ some node ∧
    ∀ t phase, s.removing t ≠ some (node, phase)
  | .resume => True

/-- The node to remove is still in its list of children. -/
def RemovePhase.Attached : RemovePhase → Prop
  | .free _ => False
  | _ => True

/-- The next section of a thread finds what it relies on, and if it detaches its node, no node below that
is one that another thread is about to remove. -/
structure TreeThreads.Steady {T : Type} (s : TreeThreads T) (t : T) : Prop where
  own : ∀ {x phase}, s.removing t = some (x, phase) → s.tree.Settled x phase
  others : ∀ {x phase u n phase'}, s.removing t = some (x, phase) → s.tree.Detaches phase → u ≠ t →
    s.removing u = some (n, phase') → phase'.Attached → ¬ Relation.TransGen s.tree.Child x n

/-- A section of a run. -/
abbrev TreeEvent (T : Type) := Event (TreeThreads T) T TreeAction Unit

namespace TreeEvent
variable {T : Type}

/-- The node that the section is to remove. -/
def target (e : TreeEvent T) : Option Nat := (e.before.removing e.thread).map Prod.fst

/-- The section detaches and frees no other node than the one that the call is to remove, and that one is
detached and freed when the call returns. -/
structure Exact (e : TreeEvent T) : Prop where
  detached : ∀ {m n}, e.before.tree.Child m n → e.after.tree.nodes m ≠ none →
    ¬ e.after.tree.Child m n → e.target = some n
  freed : ∀ {n}, e.before.tree.nodes n ≠ none → e.after.tree.nodes n = none → e.target = some n
  returned : ∀ {n phase}, e.before.removing e.thread = some (n, phase) →
    e.after.removing e.thread = none → e.after.tree.nodes n = none ∧ ∀ m, ¬ e.after.tree.Child m n

end TreeEvent

end WivOS.Utils
