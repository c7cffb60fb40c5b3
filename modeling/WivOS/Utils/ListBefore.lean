import WivOS.Utils.Lists

/-!
# Insertion before a node

`list_push_before` links the new node to the node behind it, and to nothing else: neither the root nor
the node before learns of it, so that no walk from the root ever comes to it. There is no list and no
node for which it does what its name says.
-/

namespace WivOS.Utils
open Lib LinkedList

/-- The new node is returned, and stands immediately before the node `x` in a well-formed list of the
old values and the new one. -/
def PushesBefore (list : LinkedList) (a : Contents) (x : Nat × Option Nat) (b : Contents) (node : Nat)
    (value : Option Nat) : Prop :=
  ∃ list' l, listPushBefore list x.1 node value = some (node, list') ∧ list'.WellFormed l ∧
    l.map Prod.snd = a.map Prod.snd ++ value :: x.2 :: b.map Prod.snd

section Before
variable {list list' : LinkedList} {l a b : Contents} {x : Nat × Option Nat} {node lastNode : Nat}
  {value : Option Nat}

/-- Writing `previous` leaves the chain of `next`. -/
lemma nextOf_setPrevious {previous : Option Nat} (h : list.setPrevious node previous = some list') :
    list'.nextOf = list.nextOf ∧ list'.root = list.root := by
  unfold setPrevious at h
  cases stored : list.nodes node with
  | none =>
    rw [stored] at h
    cases h
  | some n =>
    rw [stored] at h
    cases h
    refine ⟨?_, rfl⟩
    funext m
    by_cases e : m = node
    · subst e
      simp [nextOf, stored]
    · simp [nextOf, e]

/-- So does a new node. -/
lemma nextOf_create {n : ListNode} (other : lastNode ≠ node) :
    (list.create node n).nextOf lastNode = list.nextOf lastNode := by
  simp [nextOf, create, other]

/-- So does moving the tail. -/
lemma moveTail_frame (h : list.moveTail lastNode node = some list') :
    list'.nextOf = list.nextOf ∧ list'.root = list.root := by
  unfold moveTail at h
  split at h
  · obtain ⟨list₁, set, rfl⟩ := Option.map_eq_some_iff.mp h
    obtain ⟨next, root⟩ := nextOf_setPrevious set
    exact ⟨next, root⟩
  · cases h
    exact ⟨rfl, rfl⟩

/-- No old node points to another one than before, and the root is the old one. -/
lemma listPushBefore_frame (h : listPushBefore list lastNode node value = some (node, list')) :
    list'.root = list.root ∧ ∀ m, m ≠ node → list'.nextOf m = list.nextOf m := by
  unfold listPushBefore at h
  simp only [Option.bind_eq_bind, Option.bind_eq_some_iff, Option.pure_def, Option.some.injEq,
    Prod.mk.injEq, true_and] at h
  obtain ⟨list₁, moved, list₂, last, rfl⟩ := h
  obtain ⟨next₁, root₁⟩ := moveTail_frame moved
  obtain ⟨next₂, root₂⟩ := nextOf_setPrevious last
  refine ⟨root₂.trans root₁, fun m other => ?_⟩
  have grown : list₂.grow.nextOf m = list₂.nextOf m := rfl
  rw [grown, next₂, next₁, nextOf_create other]

/-- Writing `previous` of a node that is stored does not fault. -/
lemma exists_setPrevious (previous : Option Nat) (stored : (list.nodes node).isSome) :
    ∃ list', list.setPrevious node previous = some list' ∧
      ∀ m, (list.nodes m).isSome → (list'.nodes m).isSome := by
  obtain ⟨n, stored⟩ := Option.isSome_iff_exists.mp stored
  refine ⟨_, by rw [setPrevious, stored]; rfl, fun m inside => ?_⟩
  by_cases e : m = node
  · simp [e]
  · simpa [e] using inside

/-- The call returns the new node. -/
lemma listPushBefore_returns (stored : (list.nodes lastNode).isSome) :
    ∃ list', listPushBefore list lastNode node value = some (node, list') := by
  have created : ∀ m, m = node ∨ (list.nodes m).isSome →
      ((list.create node ⟨value, list.tail, some lastNode⟩).nodes m).isSome := by
    intro m inside
    by_cases e : m = node
    · simp [create, e]
    · simpa [create, e] using inside.resolve_left e
  have moved : ∃ list₁, (list.create node ⟨value, list.tail, some lastNode⟩).moveTail lastNode node =
      some list₁ ∧ (list₁.nodes lastNode).isSome := by
    unfold moveTail
    split
    · obtain ⟨list₁, set, kept⟩ := exists_setPrevious none (created node (.inl rfl))
      exact ⟨{ list₁ with tail := some node }, by rw [set]; rfl, kept _ (created _ (.inr stored))⟩
    · exact ⟨_, rfl, created _ (.inr stored)⟩
  obtain ⟨list₁, moved, stored₁⟩ := moved
  obtain ⟨list₂, set, -⟩ := exists_setPrevious (some node) stored₁
  exact ⟨list₂.grow, by simp [listPushBefore, moved, set]⟩

/-- The nodes of a list are stored. -/
lemma WellFormed.stored (h : list.WellFormed l) {y : Nat × Option Nat} (mem : y ∈ l) :
    (list.nodes y.1).isSome := by
  obtain ⟨n, stored, -⟩ := Option.map_eq_some_iff.mp (h.values y mem)
  simp [stored]

/-- A walk from the root still visits the old nodes, and so misses one value. -/
lemma not_pushesBefore (h : list.WellFormed (a ++ x :: b)) (free : list.nodes node = none) :
    ¬ PushesBefore list a x b node value := by
  rintro ⟨list', l, returned, formed, values⟩
  obtain ⟨root, next⟩ := listPushBefore_frame returned
  have walk : Path list'.nextOf list'.root ((a ++ x :: b).map Prod.fst) := by
    rw [root]
    refine h.forward.congr fun m mem => next m ?_
    rintro rfl
    obtain ⟨y, memY, rfl⟩ := List.mem_map.mp mem
    have stored := WellFormed.stored h memY
    rw [free] at stored
    cases stored
  have nodes := congrArg List.length (formed.forward.unique walk)
  have count := congrArg List.length values
  simp only [List.length_map, List.length_append, List.length_cons] at nodes count
  omega

/-- For every well-formed list, every node of it and every value: `list_push_before` returns the new node,
and does not leave a well-formed list with the value before that node. -/
theorem listPushBefore_never (h : list.WellFormed (a ++ x :: b)) (free : list.nodes node = none) :
    (∃ list', listPushBefore list x.1 node value = some (node, list')) ∧
      ¬ PushesBefore list a x b node value :=
  ⟨listPushBefore_returns (WellFormed.stored h (by simp)), not_pushesBefore h free⟩

end Before

/-- A list of one node. -/
def singleNode : LinkedList where
  length := 1
  root := some 16
  tail := some 16
  nodes n := if n = 16 then some ⟨some 5, none, none⟩ else none

/-- The list has its one node. -/
lemma singleNode_wellFormed : singleNode.WellFormed [(16, some 5)] where
  forward := ⟨rfl, rfl⟩
  backward := ⟨rfl, rfl⟩
  values := by simp [singleNode]
  length := rfl
  ends := by simp [singleNode]

/-- Before the only node of a list. -/
theorem listPushBefore_never_single :
    (∃ list', listPushBefore singleNode 16 32 (some 6) = some (32, list')) ∧
      ¬ PushesBefore singleNode [] (16, some 5) [] 32 (some 6) :=
  listPushBefore_never (a := []) (b := []) singleNode_wellFormed rfl

/-- The value 6 before the only node of a list: the root is still that node, and the tail is the new
one. -/
theorem listPushBefore_single :
    (∃ list', listPushBefore singleNode 16 32 (some 6) = some (32, list') ∧ list'.root = some 16 ∧
      list'.tail = some 32) ∧ ¬ PushesBefore singleNode [] (16, some 5) [] 32 (some 6) :=
  ⟨⟨_, rfl, rfl, rfl⟩, not_pushesBefore (a := []) (b := []) singleNode_wellFormed rfl⟩

end WivOS.Utils
