import WivOS.Lib.Links

/-!
# Doubly linked lists

The lists of `utils/lists.c`. Nodes are reached by pointer in a memory that may also hold other nodes,
and `kmalloc` returns any address that is free. The values are `void *`, of which `none` is `NULL`. Each
function has one lemma that says what it does to the sequence of values (`Holds`), and the functions
called in any order behave as the operations on that sequence (`ListCall`).
-/

namespace WivOS.Utils
open Lib

/-- `list_node_t`. -/
structure ListNode where
  value : Option Nat
  previous : Option Nat
  next : Option Nat
deriving DecidableEq, Repr

/-- `list_t`, with the nodes in memory. -/
structure LinkedList where
  length : Nat
  root : Option Nat
  tail : Option Nat
  nodes : Nat → Option ListNode

namespace LinkedList

/-- C `node->next = next`. -/
def setNext (list : LinkedList) (node : Nat) (next : Option Nat) : Option LinkedList := do
  let n ← list.nodes node
  return { list with nodes := Function.update list.nodes node (some { n with next := next }) }

/-- C `node->previous = previous`. -/
def setPrevious (list : LinkedList) (node : Nat) (previous : Option Nat) : Option LinkedList := do
  let n ← list.nodes node
  return { list with nodes := Function.update list.nodes node (some { n with previous := previous }) }

/-- A new node. -/
def create (list : LinkedList) (node : Nat) (n : ListNode) : LinkedList :=
  { list with nodes := Function.update list.nodes node (some n) }

/-- C `kfree` of a node. -/
def kfree (list : LinkedList) (node : Nat) : LinkedList :=
  { list with nodes := Function.update list.nodes node none }

/-- C `list->length++`. -/
def grow (list : LinkedList) : LinkedList := { list with length := (list.length + 1) % 2 ^ 64 }

/-- C `list->length--`. -/
def shrink (list : LinkedList) : LinkedList :=
  { list with length := (2 ^ 64 - 1 + list.length) % 2 ^ 64 }

end LinkedList

/-- C `list_create`. -/
def listCreate (nodes : Nat → Option ListNode) : LinkedList := ⟨0, none, none, nodes⟩

/-- What `list_push_before` does where `lastNode` is the last one. -/
def LinkedList.moveTail (list : LinkedList) (lastNode node : Nat) : Option LinkedList :=
  if list.tail = some lastNode then
    (list.setPrevious node none).map fun list => { list with tail := some node }
  else some list

/-- C `list_push_before`, for which `kmalloc` returns `node`. -/
def listPushBefore (list : LinkedList) (lastNode node : Nat) (value : Option Nat) :
    Option (Nat × LinkedList) := do
  let list := list.create node ⟨value, list.tail, some lastNode⟩
  let list ← list.moveTail lastNode node
  let list ← list.setPrevious lastNode (some node)
  return (node, list.grow)

/-- C `list_push_back`, for which `kmalloc` returns `node`. -/
def listPushBack (list : LinkedList) (node : Nat) (value : Option Nat) :
    Option (Nat × LinkedList) := do
  let list := list.create node ⟨value, list.tail, none⟩
  let list ← match list.tail with
    | some tail => list.setNext tail (some node)
    | none => some list
  let list := { list with tail := some node }
  let list := if list.root = none then { list with root := some node } else list
  return (node, list.grow)

/-- C `list_push_front`, for which `kmalloc` returns `node`. -/
def listPushFront (list : LinkedList) (node : Nat) (value : Option Nat) :
    Option (Nat × LinkedList) := do
  let list := list.create node ⟨value, none, list.root⟩
  let list ← match list.root with
    | some root => list.setPrevious root (some node)
    | none => some { list with tail := some node }
  let list := { list with root := some node }
  return (node, list.grow)

/-- What `list_remove_back` and `list_pop` do to a list that ends with the node `n`. -/
def LinkedList.unlinkBack (list : LinkedList) (n : ListNode) : Option LinkedList := do
  let list := { list with tail := n.previous }
  let list ← match list.tail with
    | some tail => list.setNext tail none
    | none => some { list with root := none }
  return list.shrink

/-- C `list_remove_back`. -/
def listRemoveBack (list : LinkedList) : Option (Option Nat × LinkedList) :=
  match list.tail with
  | none => some (none, list)
  | some node => do
    let n ← list.nodes node
    let list ← list.unlinkBack n
    return (n.value, list.kfree node)

/-- C `list_remove_front`. -/
def listRemoveFront (list : LinkedList) : Option (Option Nat × LinkedList) :=
  match list.root with
  | none => some (none, list)
  | some node => do
    let n ← list.nodes node
    let list := { list with root := n.next }
    let list ← match list.root with
      | some root => list.setPrevious root none
      | none => some { list with tail := none }
    return (n.value, (list.kfree node).shrink)

/-- C `list_pop`. -/
def listPop (list : LinkedList) : Option (Option Nat × LinkedList) :=
  match list.tail with
  | none => some (none, list)
  | some node => do
    let n ← list.nodes node
    let list ← list.unlinkBack n
    return (some node, list)

/-- What is left to do for `list_remove` when it releases the lock: an end of the list is to be
removed, or nothing. -/
inductive RemoveRest where
  | front
  | back
  | done
deriving DecidableEq, Repr

/-- The critical section of C `list_remove`. -/
def listRemoveLocked (list : LinkedList) (node : Nat) :
    Option (Option Nat × RemoveRest × LinkedList) := do
  let n ← list.nodes node
  let value := n.value
  if some node = list.root then return (value, .front, list)
  if some node = list.tail then return (value, .back, list)
  let list ← list.setNext (← n.previous) n.next
  let n ← list.nodes node
  let list ← list.setPrevious (← n.next) n.previous
  return (value, .done, list.shrink.kfree node)

/-- The rest of C `list_remove`, which locks the list again. -/
def listRemoveRest (list : LinkedList) : RemoveRest → Option LinkedList
  | .front => (listRemoveFront list).map Prod.snd
  | .back => (listRemoveBack list).map Prod.snd
  | .done => some list

/-- C `list_remove`. -/
def listRemove (list : LinkedList) (node : Nat) : Option (Option Nat × LinkedList) := do
  let (value, rest, list) ← listRemoveLocked list node
  let list ← listRemoveRest list rest
  return (value, list)

/-- C `list_get_back`. -/
def listGetBack (list : LinkedList) : Option (Option Nat) :=
  match list.tail with
  | none => some none
  | some node => (list.nodes node).map (·.value)

/-- C `list_get_front`. -/
def listGetFront (list : LinkedList) : Option (Option Nat) :=
  match list.root with
  | none => some none
  | some node => (list.nodes node).map (·.value)

/-- The nodes that fit in the address space; no list has more. -/
def nodeCount : Nat := 2 ^ 64

/-- The loop of C `list_contains`: the index where it stops with `found`. -/
def containsLoop (nodes : Nat → Option ListNode) (value : Option Nat) :
    Nat → Option Nat → Nat → Option (Option Nat)
  | 0, _, _ => none
  | _ + 1, none, _ => some none
  | fuel + 1, some node, index => do
    let n ← nodes node
    if n.value = value then return some index
    containsLoop nodes value fuel n.next ((index + 1) % 2 ^ 64)

/-- C `list_contains`. -/
def listContains (list : LinkedList) (value : Option Nat) : Option Nat := do
  let found ← containsLoop list.nodes value nodeCount list.root 0
  return found.getD (2 ^ 64 - 1)

/-- The loop of C `list_get_indexed`. -/
def getIndexedLoop (nodes : Nat → Option ListNode) (index : Nat) :
    Nat → Option Nat → Nat → Option (Option Nat)
  | 0, _, _ => none
  | _ + 1, none, _ => some none
  | fuel + 1, some node, currentIndex => do
    if currentIndex = index then return some node
    let n ← nodes node
    getIndexedLoop nodes index fuel n.next ((currentIndex + 1) % 2 ^ 64)

/-- C `list_get_indexed`. -/
def listGetIndexed (list : LinkedList) (index : Nat) : Option (Option Nat) :=
  getIndexedLoop list.nodes index nodeCount list.root 0

/-- C `list_remove_indexed`. -/
def listRemoveIndexed (list : LinkedList) (index : Nat) : Option (Option Nat × LinkedList) := do
  let node ← listGetIndexed list index
  listRemove list (← node)

/-! ## The sequence of values -/

/-- The values of a list in their order, with the node that holds each. -/
abbrev Contents := List (Nat × Option Nat)

namespace LinkedList

/-- The node that holds a value. -/
def nodeOf (x : Nat × Option Nat) (previous next : Option Nat) : ListNode := ⟨x.2, previous, next⟩

/-- The addresses of nodes. -/
def Address (node : Nat) : Prop := 0 < node ∧ node < 2 ^ 64

/-- A list of the nodes and values `l`. -/
structure Holds (list : LinkedList) (l : Contents) : Prop where
  nodup : (l.map Prod.fst).Nodup
  address : ∀ x ∈ l, Address x.1
  linked : Linked Prod.fst nodeOf list.nodes none l none
  root : list.root = firstOr Prod.fst l none
  tail : list.tail = lastOr Prod.fst none l
  length : list.length = l.length

section Holds
variable {list : LinkedList} {l a b : Contents} {x y z : Nat × Option Nat} {node : Nat}
  {value : Option Nat}

/-- A new list is empty. -/
lemma holds_create (nodes : Nat → Option ListNode) : (listCreate nodes).Holds [] := by
  constructor <;> simp [listCreate]

/-- There are fewer nodes than addresses. -/
lemma length_lt (nodup : (l.map Prod.fst).Nodup) (address : ∀ x ∈ l, Address x.1) :
    l.length < 2 ^ 64 := by
  have inside : (l.map Prod.fst).toFinset ⊆ Finset.Ioo 0 (2 ^ 64) := by
    intro a ha
    obtain ⟨x, mem, rfl⟩ := List.mem_map.mp (List.mem_toFinset.mp ha)
    exact Finset.mem_Ioo.mpr (address x mem)
  have card := Finset.card_le_card inside
  rw [List.toFinset_card_of_nodup nodup, List.length_map, Nat.card_Ioo] at card
  omega

/-- A free address is none of a node of the list. -/
lemma Holds.fresh (h : list.Holds l) (free : list.nodes node = none) : node ∉ l.map Prod.fst := by
  intro hn
  obtain ⟨x, mem, rfl⟩ := List.mem_map.mp hn
  obtain ⟨p, n, stored⟩ := h.linked.exists_node mem
  rw [free] at stored
  cases stored

/-- The nodes before and behind a node are others. -/
lemma notMem_of_nodup (nodup : ((a ++ x :: b).map Prod.fst).Nodup) :
    x.1 ∉ a.map Prod.fst ∧ x.1 ∉ b.map Prod.fst ∧ (∀ y ∈ a, y.1 ∉ b.map Prod.fst) := by
  rw [List.map_append, List.map_cons, List.nodup_append] at nodup
  obtain ⟨-, right, disjoint⟩ := nodup
  rw [List.nodup_cons] at right
  refine ⟨?_, right.1, ?_⟩
  · intro mem
    exact disjoint _ mem _ (by simp) rfl
  · intro y mem mem'
    exact disjoint y.1 (List.mem_map_of_mem mem) y.1 (by simp [mem']) rfl

/-- No node comes twice. -/
lemma Holds.split (h : list.Holds (a ++ x :: b)) :
    x.1 ∉ a.map Prod.fst ∧ x.1 ∉ b.map Prod.fst ∧ (∀ y ∈ a, y.1 ∉ b.map Prod.fst) :=
  notMem_of_nodup h.nodup

/-- The list around one of its nodes. -/
lemma exists_split (mem : node ∈ l.map Prod.fst) : ∃ a x b, l = a ++ x :: b ∧ x.1 = node := by
  obtain ⟨x, hx, rfl⟩ := List.mem_map.mp mem
  obtain ⟨a, b, e⟩ := List.append_of_mem hx
  exact ⟨a, x, b, e, rfl⟩

/-- The nodes without one of them. -/
lemma filter_ne_of_nodup (nodup : ((a ++ x :: b).map Prod.fst).Nodup) :
    (a ++ x :: b).filter (·.1 ≠ x.1) = a ++ b := by
  obtain ⟨before, behind, -⟩ := notMem_of_nodup nodup
  have keep : ∀ {c : Contents}, x.1 ∉ c.map Prod.fst → c.filter (·.1 ≠ x.1) = c := by
    intro c other
    apply List.filter_eq_self.mpr
    intro y mem
    have : y.1 ≠ x.1 := by
      intro e
      exact other (e ▸ List.mem_map_of_mem mem)
    simpa using this
  rw [List.filter_append, List.filter_cons, keep before, keep behind]
  simp

/-- The list without the node. -/
lemma Holds.filter_ne (h : list.Holds (a ++ x :: b)) :
    (a ++ x :: b).filter (·.1 ≠ x.1) = a ++ b :=
  filter_ne_of_nodup h.nodup

/-- A node is found by its address. -/
lemma find?_of_nodup (nodup : ((a ++ x :: b).map Prod.fst).Nodup) :
    (a ++ x :: b).find? (·.1 = x.1) = some x := by
  have before : a.find? (·.1 = x.1) = none := by
    apply List.find?_eq_none.mpr
    intro y mem e
    exact (notMem_of_nodup nodup).1 (of_decide_eq_true e ▸ List.mem_map_of_mem mem)
  simp [List.find?_append, before]

/-- The search for the node finds it. -/
lemma Holds.find?_eq (h : list.Holds (a ++ x :: b)) : (a ++ x :: b).find? (·.1 = x.1) = some x :=
  find?_of_nodup h.nodup

/-- What is stored for a node. -/
lemma Holds.stored (h : list.Holds (a ++ x :: b)) :
    list.nodes x.1 = some ⟨x.2, lastOr Prod.fst none a, firstOr Prod.fst b none⟩ :=
  (linked_append.mp h.linked).2.1

/-- Freeing a node that is not in the list. -/
lemma Holds.kfree (h : list.Holds l) (other : node ∉ l.map Prod.fst) : (list.kfree node).Holds l where
  nodup := h.nodup
  address := h.address
  linked := h.linked.update other
  root := h.root
  tail := h.tail
  length := h.length

/-- A list with a node more. -/
lemma Holds.extend {list' : LinkedList} (h : list.Holds l) (perm : b.Perm ((node, value) :: l))
    (address : Address node) (free : list.nodes node = none)
    (linked : Linked Prod.fst nodeOf list'.nodes none b none)
    (root : list'.root = firstOr Prod.fst b none) (tail : list'.tail = lastOr Prod.fst none b)
    (length : list'.length = (list.length + 1) % 2 ^ 64) : list'.Holds b := by
  have nodup : (b.map Prod.fst).Nodup :=
    (perm.map Prod.fst).nodup_iff.mpr (List.nodup_cons.mpr ⟨h.fresh free, h.nodup⟩)
  have addresses : ∀ x ∈ b, Address x.1 := by
    intro x mem
    rcases List.mem_cons.mp (perm.mem_iff.mp mem) with rfl | mem
    · exact address
    · exact h.address x mem
  refine ⟨nodup, addresses, linked, root, tail, ?_⟩
  have bound := length_lt nodup addresses
  have count := perm.length_eq
  rw [List.length_cons] at count
  rw [length, h.length]
  omega

/-- A list with a node less. -/
lemma Holds.reduce {list' : LinkedList} (h : list.Holds l) (perm : l.Perm (x :: b))
    (linked : Linked Prod.fst nodeOf list'.nodes none b none)
    (root : list'.root = firstOr Prod.fst b none) (tail : list'.tail = lastOr Prod.fst none b)
    (length : list'.length = (2 ^ 64 - 1 + list.length) % 2 ^ 64) : list'.Holds b := by
  have nodup := (perm.map Prod.fst).nodup_iff.mp h.nodup
  have bound := length_lt h.nodup h.address
  have count := perm.length_eq
  rw [List.length_cons] at count
  refine ⟨(List.nodup_cons.mp nodup).2, ?_, linked, root, tail, ?_⟩
  · intro y mem
    exact h.address y (perm.mem_iff.mpr (by simp [mem]))
  · rw [length, h.length]
    omega

/-- `list_push_back`. -/
lemma Holds.pushBack (h : list.Holds l) (value : Option Nat) (address : Address node)
    (free : list.nodes node = none) :
    ∃ list', listPushBack list node value = some (node, list') ∧
      list'.Holds (l ++ [(node, value)]) := by
  have other := h.fresh free
  have linked := h.linked.update (c := some ⟨value, list.tail, none⟩) other
  have perm : (l ++ [(node, value)]).Perm ((node, value) :: l) := List.perm_append_singleton ..
  rcases List.eq_nil_or_concat' l with rfl | ⟨l, x, rfl⟩
  · have tail : list.tail = none := h.tail
    have root : list.root = none := h.root
    refine ⟨_, by simp only [listPushBack, create, tail, root]; rfl, ?_⟩
    exact h.extend perm address free (by simp [grow, nodeOf]) rfl rfl rfl
  · have tail : list.tail = some x.1 := by simp [h.tail]
    have root : list.root ≠ none := by cases l <;> simp [h.root]
    have different : x.1 ≠ node := by
      rintro rfl
      simp at other
    rw [tail] at linked
    have created := (linked_append.mp linked).2.1
    have relinked := linked.update_last (q := some node) h.split.1
    refine ⟨_, by simp only [listPushBack, create, tail, setNext, created]; rfl, ?_⟩
    rw [if_neg root]
    refine h.extend perm address free (linked_append.mpr ⟨relinked, ?_⟩) ?_ ?_ rfl
    · simp [grow, nodeOf, different.symm]
    · simpa [grow] using h.root
    · simp [grow]

/-- `list_push_back` takes no other address than that of its node. -/
lemma pushBack_free {list' : LinkedList} {r other : Nat}
    (pushed : listPushBack list node value = some (r, list')) (different : other ≠ node)
    (free : list.nodes other = none) : list'.nodes other = none := by
  simp only [listPushBack, create] at pushed
  cases tail : list.tail with
  | none =>
    simp only [tail, Option.bind_eq_bind, Option.bind_some, Option.pure_def, Option.some.injEq,
      Prod.mk.injEq] at pushed
    rw [← pushed.2]
    split <;> simp [grow, different, free]
  | some last =>
    simp only [tail, setNext] at pushed
    have still : Function.update list.nodes node (some ⟨value, some last, none⟩) other = none := by
      rw [Function.update_of_ne different, free]
    cases stored : Function.update list.nodes node (some ⟨value, some last, none⟩) last with
    | none => simp [stored] at pushed
    | some n =>
      have apart : other ≠ last := by
        rintro rfl
        rw [still] at stored
        cases stored
      simp only [stored, Option.bind_eq_bind, Option.bind_some, Option.pure_def, Option.some.injEq,
        Prod.mk.injEq] at pushed
      rw [← pushed.2]
      split <;> simp [grow, apart, still]

/-- `list_push_front`. -/
lemma Holds.pushFront (h : list.Holds l) (value : Option Nat) (address : Address node)
    (free : list.nodes node = none) :
    ∃ list', listPushFront list node value = some (node, list') ∧
      list'.Holds ((node, value) :: l) := by
  have other := h.fresh free
  have linked := h.linked.update (c := some ⟨value, none, list.root⟩) other
  cases l with
  | nil =>
    have root : list.root = none := h.root
    refine ⟨_, by simp only [listPushFront, create, root]; rfl, ?_⟩
    exact h.extend (.refl _) address free (by simp [grow, nodeOf]) rfl rfl rfl
  | cons x l =>
    have root : list.root = some x.1 := h.root
    have different : x.1 ≠ node := by
      rintro rfl
      simp at other
    rw [root] at linked
    have created := linked.1
    have relinked := linked.update_first (q := some node) (List.nodup_cons.mp h.nodup).1
    refine ⟨_, by simp only [listPushFront, create, root, setPrevious, created]; rfl, ?_⟩
    refine h.extend (.refl _) address free ⟨?_, relinked⟩ rfl ?_ rfl
    · simp [grow, nodeOf, different.symm]
    · simpa [grow] using h.tail

/-- The last node is taken out. -/
lemma Holds.unlinkBack (h : list.Holds (l ++ [x])) :
    ∃ list', list.unlinkBack ⟨x.2, lastOr Prod.fst none l, none⟩ = some list' ∧ list'.Holds l := by
  have perm : (l ++ [x]).Perm (x :: l) := List.perm_append_singleton ..
  have other := h.split.1
  have linked := (linked_append.mp h.linked).1
  rcases List.eq_nil_or_concat' l with rfl | ⟨l, y, rfl⟩
  · refine ⟨_, by simp only [LinkedList.unlinkBack, lastOr_nil]; rfl, ?_⟩
    exact h.reduce perm trivial rfl rfl rfl
  · have stored := (linked_append.mp linked).2.1
    have apart : list.Holds (l ++ y :: [x]) := by simpa using h
    have relinked := linked.update_last (q := none) apart.split.1
    refine ⟨_, by simp only [LinkedList.unlinkBack, lastOr_append, lastOr_singleton, setNext, stored]; rfl,
      ?_⟩
    refine h.reduce perm relinked ?_ ?_ rfl
    · simpa [shrink] using h.root
    · simp [shrink]

/-- `list_remove_back`. -/
lemma Holds.removeBack (h : list.Holds (l ++ [x])) :
    ∃ list', listRemoveBack list = some (x.2, list') ∧ list'.Holds l := by
  have tail : list.tail = some x.1 := by simp [h.tail]
  obtain ⟨list', unlinked, holds⟩ := h.unlinkBack
  refine ⟨list'.kfree x.1, ?_, holds.kfree h.split.1⟩
  simp only [listRemoveBack, tail, h.stored, firstOr_nil, Option.bind_eq_bind, Option.bind_some,
    unlinked]
  rfl

/-- `list_pop`. -/
lemma Holds.pop (h : list.Holds (l ++ [x])) :
    ∃ list', listPop list = some (some x.1, list') ∧ list'.Holds l := by
  have tail : list.tail = some x.1 := by simp [h.tail]
  obtain ⟨list', unlinked, holds⟩ := h.unlinkBack
  refine ⟨list', ?_, holds⟩
  simp only [listPop, tail, h.stored, firstOr_nil, Option.bind_eq_bind, Option.bind_some, unlinked]
  rfl

/-- `list_remove_front`. -/
lemma Holds.removeFront (h : list.Holds (x :: l)) :
    ∃ list', listRemoveFront list = some (x.2, list') ∧ list'.Holds l := by
  have root : list.root = some x.1 := h.root
  have stored := h.linked.1
  have nodup := List.nodup_cons.mp h.nodup
  cases l with
  | nil =>
    refine ⟨_, by simp only [listRemoveFront, root, stored]; rfl, ?_⟩
    exact h.reduce (.refl _) trivial rfl rfl rfl
  | cons y l =>
    have next := h.linked.2.1
    have relinked := h.linked.2.update_first (q := none) (List.nodup_cons.mp nodup.2).1
    refine ⟨_, by simp only [listRemoveFront, root, stored, nodeOf, firstOr_cons, Option.bind_eq_bind,
      Option.bind_some, setPrevious, next]; rfl, ?_⟩
    refine h.reduce (.refl _) (relinked.update nodup.1) rfl ?_ rfl
    simpa [shrink, LinkedList.kfree] using h.tail

/-- The nodes next to each other in a list are different. -/
lemma Holds.between (h : list.Holds (a ++ y :: x :: z :: b)) :
    x.1 ∉ (a ++ [y]).map Prod.fst ∧ x.1 ∉ (z :: b).map Prod.fst ∧ y.1 ∉ a.map Prod.fst ∧
      y.1 ∉ (z :: b).map Prod.fst ∧ z.1 ∉ b.map Prod.fst ∧ z.1 ∉ (a ++ [y]).map Prod.fst := by
  have atX : list.Holds ((a ++ [y]) ++ x :: z :: b) := by simpa using h
  have atZ : list.Holds ((a ++ y :: [x]) ++ z :: b) := by simpa using h
  refine ⟨atX.split.1, atX.split.2.1, h.split.1, atX.split.2.2 y (by simp), atZ.split.2.1, ?_⟩
  intro mem
  exact atZ.split.1 (by simp at mem ⊢; tauto)

/-- What the critical section of `list_remove` writes for a node that is at no end. -/
lemma removeLocked_eq {p n : Nat} {cp cn : ListNode} (root : some node ≠ list.root)
    (tail : some node ≠ list.tail) (stored : list.nodes node = some ⟨value, some p, some n⟩)
    (storedP : list.nodes p = some cp) (storedN : list.nodes n = some cn) (hp : node ≠ p)
    (hn : n ≠ p) :
    listRemoveLocked list node = some (value, .done, LinkedList.kfree (shrink { list with
      nodes := Function.update (Function.update list.nodes p (some { cp with next := some n })) n
        (some { cn with previous := some p }) }) node) := by
  simp [listRemoveLocked, stored, root, tail, setNext, setPrevious, storedP, storedN, hp, hn]

/-- A node between others is taken out by `list_remove` in its critical section. -/
lemma Holds.removeLocked_between (h : list.Holds (a ++ y :: x :: z :: b)) :
    ∃ list', listRemoveLocked list x.1 = some (x.2, .done, list') ∧
      list'.Holds (a ++ y :: z :: b) := by
  obtain ⟨xBefore, xBehind, yBefore, yBehind, zBehind, zBefore⟩ := h.between
  have atX : list.Holds ((a ++ [y]) ++ x :: z :: b) := by simpa using h
  have root : some x.1 ≠ list.root := by
    intro e
    have first : firstOr Prod.fst (a ++ [y]) none = some x.1 := by simpa [h.root] using e.symm
    rcases firstOr_mem _ first with mem | e
    · exact xBefore mem
    · cases e
  have tail : some x.1 ≠ list.tail := by
    intro e
    have last : lastOr Prod.fst none (z :: b) = some x.1 := by simpa [h.tail] using e.symm
    rcases lastOr_mem _ last with e | mem
    · cases e
    · exact xBehind mem
  obtain ⟨before, stored, behind⟩ := linked_append.mp atX.linked
  have storedY := (linked_append.mp before).2.1
  have relinkedY := before.update_last (q := some z.1) yBefore
  have relinkedZ := (behind.update (c := some (nodeOf y (lastOr Prod.fst none a) (some z.1)))
    yBehind).update_first (q := some y.1) zBehind
  have xy : x.1 ≠ y.1 := by
    intro e
    exact xBefore (by simp [e])
  have zy : z.1 ≠ y.1 := by
    intro e
    exact zBefore (by simp [e])
  rw [lastOr_append, lastOr_singleton] at stored
  refine ⟨_, removeLocked_eq root tail stored storedY behind.1 xy zy, ?_⟩
  have perm : (a ++ y :: x :: z :: b).Perm (x :: ((a ++ [y]) ++ z :: b)) := by
    have middle : ((a ++ [y]) ++ x :: z :: b).Perm (x :: ((a ++ [y]) ++ z :: b)) := List.perm_middle
    simpa using middle
  suffices LinkedList.Holds _ ((a ++ [y]) ++ z :: b) by simpa using this
  refine h.reduce perm (linked_append.mpr ⟨?_, ?_⟩) ?_ ?_ rfl
  · exact (relinkedY.update zBefore).update xBefore
  · rw [lastOr_append, lastOr_singleton]
    exact relinkedZ.update xBehind
  · simpa [shrink, LinkedList.kfree] using h.root
  · simpa [shrink, LinkedList.kfree] using h.tail

/-- A node at the front of the list. -/
lemma Holds.removeLocked_front (h : list.Holds (x :: b)) :
    listRemoveLocked list x.1 = some (x.2, .front, list) := by
  have root : list.root = some x.1 := h.root
  have stored := h.linked.1
  simp [listRemoveLocked, root, stored, nodeOf]

/-- A node at the back of the list, and not at the front. -/
lemma Holds.removeLocked_back (h : list.Holds (y :: a ++ [x])) :
    listRemoveLocked list x.1 = some (x.2, .back, list) := by
  have root : list.root = some y.1 := h.root
  have tail : list.tail = some x.1 := by simp [h.tail]
  have different : x.1 ≠ y.1 := by
    intro e
    exact h.split.1 (by simp [e])
  simp [listRemoveLocked, root, tail, h.stored, different]

/-- The critical section of `list_remove` finds its node at an end, or takes it out. -/
lemma Holds.removeLocked_cases (h : list.Holds (a ++ x :: b)) :
    (a = [] ∧ listRemoveLocked list x.1 = some (x.2, .front, list)) ∨
    (a ≠ [] ∧ b = [] ∧ listRemoveLocked list x.1 = some (x.2, .back, list)) ∨
    (a ≠ [] ∧ b ≠ [] ∧
      ∃ list', listRemoveLocked list x.1 = some (x.2, .done, list') ∧ list'.Holds (a ++ b)) := by
  rcases List.eq_nil_or_concat' a with rfl | ⟨a, y, rfl⟩
  · exact .inl ⟨rfl, h.removeLocked_front⟩
  · cases b with
    | nil =>
      refine .inr (.inl ⟨by simp, rfl, ?_⟩)
      cases a with
      | nil => exact h.removeLocked_back (a := [])
      | cons z a => exact Holds.removeLocked_back (a := a ++ [y]) (by simpa using h)
    | cons z b =>
      have between : list.Holds (a ++ y :: x :: z :: b) := by simpa using h
      obtain ⟨list', removed, holds⟩ := between.removeLocked_between
      exact .inr (.inr ⟨by simp, by simp, list', removed, by simpa using holds⟩)

/-- `list_remove`. -/
lemma Holds.remove (h : list.Holds (a ++ x :: b)) :
    ∃ list', listRemove list x.1 = some (x.2, list') ∧ list'.Holds (a ++ b) := by
  rcases h.removeLocked_cases with ⟨rfl, locked⟩ | ⟨-, rfl, locked⟩ | ⟨-, -, list', locked, holds⟩
  · obtain ⟨list', removed, holds⟩ := h.removeFront
    exact ⟨list', by simp [listRemove, locked, listRemoveRest, removed], holds⟩
  · obtain ⟨list', removed, holds⟩ := h.removeBack
    exact ⟨list', by simp [listRemove, locked, listRemoveRest, removed], by simpa using holds⟩
  · exact ⟨list', by simp [listRemove, locked, listRemoveRest], holds⟩

/-- `list_get_back` returns the last value. -/
lemma Holds.getBack (h : list.Holds l) : listGetBack list = some (l.getLast?.bind Prod.snd) := by
  rcases List.eq_nil_or_concat' l with rfl | ⟨l, x, rfl⟩
  · have tail : list.tail = none := h.tail
    simp [listGetBack, tail]
  · have tail : list.tail = some x.1 := by simp [h.tail]
    simp [listGetBack, tail, h.stored]

/-- `list_get_front` returns the first value. -/
lemma Holds.getFront (h : list.Holds l) : listGetFront list = some (l.head?.bind Prod.snd) := by
  cases l with
  | nil =>
    have root : list.root = none := h.root
    simp [listGetFront, root]
  | cons x l =>
    have root : list.root = some x.1 := h.root
    simp [listGetFront, root, h.linked.1, nodeOf]

/-- The loop of `list_contains` stops at the first node with the value. -/
lemma containsLoop_eq {nodes : Nat → Option ListNode} {p : Option Nat} {fuel index : Nat}
    (linked : Linked Prod.fst nodeOf nodes p l none) (enough : l.length < fuel)
    (bound : index + l.length < 2 ^ 64) :
    containsLoop nodes value fuel (firstOr Prod.fst l none) index =
      some ((l.findIdx? (·.2 = value)).map (index + ·)) := by
  induction l generalizing p fuel index with
  | nil =>
    obtain ⟨fuel, rfl⟩ := Nat.exists_eq_succ_of_ne_zero (Nat.ne_of_gt enough)
    rfl
  | cons x l ih =>
    obtain ⟨fuel, rfl⟩ := Nat.exists_eq_succ_of_ne_zero (Nat.ne_of_gt (Nat.zero_lt_of_lt enough))
    rw [List.length_cons] at enough bound
    have step : (index + 1) % 2 ^ 64 = index + 1 := Nat.mod_eq_of_lt (by omega)
    rw [firstOr_cons, containsLoop, linked.1]
    simp only [Option.bind_eq_bind, Option.bind_some, nodeOf, List.findIdx?_cons, step]
    by_cases e : x.2 = value
    · simp [e]
    · rw [if_neg e, ih linked.2 (by omega) (by omega)]
      simp [e, Function.comp_def, Nat.add_assoc, Nat.add_comm 1]

/-- `list_contains` returns the first index of the value, or `SIZE_MAX`. -/
lemma Holds.contains (h : list.Holds l) :
    listContains list value = some ((l.findIdx? (·.2 = value)).getD (2 ^ 64 - 1)) := by
  have bound := length_lt h.nodup h.address
  rw [listContains, h.root, nodeCount, containsLoop_eq h.linked bound (by omega)]
  simp

/-- The loop of `list_get_indexed` counts to the index. -/
lemma getIndexedLoop_eq {nodes : Nat → Option ListNode} {p : Option Nat} {fuel i index : Nat}
    (linked : Linked Prod.fst nodeOf nodes p l none) (enough : l.length < fuel)
    (bound : index + l.length < 2 ^ 64) :
    getIndexedLoop nodes (index + i) fuel (firstOr Prod.fst l none) index =
      some (l[i]?.map Prod.fst) := by
  induction l generalizing p fuel i index with
  | nil =>
    obtain ⟨fuel, rfl⟩ := Nat.exists_eq_succ_of_ne_zero (Nat.ne_of_gt enough)
    rfl
  | cons x l ih =>
    obtain ⟨fuel, rfl⟩ := Nat.exists_eq_succ_of_ne_zero (Nat.ne_of_gt (Nat.zero_lt_of_lt enough))
    rw [List.length_cons] at enough bound
    have step : (index + 1) % 2 ^ 64 = index + 1 := Nat.mod_eq_of_lt (by omega)
    rw [firstOr_cons, getIndexedLoop]
    cases i with
    | zero => simp
    | succ i =>
      have more : index + (i + 1) = index + 1 + i := by omega
      rw [if_neg (by omega), linked.1, more]
      simp only [Option.bind_eq_bind, Option.bind_some, nodeOf, step]
      exact ih linked.2 (by omega) (by omega)

/-- `list_get_indexed` returns the node at the index. -/
lemma Holds.getIndexed (h : list.Holds l) (index : Nat) :
    listGetIndexed list index = some (l[index]?.map Prod.fst) := by
  have bound := length_lt h.nodup h.address
  have found : getIndexedLoop list.nodes (0 + index) nodeCount (firstOr Prod.fst l none) 0 = _ :=
    getIndexedLoop_eq h.linked bound (by omega)
  rwa [Nat.zero_add, ← h.root] at found

/-- `list_remove_indexed`. -/
lemma Holds.removeIndexed (h : list.Holds (a ++ x :: b)) :
    ∃ list', listRemoveIndexed list a.length = some (x.2, list') ∧ list'.Holds (a ++ b) := by
  obtain ⟨list', removed, holds⟩ := h.remove
  refine ⟨list', ?_, holds⟩
  simp [listRemoveIndexed, h.getIndexed, removed]

end Holds

/-- C `node->next`. -/
def nextOf (list : LinkedList) (node : Nat) : Option Nat := (list.nodes node).bind (·.next)

/-- C `node->previous`. -/
def previousOf (list : LinkedList) (node : Nat) : Option Nat := (list.nodes node).bind (·.previous)

/-- The nodes with their values in both orders, the ends and the length agree. -/
structure WellFormed (list : LinkedList) (l : Contents) : Prop where
  forward : Path list.nextOf list.root (l.map Prod.fst)
  backward : Path list.previousOf list.tail (l.map Prod.fst).reverse
  values : ∀ x ∈ l, (list.nodes x.1).map (·.value) = some x.2
  length : list.length = l.length
  ends : list.root = none ↔ list.tail = none

/-- A list that holds values is well formed in both orders. -/
lemma Holds.wellFormed {list : LinkedList} {l : Contents} (h : list.Holds l) : list.WellFormed l where
  forward := by
    rw [h.root]
    apply h.linked.path
    intro x p n stored
    simp [nextOf, stored, nodeOf]
  backward := by
    rw [h.tail]
    apply h.linked.path_reverse
    intro x p n stored
    simp [previousOf, stored, nodeOf]
  values := by
    intro x mem
    obtain ⟨p, n, stored⟩ := h.linked.exists_node mem
    simp [stored, nodeOf]
  length := h.length
  ends := by
    rw [h.root, h.tail]
    rcases List.eq_nil_or_concat' l with rfl | ⟨l, x, rfl⟩
    · simp
    · cases l <;> simp

/-- A node is reached from the root. -/
def Member (list : LinkedList) (node : Nat) : Prop :=
  ∃ nodes, Path list.nextOf list.root nodes ∧ node ∈ nodes

section WellFormed
variable {list : LinkedList} {l l' : Contents} {node : Nat}

/-- The nodes that the list is followed to. -/
lemma WellFormed.member_iff (h : list.WellFormed l) : list.Member node ↔ node ∈ l.map Prod.fst := by
  constructor
  · rintro ⟨nodes, path, mem⟩
    rwa [h.forward.unique path]
  · intro mem
    exact ⟨_, h.forward, mem⟩

/-- A list is well formed for its own values only. -/
lemma WellFormed.unique (h : list.WellFormed l) (h' : list.WellFormed l') : l = l' := by
  let pair := fun node => (node, ((list.nodes node).map (·.value)).getD none)
  have pairs : ∀ {l}, list.WellFormed l → l = (l.map Prod.fst).map pair := by
    intro l h
    have same : l.map (pair ∘ Prod.fst) = l.map id := by
      apply List.map_congr_left
      intro x mem
      simp [pair, h.values x mem]
    rw [List.map_map, same, List.map_id]
  rw [pairs h, pairs h', h.forward.unique h'.forward]

end WellFormed

end LinkedList

/-! ## Calls in any order -/

/-- A call on a list; `node` is what `kmalloc` returns for a new node. -/
inductive ListCall where
  | pushBack (node : Nat) (value : Option Nat)
  | pushFront (node : Nat) (value : Option Nat)
  | removeBack
  | removeFront
  | pop
  | remove (node : Nat)
  | removeIndexed (index : Nat)
  | getBack
  | getFront
  | contains (value : Option Nat)
  | getIndexed (index : Nat)

/-- What a call returns: a node, a value or an index. -/
inductive ListResult where
  | node (node : Option Nat)
  | value (value : Option Nat)
  | index (index : Nat)
deriving DecidableEq, Repr

namespace ListCall
open LinkedList

/-- What a call does. -/
def exec (list : LinkedList) : ListCall → Option (ListResult × LinkedList)
  | pushBack node value => (listPushBack list node value).map (.map (.node ∘ some) id)
  | pushFront node value => (listPushFront list node value).map (.map (.node ∘ some) id)
  | removeBack => (listRemoveBack list).map (.map .value id)
  | removeFront => (listRemoveFront list).map (.map .value id)
  | pop => (listPop list).map (.map .node id)
  | remove node => (listRemove list node).map (.map .value id)
  | removeIndexed index => (listRemoveIndexed list index).map (.map .value id)
  | getBack => (listGetBack list).map (.value ·, list)
  | getFront => (listGetFront list).map (.value ·, list)
  | contains value => (listContains list value).map (.index ·, list)
  | getIndexed index => (listGetIndexed list index).map (.node ·, list)

/-- The operation on the sequence of values that a call stands for. -/
def spec (l : Contents) : ListCall → ListResult × Contents
  | pushBack node value => (.node (some node), l ++ [(node, value)])
  | pushFront node value => (.node (some node), (node, value) :: l)
  | removeBack => (.value (l.getLast?.bind Prod.snd), l.dropLast)
  | removeFront => (.value (l.head?.bind Prod.snd), l.tail)
  | pop => (.node (l.getLast?.map Prod.fst), l.dropLast)
  | remove node => (.value ((l.find? (·.1 = node)).bind Prod.snd), l.filter (·.1 ≠ node))
  | removeIndexed index => (.value (l[index]?.bind Prod.snd), l.eraseIdx index)
  | getBack => (.value (l.getLast?.bind Prod.snd), l)
  | getFront => (.value (l.head?.bind Prod.snd), l)
  | contains value => (.index ((l.findIdx? (·.2 = value)).getD (2 ^ 64 - 1)), l)
  | getIndexed index => (.node (l[index]?.map Prod.fst), l)

/-- A new node is at an address that was free, a node to remove is in the list, and so is an index. -/
def Proper (list : LinkedList) (l : Contents) : ListCall → Prop
  | pushBack node _ | pushFront node _ => Address node ∧ list.nodes node = none
  | remove node => node ∈ l.map Prod.fst
  | removeIndexed index => index < list.length
  | _ => True

/-- Every call does what it stands for. -/
lemma exec_eq {list : LinkedList} {l : Contents} {call : ListCall} (h : list.Holds l)
    (proper : call.Proper list l) :
    ∃ list', call.exec list = some ((call.spec l).1, list') ∧ list'.Holds (call.spec l).2 := by
  cases call with
  | pushBack node value =>
    obtain ⟨list', pushed, holds⟩ := h.pushBack value proper.1 proper.2
    exact ⟨list', by simp [exec, spec, pushed], holds⟩
  | pushFront node value =>
    obtain ⟨list', pushed, holds⟩ := h.pushFront value proper.1 proper.2
    exact ⟨list', by simp [exec, spec, pushed], holds⟩
  | removeBack =>
    rcases List.eq_nil_or_concat' l with rfl | ⟨l, x, rfl⟩
    · have tail : list.tail = none := h.tail
      exact ⟨list, by simp [exec, spec, listRemoveBack, tail], h⟩
    · obtain ⟨list', removed, holds⟩ := h.removeBack
      exact ⟨list', by simp [exec, spec, removed], by simpa [spec] using holds⟩
  | removeFront =>
    cases l with
    | nil =>
      have root : list.root = none := h.root
      exact ⟨list, by simp [exec, spec, listRemoveFront, root], h⟩
    | cons x l =>
      obtain ⟨list', removed, holds⟩ := h.removeFront
      exact ⟨list', by simp [exec, spec, removed], holds⟩
  | pop =>
    rcases List.eq_nil_or_concat' l with rfl | ⟨l, x, rfl⟩
    · have tail : list.tail = none := h.tail
      exact ⟨list, by simp [exec, spec, listPop, tail], h⟩
    · obtain ⟨list', popped, holds⟩ := h.pop
      exact ⟨list', by simp [exec, spec, popped], by simpa [spec] using holds⟩
  | remove node =>
    obtain ⟨a, x, b, rfl, rfl⟩ := exists_split proper
    obtain ⟨list', removed, holds⟩ := h.remove
    refine ⟨list', ?_, ?_⟩
    · simp only [exec, spec, removed, h.find?_eq]
      rfl
    · simpa only [spec, h.filter_ne] using holds
  | removeIndexed index =>
    have inside : index < l.length := h.length ▸ proper
    obtain ⟨a, x, b, rfl, rfl⟩ : ∃ a x b, l = a ++ x :: b ∧ index = a.length := by
      refine ⟨l.take index, l[index], l.drop (index + 1), by simp, ?_⟩
      rw [List.length_take]
      omega
    obtain ⟨list', removed, holds⟩ := h.removeIndexed
    exact ⟨list', by simp [exec, spec, removed], by simpa [spec, List.eraseIdx_append] using holds⟩
  | getBack => exact ⟨list, by simp [exec, spec, h.getBack], h⟩
  | getFront => exact ⟨list, by simp [exec, spec, h.getFront], h⟩
  | contains value => exact ⟨list, by simp [exec, spec, h.contains], h⟩
  | getIndexed index => exact ⟨list, by simp [exec, spec, h.getIndexed], h⟩

/-- Calls behind each other, with what each returns. -/
def execAll : List ListCall → LinkedList → Option (List ListResult × LinkedList)
  | [], list => some ([], list)
  | call :: calls, list => do
    let (result, list) ← call.exec list
    let (results, list) ← execAll calls list
    return (result :: results, list)

/-- The operations that calls stand for, with their results. -/
def specAll : List ListCall → Contents → List ListResult × Contents
  | [], l => ([], l)
  | call :: calls, l =>
    let (result, l) := call.spec l
    let (results, l) := specAll calls l
    (result :: results, l)

/-- Every call is proper when it is made. -/
def AllProper : List ListCall → LinkedList → Contents → Prop
  | [], _, _ => True
  | call :: calls, list, l => call.Proper list l ∧
    ∀ result list', call.exec list = some (result, list') → AllProper calls list' (call.spec l).2

/-- The calls do what the operations on the sequence do. -/
lemma execAll_eq {calls : List ListCall} {list : LinkedList} {l : Contents} (h : list.Holds l)
    (proper : AllProper calls list l) :
    ∃ list', execAll calls list = some ((specAll calls l).1, list') ∧
      list'.Holds (specAll calls l).2 := by
  induction calls generalizing list l with
  | nil => exact ⟨list, rfl, h⟩
  | cons call calls ih =>
    obtain ⟨list', done, holds⟩ := exec_eq h proper.1
    obtain ⟨list'', rest, holds'⟩ := ih holds (proper.2 _ _ done)
    exact ⟨list'', by simp [execAll, specAll, done, rest], holds'⟩

/-- Calls in any order on a new list return what the operations on the sequence of values return, and
leave a well-formed list of these values. -/
theorem execAll_refines {nodes : Nat → Option ListNode} {calls : List ListCall}
    (proper : AllProper calls (listCreate nodes) []) :
    ∃ list', execAll calls (listCreate nodes) = some ((specAll calls []).1, list') ∧
      list'.WellFormed (specAll calls []).2 := by
  obtain ⟨list', done, holds⟩ := execAll_eq (holds_create nodes) proper
  exact ⟨list', done, holds.wellFormed⟩

/-- Two values are pushed, and the node of the first is removed. -/
theorem execAll_refines_remove :
    let calls := [pushBack 16 (some 5), pushFront 32 none, remove 16, contains none]
    AllProper calls (listCreate fun _ => none) [] ∧
      ∃ list', execAll calls (listCreate fun _ => none) =
          some ([.node (some 16), .node (some 32), .value (some 5), .index 0], list') ∧
        list'.WellFormed [(32, none)] := by
  intro calls
  have proper : AllProper calls (listCreate fun _ => none) [] := by
    refine ⟨⟨⟨by omega, by omega⟩, rfl⟩, ?_⟩
    rintro _ _ ⟨⟩
    refine ⟨⟨⟨by omega, by omega⟩, rfl⟩, ?_⟩
    rintro _ _ ⟨⟩
    refine ⟨show 16 ∈ [32, 16] by decide, ?_⟩
    rintro _ _ ⟨⟩
    exact ⟨trivial, fun _ _ _ => trivial⟩
  exact ⟨proper, execAll_refines proper⟩

end ListCall

end WivOS.Utils
