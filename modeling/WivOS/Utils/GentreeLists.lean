import WivOS.Lib.Trees
import WivOS.Utils.Lists

/-!
# Trees in memory

The `gentree` of `utils/lists.c` with its lists of children as they are: nodes and list nodes are at
addresses that `kmalloc` returned, all lists have their nodes in one memory, and that memory may hold other
trees. A tree that was built by `gentree_insert` represents a tree that grows by its leaves (`Represents`).
There `gentree_get_parent` finds the one parent of a node by its search from the root, with the index of the
node among the children, and `gentree_remove` takes out exactly that child by its index.
-/

namespace WivOS.Utils
open Lib LinkedList Relation

/-! ## What list functions leave alone -/

namespace LinkedList
variable {list list' : LinkedList} {l a b : Contents} {x : Nat × Option Nat} {node m r : Nat}
  {value v : Option Nat}

/-- Writing `next` touches its node only. -/
lemma setNext_frame {next : Option Nat} (set : list.setNext node next = some list') (other : m ≠ node) :
    list'.nodes m = list.nodes m := by
  obtain ⟨n, -, set⟩ := Option.bind_eq_some_iff.mp set
  cases set
  exact Function.update_of_ne other _ _

/-- So does writing `previous`. -/
lemma setPrevious_frame {previous : Option Nat} (set : list.setPrevious node previous = some list')
    (other : m ≠ node) : list'.nodes m = list.nodes m := by
  obtain ⟨n, -, set⟩ := Option.bind_eq_some_iff.mp set
  cases set
  exact Function.update_of_ne other _ _

/-- A new node is the only one that is not of the list. -/
lemma Holds.pushFront_frame (h : list.Holds l) (pushed : listPushFront list node value = some (r, list'))
    (new : m ≠ node) (other : m ∉ l.map Prod.fst) : list'.nodes m = list.nodes m := by
  have created : ∀ n, (list.create node n).nodes m = list.nodes m := by
    intro n
    exact Function.update_of_ne new _ _
  cases l with
  | nil =>
    have root : list.root = none := h.root
    simp only [listPushFront, create, root] at pushed
    cases pushed
    exact created _
  | cons x l =>
    have root : list.root = some x.1 := h.root
    have first : m ≠ x.1 := fun e => other (by simp [e])
    simp only [listPushFront, create, root, Option.bind_eq_bind, Option.bind_eq_some_iff] at pushed
    obtain ⟨list₁, linked, pushed⟩ := pushed
    cases pushed
    exact (setPrevious_frame linked first).trans (created _)

/-- `list_remove_front` touches nodes of its list only. -/
lemma Holds.removeFront_frame (h : list.Holds (x :: l))
    (removed : listRemoveFront list = some (v, list')) (other : m ∉ (x :: l).map Prod.fst) :
    list'.nodes m = list.nodes m := by
  have root : list.root = some x.1 := h.root
  have stored := h.linked.1
  have first : m ≠ x.1 := fun e => other (by simp [e])
  cases l with
  | nil =>
    simp only [listRemoveFront, root, stored, nodeOf] at removed
    cases removed
    exact Function.update_of_ne first _ _
  | cons y l =>
    have second : m ≠ y.1 := fun e => other (by simp [e])
    simp only [listRemoveFront, root, stored, nodeOf, firstOr_cons, Option.bind_eq_bind,
      Option.bind_some, Option.bind_eq_some_iff] at removed
    obtain ⟨list₁, linked, removed⟩ := removed
    cases removed
    have kept := setPrevious_frame linked second
    exact (Function.update_of_ne first _ _).trans kept

/-- So does `list_remove_back`. -/
lemma Holds.removeBack_frame (h : list.Holds (l ++ [x]))
    (removed : listRemoveBack list = some (v, list')) (other : m ∉ (l ++ [x]).map Prod.fst) :
    list'.nodes m = list.nodes m := by
  have tail : list.tail = some x.1 := by simp [h.tail]
  have stored := h.stored
  have last : m ≠ x.1 := fun e => other (by simp [e])
  rcases List.eq_nil_or_concat' l with rfl | ⟨l, y, rfl⟩
  · simp only [listRemoveBack, tail, stored] at removed
    cases removed
    exact Function.update_of_ne last _ _
  · have before : m ≠ y.1 := fun e => other (by simp [e])
    rw [lastOr_append, lastOr_singleton] at stored
    simp only [listRemoveBack, tail, stored, LinkedList.unlinkBack, Option.bind_eq_bind, Option.bind_some,
      Option.bind_eq_some_iff] at removed
    obtain ⟨list₂, ⟨list₁, linked, unlinked⟩, removed⟩ := removed
    cases unlinked
    cases removed
    have kept := setNext_frame linked before
    exact (Function.update_of_ne last _ _).trans kept

/-- A node between others is unlinked from these. -/
lemma Holds.removeLocked_frame {rest : RemoveRest} (h : list.Holds (a ++ x :: b))
    (removed : listRemoveLocked list x.1 = some (v, rest, list'))
    (other : m ∉ (a ++ x :: b).map Prod.fst) : list'.nodes m = list.nodes m := by
  have self : m ≠ x.1 := fun e => other (by simp [e])
  simp only [listRemoveLocked, h.stored, Option.bind_eq_bind, Option.bind_some] at removed
  split at removed
  · cases removed
    rfl
  · split at removed
    · cases removed
      rfl
    · simp only [Option.bind_eq_some_iff, Option.pure_def, Option.some.injEq, Prod.mk.injEq] at removed
      obtain ⟨p, before, list₁, set₁, n, stored, q, behind, list₂, set₂, -, -, rfl⟩ := removed
      have memP : p ∈ a.map Prod.fst := (lastOr_mem _ before).resolve_left (by simp)
      have notBefore : m ≠ p := by
        rintro rfl
        exact other (by simp only [List.map_append, List.mem_append, memP, true_or])
      have kept : x.1 ≠ p := by
        rintro rfl
        exact h.split.1 memP
      rw [setNext_frame set₁ kept, h.stored] at stored
      cases stored
      have memQ : q ∈ b.map Prod.fst := (firstOr_mem _ behind).resolve_right (by simp)
      have notBehind : m ≠ q := by
        rintro rfl
        exact other (by simp only [List.map_append, List.map_cons, List.mem_append, List.mem_cons, memQ,
          or_true])
      have freed : (list₂.shrink.kfree x.1).nodes m = list₂.nodes m := Function.update_of_ne self _ _
      rw [freed, setPrevious_frame set₂ notBehind, setNext_frame set₁ notBefore]

/-- So does `list_remove`. -/
lemma Holds.remove_frame (h : list.Holds (a ++ x :: b)) (removed : listRemove list x.1 = some (v, list'))
    (other : m ∉ (a ++ x :: b).map Prod.fst) : list'.nodes m = list.nodes m := by
  simp only [listRemove, Option.bind_eq_bind, Option.bind_eq_some_iff, Option.pure_def, Option.some.injEq,
    Prod.mk.injEq] at removed
  obtain ⟨⟨value, rest, list₁⟩, locked, list₂, removed, -, rfl⟩ := removed
  rcases h.removeLocked_cases with ⟨rfl, front⟩ | ⟨-, rfl, back⟩ | ⟨-, -, list₃, done, -⟩
  · cases locked.symm.trans front
    obtain ⟨⟨w, list₄⟩, taken, rfl⟩ := Option.map_eq_some_iff.mp removed
    exact h.removeFront_frame taken other
  · cases locked.symm.trans back
    obtain ⟨⟨w, list₄⟩, taken, rfl⟩ := Option.map_eq_some_iff.mp removed
    exact h.removeBack_frame taken other
  · cases locked.symm.trans done
    cases removed
    exact h.removeLocked_frame locked other

/-- `list_remove_indexed` changes no node that is not of the list. -/
lemma Holds.removeIndexed_frame (h : list.Holds (a ++ x :: b))
    (removed : listRemoveIndexed list a.length = some (v, list'))
    (other : m ∉ (a ++ x :: b).map Prod.fst) : list'.nodes m = list.nodes m := by
  have found : listGetIndexed list a.length = some (some x.1) := by
    rw [h.getIndexed]
    simp
  rw [listRemoveIndexed, found] at removed
  exact h.remove_frame removed other

/-- A list with the nodes of another memory. -/
lemma Holds.congr (h : list.Holds l) (root : list'.root = list.root) (tail : list'.tail = list.tail)
    (length : list'.length = list.length) (same : ∀ x ∈ l, list'.nodes x.1 = list.nodes x.1) :
    list'.Holds l where
  nodup := h.nodup
  address := h.address
  linked := h.linked.congr same
  root := root.trans h.root
  tail := tail.trans h.tail
  length := length.trans h.length

/-- The index of the first node with a value. -/
lemma Holds.contains_eq (h : list.Holds (a ++ x :: b)) (first : x.2 ∉ a.map Prod.snd) :
    listContains list x.2 = some a.length ∧ a.length ≠ 2 ^ 64 - 1 := by
  have bound := length_lt h.nodup h.address
  rw [List.length_append, List.length_cons] at bound
  refine ⟨?_, by omega⟩
  have none : a.findIdx? (fun y => decide (y.2 = x.2)) = none := by
    rw [List.findIdx?_eq_none_iff]
    intro y mem
    exact decide_eq_false fun e => first (e ▸ List.mem_map_of_mem mem)
  rw [h.contains, List.findIdx?_append, none]
  simp [List.findIdx?_cons]

/-- `list_contains` returns `SIZE_MAX` for a value that is not in the list. -/
lemma Holds.contains_none (h : list.Holds l) (missing : value ∉ l.map Prod.snd) :
    listContains list value = some (2 ^ 64 - 1) := by
  have none : l.findIdx? (fun y => decide (y.2 = value)) = none := by
    rw [List.findIdx?_eq_none_iff]
    intro y mem
    exact decide_eq_false fun e => missing (e ▸ List.mem_map_of_mem mem)
  rw [h.contains, none]
  rfl

end LinkedList

/-! ## The functions -/

/-- `list_t`, for which the nodes are in the memory of the tree. -/
structure ListHead where
  length : Nat
  root : Option Nat
  tail : Option Nat
deriving DecidableEq, Repr

/-- `gentree_node_t`, with its list of children. -/
structure LinkedTreeNode (V : Type) where
  value : V
  children : ListHead

/-- `gentree_t`, with the nodes in memory and the nodes of all lists. -/
structure LinkedTree (V : Type) where
  root : Option Nat
  nodes : Nat → Option (LinkedTreeNode V)
  listNodes : Nat → Option ListNode

namespace LinkedTree
variable {V : Type}

/-- C `node->children`. -/
def children (tree : LinkedTree V) (g : LinkedTreeNode V) : LinkedList :=
  ⟨g.children.length, g.children.root, g.children.tail, tree.listNodes⟩

/-- Writes the list of children of a node back. -/
def setChildren (tree : LinkedTree V) (node : Nat) (g : LinkedTreeNode V) (list : LinkedList) :
    LinkedTree V :=
  { tree with
    nodes := Function.update tree.nodes node
      (some { g with children := ⟨list.length, list.root, list.tail⟩ })
    listNodes := list.nodes }

/-- C `kfree` of a node. -/
def kfree (tree : LinkedTree V) (node : Nat) : LinkedTree V :=
  { tree with nodes := Function.update tree.nodes node none }

/-- C `gentree_create`, in a memory with other trees. -/
def gentreeCreate (nodes : Nat → Option (LinkedTreeNode V)) (listNodes : Nat → Option ListNode) :
    LinkedTree V :=
  ⟨none, nodes, listNodes⟩

/-- C `gentree_node_create`, for which `kmalloc` returns `node`. -/
def gentreeNodeCreate (tree : LinkedTree V) (value : V) (node : Nat) : LinkedTree V :=
  let list := listCreate tree.listNodes
  { tree with nodes := Function.update tree.nodes node (some ⟨value, list.length, list.root, list.tail⟩) }

/-- C `gentree_insert`, for which `kmalloc` returns `node` and, for the list, `child`. -/
def gentreeInsert (tree : LinkedTree V) (subroot : Option Nat) (value : V) (node child : Nat) :
    Option (Nat × LinkedTree V) := do
  let created := gentreeNodeCreate tree value node
  match tree.root with
  | none => return (node, { created with root := some node })
  | some _ =>
    let subroot ← subroot
    let g ← created.nodes subroot
    let (_, list) ← listPushFront (created.children g) child (some node)
    return (node, created.setChildren subroot g list)

/-- The loop over children of C `gentree_get_parent_recursive`. -/
def getParentLoop (nodes : Nat → Option ListNode)
    (search : Nat → Option Nat → Option (Option Nat × Option Nat)) :
    Nat → Option Nat → Option Nat → Option (Option Nat × Option Nat)
  | 0, _, _ => none
  | _ + 1, none, index => some (none, index)
  | fuel + 1, some child, index => do
    let n ← nodes child
    match ← search (← n.value) index with
    | (some returnNode, index) => return (some returnNode, index)
    | (none, index) => getParentLoop nodes search fuel n.next index

/-- C `gentree_get_parent_recursive`, for trees of a depth below `fuel`. The index is what the caller's
pointer leads to, if it passes one. -/
def gentreeGetParentRecursive (tree : LinkedTree V) (node : Option Nat) :
    Nat → Nat → Option Nat → Option (Option Nat × Option Nat)
  | 0, _, _ => none
  | fuel + 1, subroot, index => do
    let g ← tree.nodes subroot
    let currentIndex ← listContains (tree.children g) node
    if currentIndex ≠ 2 ^ 64 - 1 then return (some subroot, index.map fun _ => currentIndex)
    getParentLoop tree.listNodes (gentreeGetParentRecursive tree node fuel) nodeCount g.children.root index

/-- C `gentree_get_parent`; no tree is deeper than there are addresses. -/
def gentreeGetParent (tree : LinkedTree V) (node index : Option Nat) :
    Option (Option Nat × Option Nat) := do
  if node = tree.root then return (none, index)
  gentreeGetParentRecursive tree node nodeCount (← tree.root) index

/-- C `gentree_remove`. -/
def gentreeRemove (tree : LinkedTree V) (node : Option Nat) : Option (LinkedTree V) := do
  let (parent, index) ← gentreeGetParent tree node (some (2 ^ 64 - 1))
  match parent with
  | none => return tree
  | some parent =>
    let g ← tree.nodes parent
    let (nodeToFree, list) ← listRemoveIndexed (tree.children g) (← index)
    return (tree.setChildren parent g list).kfree (← nodeToFree)

/-! ## Trees that were built -/

/-- The children of a node in their order. -/
def Children (tree : LinkedTree V) (a : Nat) (l : List Nat) : Prop :=
  ∃ g c, tree.nodes a = some g ∧ (tree.children g).WellFormed c ∧ c.map Prod.snd = l.map some

/-- A node is a child of another. -/
def Child (tree : LinkedTree V) (a b : Nat) : Prop := ∃ l, tree.Children a l ∧ b ∈ l

/-- A node is reached from the root. -/
def InTree (tree : LinkedTree V) (n : Nat) : Prop := ∃ r, tree.root = some r ∧ ReflTransGen tree.Child r n

/-- A tree that was built by calls of `gentree_insert`: the first one creates the root, and the others have
a subroot in the tree. `kmalloc` returns any address that is free. -/
inductive Built : LinkedTree V → Prop where
  | first {nodes listNodes subroot value node child r tree} :
    Address node →
    nodes node = none →
    gentreeInsert (gentreeCreate nodes listNodes) subroot value node child = some (r, tree) →
    Built tree
  | insert {tree subroot value node child r tree'} :
    Built tree →
    tree.InTree subroot →
    Address node →
    tree.nodes node = none →
    Address child →
    tree.listNodes child = none →
    gentreeInsert tree (some subroot) value node child = some (r, tree') →
    Built tree'

/-- The nodes `order` of a tree, with their children and what their lists hold. -/
structure Represents (tree : LinkedTree V) (order : List Nat) (kids : Nat → List Nat)
    (contents : Nat → Contents) : Prop where
  nodup : order.Nodup
  address : ∀ a ∈ order, Address a
  node : ∀ a ∈ order, ∃ g, tree.nodes a = some g ∧ (tree.children g).Holds (contents a)
  apart : ∀ a ∈ order, ∀ b ∈ order, a ≠ b →
    List.Disjoint ((contents a).map Prod.fst) ((contents b).map Prod.fst)
  values : ∀ a ∈ order, (contents a).map Prod.snd = (kids a).map some
  root : ∃ r, tree.root = some r ∧ GrownTree r order kids

section Built
variable {tree tree' : LinkedTree V} {order : List Nat} {kids : Nat → List Nat}
  {contents : Nat → Contents} {value : V} {a b m n p s node child : Nat}

/-- The first `gentree_insert` creates the root. -/
lemma represents_first (nodes : Nat → Option (LinkedTreeNode V)) (listNodes : Nat → Option ListNode)
    (subroot : Option Nat) (value : V) (child : Nat) (address : Address node) :
    ∃ tree, gentreeInsert (gentreeCreate nodes listNodes) subroot value node child = some (node, tree) ∧
      tree.Represents [node] (fun _ => []) (fun _ => []) := by
  refine ⟨_, rfl, by simp, by simpa using address, ?_, ?_, by simp, node, rfl, .single node rfl⟩
  · intro a mem
    obtain rfl := List.mem_singleton.mp mem
    exact ⟨_, Function.update_self .., holds_create _⟩
  · intro a mem b mem' other
    rw [List.mem_singleton] at mem mem'
    exact absurd (mem.trans mem'.symm) other

/-- The address of a new node is none of a node of the tree. -/
lemma Represents.fresh (h : tree.Represents order kids contents) (free : tree.nodes node = none) :
    node ∉ order := by
  intro mem
  obtain ⟨g, stored, -⟩ := h.node node mem
  rw [free] at stored
  cases stored

/-- A free address is none of a list node. -/
lemma Represents.listNode_fresh (h : tree.Represents order kids contents) (mem : a ∈ order)
    (free : tree.listNodes child = none) : child ∉ (contents a).map Prod.fst := by
  obtain ⟨g, -, holds⟩ := h.node a mem
  exact holds.fresh free

/-- `gentree_insert` adds a leaf. -/
lemma Represents.insert (h : tree.Represents order kids contents) (mem : p ∈ order) (value : V)
    (address : Address node) (free : tree.nodes node = none) (childAddress : Address child)
    (childFree : tree.listNodes child = none) :
    ∃ tree', gentreeInsert tree (some p) value node child = some (node, tree') ∧
      tree'.Represents (node :: order) (addFirst kids node p node)
        (addFirst contents node p (child, some node)) := by
  have new := h.fresh free
  have other : ∀ {a}, a ∈ order → a ≠ node := by
    rintro a inside rfl
    exact new inside
  obtain ⟨r, root, grown⟩ := h.root
  obtain ⟨g, stored, holds⟩ := h.node p mem
  obtain ⟨list, pushed, holds'⟩ := holds.pushFront (some node) childAddress childFree
  have frame : ∀ m, m ≠ child → m ∉ (contents p).map Prod.fst → list.nodes m = tree.listNodes m :=
    fun m => holds.pushFront_frame pushed
  have created : (gentreeNodeCreate tree value node).nodes p = some g := by
    simp [gentreeNodeCreate, other mem, stored]
  have inserted : gentreeInsert tree (some p) value node child =
      some (node, (gentreeNodeCreate tree value node).setChildren p g list) := by
    simp only [gentreeInsert, root, Option.bind_eq_bind, Option.bind_some, created]
    show (listPushFront (tree.children g) child (some node)).bind _ = _
    rw [pushed]
    rfl
  refine ⟨_, inserted, List.nodup_cons.mpr ⟨new, h.nodup⟩, ?_, ?_, ?_, ?_, r, root, grown.add new mem⟩
  · intro a inside
    rcases List.mem_cons.mp inside with rfl | inside
    · exact address
    · exact h.address a inside
  · intro a inside
    by_cases e : a = p
    · subst e
      rw [addFirst_self]
      exact ⟨_, Function.update_self .., holds'⟩
    · rcases List.mem_cons.mp inside with rfl | inside
      · rw [addFirst_new e]
        exact ⟨_, (Function.update_of_ne e ..).trans (Function.update_self ..), holds_create _⟩
      · obtain ⟨g', stored', holds''⟩ := h.node a inside
        have same : ∀ x ∈ contents a, list.nodes x.1 = tree.listNodes x.1 := by
          intro x memX
          have memX := List.mem_map_of_mem (f := Prod.fst) memX
          refine frame x.1 ?_ ?_
          · rintro rfl
            exact h.listNode_fresh inside childFree memX
          · exact fun memP => h.apart a inside p mem e memX memP
        rw [addFirst_of_ne e (other inside)]
        refine ⟨g', ?_, holds''.congr rfl rfl rfl same⟩
        exact (Function.update_of_ne e ..).trans ((Function.update_of_ne (other inside) ..).trans stored')
  · -- the node of the list was free, so it is in one list only
    intro a inside b inside' different m keyA keyB
    rw [map_addFirst, mem_addFirst new mem ‹_›] at keyA keyB
    rcases keyA with ⟨rfl, rfl⟩ | ⟨inside, keyA⟩
    · rcases keyB with ⟨rfl, -⟩ | ⟨inside', keyB⟩
      · exact different rfl
      · exact h.listNode_fresh inside' childFree keyB
    · rcases keyB with ⟨rfl, rfl⟩ | ⟨inside', keyB⟩
      · exact h.listNode_fresh inside childFree keyA
      · exact h.apart a inside b inside' different keyA keyB
  · intro a inside
    rw [map_addFirst, map_addFirst]
    by_cases e : a = p
    · subst e
      rw [addFirst_self, addFirst_self, h.values a mem]
    · rcases List.mem_cons.mp inside with rfl | inside
      · rw [addFirst_new e, addFirst_new e]
      · rw [addFirst_of_ne e (other inside), addFirst_of_ne e (other inside), h.values a inside]

/-- It writes to the two new addresses and to what the tree has already. -/
lemma Represents.insert_frame (h : tree.Represents order kids contents) (mem : p ∈ order) {r : Nat}
    (inserted : gentreeInsert tree (some p) value node child = some (r, tree')) (new : tree.nodes node = none)
    (free : tree.nodes m = none) (listFree : tree.listNodes m = none) (other : m ≠ node)
    (otherChild : m ≠ child) :
    tree'.nodes m = none ∧ tree'.listNodes m = none := by
  obtain ⟨s, root, -⟩ := h.root
  simp only [gentreeInsert, root, Option.bind_eq_bind, Option.bind_some, Option.bind_eq_some_iff,
    Option.pure_def, Option.some.injEq, Prod.mk.injEq] at inserted
  obtain ⟨g, created, ⟨c, list⟩, pushed, -, rfl⟩ := inserted
  constructor
  · have notParent : m ≠ p := (ne_of_mem_of_not_mem mem (h.fresh free)).symm
    exact (Function.update_of_ne notParent ..).trans ((Function.update_of_ne other ..).trans free)
  · obtain ⟨g', stored, holds⟩ := h.node p mem
    have notNew : p ≠ node := ne_of_mem_of_not_mem mem (h.fresh new)
    cases stored.symm.trans ((Function.update_of_ne notNew ..).symm.trans created)
    exact (holds.pushFront_frame pushed otherChild (h.listNode_fresh mem listFree)).trans listFree

end Built

/-! ## The search for a parent -/

section Search
variable {tree : LinkedTree V} {order : List Nat} {kids : Nat → List Nat} {contents : Nat → Contents}
  {x : Option Nat} {fuel i p s : Nat}

/-- The loop over children, where what is looked for is below one of them or below none. -/
lemma getParentLoop_eq {nodes : Nat → Option ListNode}
    {search : Nat → Option Nat → Option (Option Nat × Option Nat)} {q index result : Option Nat}
    {l : Contents} {ks : List Nat} (below : Nat → Prop) (linked : Linked Prod.fst nodeOf nodes q l none)
    (enough : l.length < fuel) (values : l.map Prod.snd = ks.map some)
    (found : ∀ c ∈ ks, below c → search c index = some (some p, result))
    (missed : ∀ c ∈ ks, ¬ below c → search c index = some (none, index)) :
    ((∃ c ∈ ks, below c) →
      getParentLoop nodes search fuel (firstOr Prod.fst l none) index = some (some p, result)) ∧
    ((∀ c ∈ ks, ¬ below c) →
      getParentLoop nodes search fuel (firstOr Prod.fst l none) index = some (none, index)) := by
  induction l generalizing q fuel ks with
  | nil =>
    obtain ⟨fuel, rfl⟩ := Nat.exists_eq_succ_of_ne_zero (Nat.ne_of_gt enough)
    obtain rfl : ks = [] := by simpa using values.symm
    exact ⟨by simp, fun _ => rfl⟩
  | cons e l ih =>
    obtain ⟨fuel, rfl⟩ := Nat.exists_eq_succ_of_ne_zero (Nat.ne_of_gt (Nat.zero_lt_of_lt enough))
    rw [List.length_cons] at enough
    cases ks with
    | nil => cases values
    | cons c ks =>
      obtain ⟨value, values⟩ := List.cons.inj values
      simp only [List.mem_cons, forall_eq_or_imp] at found missed
      obtain ⟨ih₁, ih₂⟩ := ih linked.2 (Nat.lt_of_succ_lt_succ enough) values found.2 missed.2
      simp only [firstOr_cons, getParentLoop, linked.1, nodeOf, value, Option.bind_eq_bind,
        Option.bind_some]
      by_cases hc : below c
      · simp [found.1 hc, hc]
      · simp only [missed.1 hc, List.mem_cons, exists_eq_or_imp, forall_eq_or_imp, hc, false_or,
          not_false_eq_true, true_and]
        exact ⟨ih₁, ih₂⟩

/-- A child of `s`, or of what is below `s`. -/
def Above (kids : Nat → List Nat) (x : Option Nat) (s : Nat) : Prop :=
  ∃ q, ReflTransGen (fun a b => b ∈ kids a) s q ∧ x ∈ (kids q).map some

/-- A node is below another if it is a child of it, or below one of its children. -/
lemma above_iff : Above kids x s ↔ x ∈ (kids s).map some ∨ ∃ c ∈ kids s, Above kids x c := by
  constructor
  · rintro ⟨q, path, mem⟩
    rcases path.cases_head with rfl | ⟨c, edge, path⟩
    · exact .inl mem
    · exact .inr ⟨c, edge, q, path, mem⟩
  · rintro (mem | ⟨c, edge, q, path, mem⟩)
    · exact ⟨s, .refl, mem⟩
    · exact ⟨q, path.head edge, mem⟩

/-- Where a child stands in the list of its parent. -/
lemma Represents.cut (h : tree.Represents order kids contents) (inside : p ∈ order)
    (mem : x ∈ (kids p).map some) :
    ∃ u c v, contents p = u ++ (c, x) :: v ∧ x ∉ u.map Prod.snd := by
  obtain ⟨r, -, grown⟩ := h.root
  have nodup : ((contents p).map Prod.snd).Nodup := by
    rw [h.values p inside]
    exact (grown.nodup p inside).map fun _ _ => Option.some.inj
  rw [← h.values p inside] at mem
  obtain ⟨⟨c, y⟩, entry, rfl⟩ := List.mem_map.mp mem
  obtain ⟨u, v, e⟩ := List.append_of_mem entry
  rw [e, List.map_append, List.map_cons, List.nodup_middle, List.nodup_cons, List.mem_append,
    not_or] at nodup
  exact ⟨u, c, v, e, nodup.1.1⟩

/-- The search from a node finds the one place of `x` if it is below that node, and nothing else. The
induction is on the depth that is left: the children of a node stand before it. -/
lemma Represents.getParentRecursive (index : Option Nat) (h : tree.Represents order kids contents)
    (place : ∀ q ∈ order, ∀ u c v, contents q = u ++ (c, x) :: v → x ∉ u.map Prod.snd →
      q = p ∧ u.length = i)
    (inside : s ∈ order) (enough : order.idxOf s < fuel) :
    (Above kids x s →
      gentreeGetParentRecursive tree x fuel s index = some (some p, index.map fun _ => i)) ∧
    (¬ Above kids x s → gentreeGetParentRecursive tree x fuel s index = some (none, index)) := by
  obtain ⟨r, -, grown⟩ := h.root
  induction fuel generalizing s with
  | zero => exact absurd enough (Nat.not_lt_zero _)
  | succ fuel ih =>
    obtain ⟨g, stored, holds⟩ := h.node s inside
    by_cases hx : x ∈ (kids s).map some
    · obtain ⟨u, c, v, e, first⟩ := h.cut inside hx
      rw [e] at holds
      obtain ⟨contains, found⟩ := holds.contains_eq first
      obtain ⟨rfl, rfl⟩ := place s inside u c v e first
      have returned : gentreeGetParentRecursive tree x (fuel + 1) s index =
          some (some s, index.map fun _ => u.length) := by
        simp only [gentreeGetParentRecursive, stored, Option.bind_eq_bind, Option.bind_some, contains]
        rw [if_pos found]
        rfl
      exact ⟨fun _ => returned, fun missing => absurd (above_iff.mpr (.inl hx)) missing⟩
    · have missing : x ∉ (contents s).map Prod.snd := by rwa [h.values s inside]
      have bound := length_lt holds.nodup holds.address
      have below : ∀ c ∈ kids s, c ∈ order ∧ order.idxOf c < fuel := by
        intro c kid
        obtain ⟨inside', before⟩ := grown.kid s inside c kid
        exact ⟨inside', by omega⟩
      have loop := getParentLoop_eq (Above kids x) holds.linked bound (h.values s inside)
        (fun c kid => (ih (below c kid).1 (below c kid).2).1)
        (fun c kid => (ih (below c kid).1 (below c kid).2).2)
      rw [← holds.root] at loop
      have unfolded : gentreeGetParentRecursive tree x (fuel + 1) s index =
          getParentLoop tree.listNodes (gentreeGetParentRecursive tree x fuel) nodeCount
            g.children.root index := by
        simp only [gentreeGetParentRecursive, stored, Option.bind_eq_bind, Option.bind_some,
          holds.contains_none missing]
        rw [if_neg (by simp)]
      rw [unfolded, above_iff]
      refine ⟨fun above => loop.1 (above.resolve_left hx), fun outside => loop.2 ?_⟩
      intro c kid above
      exact outside (.inr ⟨c, kid, above⟩)

/-- The fuel is enough for the depth of the tree. -/
lemma Represents.depth (h : tree.Represents order kids contents) (inside : s ∈ order) :
    order.idxOf s < nodeCount := by
  have bound : order.length < 2 ^ 64 := by
    have := length_lt (l := order.map fun a => (a, none)) (by simpa [Function.comp_def] using h.nodup)
      (by simpa using h.address)
    simpa using this
  exact (List.idxOf_lt_length_of_mem inside).trans bound

end Search

/-! ## Parents and removal -/

/-- The child `n` of `p` between `a` and `b` left the tree with what is below it, and every other list of
children is as it was. -/
structure Detached (tree tree' : LinkedTree V) (p n : Nat) (a b : List Nat) : Prop where
  root : tree'.root = tree.root
  freed : tree'.nodes n = none
  parent : tree'.Children p (a ++ b)
  nodes : ∀ q, q ≠ p → q ≠ n → tree'.nodes q = tree.nodes q
  lists : ∀ q g c, tree.InTree q → q ≠ p → tree.nodes q = some g → (tree.children g).WellFormed c →
    (tree'.children g).WellFormed c
  left : ∀ m, tree'.InTree m ↔ tree.InTree m ∧ ¬ ReflTransGen tree.Child n m

section Parents
variable {tree tree' : LinkedTree V} {order : List Nat} {kids : Nat → List Nat}
  {contents : Nat → Contents} {x index : Option Nat} {a b k n p : Nat} {l u v : List Nat}

/-- A node has one list of children. -/
lemma children_iff {g : LinkedTreeNode V} {c : Contents} (stored : tree.nodes a = some g)
    (holds : (tree.children g).Holds c) (values : c.map Prod.snd = u.map some) :
    tree.Children a l ↔ l = u := by
  constructor
  · rintro ⟨g', c', stored', formed, values'⟩
    obtain rfl : g = g' := Option.some.inj (stored.symm.trans stored')
    obtain rfl := holds.wellFormed.unique formed
    exact List.map_injective_iff.mpr (Option.some_injective _) (values'.symm.trans values)
  · rintro rfl
    exact ⟨g, c, stored, holds.wellFormed, values⟩

/-- The children are those that the tree represents. -/
lemma Represents.children_eq (h : tree.Represents order kids contents) (inside : a ∈ order) :
    tree.Children a l ↔ l = kids a := by
  obtain ⟨g, stored, holds⟩ := h.node a inside
  exact children_iff stored holds (h.values a inside)

/-- So is each of them. -/
lemma Represents.child_iff (h : tree.Represents order kids contents) (inside : a ∈ order) :
    tree.Child a b ↔ b ∈ kids a := by
  simp [Child, h.children_eq inside]

/-- What is below a node of the tree. -/
lemma Represents.reach_iff (h : tree.Represents order kids contents) (inside : a ∈ order) :
    ReflTransGen tree.Child a b ↔ ReflTransGen (fun a b => b ∈ kids a) a b := by
  obtain ⟨r, -, grown⟩ := h.root
  refine reflTransGen_congr (S := (· ∈ order)) inside ?_ fun a inside b => h.child_iff inside
  intro a b inside kid
  exact (grown.kid a inside b kid).1

/-- The nodes are those that the tree represents. -/
lemma Represents.inTree_iff (h : tree.Represents order kids contents) : tree.InTree n ↔ n ∈ order := by
  obtain ⟨r, root, grown⟩ := h.root
  constructor
  · rintro ⟨r', root', path⟩
    obtain rfl : r = r' := Option.some.inj (root.symm.trans root')
    exact grown.mem_of_reach grown.mem_root ((h.reach_iff grown.mem_root).mp path)
  · intro inside
    exact ⟨r, root, (h.reach_iff grown.mem_root).mpr (grown.reach_root inside)⟩

/-- Every tree that was built represents one that grew by its leaves. -/
lemma Built.represents (built : tree.Built) : ∃ order kids contents, tree.Represents order kids contents := by
  induction built with
  | @first nodes listNodes subroot value node child r tree address free inserted =>
    obtain ⟨tree', inserted', h⟩ := represents_first nodes listNodes subroot value child address
    cases inserted.symm.trans inserted'
    exact ⟨_, _, _, h⟩
  | @insert tree subroot value node child r tree' _ member address free address' free' inserted ih =>
    obtain ⟨order, kids, contents, h⟩ := ih
    obtain ⟨tree'', inserted', h'⟩ := h.insert (h.inTree_iff.mp member) value address free address' free'
    cases inserted.symm.trans inserted'
    exact ⟨_, _, _, h'⟩

/-- `gentree_get_parent` of the root, and of what is no node of the tree. -/
lemma Represents.getParent_none (h : tree.Represents order kids contents)
    (outside : x = tree.root ∨ ∀ n, x = some n → n ∉ order) :
    gentreeGetParent tree x index = some (none, index) := by
  obtain ⟨r, root, grown⟩ := h.root
  by_cases e : x = tree.root
  · simp [gentreeGetParent, e]
  · have outside := outside.resolve_left e
    have nowhere : ∀ q ∈ order, x ∉ (kids q).map some := by
      intro q inside mem
      obtain ⟨n, kid, rfl⟩ := List.mem_map.mp mem
      exact outside n rfl (grown.kid q inside n kid).1
    have place : ∀ q ∈ order, ∀ u c v, contents q = u ++ (c, x) :: v → x ∉ u.map Prod.snd →
        q = 0 ∧ u.length = 0 := by
      intro q inside u c v cut _
      have mem : x ∈ (contents q).map Prod.snd := by simp [cut]
      rw [h.values q inside] at mem
      exact absurd mem (nowhere q inside)
    have search := (h.getParentRecursive index place grown.mem_root
      (h.depth grown.mem_root)).2
    rw [gentreeGetParent, if_neg e, root]
    refine search ?_
    rintro ⟨q, path, mem⟩
    exact nowhere q (grown.mem_of_reach grown.mem_root path) mem

/-- `gentree_get_parent` of a child. -/
lemma Represents.getParent_eq {e w : Contents} {c : Nat} (h : tree.Represents order kids contents)
    (inside : p ∈ order) (kid : n ∈ kids p) (cut : contents p = e ++ (c, some n) :: w)
    (first : some n ∉ e.map Prod.snd) :
    gentreeGetParent tree (some n) index = some (some p, index.map fun _ => e.length) := by
  obtain ⟨r, root, grown⟩ := h.root
  have other : some n ≠ tree.root := by
    rw [root]
    rintro ⟨⟩
    exact grown.orphan p inside kid
  have index_eq : ∀ {u c v}, contents p = u ++ (c, some n) :: v → some n ∉ u.map Prod.snd →
      u.length = ((contents p).map Prod.snd).idxOf (some n) := by
    intro u c v cut first
    rw [cut, List.map_append, List.idxOf_append_of_notMem first]
    simp
  have place : ∀ q ∈ order, ∀ u c v, contents q = u ++ (c, some n) :: v → some n ∉ u.map Prod.snd →
      q = p ∧ u.length = e.length := by
    intro q inside' u c' v cut' first'
    have kid' : some n ∈ (contents q).map Prod.snd := by simp [cut']
    rw [h.values q inside', List.mem_map_of_injective (Option.some_injective _)] at kid'
    obtain rfl := grown.parent p inside q inside' n kid kid'
    exact ⟨rfl, (index_eq cut' first').trans (index_eq cut first).symm⟩
  have search := (h.getParentRecursive index place grown.mem_root
    (h.depth grown.mem_root)).1
  rw [gentreeGetParent, if_neg other, root]
  exact search ⟨p, grown.reach_root inside, List.mem_map_of_mem kid⟩

/-- The children around a child, as its list has them. -/
lemma Represents.cut_kids {e w : Contents} {c : Nat} (h : tree.Represents order kids contents)
    (inside : p ∈ order) (cut : contents p = e ++ (c, some n) :: w) :
    ∃ u v, kids p = u ++ n :: v ∧ e.map Prod.snd = u.map some ∧ w.map Prod.snd = v.map some := by
  have values := h.values p inside
  rw [cut, List.map_append, List.map_cons] at values
  obtain ⟨u, rest, split, before, behind⟩ := List.map_eq_append_iff.mp values.symm
  obtain ⟨m, v, rfl, same, tail⟩ := List.map_eq_cons_iff.mp behind
  cases same
  exact ⟨u, v, split, before.symm, tail.symm⟩

/-- `gentree_remove` of a child takes its node out of the list of its parent, and frees it. -/
lemma Represents.remove_eq {e w : Contents} {c : Nat} (h : tree.Represents order kids contents)
    (inside : p ∈ order) (kid : n ∈ kids p) (cut : contents p = e ++ (c, some n) :: w)
    (first : some n ∉ e.map Prod.snd) :
    ∃ g list, gentreeRemove tree (some n) = some ((tree.setChildren p g list).kfree n) ∧
      list.Holds (e ++ w) ∧ ∀ m ∉ (contents p).map Prod.fst, list.nodes m = tree.listNodes m := by
  obtain ⟨g, stored, holds⟩ := h.node p inside
  rw [cut] at holds ⊢
  obtain ⟨list, removed, holds'⟩ := holds.removeIndexed
  refine ⟨g, list, ?_, holds', fun m => holds.removeIndexed_frame removed⟩
  rw [gentreeRemove, h.getParent_eq inside kid cut first]
  simp only [Option.bind_eq_bind, Option.bind_some, Option.map_some, stored, removed]
  rfl

/-- What is left in memory of the list of another node. -/
lemma Represents.holds_of_frame {list : LinkedList} {g : LinkedTreeNode V}
    (h : tree.Represents order kids contents) (inside : a ∈ order) (inside' : p ∈ order) (other : a ≠ p)
    (frame : ∀ m ∉ (contents p).map Prod.fst, list.nodes m = tree.listNodes m)
    (holds : (tree.children g).Holds (contents a)) (memory : tree'.listNodes = list.nodes) :
    (tree'.children g).Holds (contents a) := by
  refine holds.congr rfl rfl rfl fun x mem => ?_
  show tree'.listNodes x.1 = tree.listNodes x.1
  rw [memory]
  exact frame _ (h.apart a inside p inside' other (List.mem_map_of_mem mem))

section Detach
variable {e w : Contents} {c : Nat} {g : LinkedTreeNode V} {list : LinkedList}
  (h : tree.Represents order kids contents) (inside : p ∈ order) (split : kids p = u ++ n :: v)
  (holds : list.Holds (e ++ w)) (values : (e ++ w).map Prod.snd = (u ++ v).map some)
  (frame : ∀ m ∉ (contents p).map Prod.fst, list.nodes m = tree.listNodes m)

include h inside split in
/-- The child that is cut out of its list. -/
lemma Represents.kid_of_split : n ∈ kids p ∧ n ∈ order ∧ p ≠ n ∧ eraseKid kids n p p = u ++ v := by
  obtain ⟨r, -, grown⟩ := h.root
  have kid : n ∈ kids p := by simp [split]
  obtain ⟨memN, before⟩ := grown.kid p inside n kid
  have nodup := grown.nodup p inside
  rw [split, List.nodup_middle, List.nodup_cons, List.mem_append, not_or] at nodup
  refine ⟨kid, memN, ?_, ?_⟩
  · rintro rfl
    exact Nat.lt_irrefl _ before
  · rw [eraseKid, Function.update_self, split, List.erase_append_right _ nodup.1.1, List.erase_cons_head]

/-- Detaching a child leaves all nodes but two. -/
lemma nodes_detach (hp : a ≠ p) (hn : a ≠ n) :
    ((tree.setChildren p g list).kfree n).nodes a = tree.nodes a :=
  (Function.update_of_ne hn ..).trans (Function.update_of_ne hp ..)

include h inside split holds values frame

/-- The children of a node that is still there. -/
lemma Represents.children_detach (mem : a ∈ order) (hn : a ≠ n) :
    ((tree.setChildren p g list).kfree n).Children a l ↔ l = eraseKid kids n p a := by
  by_cases hp : a = p
  · subst hp
    have stored : ((tree.setChildren a g list).kfree n).nodes a =
        some { g with children := ⟨list.length, list.root, list.tail⟩ } :=
      (Function.update_of_ne hn ..).trans (Function.update_self ..)
    rw [(h.kid_of_split inside split).2.2.2]
    exact children_iff stored holds values
  · obtain ⟨g', stored, holds'⟩ := h.node a mem
    rw [eraseKid, Function.update_of_ne hp]
    exact children_iff ((nodes_detach hp hn).trans stored)
      (h.holds_of_frame mem inside hp frame holds' rfl) (h.values a mem)

/-- The nodes that are still in the tree. -/
lemma Represents.inTree_detach : ((tree.setChildren p g list).kfree n).InTree b ↔
    tree.InTree b ∧ ¬ ReflTransGen tree.Child n b := by
  obtain ⟨r, root, grown⟩ := h.root
  obtain ⟨kid, memN, -, -⟩ := h.kid_of_split inside split
  have reach : ReflTransGen ((tree.setChildren p g list).kfree n).Child r b ↔
      ReflTransGen (fun a b => b ∈ eraseKid kids n p a) r b := by
    refine reflTransGen_congr (S := fun a => a ∈ order ∧ a ≠ n) ⟨grown.mem_root, ?_⟩ ?_ ?_
    · rintro rfl
      exact grown.orphan p inside kid
    · rintro a b ⟨memA, -⟩ edge
      obtain ⟨kidA, kept⟩ := (grown.mem_eraseKid memA).mp edge
      refine ⟨(grown.kid a memA b kidA).1, ?_⟩
      rintro rfl
      exact kept ⟨grown.parent a memA p inside b kidA kid, rfl⟩
    · rintro a ⟨memA, hn⟩ b
      simp [Child, h.children_detach inside split holds values frame memA hn]
  have here : ((tree.setChildren p g list).kfree n).InTree b ↔
      ReflTransGen ((tree.setChildren p g list).kfree n).Child r b := by
    constructor
    · rintro ⟨r', root', path⟩
      obtain rfl : r = r' := Option.some.inj (root.symm.trans root')
      exact path
    · exact fun path => ⟨r, root, path⟩
  have before : ReflTransGen (fun a b => b ∈ kids a) r b ↔ b ∈ order :=
    ⟨grown.mem_of_reach grown.mem_root, grown.reach_root⟩
  rw [here, reach, grown.reach_erase inside kid, before, h.inTree_iff, h.reach_iff memN]

/-- The tree without the child. -/
lemma Represents.detached : tree.Detached ((tree.setChildren p g list).kfree n) p n u v := by
  obtain ⟨kid, memN, other, erased⟩ := h.kid_of_split inside split
  refine ⟨rfl, Function.update_self .., ?_, fun q => nodes_detach, ?_, ?_⟩
  · exact (h.children_detach inside split holds values frame inside other).mpr erased.symm
  · intro q g' c' inTree hp stored formed
    have memQ := h.inTree_iff.mp inTree
    obtain ⟨g'', stored', holds'⟩ := h.node q memQ
    obtain rfl : g' = g'' := Option.some.inj (stored.symm.trans stored')
    obtain rfl := formed.unique holds'.wellFormed
    exact (h.holds_of_frame memQ inside hp frame holds' rfl).wellFormed
  · intro m
    exact h.inTree_detach inside split holds values frame

end Detach

/-- In every tree that was built by `gentree_insert`, for every pointer: `gentree_get_parent` returns `NULL`
for the root and for what is not in the tree, and `gentree_remove` does nothing; for any other node of the
tree `gentree_get_parent` returns the one node that has it as a child and its index among the children,
and `gentree_remove` detaches it. -/
theorem gentreeGetParent_gentreeRemove (built : tree.Built) :
    (∀ x index, (x = tree.root ∨ ∀ n, x = some n → ¬ tree.InTree n) →
      gentreeGetParent tree x index = some (none, index) ∧ gentreeRemove tree x = some tree) ∧
    ∀ n, tree.InTree n → tree.root ≠ some n →
      ∃ p a b, tree.InTree p ∧ tree.Children p (a ++ n :: b) ∧
        (∀ q, tree.InTree q → tree.Child q n → q = p) ∧
        (∀ index, gentreeGetParent tree (some n) index = some (some p, index.map fun _ => a.length)) ∧
        ∃ tree', gentreeRemove tree (some n) = some tree' ∧ tree.Detached tree' p n a b := by
  obtain ⟨order, kids, contents, h⟩ := built.represents
  obtain ⟨r, root, grown⟩ := h.root
  constructor
  · intro x index outside
    simp only [h.inTree_iff] at outside
    refine ⟨h.getParent_none outside, ?_⟩
    rw [gentreeRemove, h.getParent_none outside]
    rfl
  · intro n inTree notRoot
    obtain e | ⟨p, inside, kid⟩ := grown.linked n (h.inTree_iff.mp inTree)
    · exact absurd (e ▸ root) notRoot
    · obtain ⟨e, c, w, cut, first⟩ := h.cut inside (List.mem_map_of_mem kid)
      obtain ⟨a, b, split, before, behind⟩ := h.cut_kids inside cut
      obtain ⟨g, list, removed, holds, frame⟩ := h.remove_eq inside kid cut first
      have values : (e ++ w).map Prod.snd = (a ++ b).map some := by
        rw [List.map_append, List.map_append, before, behind]
      have count : e.length = a.length := by simpa using congrArg List.length before
      refine ⟨p, a, b, h.inTree_iff.mpr inside, (h.children_eq inside).mpr split.symm, ?_, ?_, _, removed,
        h.detached inside split holds values frame⟩
      · intro q inTree' child
        have inside' := h.inTree_iff.mp inTree'
        exact grown.parent q inside' p inside n ((h.child_iff inside').mp child) kid
      · intro index
        rw [h.getParent_eq inside kid cut first, count]

/-- Nothing is stored from an address on. -/
def FreeFrom (tree : LinkedTree V) (k : Nat) : Prop :=
  ∀ m, k ≤ m → tree.nodes m = none ∧ tree.listNodes m = none

/-- A new leaf at the first two free addresses. -/
lemma Built.grow {contents : Nat → Contents} (built : tree.Built) (h : tree.Represents order kids contents)
    (free : tree.FreeFrom k) (mem : p ∈ order) (value : V) (address : Address k)
    (address' : Address (k + 16)) :
    ∃ tree' : LinkedTree V, tree'.Built ∧ tree'.Represents (k :: order) (addFirst kids k p k)
      (addFirst contents k p (k + 16, some k)) ∧ tree'.FreeFrom (k + 32) := by
  have here := (free k (by omega)).1
  have here' := (free (k + 16) (by omega)).2
  obtain ⟨tree', inserted, h'⟩ := h.insert mem value address here address' here'
  refine ⟨tree', built.insert (h.inTree_iff.mpr mem) address here address' here' inserted, h', ?_⟩
  intro m later
  obtain ⟨node, listNode⟩ := free m (by omega)
  exact h.insert_frame mem inserted here node listNode (by omega) (by omega)

/-- The root has three children, and the one in the middle, which has a child of its own, is removed. -/
theorem gentreeGetParent_gentreeRemove_middle : ∃ tree : LinkedTree Nat, tree.Built ∧ tree.InTree 64 ∧
    tree.root ≠ some 64 ∧ tree.Child 64 128 ∧
    gentreeGetParent tree (some 64) (some 7) = some (some 16, some 1) ∧
    ∃ tree', gentreeRemove tree (some 64) = some tree' ∧ tree.Detached tree' 16 64 [96] [32] := by
  have address : ∀ n ∈ [16, 32, 48, 64, 80, 96, 112, 128, 144], Address n := by simp [Address]
  obtain ⟨single, first, h⟩ := represents_first (V := Nat) (fun _ => none) (fun _ => none) none 0 0
    (address 16 (by simp))
  have free : single.FreeFrom 32 := by
    cases first
    intro m later
    exact ⟨Function.update_of_ne (by omega) .., rfl⟩
  have built : single.Built := .first (address 16 (by simp)) rfl first
  obtain ⟨tree, built, h, free⟩ := built.grow h free (p := 16) (by simp) 1 (address 32 (by simp))
    (address 48 (by simp))
  obtain ⟨tree, built, h, free⟩ := built.grow h free (p := 16) (by simp) 2 (address 64 (by simp))
    (address 80 (by simp))
  obtain ⟨tree, built, h, free⟩ := built.grow h free (p := 16) (by simp) 3 (address 96 (by simp))
    (address 112 (by simp))
  obtain ⟨tree, built, h, -⟩ := built.grow h free (p := 64) (by simp) 4 (address 128 (by simp))
    (address 144 (by simp))
  have inTree : tree.InTree 64 := h.inTree_iff.mpr (by simp)
  have below : tree.Child 64 128 := (h.child_iff (by simp)).mpr (by simp [addFirst])
  have child : tree.Child 16 64 := (h.child_iff (by simp)).mpr (by simp [addFirst])
  have notRoot : tree.root ≠ some 64 := by
    obtain ⟨r, root, grown⟩ := h.root
    rw [root]
    rintro ⟨⟩
    exact grown.orphan 16 (by simp) (by simp [addFirst])
  obtain ⟨p, a, b, inside, children, unique, parent, removed⟩ :=
    (gentreeGetParent_gentreeRemove built).2 64 inTree notRoot
  obtain rfl : 16 = p := unique 16 (h.inTree_iff.mpr (by simp)) child
  have siblings : a ++ 64 :: b = [96, 64, 32] := (h.children_eq (by simp)).mp children
  obtain ⟨rfl, rfl⟩ : a = [96] ∧ b = [32] := by
    clear parent removed
    rcases a with _ | ⟨x, _ | ⟨y, _ | ⟨z, a⟩⟩⟩ <;> simp_all
  exact ⟨tree, built, inTree, notRoot, below, parent (some 7), removed⟩

end Parents

end LinkedTree

end WivOS.Utils
