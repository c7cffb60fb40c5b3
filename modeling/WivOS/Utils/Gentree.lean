import Mathlib.Logic.Function.Basic
import Mathlib.Logic.Relation
import Mathlib.Tactic

/-!
# Generic trees

The `gentree` of `utils/lists.c`: nodes that are reached by pointer, with a list of children each. A
node is named by the number of its allocation. A tree that grows by `gentree_insert` alone (`Grown`) has
one parent for each node but the root, and `gentree_get_parent` finds it by its search from the root.
-/

namespace WivOS.Utils

/-- `gentree_node_t`. -/
structure GentreeNode (V : Type) where
  value : V
  children : List Nat
deriving Repr

/-- `gentree_t`, with the nodes that were created. -/
structure Gentree (V : Type) where
  root : Option Nat
  nodes : Nat → Option (GentreeNode V)
  next : Nat

variable {V : Type}

/-- C `gentree_create`. -/
def gentreeCreate : Gentree V := ⟨none, fun _ => none, 0⟩

/-- C `gentree_node_create`. -/
def gentreeNodeCreate (tree : Gentree V) (value : V) : Nat × Gentree V :=
  (tree.next, { tree with
    nodes := Function.update tree.nodes tree.next (some ⟨value, []⟩)
    next := tree.next + 1 })

/-- C `gentree_insert`. -/
def gentreeInsert (tree : Gentree V) (subroot : Option Nat) (value : V) : Option (Nat × Gentree V) :=
  let (node, created) := gentreeNodeCreate tree value
  match tree.root with
  | none => some (node, { created with root := some node })
  | some _ => do
    let subroot ← subroot
    let parent ← tree.nodes subroot
    -- C `list_push_front`
    let parent := { parent with children := node :: parent.children }
    return (node, { created with nodes := Function.update created.nodes subroot (some parent) })

/-- Changes the value of a node. -/
def Gentree.modifyValue (tree : Gentree V) (n : Nat) (f : V → V) : Option (Gentree V) := do
  let node ← tree.nodes n
  return { tree with nodes := Function.update tree.nodes n (some { node with value := f node.value }) }

/-- The loop over children of `gentree_get_parent_recursive`. -/
def firstParent (search : Nat → Option (Option Nat)) : List Nat → Option (Option Nat)
  | [] => some none
  | child :: children => do
    match ← search child with
    | some parent => return some parent
    | none => firstParent search children

/-- C `gentree_get_parent_recursive`, for trees of a depth of `fuel` at most. -/
def gentreeGetParentRecursive (tree : Gentree V) (node : Nat) : Nat → Nat → Option (Option Nat)
  | 0, _ => none
  | fuel + 1, subroot => do
    let parent ← tree.nodes subroot
    if node ∈ parent.children then return some subroot
    firstParent (gentreeGetParentRecursive tree node fuel) parent.children

/-- C `gentree_get_parent`; no tree is deeper than it has nodes. -/
def gentreeGetParent (tree : Gentree V) (node : Nat) : Option (Option Nat) := do
  let root ← tree.root
  if node = root then return none
  gentreeGetParentRecursive tree node tree.next root

namespace Gentree

/-- A node is a child of another. -/
def Child (tree : Gentree V) (n m : Nat) : Prop := ∃ g, tree.nodes n = some g ∧ m ∈ g.children

/-- The nodes and their children of a tree that grew by insertion. -/
structure Grown (tree : Gentree V) : Prop where
  bound : ∀ {n g}, tree.nodes n = some g → n < tree.next
  child : ∀ {n m}, tree.Child n m → n < m ∧ ∃ g, tree.nodes m = some g
  parent : ∀ {n n' m}, tree.Child n m → tree.Child n' m → n' = n
  linked : ∀ {n g}, tree.nodes n = some g → tree.root = some n ∨ ∃ p, tree.Child p n
  root : ∀ {r}, tree.root = some r → (∃ g, tree.nodes r = some g) ∧ ∀ n, ¬ tree.Child n r
  empty : tree.root = none → tree.next = 0

section Grown
variable {tree tree' : Gentree V} {n m : Nat} {g : GentreeNode V} {value : V}

/-- An empty tree has grown. -/
lemma grown_create : (gentreeCreate : Gentree V).Grown := by
  constructor <;> simp [gentreeCreate, Child]

/-- The first node of a tree. -/
lemma insert_root (h : tree.Grown) (hr : tree.root = none) (subroot : Option Nat) (value : V) :
    gentreeInsert tree subroot value = some (0,
      { root := some 0, nodes := Function.update tree.nodes 0 (some ⟨value, []⟩), next := 1 }) := by
  simp [gentreeInsert, gentreeNodeCreate, hr, h.empty hr]

/-- The nodes once a child was inserted. -/
def insertChild (tree : Gentree V) (n : Nat) (g : GentreeNode V) (value : V) : Gentree V where
  root := tree.root
  nodes := Function.update (Function.update tree.nodes tree.next (some ⟨value, []⟩)) n
    (some { g with children := tree.next :: g.children })
  next := tree.next + 1

/-- `gentree_insert` below a node. -/
lemma insert_child {r : Nat} (hr : tree.root = some r) (hn : tree.nodes n = some g) :
    gentreeInsert tree (some n) value = some (tree.next, tree.insertChild n g value) := by
  simp [gentreeInsert, gentreeNodeCreate, hr, hn, insertChild]

/-- The nodes once a child is inserted. -/
lemma insertChild_nodes (m : Nat) :
    (tree.insertChild n g value).nodes m =
      if m = n then some { g with children := tree.next :: g.children }
      else if m = tree.next then some ⟨value, []⟩ else tree.nodes m := by
  simp only [insertChild, Function.update_apply]

/-- A node more, which is a child of `n`. -/
lemma insertChild_child (h : tree.Grown) (hn : tree.nodes n = some g) (value : V) (m m' : Nat) :
    (tree.insertChild n g value).Child m m' ↔ tree.Child m m' ∨ (m = n ∧ m' = tree.next) := by
  have lt := h.bound hn
  unfold Child
  simp only [insertChild_nodes]
  by_cases hm : m = n
  · subst hm
    simp [hn, or_comm]
  · by_cases hm' : m = tree.next
    · subst hm'
      have : tree.nodes tree.next = none := by
        cases e : tree.nodes tree.next with
        | none => rfl
        | some g => exact absurd (h.bound e) (Nat.lt_irrefl _)
      simp [hm, this]
    · simp [hm, hm']

/-- A new node has no children yet. -/
lemma Grown.not_child_next (h : tree.Grown) (m : Nat) : ¬ tree.Child m tree.next := by
  intro hc
  obtain ⟨_, g, hg⟩ := h.child hc
  exact Nat.lt_irrefl _ (h.bound hg)

/-- The first node becomes the root. -/
lemma Grown.insertRoot (h : tree.Grown) (hr : tree.root = none) (value : V) :
    Grown { root := some 0, nodes := Function.update tree.nodes 0 (some ⟨value, []⟩), next := 1 } := by
  have none : ∀ m, tree.nodes m = none := by
    intro m
    cases e : tree.nodes m with
    | none => rfl
    | some g =>
      have := h.bound e
      rw [h.empty hr] at this
      exact absurd this (Nat.not_lt_zero _)
  have only : ∀ {m g}, Function.update tree.nodes 0 (some ⟨value, []⟩) m = some g →
      m = 0 ∧ g = ⟨value, []⟩ := by
    intro m g hm
    rw [Function.update_apply] at hm
    split at hm
    · rename_i e
      cases hm
      exact ⟨e, rfl⟩
    · rw [none m] at hm
      cases hm
  have childless : ∀ {m m'}, ¬ Child (V := V)
      { root := some 0, nodes := Function.update tree.nodes 0 (some ⟨value, []⟩), next := 1 } m m' := by
    rintro m m' ⟨g, hg, hm'⟩
    rw [(only hg).2] at hm'
    cases hm'
  refine ⟨?_, ?_, ?_, ?_, ?_, ?_⟩
  · intro m g hm
    rw [(only hm).1]
    exact Nat.zero_lt_one
  · intro m m' hc
    exact absurd hc childless
  · intro m _ _ hc
    exact absurd hc childless
  · intro m g hm
    exact .inl (by rw [(only hm).1])
  · intro r hr
    simp only [Option.some.injEq] at hr
    subst hr
    exact ⟨⟨⟨value, []⟩, by simp⟩, fun _ => childless⟩
  · intro hr
    cases hr

/-- A child more keeps a tree grown. -/
lemma Grown.insertChild (h : tree.Grown) (hn : tree.nodes n = some g) :
    (tree.insertChild n g value).Grown := by
  have lt := h.bound hn
  have child := insertChild_child h hn value
  have kept : ∀ {m g'}, tree.nodes m = some g' →
      ∃ g'', (tree.insertChild n g value).nodes m = some g'' := by
    intro m g' hm
    rw [insertChild_nodes]
    split
    · exact ⟨_, rfl⟩
    · split
      · exact ⟨_, rfl⟩
      · exact ⟨_, hm⟩
  refine ⟨?_, ?_, ?_, ?_, ?_, ?_⟩
  · intro m g' hm
    show m < tree.next + 1
    rw [insertChild_nodes] at hm
    split at hm
    · omega
    · split at hm
      · omega
      · have := h.bound hm
        omega
  · intro m m' hc
    obtain hc | ⟨rfl, rfl⟩ := (child m m').mp hc
    · obtain ⟨hlt, g', hg'⟩ := h.child hc
      exact ⟨hlt, kept hg'⟩
    · refine ⟨lt, ⟨value, []⟩, ?_⟩
      rw [insertChild_nodes, if_neg (by omega), if_pos rfl]
  · intro m₁ m₂ m hc₁ hc₂
    obtain old₁ | ⟨rfl, e₁⟩ := (child m₁ m).mp hc₁
    · obtain old₂ | ⟨_, e₂⟩ := (child m₂ m).mp hc₂
      · exact h.parent old₁ old₂
      · exact absurd (e₂ ▸ old₁) (h.not_child_next m₁)
    · obtain old₂ | ⟨rfl, _⟩ := (child m₂ m).mp hc₂
      · exact absurd (e₁ ▸ old₂) (h.not_child_next m₂)
      · rfl
  · intro m g' hm
    by_cases fresh : m = tree.next
    · exact .inr ⟨n, (child n m).mpr (.inr ⟨rfl, fresh⟩)⟩
    · have before : ∃ g', tree.nodes m = some g' := by
        rw [insertChild_nodes, if_neg fresh] at hm
        split at hm
        · rename_i e
          exact ⟨g, e ▸ hn⟩
        · exact ⟨g', hm⟩
      obtain ⟨_, before⟩ := before
      obtain hr | ⟨p, hp⟩ := h.linked before
      · exact .inl hr
      · exact .inr ⟨p, (child p m).mpr (.inl hp)⟩
  · intro r hr
    obtain ⟨⟨g', hg'⟩, hc⟩ := h.root hr
    refine ⟨kept hg', fun m hm => ?_⟩
    obtain hm | ⟨_, rfl⟩ := (child m r).mp hm
    · exact hc m hm
    · exact Nat.lt_irrefl _ (h.bound hg')
  · intro hr
    have hr' : tree.root = none := hr
    have := h.empty hr'
    omega

/-- Values do not matter. -/
lemma Grown.congr (h : tree.Grown) (root : tree'.root = tree.root) (next : tree'.next = tree.next)
    (nodes : ∀ m, (tree'.nodes m).map GentreeNode.children = (tree.nodes m).map GentreeNode.children) :
    tree'.Grown := by
  have exists_iff : ∀ m, (∃ g, tree'.nodes m = some g) ↔ ∃ g, tree.nodes m = some g := by
    intro m
    have := nodes m
    cases e : tree.nodes m <;> cases e' : tree'.nodes m <;> simp [e, e'] at this ⊢
  have child : ∀ m m', tree'.Child m m' ↔ tree.Child m m' := by
    intro m m'
    have := nodes m
    unfold Child
    cases e : tree.nodes m <;> cases e' : tree'.nodes m <;> simp [e, e'] at this ⊢
    rw [this]
  refine ⟨?_, ?_, ?_, ?_, ?_, ?_⟩
  · intro m g hm
    obtain ⟨g', hm'⟩ := (exists_iff m).mp ⟨g, hm⟩
    rw [next]
    exact h.bound hm'
  · intro m m' hc
    obtain ⟨hlt, hg⟩ := h.child ((child m m').mp hc)
    exact ⟨hlt, (exists_iff m').mpr hg⟩
  · intro m₁ m₂ m hc₁ hc₂
    exact h.parent ((child m₁ m).mp hc₁) ((child m₂ m).mp hc₂)
  · intro m g hm
    obtain ⟨g', hm'⟩ := (exists_iff m).mp ⟨g, hm⟩
    obtain hr | ⟨p, hp⟩ := h.linked hm'
    · exact .inl (root.trans hr)
    · exact .inr ⟨p, (child p m).mpr hp⟩
  · intro r hr
    obtain ⟨hg, hc⟩ := h.root (root.symm.trans hr)
    exact ⟨(exists_iff r).mpr hg, fun m hm => hc m ((child m r).mp hm)⟩
  · intro hr
    rw [next]
    exact h.empty (root.symm.trans hr)

/-- The search among children, where the parent is below one of them at most. -/
lemma firstParent_eq {search : Nat → Option (Option Nat)} {p : Nat} (below : Nat → Prop)
    {children : List Nat} (found : ∀ c ∈ children, below c → search c = some (some p))
    (missed : ∀ c ∈ children, ¬ below c → search c = some none) :
    ((∃ c ∈ children, below c) → firstParent search children = some (some p)) ∧
    ((∀ c ∈ children, ¬ below c) → firstParent search children = some none) := by
  induction children with
  | nil => simp [firstParent]
  | cons c children ih =>
    simp only [List.mem_cons, forall_eq_or_imp] at found missed
    obtain ⟨ih₁, ih₂⟩ := ih found.2 missed.2
    by_cases hc : below c
    · simp [firstParent, found.1 hc, hc]
    · simp only [firstParent, missed.1 hc]
      constructor
      · rintro ⟨c', hc', hb⟩
        obtain rfl | hc' := List.mem_cons.mp hc'
        · exact absurd hb hc
        · exact ih₁ ⟨c', hc', hb⟩
      · intro hb
        exact ih₂ fun c' hc' => hb c' (List.mem_cons_of_mem _ hc')

/-- The search from a node on finds the parent if and only if it is below that node. -/
lemma Grown.getParentRecursive {p fuel s : Nat} (h : tree.Grown) (hp : tree.Child p m)
    (hs : tree.nodes s = some g) (hf : tree.next ≤ fuel + s) :
    (Relation.ReflTransGen tree.Child s p →
      gentreeGetParentRecursive tree m fuel s = some (some p)) ∧
    (¬ Relation.ReflTransGen tree.Child s p →
      gentreeGetParentRecursive tree m fuel s = some none) := by
  induction fuel generalizing s g with
  | zero =>
    have := h.bound hs
    omega
  | succ fuel ih =>
    by_cases hm : m ∈ g.children
    · have : p = s := h.parent ⟨g, hs, hm⟩ hp
      subst this
      simp [gentreeGetParentRecursive, hs, hm, Relation.ReflTransGen.refl]
    · have hne : s ≠ p := by
        rintro rfl
        obtain ⟨g', hg', hm'⟩ := hp
        rw [hs, Option.some.injEq] at hg'
        exact hm (hg' ▸ hm')
      have child : ∀ c ∈ g.children, s < c ∧ ∃ g, tree.nodes c = some g :=
        fun c hc => h.child ⟨g, hs, hc⟩
      have found : ∀ c ∈ g.children, Relation.ReflTransGen tree.Child c p →
          gentreeGetParentRecursive tree m fuel c = some (some p) := by
        intro c hc
        obtain ⟨hlt, g', hg'⟩ := child c hc
        exact (ih hg' (by omega)).1
      have missed : ∀ c ∈ g.children, ¬ Relation.ReflTransGen tree.Child c p →
          gentreeGetParentRecursive tree m fuel c = some none := by
        intro c hc
        obtain ⟨hlt, g', hg'⟩ := child c hc
        exact (ih hg' (by omega)).2
      have loop := firstParent_eq (fun c => Relation.ReflTransGen tree.Child c p) found missed
      have below : Relation.ReflTransGen tree.Child s p ↔
          ∃ c ∈ g.children, Relation.ReflTransGen tree.Child c p := by
        constructor
        · intro hb
          obtain rfl | ⟨c, ⟨g', hg', hc⟩, hb⟩ := hb.cases_head
          · exact absurd rfl hne
          · rw [hs, Option.some.injEq] at hg'
            exact ⟨c, hg' ▸ hc, hb⟩
        · rintro ⟨c, hc, hb⟩
          exact .head ⟨g, hs, hc⟩ hb
      have unfold_ : gentreeGetParentRecursive tree m (fuel + 1) s =
          firstParent (gentreeGetParentRecursive tree m fuel) g.children := by
        simp [gentreeGetParentRecursive, hs, hm]
      rw [unfold_, below]
      refine ⟨loop.1, fun hb => loop.2 ?_⟩
      intro c hc hc'
      exact hb ⟨c, hc, hc'⟩

/-- Every node is below the root. -/
lemma Grown.below_root {r : Nat} (h : tree.Grown) (hr : tree.root = some r)
    (hn : tree.nodes n = some g) : Relation.ReflTransGen tree.Child r n := by
  induction n using Nat.strong_induction_on generalizing g with
  | _ n ih =>
    obtain hr' | ⟨p, hp⟩ := h.linked hn
    · rw [hr, Option.some.injEq] at hr'
      rw [hr']
    · obtain ⟨g', hg', _⟩ := id hp
      exact (ih p (h.child hp).1 hg').tail hp

/-- `gentree_get_parent` of a child. -/
lemma Grown.getParent {p : Nat} (h : tree.Grown) (hp : tree.Child p m) :
    gentreeGetParent tree m = some (some p) := by
  obtain ⟨g, hg, hm⟩ := id hp
  cases hr : tree.root with
  | none =>
    have := h.bound hg
    rw [h.empty hr] at this
    exact absurd this (Nat.not_lt_zero _)
  | some r =>
    obtain ⟨⟨g', hg'⟩, orphan⟩ := h.root hr
    have hne : m ≠ r := by
      rintro rfl
      exact orphan p hp
    have search := (h.getParentRecursive hp hg' (Nat.le_add_right tree.next r)).1
      (h.below_root hr hg)
    simp [gentreeGetParent, hr, hne, search]

end Grown

end Gentree

end WivOS.Utils
