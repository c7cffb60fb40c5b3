import WivOS.Utils.GentreeThreads

/-!
# What is left of a tree that threads share

Every section of `gentree_insert` and `gentree_remove` leaves a tree in which each node has one parent
(`Sound`). A change by one thread disturbs no other thread whose node stays in the tree (`Evolves`): the
search of that thread is still before the node it looks for (`Phase`), so that it does not return without
it. In runs in which every section finds what it relies on, each `gentree_remove` detaches and frees
exactly its node.
-/

namespace WivOS.Utils
open Lib Relation

/-- What is above `x` is so still, if `x` is reached from the root: in the new relation `r'` each node has
one parent, and `r'` has the parents of all nodes that are reached. -/
lemma transGen_kept {α : Type} {r r' : α → α → Prop} {root v x : α} (above : TransGen r v x)
    (reached : ReflTransGen r' root x) (unique : ∀ p q y, r' p y → r' q y → p = q)
    (rootless : ∀ p, ¬ r p root) (kept : ∀ p y, ReflTransGen r' root y → r p y → r' p y) :
    TransGen r' v x ∧ ReflTransGen r' root v := by
  have parent : ∀ p y, r p y → ReflTransGen r' root y → r' p y ∧ ReflTransGen r' root p := by
    intro p y edge reached
    have edge' := kept p y reached edge
    cases reached with
    | refl => exact absurd edge (rootless p)
    | tail path last => exact ⟨edge', unique _ _ _ last edge' ▸ path⟩
  induction above with
  | single edge =>
    obtain ⟨edge', reached'⟩ := parent _ _ edge reached
    exact ⟨.single edge', reached'⟩
  | tail _ edge ih =>
    obtain ⟨edge', reached'⟩ := parent _ _ edge reached
    obtain ⟨above', top⟩ := ih reached'
    exact ⟨.tail above' edge', top⟩

namespace SharedTree
variable {tree tree' : SharedTree} {m n p x : Nat} {g : TreeNode}

/-- Every node has one parent, and a list of children names each child once. -/
structure Sound (tree : SharedTree) : Prop where
  parent : ∀ {m m' n}, tree.Child m n → tree.Child m' n → m = m'
  entries : ∀ {m g}, tree.nodes m = some g → (g.children.map Prod.fst).Nodup
  values : ∀ {m g}, tree.nodes m = some g → (g.children.map Prod.snd).Nodup
  child : ∀ {m g c}, tree.nodes m = some g → c ∈ g.children → ∃ n, c.2 = some n ∧ tree.nodes n ≠ none
  root : ∀ {r}, tree.root = some r → tree.nodes r ≠ none ∧ ∀ m, ¬ tree.Child m r
  empty : tree.root = none → ∀ m, tree.nodes m = none

/-- The child `n` of `m` does not stand in the list up to the node `c`, and `x` is below it. -/
def Ahead (tree : SharedTree) (x m c : Nat) : Prop :=
  ∃ n, tree.Child m n ∧ TransGen tree.Child n x ∧
    ∀ g a y b, tree.nodes m = some g → g.children = a ++ (c, y) :: b →
      some n ∉ a.map Prod.snd ∧ y ≠ some n

/-- It does not stand before the node `c`. -/
def AheadFrom (tree : SharedTree) (x m c : Nat) : Prop :=
  ∃ n, tree.Child m n ∧ TransGen tree.Child n x ∧
    ∀ g a y b, tree.nodes m = some g → g.children = a ++ (c, y) :: b → some n ∉ a.map Prod.snd

/-- What holds of a thread that removes `x`. A search has `x` before it, and the later sections have the
right child. -/
def Phase (tree : SharedTree) (x : Nat) : RemovePhase → Prop
  | .enter stack subroot => TransGen tree.Child subroot x ∨ ∃ f ∈ stack, tree.Ahead x f.1 f.2
  | .scan stack subroot =>
    (∃ n, tree.Child subroot n ∧ TransGen tree.Child n x) ∨ ∃ f ∈ stack, tree.Ahead x f.1 f.2
  | .descend stack subroot child =>
    tree.AheadFrom x subroot child ∨ ∃ f ∈ stack, tree.Ahead x f.1 f.2
  | .next stack subroot child => tree.Ahead x subroot child ∨ ∃ f ∈ stack, tree.Ahead x f.1 f.2
  | .indexed _ _ => True
  | .remove parent child => ∃ g, tree.nodes parent = some g ∧ (child, some x) ∈ g.children
  | .rest parent child value rest =>
    (∃ g, tree.nodes parent = some g ∧ (child, some x) ∈ g.children) ∧ value = some x ∧ rest ≠ .done
  | .free value => value = some x ∧ tree.nodes x ≠ none ∧ ∀ m, ¬ tree.Child m x

/-- What one thread does to the tree of another. -/
structure Evolves (tree tree' : SharedTree) : Prop where
  root : ∀ {r}, tree.root = some r → tree'.root = some r
  edges : ∀ {m n}, tree'.InTree n → tree.Child m n → tree'.Child m n
  order : ∀ {m g}, tree'.InTree m → tree.nodes m = some g → ∃ g', tree'.nodes m = some g' ∧
    (g'.children.Sublist g.children ∨
      ∃ e : Nat × Option Nat, e.1 ∉ g.children.map Prod.fst ∧ g'.children = e :: g.children)

/-- Where a node of a list was, if others left the list or one came to its front. -/
lemma cut_kept {l l' a : Contents} {b : Contents} {c : Nat × Option Nat}
    (change : l'.Sublist l ∨ ∃ e : Nat × Option Nat, e.1 ∉ l.map Prod.fst ∧ l' = e :: l)
    (cut : l' = a ++ c :: b) :
    (∃ a' b', l = a' ++ c :: b' ∧ a ⊆ a') ∨ (a = [] ∧ b = l) ∨
      ∃ e a', a = e :: a' ∧ l = a' ++ c :: b ∧ l' = e :: l := by
  subst cut
  rcases change with sub | ⟨e, -, pushed⟩
  · obtain ⟨r, r', rfl, left, right⟩ := List.append_sublist_iff.mp sub
    obtain ⟨t, t', rfl, mem, -⟩ := List.cons_sublist_iff.mp right
    obtain ⟨u, u', rfl⟩ := List.append_of_mem mem
    refine .inl ⟨r ++ u, u' ++ t', by simp, ?_⟩
    exact List.subset_append_of_subset_left _ left.subset
  · cases a with
    | nil => exact .inr (.inl ⟨rfl, (List.cons.inj pushed).2⟩)
    | cons y a =>
      obtain ⟨rfl, e⟩ := List.cons.inj pushed
      exact .inr (.inr ⟨y, a, rfl, e.symm, by rw [← e]; rfl⟩)

section Evolves
variable (sound : tree.Sound) (sound' : tree'.Sound) (evolves : tree.Evolves tree')
include sound sound' evolves

/-- A node that is still in the tree is still below what it was below. -/
lemma transGen_evolves (above : TransGen tree.Child n x) (stays : tree'.InTree x) {r : Nat}
    (root : tree.root = some r) : TransGen tree'.Child n x ∧ tree'.InTree n := by
  obtain ⟨r', hr', reached⟩ := stays
  have same : r = r' := Option.some_inj.mp ((evolves.root root).symm.trans hr')
  subst same
  obtain ⟨above', reached'⟩ := transGen_kept above reached (fun _ _ _ => sound'.parent)
    (sound.root root).2 (fun _ _ reached edge => evolves.edges ⟨r, hr', reached⟩ edge)
  exact ⟨above', r, hr', reached'⟩

/-- A child with `x` below it, and the list it is in. -/
lemma child_evolves {r c : Nat} (root : tree.root = some r) (stays : tree'.InTree x)
    (child : tree.Child m n) (above : TransGen tree.Child n x) :
    tree'.Child m n ∧ TransGen tree'.Child n x ∧
      ∀ g' a y b, tree'.nodes m = some g' → g'.children = a ++ (c, y) :: b →
        (∃ g a' b', tree.nodes m = some g ∧ g.children = a' ++ (c, y) :: b' ∧
          (some n ∈ a.map Prod.snd → some n ∈ a'.map Prod.snd)) ∨ (a = [] ∧ y ≠ some n) := by
  obtain ⟨above', inTree⟩ := transGen_evolves sound sound' evolves above stays root
  obtain ⟨-, inTree'⟩ := transGen_evolves sound sound' evolves (.head child above) stays root
  refine ⟨evolves.edges inTree child, above', ?_⟩
  intro g' a y b hg' cut
  obtain ⟨g, hg, mem⟩ := child
  obtain ⟨g'', hg'', change⟩ := evolves.order inTree' hg
  obtain rfl : g' = g'' := Option.some_inj.mp (hg'.symm.trans hg'')
  have nodup := sound'.values hg'
  rcases cut_kept change cut with ⟨a', b', e, sub⟩ | ⟨rfl, rfl⟩ | ⟨e, a', rfl, old, pushed⟩
  · exact .inl ⟨g, a', b', hg, e, fun h => List.map_subset _ sub h⟩
  · refine .inr ⟨rfl, ?_⟩
    rintro rfl
    rw [cut, List.nil_append, List.map_cons, List.nodup_cons] at nodup
    exact nodup.1 mem
  · refine .inl ⟨g, a', b, hg, old, ?_⟩
    rw [pushed, List.map_cons, List.nodup_cons] at nodup
    intro h
    rcases List.mem_cons.mp h with h | h
    · exact absurd (h ▸ mem) nodup.1
    · exact h

/-- It is still ahead of a search. -/
lemma ahead_evolves {r c : Nat} (root : tree.root = some r) (stays : tree'.InTree x)
    (ahead : tree.Ahead x m c) : tree'.Ahead x m c := by
  obtain ⟨n, child, above, behind⟩ := ahead
  obtain ⟨child', above', order⟩ := child_evolves (c := c) sound sound' evolves root stays child above
  refine ⟨n, child', above', ?_⟩
  intro g' a y b hg' cut
  rcases order g' a y b hg' cut with ⟨g, a', b', hg, e, sub⟩ | ⟨rfl, different⟩
  · obtain ⟨before, different⟩ := behind g a' y b' hg e
    exact ⟨fun h => before (sub h), different⟩
  · exact ⟨by simp, different⟩

/-- And it is still ahead from a node of the list on. -/
lemma aheadFrom_evolves {r c : Nat} (root : tree.root = some r) (stays : tree'.InTree x)
    (ahead : tree.AheadFrom x m c) : tree'.AheadFrom x m c := by
  obtain ⟨n, child, above, behind⟩ := ahead
  obtain ⟨child', above', order⟩ := child_evolves (c := c) sound sound' evolves root stays child above
  refine ⟨n, child', above', ?_⟩
  intro g' a y b hg' cut
  rcases order g' a y b hg' cut with ⟨g, a', b', hg, e, sub⟩ | ⟨rfl, -⟩
  · exact fun h => behind g a' y b' hg e (sub h)
  · simp

/-- The entry of a child that stays in the tree. -/
lemma entry_evolves {c : Nat} (stays : tree'.InTree x)
    (entry : ∃ g, tree.nodes p = some g ∧ (c, some x) ∈ g.children) {r : Nat}
    (root : tree.root = some r) : ∃ g, tree'.nodes p = some g ∧ (c, some x) ∈ g.children := by
  obtain ⟨g, hg, mem⟩ := entry
  have child : tree.Child p x := ⟨g, hg, List.mem_map_of_mem mem⟩
  obtain ⟨-, inTree⟩ := transGen_evolves sound sound' evolves (.single child) stays root
  obtain ⟨g', hg', mem'⟩ := evolves.edges stays child
  obtain ⟨g'', hg'', change⟩ := evolves.order inTree hg
  obtain rfl : g' = g'' := Option.some_inj.mp (hg'.symm.trans hg'')
  refine ⟨g', hg', ?_⟩
  rcases change with sub | ⟨e, -, pushed⟩
  · obtain ⟨y, hy, e⟩ := List.mem_map.mp mem'
    have same : y = (c, some x) := List.inj_on_of_nodup_map (sound.values hg) (sub.subset hy) mem e
    rwa [← same]
  · rw [pushed]
    exact List.mem_cons_of_mem _ mem

/-- Another thread does not disturb the removal of a node that stays in the tree. -/
lemma phase_evolves {phase : RemovePhase} {r : Nat} (root : tree.root = some r)
    (attached : phase.Attached) (stays : tree'.InTree x) (h : tree.Phase x phase) :
    tree'.Phase x phase := by
  have stack_evolves : ∀ {stack : List (Nat × Nat)}, (∃ f ∈ stack, tree.Ahead x f.1 f.2) →
      ∃ f ∈ stack, tree'.Ahead x f.1 f.2 := by
    rintro stack ⟨f, mem, ahead⟩
    exact ⟨f, mem, ahead_evolves sound sound' evolves root stays ahead⟩
  cases phase with
  | enter stack subroot =>
    exact h.imp (fun above => (transGen_evolves sound sound' evolves above stays root).1) stack_evolves
  | scan stack subroot =>
    refine h.imp ?_ stack_evolves
    rintro ⟨n, child, above⟩
    obtain ⟨above', inTree⟩ := transGen_evolves sound sound' evolves above stays root
    exact ⟨n, evolves.edges inTree child, above'⟩
  | descend stack subroot child =>
    exact h.imp (aheadFrom_evolves sound sound' evolves root stays) stack_evolves
  | next stack subroot child =>
    exact h.imp (ahead_evolves sound sound' evolves root stays) stack_evolves
  | indexed parent index => trivial
  | remove parent child => exact entry_evolves sound sound' evolves stays h root
  | rest parent child value rest =>
    exact ⟨entry_evolves sound sound' evolves stays h.1 root, h.2⟩
  | free value => exact absurd attached id

end Evolves

/-! ## The changes of a tree -/

/-- The parent of a child is allocated. -/
lemma Sound.allocated (sound : tree.Sound) (child : tree.Child m n) : tree.nodes n ≠ none := by
  obtain ⟨g, hg, mem⟩ := child
  obtain ⟨c, hc, e⟩ := List.mem_map.mp mem
  obtain ⟨n', e', allocated⟩ := sound.child hg hc
  obtain rfl : n = n' := Option.some_inj.mp (e.symm.trans e')
  exact allocated

/-- Doing nothing. -/
lemma Evolves.refl (tree : SharedTree) : tree.Evolves tree where
  root h := h
  edges _ h := h
  order _ h := ⟨_, h, .inl (List.Sublist.refl _)⟩

section Detach
variable {l : Contents}

/-- The nodes once the children of one are set. -/
lemma setChildren_nodes (m : Nat) : (tree.setChildren p g l).nodes m =
    if m = p then some { g with children := l } else tree.nodes m := by
  simp [setChildren, Function.update_apply]

/-- The children then. -/
lemma setChildren_child_iff : (tree.setChildren p g l).Child m n ↔
    if m = p then some n ∈ l.map Prod.snd else tree.Child m n := by
  unfold Child
  rw [setChildren_nodes]
  split <;> simp

variable (hg : tree.nodes p = some g) (sub : l.Sublist g.children)
include hg sub

/-- Without a new entry no child is new. -/
lemma setChildren_child (child : (tree.setChildren p g l).Child m n) : tree.Child m n := by
  rw [setChildren_child_iff] at child
  split at child
  · subst m
    exact ⟨g, hg, (sub.map _).subset child⟩
  · exact child

/-- Fewer children keep the tree sound. -/
lemma Sound.setChildren (sound : tree.Sound) : (tree.setChildren p g l).Sound where
  parent h h' := sound.parent (setChildren_child hg sub h) (setChildren_child hg sub h')
  entries := by
    intro m g' hg'
    rw [setChildren_nodes] at hg'
    split at hg'
    · cases hg'
      exact (sound.entries hg).sublist (sub.map _)
    · exact sound.entries hg'
  values := by
    intro m g' hg'
    rw [setChildren_nodes] at hg'
    split at hg'
    · cases hg'
      exact (sound.values hg).sublist (sub.map _)
    · exact sound.values hg'
  child := by
    intro m g' c hg' mem
    have old : ∃ n, c.2 = some n ∧ tree.nodes n ≠ none := by
      rw [setChildren_nodes] at hg'
      split at hg'
      · cases hg'
        exact sound.child hg (sub.subset mem)
      · exact sound.child hg' mem
    obtain ⟨n, e, allocated⟩ := old
    refine ⟨n, e, ?_⟩
    rw [setChildren_nodes]
    split
    · simp
    · exact allocated
  root := by
    intro r hr
    obtain ⟨allocated, rootless⟩ := sound.root hr
    refine ⟨?_, fun m h => rootless m (setChildren_child hg sub h)⟩
    rw [setChildren_nodes]
    split
    · simp
    · exact allocated
  empty := by
    intro hr
    rw [sound.empty hr p] at hg
    cases hg

end Detach

/-- A child is detached. -/
lemma Sound.detach {a b : Contents} {c y : Nat} (sound : tree.Sound) (hg : tree.nodes p = some g)
    (cut : g.children = a ++ (c, some y) :: b) : tree.Evolves (tree.setChildren p g (a ++ b)) := by
  have sub : (a ++ b).Sublist g.children := by
    rw [cut]
    simp
  have child : tree.Child p y := ⟨g, hg, by simp [cut]⟩
  have gone : some y ∉ (a ++ b).map Prod.snd := by
    have nodup := sound.values hg
    rw [cut, (List.perm_middle.map Prod.snd).nodup_iff, List.map_cons, List.nodup_cons] at nodup
    exact nodup.1
  have orphan : ∀ q, ¬ (tree.setChildren p g (a ++ b)).Child q y := by
    intro q hq
    have same := sound.parent (setChildren_child hg sub hq) child
    rw [setChildren_child_iff, if_pos same] at hq
    exact gone hq
  refine ⟨fun h => h, ?_, ?_⟩
  · intro m n inTree edge
    rw [setChildren_child_iff]
    split
    · subst m
      obtain ⟨g', hg', mem⟩ := edge
      obtain rfl : g = g' := Option.some_inj.mp (hg.symm.trans hg')
      have different : n ≠ y := by
        rintro rfl
        obtain ⟨r, hr, reached⟩ := inTree
        cases reached with
        | refl => exact (sound.root hr).2 p child
        | tail _ last => exact orphan _ last
      simpa [cut, different] using mem
    · exact edge
  · intro m g' _ hg'
    by_cases own : m = p
    · subst own
      obtain rfl : g = g' := Option.some_inj.mp (hg.symm.trans hg')
      exact ⟨_, by rw [setChildren_nodes, if_pos rfl], .inl sub⟩
    · exact ⟨g', by rw [setChildren_nodes, if_neg own, hg'], .inl (List.Sublist.refl _)⟩

section Free
variable {y : Nat}

/-- The children once a node is freed. -/
lemma kfree_child_iff : (tree.kfree y).Child m n ↔ m ≠ y ∧ tree.Child m n := by
  unfold Child kfree
  by_cases own : m = y
  · simp [own]
  · simp [own]

variable (sound : tree.Sound) (orphan : ∀ m, ¬ tree.Child m y) (notRoot : tree.root ≠ some y)
include sound orphan notRoot

/-- A node that is detached is freed. -/
lemma Sound.kfree : (tree.kfree y).Sound := by
  have old : ∀ {m g}, (tree.kfree y).nodes m = some g → tree.nodes m = some g := by
    intro m g h
    simp only [SharedTree.kfree, Function.update_apply] at h
    split at h
    · cases h
    · exact h
  refine ⟨?_, fun h => sound.entries (old h), fun h => sound.values (old h), ?_, ?_, ?_⟩
  · intro m m' n h h'
    exact sound.parent (kfree_child_iff.mp h).2 (kfree_child_iff.mp h').2
  · intro m g c h mem
    obtain ⟨n, e, allocated⟩ := sound.child (old h) mem
    have other : n ≠ y := by
      rintro rfl
      exact orphan m ⟨g, old h, e ▸ List.mem_map_of_mem mem⟩
    exact ⟨n, e, by simpa [SharedTree.kfree, other] using allocated⟩
  · intro r hr
    obtain ⟨allocated, rootless⟩ := sound.root hr
    have other : r ≠ y := by
      rintro rfl
      exact notRoot hr
    refine ⟨by simpa [SharedTree.kfree, other] using allocated, ?_⟩
    exact fun m h => rootless m (kfree_child_iff.mp h).2
  · intro hr m
    simp [SharedTree.kfree, Function.update_apply, sound.empty hr m]

/-- Freeing a node that is not in the tree. -/
lemma Sound.kfree_evolves : tree.Evolves (tree.kfree y) := by
  refine ⟨fun h => h, ?_, ?_⟩
  · intro m n inTree child
    refine kfree_child_iff.mpr ⟨?_, child⟩
    rintro rfl
    obtain ⟨r, hr, reached⟩ := inTree
    cases reached with
    | refl => exact (sound.root hr).2 m child
    | tail _ last =>
      obtain ⟨other, last⟩ := kfree_child_iff.mp last
      exact other (sound.parent last child)
  · intro m g inTree hg
    have other : m ≠ y := by
      rintro rfl
      obtain ⟨r, hr, reached⟩ := inTree
      cases reached with
      | refl => exact notRoot hr
      | tail _ last => exact orphan _ (kfree_child_iff.mp last).2
    exact ⟨g, by simpa [SharedTree.kfree, other] using hg, .inl (List.Sublist.refl _)⟩

end Free

/-- What a section does to a tree, where `target` is the node that the call is to remove. -/
structure Change (tree tree' : SharedTree) (target : Option Nat) : Prop where
  sound : tree'.Sound
  evolves : tree.Evolves tree'
  born : ∀ {m n}, tree'.Child m n → tree.Child m n ∨ tree.nodes n = none
  detached : ∀ {m n}, tree.Child m n → tree'.nodes m ≠ none → ¬ tree'.Child m n → target = some n
  freed : ∀ {n}, tree.nodes n ≠ none → tree'.nodes n = none → target = some n

/-- Doing nothing. -/
lemma Sound.unchanged (sound : tree.Sound) (target : Option Nat) : tree.Change tree target where
  sound := sound
  evolves := .refl tree
  born := .inl
  detached h _ h' := absurd h h'
  freed h h' := absurd h' h

section Insert
variable {node c r : Nat} (value : Option Nat)

/-- The first node. -/
lemma insert_empty (sound : tree.Sound) (root : tree.root = none) (subroot : Option Nat) (node c : Nat) :
    ∃ tree', tree.insert subroot value node c = some tree' ∧ tree.Change tree' none := by
  have blank := sound.empty root
  let tree' : SharedTree := ⟨some node, Function.update tree.nodes node (some ⟨value, []⟩)⟩
  have nodes : ∀ {m g}, tree'.nodes m = some g → m = node ∧ g.children = [] := by
    intro m g h
    simp only [tree', Function.update_apply, blank m] at h
    split at h
    · cases h
      exact ⟨‹_›, rfl⟩
    · cases h
  have childless : ∀ m n, ¬ tree'.Child m n := by
    rintro m n ⟨g, hg, mem⟩
    simp [(nodes hg).2] at mem
  refine ⟨tree', by simp [SharedTree.insert, root, tree'], ?_, ?_, ?_, ?_, ?_⟩
  · refine ⟨fun h => absurd h (childless _ _), ?_, ?_, ?_, ?_, ?_⟩
    · intro m g hg
      simp [(nodes hg).2]
    · intro m g hg
      simp [(nodes hg).2]
    · intro m g c hg mem
      simp [(nodes hg).2] at mem
    · rintro r ⟨⟩
      exact ⟨by simp [tree'], fun m => childless m _⟩
    · rintro ⟨⟩
  · refine ⟨?_, ?_, ?_⟩
    · intro r hr
      rw [root] at hr
      cases hr
    · rintro m n - ⟨g, hg, -⟩
      rw [blank m] at hg
      cases hg
    · intro m g _ hg
      rw [blank m] at hg
      cases hg
  · intro m n child
    exact absurd child (childless m n)
  · rintro m n ⟨g, hg, -⟩
    rw [blank m] at hg
    cases hg
  · intro n there
    exact absurd (blank n) there

end Insert

section Below
variable {node c r : Nat} {value : Option Nat}

/-- The tree with a new node below `p`, whose entry for it is `c`. -/
def below (tree : SharedTree) (p : Nat) (g : TreeNode) (value : Option Nat) (node c : Nat) : SharedTree :=
  { tree with
    nodes := Function.update (Function.update tree.nodes node (some ⟨value, []⟩)) p
      (some { g with children := (c, some node) :: g.children }) }

/-- The nodes of the tree with the new one. -/
lemma below_nodes (m : Nat) : (tree.below p g value node c).nodes m =
    if m = p then some { g with children := (c, some node) :: g.children }
    else if m = node then some ⟨value, []⟩ else tree.nodes m := by
  simp only [below, Function.update_apply]

variable (hg : tree.nodes p = some g) (free : tree.nodes node = none)
include hg

/-- What is free then. -/
lemma below_none_iff : (tree.below p g value node c).nodes m = none ↔ tree.nodes m = none ∧ m ≠ node := by
  rw [below_nodes]
  split_ifs with atP atNode
  · subst atP
    simp [hg]
  · simp [atNode]
  · simp [atNode]

include free

/-- The children then. -/
lemma below_child_iff :
    (tree.below p g value node c).Child m n ↔ tree.Child m n ∨ (m = p ∧ n = node) := by
  unfold Child
  rw [below_nodes]
  split_ifs with atP atNode
  · subst atP
    constructor
    · rintro ⟨g', e, mem⟩
      cases e
      rcases List.mem_cons.mp mem with e | mem
      · exact .inr ⟨rfl, Option.some_inj.mp e⟩
      · exact .inl ⟨g, hg, mem⟩
    · rintro (⟨g', hg', mem⟩ | ⟨-, rfl⟩)
      · obtain rfl : g = g' := Option.some_inj.mp (hg.symm.trans hg')
        exact ⟨_, rfl, List.mem_cons_of_mem _ mem⟩
      · exact ⟨_, rfl, by simp⟩
  · subst atNode
    simp [free, atP]
  · simp [atP]

/-- The tree with the new node is sound. -/
lemma Sound.below (sound : tree.Sound) (root : tree.root = some r) (new : c ∉ g.children.map Prod.fst) :
    (tree.below p g value node c).Sound := by
  have unborn : ∀ m, ¬ tree.Child m node := fun m h => sound.allocated h free
  have kept : ∀ {n}, tree.nodes n ≠ none → (tree.below p g value node c).nodes n ≠ none :=
    fun h h' => h ((below_none_iff hg).mp h').1
  refine ⟨?_, ?_, ?_, ?_, ?_, ?_⟩
  · intro m m' n h h'
    -- the new node had no parent before
    rcases (below_child_iff hg free).mp h with old | ⟨rfl, rfl⟩
    · rcases (below_child_iff hg free).mp h' with old' | ⟨rfl, rfl⟩
      · exact sound.parent old old'
      · exact absurd old (unborn m)
    · rcases (below_child_iff hg free).mp h' with old' | ⟨rfl, -⟩
      · exact absurd old' (unborn m')
      · rfl
  · intro m g' hg'
    rw [below_nodes] at hg'
    split_ifs at hg' with atP atNode
    · cases hg'
      exact List.nodup_cons.mpr ⟨new, sound.entries hg⟩
    · cases hg'
      simp
    · exact sound.entries hg'
  · intro m g' hg'
    rw [below_nodes] at hg'
    split_ifs at hg' with atP atNode
    · cases hg'
      exact List.nodup_cons.mpr ⟨fun mem => unborn p ⟨g, hg, mem⟩, sound.values hg⟩
    · cases hg'
      simp
    · exact sound.values hg'
  · intro m g' d hg' mem
    rw [below_nodes] at hg'
    split_ifs at hg' with atP atNode
    · cases hg'
      rcases List.mem_cons.mp mem with rfl | mem
      · exact ⟨node, rfl, fun h => ((below_none_iff hg).mp h).2 rfl⟩
      · obtain ⟨n, e, h⟩ := sound.child hg mem
        exact ⟨n, e, kept h⟩
    · cases hg'
      simp at mem
    · obtain ⟨n, e, h⟩ := sound.child hg' mem
      exact ⟨n, e, kept h⟩
  · intro r' hr'
    obtain ⟨there, rootless⟩ := sound.root hr'
    refine ⟨kept there, ?_⟩
    intro m h
    rcases (below_child_iff hg free).mp h with h | ⟨-, rfl⟩
    · exact rootless m h
    · exact there free
  · intro hr
    rw [show (tree.below p g value node c).root = tree.root from rfl, root] at hr
    cases hr

/-- The others find their nodes in it. -/
lemma below_evolves (new : c ∉ g.children.map Prod.fst) : tree.Evolves (tree.below p g value node c) := by
  refine ⟨fun h => h, fun _ h => (below_child_iff hg free).mpr (.inl h), ?_⟩
  intro m g' _ hg'
  rw [below_nodes]
  split_ifs with atP atNode
  · subst atP
    obtain rfl : g = g' := Option.some_inj.mp (hg.symm.trans hg')
    exact ⟨_, rfl, .inr ⟨(c, some node), new, rfl⟩⟩
  · subst atNode
    rw [free] at hg'
    cases hg'
  · exact ⟨g', hg', .inl (List.Sublist.refl _)⟩

/-- A node below another one. -/
lemma insert_below (sound : tree.Sound) (root : tree.root = some r) (new : c ∉ g.children.map Prod.fst) :
    ∃ tree', tree.insert (some p) value node c = some tree' ∧ tree.Change tree' none := by
  have different : p ≠ node := by
    rintro rfl
    rw [free] at hg
    cases hg
  refine ⟨tree.below p g value node c, ?_, sound.below hg free root new, below_evolves hg free new, ?_, ?_, ?_⟩
  · simp [SharedTree.insert, root, different, hg, setChildren, SharedTree.below]
  · intro m n child
    rcases (below_child_iff hg free).mp child with child | ⟨-, rfl⟩
    · exact .inl child
    · exact .inr free
  · intro m n child _ gone
    exact absurd ((below_child_iff hg free).mpr (.inl child)) gone
  · intro n there gone
    exact absurd ((below_none_iff hg).mp gone).1 there

end Below

/-- A child leaves its list, and is not yet freed. -/
lemma Sound.detach_change {a b : Contents} {c y : Nat} (sound : tree.Sound) (hg : tree.nodes p = some g)
    (cut : g.children = a ++ (c, some y) :: b) :
    tree.Change (tree.setChildren p g (a ++ b)) (some y) ∧
      (tree.setChildren p g (a ++ b)).nodes y ≠ none ∧
      ∀ m, ¬ (tree.setChildren p g (a ++ b)).Child m y := by
  have sub : (a ++ b).Sublist g.children := by
    rw [cut]
    simp
  have child : tree.Child p y := ⟨g, hg, by simp [cut]⟩
  have kept : ∀ {n}, tree.nodes n ≠ none → (tree.setChildren p g (a ++ b)).nodes n ≠ none := by
    intro n h
    rw [setChildren_nodes]
    split
    · simp
    · exact h
  refine ⟨⟨sound.setChildren hg sub, sound.detach hg cut, fun h => .inl (setChildren_child hg sub h),
    ?_, fun h h' => absurd h' (kept h)⟩, kept (sound.allocated child), ?_⟩
  · intro m n h _ h'
    rw [setChildren_child_iff] at h'
    split at h'
    · subst m
      obtain ⟨g', hg', mem⟩ := h
      obtain rfl : g = g' := Option.some_inj.mp (hg.symm.trans hg')
      rw [cut, (List.perm_middle.map Prod.snd).mem_iff, List.map_cons, List.mem_cons] at mem
      exact (mem.resolve_right h').symm
    · exact absurd h h'
  · intro m h
    have nodup := sound.values hg
    rw [cut, (List.perm_middle.map Prod.snd).nodup_iff, List.map_cons, List.nodup_cons] at nodup
    have same := sound.parent (setChildren_child hg sub h) child
    rw [setChildren_child_iff, if_pos same] at h
    exact nodup.1 h

/-- A node without a parent is freed. -/
lemma Sound.kfree_change {y : Nat} (sound : tree.Sound) (orphan : ∀ m, ¬ tree.Child m y)
    (notRoot : tree.root ≠ some y) : tree.Change (tree.kfree y) (some y) where
  sound := sound.kfree orphan notRoot
  evolves := sound.kfree_evolves orphan notRoot
  born h := .inl (kfree_child_iff.mp h).2
  detached := by
    intro m n h there h'
    refine absurd (kfree_child_iff.mpr ⟨?_, h⟩) h'
    rintro rfl
    simp [SharedTree.kfree] at there
  freed := by
    intro n h h'
    by_cases own : n = y
    · rw [own]
    · simp [SharedTree.kfree, own] at h'
      exact absurd h' h

/-- A node stays in the tree, if the one that goes is not above it. -/
lemma Change.inTree {target : Option Nat} (change : tree.Change tree' target) (inTree : tree.InTree n)
    (clear : ∀ y, target = some y → ¬ ReflTransGen tree.Child y n) : tree'.InTree n := by
  obtain ⟨r, root, path⟩ := inTree
  refine ⟨r, change.evolves.root root, ?_⟩
  induction path with
  | refl => exact .refl
  | @tail b c path edge ih =>
    refine .tail (ih fun y own above => clear y own (.tail above edge)) ?_
    by_contra gone
    refine clear c (change.detached edge ?_ gone) .refl
    intro freed
    obtain ⟨g, hg, -⟩ := id edge
    exact clear b (change.freed (by simp [hg]) freed) (.single edge)

/-- A detached node is above no node of the tree. -/
lemma Sound.not_above {y : Nat} (sound : tree.Sound) (orphan : ∀ m, ¬ tree.Child m y)
    (notRoot : tree.root ≠ some y) (inTree : tree.InTree n) : ¬ ReflTransGen tree.Child y n := by
  obtain ⟨r, root, path⟩ := inTree
  induction path with
  | refl =>
    intro above
    cases above with
    | refl => exact notRoot root
    | tail _ edge => exact (sound.root root).2 _ edge
  | tail _ edge ih =>
    intro above
    cases above with
    | refl => exact orphan _ edge
    | tail above edge' => exact ih (sound.parent edge' edge ▸ above)

/-- The lists name each node once, so that a node cuts its list in one way. -/
lemma Sound.cut_unique {a a' b b' : Contents} {c : Nat} {y y' : Option Nat} (sound : tree.Sound)
    (hg : tree.nodes m = some g) (cut : g.children = a ++ (c, y) :: b)
    (cut' : g.children = a' ++ (c, y') :: b') : a = a' ∧ y = y' ∧ b = b' := by
  have nodup := sound.entries hg
  rw [cut] at nodup cut'
  clear cut
  induction a generalizing a' with
  | nil =>
    cases a' with
    | nil => simpa using cut'
    | cons z a' =>
      obtain ⟨rfl, rfl⟩ := List.cons.inj cut'
      simp at nodup
  | cons z a ih =>
    cases a' with
    | nil =>
      obtain ⟨rfl, rfl⟩ := List.cons.inj cut'
      simp at nodup
    | cons z' a' =>
      obtain ⟨rfl, rest⟩ := List.cons.inj cut'
      obtain ⟨rfl, same⟩ := ih rest (List.nodup_cons.mp nodup).2
      exact ⟨rfl, same⟩

end SharedTree

/-! ## The sections of a run -/

namespace TreeThreads
variable {T : Type} {s s' : TreeThreads T} {t : T} {x : Nat} {phase : RemovePhase}

/-- What holds between the sections of a run. -/
structure Inv (s : TreeThreads T) : Prop where
  sound : s.tree.Sound
  targets : ∀ {t t' x phase phase'}, s.removing t = some (x, phase) →
    s.removing t' = some (x, phase') → t = t'
  phase : ∀ {t x phase}, s.removing t = some (x, phase) → s.tree.Phase x phase
  notRoot : ∀ {t x phase}, s.removing t = some (x, phase) → s.tree.root ≠ some x
  inTree : ∀ {t x phase}, s.removing t = some (x, phase) → phase.Attached → s.tree.InTree x

/-- A thread that removes a node has a root above it. -/
lemma Inv.exists_root (h : s.Inv) (removing : s.removing t = some (x, phase)) :
    ∃ r, s.tree.root = some r := by
  by_contra rootless
  have empty : s.tree.root = none := by
    by_contra hr
    exact rootless (Option.ne_none_iff_exists'.mp hr)
  by_cases attached : phase.Attached
  · obtain ⟨r, hr, -⟩ := h.inTree removing attached
    exact rootless ⟨r, hr⟩
  · have ph := h.phase removing
    cases phase with
    | free value => exact ph.2.1 (h.sound.empty empty x)
    | _ => exact attached trivial

/-- A section of one thread keeps the invariant, if it does for that thread. -/
lemma Inv.change {target : Option Nat} (h : s.Inv) (change : s.tree.Change s'.tree target)
    (notMine : ∀ {u x phase}, u ≠ t → s.removing u = some (x, phase) → target ≠ some x)
    (others : ∀ {u}, u ≠ t → s'.removing u = s.removing u)
    (stays : ∀ {u x phase}, u ≠ t → s.removing u = some (x, phase) → phase.Attached → s'.tree.InTree x)
    (mine : ∀ {x phase}, s'.removing t = some (x, phase) → s'.tree.Phase x phase ∧
      s'.tree.root ≠ some x ∧ (phase.Attached → s'.tree.InTree x) ∧
      ∀ {u phase}, u ≠ t → s.removing u ≠ some (x, phase)) : s'.Inv := by
  have phaseKept : ∀ {u x phase}, u ≠ t → s.removing u = some (x, phase) → s'.tree.Phase x phase := by
    intro u x phase other removing
    obtain ⟨r, root⟩ := h.exists_root removing
    have ph := h.phase removing
    by_cases attached : phase.Attached
    · exact SharedTree.phase_evolves h.sound change.sound change.evolves root attached
        (stays other removing attached) ph
    · cases phase with
      | free value =>
        obtain ⟨e, there, orphan⟩ := ph
        refine ⟨e, fun gone => notMine other removing (change.freed there gone), ?_⟩
        intro m child
        exact (change.born child).elim (orphan m) there
      | _ => exact absurd trivial attached
  have rootKept : ∀ {u x phase}, u ≠ t → s.removing u = some (x, phase) → s'.tree.root ≠ some x := by
    intro u x phase other removing
    obtain ⟨r, root⟩ := h.exists_root removing
    rw [change.evolves.root root, ← root]
    exact h.notRoot removing
  refine ⟨change.sound, ?_, ?_, ?_, ?_⟩
  · intro u u' x phase phase' hu hu'
    by_cases ht : u = t
    · by_cases ht' : u' = t
      · rw [ht, ht']
      · subst ht
        rw [others ht'] at hu'
        exact absurd hu' ((mine hu).2.2.2 ht')
    · by_cases ht' : u' = t
      · subst ht'
        rw [others ht] at hu
        exact absurd hu ((mine hu').2.2.2 ht)
      · rw [others ht] at hu
        rw [others ht'] at hu'
        exact h.targets hu hu'
  · intro u x phase hu
    by_cases ht : u = t
    · subst ht
      exact (mine hu).1
    · rw [others ht] at hu
      exact phaseKept ht hu
  · intro u x phase hu
    by_cases ht : u = t
    · subst ht
      exact (mine hu).2.1
    · rw [others ht] at hu
      exact rootKept ht hu
  · intro u x phase hu attached
    by_cases ht : u = t
    · subst ht
      exact (mine hu).2.2.1 attached
    · rw [others ht] at hu
      exact stays ht hu attached

/-- No other thread loses the node that it is about to remove. -/
def Stays (s s' : TreeThreads T) (t : T) : Prop :=
  ∀ {u x phase}, u ≠ t → s.removing u = some (x, phase) → phase.Attached → s'.tree.InTree x

/-- A section keeps the invariant and touches its own node only. -/
def Keeps (s s' : TreeThreads T) (t : T) : Prop :=
  s'.Inv ∧ ∀ action, TreeEvent.Exact ⟨s, t, action, (), s'⟩

/-- No other thread is about to remove a node below that of the thread. -/
def Clear (s : TreeThreads T) (t : T) : Prop :=
  ∀ {x phase u n phase'}, s.removing t = some (x, phase) → u ≠ t → s.removing u = some (n, phase') →
    phase'.Attached → ¬ TransGen s.tree.Child x n

/-- The other threads keep their nodes, where a section changes nothing above them. -/
lemma Inv.stays {target : Option Nat} (h : s.Inv) (change : s.tree.Change s'.tree target)
    (clear : ∀ {u n phase y}, u ≠ t → s.removing u = some (n, phase) → phase.Attached →
      target = some y → ¬ ReflTransGen s.tree.Child y n) : s.Stays s' t := by
  intro u n phase other removing attached
  exact change.inTree (h.inTree removing attached) fun _ own => clear other removing attached own

/-- A section that changes the tree for its own node only. -/
lemma exact_of_change (change : s.tree.Change s'.tree ((s.removing t).map Prod.fst))
    (returned : ∀ {n phase}, s.removing t = some (n, phase) → s'.removing t = none →
      s'.tree.nodes n = none ∧ ∀ m, ¬ s'.tree.Child m n) (action : TreeAction) :
    TreeEvent.Exact ⟨s, t, action, (), s'⟩ :=
  ⟨change.detached, change.freed, returned⟩

section Sections
variable [DecidableEq T] {tree' : SharedTree} {phase' : RemovePhase} {stack : List (Nat × Nat)}
  {m c : Nat} (h : s.Inv) (removing : s.removing t = some (x, phase))
include h removing

omit [DecidableEq T] in
/-- No two threads remove one node. -/
lemma Inv.other_target {u : T} {phase' : RemovePhase} (other : u ≠ t) :
    s.removing u ≠ some (x, phase') :=
  fun removing' => other (h.targets removing' removing)

/-- A thread goes on to its next section. -/
lemma goOn_keeps (change : s.tree.Change tree' (some x)) (root : tree'.root = s.tree.root)
    (phase : tree'.Phase x phase') (inTree : phase'.Attached → tree'.InTree x)
    (stays : s.Stays (s.goOn t x tree' phase') t) : s.Keeps (s.goOn t x tree' phase') t := by
  constructor
  · refine h.change (t := t) change ?_ ?_ stays ?_
    · intro u y ph other removing' e
      obtain rfl := Option.some_inj.mp e
      exact h.other_target removing other removing'
    · intro u other
      exact Function.update_of_ne other ..
    · intro y ph e
      simp only [goOn, Function.update_self, Option.some.injEq, Prod.mk.injEq] at e
      obtain ⟨rfl, rfl⟩ := e
      refine ⟨phase, root ▸ h.notRoot removing, inTree, fun other => h.other_target removing other⟩
  · apply exact_of_change
    · rw [removing]
      exact change
    · intro n ph _ returned
      simp [goOn] at returned

/-- The search goes on. -/
lemma search_keeps (attached : phase.Attached) (phase'' : s.tree.Phase x phase') :
    s.Keeps (s.goOn t x s.tree phase') t := by
  apply goOn_keeps h removing (h.sound.unchanged _) rfl phase''
  · intro _
    exact h.inTree removing attached
  · intro u n ph _ removing' attached'
    exact h.inTree removing' attached'

/-- A search that goes back to a caller has a caller to go back to. -/
lemma giveUp_keeps (attached : phase.Attached)
    (ahead : ∃ f ∈ stack, s.tree.Ahead x f.1 f.2) : s.Keeps (s.giveUp t x stack) t := by
  cases stack with
  | nil => simp at ahead
  | cons f stack =>
    apply search_keeps h removing attached
    obtain ⟨f', mem, ahead⟩ := ahead
    rcases List.mem_cons.mp mem with rfl | mem
    · exact .inl ahead
    · exact .inr ⟨f', mem, ahead⟩

/-- The last section of `gentree_remove`. -/
lemma free_keeps (orphan : ∀ m, ¬ s.tree.Child m x) :
    s.Keeps (s.finish t (s.tree.kfree x)) t := by
  have change := h.sound.kfree_change orphan (h.notRoot removing)
  have stays : s.Stays (s.finish t (s.tree.kfree x)) t := by
    apply h.stays change
    rintro u n ph y - removing' attached ⟨⟩
    exact h.sound.not_above orphan (h.notRoot removing) (h.inTree removing' attached)
  constructor
  · refine h.change (t := t) change ?_ ?_ stays ?_
    · intro u y ph other removing' e
      obtain rfl := Option.some_inj.mp e
      exact h.other_target removing other removing'
    · intro u other
      exact Function.update_of_ne other ..
    · intro y ph e
      simp [finish] at e
  · apply exact_of_change
    · rw [removing]
      exact change
    · intro n ph e _
      obtain rfl : x = n := by
        rw [show s.removing t = some (n, ph) from e] at removing
        exact (congrArg Prod.fst (Option.some_inj.mp removing)).symm
      refine ⟨by simp [finish, SharedTree.kfree], ?_⟩
      intro m child
      exact orphan m (SharedTree.kfree_child_iff.mp child).2

end Sections

/-- A node of a list cuts it. -/
lemma exists_cut {l : Contents} {c : Nat} (mem : c ∈ l.map Prod.fst) : ∃ a y b, l = a ++ (c, y) :: b := by
  obtain ⟨e, he, rfl⟩ := List.mem_map.mp mem
  obtain ⟨a, b, cut⟩ := List.append_of_mem he
  exact ⟨a, e.2, b, cut⟩

section Resume
variable [DecidableEq T] {g : TreeNode} {stack : List (Nat × Nat)} {m c : Nat} (h : s.Inv)
include h

/-- The search enters a node. -/
lemma enter_keeps (removing : s.removing t = some (x, .enter stack m)) (hg : s.tree.nodes m = some g) :
    ∃ s', s.resume t x (.enter stack m) = some s' ∧ s.Keeps s' t := by
  cases found : g.children.findIdx? (·.2 = some x) with
  | some index =>
    refine ⟨s.goOn t x s.tree (.indexed m index), by simp [resume, hg, found], ?_⟩
    exact search_keeps h removing trivial trivial
  | none =>
    refine ⟨s.goOn t x s.tree (.scan stack m), by simp [resume, hg, found], ?_⟩
    refine search_keeps h removing trivial ((h.phase removing).imp_left ?_)
    intro above
    obtain ⟨n, child, below⟩ := TransGen.head'_iff.mp above
    refine ⟨n, child, ?_⟩
    rcases reflTransGen_iff_eq_or_transGen.mp below with rfl | below
    · obtain ⟨g', hg', mem⟩ := child
      obtain rfl : g = g' := Option.some_inj.mp (hg.symm.trans hg')
      obtain ⟨e, he, value⟩ := List.mem_map.mp mem
      have absent := List.findIdx?_eq_none_iff.mp found e he
      simp [value] at absent
    · exact below

/-- The search has not found the node in a list of children. -/
lemma scan_keeps (removing : s.removing t = some (x, .scan stack m)) (hg : s.tree.nodes m = some g) :
    ∃ s', s.resume t x (.scan stack m) = some s' ∧ s.Keeps s' t := by
  have phase := h.phase removing
  cases children : g.children with
  | nil =>
    refine ⟨s.giveUp t x stack, by simp [resume, hg, children], giveUp_keeps h removing trivial ?_⟩
    rcases phase with ⟨n, ⟨g', hg', mem⟩, -⟩ | ahead
    · obtain rfl : g = g' := Option.some_inj.mp (hg.symm.trans hg')
      simp [children] at mem
    · exact ahead
  | cons e rest =>
    refine ⟨s.goOn t x s.tree (.descend stack m e.1), by simp [resume, hg, children], ?_⟩
    refine search_keeps h removing trivial (phase.imp_left ?_)
    rintro ⟨n, child, above⟩
    refine ⟨n, child, above, ?_⟩
    intro g' a y b hg' cut
    obtain rfl : g = g' := Option.some_inj.mp (hg.symm.trans hg')
    have first : g.children = [] ++ (e.1, e.2) :: rest := children
    obtain ⟨rfl, -⟩ := h.sound.cut_unique hg first cut
    simp

/-- The search goes down to a child. -/
lemma descend_keeps (removing : s.removing t = some (x, .descend stack m c))
    (hg : s.tree.nodes m = some g) (mem : c ∈ g.children.map Prod.fst) :
    ∃ s', s.resume t x (.descend stack m c) = some s' ∧ s.Keeps s' t := by
  obtain ⟨a, y, b, cut⟩ := exists_cut mem
  obtain ⟨n', rfl, -⟩ := h.sound.child hg (show (c, y) ∈ g.children by simp [cut])
  have found : g.children.find? (·.1 = c) = some (c, some n') := by
    have entries := h.sound.entries hg
    rw [cut, List.map_append, List.nodup_append] at entries
    rw [cut, List.find?_append, List.find?_eq_none.mpr]
    · simp
    · intro e he own
      exact entries.2.2 _ (List.mem_map_of_mem he) c (by simp) (of_decide_eq_true own)
  refine ⟨s.goOn t x s.tree (.enter ((m, c) :: stack) n'), by simp [resume, hg, found], ?_⟩
  apply search_keeps h removing trivial
  rcases h.phase removing with ⟨n, child, above, notBefore⟩ | ⟨f, hf, ahead⟩
  · by_cases own : n = n'
    · exact .inl (own ▸ above)
    · refine .inr ⟨(m, c), by simp, n, child, above, ?_⟩
      intro g' a' y' b' hg' cut'
      obtain rfl : g = g' := Option.some_inj.mp (hg.symm.trans hg')
      obtain ⟨-, rfl, -⟩ := h.sound.cut_unique hg cut cut'
      exact ⟨notBefore g a' _ b' hg cut', fun e => own (Option.some_inj.mp e).symm⟩
  · exact .inr ⟨f, by simp [hf], ahead⟩

/-- The search goes on to the next child. -/
lemma next_keeps (removing : s.removing t = some (x, .next stack m c))
    (hg : s.tree.nodes m = some g) (mem : c ∈ g.children.map Prod.fst) :
    ∃ s', s.resume t x (.next stack m c) = some s' ∧ s.Keeps s' t := by
  obtain ⟨a, y, b, cut⟩ := exists_cut mem
  have next : Contents.next g.children c = some (b.head?.map Prod.fst) := by
    have entries := h.sound.entries hg
    rw [cut, List.map_append, List.nodup_append] at entries
    have skipped : (a ++ (c, y) :: b).dropWhile (·.1 ≠ c) = (c, y) :: b := by
      rw [List.dropWhile_append_of_pos]
      · simp
      · intro e he
        have other : e.1 ≠ c := fun own => entries.2.2 _ (List.mem_map_of_mem he) c (by simp) own
        simpa using other
    rw [Contents.next, if_pos mem, cut, skipped]
    rfl
  have phase := h.phase removing
  cases b with
  | nil =>
    refine ⟨s.giveUp t x stack, by simp [resume, hg, next], giveUp_keeps h removing trivial ?_⟩
    rcases phase with ⟨n, ⟨g', hg', child⟩, -, behind⟩ | ahead
    · obtain rfl : g = g' := Option.some_inj.mp (hg.symm.trans hg')
      obtain ⟨notBefore, different⟩ := behind g a y [] hg cut
      rw [cut, List.map_append, List.mem_append] at child
      rcases child with child | child
      · exact absurd child notBefore
      · exact absurd (by simpa using child) different.symm
    · exact ahead
  | cons e rest =>
    refine ⟨s.goOn t x s.tree (.descend stack m e.1), by simp [resume, hg, next], ?_⟩
    refine search_keeps h removing trivial (phase.imp_left ?_)
    rintro ⟨n, child, above, behind⟩
    refine ⟨n, child, above, ?_⟩
    intro g' a' y' b' hg' cut'
    obtain rfl : g = g' := Option.some_inj.mp (hg.symm.trans hg')
    have here : g.children = (a ++ [(c, y)]) ++ (e.1, e.2) :: rest := by simp [cut]
    obtain ⟨rfl, -⟩ := h.sound.cut_unique hg here cut'
    obtain ⟨notBefore, different⟩ := behind g a y _ hg cut
    rw [List.map_append, List.mem_append]
    rintro (before | own)
    · exact notBefore before
    · exact different (by simpa [eq_comm] using own)

/-- The index still denotes the child. -/
lemma indexed_keeps {index : Nat} (removing : s.removing t = some (x, .indexed m index))
    (hg : s.tree.nodes m = some g) (here : (g.children[index]?).map Prod.snd = some (some x)) :
    ∃ s', s.resume t x (.indexed m index) = some s' ∧ s.Keeps s' t := by
  obtain ⟨e, found, value⟩ := Option.map_eq_some_iff.mp here
  refine ⟨s.goOn t x s.tree (.remove m e.1), by simp [resume, hg, found], ?_⟩
  apply search_keeps h removing trivial
  exact ⟨g, hg, value ▸ List.mem_of_getElem? found⟩

/-- The node leaves the list of its parent. -/
lemma detach_keeps {a b : Contents} {phase : RemovePhase} (removing : s.removing t = some (x, phase))
    (hg : s.tree.nodes m = some g) (cut : g.children = a ++ (c, some x) :: b) (clear : s.Clear t) :
    s.Keeps (s.goOn t x (s.tree.setChildren m g (a ++ b)) (.free (some x))) t := by
  obtain ⟨change, there, orphan⟩ := h.sound.detach_change hg cut
  refine goOn_keeps h removing change rfl ⟨rfl, there, orphan⟩ (fun attached => absurd attached id) ?_
  apply h.stays change
  rintro u n ph y other removing' attached ⟨⟩ above
  rcases reflTransGen_iff_eq_or_transGen.mp above with rfl | above
  · exact h.other_target removing other removing'
  · exact clear removing other removing' attached above

/-- The first section of `list_remove`, which detaches the child unless it is at an end. -/
lemma remove_keeps (removing : s.removing t = some (x, .remove m c))
    (clear : s.tree.Detaches (.remove m c) → s.Clear t) :
    ∃ s', s.resume t x (.remove m c) = some s' ∧ s.Keeps s' t := by
  obtain ⟨g, hg, mem⟩ := h.phase removing
  obtain ⟨a, b, cut⟩ := List.append_of_mem mem
  have locked := Contents.removeLocked_cases (cut ▸ h.sound.entries hg)
  rw [← cut] at locked
  have same : s.tree.setChildren m g g.children = s.tree := by
    simp [SharedTree.setChildren, ← hg]
  split_ifs at locked with first last
  · refine ⟨s.goOn t x s.tree (.rest m c (some x) .front), ?_, ?_⟩
    · simp [resume, hg, locked, same]
    · exact search_keeps h removing trivial ⟨⟨g, hg, mem⟩, rfl, by simp⟩
  · refine ⟨s.goOn t x s.tree (.rest m c (some x) .back), ?_, ?_⟩
    · simp [resume, hg, locked, same]
    · exact search_keeps h removing trivial ⟨⟨g, hg, mem⟩, rfl, by simp⟩
  · refine ⟨s.goOn t x (s.tree.setChildren m g (a ++ b)) (.free (some x)), ?_, ?_⟩
    · simp [resume, hg, locked]
    · apply detach_keeps h removing hg cut
      apply clear
      intro g' hg'
      obtain rfl : g = g' := Option.some_inj.mp (hg.symm.trans hg')
      obtain ⟨atFirst, atLast⟩ := Contents.ends_of_nodup (cut ▸ h.sound.entries hg)
      rw [cut]
      exact ⟨fun e => first (atFirst.mp e), fun e => last (atLast.mp e)⟩

/-- The second section, which detaches it from an end. -/
lemma rest_keeps {value : Option Nat} {r : RemoveRest}
    (removing : s.removing t = some (x, .rest m c value r))
    (settled : s.tree.Settled x (.rest m c value r)) (clear : s.Clear t) :
    ∃ s', s.resume t x (.rest m c value r) = some s' ∧ s.Keeps s' t := by
  obtain ⟨⟨g, hg, mem⟩, rfl, notDone⟩ := h.phase removing
  have entry : ∀ {e}, e ∈ g.children → e.1 = c → e = (c, some x) := by
    intro e he own
    exact List.inj_on_of_nodup_map (h.sound.entries hg) he mem own
  cases r with
  | done => exact absurd rfl notDone
  | front =>
    obtain ⟨g', hg', first⟩ := settled
    obtain rfl : g = g' := Option.some_inj.mp (hg.symm.trans hg')
    obtain ⟨e, head, own⟩ := Option.map_eq_some_iff.mp first
    obtain ⟨b, cut⟩ := List.head?_eq_some_iff.mp head
    obtain rfl := entry (by simp [cut]) own
    refine ⟨s.goOn t x (s.tree.setChildren m g ([] ++ b)) (.free (some x)), ?_, ?_⟩
    · simp [resume, hg, Contents.removeRest, cut]
    · exact detach_keeps h removing hg cut clear
  | back =>
    obtain ⟨g', hg', last⟩ := settled
    obtain rfl : g = g' := Option.some_inj.mp (hg.symm.trans hg')
    obtain ⟨e, final, own⟩ := Option.map_eq_some_iff.mp last
    obtain ⟨a, cut⟩ := List.getLast?_eq_some_iff.mp final
    obtain rfl := entry (by simp [cut]) own
    refine ⟨s.goOn t x (s.tree.setChildren m g (a ++ [])) (.free (some x)), ?_, ?_⟩
    · simp [resume, hg, Contents.removeRest, cut]
    · exact detach_keeps h removing hg cut clear

/-- Every section of `gentree_remove` that finds what it relies on does not fault, and keeps the
invariant. -/
lemma resume_keeps (removing : s.removing t = some (x, phase)) (settled : s.tree.Settled x phase)
    (clear : s.tree.Detaches phase → s.Clear t) :
    ∃ s', s.resume t x phase = some s' ∧ s.Keeps s' t := by
  cases phase with
  | enter stack m =>
    obtain ⟨g, hg⟩ := settled
    exact enter_keeps h removing hg
  | scan stack m =>
    obtain ⟨g, hg⟩ := settled
    exact scan_keeps h removing hg
  | descend stack m c =>
    obtain ⟨g, hg, mem⟩ := settled
    exact descend_keeps h removing hg mem
  | next stack m c =>
    obtain ⟨g, hg, mem⟩ := settled
    exact next_keeps h removing hg mem
  | indexed m index =>
    obtain ⟨g, hg, here⟩ := settled
    exact indexed_keeps h removing hg here
  | remove m c => exact remove_keeps h removing clear
  | rest m c value r => exact rest_keeps h removing settled (clear trivial)
  | free value =>
    obtain ⟨rfl, there, orphan⟩ := h.phase removing
    obtain ⟨g, hg⟩ := Option.ne_none_iff_exists'.mp there
    exact ⟨s.finish t (s.tree.kfree x), by simp [resume, hg], free_keeps h removing orphan⟩

end Resume

section Start
variable [DecidableEq T] (h : s.Inv) (idle : s.removing t = none)
include h idle

omit [DecidableEq T] in
/-- A section of a thread that removes no node. -/
lemma idle_keeps {tree' : SharedTree} (change : s.tree.Change tree' none) :
    s.Keeps ⟨tree', s.removing⟩ t := by
  have stays : s.Stays ⟨tree', s.removing⟩ t := by
    apply h.stays change
    rintro u n ph y - - - ⟨⟩
  constructor
  · refine h.change (t := t) change (by simp) (fun _ => rfl) stays ?_
    intro x phase removing
    rw [show s.removing t = some (x, phase) from removing] at idle
    cases idle
  · apply exact_of_change
    · rw [idle]
      exact change
    · intro n phase removing
      rw [removing] at idle
      cases idle

/-- `gentree_insert` is one section. -/
lemma insert_keeps {subroot value : Option Nat} {node c : Nat}
    (proper : s.Proper (.insert subroot value node c)) :
    ∃ s', s.step t (.insert subroot value node c) = some s' ∧ s.Keeps s' t := by
  obtain ⟨free, below⟩ := proper
  have inserted : ∃ tree', s.tree.insert subroot value node c = some tree' ∧
      s.tree.Change tree' none := by
    cases root : s.tree.root with
    | none => exact SharedTree.insert_empty value h.sound root subroot node c
    | some r =>
      obtain ⟨p, g, rfl, -, hg, new⟩ := below r root
      exact SharedTree.insert_below hg free h.sound root new
  obtain ⟨tree', done, change⟩ := inserted
  exact ⟨⟨tree', s.removing⟩, by simp [step, idle, done], idle_keeps h idle change⟩

/-- `gentree_remove` begins with its search. -/
lemma remove_starts {node : Nat} (proper : s.Proper (.remove node)) :
    ∃ s', s.step t (.remove node) = some s' ∧ s.Keeps s' t := by
  obtain ⟨⟨r, root, reached⟩, notRoot, notMine⟩ := proper
  have other : node ≠ r := by
    rintro rfl
    exact notRoot root
  refine ⟨s.goOn t node s.tree (.enter [] r), by simp [step, idle, root, other], ?_⟩
  have stays : s.Stays (s.goOn t node s.tree (.enter [] r)) t := by
    intro u n ph _ removing' attached'
    exact h.inTree removing' attached'
  have unchanged := h.sound.unchanged none
  constructor
  · refine h.change (t := t) unchanged (by simp) (fun other => Function.update_of_ne other ..) stays ?_
    intro x phase removing
    simp only [goOn, Function.update_self, Option.some.injEq, Prod.mk.injEq] at removing
    obtain ⟨rfl, rfl⟩ := removing
    refine ⟨.inl ?_, notRoot, fun _ => ⟨r, root, reached⟩, fun _ => notMine _ _⟩
    rcases reflTransGen_iff_eq_or_transGen.mp reached with rfl | above
    · exact absurd root notRoot
    · exact above
  · apply exact_of_change
    · rw [idle]
      exact unchanged
    · intro n phase removing
      rw [removing] at idle
      cases idle

end Start

/-- The next section of a thread does not fault, and keeps the invariant. -/
lemma step_keeps [DecidableEq T] {action : TreeAction} (h : s.Inv) (proper : s.Proper action)
    (turn : action = .resume ↔ s.removing t ≠ none) (steady : s.Steady t) :
    ∃ s', s.step t action = some s' ∧ s.Keeps s' t := by
  cases removing : s.removing t with
  | none =>
    cases action with
    | insert subroot value node c => exact insert_keeps h removing proper
    | remove node => exact remove_starts h removing proper
    | resume => exact absurd removing (turn.mp rfl)
  | some p =>
    obtain ⟨x, phase⟩ := p
    obtain rfl : action = .resume := turn.mpr (by simp [removing])
    have clear : s.tree.Detaches phase → s.Clear t := by
      intro detaches x' phase' u n ph removing' other target attached
      have same : phase = phase' := by
        rw [removing] at removing'
        exact (Prod.mk.inj (Option.some_inj.mp removing')).2
      exact steady.others removing' (same ▸ detaches) other target attached
    obtain ⟨s', done, keeps⟩ := resume_keeps h removing (steady.own removing) clear
    exact ⟨s', by simp [step, removing, done], keeps⟩

/-- A call is started by a thread that removes no node, and a later section is of one that does. -/
lemma turn_of_step [DecidableEq T] {action : TreeAction} (done : s.step t action = some s') :
    action = .resume ↔ s.removing t ≠ none := by
  cases removing : s.removing t <;> cases action <;> simp_all [step]

/-- Before the first call there is no tree. -/
def boot (T : Type) : TreeThreads T := ⟨⟨none, fun _ => none⟩, fun _ => none⟩

/-- The invariant holds of an empty tree. -/
lemma boot_inv (T : Type) : (boot T).Inv where
  sound := by
    constructor <;> simp [boot, SharedTree.Child]
  targets := by simp [boot]
  phase := by simp [boot]
  notRoot := by simp [boot]
  inTree := by simp [boot]

end TreeThreads

/-- In every run each section of `gentree_remove` that finds what it relies on touches its own node only,
which is detached and freed when the call returns, and no section faults. -/
theorem gentree_remove_exact {T : Type} [DecidableEq T] {events : List (TreeEvent T)}
    {s : TreeThreads T} (run : Run TreeThreads.runStep (TreeThreads.boot T) events s)
    (proper : ∀ e ∈ events, e.before.Proper e.action)
    (steady : ∀ e ∈ events, e.before.Steady e.thread) :
    (∀ e ∈ events, TreeEvent.Exact e) ∧
      ∀ t action, s.Proper action → (action = .resume ↔ s.removing t ≠ none) → s.Steady t →
        ∃ s', s.step t action = some s' := by
  have inv := run.invariant (I := TreeThreads.Inv) (P := TreeEvent.Exact) (TreeThreads.boot_inv T) (by
    intro e mem h done
    obtain ⟨s', done', rest⟩ := Option.map_eq_some_iff.mp done
    obtain rfl : s' = e.after := (Prod.mk.inj rest).2
    obtain ⟨after, again, inv, exact⟩ :=
      TreeThreads.step_keeps h (proper e mem) (TreeThreads.turn_of_step done') (steady e mem)
    obtain rfl : after = e.after := Option.some_inj.mp (again.symm.trans done')
    exact ⟨inv, exact e.action⟩)
  obtain ⟨inv, exact⟩ := inv
  refine ⟨exact, ?_⟩
  intro t action proper turn steady
  obtain ⟨s', done, -⟩ := TreeThreads.step_keeps inv proper turn steady
  exact ⟨s', done⟩

section Race

/-- A tree of two nodes, of which the one below the root is 32. -/
def twoNodes : SharedTree :=
  let nodes := Function.update (fun _ => none) 16 (some ⟨none, []⟩)
  SharedTree.setChildren ⟨some 16, Function.update nodes 32 (some ⟨none, []⟩)⟩ 16 ⟨none, []⟩
    [(48, some 32)]

/-- One thread is in `gentree_remove` for the node 32, the other one in no function. -/
def removing32 (tree : SharedTree) (phase : RemovePhase) : TreeThreads Bool :=
  ⟨tree, Function.update (fun _ => none) true (some (32, phase))⟩

/-- A section that goes on. -/
lemma removing32_runStep {tree tree' : SharedTree} {phase phase' : RemovePhase}
    (done : (removing32 tree phase).resume true 32 phase =
      some ((removing32 tree phase).goOn true 32 tree' phase')) :
    (removing32 tree phase).runStep true .resume = some ((), removing32 tree' phase') := by
  have step : (removing32 tree phase).step true .resume =
      some ((removing32 tree phase).goOn true 32 tree' phase') := done
  rw [TreeThreads.runStep, step]
  simp [removing32, TreeThreads.goOn]

/-- The other thread stays out of the tree, so that only the thread's own section can be disturbed. -/
lemma removing32_steady {tree : SharedTree} {phase : RemovePhase} (settled : tree.Settled 32 phase) :
    (removing32 tree phase).Steady true := by
  constructor
  · intro x phase' removing
    obtain ⟨rfl, rfl⟩ := Prod.mk.inj (Option.some_inj.mp removing)
    exact settled
  · intro x phase' u n phase'' _ _ other removing
    obtain rfl : u = false := by simpa using other
    cases removing

/-- A thread without a call cannot be disturbed. -/
lemma idle_steady {tree : SharedTree} {t : Bool} : TreeThreads.Steady ⟨tree, fun _ => none⟩ t :=
  ⟨nofun, nofun⟩

/-- The sections until the search has found the node. -/
def foundEvents : List (TreeEvent Bool) :=
  let rooted := Function.update (fun _ => none) 16 (some ⟨none, []⟩)
  [⟨TreeThreads.boot Bool, true, .insert none none 16 0, (), ⟨⟨some 16, rooted⟩, fun _ => none⟩⟩,
    ⟨⟨⟨some 16, rooted⟩, fun _ => none⟩, true, .insert (some 16) none 32 48, (),
      ⟨twoNodes, fun _ => none⟩⟩,
    ⟨⟨twoNodes, fun _ => none⟩, true, .remove 32, (), removing32 twoNodes (.enter [] 16)⟩,
    ⟨removing32 twoNodes (.enter [] 16), true, .resume, (), removing32 twoNodes (.indexed 16 0)⟩]

/-- The sections are a run. -/
lemma found_run :
    Run TreeThreads.runStep (TreeThreads.boot Bool) foundEvents (removing32 twoNodes (.indexed 16 0)) := by
  have found : (removing32 twoNodes (.enter [] 16)).runStep true .resume =
      some ((), removing32 twoNodes (.indexed 16 0)) := removing32_runStep rfl
  have started : TreeThreads.runStep ⟨twoNodes, fun _ => none⟩ true (.remove 32) =
      some ((), removing32 twoNodes (.enter [] 16)) := rfl
  exact .snoc (e := ⟨_, _, _, (), _⟩) (.snoc (e := ⟨_, _, _, (), _⟩) (.snoc (e := ⟨_, _, _, (), _⟩)
    (.snoc (e := ⟨_, _, _, (), _⟩) .nil rfl) rfl) started) found

/-- Their calls are proper. -/
lemma found_proper : ∀ e ∈ foundEvents, e.before.Proper e.action := by
  simp only [foundEvents, List.forall_mem_cons, List.not_mem_nil, false_imp_iff, implies_true, and_true]
  refine ⟨⟨rfl, nofun⟩, ⟨rfl, ?_⟩, ⟨?_, by simp [twoNodes, SharedTree.setChildren], nofun⟩, trivial⟩
  · rintro r ⟨⟩
    exact ⟨16, _, rfl, ⟨16, rfl, .refl⟩, rfl, by simp⟩
  · exact ⟨16, rfl, .single ⟨_, rfl, by simp⟩⟩

/-- A later section of the thread. -/
def resumed (tree : SharedTree) (phase : RemovePhase) (tree' : SharedTree) (phase' : RemovePhase) :
    TreeEvent Bool :=
  ⟨removing32 tree phase, true, .resume, (), removing32 tree' phase'⟩

/-- The last one. -/
def returned (tree : SharedTree) (freed : Nat) : TreeEvent Bool :=
  ⟨removing32 tree (.free (some freed)), true, .resume, (),
    (removing32 tree (.free (some freed))).finish true (tree.kfree freed)⟩

/-- A tree with one more node, below another one, as `gentree_insert` makes it. -/
def insertedBelow (tree : SharedTree) (p : Nat) (g : TreeNode) (node child : Nat) : SharedTree :=
  SharedTree.setChildren ⟨tree.root, Function.update tree.nodes node (some ⟨none, []⟩)⟩ p g
    ((child, some node) :: g.children)

/-- The node 64 before the node 32. -/
def threeNodes : SharedTree := insertedBelow twoNodes 16 ⟨none, [(48, some 32)]⟩ 64 80

/-- The node 128 below the node 64. -/
def fourNodes : SharedTree := insertedBelow threeNodes 64 ⟨none, []⟩ 128 144

/-- The node 160 there as well. -/
def fiveNodes : SharedTree := insertedBelow fourNodes 64 ⟨none, [(144, some 128)]⟩ 160 176

/-- The other thread has no section that could be disturbed. -/
lemma removing32_steady_other {tree : SharedTree} {phase : RemovePhase} :
    (removing32 tree phase).Steady false := ⟨nofun, nofun⟩

/-- The other thread inserts a node below the node 64. -/
def elsewhere (tree : SharedTree) (phase : RemovePhase) (node child : Nat) (tree' : SharedTree) :
    TreeEvent Bool :=
  ⟨removing32 tree phase, false, .insert (some 64) none node child, (), removing32 tree' phase⟩

/-- A thread removes the node 32, the second child of the root, and between its sections the other thread
inserts two nodes below the first one. -/
theorem gentree_remove_exact_elsewhere :
    ∃ (events : List (TreeEvent Bool)) (s : TreeThreads Bool),
      Run TreeThreads.runStep (TreeThreads.boot Bool) events s ∧
        (∀ e ∈ events, e.before.Proper e.action) ∧ (∀ e ∈ events, e.before.Steady e.thread) ∧
        (∀ e ∈ events, TreeEvent.Exact e) ∧ s.removing true = none ∧ s.tree.nodes 32 = none ∧
        s.tree.Child 16 64 ∧ s.tree.Child 64 128 ∧ s.tree.Child 64 160 := by
  let g : TreeNode := ⟨none, [(80, some 64), (48, some 32)]⟩
  let detached := fiveNodes.setChildren 16 g [(80, some 64)]
  have same : fiveNodes.setChildren 16 g g.children = fiveNodes := by
    have root : fiveNodes.nodes 16 = some g := rfl
    simp only [SharedTree.setChildren]
    rw [← root, Function.update_eq_self]
  have locked : (removing32 fiveNodes (.remove 16 48)).resume true 32 (.remove 16 48) =
      some ((removing32 fiveNodes (.remove 16 48)).goOn true 32 (fiveNodes.setChildren 16 g g.children)
        (.rest 16 48 (some 32) .back)) := rfl
  rw [same] at locked
  let rooted := Function.update (fun _ => none) 16 (some (⟨none, []⟩ : TreeNode))
  let first : TreeEvent Bool :=
    ⟨TreeThreads.boot Bool, true, .insert none none 16 0, (), ⟨⟨some 16, rooted⟩, fun _ => none⟩⟩
  let events : List (TreeEvent Bool) :=
    [first] ++
    [⟨⟨⟨some 16, rooted⟩, fun _ => none⟩, true, .insert (some 16) none 32 48, (),
      ⟨twoNodes, fun _ => none⟩⟩] ++
    [⟨⟨twoNodes, fun _ => none⟩, false, .insert (some 16) none 64 80, (), ⟨threeNodes, fun _ => none⟩⟩] ++
    [⟨⟨threeNodes, fun _ => none⟩, true, .remove 32, (), removing32 threeNodes (.enter [] 16)⟩] ++
    [resumed threeNodes (.enter [] 16) threeNodes (.indexed 16 1)] ++
    [elsewhere threeNodes (.indexed 16 1) 128 144 fourNodes] ++
    [resumed fourNodes (.indexed 16 1) fourNodes (.remove 16 48)] ++
    [elsewhere fourNodes (.remove 16 48) 160 176 fiveNodes] ++
    [resumed fiveNodes (.remove 16 48) fiveNodes (.rest 16 48 (some 32) .back)] ++
    [resumed fiveNodes (.rest 16 48 (some 32) .back) detached (.free (some 32))] ++
    [returned detached 32]
  have started : TreeThreads.runStep ⟨threeNodes, fun _ => none⟩ true (.remove 32) =
      some ((), removing32 threeNodes (.enter [] 16)) := rfl
  have rootRun : Run TreeThreads.runStep (TreeThreads.boot Bool) [first] first.after :=
    .snoc (e := first) .nil rfl
  have run : Run TreeThreads.runStep (TreeThreads.boot Bool) events (returned detached 32).after := by
    refine .snoc (.snoc (.snoc (.snoc (.snoc (.snoc (.snoc (.snoc (.snoc (.snoc rootRun
      rfl) rfl) started) (removing32_runStep rfl)) rfl) (removing32_runStep rfl)) rfl)
      (removing32_runStep locked)) (removing32_runStep rfl)) rfl
  have child : threeNodes.Child 16 64 := ⟨_, rfl, by simp⟩
  have child' : fourNodes.Child 16 64 := ⟨_, rfl, by simp⟩
  have proper : ∀ e ∈ events, e.before.Proper e.action := by
    simp only [events, List.forall_mem_append, List.forall_mem_singleton]
    refine ⟨⟨⟨⟨⟨⟨⟨⟨⟨⟨⟨rfl, nofun⟩, rfl, ?_⟩, rfl, ?_⟩, ?_, ?_, nofun⟩, trivial⟩, rfl, ?_⟩, trivial⟩, rfl,
      ?_⟩, trivial⟩, trivial⟩, trivial⟩
    · rintro r ⟨⟩
      exact ⟨16, _, rfl, ⟨16, rfl, .refl⟩, rfl, by simp⟩
    · rintro r ⟨⟩
      exact ⟨16, _, rfl, ⟨16, rfl, .refl⟩, rfl, by simp⟩
    · exact ⟨16, rfl, .single ⟨_, rfl, by simp⟩⟩
    · decide
    · rintro r ⟨⟩
      exact ⟨64, _, rfl, ⟨16, rfl, .single child⟩, rfl, by simp⟩
    · rintro r ⟨⟩
      exact ⟨64, _, rfl, ⟨16, rfl, .single child'⟩, rfl, by simp⟩
  have steady : ∀ e ∈ events, e.before.Steady e.thread := by
    simp only [events, List.forall_mem_append, List.forall_mem_singleton]
    refine ⟨⟨⟨⟨⟨⟨⟨⟨⟨⟨idle_steady, idle_steady⟩, idle_steady⟩, idle_steady⟩, ?_⟩,
      removing32_steady_other⟩, ?_⟩, removing32_steady_other⟩, ?_⟩, ?_⟩, ?_⟩
    · exact removing32_steady ⟨g, rfl⟩
    · exact removing32_steady ⟨g, rfl, rfl⟩
    · exact removing32_steady trivial
    · exact removing32_steady ⟨g, rfl, rfl⟩
    · exact removing32_steady trivial
  exact ⟨events, _, run, proper, steady, (gentree_remove_exact run proper steady).1, rfl, rfl,
    ⟨_, rfl, by simp⟩, ⟨_, rfl, by simp⟩, ⟨_, rfl, by simp⟩⟩

/-- Another thread inserts the node 64 below the root when the search has found the node 32 as the first
child of the root. It is the new node that is detached and freed. -/
theorem gentree_remove_takes_inserted :
    ∃ (events : List (TreeEvent Bool)) (s : TreeThreads Bool),
      Run TreeThreads.runStep (TreeThreads.boot Bool) events s ∧
        (∀ e ∈ events, e.before.Proper e.action) ∧ s.removing true = none ∧
        s.tree.nodes 64 = none ∧ s.tree.Child 16 32 ∧ ¬ ∀ e ∈ events, TreeEvent.Exact e := by
  let g : TreeNode := ⟨none, [(80, some 64), (48, some 32)]⟩
  let detached := threeNodes.setChildren 16 g [(48, some 32)]
  have same : threeNodes.setChildren 16 g g.children = threeNodes := by
    simp [SharedTree.setChildren, threeNodes, insertedBelow, g]
  have locked : (removing32 threeNodes (.remove 16 80)).resume true 32 (.remove 16 80) =
      some ((removing32 threeNodes (.remove 16 80)).goOn true 32 (threeNodes.setChildren 16 g g.children)
        (.rest 16 80 (some 64) .front)) := rfl
  rw [same] at locked
  let wrong := resumed threeNodes (.rest 16 80 (some 64) .front) detached (.free (some 64))
  let events := foundEvents ++
    [⟨removing32 twoNodes (.indexed 16 0), false, .insert (some 16) none 64 80, (),
      removing32 threeNodes (.indexed 16 0)⟩] ++
    [resumed threeNodes (.indexed 16 0) threeNodes (.remove 16 80)] ++
    [resumed threeNodes (.remove 16 80) threeNodes (.rest 16 80 (some 64) .front)] ++ [wrong] ++
    [returned detached 64]
  have run : Run TreeThreads.runStep (TreeThreads.boot Bool) events (returned detached 64).after :=
    ((((found_run.snoc rfl).snoc (removing32_runStep rfl)).snoc (removing32_runStep locked)).snoc
      (removing32_runStep rfl)).snoc rfl
  refine ⟨events, _, run, ?_, rfl, rfl, ⟨_, rfl, by simp⟩, ?_⟩
  · simp only [events, List.forall_mem_append, List.forall_mem_singleton]
    refine ⟨⟨⟨⟨⟨found_proper, rfl, ?_⟩, trivial⟩, trivial⟩, trivial⟩, trivial⟩
    rintro r ⟨⟩
    exact ⟨16, _, rfl, ⟨16, rfl, .refl⟩, rfl, by simp⟩
  · intro exact
    have before : threeNodes.Child 16 64 := ⟨g, rfl, by simp [g]⟩
    have after : ¬ detached.Child 16 64 := by
      rintro ⟨g', hg', mem⟩
      cases hg'
      simp at mem
    have target := (exact wrong (by simp [events])).detached before (by nofun) after
    cases target

end Race

end WivOS.Utils
