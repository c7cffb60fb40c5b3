import WivOS.Fs.Vfs

/-!
# The tree of mount points

What the `gentree` of the entries stands for: the entries are reached from the root by lists of names
(`reach`), and siblings have different names (`Trie`). Inserting an entry adds one list of names, and
mounting a node changes the node of one; `mountAt`, the walk of `vfs_mount` over the names of a path, is
described by what every list of names reaches afterwards.
-/

namespace WivOS.Fs
open WivOS.Utils

variable {N : Type}

/-- The entries. -/
abbrev Entries (N : Type) := Gentree (VfsEntry N)

namespace Entries

/-- The name of an entry, with its terminator. -/
def nameOf (tree : Entries N) (m : Nat) : Option Bytes := (tree.nodes m).map (·.value.name)

/-- The child of an entry with a name. -/
def lookup (tree : Entries N) (n : Nat) (c : Bytes) : Option Nat :=
  (tree.nodes n).bind fun entry => entry.children.find? fun m => nameOf tree m = some (c ++ [0])

/-- The entry below another that a list of names leads to. -/
def reach (tree : Entries N) : Nat → List Bytes → Option Nat
  | n, [] => some n
  | n, c :: cs => (lookup tree n c).bind fun m => reach tree m cs

/-- The node of the entry that a list of names leads to, if there is such an entry. -/
def nodeAt (tree : Entries N) (p : List Bytes) : Option (Option N) :=
  tree.root.bind fun r => (reach tree r p).bind fun n => (tree.nodes n).map (·.value.node)

/-- Siblings have different names. -/
structure Trie (tree : Entries N) : Prop where
  grown : tree.Grown
  root : ∃ r, tree.root = some r
  names : ∀ {n g}, tree.nodes n = some g → ∃ c, 0 ∉ c ∧ g.value.name = c ++ [0]
  distinct : ∀ {n m m'}, tree.Child n m → tree.Child n m' → nameOf tree m = nameOf tree m' → m = m'

section Trie
variable {tree : Entries N} {n m r : Nat} {c d : Bytes} {p p' cs : List Bytes}

/-- The search finds the child of that name. -/
lemma Trie.lookup_eq_some (h : Trie tree) :
    lookup tree n c = some m ↔ tree.Child n m ∧ nameOf tree m = some (c ++ [0]) := by
  unfold lookup
  constructor
  · intro hl
    obtain ⟨g, hg, hf⟩ := Option.bind_eq_some_iff.mp hl
    have hname := List.find?_some hf
    exact ⟨⟨g, hg, List.mem_of_find?_eq_some hf⟩, by simpa using hname⟩
  · rintro ⟨⟨g, hg, hm⟩, hname⟩
    rw [hg, Option.bind_some]
    cases hf : g.children.find? fun m => nameOf tree m = some (c ++ [0]) with
    | none =>
      have := List.find?_eq_none.mp hf m hm
      simp [hname] at this
    | some m' =>
      have hname' := List.find?_some hf
      simp only [decide_eq_true_eq] at hname'
      have same := h.distinct ⟨g, hg, hm⟩ ⟨g, hg, List.mem_of_find?_eq_some hf⟩ (hname.trans hname'.symm)
      rw [same]

/-- A path is followed part after part. -/
lemma reach_append : reach tree n (p ++ cs) = (reach tree n p).bind fun m => reach tree m cs := by
  induction p generalizing n with
  | nil => simp [reach]
  | cons c p ih =>
    simp only [List.cons_append, reach, Option.bind_assoc]
    congr 1
    funext m
    exact ih

/-- Its last component is looked up last. -/
lemma reach_snoc : reach tree n (p ++ [c]) = (reach tree n p).bind fun m => lookup tree m c := by
  rw [reach_append]
  simp [reach]

/-- The entry it reaches is a child of that name. -/
lemma Trie.reach_snoc_some (h : Trie tree) :
    reach tree n (p ++ [c]) = some m ↔
      ∃ m', reach tree n p = some m' ∧ tree.Child m' m ∧ nameOf tree m = some (c ++ [0]) := by
  rw [reach_snoc, Option.bind_eq_some_iff]
  simp only [h.lookup_eq_some]

/-- An entry is reached by one list of names. -/
lemma Trie.reach_inj (h : Trie tree) (hr : tree.root = some r) (hp : reach tree r p = some n)
    (hp' : reach tree r p' = some n) : p' = p := by
  have orphan := (h.grown.root hr).2
  induction p using List.reverseRecOn generalizing p' n with
  | nil =>
    simp only [reach, Option.some.injEq] at hp
    subst hp
    induction p' using List.reverseRecOn with
    | nil => rfl
    | append_singleton p' c _ =>
      obtain ⟨m', _, hc, _⟩ := h.reach_snoc_some.mp hp'
      exact absurd hc (orphan m')
  | append_singleton p c ih =>
    obtain ⟨m₁, hp₁, hc₁, hn₁⟩ := h.reach_snoc_some.mp hp
    induction p' using List.reverseRecOn with
    | nil =>
      simp only [reach, Option.some.injEq] at hp'
      subst hp'
      exact absurd hc₁ (orphan m₁)
    | append_singleton p' c' _ =>
      obtain ⟨m₂, hp₂, hc₂, hn₂⟩ := h.reach_snoc_some.mp hp'
      have same := h.grown.parent hc₁ hc₂
      subst same
      rw [hn₁, Option.some.injEq] at hn₂
      rw [ih hp₁ hp₂, List.append_cancel_right hn₂]

/-- Entries that are reached were created. -/
lemma Trie.reach_node (h : Trie tree) (hr : tree.root = some r) (hp : reach tree r p = some n) :
    ∃ g, tree.nodes n = some g := by
  induction p using List.reverseRecOn with
  | nil =>
    simp only [reach, Option.some.injEq] at hp
    exact hp ▸ (h.grown.root hr).1
  | append_singleton p c _ =>
    obtain ⟨_, _, hc, _⟩ := h.reach_snoc_some.mp hp
    exact (h.grown.child hc).2

end Trie

section Insert
variable {tree : Entries N} {n r : Nat} {c : Bytes} {g : GentreeNode (VfsEntry N)} {q : List Bytes}

/-- The entries with one more, below `n`. -/
def insertEntry (tree : Entries N) (n : Nat) (g : GentreeNode (VfsEntry N)) (c : Bytes) : Entries N :=
  tree.insertChild n g ⟨c ++ [0], none⟩

/-- Nothing is stored at the next address. -/
lemma Trie.nodes_next (h : Trie tree) : tree.nodes tree.next = none := by
  cases e : tree.nodes tree.next with
  | none => rfl
  | some g => exact absurd (h.grown.bound e) (Nat.lt_irrefl _)

/-- No child is there. -/
lemma Trie.ne_next {m m' : Nat} (h : Trie tree) (hc : tree.Child m m') : m' ≠ tree.next := by
  rintro rfl
  exact h.grown.not_child_next m hc

/-- Entries that are reached are not the next one. -/
lemma Trie.reach_ne_next {m : Nat} {p : List Bytes} (h : Trie tree) (hr : tree.root = some r)
    (hm : reach tree r p = some m) : m ≠ tree.next := by
  rintro rfl
  obtain ⟨g', hg'⟩ := h.reach_node hr hm
  rw [h.nodes_next] at hg'
  cases hg'

/-- A new entry has its name, and the others keep theirs. -/
lemma insertChild_nameOf (h : tree.Grown) (hn : tree.nodes n = some g) (value : VfsEntry N) (m : Nat) :
    nameOf (tree.insertChild n g value) m =
      if m = tree.next then some value.name else nameOf tree m := by
  have lt := h.bound hn
  unfold nameOf
  rw [Gentree.insertChild_nodes]
  by_cases hm : m = n
  · subst hm
    rw [if_pos rfl, if_neg (by omega), hn]
    rfl
  · rw [if_neg hm]
    split
    · rfl
    · rfl

/-- The same for an entry of a path. -/
lemma insertEntry_nameOf (h : Trie tree) (hn : tree.nodes n = some g) (m : Nat) :
    nameOf (insertEntry tree n g c) m = if m = tree.next then some (c ++ [0]) else nameOf tree m :=
  insertChild_nameOf h.grown hn ⟨c ++ [0], none⟩ m

/-- The names stay distinct if the entry had no child of that name. -/
lemma Trie.insertEntry (h : Trie tree) (hn : tree.nodes n = some g) (h0 : 0 ∉ c)
    (free : lookup tree n c = none) : Trie (insertEntry tree n g c) := by
  have child := Gentree.insertChild_child h.grown hn ⟨c ++ [0], none⟩
  have name := insertEntry_nameOf (c := c) h hn
  refine ⟨h.grown.insertChild hn, h.root, ?_, ?_⟩
  · intro m g' hm
    unfold Entries.insertEntry at hm
    rw [Gentree.insertChild_nodes] at hm
    split at hm
    · cases hm
      have name := h.names hn
      exact name
    · split at hm
      · cases hm
        exact ⟨c, h0, rfl⟩
      · exact h.names hm
  · -- a child of the same name as the new one would have been found
    have clash : ∀ {m m'}, tree.Child m m' → m = n → nameOf tree m' = some (c ++ [0]) → False := by
      rintro m m' hc rfl hname
      have := h.lookup_eq_some.mpr ⟨hc, hname⟩
      rw [free] at this
      cases this
    intro m₀ m m' hc hc' e
    rw [name, name] at e
    obtain hc | ⟨rfl, rfl⟩ := (child m₀ m).mp hc
    · obtain hc' | ⟨e₀, rfl⟩ := (child m₀ m').mp hc'
      · rw [if_neg (h.ne_next hc), if_neg (h.ne_next hc')] at e
        exact h.distinct hc hc' e
      · rw [if_neg (h.ne_next hc), if_pos rfl] at e
        exact (clash hc e₀ e).elim
    · obtain hc' | ⟨_, rfl⟩ := (child m₀ m').mp hc'
      · rw [if_pos rfl, if_neg (h.ne_next hc')] at e
        exact (clash hc' rfl e.symm).elim
      · rfl

/-- It is found below its parent, and has no children. -/
lemma insertEntry_lookup (h : Trie tree) (hn : tree.nodes n = some g) (h0 : 0 ∉ c)
    (free : lookup tree n c = none) (m : Nat) (d : Bytes) :
    lookup (insertEntry tree n g c) m d =
      if m = n ∧ d = c then some tree.next else if m = tree.next then none else lookup tree m d := by
  have lt := h.grown.bound hn
  have trie := h.insertEntry hn h0 free
  have child := Gentree.insertChild_child h.grown hn ⟨c ++ [0], none⟩
  have name := insertEntry_nameOf (c := c) h hn
  ext m'
  rw [trie.lookup_eq_some, name]
  have hchild : (insertEntry tree n g c).Child m m' ↔ tree.Child m m' ∨ m = n ∧ m' = tree.next :=
    child m m'
  rw [hchild]
  by_cases e : m = n ∧ d = c
  · -- the new entry, and no other
    rw [if_pos e]
    obtain ⟨rfl, rfl⟩ := e
    constructor
    · rintro ⟨hc | ⟨_, rfl⟩, hname⟩
      · have hne := h.ne_next hc
        rw [if_neg hne] at hname
        have := h.lookup_eq_some.mpr ⟨hc, hname⟩
        rw [free] at this
        cases this
      · rfl
    · intro e
      rw [Option.some.injEq] at e
      exact ⟨.inr ⟨rfl, e.symm⟩, if_pos e.symm⟩
  · rw [if_neg e]
    by_cases fresh : m = tree.next
    · -- the new entry has no children
      rw [if_pos fresh]
      subst fresh
      simp only [reduceCtorEq, iff_false]
      rintro ⟨⟨g', hg', _⟩ | ⟨e, _⟩, _⟩
      · rw [h.nodes_next] at hg'
        cases hg'
      · omega
    · rw [if_neg fresh, h.lookup_eq_some]
      constructor
      · rintro ⟨hc | ⟨hm, hm'⟩, hname⟩
        · rw [if_neg (h.ne_next hc)] at hname
          exact ⟨hc, hname⟩
        · rw [if_pos hm', Option.some.injEq] at hname
          exact absurd ⟨hm, (List.append_cancel_right hname).symm⟩ e
      · rintro ⟨hc, hname⟩
        exact ⟨.inl hc, by rwa [if_neg (h.ne_next hc)]⟩

/-- The new entry is reached by one list of names more. -/
lemma insertEntry_reach (h : Trie tree) (hr : tree.root = some r) (hq : reach tree r q = some n)
    (hn : tree.nodes n = some g) (h0 : 0 ∉ c) (free : lookup tree n c = none) (p : List Bytes) :
    reach (insertEntry tree n g c) r p = if p = q ++ [c] then some tree.next else reach tree r p := by
  have none : reach tree r (q ++ [c]) = none := by
    rw [reach_snoc, hq, Option.bind_some, free]
  induction p using List.reverseRecOn with
  | nil => simp [reach]
  | append_singleton p d ih =>
    rw [reach_snoc, reach_snoc, ih]
    by_cases hp : p = q ++ [c]
    · rw [if_pos hp, Option.bind_some, insertEntry_lookup h hn h0 free, hp, none]
      have lt := h.grown.bound hn
      rw [if_neg (by omega), if_pos rfl, if_neg]
      · rfl
      · intro e
        have := congrArg List.length e
        simp at this
    · rw [if_neg hp]
      cases hm : reach tree r p with
      | none =>
        have hne : p ++ [d] ≠ q ++ [c] := by
          intro e
          obtain ⟨rfl, _⟩ := List.append_inj' e rfl
          rw [hq] at hm
          cases hm
        simp [hne]
      | some m =>
        rw [Option.bind_some, Option.bind_some, insertEntry_lookup h hn h0 free]
        rw [if_neg (h.reach_ne_next hr hm)]
        have same : m = n ∧ d = c ↔ p ++ [d] = q ++ [c] := by
          constructor
          · rintro ⟨rfl, rfl⟩
            rw [h.reach_inj hr hq hm]
          · intro e
            obtain ⟨rfl, e⟩ := List.append_inj' e rfl
            rw [hq, Option.some.injEq] at hm
            exact ⟨hm.symm, by simpa using e⟩
        simp only [same]

/-- The new entry has no node, the others have theirs. -/
lemma insertEntry_nodeAt (h : Trie tree) (hr : tree.root = some r) (hq : reach tree r q = some n)
    (hn : tree.nodes n = some g) (h0 : 0 ∉ c) (free : lookup tree n c = none) (p : List Bytes) :
    nodeAt (insertEntry tree n g c) p = if p = q ++ [c] then some none else nodeAt tree p := by
  have lt := h.grown.bound hn
  unfold nodeAt
  rw [show (insertEntry tree n g c).root = tree.root from rfl, hr, Option.bind_some, Option.bind_some,
    insertEntry_reach h hr hq hn h0 free]
  have nodes : ∀ m, (tree.insertChild n g ⟨c ++ [0], none⟩).nodes m = _ :=
    Gentree.insertChild_nodes
  split
  · rw [Option.bind_some]
    unfold insertEntry
    rw [nodes, if_neg (by omega), if_pos rfl]
    rfl
  · cases hm : reach tree r p with
    | none => rfl
    | some m =>
      rw [Option.bind_some, Option.bind_some]
      unfold insertEntry
      rw [nodes, if_neg (h.reach_ne_next hr hm)]
      split
      · rename_i e
        rw [e, hn]
        rfl
      · rfl

end Insert

section Mount
variable {tree tree' : Entries N} {n r : Nat} {g : GentreeNode (VfsEntry N)} {p q : List Bytes} {nd : N}

/-- The entries with another node for `n`. -/
def setNode (tree : Entries N) (n : Nat) (g : GentreeNode (VfsEntry N)) (nd : N) : Entries N :=
  { tree with nodes := Function.update tree.nodes n (some { g with value.node := some nd }) }

/-- Setting a node changes the value of its entry. -/
lemma setNode_nodes (m : Nat) :
    (setNode tree n g nd).nodes m = if m = n then some { g with value.node := some nd } else tree.nodes m :=
  Function.update_apply ..

/-- It changes no names. -/
lemma setNode_nameOf (hn : tree.nodes n = some g) : nameOf (setNode tree n g nd) = nameOf tree := by
  funext m
  unfold nameOf
  rw [setNode_nodes]
  split
  · rename_i e
    rw [e, hn]
    rfl
  · rfl

/-- It changes no lists of children. -/
lemma setNode_children (hn : tree.nodes n = some g) (m : Nat) :
    ((setNode tree n g nd).nodes m).map GentreeNode.children = (tree.nodes m).map GentreeNode.children := by
  rw [setNode_nodes]
  split
  · rename_i e
    rw [e, hn]
    rfl
  · rfl

/-- No child is added or lost. -/
lemma setNode_child (hn : tree.nodes n = some g) (m m' : Nat) :
    (setNode tree n g nd).Child m m' ↔ tree.Child m m' := by
  unfold Gentree.Child
  rw [setNode_nodes]
  split
  · rename_i e
    rw [e, hn]
    simp
  · rfl

/-- The tree stays well formed. -/
lemma Trie.setNode (h : Trie tree) (hn : tree.nodes n = some g) : Trie (setNode tree n g nd) := by
  refine ⟨h.grown.congr rfl rfl (setNode_children hn), h.root, ?_, ?_⟩
  · intro m g' hm
    rw [setNode_nodes] at hm
    split at hm
    · cases hm
      have name := h.names hn
      exact name
    · exact h.names hm
  · intro m₀ m m' hc hc' e
    rw [setNode_child hn] at hc hc'
    rw [setNode_nameOf hn] at e
    exact h.distinct hc hc' e

/-- Every path reaches what it did. -/
lemma setNode_reach (h : Trie tree) (hn : tree.nodes n = some g) (m : Nat) (p : List Bytes) :
    reach (setNode tree n g nd) m p = reach tree m p := by
  have lookup_eq : ∀ m c, lookup (setNode tree n g nd) m c = lookup tree m c := by
    intro m c
    ext m'
    rw [(h.setNode hn).lookup_eq_some, h.lookup_eq_some, setNode_child hn, setNode_nameOf hn]
  induction p generalizing m with
  | nil => rfl
  | cons c p ih =>
    simp only [reach, lookup_eq]
    congr 1
    funext m'
    exact ih m'

/-- One entry has the node, the others have theirs. -/
lemma setNode_nodeAt (h : Trie tree) (hr : tree.root = some r) (hq : reach tree r q = some n)
    (hn : tree.nodes n = some g) (p : List Bytes) :
    nodeAt (setNode tree n g nd) p = if p = q then some (some nd) else nodeAt tree p := by
  unfold nodeAt
  rw [show (Entries.setNode tree n g nd).root = tree.root from rfl, hr, Option.bind_some,
    Option.bind_some, setNode_reach h hn]
  by_cases hp : p = q
  · rw [if_pos hp, hp, hq, Option.bind_some, setNode_nodes, if_pos rfl]
    rfl
  · rw [if_neg hp]
    cases hm : reach tree r p with
    | none => rfl
    | some m =>
      have hne : m ≠ n := by
        rintro rfl
        exact hp (h.reach_inj hr hq hm)
      rw [Option.bind_some, Option.bind_some, setNode_nodes, if_neg hne]

/-- The node of the entry that a path reaches. -/
lemma nodeAt_eq (hr : tree.root = some r) (hq : reach tree r q = some n) (hn : tree.nodes n = some g) :
    nodeAt tree q = some g.value.node := by
  simp [nodeAt, hr, hq, hn]

/-- The lists of names before one that leads to an entry lead to entries. -/
lemma Trie.nodeAt_prefix (h : Trie tree) (hr : tree.root = some r) (hq : reach tree r q = some n)
    (hp : p <+: q) : nodeAt tree p = some (nodeAt tree p).join := by
  obtain ⟨cs, rfl⟩ := hp
  rw [reach_append, Option.bind_eq_some_iff] at hq
  obtain ⟨m, hm, _⟩ := hq
  obtain ⟨g, hg⟩ := h.reach_node hr hm
  rw [nodeAt_eq hr hm hg]
  rfl

/-- What `vfs_mount` does for the names of a path, from an entry on. -/
def mountAt (nd : N) : Entries N → Nat → List Bytes → Option (Entries N)
  | tree, n, [] =>
    (tree.nodes n).map fun g => if g.value.node.isSome then tree else setNode tree n g nd
  | tree, n, c :: cs =>
    match lookup tree n c with
    | some m => mountAt nd tree m cs
    | none => (tree.nodes n).bind fun g => mountAt nd (insertEntry tree n g c) tree.next cs

/-- The node of every list of names after a mount. -/
def mounted (nd : N) (path : List Bytes) (nodes : List Bytes → Option (Option N)) (p : List Bytes) :
    Option (Option N) :=
  if p = path then some ((nodes p).join.or (some nd))
  else if p <+: path then some (nodes p).join
  else nodes p

/-- A mount adds the entries on its path, and its node where there was none. -/
lemma Trie.mountAt {cs : List Bytes} (h : Trie tree) (hr : tree.root = some r)
    (hq : reach tree r q = some n) (h0 : ∀ c ∈ cs, 0 ∉ c) :
    ∃ tree', mountAt nd tree n cs = some tree' ∧ Trie tree' ∧ tree'.root = some r ∧
      nodeAt tree' = mounted nd (q ++ cs) (nodeAt tree) := by
  induction cs generalizing tree n q with
  | nil =>
    obtain ⟨g, hg⟩ := h.reach_node hr hq
    have at_q := nodeAt_eq hr hq hg
    have before : ∀ p, p ≠ q → nodeAt tree p = mounted nd q (nodeAt tree) p := by
      intro p hp
      unfold mounted
      rw [if_neg hp]
      split
      · exact h.nodeAt_prefix hr hq ‹_›
      · rfl
    simp only [Entries.mountAt, hg, Option.map_some, List.append_nil]
    -- the path ends here: a node that is mounted already stays
    cases hnode : g.value.node with
    | some nd' =>
      refine ⟨tree, rfl, h, hr, ?_⟩
      funext p
      by_cases hp : p = q
      · rw [hp, mounted, if_pos rfl, at_q, hnode]
        rfl
      · exact before p hp
    | none =>
      refine ⟨Entries.setNode tree n g nd, rfl, h.setNode hg, hr, ?_⟩
      funext p
      rw [setNode_nodeAt h hr hq hg]
      by_cases hp : p = q
      · rw [if_pos hp, hp, mounted, if_pos rfl, at_q, hnode]
        rfl
      · rw [if_neg hp]
        exact before p hp
  | cons c cs ih =>
    simp only [List.mem_cons, forall_eq_or_imp] at h0
    have path : q ++ c :: cs = (q ++ [c]) ++ cs := by simp
    simp only [Entries.mountAt]
    cases hl : lookup tree n c with
    | some m =>
      have hm : reach tree r (q ++ [c]) = some m := by
        rw [reach_snoc, hq, Option.bind_some, hl]
      rw [path]
      exact ih h hr hm h0.2
    | none =>
      obtain ⟨g, hg⟩ := h.reach_node hr hq
      -- the entry that is missing is inserted, and the rest of the path goes below it
      have new : reach (Entries.insertEntry tree n g c) r (q ++ [c]) = some tree.next := by
        rw [insertEntry_reach h hr hq hg h0.1 hl, if_pos rfl]
      have missing : nodeAt tree (q ++ [c]) = none := by
        simp [nodeAt, hr, reach_snoc, hq, hl]
      obtain ⟨tree', run, trie, root, nodes⟩ := ih (h.insertEntry hg h0.1 hl) hr new h0.2
      refine ⟨tree', by simpa [hg] using run, trie, root, ?_⟩
      rw [nodes, path]
      funext p
      have at_p := insertEntry_nodeAt h hr hq hg h0.1 hl p
      have join : (nodeAt (Entries.insertEntry tree n g c) p).join = (nodeAt tree p).join := by
        rw [at_p]
        split
        · rename_i e
          rw [e, missing]
          rfl
        · rfl
      unfold mounted
      rw [join]
      split
      · rfl
      · split
        · rfl
        · rename_i notPrefix
          have hp : p ≠ q ++ [c] := by
            rintro rfl
            exact notPrefix (List.prefix_append ..)
          rw [at_p, if_neg hp]

end Mount

end Entries

end WivOS.Fs
