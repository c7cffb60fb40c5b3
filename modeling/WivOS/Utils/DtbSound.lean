import WivOS.Utils.DtbBlob
import WivOS.Utils.DtbProps

/-!
# What `dtb_init` leaves

The trees that `dtb_init` leaves in `DTBNodes` (`DtbTree`): they grew by insertion, no node is twice
among the children of another, names end in a 0 byte, and each property has as many bytes as its
`data_len` says. Every token keeps this (`DtbTree.apply`), and so does a whole run (`dtbInit_dtbTree`).
-/

namespace WivOS.Utils

/-- A node of the device tree. -/
structure NodeSound (g : GentreeNode DtbNode) : Prop where
  named : IsStr g.value.name (strOf g.value.name)
  distinct : g.children.Nodup
  props : ∀ prop ∈ g.value.props, prop.Sound

/-- A tree as `dtb_init` leaves it. -/
structure DtbTree (tree : Gentree DtbNode) : Prop where
  grown : tree.Grown
  node : ∀ {n g}, tree.nodes n = some g → NodeSound g

section Insert
variable {V : Type} {tree tree' : Gentree V} {subroot : Option Nat} {value : V} {n : Nat}

/-- What `gentree_insert` can do. -/
lemma Gentree.insert_cases (inserted : gentreeInsert tree subroot value = some (n, tree')) :
    (tree.root = none ∧ tree' = ⟨some tree.next,
      Function.update tree.nodes tree.next (some ⟨value, []⟩), tree.next + 1⟩) ∨
    ∃ p g, subroot = some p ∧ tree.nodes p = some g ∧ tree' = tree.insertChild p g value := by
  cases hr : tree.root with
  | none =>
    simp only [gentreeInsert, gentreeNodeCreate, hr, Option.some.injEq, Prod.mk.injEq] at inserted
    exact .inl ⟨rfl, inserted.2.symm⟩
  | some r =>
    right
    cases subroot with
    | none => simp [gentreeInsert, hr] at inserted
    | some p =>
      cases hp : tree.nodes p with
      | none => simp [gentreeInsert, hr, hp] at inserted
      | some g =>
        rw [Gentree.insert_child hr hp] at inserted
        cases inserted
        exact ⟨p, g, rfl, hp, rfl⟩

/-- An insertion keeps a tree grown. -/
lemma Gentree.Grown.insert (h : tree.Grown) (inserted : gentreeInsert tree subroot value = some (n, tree')) :
    tree'.Grown := by
  obtain ⟨hr, rfl⟩ | ⟨p, g, -, hp, rfl⟩ := Gentree.insert_cases inserted
  · rw [h.empty hr]
    exact h.insertRoot hr value
  · exact h.insertChild hp

/-- What holds of the nodes before and of the new one, and of a parent with one child more, holds of all
nodes once it is inserted. -/
lemma Gentree.insert_forall {P : GentreeNode V → Prop}
    (inserted : gentreeInsert tree subroot value = some (n, tree'))
    (before : ∀ m g, tree.nodes m = some g → P g) (new : P ⟨value, []⟩)
    (parent : ∀ m g, tree.nodes m = some g → P ⟨g.value, tree.next :: g.children⟩) :
    ∀ m g, tree'.nodes m = some g → P g := by
  intro m g hm
  obtain ⟨-, rfl⟩ | ⟨p, g', -, hp, rfl⟩ := Gentree.insert_cases inserted
  · simp only [Function.update_apply] at hm
    split at hm
    · cases hm
      exact new
    · exact before m g hm
  · rw [Gentree.insertChild_nodes] at hm
    split at hm
    · cases hm
      exact parent p g' hp
    · split at hm
      · cases hm
        exact new
      · exact before m g hm

/-- A new child was not among the children before. -/
lemma Gentree.Grown.nodup_cons {g : GentreeNode V} {m : Nat} (h : tree.Grown) (hm : tree.nodes m = some g)
    (nodup : g.children.Nodup) : (tree.next :: g.children).Nodup := by
  refine List.nodup_cons.mpr ⟨fun member => ?_, nodup⟩
  exact h.not_child_next m ⟨g, hm, member⟩

end Insert

section Tokens
variable {header : FdtHeader} {blob : Bytes} {s s' : DtbState} {token : Token}

/-- The names of a token are strings. -/
def Token.Named : Token → Prop
  | .beginNode name => 0 ∉ name
  | .prop name _ => 0 ∉ name
  | _ => True

/-- Names are read up to their terminator. -/
lemma readToken_named {offset : Nat} (read : readToken header blob offset = some token) : token.Named := by
  obtain ⟨x, -, read⟩ := Option.bind_eq_some_iff.mp read
  unfold readBlock at read
  split at read
  · obtain ⟨length, len, rfl⟩ := Option.map_eq_some_iff.mp read
    exact (isStr_of_strlen len).1.1
  · split at read
    · simp only [readProp, Option.bind_eq_bind, Option.bind_eq_some_iff] at read
      obtain ⟨_, -, _, -, length, len, _, -, e⟩ := read
      cases e
      exact (isStr_of_strlen len).1.1
    · split at read
      · cases read
        trivial
      · cases read
        trivial

/-- A terminated name is a string. -/
lemma strOf_zero {name : Bytes} (h0 : 0 ∉ name) : IsStr (name ++ [0]) (strOf (name ++ [0])) := by
  rw [strOf_eq (isStr_self h0)]
  exact isStr_self h0

/-- Inserting a named node keeps the tree as it should be. -/
lemma DtbTree.insert {tree tree' : Gentree DtbNode} {subroot : Option Nat} {name : Bytes} {root : Bool}
    {n : Nat} (h : DtbTree tree) (h0 : 0 ∉ name)
    (inserted : gentreeInsert tree subroot ⟨name ++ [0], [], root⟩ = some (n, tree')) : DtbTree tree' := by
  refine ⟨h.grown.insert inserted, fun {m g} hm => ?_⟩
  refine Gentree.insert_forall inserted (fun _ _ => h.node) ?_ ?_ m g hm
  · exact ⟨strOf_zero h0, List.nodup_nil, fun prop hp => absurd hp List.not_mem_nil⟩
  · intro p g' hp
    have sound := h.node hp
    exact ⟨sound.named, h.grown.nodup_cons hp sound.distinct, sound.props⟩

/-- `FDT_END_NODE` moves the current node only. -/
lemma endNode_tree {size : Nat} (ended : endNode s = some (size, s')) : s'.tree = s.tree := by
  simp only [endNode, Option.bind_eq_bind, Option.bind_eq_some_iff] at ended
  obtain ⟨n, -, g, -, ended⟩ := ended
  split at ended
  · cases ended
    rfl
  · simp only [Option.bind_eq_some_iff] at ended
    obtain ⟨_, -, p, -, e⟩ := ended
    cases e
    rfl

/-- Every token keeps the tree sound. -/
lemma DtbTree.apply (h : DtbTree s.tree) (named : token.Named) (applied : token.apply s = some s') :
    DtbTree s'.tree := by
  cases token with
  | beginNode name =>
    obtain ⟨⟨n, tree⟩, inserted, e⟩ := Option.bind_eq_some_iff.mp applied
    cases e
    exact h.insert named inserted
  | prop name data =>
    simp only [Token.apply, Gentree.modifyValue, Option.bind_eq_bind, Option.bind_eq_some_iff] at applied
    obtain ⟨n, -, tree, ⟨g, hn, e⟩, e'⟩ := applied
    cases e
    cases e'
    have sound := h.node hn
    refine ⟨h.grown.congr rfl rfl fun m => ?_, fun {m g'} hm => ?_⟩
    · by_cases hm : m = n
      · simp [hm, hn]
      · simp [hm]
    · simp only [Function.update_apply] at hm
      split at hm
      · cases hm
        refine ⟨sound.named, sound.distinct, fun prop hp => ?_⟩
        rcases List.mem_append.mp hp with old | new
        · exact sound.props prop old
        · rw [List.mem_singleton.mp new]
          exact ⟨strOf_zero named, rfl⟩
      · exact h.node hm
  | endNode =>
    obtain ⟨⟨size, s''⟩, ended, e⟩ := Option.map_eq_some_iff.mp applied
    cases e
    rw [endNode_tree ended]
    exact h
  | other _ =>
    cases applied
    exact h

/-- The loop keeps the tree sound. -/
lemma parseLoop_dtbTree {fuel : Nat} (h : DtbTree s.tree) (parsed : parseLoop header blob fuel s = some s') :
    DtbTree s'.tree := by
  induction fuel generalizing s with
  | zero => cases parsed
  | succ fuel ih =>
    unfold parseLoop at parsed
    split at parsed
    · obtain ⟨⟨code, size, s₁⟩, block, rest⟩ := Option.bind_eq_some_iff.mp parsed
      obtain ⟨token, read, applied, -, -⟩ := parseBlock_eq_some.mp block
      have sound := h.apply (readToken_named read) applied
      dsimp only at rest
      split at rest
      · cases rest
        exact sound
      · refine ih ?_ rest
        exact sound
    · cases parsed
      exact h

/-- An empty tree is as it should be. -/
lemma dtbTree_create : DtbTree gentreeCreate :=
  ⟨Gentree.grown_create, fun hn => by cases hn⟩

/-- Whatever the blob, a tree that `dtb_init` makes is sound. -/
lemma dtbInit_dtbTree {dtbNodes : Option (Gentree DtbNode)} {tree : Gentree DtbNode}
    (ran : dtbInit dtbNodes blob = some (0, some tree)) : DtbTree tree := by
  simp only [dtbInit, Option.bind_eq_bind, Option.bind_eq_some_iff] at ran
  obtain ⟨checks, -, ran⟩ := ran
  split at ran
  · cases ran
  · simp only [Option.bind_eq_some_iff] at ran
    obtain ⟨header, -, s, parsed, e⟩ := ran
    cases e
    exact parseLoop_dtbTree dtbTree_create parsed

end Tokens

end WivOS.Utils
