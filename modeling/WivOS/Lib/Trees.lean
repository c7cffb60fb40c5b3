import Mathlib.Tactic
import Mathlib.Logic.Relation

/-!
# Trees that grow by their leaves

A tree is given by its nodes, the last one first, and by the children of each in their order. A node that
is added is a leaf (`GrownTree.add`). So each node but the root has one parent, and a node comes before
its parent in the list of nodes, which bounds every search. A node that leaves the children of its parent
takes with it exactly what is below it (`GrownTree.reach_erase`).
-/

namespace WivOS.Lib
open Relation

variable {α : Type*}

/-- Two relations have the same paths from a node if they agree on what is reached. -/
lemma reflTransGen_congr {r r' : α → α → Prop} {S : α → Prop} {a b : α} (start : S a)
    (closed : ∀ a b, S a → r a b → S b) (same : ∀ a, S a → ∀ b, r' a b ↔ r a b) :
    ReflTransGen r' a b ↔ ReflTransGen r a b := by
  constructor
  · intro path
    suffices ReflTransGen r a b ∧ S b from this.1
    induction path with
    | refl => exact ⟨.refl, start⟩
    | tail _ edge ih =>
      have edge := (same _ ih.2 _).mp edge
      exact ⟨ih.1.tail edge, closed _ _ ih.2 edge⟩
  · intro path
    suffices ReflTransGen r' a b ∧ S b from this.1
    induction path with
    | refl => exact ⟨.refl, start⟩
    | tail _ edge ih => exact ⟨ih.1.tail ((same _ ih.2 _).mpr edge), closed _ _ ih.2 edge⟩

section AddFirst
variable {β γ : Type*} [DecidableEq α] {a n p : α} {x y : β} {order : List α} {f : α → List β}

/-- The lists of nodes once the node `n` is new and has none, and `x` is the first in the list of `p`. -/
def addFirst (f : α → List β) (n p : α) (x : β) : α → List β :=
  Function.update (Function.update f n []) p (x :: f p)

/-- The list that got the new node. -/
lemma addFirst_self : addFirst f n p x p = x :: f p := Function.update_self ..

/-- The list of the new node. -/
lemma addFirst_new (other : n ≠ p) : addFirst f n p x n = [] := by
  rw [addFirst, Function.update_of_ne other, Function.update_self]

/-- Any other list. -/
lemma addFirst_of_ne (other : a ≠ p) (old : a ≠ n) : addFirst f n p x a = f a := by
  rw [addFirst, Function.update_of_ne other, Function.update_of_ne old]

/-- The function applied to all entries. -/
lemma map_addFirst (g : β → γ) :
    (addFirst f n p x a).map g = addFirst (fun a => (f a).map g) n p (g x) a := by
  by_cases hp : a = p
  · subst hp
    rw [addFirst_self, addFirst_self, List.map_cons]
  · by_cases hn : a = n
    · subst hn
      rw [addFirst_new hp, addFirst_new hp, List.map_nil]
    · rw [addFirst_of_ne hp hn, addFirst_of_ne hp hn]

/-- What the lists have then. -/
lemma mem_addFirst (new : n ∉ order) (mem : p ∈ order) (inside : a ∈ n :: order) :
    y ∈ addFirst f n p x a ↔ (a = p ∧ y = x) ∨ (a ∈ order ∧ y ∈ f a) := by
  by_cases hp : a = p
  · subst hp
    simp [addFirst_self, mem]
  · rcases List.mem_cons.mp inside with rfl | inside
    · simp [addFirst_new hp, hp, new]
    · have old : a ≠ n := ne_of_mem_of_not_mem inside new
      simp [addFirst_of_ne hp old, hp, inside]

end AddFirst

section Trees
variable [DecidableEq α] {root a b n p : α} {order : List α} {kids : α → List α}

/-- The nodes `order` with their children form a tree. -/
structure GrownTree (root : α) (order : List α) (kids : α → List α) : Prop where
  mem_root : root ∈ order
  orphan : ∀ a ∈ order, root ∉ kids a
  kid : ∀ a ∈ order, ∀ b ∈ kids a, b ∈ order ∧ order.idxOf b < order.idxOf a
  nodup : ∀ a ∈ order, (kids a).Nodup
  parent : ∀ a ∈ order, ∀ b ∈ order, ∀ n ∈ kids a, n ∈ kids b → a = b
  linked : ∀ n ∈ order, n = root ∨ ∃ a ∈ order, n ∈ kids a

/-- The children without the child `n` of `p`. -/
def eraseKid (kids : α → List α) (n p : α) : α → List α :=
  Function.update kids p ((kids p).erase n)

/-- A root without children. -/
lemma GrownTree.single (root : α) {kids : α → List α} (leaf : kids root = []) :
    GrownTree root [root] kids where
  mem_root := by simp
  orphan := by simp [leaf]
  kid := by simp [leaf]
  nodup := by simp [leaf]
  parent := by simp
  linked := by simp

/-- A new leaf. -/
lemma GrownTree.add (h : GrownTree root order kids) (new : n ∉ order) (mem : p ∈ order) :
    GrownTree root (n :: order) (addFirst kids n p n) := by
  have notKid : ∀ {a}, a ∈ order → n ∉ kids a := by
    intro a inside kid
    exact new (h.kid a inside n kid).1
  have apart : ∀ {a}, a ∈ order → n ≠ a := by
    rintro a inside rfl
    exact new inside
  have isKid : ∀ {a b}, a ∈ n :: order → (b ∈ addFirst kids n p n a ↔
      (a = p ∧ b = n) ∨ (a ∈ order ∧ b ∈ kids a)) := by
    intro a b inside
    exact mem_addFirst new mem inside
  refine ⟨List.mem_cons_of_mem _ h.mem_root, ?_, ?_, ?_, ?_, ?_⟩
  · intro a inside kid
    rcases (isKid inside).mp kid with ⟨-, rfl⟩ | ⟨inside, kid⟩
    · exact new h.mem_root
    · exact h.orphan a inside kid
  · intro a inside b kid
    rcases (isKid inside).mp kid with ⟨rfl, rfl⟩ | ⟨inside, kid⟩
    · refine ⟨List.mem_cons_self, ?_⟩
      rw [List.idxOf_cons_self, List.idxOf_cons_ne _ (apart mem)]
      exact Nat.succ_pos _
    · obtain ⟨inside', before⟩ := h.kid a inside b kid
      refine ⟨List.mem_cons_of_mem _ inside', ?_⟩
      rw [List.idxOf_cons_ne _ (apart inside), List.idxOf_cons_ne _ (apart inside')]
      exact Nat.succ_lt_succ before
  · intro a inside
    by_cases hp : a = p
    · subst hp
      rw [addFirst_self]
      exact List.nodup_cons.mpr ⟨notKid mem, h.nodup a mem⟩
    · rcases List.mem_cons.mp inside with rfl | inside
      · rw [addFirst_new hp]
        exact List.nodup_nil
      · rw [addFirst_of_ne hp (apart inside).symm]
        exact h.nodup a inside
  · intro a inside b inside' m kid kid'
    rcases (isKid inside).mp kid with ⟨rfl, rfl⟩ | ⟨old, oldKid⟩
    · rcases (isKid inside').mp kid' with ⟨rfl, -⟩ | ⟨old', oldKid'⟩
      · rfl
      · exact absurd oldKid' (notKid old')
    · rcases (isKid inside').mp kid' with ⟨-, rfl⟩ | ⟨old', oldKid'⟩
      · exact absurd oldKid (notKid old)
      · exact h.parent a old b old' m oldKid oldKid'
  · intro m inside
    rcases List.mem_cons.mp inside with rfl | inside
    · refine .inr ⟨p, List.mem_cons_of_mem _ mem, ?_⟩
      exact (isKid (List.mem_cons_of_mem _ mem)).mpr (.inl ⟨rfl, rfl⟩)
    · rcases h.linked m inside with e | ⟨a, inside', kid⟩
      · exact .inl e
      · refine .inr ⟨a, List.mem_cons_of_mem _ inside', ?_⟩
        exact (isKid (List.mem_cons_of_mem _ inside')).mpr (.inr ⟨inside', kid⟩)

/-- What is reached from a node of the tree is in the tree. -/
lemma GrownTree.mem_of_reach (h : GrownTree root order kids) (mem : a ∈ order)
    (reach : ReflTransGen (fun a b => b ∈ kids a) a b) : b ∈ order := by
  induction reach with
  | refl => exact mem
  | tail _ edge ih => exact (h.kid _ ih _ edge).1

/-- Every node is below the root. -/
lemma GrownTree.reach_root (h : GrownTree root order kids) (mem : n ∈ order) :
    ReflTransGen (fun a b => b ∈ kids a) root n := by
  -- a parent stands behind its children, so the distance to the end gets smaller
  induction e : order.length - order.idxOf n using Nat.strong_induction_on generalizing n with
  | _ distance ih =>
    rcases h.linked n mem with rfl | ⟨a, inside, kid⟩
    · exact .refl
    · have before := (h.kid a inside n kid).2
      have bound := List.idxOf_lt_length_of_mem inside
      exact (ih _ (by omega) inside rfl).tail kid

/-- Nothing in the tree is above the root. -/
lemma GrownTree.eq_root_of_reach (h : GrownTree root order kids) (mem : a ∈ order)
    (reach : ReflTransGen (fun a b => b ∈ kids a) a root) : a = root := by
  rcases reach.cases_tail with e | ⟨b, path, edge⟩
  · exact e.symm
  · exact absurd edge (h.orphan b (h.mem_of_reach mem path))

/-- What is below a node that has a parent, and is below no other child. -/
lemma GrownTree.reach_of_kid (h : GrownTree root order kids) (mem : a ∈ order) (inside : p ∈ order)
    (kid : n ∈ kids p) (reach : ReflTransGen (fun a b => b ∈ kids a) a n) (other : a ≠ n) :
    ReflTransGen (fun a b => b ∈ kids a) a p := by
  rcases reach.cases_tail with e | ⟨b, path, edge⟩
  · exact absurd e.symm other
  · rwa [h.parent p inside b (h.mem_of_reach mem path) n kid edge]

/-- A child less. -/
lemma GrownTree.mem_eraseKid (h : GrownTree root order kids) (mem : a ∈ order) :
    b ∈ eraseKid kids n p a ↔ b ∈ kids a ∧ ¬ (a = p ∧ b = n) := by
  unfold eraseKid
  by_cases hp : a = p
  · subst hp
    rw [Function.update_self, (h.nodup a mem).mem_erase_iff]
    tauto
  · simp [hp]

/-- A child that leaves its parent leaves the tree with all that is below it, and nothing else does. -/
lemma GrownTree.reach_erase (h : GrownTree root order kids) (mem : p ∈ order) (kid : n ∈ kids p) :
    ReflTransGen (fun a b => b ∈ eraseKid kids n p a) root b ↔
      ReflTransGen (fun a b => b ∈ kids a) root b ∧ ¬ ReflTransGen (fun a b => b ∈ kids a) n b := by
  have memN := (h.kid p mem n kid).1
  constructor
  · intro path
    induction path with
    | refl =>
      refine ⟨.refl, fun below => ?_⟩
      exact h.orphan p mem (h.eq_root_of_reach memN below ▸ kid)
    | @tail b c _ edge ih =>
      have inside := h.mem_of_reach h.mem_root ih.1
      obtain ⟨edge, kept⟩ := (h.mem_eraseKid inside).mp edge
      refine ⟨ih.1.tail edge, fun below => ?_⟩
      by_cases e : n = c
      · subst e
        exact kept ⟨h.parent b inside p mem n edge kid, rfl⟩
      · exact ih.2 (h.reach_of_kid memN inside edge below e)
  · rintro ⟨path, outside⟩
    induction path with
    | refl => exact .refl
    | @tail b c path edge ih =>
      have inside := h.mem_of_reach h.mem_root path
      refine (ih fun below => outside (below.tail edge)).tail ((h.mem_eraseKid inside).mpr ⟨edge, ?_⟩)
      rintro ⟨-, rfl⟩
      exact outside .refl

end Trees

end WivOS.Lib
