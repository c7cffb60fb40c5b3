import Mathlib.Tactic

/-!
# Linked nodes

Nodes in memory that point at each other. A list `l` of what the nodes hold stands for the nodes
themselves, of which `key` gives the addresses. `Linked key mk m p l n` says that the nodes of `l` stand
behind each other in the memory `m`, between `p` and `n`, where `mk x p n` is the node that holds `x`
with these neighbours. A list that is linked in one direction only has nodes without the other neighbour.
-/

namespace WivOS.Lib
variable {α β γ : Type*}

/-- Following `f` from `p` visits the nodes of `l`, and ends there. -/
def Path (f : α → Option α) : Option α → List α → Prop
  | p, [] => p = none
  | p, a :: l => p = some a ∧ Path f (f a) l

/-- There is one path from a start. -/
lemma Path.unique {f : α → Option α} {p : Option α} {l l' : List α} (h : Path f p l)
    (h' : Path f p l') : l = l' := by
  induction l generalizing p l' with
  | nil =>
    cases l' with
    | nil => rfl
    | cons a l' =>
      cases h
      cases h'.1
  | cons a l ih =>
    obtain ⟨rfl, rest⟩ := h
    cases l' with
    | nil => cases h'
    | cons a' l' =>
      obtain ⟨e, rest'⟩ := h'
      cases e
      rw [ih rest rest']

/-- Nodes that are not visited do not matter. -/
lemma Path.congr {f g : α → Option α} {p : Option α} {l : List α} (h : Path f p l)
    (same : ∀ a ∈ l, g a = f a) : Path g p l := by
  induction l generalizing p with
  | nil => exact h
  | cons a l ih =>
    refine ⟨h.1, ?_⟩
    rw [same a (by simp)]
    exact ih h.2 fun b mem => same b (by simp [mem])

section Ends
variable (key : β → α)

/-- The first node, or what stands behind no nodes. -/
def firstOr (l : List β) (n : Option α) : Option α := (l.head?.map key).or n

/-- The last node, or what stands before no nodes. -/
def lastOr (p : Option α) (l : List β) : Option α := (l.getLast?.map key).or p

/-- The first of no nodes is what follows them. -/
@[simp] lemma firstOr_nil (n : Option α) : firstOr key [] n = n := rfl

/-- The first of some nodes. -/
@[simp] lemma firstOr_cons (x : β) (l : List β) (n : Option α) :
    firstOr key (x :: l) n = some (key x) := rfl

/-- The first node of two parts after each other. -/
@[simp] lemma firstOr_append (l r : List β) (n : Option α) :
    firstOr key (l ++ r) n = firstOr key l (firstOr key r n) := by
  cases l <;> rfl

/-- The last of no nodes is what precedes them. -/
@[simp] lemma lastOr_nil (p : Option α) : lastOr key p [] = p := rfl

/-- The last node of two parts after each other. -/
@[simp] lemma lastOr_append (p : Option α) (l r : List β) :
    lastOr key p (l ++ r) = lastOr key (lastOr key p l) r := by
  simp only [lastOr, List.getLast?_append, Option.map_or, Option.or_assoc]

/-- The last of a single node. -/
lemma lastOr_singleton (p : Option α) (x : β) : lastOr key p [x] = some (key x) := rfl

/-- The first node precedes the others. -/
@[simp] lemma lastOr_cons (p : Option α) (x : β) (l : List β) :
    lastOr key p (x :: l) = lastOr key (some (key x)) l := by
  rw [← List.singleton_append, lastOr_append, lastOr_singleton]

/-- The first one is a node of the list, or what follows it. -/
lemma firstOr_mem {l : List β} {n : Option α} {a : α} (h : firstOr key l n = some a) :
    a ∈ l.map key ∨ n = some a := by
  cases l with
  | nil => exact .inr h
  | cons x l =>
    cases h
    simp

/-- The last one is a node of the list, or what precedes it. -/
lemma lastOr_mem {p : Option α} {l : List β} {a : α} (h : lastOr key p l = some a) :
    p = some a ∨ a ∈ l.map key := by
  rcases List.eq_nil_or_concat' l with rfl | ⟨l, x, rfl⟩
  · exact .inl h
  · rw [lastOr_append] at h
    cases h
    simp

end Ends

section Linked
variable (key : β → α) (mk : β → Option α → Option α → γ)

/-- The nodes of `l` stand behind each other, between `p` and `n`. -/
def Linked (m : α → Option γ) : Option α → List β → Option α → Prop
  | _, [], _ => True
  | p, x :: l, n => m (key x) = some (mk x p (firstOr key l n)) ∧ Linked m (some (key x)) l n

variable {key mk} {m : α → Option γ} {p n : Option α} {l r : List β} {x : β}

/-- No nodes are linked in any memory. -/
@[simp] lemma linked_nil : Linked key mk m p [] n := trivial

/-- The first node points to what precedes and what follows it, and the others are linked. -/
@[simp] lemma linked_cons : Linked key mk m p (x :: l) n ↔
    m (key x) = some (mk x p (firstOr key l n)) ∧ Linked key mk m (some (key x)) l n :=
  Iff.rfl

/-- A segment is cut in two. -/
lemma linked_append : Linked key mk m p (l ++ r) n ↔
    Linked key mk m p l (firstOr key r n) ∧ Linked key mk m (lastOr key p l) r n := by
  induction l generalizing p with
  | nil => simp
  | cons x l ih => simp [ih, and_assoc]

/-- Only the nodes of `l` count. -/
lemma Linked.congr {m' : α → Option γ} (h : Linked key mk m p l n)
    (same : ∀ x ∈ l, m' (key x) = m (key x)) : Linked key mk m' p l n := by
  induction l generalizing p with
  | nil => trivial
  | cons x l ih =>
    refine ⟨?_, ih h.2 ?_⟩
    · rw [same x (by simp)]
      exact h.1
    · intro y mem
      exact same y (by simp [mem])

/-- Every node is in memory. -/
lemma Linked.exists_node (h : Linked key mk m p l n) (mem : x ∈ l) :
    ∃ p n, m (key x) = some (mk x p n) := by
  induction l generalizing p with
  | nil => simp at mem
  | cons y l ih =>
    rcases List.mem_cons.mp mem with rfl | mem
    · exact ⟨_, _, h.1⟩
    · exact ih h.2 mem

/-- What stands before does not count for nodes that are linked in one direction. -/
lemma Linked.forward {q : Option α} (single : ∀ x p p' n, mk x p n = mk x p' n)
    (h : Linked key mk m p l n) : Linked key mk m q l n := by
  cases l with
  | nil => trivial
  | cons x l => exact ⟨h.1.trans (by rw [single x p q]), h.2⟩

/-- The nodes in their order. -/
lemma Linked.path {f : α → Option α} (h : Linked key mk m p l none)
    (next : ∀ x p n, m (key x) = some (mk x p n) → f (key x) = n) :
    Path f (firstOr key l none) (l.map key) := by
  induction l generalizing p with
  | nil => rfl
  | cons x l ih =>
    refine ⟨rfl, ?_⟩
    rw [next x _ _ h.1]
    exact ih h.2

/-- The nodes in the order of the other direction. -/
lemma Linked.path_reverse {f : α → Option α} (h : Linked key mk m none l n)
    (previous : ∀ x p n, m (key x) = some (mk x p n) → f (key x) = p) :
    Path f (lastOr key none l) (l.map key).reverse := by
  induction l using List.reverseRecOn generalizing n with
  | nil => rfl
  | append_singleton l x ih =>
    obtain ⟨before, last, -⟩ := linked_append.mp h
    rw [List.map_append, List.reverse_append, lastOr_append]
    refine ⟨rfl, ?_⟩
    rw [previous x _ _ last]
    exact ih before

section Update
variable [DecidableEq α]

/-- A write to another address. -/
lemma Linked.update {a : α} {c : Option γ} (h : Linked key mk m p l n) (other : a ∉ l.map key) :
    Linked key mk (Function.update m a c) p l n := by
  apply h.congr
  intro x mem
  apply Function.update_of_ne
  rintro rfl
  exact other (List.mem_map_of_mem mem)

/-- The last node gets another neighbour. -/
lemma Linked.update_last {q : Option α} (h : Linked key mk m p (l ++ [x]) n)
    (other : key x ∉ l.map key) :
    Linked key mk (Function.update m (key x) (some (mk x (lastOr key p l) q))) p (l ++ [x]) q := by
  obtain ⟨before, -, -⟩ := linked_append.mp h
  apply linked_append.mpr
  exact ⟨before.update other, by simp⟩

/-- The first node gets another neighbour. -/
lemma Linked.update_first {q : Option α} (h : Linked key mk m p (x :: l) n)
    (other : key x ∉ l.map key) :
    Linked key mk (Function.update m (key x) (some (mk x q (firstOr key l n)))) q (x :: l) n := by
  exact ⟨by simp, h.2.update other⟩

/-- A node gets other contents. -/
lemma Linked.update_at {x' : β} (h : Linked key mk m p (l ++ x :: r) n) (same : key x' = key x)
    (before : key x ∉ l.map key) (behind : key x ∉ r.map key) :
    Linked key mk (Function.update m (key x) (some (mk x' (lastOr key p l) (firstOr key r n)))) p
      (l ++ x' :: r) n := by
  obtain ⟨left, -, right⟩ := linked_append.mp h
  refine linked_append.mpr ⟨?_, ?_, ?_⟩
  · rw [firstOr_cons, same]
    exact left.update before
  · rw [same, Function.update_self]
  · rw [same]
    exact right.update behind

end Update

end Linked

end WivOS.Lib
