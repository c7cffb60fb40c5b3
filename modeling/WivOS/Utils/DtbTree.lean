import WivOS.Utils.Dtb

/-!
# Building the device tree

What the loop of `dtb_init` makes of the tokens of a blob. Its body reads a token (`readToken`) and
applies it to the tree (`Token.apply`). The tokens of a device tree, applied in their order, build it
below the current node, with the children of each node in reverse (`Parsing.builds`); at `FDT_END_NODE`
the search for the parent finds the node at which it was begun.
-/

namespace WivOS.Utils

/-- The 4 bytes of a big-endian cell. -/
def cell (n : Nat) : Bytes :=
  [UInt8.ofNat (n / 2 ^ 24), UInt8.ofNat (n / 2 ^ 16), UInt8.ofNat (n / 2 ^ 8), UInt8.ofNat n]

/-- A cell of the blob. -/
def CellAt (blob : Bytes) (offset n : Nat) : Prop := n < 2 ^ 32 ∧ ∃ rest, blob.drop offset = cell n ++ rest

section Cells

/-- The bytes in the other order. -/
lemma be32_getLsbD {i : Nat} (x : BitVec 32) (hi : i < 32) :
    (be32 x).getLsbD i = x.getLsbD (8 * (3 - i / 8) + i % 8) := by
  simp only [be32, BitVec.getLsbD_or, BitVec.getLsbD_shiftLeft, BitVec.getLsbD_ushiftRight, BitVec.getLsbD_and]
  interval_cases i <;> simp

/-- `be32` reverses the bytes. -/
lemma be32_append (b₀ b₁ b₂ b₃ : BitVec 8) :
    be32 (b₃ ++ b₂ ++ b₁ ++ b₀) = b₀ ++ b₁ ++ b₂ ++ b₃ := by
  apply BitVec.eq_of_getLsbD_eq
  intro i hi
  rw [be32_getLsbD _ hi]
  simp only [BitVec.getLsbD_append]
  interval_cases i <;> simp

/-- The number of four bytes. -/
lemma toNat_append (b₀ b₁ b₂ b₃ : BitVec 8) : (b₀ ++ b₁ ++ b₂ ++ b₃ : BitVec 32).toNat =
    ((b₀.toNat * 2 ^ 8 + b₁.toNat) * 2 ^ 8 + b₂.toNat) * 2 ^ 8 + b₃.toNat := by
  have join : ∀ {n : Nat} (x : BitVec n) (b : BitVec 8), (x ++ b).toNat = x.toNat * 2 ^ 8 + b.toNat := by
    intro n x b
    rw [BitVec.toNat_append, ← Nat.shiftLeft_add_eq_or_of_lt b.isLt, Nat.shiftLeft_eq]
  rw [join, join, join]

/-- A cell is loaded as its number. -/
lemma CellAt.load {blob : Bytes} {offset n : Nat} (h : CellAt blob offset n) :
    ∃ x, load32 blob offset = some x ∧ (be32 x).toNat = n := by
  obtain ⟨hn, rest, hb⟩ := h
  refine ⟨_, by rw [load32, hb]; rfl, ?_⟩
  rw [be32_append, toNat_append]
  simp
  omega

end Cells

/-- What a block of the structure block says; `other` are the blocks that change nothing. -/
inductive Token where
  | beginNode (name : Bytes)
  | prop (name data : Bytes)
  | endNode
  | other (token : Nat)
deriving DecidableEq, Repr

namespace Token

def nop : Token := other fdtNop

def finish : Token := other fdtEnd

/-- The number of a token in the blob. -/
def code : Token → Nat
  | beginNode _ => fdtBeginNode
  | prop _ _ => fdtProp
  | endNode => fdtEndNode
  | other token => token

/-- The size of the block of a token, without the padding. -/
def blockSize : Token → Nat
  | beginNode name => 4 + (name.length + 1)
  | prop _ data => 4 + 8 + data.length
  | endNode => 4
  | other _ => 4

/-- The size of the block of a token. -/
def size (token : Token) : Nat := roundUp token.blockSize 4

/-- What a token does to the tree. -/
def apply (s : DtbState) : Token → Option DtbState
  | beginNode name => do
    let (treeNode, tree) ← gentreeInsert s.tree s.currentNode ⟨name ++ [0], [], !s.firstNodeFound⟩
    return { s with tree := tree, currentNode := some treeNode, firstNodeFound := true }
  | prop name data => do
    let currentNode ← s.currentNode
    let tree ← s.tree.modifyValue currentNode fun node =>
      { node with props := node.props ++ [⟨name ++ [0], data, data.length⟩] }
    return { s with tree := tree }
  | endNode => (Utils.endNode s).map (·.2)
  | other _ => some s

end Token

/-- The node that begins with a name. -/
def readBegin (data : Bytes) : Option Token := (strlen data).map fun length => .beginNode (data.take length)

/-- The property at an address. -/
def readProp (header : FdtHeader) (blob : Bytes) (fdtProp : Nat) : Option Token := do
  let len ← load32 blob fdtProp
  let nameoff ← load32 blob (fdtProp + 4)
  let name := getStringFromDtb header blob (be32 nameoff).toNat
  let length ← strlen name
  let value ← copyBytes (blob.drop (fdtProp + 8)) (be32 len).toNat
  return .prop (name.take length) value

/-- The token of a block. -/
def readBlock (header : FdtHeader) (blob : Bytes) (block token : Nat) : Option Token :=
  if token = fdtBeginNode then readBegin (blob.drop (block + 4))
  else if token = fdtProp then readProp header blob (block + 4)
  else if token = fdtEndNode then some .endNode
  else some (.other token)

/-- The token at an offset in the structure block. -/
def readToken (header : FdtHeader) (blob : Bytes) (offset : Nat) : Option Token :=
  let block := (be32 header.offDtStruct).toNat + offset
  (load32 blob block).bind fun token => readBlock header blob block (be32 token).toNat

section Blocks
variable {header : FdtHeader} {blob : Bytes}

/-- `strlen` ends at the terminator. -/
lemma isStr_of_strlen {bytes : Bytes} {n : Nat} (h : strlen bytes = some n) :
    IsStr bytes (bytes.take n) ∧ (bytes.take n).length = n := by
  induction bytes generalizing n with
  | nil => cases h
  | cons c bytes ih =>
    unfold strlen at h
    split at h
    · rename_i hc
      cases h
      exact ⟨⟨by simp, bytes, by simp [hc]⟩, rfl⟩
    · rename_i hc
      obtain ⟨k, hk, rfl⟩ := Option.map_eq_some_iff.mp h
      obtain ⟨⟨h0, rest, split⟩, length⟩ := ih hk
      refine ⟨⟨?_, rest, ?_⟩, by simpa using length⟩
      · simp only [List.take_succ_cons, List.mem_cons, not_or]
        exact ⟨Ne.symm hc, h0⟩
      · simp only [List.take_succ_cons, List.cons_append]
        rw [← split]

/-- A copy of the string has its own terminator. -/
lemma dupBytes_of_strlen {bytes : Bytes} {n : Nat} (h : strlen bytes = some n) :
    dupBytes bytes = some (bytes.take n ++ [0]) := dupBytes_eq (isStr_of_strlen h).1

/-- `FDT_BEGIN_NODE` in terms of its token. -/
lemma beginNode_eq (data : Bytes) (s : DtbState) :
    beginNode data s =
      (readBegin data).bind fun token => (token.apply s).map fun s => (token.blockSize, s) := by
  cases h : strlen data with
  | none => simp [beginNode, readBegin, h]
  | some n =>
    have length := (isStr_of_strlen h).2
    simp only [beginNode, readBegin, h, dupBytes_of_strlen h, Token.apply, Token.blockSize, length,
      Option.bind_eq_bind, Option.bind_some, Option.map_some]
    cases gentreeInsert s.tree s.currentNode ⟨data.take n ++ [0], [], !s.firstNodeFound⟩ with
    | none => rfl
    | some r => rfl

/-- As many bytes are copied as were asked for. -/
lemma copyBytes_length {source value : Bytes} {n : Nat} (h : copyBytes source n = some value) :
    value.length = n := by
  unfold copyBytes at h
  split at h
  · cases h
    rw [List.length_take]
    omega
  · cases h

/-- `FDT_PROP` in terms of its token. -/
lemma addProp_eq (fdtProp : Nat) (s : DtbState) :
    addProp header blob fdtProp s = (readProp header blob fdtProp).bind fun token =>
      (token.apply s).map fun s => (token.blockSize, s) := by
  unfold addProp readProp
  cases load32 blob fdtProp with
  | none => rfl
  | some len =>
    cases load32 blob (fdtProp + 4) with
    | none => rfl
    | some nameoff =>
      simp only [Option.bind_eq_bind, Option.bind_some]
      cases h : strlen (getStringFromDtb header blob (be32 nameoff).toNat) with
      | none => simp [dupBytes, h]
      | some length =>
        rw [dupBytes_of_strlen h]
        cases hv : copyBytes (blob.drop (fdtProp + 8)) (be32 len).toNat with
        | none => rfl
        | some value =>
          have := copyBytes_length hv
          simp only [Option.bind_some, Option.pure_def, Token.apply, Token.blockSize, this]
          cases s.currentNode with
          | none => rfl
          | some n =>
            simp only [Option.bind_eq_bind, Option.bind_some, Gentree.modifyValue]
            cases s.tree.nodes n with
            | none => rfl
            | some g => rfl

/-- `FDT_END_NODE` in terms of its token. -/
lemma endNode_eq (s : DtbState) : endNode s = (Token.endNode.apply s).map fun s => (4, s) := by
  unfold Token.apply endNode
  cases s.currentNode with
  | none => rfl
  | some n =>
    simp only [Option.bind_eq_bind, Option.bind_some]
    cases s.tree.nodes n with
    | none => rfl
    | some g =>
      simp only [Option.bind_some]
      split
      · rfl
      · cases gentreeGetParent s.tree n with
        | none => rfl
        | some parent => cases parent <;> rfl

/-- The `switch` reads a token and applies it. -/
lemma parseToken_eq (block token : Nat) (s : DtbState) :
    parseToken header blob block token s = (readBlock header blob block token).bind fun token =>
      (token.apply s).map fun s => (token.blockSize, s) := by
  unfold parseToken readBlock
  split
  · exact beginNode_eq _ s
  · split
    · exact addProp_eq _ s
    · split
      · exact endNode_eq s
      · rfl

/-- A block has the token that it was read for. -/
lemma readBlock_code {block token : Nat} {tok : Token} (h : readBlock header blob block token = some tok) :
    tok.code = token := by
  unfold readBlock at h
  split at h
  · rename_i ht
    obtain ⟨_, _, rfl⟩ := Option.map_eq_some_iff.mp h
    exact ht.symm
  · split at h
    · rename_i ht
      simp only [readProp, Option.bind_eq_bind, Option.bind_eq_some_iff] at h
      obtain ⟨_, _, _, _, _, _, _, _, h⟩ := h
      cases h
      exact ht.symm
    · split at h
      · rename_i ht
        cases h
        exact ht.symm
      · cases h
        rfl

/-- The body of the loop reads a token and applies it. -/
lemma parseBlock_eq (s : DtbState) :
    parseBlock header blob s = (readToken header blob s.parsedSize).bind fun token =>
      (token.apply s).map fun s => (token.code, token.size, s) := by
  unfold parseBlock readToken
  simp only [parseToken_eq]
  cases load32 blob ((be32 header.offDtStruct).toNat + s.parsedSize) with
  | none => rfl
  | some x =>
    simp only [Option.bind_eq_bind, Option.bind_some]
    cases h : readBlock header blob ((be32 header.offDtStruct).toNat + s.parsedSize) (be32 x).toNat with
    | none => rfl
    | some token =>
      rw [readBlock_code h |>.symm]
      simp only [Option.bind_some]
      cases token.apply s with
      | none => rfl
      | some s' => rfl

end Blocks

/-- The loop is below a node. -/
structure Parsing (s : DtbState) (n : Nat) (g : GentreeNode DtbNode) : Prop where
  grown : s.tree.Grown
  node : s.tree.nodes n = some g
  current : s.currentNode = some n
  found : s.firstNodeFound = true
  rooted : ∀ {m g}, s.tree.nodes m = some g → (g.value.rootNode = true ↔ s.tree.root = some m)

/-- No node was found yet. -/
structure Fresh (s : DtbState) : Prop where
  tree : s.tree = gentreeCreate
  current : s.currentNode = none
  found : s.firstNodeFound = false

/-- A state after another one, with the nodes that there were as they were, but for one. -/
structure Extends (s s' : DtbState) (n : Nat) : Prop where
  next : s.tree.next ≤ s'.tree.next
  nodes : ∀ {m}, m < s.tree.next → m ≠ n → s'.tree.nodes m = s.tree.nodes m
  root : s'.tree.root = s.tree.root

section Apply
variable {s s' s'' : DtbState} {n : Nat} {g : GentreeNode DtbNode}

/-- Two extensions after each other. -/
lemma Extends.trans (h : Extends s s' n) (h' : Extends s' s'' n) : Extends s s'' n where
  next := h.next.trans h'.next
  nodes hm hne := (h'.nodes (Nat.lt_of_lt_of_le hm h.next) hne).trans (h.nodes hm hne)
  root := h'.root.trans h.root

/-- Below a node the tree has a root. -/
lemma Parsing.exists_root (h : Parsing s n g) : ∃ r, s.tree.root = some r := by
  cases hr : s.tree.root with
  | none =>
    have := h.grown.bound h.node
    rw [h.grown.empty hr] at this
    exact absurd this (Nat.not_lt_zero _)
  | some r => exact ⟨r, rfl⟩

/-- The first node is the root. -/
lemma Fresh.beginNode (h : Fresh s) (name : Bytes) :
    ∃ s', (Token.beginNode name).apply s = some s' ∧ Parsing s' 0 ⟨⟨name ++ [0], [], true⟩, []⟩ ∧
      s'.tree.root = some 0 := by
  have insert := Gentree.insert_root Gentree.grown_create rfl s.currentNode
    (⟨name ++ [0], [], true⟩ : DtbNode)
  have grown := Gentree.Grown.insertRoot Gentree.grown_create rfl (⟨name ++ [0], [], true⟩ : DtbNode)
  rw [← h.tree] at insert
  let tree : Gentree DtbNode :=
    ⟨some 0, Function.update s.tree.nodes 0 (some ⟨⟨name ++ [0], [], true⟩, []⟩), 1⟩
  have grown : tree.Grown := by
    simp only [tree, h.tree]
    exact grown
  refine ⟨⟨s.parsedSize, tree, true, some 0⟩, by simp [Token.apply, h.found, insert, tree],
    ⟨grown, by simp [tree], rfl, rfl, ?_⟩, rfl⟩
  intro m g hm
  simp only [tree, h.tree, gentreeCreate, Function.update_apply] at hm
  split at hm
  · rename_i e
    cases hm
    simp [e, tree]
  · cases hm

/-- A node begins below another one. -/
lemma Parsing.beginNode (h : Parsing s n g) (name : Bytes) :
    ∃ s', (Token.beginNode name).apply s = some s' ∧
      Parsing s' s.tree.next ⟨⟨name ++ [0], [], false⟩, []⟩ ∧
      s'.tree = s.tree.insertChild n g ⟨name ++ [0], [], false⟩ := by
  obtain ⟨r, hr⟩ := h.exists_root
  have lt := h.grown.bound h.node
  let tree := s.tree.insertChild n g ⟨name ++ [0], [], false⟩
  have insert : gentreeInsert s.tree (some n) ⟨name ++ [0], [], false⟩ = some (s.tree.next, tree) :=
    Gentree.insert_child hr h.node
  refine ⟨⟨s.parsedSize, tree, true, some s.tree.next⟩,
    by simp [Token.apply, h.found, h.current, insert],
    ⟨h.grown.insertChild h.node, ?_, rfl, rfl, ?_⟩, rfl⟩
  · show (s.tree.insertChild n g _).nodes _ = _
    rw [Gentree.insertChild_nodes, if_neg (by omega), if_pos rfl]
  · intro m g' hm
    have hm : (s.tree.insertChild n g _).nodes m = some g' := hm
    show g'.value.rootNode = true ↔ s.tree.root = some m
    rw [Gentree.insertChild_nodes] at hm
    split at hm
    · rename_i e
      cases hm
      have same := h.rooted h.node
      rw [e]
      exact same
    · split at hm
      · rename_i e
        cases hm
        obtain ⟨⟨g₀, hg₀⟩, _⟩ := h.grown.root hr
        have := h.grown.bound hg₀
        simp only [Bool.false_eq_true, false_iff, hr, Option.some.injEq]
        omega
      · exact h.rooted hm

/-- The value of a node is changed. -/
lemma Parsing.prop (h : Parsing s n g) (name data : Bytes) :
    ∃ s', (Token.prop name data).apply s = some s' ∧
      Parsing s' n { g with value := { g.value with
        props := g.value.props ++ [⟨name ++ [0], data, data.length⟩] } } ∧
      s'.tree.next = s.tree.next ∧ Extends s s' n := by
  let g' : GentreeNode DtbNode := ⟨{ g.value with
    props := g.value.props ++ [⟨name ++ [0], data, data.length⟩] }, g.children⟩
  let tree := { s.tree with nodes := Function.update s.tree.nodes n (some g') }
  refine ⟨{ s with tree := tree }, by simp [Token.apply, h.current, Gentree.modifyValue, h.node, tree, g'],
    ⟨?_, by simp [tree, g'], h.current, h.found, ?_⟩, rfl, ⟨Nat.le_refl _, ?_, rfl⟩⟩
  · refine h.grown.congr rfl rfl fun m => ?_
    by_cases hm : m = n
    · simp [hm, h.node, tree, g']
    · simp [hm, tree]
  · intro m g₁ hm
    simp only [tree, Function.update_apply] at hm
    split at hm
    · rename_i e
      cases hm
      have same := h.rooted h.node
      rw [e]
      exact same
    · exact h.rooted hm
  · intro m _ hne
    exact Function.update_of_ne hne ..

/-- The root ends. -/
lemma Parsing.endRoot (h : Parsing s n g) (hr : s.tree.root = some n) :
    Token.endNode.apply s = some s := by
  have root : g.value.rootNode = true := (h.rooted h.node).mpr hr
  simp [Token.apply, endNode, h.current, h.node, root]

/-- A node ends below another one. -/
lemma Parsing.endChild {p : Nat} {g' : GentreeNode DtbNode} (h : Parsing s n g)
    (hp : s.tree.nodes p = some g') (hc : n ∈ g'.children) :
    Token.endNode.apply s = some { s with currentNode := some p } ∧
      Parsing { s with currentNode := some p } p g' := by
  have child : s.tree.Child p n := ⟨g', hp, hc⟩
  have root : g.value.rootNode = false := by
    rw [← Bool.not_eq_true, h.rooted h.node]
    intro hr
    exact (h.grown.root hr).2 p child
  refine ⟨?_, ⟨h.grown, hp, rfl, h.found, h.rooted⟩⟩
  simp [Token.apply, endNode, h.current, h.node, root, h.grown.getParent child]

end Apply

/-- A device tree: the name of a node, the names and the values of its properties, and its children. -/
inductive DeviceTree where
  | node (name : Bytes) (props : List (Bytes × Bytes)) (children : List DeviceTree)

mutual

/-- The tokens of a node, without `FDT_NOP`. -/
def DeviceTree.tokens : DeviceTree → List Token
  | .node name props children =>
    .beginNode name :: (props.map fun p => .prop p.1 p.2) ++ forestTokens children ++ [.endNode]

/-- The tokens of some nodes. -/
def forestTokens : List DeviceTree → List Token
  | [] => []
  | t :: ts => t.tokens ++ forestTokens ts

end

/-- The `dtb_prop_t` of a property. -/
def dtbProp (p : Bytes × Bytes) : DtbProp := ⟨p.1 ++ [0], p.2, p.2.length⟩

/-- A node of the tree is the root of a device tree: its name, its properties in order, and its children
in reverse. -/
inductive Holds (tree : Gentree DtbNode) : Nat → DeviceTree → Prop where
  | node {n g name props children} : tree.nodes n = some g → g.value.name = name ++ [0] →
      g.value.props = props.map dtbProp → List.Forall₂ (Holds tree) g.children.reverse children →
      Holds tree n (.node name props children)

section Build
variable {s : DtbState} {n : Nat} {g : GentreeNode DtbNode}

mutual

/-- The nodes behind one decide what it holds. -/
lemma Holds.frame {tree tree' : Gentree DtbNode} (grown : tree.Grown) :
    ∀ {t : DeviceTree} {n : Nat}, Holds tree n t →
      (∀ m g, n ≤ m → tree.nodes m = some g → tree'.nodes m = some g) → Holds tree' n t
  | .node _ _ children, n, h, same => by
    cases h with
    | @node _ g _ _ _ hn name props below =>
      refine .node (same n g (Nat.le_refl n) hn) name props ?_
      refine Holds.frame_forest grown below fun c hc m g' hm => same m g' ?_
      have := (grown.child ⟨g, hn, List.mem_reverse.mp hc⟩).1
      omega

/-- Children stay where their nodes do. -/
lemma Holds.frame_forest {tree tree' : Gentree DtbNode} (grown : tree.Grown) :
    ∀ {ts : List DeviceTree} {cs : List Nat}, List.Forall₂ (Holds tree) cs ts →
      (∀ c ∈ cs, ∀ m g, c ≤ m → tree.nodes m = some g → tree'.nodes m = some g) →
      List.Forall₂ (Holds tree') cs ts
  | [], _, h, _ => by
    cases h
    exact .nil
  | t :: ts, _, h, same => by
    cases h with
    | cons first rest =>
      simp only [List.mem_cons, forall_eq_or_imp] at same
      exact .cons (Holds.frame grown first same.1) (Holds.frame_forest grown rest same.2)

end

/-- The properties of a node. -/
lemma Parsing.props (h : Parsing s n g) (props : List (Bytes × Bytes)) :
    ∃ s', (props.map fun p => Token.prop p.1 p.2).foldlM Token.apply s = some s' ∧
      Parsing s' n { g with value := { g.value with props := g.value.props ++ props.map dtbProp } } ∧
      s'.tree.next = s.tree.next ∧ Extends s s' n := by
  induction props generalizing s g with
  | nil =>
    refine ⟨s, rfl, by simpa using h, rfl, Nat.le_refl _, fun _ _ => rfl, rfl⟩
  | cons p props ih =>
    obtain ⟨s₁, apply, h₁, next₁, ext₁⟩ := h.prop p.1 p.2
    obtain ⟨s₂, run, h₂, next₂, ext₂⟩ := ih h₁
    refine ⟨s₂, ?_, ?_, next₂.trans next₁, ext₁.trans ext₂⟩
    · simpa [apply] using run
    · simpa [dtbProp] using h₂

/-- What tokens do that build device trees below the current node. -/
def Builds (ts : List DeviceTree) : Prop :=
  ∀ (s : DtbState) (n : Nat) (g : GentreeNode DtbNode), Parsing s n g →
    ∃ s' cs, (forestTokens ts).foldlM Token.apply s = some s' ∧
      Parsing s' n { g with children := cs.reverse ++ g.children } ∧ Extends s s' n ∧
      List.Forall₂ (Holds s'.tree) cs ts

/-- Between the beginning of a node and its end. -/
lemma Parsing.contents {name : Bytes} {root : Bool} (h : Parsing s n ⟨⟨name ++ [0], [], root⟩, []⟩)
    (props : List (Bytes × Bytes)) {children : List DeviceTree} (forest : Builds children) :
    ∃ s' g', ((props.map fun p => Token.prop p.1 p.2) ++ forestTokens children).foldlM Token.apply s =
        some s' ∧
      Parsing s' n g' ∧ Extends s s' n ∧ Holds s'.tree n (.node name props children) := by
  obtain ⟨s₁, run₁, h₁, _, ext₁⟩ := h.props props
  obtain ⟨s₂, cs, run₂, h₂, ext₂, below⟩ := forest _ _ _ h₁
  refine ⟨s₂, _, ?_, h₂, ext₁.trans ext₂, .node h₂.node rfl rfl ?_⟩
  · simp [List.foldlM_append, run₁, run₂]
  · simpa using below

mutual

/-- The tokens of a device tree build it below the current node. -/
lemma Parsing.builds : ∀ (t : DeviceTree) {s : DtbState} {n : Nat} {g : GentreeNode DtbNode},
    Parsing s n g →
    ∃ s', t.tokens.foldlM Token.apply s = some s' ∧
      Parsing s' n { g with children := s.tree.next :: g.children } ∧ Extends s s' n ∧
      Holds s'.tree s.tree.next t
  | .node name props children, s, n, g, h => by
    have lt := h.grown.bound h.node
    obtain ⟨s₁, run₁, h₁, tree₁⟩ := h.beginNode name
    obtain ⟨s₂, g₂, run₂, h₂, ext₂, holds⟩ := h₁.contents props (builds_forest children)
    have next₁ : s₁.tree.next = s.tree.next + 1 := by rw [tree₁]; rfl
    -- the parent has one child more, and is found from it
    have parent : s₂.tree.nodes n = some { g with children := s.tree.next :: g.children } := by
      rw [ext₂.nodes (by omega) (by omega), tree₁, Gentree.insertChild_nodes, if_pos rfl]
    obtain ⟨run₃, h₃⟩ := h₂.endChild parent (List.mem_cons_self ..)
    refine ⟨_, ?_, h₃, ⟨?_, ?_, ?_⟩, holds⟩
    · simp only [DeviceTree.tokens, List.cons_append, List.foldlM_cons, run₁, Option.bind_eq_bind,
        Option.bind_some]
      rw [List.foldlM_append]
      simp [run₂, run₃]
    · have := ext₂.next
      show s.tree.next ≤ s₂.tree.next
      omega
    · intro m hm hne
      show s₂.tree.nodes m = _
      rw [ext₂.nodes (by omega) (by omega), tree₁, Gentree.insertChild_nodes, if_neg hne,
        if_neg (by omega)]
    · show s₂.tree.root = _
      rw [ext₂.root, tree₁]
      rfl

/-- The tokens of every forest build it. -/
lemma builds_forest : ∀ ts : List DeviceTree, Builds ts
  | [] => by
    intro s n g h
    exact ⟨s, [], rfl, h, ⟨Nat.le_refl _, fun _ _ => rfl, rfl⟩, .nil⟩
  | t :: ts => by
    intro s n g h
    obtain ⟨s₁, run₁, h₁, ext₁, holds⟩ := Parsing.builds t h
    obtain ⟨s₂, cs, run₂, h₂, ext₂, forest⟩ := builds_forest ts _ _ _ h₁
    refine ⟨s₂, s.tree.next :: cs, ?_, by simpa using h₂, ext₁.trans ext₂, .cons ?_ forest⟩
    · simp [forestTokens, List.foldlM_append, run₁, run₂]
    · refine holds.frame h₁.grown fun m g' hm hg' => ?_
      have := h.grown.bound h.node
      rw [ext₂.nodes (h₁.grown.bound hg') (by omega)]
      exact hg'

end

/-- The tokens of a device tree build it from an empty tree. -/
lemma Fresh.builds (h : Fresh s) (t : DeviceTree) :
    ∃ s' r, t.tokens.foldlM Token.apply s = some s' ∧ s'.tree.root = some r ∧ Holds s'.tree r t := by
  obtain ⟨name, props, children⟩ := t
  obtain ⟨s₁, run₁, h₁, root₁⟩ := h.beginNode name
  obtain ⟨s₂, g₂, run₂, h₂, ext₂, holds⟩ := h₁.contents props (builds_forest children)
  have root₂ : s₂.tree.root = some 0 := ext₂.root.trans root₁
  refine ⟨s₂, 0, ?_, root₂, holds⟩
  simp only [DeviceTree.tokens, List.cons_append, List.foldlM_cons, run₁, Option.bind_eq_bind,
    Option.bind_some]
  rw [List.foldlM_append]
  simp [run₂, h₂.endRoot root₂]

end Build

end WivOS.Utils
