import WivOS.Fs.Mounts
import WivOS.Utils.DtbSound

/-!
# Searching the device tree

`dtb_find_node` of `utils/dtb.c`. It cuts a copy of the path into components and takes one child for
each. One `currentIndex` serves all levels, and once it has come to `index` it stays there: `index`
counts the matches of the first component only, and every later one takes its first match (`walk_eq`).
In the exact mode a child is taken where `strcmp` is not 0 (`pickOther`).
-/

namespace WivOS.Utils
open WivOS.Fs

/-- `'@'`. -/
def atSign : UInt8 := 64

/-- The test of a name against a component where `exact` is 0. -/
def nameMatches (name nodeToMatch : Bytes) : Option Bool := do
  let nameLength ← strlen name
  let length ← strlen nodeToMatch
  if (nameLength > length ∧ name[length]? = some atSign) ∨ nameLength ≤ length then
    return (← strncmp name nodeToMatch length) = 0
  return false

/-- The `foreach` of `dtb_find_node`: the child it takes, and `currentIndex`, which counts nodes of a
blob of less than 4 GiB. -/
def matchChild (tree : Gentree DtbNode) (nodeToMatch : Bytes) (index : Int) (exact : Bool) :
    List Nat → Int → Option (Option Nat × Int)
  | [], currentIndex => some (none, currentIndex)
  | gentreeNode :: children, currentIndex => do
    let node := (← tree.nodes gentreeNode).value
    if exact then
      if (← strcmp node.name nodeToMatch) ≠ 0 then return (some gentreeNode, currentIndex)
      matchChild tree nodeToMatch index exact children currentIndex
    else
      if ← nameMatches node.name nodeToMatch then
        if index = currentIndex then return (some gentreeNode, currentIndex)
        matchChild tree nodeToMatch index exact children (currentIndex + 1)
      else matchChild tree nodeToMatch index exact children currentIndex

/-- The loop of `dtb_find_node`, of `fuel` rounds at most. -/
def findLoop (tree : Gentree DtbNode) (index : Int) (exact : Bool) :
    Nat → Heap → Option Ptr → Nat → Int → Option (Option Nat × Heap)
  | 0, _, _, _, _ => none
  | fuel + 1, h, tempName, currentNode, currentIndex => do
    let (nodeToMatch, tempName, h) ← h.strsep tempName [slash]
    match nodeToMatch with
    | none => return (some currentNode, h)
    | some nodeToMatch =>
      let nodeToMatch ← h.bytes nodeToMatch
      if (← strcmp nodeToMatch [0]) = 0 then return (some currentNode, h)
      let node ← tree.nodes currentNode
      match ← matchChild tree nodeToMatch index exact node.children currentIndex with
      | (none, _) => return (none, h)
      | (some child, currentIndex) => findLoop tree index exact fuel h tempName child currentIndex

/-- C `dtb_find_node`: the node, and the heap. -/
def dtbFindNode (dtbNodes : Option (Gentree DtbNode)) (h : Heap) (name : Ptr) (index : Int)
    (exact : Bool) : Option (Option Nat × Heap) :=
  match dtbNodes with
  | none => some (none, h)
  | some tree => do
    let (freeFilename, h) ← h.strdup name
    let str ← h.bytes freeFilename
    let c ← str.head?
    let tempName := if c = slash then freeFilename.add 1 else freeFilename
    let root ← tree.root
    let (result, h) ← findLoop tree index exact (str.length + 1) h (some tempName) root 0
    return (result, h.kfree freeFilename)

/-- A name that is the component, or goes on with an `'@'` behind it. -/
def Named (c name : Bytes) : Prop := name = c ∨ c ++ [atSign] <+: name

instance (c name : Bytes) : Decidable (Named c name) := inferInstanceAs (Decidable (_ ∨ _))

section Tree
variable (tree : Gentree DtbNode)

/-- The children of a node. -/
def childrenOf (n : Nat) : List Nat := (tree.nodes n).elim [] (·.children)

/-- The name of a node. -/
def nodeName (n : Nat) : Option Bytes := (tree.nodes n).map fun g => strOf g.value.name

/-- The children that match a component, in the order of the list. -/
def matching (n : Nat) (c : Bytes) : List Nat :=
  (childrenOf tree n).filter fun m => (nodeName tree m).any fun name => Named c name

/-- The child that is taken where `exact` is 0, and `currentIndex`. -/
def pickMatch (index : Int) (n : Nat) (k : Int) (c : Bytes) : Option Nat × Int :=
  if k ≤ index ∧ index < k + (matching tree n c).length then
    ((matching tree n c)[(index - k).toNat]?, index)
  else (none, k + (matching tree n c).length)

/-- The child that is taken in the exact mode. -/
def pickOther (n : Nat) (k : Int) (c : Bytes) : Option Nat × Int :=
  ((childrenOf tree n).find? fun m => nodeName tree m ≠ some c, k)

end Tree

/-- A walk down the tree that takes a child for each component. -/
def walk (pick : Nat → Int → Bytes → Option Nat × Int) : Nat → Int → List Bytes → Option Nat
  | n, _, [] => some n
  | n, k, c :: cs =>
    match pick n k c with
    | (none, _) => none
    | (some m, k') => walk pick m k' cs

section Match
variable {tree : Gentree DtbNode} {token name c : Bytes} {index k : Int}

/-- The comparison of lengths and bytes is the test of a name. -/
lemma named_iff {s : Bytes} : Named c s ↔
    ((s.length > c.length ∧ s[c.length]? = some atSign) ∨ s.length ≤ c.length) ∧ s.take c.length = c := by
  constructor
  · rintro (rfl | ⟨rest, rfl⟩)
    · exact ⟨.inr le_rfl, List.take_length⟩
    · refine ⟨.inl ⟨by simp, by simp⟩, ?_⟩
      rw [List.append_assoc, List.take_left]
  · rintro ⟨⟨-, sign⟩ | le, start⟩
    · right
      have split : s = c ++ s.drop c.length := by
        nth_rewrite 1 [← List.take_append_drop c.length s]
        rw [start]
      rw [List.getElem?_eq_some_iff] at sign
      obtain ⟨lt, sign⟩ := sign
      rw [List.drop_eq_getElem_cons lt, sign] at split
      exact ⟨_, by rw [List.append_assoc]; exact split.symm⟩
    · left
      rw [← start, List.take_of_length_le le]

/-- The test of a name is `Named`. -/
lemma nameMatches_eq {s : Bytes} (h : IsStr name s) (h' : IsStr token c) :
    nameMatches name token = some (decide (Named c s)) := by
  have compared := strncmp_prefix (n := c.length) h h'
  rw [List.take_length] at compared
  have ends : ((s.length > c.length ∧ name[c.length]? = some atSign) ∨ s.length ≤ c.length) ↔
      ((s.length > c.length ∧ s[c.length]? = some atSign) ∨ s.length ≤ c.length) := by
    obtain ⟨-, rest, rfl⟩ := h
    refine or_congr_left (and_congr_right fun lt => ?_)
    rw [List.getElem?_append_left lt]
  simp only [nameMatches, strlen_eq h, strlen_eq h', Option.bind_eq_bind, Option.bind_some, compared,
    ends, named_iff, Option.pure_def]
  split
  · next inside =>
    by_cases start : s.take c.length = c
    · simp [start, inside]
    · simp [start]
  · next outside => simp [outside]

variable (sound : DtbTree tree)
include sound

/-- The loop over the children where `exact` is 0. -/
lemma matchChild_match (h' : IsStr token c) {children : List Nat}
    (live : ∀ m ∈ children, ∃ g, tree.nodes m = some g) (k : Int) :
    let ms := children.filter fun m => (nodeName tree m).any fun name => Named c name
    matchChild tree token index false children k = some
      (if k ≤ index ∧ index < k + ms.length then (ms[(index - k).toNat]?, index)
      else (none, k + ms.length)) := by
  induction children generalizing k with
  | nil =>
    have : ¬ (k ≤ index ∧ index < k) := by omega
    simp [matchChild, this]
  | cons m children ih =>
    obtain ⟨g, hg⟩ := live m List.mem_cons_self
    have rest := ih fun m hm => live m (List.mem_cons_of_mem _ hm)
    have test := nameMatches_eq ((sound.node hg).named) h'
    by_cases named : Named c (strOf g.value.name)
    · have kept : ((nodeName tree m).any fun name => Named c name) = true := by
        simp [nodeName, hg, named]
      simp only [List.filter_cons, kept, if_true]
      by_cases here : index = k
      · subst here
        simp [matchChild, hg, test, named]
      · have more := rest (k + 1)
        simp only [matchChild, hg, test, named, here, more, Option.bind_eq_bind, Option.bind_some,
          decide_true, Bool.false_eq_true, if_false, if_true, List.length_cons]
        split
        · next inside =>
          have next : (index - k).toNat = (index - (k + 1)).toNat + 1 := by omega
          rw [if_pos (by push_cast; omega), next, List.getElem?_cons_succ]
        · next outside =>
          rw [if_neg (by push_cast; omega)]
          push_cast
          rw [add_right_comm, add_assoc]
    · have dropped : ((nodeName tree m).any fun name => Named c name) = false := by
        simp [nodeName, hg, named]
      simpa [matchChild, hg, test, named, List.filter_cons, dropped] using rest k

/-- The loop over the children in the exact mode. -/
lemma matchChild_exact (h' : IsStr token c) {children : List Nat}
    (live : ∀ m ∈ children, ∃ g, tree.nodes m = some g) (k : Int) :
    matchChild tree token index true children k =
      some (children.find? fun m => nodeName tree m ≠ some c, k) := by
  induction children with
  | nil => rfl
  | cons m children ih =>
    obtain ⟨g, hg⟩ := live m List.mem_cons_self
    have rest := ih fun m hm => live m (List.mem_cons_of_mem _ hm)
    obtain ⟨r, compared, zero⟩ := strcmp_eq ((sound.node hg).named) h'
    have name : nodeName tree m = some (strOf g.value.name) := by simp [nodeName, hg]
    by_cases same : strOf g.value.name = c
    · simpa [matchChild, hg, compared, zero.mpr same, List.find?_cons, name, same] using rest
    · simp [matchChild, hg, compared, mt zero.mp same, name, same]

end Match

/-- The loop over the children is a choice of one of them. -/
structure Picks (tree : Gentree DtbNode) (index : Int) (exact : Bool)
    (pick : Nat → Int → Bytes → Option Nat × Int) : Prop where
  step : ∀ {n g token c} (k : Int), tree.nodes n = some g → IsStr token c →
    matchChild tree token index exact g.children k = some (pick n k c)
  child : ∀ {n k c m k'}, pick n k c = (some m, k') → m ∈ childrenOf tree n

/-- The string is the path of the components, with or without a slash before them. -/
def Spells (bytes : Bytes) (cs : List Bytes) : Prop :=
  IsStr bytes ([slash].intercalate cs) ∨ IsStr bytes (absPath cs)

section Walk
variable {tree : Gentree DtbNode} {index k : Int} {exact : Bool} {n m r fuel : Nat} {h : Heap} {p : Ptr}
  {pick : Nat → Int → Bytes → Option Nat × Int} {bytes : Bytes} {cs ts : List Bytes}
  {g : GentreeNode DtbNode}

/-- The list of children has exactly these. -/
lemma mem_childrenOf : m ∈ childrenOf tree n ↔ tree.Child n m := by
  unfold childrenOf Gentree.Child
  cases tree.nodes n with
  | none => simp
  | some g => simp

/-- A child is a node of the tree. -/
lemma DtbTree.live (sound : DtbTree tree) (child : m ∈ childrenOf tree n) : ∃ g, tree.nodes m = some g :=
  (sound.grown.child (mem_childrenOf.mp child)).2

/-- The loop takes the child that `index` counts to. -/
lemma picks_match (sound : DtbTree tree) : Picks tree index false (pickMatch tree index) where
  step := by
    intro n g token c k hn ht
    have children : childrenOf tree n = g.children := by simp [childrenOf, hn]
    rw [matchChild_match sound ht (fun m hm => sound.live (children ▸ hm)), pickMatch, matching, children]
  child := by
    intro n k c m k' picked
    unfold pickMatch at picked
    split at picked
    · exact List.mem_of_mem_filter (List.mem_of_getElem? (congrArg Prod.fst picked))
    · cases picked

/-- In the exact mode it takes the first one with another name. -/
lemma picks_other (sound : DtbTree tree) : Picks tree index true (pickOther tree) where
  step := by
    intro n g token c k hn ht
    have children : childrenOf tree n = g.children := by simp [childrenOf, hn]
    rw [matchChild_exact sound ht (fun m hm => sound.live (children ▸ hm)), pickOther, children]
  child := by
    intro n k c m k' picked
    exact List.mem_of_find?_eq_some (congrArg Prod.fst picked)

/-- The loop walks down the tree by the components of the path. -/
lemma findLoop_eq (sound : DtbTree tree) (picks : Picks tree index exact pick) {path : Option Ptr}
    (hp : PathAt h path ts) (filled : ∀ t ∈ ts, t ≠ []) (hn : tree.nodes n = some g)
    (hf : ts.length < fuel) :
    ∃ h', findLoop tree index exact fuel h path n k = some (walk pick n k ts, h') ∧
      ∀ b, (∀ p, path = some p → b ≠ p.block) → h'.blocks b = h.blocks b := by
  induction ts generalizing h path n g k fuel with
  | nil =>
    cases hp
    obtain ⟨fuel, rfl⟩ := Nat.exists_eq_add_one_of_ne_zero (Nat.ne_of_gt hf)
    exact ⟨h, by simp [findLoop, strsep_none, walk], fun _ _ => rfl⟩
  | cons t ts ih =>
    obtain ⟨fuel, rfl⟩ := Nat.exists_eq_add_one_of_ne_zero (Nat.ne_zero_of_lt hf)
    obtain ⟨p, rfl⟩ : ∃ p, path = some p := by
      cases hp
      exact ⟨_, rfl⟩
    simp only [List.mem_cons, forall_eq_or_imp] at filled
    obtain ⟨path', h', token, sep, bytes, isStr, hp', moved, frame, -⟩ := hp.strsep
    obtain ⟨r, cmp, empty⟩ := strcmp_empty isStr
    have hr : r ≠ 0 := fun e => filled.1 (empty.mp e)
    have step := picks.step k hn isStr
    have hf' : ts.length < fuel := by
      simp only [List.length_cons] at hf
      omega
    cases picked : pick n k t with
    | mk child k' =>
      cases child with
      | none =>
        refine ⟨h', ?_, fun b hb => frame b (hb p rfl)⟩
        simp [findLoop, sep, bytes, cmp, hr, hn, step, picked, walk]
      | some m =>
        obtain ⟨g', hm⟩ := sound.live (picks.child picked)
        obtain ⟨h'', run, frame'⟩ := ih (k := k') hp' filled.2 hm hf'
        refine ⟨h'', ?_, fun b hb => ?_⟩
        · simpa [findLoop, sep, bytes, cmp, hr, hn, step, picked, walk] using run
        · have other : ∀ p', path' = some p' → b ≠ p'.block := by
            intro p' e
            rw [moved p' e]
            exact hb p rfl
          rw [frame' b other, frame b (hb p rfl)]

/-- Without components the root is found. -/
lemma findLoop_empty {rest : Bytes} (hb : h.bytes p = some (0 :: rest)) :
    findLoop tree index exact (fuel + 1) h (some p) n k = some (some n, h) := by
  have sep : h.strsep (some p) [slash] = some (some p, none, h) :=
    strsep_last (by simpa using hb) List.not_mem_nil List.not_mem_nil
  simp [findLoop, sep, hb, strcmp]

/-- The loop over a string of components. -/
lemma findLoop_components (fuel : Nat) (sound : DtbTree tree) (picks : Picks tree index exact pick)
    (hn : tree.nodes n = some g) (hcs : ∀ c ∈ cs, IsComponent c)
    (hb : h.bytes p = some ([slash].intercalate cs ++ [0]))
    (hf : ([slash].intercalate cs).length + 1 < fuel) :
    ∃ h', findLoop tree index exact fuel h (some p) n k = some (walk pick n k cs, h') ∧
      ∀ b, b ≠ p.block → h'.blocks b = h.blocks b := by
  cases cs with
  | nil =>
    obtain ⟨fuel, rfl⟩ := Nat.exists_eq_add_one_of_ne_zero (Nat.ne_zero_of_lt hf)
    exact ⟨h, findLoop_empty (by simpa using hb), fun _ _ => rfl⟩
  | cons c cs =>
    have filled : ∀ t ∈ c :: cs, t ≠ [] := fun t ht => (hcs t ht).2
    have tokens : PathAt h (some p) (c :: cs) := pathAt_components (by simp) hcs hb
    have long := length_le_intercalate (c :: cs)
    have enough : (c :: cs).length < fuel := by omega
    obtain ⟨h', run, frame⟩ := findLoop_eq (k := k) sound picks tokens filled hn enough
    refine ⟨h', run, fun b ne => frame b fun p' hp' => ?_⟩
    cases hp'
    exact ne

/-- Components do not begin with a slash. -/
lemma head_components (hcs : ∀ c ∈ cs, IsComponent c) :
    ∃ x, ([slash].intercalate cs ++ [0]).head? = some x ∧ x ≠ slash := by
  cases cs with
  | nil => exact ⟨0, by simp, by decide⟩
  | cons c cs =>
    obtain ⟨⟨-, noSlash⟩, filled⟩ := hcs c List.mem_cons_self
    obtain ⟨x, c, rfl⟩ := List.exists_cons_of_ne_nil filled
    refine ⟨x, ?_, fun e => noSlash (e ▸ List.mem_cons_self)⟩
    cases cs with
    | nil => simp
    | cons c' cs => simp [List.intercalate_cons_cons]

/-- `dtb_find_node` walks over a copy `s` of the path, from the pointer `q` behind a leading slash on. -/
lemma dtbFindNode_copy {s : Bytes} {q : Ptr} {x : UInt8} (sound : DtbTree tree)
    (picks : Picks tree index exact pick) (hr : tree.root = some r) (hb : h.bytes p = some bytes)
    (hcs : ∀ c ∈ cs, IsComponent c) (isStr : IsStr bytes s) (block : q.block = h.next)
    (head : (s ++ [0]).head? = some x)
    (start : (if x = slash then (⟨h.next, 0⟩ : Ptr).add 1 else ⟨h.next, 0⟩) = q)
    (rest : (s ++ [0]).drop q.offset = [slash].intercalate cs ++ [0])
    (long : ([slash].intercalate cs).length ≤ s.length) :
    ∃ h', dtbFindNode (some tree) h p index exact = some (walk pick r 0 cs, h') ∧
      ∀ b, b < h.next → h'.blocks b = h.blocks b := by
  obtain ⟨⟨g, hg⟩, -⟩ := sound.grown.root hr
  let h₁ : Heap := ⟨Function.update h.blocks h.next (some (s ++ [0])), h.next + 1⟩
  have dup : h.strdup p = some (⟨h.next, 0⟩, h₁) := by simp [Heap.strdup, hb, dupBytes_eq isStr, h₁]
  have whole : h₁.bytes ⟨h.next, 0⟩ = some (s ++ [0]) := by simp [Heap.bytes, h₁]
  have behind : h₁.bytes q = some ([slash].intercalate cs ++ [0]) := by
    simp [Heap.bytes, block, rest, h₁]
  have fuel : ([slash].intercalate cs).length + 1 < (s ++ [0]).length + 1 := by
    rw [List.length_append, List.length_singleton]
    omega
  obtain ⟨h', run, frame⟩ := findLoop_components (k := 0) _ sound picks hg hcs behind fuel
  refine ⟨h'.kfree ⟨h.next, 0⟩, ?_, fun b lt => ?_⟩
  · simp only [dtbFindNode, dup, whole, head, start, hr, run, Option.bind_eq_bind, Option.bind_some]
    rfl
  · have ne : b ≠ h.next := by omega
    have kept : (h'.kfree ⟨h.next, 0⟩).blocks b = h'.blocks b := Function.update_of_ne ne ..
    rw [kept, frame b (block ▸ ne)]
    exact Function.update_of_ne ne ..

/-- `dtb_find_node` of a path of components: it walks down from the root, and the blocks that were there
before keep their bytes. -/
lemma dtbFindNode_eq (sound : DtbTree tree) (picks : Picks tree index exact pick)
    (hr : tree.root = some r) (hb : h.bytes p = some bytes) (hcs : ∀ c ∈ cs, IsComponent c)
    (hs : Spells bytes cs) :
    ∃ h', dtbFindNode (some tree) h p index exact = some (walk pick r 0 cs, h') ∧
      ∀ b, b < h.next → h'.blocks b = h.blocks b := by
  rcases hs with isStr | isStr
  · obtain ⟨x, head, ne⟩ := head_components hcs
    exact dtbFindNode_copy sound picks hr hb hcs isStr rfl head (if_neg ne) rfl le_rfl
  · exact dtbFindNode_copy sound picks hr hb hcs isStr rfl rfl (if_pos rfl) rfl (by simp [absPath])

end Walk

/-- A chain of child steps whose names stand in a relation to the components. -/
inductive Chain (tree : Gentree DtbNode) (P : Bytes → Bytes → Prop) : Nat → List Bytes → Nat → Prop where
  | nil {n} : Chain tree P n [] n
  | cons {n m l c cs name} : tree.Child n m → nodeName tree m = some name → P c name →
      Chain tree P m cs l → Chain tree P n (c :: cs) l

/-- The node that is reached by the first match of each component. -/
def firstMatch (tree : Gentree DtbNode) : Nat → List Bytes → Option Nat
  | n, [] => some n
  | n, c :: cs => (matching tree n c).head?.bind fun m => firstMatch tree m cs

section Matches
variable {tree : Gentree DtbNode} {index : Int} {n m r : Nat} {h : Heap} {p : Ptr}
  {bytes c : Bytes} {cs : List Bytes}

/-- The children that match a component. -/
lemma mem_matching : m ∈ matching tree n c ↔
    tree.Child n m ∧ ∃ name, nodeName tree m = some name ∧ Named c name := by
  rw [matching, List.mem_filter, mem_childrenOf, Option.any_eq_true]
  simp

/-- Once it has come to the index, the walk takes the first match of each component. -/
lemma walk_index (tree : Gentree DtbNode) (index : Int) (n : Nat) (cs : List Bytes) :
    walk (pickMatch tree index) n index cs = firstMatch tree n cs := by
  induction cs generalizing n with
  | nil => rfl
  | cons c cs ih =>
    cases ms : matching tree n c with
    | nil => simp [walk, pickMatch, firstMatch, ms]
    | cons m ms' =>
      have inside : index < index + ((ms'.length + 1 : Nat) : Int) := by omega
      simp only [walk, pickMatch, ms, firstMatch, List.length_cons]
      rw [if_pos ⟨le_rfl, inside⟩]
      simpa using ih m

/-- The index counts the matches of the first component. -/
lemma walk_eq (tree : Gentree DtbNode) (index : Int) (n : Nat) (c : Bytes) (cs : List Bytes) :
    walk (pickMatch tree index) n 0 (c :: cs) =
      if 0 ≤ index then (matching tree n c)[index.toNat]?.bind fun m => firstMatch tree m cs else none := by
  by_cases inside : 0 ≤ index ∧ index < 0 + (matching tree n c).length
  · have lt : index.toNat < (matching tree n c).length := by omega
    have picked := List.getElem?_eq_getElem lt
    rw [if_pos inside.1, walk, pickMatch, if_pos inside, Int.sub_zero, picked]
    exact walk_index tree index _ cs
  · rw [walk, pickMatch, if_neg inside]
    by_cases pos : 0 ≤ index
    · rw [if_pos pos, List.getElem?_eq_none (by omega)]
      rfl
    · rw [if_neg pos]

/-- The first matches are a chain of child steps. -/
lemma firstMatch_chain {l : Nat} (reached : firstMatch tree n cs = some l) : Chain tree Named n cs l := by
  induction cs generalizing n with
  | nil =>
    cases reached
    exact .nil
  | cons c cs ih =>
    rw [firstMatch, Option.bind_eq_some_iff] at reached
    obtain ⟨m, first, rest⟩ := reached
    obtain ⟨child, name, named, matched⟩ := mem_matching.mp (List.mem_of_mem_head? first)
    exact .cons child named matched (ih rest)

/-- The walk by first matches ends at a component without one. -/
lemma firstMatch_none (missed : firstMatch tree n cs = none) :
    ∃ before c after m, cs = before ++ c :: after ∧ firstMatch tree n before = some m ∧
      matching tree m c = [] := by
  induction cs generalizing n with
  | nil => cases missed
  | cons c cs ih =>
    cases first : (matching tree n c).head? with
    | none => exact ⟨[], c, cs, n, rfl, rfl, List.head?_eq_none_iff.mp first⟩
    | some m =>
      rw [firstMatch, first] at missed
      obtain ⟨before, c', after, m', split, reached, none⟩ := ih missed
      refine ⟨c :: before, c', after, m', by rw [split]; rfl, ?_, none⟩
      rw [firstMatch, first]
      exact reached

/-- For every device tree, path of components and index: a node that `dtb_find_node` returns is reached
by a chain of children that match the components; at the index 0 it returns `NULL` only if a component has
no match below the node that the first matches lead to; and the path is left as it was. -/
theorem dtb_find_node_chain (sound : DtbTree tree) (hr : tree.root = some r)
    (hb : h.bytes p = some bytes) (allocated : p.block < h.next) (hcs : ∀ c ∈ cs, IsComponent c)
    (hs : Spells bytes cs) (index : Int) :
    ∃ found h', dtbFindNode (some tree) h p index false = some (found, h') ∧
      (∀ n, found = some n → Chain tree Named r cs n) ∧
      (index = 0 → found = none → ∃ before c after m, cs = before ++ c :: after ∧
        firstMatch tree r before = some m ∧
        ∀ l name, tree.Child m l → nodeName tree l = some name → ¬ Named c name) ∧
      h'.bytes p = h.bytes p := by
  obtain ⟨h', run, frame⟩ := dtbFindNode_eq sound (picks_match sound) hr hb hcs hs
  refine ⟨_, h', run, ?_, ?_, ?_⟩
  · intro n found
    cases cs with
    | nil =>
      cases found
      exact .nil
    | cons c cs =>
      rw [walk_eq] at found
      split at found
      · obtain ⟨m, picked, rest⟩ := Option.bind_eq_some_iff.mp found
        obtain ⟨child, name, named, matched⟩ := mem_matching.mp (List.mem_of_getElem? picked)
        exact .cons child named matched (firstMatch_chain rest)
      · cases found
  · rintro rfl missed
    rw [walk_index] at missed
    obtain ⟨before, c, after, m, split, reached, none⟩ := firstMatch_none missed
    refine ⟨before, c, after, m, split, reached, fun l name child named matched => ?_⟩
    have member := mem_matching.mpr ⟨child, name, named, matched⟩
    rw [none] at member
    exact List.not_mem_nil member
  · rw [Heap.bytes, Heap.bytes, frame p.block allocated]

end Matches

/-- Each component has one match, along the way from a node to another. -/
def OnlyMatch (tree : Gentree DtbNode) : Nat → List Bytes → Nat → Prop
  | n, [], parent => n = parent
  | n, c :: cs, parent => ∃ m, matching tree n c = [m] ∧ OnlyMatch tree m cs parent

/-- What a call of `dtb_find_node` returns. -/
def Finds (tree : Gentree DtbNode) (h : Heap) (p : Ptr) (index : Int) (exact : Bool)
    (found : Option Nat) : Prop :=
  ∃ h', dtbFindNode (some tree) h p index exact = some (found, h')

/-- The calls for 0, 1, 2 and so on return each child that matches once, and `NULL` after them. -/
def Enumerates (tree : Gentree DtbNode) (h : Heap) (p : Ptr) (parent : Nat) (c : Bytes) : Prop :=
  ∃ found : List Nat, found.Nodup ∧
    (∀ n, n ∈ found ↔ tree.Child parent n ∧ ∃ name, nodeName tree n = some name ∧ Named c name) ∧
    (∀ (i : Nat) n, found[i]? = some n → Finds tree h p i false (some n)) ∧
    Finds tree h p found.length false none

/-- A tree with a node more. -/
def withNode (tree : Gentree DtbNode) (subroot : Option Nat) (name : Bytes) : Gentree DtbNode :=
  ((gentreeInsert tree subroot ⟨name ++ [0], [], tree.root.isNone⟩).map (·.2)).getD tree

/-- One more node keeps the tree as it should be. -/
lemma DtbTree.withNode {tree : Gentree DtbNode} (sound : DtbTree tree) (subroot : Option Nat) {name : Bytes}
    (h0 : 0 ∉ name) : DtbTree (withNode tree subroot name) := by
  unfold Utils.withNode
  cases inserted : gentreeInsert tree subroot ⟨name ++ [0], [], tree.root.isNone⟩ with
  | none => exact sound
  | some result => exact sound.insert h0 inserted

/-- The node 1, `"cpus"`, below the root, and below it the nodes 2, `"cpu@0"`, and 3, `"cpu@1"`. -/
def cpusTree : Gentree DtbNode :=
  withNode (withNode (withNode (withNode gentreeCreate none []) (some 0) [99, 112, 117, 115]) (some 1)
    [99, 112, 117, 64, 48]) (some 1) [99, 112, 117, 64, 49]

/-- The tree of the `cpus` is one. -/
lemma dtbTree_cpus : DtbTree cpusTree :=
  (((dtbTree_create.withNode none (by decide)).withNode (some 0) (by decide)).withNode (some 1)
    (by decide)).withNode (some 1) (by decide)

/-- A heap with a path in it. -/
def pathHeap (path : Bytes) : Heap := ⟨Function.update (fun _ => none) 0 (some (path ++ [0])), 1⟩

/-- `"/cpus/cpu"`. -/
def cpuPath : Bytes := [47, 99, 112, 117, 115, 47, 99, 112, 117]

/-- Its names are components. -/
lemma isComponent_cpus : ∀ c ∈ [[99, 112, 117, 115]] ++ [[99, 112, 117]], IsComponent c := by
  simp [IsComponent, IsToken, slash]

/-- The path is that of the components. -/
lemma spells_cpuPath : Spells (cpuPath ++ [0]) ([[99, 112, 117, 115]] ++ [[99, 112, 117]]) :=
  .inr (isStr_self (by decide))

/-- `"/cpus/cpu"` is found. -/
theorem dtb_find_node_chain_cpu :
    ∃ found h', dtbFindNode (some cpusTree) (pathHeap cpuPath) ⟨0, 0⟩ 0 false = some (found, h') ∧
      (∀ n, found = some n → Chain cpusTree Named 0 [[99, 112, 117, 115], [99, 112, 117]] n) ∧
      found = some 3 := by
  obtain ⟨found, h', run, chain, -⟩ := dtb_find_node_chain dtbTree_cpus rfl
    (rfl : (pathHeap cpuPath).bytes ⟨0, 0⟩ = some (cpuPath ++ [0])) (by decide) isComponent_cpus
    spells_cpuPath 0
  refine ⟨found, h', run, chain, ?_⟩
  cases run
  rfl

section Enumerate
variable {tree : Gentree DtbNode} {index : Int} {n m r parent : Nat} {h : Heap} {p : Ptr}
  {bytes c : Bytes} {cs : List Bytes}

/-- No child matches twice. -/
lemma DtbTree.nodup_matching (sound : DtbTree tree) (n : Nat) (c : Bytes) : (matching tree n c).Nodup := by
  refine List.Nodup.filter _ ?_
  unfold childrenOf
  cases hn : tree.nodes n with
  | none => exact List.nodup_nil
  | some g => exact (sound.node hn).distinct

/-- The first match below the only way down. -/
lemma OnlyMatch.firstMatch (only : OnlyMatch tree n cs parent) (c : Bytes) :
    firstMatch tree n (cs ++ [c]) = (matching tree parent c).head? := by
  induction cs generalizing n with
  | nil =>
    cases only
    simp [Utils.firstMatch]
  | cons c' cs ih =>
    obtain ⟨m, one, rest⟩ := only
    simp [Utils.firstMatch, one, ih rest]

/-- What is found for each index. -/
lemma OnlyMatch.walk (only : OnlyMatch tree n cs parent) (c : Bytes) (i : Nat) :
    walk (pickMatch tree i) n 0 (cs ++ [c]) =
      if cs = [] then (matching tree parent c)[i]?
      else if i = 0 then (matching tree parent c).head? else none := by
  cases cs with
  | nil =>
    cases only
    simp [walk_eq, Utils.firstMatch]
  | cons c' cs =>
    obtain ⟨m, one, rest⟩ := only
    rw [List.cons_append, walk_eq, one, if_pos (Int.natCast_nonneg i)]
    cases i with
    | zero => simpa using rest.firstMatch c
    | succ i => simp

section Calls
variable (sound : DtbTree tree) (hr : tree.root = some r) (hb : h.bytes p = some bytes)
  (hcs : ∀ c' ∈ cs ++ [c], IsComponent c') (hs : Spells bytes (cs ++ [c]))
  (only : OnlyMatch tree r cs parent)
include sound hr hb hcs hs only

/-- What each call returns. -/
lemma finds_iff (i : Nat) (found : Option Nat) : Finds tree h p i false found ↔ found =
    if cs = [] then (matching tree parent c)[i]?
    else if i = 0 then (matching tree parent c).head? else none := by
  obtain ⟨h', run, -⟩ := dtbFindNode_eq sound (picks_match sound : Picks tree i false _) hr hb hcs hs
  rw [Finds, run, only.walk c i]
  simp [eq_comm]

/-- Below the first component there is one match at most to enumerate. -/
lemma Enumerates.length_le_one (several : cs ≠ []) (enumerated : Enumerates tree h p parent c) :
    (matching tree parent c).length ≤ 1 := by
  obtain ⟨found, once, members, returned, -⟩ := enumerated
  by_contra two
  have length : found.length = (matching tree parent c).length := by
    have nodup := sound.nodup_matching parent c
    refine ((List.perm_ext_iff_of_nodup once nodup).mpr fun n => ?_).length_eq
    rw [members, mem_matching]
  have second := returned 1 _ (List.getElem?_eq_getElem (by omega))
  rw [finds_iff sound hr hb hcs hs only, if_neg several] at second
  cases second

end Calls

/-- For every device tree and path whose components before the last have one match each: the calls
enumerate the matches of the last one if and only if it is the only component or has one match at most. -/
theorem dtb_find_node_enumerates_iff (sound : DtbTree tree) (hr : tree.root = some r)
    (hb : h.bytes p = some bytes) (hcs : ∀ c' ∈ cs ++ [c], IsComponent c')
    (hs : Spells bytes (cs ++ [c])) (only : OnlyMatch tree r cs parent) :
    Enumerates tree h p parent c ↔ cs = [] ∨ (matching tree parent c).length ≤ 1 := by
  constructor
  · intro enumerated
    by_cases single : cs = []
    · exact .inl single
    · exact .inr (enumerated.length_le_one sound hr hb hcs hs only single)
  · intro holds
    have finds := finds_iff sound hr hb hcs hs only
    refine ⟨matching tree parent c, sound.nodup_matching parent c, fun n => mem_matching,
      fun i n at_i => ?_, ?_⟩
    · rw [finds, ← at_i]
      split
      · rfl
      · next several =>
        obtain ⟨lt, -⟩ := List.getElem?_eq_some_iff.mp at_i
        have zero : i = 0 := by
          have one := holds.resolve_left several
          omega
        rw [if_pos zero, zero, List.head?_eq_getElem?]
    · rw [finds, List.getElem?_eq_none le_rfl]
      split
      · rfl
      · split
        · next empty =>
          rw [List.length_eq_zero_iff.mp empty]
          rfl
        · rfl

end Enumerate

/-- The node `cpus` is the only match of its name. -/
lemma onlyMatch_cpus : OnlyMatch cpusTree 0 [[99, 112, 117, 115]] 1 := ⟨1, rfl, rfl⟩

/-- `"/cpus"` has one match. -/
theorem dtb_find_node_enumerates_iff_cpus :
    Enumerates cpusTree (pathHeap [47, 99, 112, 117, 115]) ⟨0, 0⟩ 0 [99, 112, 117, 115] := by
  have only : OnlyMatch cpusTree 0 [] 0 := rfl
  have hb : (pathHeap [47, 99, 112, 117, 115]).bytes ⟨0, 0⟩ = some [47, 99, 112, 117, 115, 0] := rfl
  have hcs : ∀ c ∈ [] ++ [[99, 112, 117, 115]], IsComponent c := by simp [IsComponent, IsToken, slash]
  have hs : Spells [47, 99, 112, 117, 115, 0] ([] ++ [[99, 112, 117, 115]]) :=
    .inr (isStr_self (by decide))
  exact (dtb_find_node_enumerates_iff dtbTree_cpus rfl hb hcs hs only).mpr (.inl rfl)

/-- The second of two processors is not found. -/
theorem dtb_find_node_second_cpu :
    OnlyMatch cpusTree 0 [[99, 112, 117, 115]] 1 ∧
      Finds cpusTree (pathHeap cpuPath) ⟨0, 0⟩ 0 false (some 3) ∧
      Finds cpusTree (pathHeap cpuPath) ⟨0, 0⟩ 1 false none ∧
      ¬ Enumerates cpusTree (pathHeap cpuPath) ⟨0, 0⟩ 1 [99, 112, 117] := by
  refine ⟨onlyMatch_cpus, ⟨_, rfl⟩, ⟨_, rfl⟩, fun enumerated => ?_⟩
  have le := enumerated.length_le_one dtbTree_cpus rfl
    (rfl : (pathHeap cpuPath).bytes ⟨0, 0⟩ = some (cpuPath ++ [0])) isComponent_cpus spells_cpuPath
    onlyMatch_cpus (by simp)
  contradiction

/-- The call returns the node with these names from the root on, and `NULL` if there is none. -/
def FindsExactly (tree : Gentree DtbNode) (h : Heap) (p : Ptr) (index : Int) (r : Nat) (cs : List Bytes) :
    Prop :=
  ∃ found, Finds tree h p index true found ∧ ∀ n, found = some n ↔ Chain tree Eq r cs n

/-- The way down that takes for each component the first child with another name comes to a node that has
no such child. -/
inductive Stuck (tree : Gentree DtbNode) : Nat → List Bytes → Prop where
  | here {n c cs} : (∀ m, tree.Child n m → nodeName tree m = some c) → Stuck tree n (c :: cs)
  | later {n m c cs} : (childrenOf tree n).find? (fun m => nodeName tree m ≠ some c) = some m →
      Stuck tree m cs → Stuck tree n (c :: cs)

section Exact
variable {tree : Gentree DtbNode} {index k : Int} {n m l r : Nat} {h : Heap} {p : Ptr}
  {bytes c : Bytes} {cs : List Bytes}

/-- The walk of the exact mode ends in `NULL` where it gets stuck. -/
lemma walk_other_none : walk (pickOther tree) n k cs = none ↔ Stuck tree n cs := by
  induction cs generalizing n with
  | nil =>
    constructor
    · intro missed
      cases missed
    · intro stuck
      cases stuck
  | cons c cs ih =>
    cases other : (childrenOf tree n).find? (fun m => nodeName tree m ≠ some c) with
    | none =>
      have all : ∀ m, tree.Child n m → nodeName tree m = some c := by
        intro m child
        have same := List.find?_eq_none.mp other m (mem_childrenOf.mpr child)
        simpa using same
      constructor
      · intro _
        exact .here all
      · intro _
        simp only [walk, pickOther, other]
    | some m =>
      simp only [walk, pickOther, other]
      rw [ih]
      constructor
      · exact .later other
      · intro stuck
        cases stuck with
        | here all =>
          have member := List.mem_of_find?_eq_some other
          have differs := List.find?_some other
          simp [all m (mem_childrenOf.mp member)] at differs
        | later other' rest =>
          rw [other] at other'
          cases other'
          exact rest

/-- The node at the end of the walk does not have the name of the last component. -/
lemma walk_other_last (found : walk (pickOther tree) n k (cs ++ [c]) = some l) : nodeName tree l ≠ some c := by
  induction cs generalizing n with
  | nil =>
    cases other : (childrenOf tree n).find? (fun m => nodeName tree m ≠ some c) with
    | none =>
      simp only [List.nil_append, walk, pickOther, other] at found
      cases found
    | some m =>
      simp only [List.nil_append, walk, pickOther, other] at found
      cases found
      simpa using List.find?_some other
  | cons c' cs ih =>
    cases other : (childrenOf tree n).find? (fun m => nodeName tree m ≠ some c') with
    | none =>
      simp only [List.cons_append, walk, pickOther, other] at found
      cases found
    | some m =>
      simp only [List.cons_append, walk, pickOther, other] at found
      exact ih found

/-- The last node of a chain has the last name. -/
lemma Chain.last (chain : Chain tree Eq n (cs ++ [c]) l) : nodeName tree l = some c := by
  induction cs generalizing n with
  | nil =>
    cases chain with
    | cons _ named same rest =>
      cases rest
      rw [named, same]
  | cons c' cs ih =>
    cases chain with
    | cons _ _ _ rest => exact ih rest

/-- For every device tree, path of components and index: the exact mode returns the node whose names from
the root on are the components, and `NULL` if and only if there is none, exactly if there are no
components, or there is no such node and the way down by first children with other names gets stuck. -/
theorem dtb_find_node_exact_iff (sound : DtbTree tree) (hr : tree.root = some r)
    (hb : h.bytes p = some bytes) (hcs : ∀ c ∈ cs, IsComponent c) (hs : Spells bytes cs) (index : Int) :
    FindsExactly tree h p index r cs ↔
      cs = [] ∨ (¬ ∃ n, Chain tree Eq r cs n) ∧ Stuck tree r cs := by
  obtain ⟨h', run, -⟩ := dtbFindNode_eq sound (picks_other sound : Picks tree index true _) hr hb hcs hs
  have finds : ∀ found, Finds tree h p index true found ↔ found = walk (pickOther tree) r 0 cs := by
    intro found
    rw [Finds, run]
    simp [eq_comm]
  constructor
  · rintro ⟨found, returned, exact_iff⟩
    rw [finds] at returned
    obtain rfl | ⟨before, c, rfl⟩ := List.eq_nil_or_concat cs
    · exact .inl rfl
    · right
      cases found with
      | some l =>
        rw [List.concat_eq_append] at returned exact_iff
        exact absurd ((exact_iff l).mp rfl).last (walk_other_last returned.symm)
      | none =>
        refine ⟨?_, walk_other_none.mp returned.symm⟩
        rintro ⟨n, chain⟩
        cases (exact_iff n).mpr chain
  · rintro (rfl | ⟨missing, stuck⟩)
    · refine ⟨some r, (finds _).mpr rfl, fun n => ⟨?_, ?_⟩⟩
      · intro same
        cases same
        exact .nil
      · intro chain
        cases chain
        rfl
    · refine ⟨none, (finds _).mpr (walk_other_none.mpr stuck).symm, fun n => ⟨?_, ?_⟩⟩
      · intro found
        cases found
      · intro chain
        exact absurd ⟨n, chain⟩ missing

end Exact

/-- The node 1, `"cpus"`, below the root. -/
def singleTree : Gentree DtbNode := withNode (withNode gentreeCreate none []) (some 0) [99, 112, 117, 115]

/-- The tree with one node below the root is one. -/
lemma dtbTree_single : DtbTree singleTree :=
  (dtbTree_create.withNode none (by decide)).withNode (some 0) (by decide)

/-- It has one child. -/
lemma singleTree_child {m : Nat} (child : singleTree.Child 0 m) : m = 1 := by
  obtain ⟨g, hg, member⟩ := child
  cases hg
  exact List.mem_singleton.mp member

/-- `"/a/b"` is not there, and the way down ends at the node 1, which has no children. -/
theorem dtb_find_node_exact_iff_missing :
    FindsExactly singleTree (pathHeap [47, 97, 47, 98]) ⟨0, 0⟩ 0 0 [[97], [98]] := by
  apply (dtb_find_node_exact_iff dtbTree_single rfl
    (rfl : (pathHeap [47, 97, 47, 98]).bytes ⟨0, 0⟩ = some [47, 97, 47, 98, 0])
    (by simp [IsComponent, IsToken, slash]) (.inr (isStr_self (by decide))) 0).mpr
  refine .inr ⟨?_, .later (m := 1) rfl (.here fun m child => ?_)⟩
  · rintro ⟨n, chain⟩
    cases chain with
    | cons child named same _ =>
      rw [singleTree_child child] at named
      rw [← same] at named
      contradiction
  · obtain ⟨g, hg, member⟩ := child
    cases hg
    cases member

/-- `"/cpus"` is there, and is not found. -/
theorem dtb_find_node_exact_cpus :
    Chain singleTree Eq 0 [[99, 112, 117, 115]] 1 ∧
      Finds singleTree (pathHeap [47, 99, 112, 117, 115]) ⟨0, 0⟩ 0 true none ∧
      ¬ FindsExactly singleTree (pathHeap [47, 99, 112, 117, 115]) ⟨0, 0⟩ 0 0 [[99, 112, 117, 115]] := by
  have chain : Chain singleTree Eq 0 [[99, 112, 117, 115]] 1 :=
    .cons ⟨_, rfl, List.mem_singleton_self 1⟩ rfl rfl .nil
  refine ⟨chain, ⟨_, rfl⟩, ?_⟩
  rintro ⟨found, ⟨h', run⟩, exact_iff⟩
  cases run
  cases (exact_iff 1).mpr chain

end WivOS.Utils
