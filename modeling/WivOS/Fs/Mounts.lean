import WivOS.Fs.Paths

/-!
# Mounting and resolving

After any calls of `vfs_mount` the entries are those on the paths of the calls, and the node of an entry
is the one of the first call for it (`vfs_refines_mounts`). A call for an entry that has a node does not
return, unless there is a path to print (`MountReturns`). `vfs_get_mountpoint` returns the node of the last
entry on a path, whether it has one or not; when this is the node of the longest prefix that has one is
`resolves_longest_iff`.
-/

namespace WivOS.Fs
open WivOS.Utils Entries

variable {N : Type}

/-- The components of a path that starts with a slash, up to the first that is empty. -/
def components (path : Bytes) : List Bytes := ((path.drop 1).splitOn slash).takeWhile (· ≠ [])

/-- The path of a list of components. -/
def absPath (cs : List Bytes) : Bytes := slash :: [slash].intercalate cs

/-- A component of a path. -/
def IsComponent (c : Bytes) : Prop := IsToken c ∧ c ≠ []

section Tokens
variable {s t : Bytes}

/-- A part has no separator and nothing that the whole has not. -/
lemma mem_splitOn {x : UInt8} (ht : t ∈ s.splitOn x) : x ∉ t ∧ ∀ c ∈ t, c ∈ s := by
  induction s generalizing t with
  | nil =>
    simp only [List.splitOn_nil, List.mem_singleton] at ht
    simp [ht]
  | cons c s ih =>
    rw [List.splitOn_cons_eq_if_modifyHead] at ht
    split at ht
    · obtain rfl | ht := List.mem_cons.mp ht
      · simp
      · obtain ⟨h₁, h₂⟩ := ih ht
        exact ⟨h₁, fun c' hc' => List.mem_cons_of_mem _ (h₂ c' hc')⟩
    · rename_i hne
      cases hs : s.splitOn x with
      | nil => exact absurd hs (List.splitOn_ne_nil x s)
      | cons t' ts' =>
        rw [hs, List.modifyHead_cons, List.mem_cons] at ht
        rw [hs] at ih
        obtain rfl | ht := ht
        · obtain ⟨h₁, h₂⟩ := ih (List.mem_cons_self ..)
          refine ⟨?_, ?_⟩
          · simp only [List.mem_cons, not_or]
            exact ⟨fun e => hne (by simp [e]), h₁⟩
          · intro c' hc'
            obtain rfl | hc' := List.mem_cons.mp hc'
            · exact List.mem_cons_self ..
            · exact List.mem_cons_of_mem _ (h₂ c' hc')
        · obtain ⟨h₁, h₂⟩ := ih (List.mem_cons_of_mem _ ht)
          exact ⟨h₁, fun c' hc' => List.mem_cons_of_mem _ (h₂ c' hc')⟩

/-- There is one part more than separators at most. -/
lemma length_splitOn_le (x : UInt8) (s : Bytes) : (s.splitOn x).length ≤ s.length + 1 := by
  induction s with
  | nil => simp
  | cons c s ih =>
    rw [List.splitOn_cons_eq_if_modifyHead]
    split
    · simpa using ih
    · simp only [List.length_modifyHead, List.length_cons]
      omega

/-- The tokens of a string. -/
lemma pathAt_splitOn {h : Heap} {p : Ptr} {rest : Bytes} (hb : h.bytes p = some (s ++ 0 :: rest))
    (h0 : 0 ∉ s) : PathAt h (some p) (s.splitOn slash) := by
  have tokens : ∀ t ∈ s.splitOn slash, IsToken t := by
    intro t ht
    obtain ⟨h₁, h₂⟩ := mem_splitOn ht
    exact ⟨fun h => h0 (h₂ 0 h), h₁⟩
  have join : [slash].intercalate (s.splitOn slash) = s := List.intercalate_splitOn slash
  cases hs : s.splitOn slash with
  | nil => exact absurd hs (List.splitOn_ne_nil slash s)
  | cons t ts =>
    rw [hs] at tokens join
    exact .cons tokens (by rw [join]; exact hb)

/-- The tokens of a path of components. -/
lemma pathAt_components {h : Heap} {p : Ptr} {rest : Bytes} {cs : List Bytes} (hne : cs ≠ [])
    (hcs : ∀ c ∈ cs, IsComponent c)
    (hb : h.bytes p = some ([slash].intercalate cs ++ 0 :: rest)) : PathAt h (some p) cs := by
  cases cs with
  | nil => exact absurd rfl hne
  | cons c cs => exact .cons (fun t ht => (hcs t ht).1) hb

end Tokens

section Calls
variable {h : Heap} {p : Ptr} {bytes : Bytes}

/-- The string behind the first byte. -/
lemma bytes_add_one {c : UInt8} (hb : h.bytes p = some (c :: bytes)) :
    h.bytes (p.add 1) = some bytes := by
  have cons : h.bytes p = some ([c] ++ bytes) := hb
  exact Heap.bytes_add cons

/-- The complaint that an entry has a node already has a path to print: the path is `/`, or it has an empty
component before its end. -/
def LeavesPath (path : Bytes) : Prop := path = [] ∨ [] ∈ (path.splitOn slash).dropLast

instance (path : Bytes) : Decidable (LeavesPath path) := inferInstanceAs (Decidable (_ ∨ _))

/-- `vfs_mount` is the walk over the components of its path. It returns if the entry that it gets to has no
node, or if there is a path to print then, and faults otherwise. -/
lemma vfsMount_eq [DecidableEq N] {v : Vfs N} {r : Nat} {path : Bytes} (nd : N) (trie : Trie v.tree)
    (hr : v.tree.root = some r) (hb : h.bytes p = some bytes) (hs : IsStr bytes (slash :: path)) :
    (nodeFrom v.tree r (components (slash :: path)) = none ∨ LeavesPath path →
      ∃ v' h', vfsMount v h p nd = some (v', h') ∧
        mountAt nd v.tree r (components (slash :: path)) = some v'.tree) ∧
    (nodeFrom v.tree r (components (slash :: path)) ≠ none → ¬ LeavesPath path →
      vfsMount v h p nd = none) := by
  obtain ⟨⟨g, hg⟩, _⟩ := trie.grown.root hr
  have length := strlen_eq hs
  have readable : Readable h (some p) := by
    intro p' e
    cases e
    exact ⟨bytes, _, hb, hs⟩
  obtain ⟨h0, rest, rfl⟩ := hs
  simp only [List.mem_cons, not_or] at h0
  simp only [List.cons_append] at hb length
  let v₁ := { v with referenceCount := Function.update v.referenceCount nd minusOne }
  cases path with
  | nil =>
    obtain ⟨v', run, tree⟩ := mountEntry_some (v := v₁) nd hg readable (.inr (by simp))
    refine ⟨fun _ => ⟨v', h, ?_, by simpa [components] using tree⟩, fun _ leaves => ?_⟩
    · simp only [List.nil_append] at hb length
      simp only [v₁] at run
      simp [vfsMount, hb, length, hr, run]
    · exact absurd (.inl rfl) leaves
  | cons c path =>
    have tokens : PathAt h (some (p.add 1)) ((c :: path).splitOn slash) :=
      pathAt_splitOn (bytes_add_one hb) h0.2
    have fuel : ((c :: path).splitOn slash).length < (slash :: (c :: path ++ 0 :: rest)).length + 1 := by
      have := length_splitOn_le slash (c :: path)
      simp only [List.length_cons, List.length_append] at this ⊢
      omega
    obtain ⟨v₂, m, h₂, path₂, arrives, run⟩ := vfsMountRecursive_eq (v := v₁) nd tokens trie hg fuel
    have call : vfsMount v h p nd = (mountEntry v₂ h₂ path₂ m nd).map (·, h₂) := by
      simp only [List.cons_append] at hb length
      rw [← run]
      simp [vfsMount, hb, length, hr, v₁]
    obtain ⟨g₂, hg₂, node⟩ := arrives.entry
    have leaves : path₂ ≠ none ↔ LeavesPath (c :: path) := by
      rw [LeavesPath, ← behindEmpty_ne_nil]
      have left := arrives.left
      cases hts : behindEmpty ((c :: path).splitOn slash) with
      | nil =>
        rw [hts] at left
        cases left
        simp
      | cons t ts =>
        rw [hts] at left
        cases left
        simp
    rw [call]
    constructor
    · intro returns
      obtain ⟨v', done, tree⟩ := mountEntry_some nd hg₂ arrives.left.readable (returns.imp node.trans leaves.mpr)
      exact ⟨v', h₂, by rw [done, Option.map_some], by rw [← tree]; exact arrives.walked⟩
    · intro taken leaves'
      obtain rfl : path₂ = none := by
        by_contra some_
        exact leaves' (leaves.mp some_)
      rw [mountEntry_none nd hg₂ (fun e => taken (node.symm.trans e)), Option.map_none]

/-- A path of components does not end with a slash, unless it is the root. -/
lemma exists_last {cs : List Bytes} (hne : cs ≠ []) (hcs : ∀ c ∈ cs, IsComponent c) :
    ∃ front x, [slash].intercalate cs = front ++ [x] ∧ x ≠ slash := by
  induction cs with
  | nil => exact absurd rfl hne
  | cons c cs ih =>
    simp only [List.mem_cons, forall_eq_or_imp] at hcs
    cases cs with
    | nil =>
      obtain ⟨⟨_, noSlash⟩, filled⟩ := hcs.1
      refine ⟨c.dropLast, c.getLast filled, ?_, ?_⟩
      · rw [List.intercalate_singleton, List.dropLast_append_getLast]
      · intro e
        exact noSlash (e ▸ List.getLast_mem filled)
    | cons c' cs =>
      obtain ⟨front, x, split, hx⟩ := ih (by simp) hcs.2
      exact ⟨c ++ [slash] ++ front, x, by rw [List.intercalate_cons_cons, split]; simp, hx⟩

/-- A path of components has no slash at its end. -/
lemma trimSlash_absPath {cs : List Bytes} (hb : h.bytes p = some bytes)
    (hcs : ∀ c ∈ cs, IsComponent c) (hs : IsStr bytes (absPath cs)) : trimSlash h p = some h := by
  have length := strlen_eq hs
  obtain ⟨_, rest, rfl⟩ := hs
  have keep : ¬ (1 < (absPath cs).length ∧
      (absPath cs ++ 0 :: rest)[(absPath cs).length - 1]? = some slash) := by
    rintro ⟨long, last⟩
    cases cs with
    | nil => simp [absPath] at long
    | cons c cs =>
      obtain ⟨front, x, split, hx⟩ := exists_last (by simp) hcs
      simp [absPath, split] at last
      exact hx last
  simp only [trimSlash, hb, length, Option.bind_eq_bind, Option.bind_some, if_neg keep]
  rfl

/-- A slash at the end is overwritten in the string itself. -/
lemma trimSlash_trailing {cs : List Bytes} (hb : h.bytes p = some bytes)
    (hs : IsStr bytes (absPath cs ++ [slash])) :
    ∃ h' bytes', trimSlash h p = some h' ∧ h'.bytes p = some bytes' ∧ IsStr bytes' (absPath cs) ∧
      (∀ b, b ≠ p.block → h'.blocks b = h.blocks b) ∧ h'.next = h.next := by
  have length := strlen_eq hs
  obtain ⟨h0, rest, rfl⟩ := hs
  rw [List.append_assoc, List.singleton_append] at hb length
  have cut : 1 < (absPath cs ++ [slash]).length ∧
      (absPath cs ++ slash :: 0 :: rest)[(absPath cs ++ [slash]).length - 1]? = some slash := by
    simp [absPath]
  obtain ⟨h', stored, after, frame, next⟩ := Heap.store_bytes (x := 0) hb
  have last : (absPath cs ++ [slash]).length - 1 = (absPath cs).length := by simp
  refine ⟨h', _, ?_, after, ⟨?_, _, rfl⟩, frame, next⟩
  · simp only [trimSlash, hb, length, Option.bind_eq_bind, Option.bind_some, if_pos cut]
    rw [last, stored]
  · intro h
    exact h0 (List.mem_append_left _ h)

/-- There is a byte for each component but one. -/
lemma length_le_intercalate (cs : List Bytes) : cs.length ≤ ([slash].intercalate cs).length + 1 := by
  induction cs with
  | nil => simp
  | cons c cs ih =>
    cases cs with
    | nil => simp
    | cons c' cs =>
      rw [List.intercalate_cons_cons]
      simp only [List.length_append, List.length_cons, List.length_nil] at ih ⊢
      omega

/-- `vfs_get_mountpoint` of a path of components stops at the last entry. -/
lemma vfsGetMountpoint_eq {tree : Entries N} {r : Nat} {cs : List Bytes} {h' : Heap}
    (trie : Trie tree) (hr : tree.root = some r) (trim : trimSlash h p = some h')
    (hb : h'.bytes p = some bytes) (hcs : ∀ c ∈ cs, IsComponent c) (hs : IsStr bytes (absPath cs)) :
    ∃ path' h'' g, tree.nodes (deepest tree r cs).1 = some g ∧
      vfsGetMountpoint tree h (some p) = some (g.value.node, path', h'') ∧
      LeftAt h'' (some (p.add 1)) cs (deepest tree r cs).2 path' ∧
      (∀ b, b ≠ p.block → h''.blocks b = h'.blocks b) ∧ h''.next = h'.next := by
  obtain ⟨⟨g, hg⟩, _⟩ := trie.grown.root hr
  have length := strlen_eq hs
  obtain ⟨h0, rest, rfl⟩ := hs
  simp only [absPath, List.cons_append] at hb length
  cases cs with
  | nil =>
    refine ⟨none, h', g, hg, ?_, rfl, fun _ _ => rfl, rfl⟩
    simp only [List.intercalate_nil, List.nil_append] at hb length
    simp [vfsGetMountpoint, trim, hb, length, hr, hg]
  | cons c cs =>
    have filled : ∀ t ∈ c :: cs, t ≠ [] := fun t ht => (hcs t ht).2
    have tokens : PathAt h' (some (p.add 1)) (c :: cs) :=
      pathAt_components (by simp) hcs (bytes_add_one hb)
    have fuel : (c :: cs).length <
        (slash :: ([slash].intercalate (c :: cs) ++ 0 :: rest)).length + 1 := by
      have := length_le_intercalate (c :: cs)
      simp only [List.length_cons, List.length_append] at this ⊢
      omega
    obtain ⟨path', h'', g', node, run, left, frame, next⟩ :=
      vfsGetMountpointRecursive_eq tokens filled trie hg fuel
    refine ⟨path', h'', g', node, ?_, left, ?_, next⟩
    · have long : (slash :: [slash].intercalate (c :: cs)).length ≠ 1 := by
        obtain ⟨front, x, split, _⟩ := exists_last (by simp) hcs
        simp [split]
      simp only [vfsGetMountpoint, trim, hb, length, hr, Option.bind_eq_bind, Option.bind_some,
        List.getElem?_cons_zero, ne_eq, not_true_eq_false, if_false, if_neg long]
      exact run
    · intro b hne
      refine frame b fun p' hp' => ?_
      cases hp'
      exact hne

end Calls

section Walks
variable {tree : Entries N} {n m : Nat} {cs : List Bytes}

/-- A mount on an entry that has a node changes nothing. -/
lemma mountAt_again {g : GentreeNode (VfsEntry N)} (nd : N) (hc : reach tree n cs = some m)
    (hm : tree.nodes m = some g) (hg : g.value.node.isSome = true) :
    mountAt nd tree n cs = some tree := by
  induction cs generalizing n with
  | nil =>
    simp only [reach, Option.some.injEq] at hc
    subst hc
    simp [mountAt, hm, hg]
  | cons c cs ih =>
    simp only [reach, Option.bind_eq_some_iff] at hc
    obtain ⟨m', hl, hc⟩ := hc
    simp [mountAt, hl, ih hc]

/-- The last entry is the one that all names lead to, if there is one. -/
lemma deepest_of_reach (hc : reach tree n cs = some m) : deepest tree n cs = (m, []) := by
  induction cs generalizing n with
  | nil =>
    simp only [reach, Option.some.injEq] at hc
    simp [deepest, hc]
  | cons c cs ih =>
    simp only [reach, Option.bind_eq_some_iff] at hc
    obtain ⟨m', hl, hc⟩ := hc
    simp [deepest, hl, ih hc]

/-- The names that lead to the last entry lead the furthest. -/
lemma exists_deepest (tree : Entries N) (n : Nat) (cs : List Bytes) :
    ∃ d, d <+: cs ∧ reach tree n d = some (deepest tree n cs).1 ∧
      ∀ p, p <+: cs → (reach tree n p).isSome → p <+: d := by
  induction cs generalizing n with
  | nil => exact ⟨[], List.prefix_rfl, rfl, fun p hp _ => hp⟩
  | cons c cs ih =>
    unfold deepest
    cases hl : lookup tree n c with
    | none =>
      refine ⟨[], List.nil_prefix, rfl, fun p hp reached => ?_⟩
      cases p with
      | nil => exact List.prefix_rfl
      | cons c' p =>
        obtain ⟨rfl, _⟩ := List.cons_prefix_cons.mp hp
        simp [reach, hl] at reached
    | some m =>
      obtain ⟨d, hd, last, furthest⟩ := ih m
      refine ⟨c :: d, List.cons_prefix_cons.mpr ⟨rfl, hd⟩, by simpa [reach, hl] using last, ?_⟩
      intro p hp reached
      cases p with
      | nil => exact List.nil_prefix
      | cons c' p =>
        obtain ⟨rfl, tail⟩ := List.cons_prefix_cons.mp hp
        simp only [reach, hl, Option.bind_some] at reached
        exact List.cons_prefix_cons.mpr ⟨rfl, furthest p tail reached⟩

end Walks

/-- The node of the first mount on a list of components. -/
def firstMount (ms : List (List Bytes × N)) (p : List Bytes) : Option N :=
  (ms.find? fun m => m.1 = p).map (·.2)

/-- A mount on a path returns: no node is mounted there, or the complaint about it has a path to print. -/
def MountReturns (ms : List (List Bytes × N)) (path : Bytes) : Prop :=
  firstMount ms (components (slash :: path)) = none ∨ LeavesPath path

/-- There is an entry for the root and for what stands on the path of a mount. -/
def IsEntry (ms : List (List Bytes × N)) (p : List Bytes) : Prop := p = [] ∨ ∃ m ∈ ms, p <+: m.1

/-- The states after the root entry was created and nodes were mounted, with the components of the paths
and the nodes in the order of the calls. -/
inductive Mounted [DecidableEq N] : Vfs N → List (List Bytes × N) → Prop where
  | init {counts v} : vfsInitRoot counts = some v → Mounted v []
  | mount {v ms h p bytes path nd v' h'} : Mounted v ms → h.bytes p = some bytes →
      IsStr bytes (slash :: path) → vfsMount v h p nd = some (v', h') →
      Mounted v' (ms ++ [(components (slash :: path), nd)])

section Mounted
variable [DecidableEq N] {v : Vfs N} {ms : List (List Bytes × N)}

omit [DecidableEq N] in
/-- A later mount counts where no earlier one has its path. -/
lemma firstMount_append {path p : List Bytes} {nd : N} :
    firstMount (ms ++ [(path, nd)]) p = (firstMount ms p).or (if path = p then some nd else none) := by
  unfold firstMount
  rw [List.find?_append]
  cases ms.find? fun m => m.1 = p with
  | some m => rfl
  | none =>
    by_cases e : path = p
    · simp [e]
    · simp [e]

omit [DecidableEq N] in
/-- A mount adds the entries of its path. -/
lemma isEntry_append {path p : List Bytes} {nd : N} :
    IsEntry (ms ++ [(path, nd)]) p ↔ IsEntry ms p ∨ p <+: path := by
  simp [IsEntry, or_and_right, exists_or, or_assoc]

omit [DecidableEq N] in
/-- What is mounted has an entry. -/
lemma firstMount_of_not_isEntry {p : List Bytes} (h : ¬ IsEntry ms p) : firstMount ms p = none := by
  unfold firstMount
  rw [Option.map_eq_none_iff, List.find?_eq_none]
  intro m hm e
  have : m.1 = p := by simpa using e
  exact h (.inr ⟨m, hm, this ▸ List.prefix_rfl⟩)

/-- The entries are those on the paths of the mounts, with the node of the first. -/
def Refines (tree : Entries N) (ms : List (List Bytes × N)) : Prop :=
  ∀ p, (IsEntry ms p → nodeAt tree p = some (firstMount ms p)) ∧ (¬ IsEntry ms p → nodeAt tree p = none)

omit [DecidableEq N] in
/-- The node that the tree has for a path is the first one mounted there. -/
lemma Refines.join {tree : Entries N} (h : Refines tree ms) (p : List Bytes) :
    (nodeAt tree p).join = firstMount ms p := by
  by_cases he : IsEntry ms p
  · rw [(h p).1 he]
    rfl
  · rw [(h p).2 he, firstMount_of_not_isEntry he]
    rfl

omit [DecidableEq N] in
/-- A mount more. -/
lemma Refines.mounted {tree tree' : Entries N} {path : List Bytes} {nd : N} (h : Refines tree ms)
    (nodes : nodeAt tree' = mounted nd path (nodeAt tree)) :
    Refines tree' (ms ++ [(path, nd)]) := by
  intro p
  rw [nodes, Entries.mounted, h.join, firstMount_append, isEntry_append]
  by_cases hp : p = path
  · subst hp
    simp
  · rw [if_neg hp, if_neg (Ne.symm hp), Option.or_none]
    by_cases hpre : p <+: path
    · simp [hpre]
    · simp only [hpre, or_false, if_false]
      exact h p

omit [DecidableEq N] in
/-- The node of the entry that a list of names leads to. -/
lemma Refines.nodeFrom {tree : Entries N} {r : Nat} (h : Refines tree ms) (hr : tree.root = some r)
    (p : List Bytes) : nodeFrom tree r p = firstMount ms p := by
  rw [← h.join p]
  unfold Fs.nodeFrom nodeAt
  rw [hr, Option.bind_some]
  cases reach tree r p with
  | none => rfl
  | some m =>
    rw [Option.bind_some, Option.bind_some]
    cases tree.nodes m <;> rfl

/-- What the next call of `vfs_mount` does. -/
lemma Refines.vfsMount {h : Heap} {p : Ptr} {bytes path : Bytes} (refines : Refines v.tree ms)
    (trie : Trie v.tree) (hb : h.bytes p = some bytes) (hs : IsStr bytes (slash :: path)) (nd : N) :
    (MountReturns ms path → ∃ r v' h', v.tree.root = some r ∧ vfsMount v h p nd = some (v', h') ∧
      mountAt nd v.tree r (components (slash :: path)) = some v'.tree) ∧
    (¬ MountReturns ms path → vfsMount v h p nd = none) := by
  obtain ⟨r, hr⟩ := trie.root
  obtain ⟨returns, faults⟩ := vfsMount_eq nd trie hr hb hs
  rw [refines.nodeFrom hr] at returns faults
  refine ⟨fun holds => ?_, fun fails => ?_⟩
  · obtain ⟨v', h', run, tree⟩ := returns holds
    exact ⟨r, v', h', hr, run, tree⟩
  · obtain ⟨taken, leaves⟩ := not_or.mp fails
    exact faults taken leaves

/-- The entries form a trie, with the nodes of the mounts. -/
lemma Mounted.refines (hm : Mounted v ms) :
    Trie v.tree ∧ Refines v.tree ms := by
  induction hm with
  | @init counts v run =>
    have insert := Gentree.insert_root Gentree.grown_create rfl none
      (⟨[114, 111, 111, 116, 0], none⟩ : VfsEntry N)
    have grown := Gentree.Grown.insertRoot Gentree.grown_create rfl
      (⟨[114, 111, 111, 116, 0], none⟩ : VfsEntry N)
    simp only [vfsInitRoot, insert, Option.bind_eq_bind, Option.bind_some] at run
    cases run
    refine ⟨⟨grown, ⟨0, rfl⟩, ?_, ?_⟩, ?_⟩
    · intro n g hg
      simp only [gentreeCreate, Function.update_apply] at hg
      split at hg
      · cases hg
        exact ⟨[114, 111, 111, 116], by decide, rfl⟩
      · cases hg
    · rintro n m m' ⟨g, hg, hc⟩
      simp only [gentreeCreate, Function.update_apply] at hg
      split at hg
      · cases hg
        cases hc
      · cases hg
    · intro p
      cases p with
      | nil => simp [IsEntry, firstMount, nodeAt, reach]
      | cons c p => simp [IsEntry, nodeAt, reach, lookup]
  | @mount v ms h p bytes path nd v' h' _ hb hs run ih =>
    obtain ⟨trie, refines⟩ := ih
    obtain ⟨returns, faults⟩ := refines.vfsMount trie hb hs nd
    have holds : MountReturns ms path := by
      by_contra fails
      rw [faults fails] at run
      cases run
    obtain ⟨r, v₁, h₁, hr, run₁, tree⟩ := returns holds
    rw [run, Option.some.injEq, Prod.mk.injEq] at run₁
    obtain ⟨rfl, rfl⟩ := run₁
    have h0 : ∀ c ∈ components (slash :: path), 0 ∉ c := by
      intro c hc h
      have hc' := (List.takeWhile_sublist _).subset hc
      have := (mem_splitOn hc').2 0 h
      exact hs.1 (List.mem_cons_of_mem _ this)
    obtain ⟨tree', walk, trie', _, nodes⟩ := trie.mountAt (q := []) hr rfl h0
    rw [tree, Option.some.injEq] at walk
    subst walk
    exact ⟨trie', refines.mounted nodes⟩

/-- Any path on which a mount returns can be mounted next. -/
lemma Mounted.exists_mount (hm : Mounted v ms) (path : Bytes) (h0 : 0 ∉ path)
    (returns : MountReturns ms path) (nd : N) :
    ∃ v', Mounted v' (ms ++ [(components (slash :: path), nd)]) := by
  have isStr : IsStr (slash :: path ++ [0]) (slash :: path) :=
    isStr_self (by simp [h0, slash])
  have hb : Heap.bytes ⟨fun _ => some (slash :: path ++ [0]), 1⟩ ⟨0, 0⟩ =
      some (slash :: path ++ [0]) := rfl
  obtain ⟨trie, refines⟩ := hm.refines
  obtain ⟨_, v', h', _, run, _⟩ := (refines.vfsMount trie hb isStr nd).1 returns
  exact ⟨v', hm.mount hb isStr run⟩

/-- `vfs_get_mountpoint` returns what is mounted on the longest list of components with an entry. -/
lemma Mounted.get (hm : Mounted v ms) {h h' : Heap} {p : Ptr} {bytes : Bytes} {cs : List Bytes}
    (hcs : ∀ c ∈ cs, IsComponent c) (trim : trimSlash h p = some h') (hb : h'.bytes p = some bytes)
    (hs : IsStr bytes (absPath cs)) :
    ∃ d path' h'', d <+: cs ∧ IsEntry ms d ∧ (∀ q, q <+: cs → IsEntry ms q → q <+: d) ∧
      vfsGetMountpoint v.tree h (some p) = some (firstMount ms d, path', h'') ∧
      (d = cs → path' = none) := by
  obtain ⟨trie, refines⟩ := hm.refines
  obtain ⟨r, hr⟩ := trie.root
  obtain ⟨path', h'', g, node, run, left, _, _⟩ := vfsGetMountpoint_eq trie hr trim hb hcs hs
  obtain ⟨d, hd, reached, furthest⟩ := exists_deepest v.tree r cs
  have at_d := nodeAt_eq hr reached node
  have entry : ∀ q, IsEntry ms q ↔ (reach v.tree r q).isSome := by
    intro q
    constructor
    · intro he
      have := (refines q).1 he
      by_contra hc
      simp only [Option.not_isSome_iff_eq_none] at hc
      simp [nodeAt, hr, hc] at this
    · intro reached
      by_contra hc
      obtain ⟨n, hn⟩ := Option.isSome_iff_exists.mp reached
      obtain ⟨g', hg'⟩ := trie.reach_node hr hn
      have := (refines q).2 hc
      rw [nodeAt_eq hr hn hg'] at this
      cases this
  have he : IsEntry ms d := (entry d).mpr (by rw [reached]; rfl)
  rw [(refines d).1 he, Option.some.injEq] at at_d
  refine ⟨d, path', h'', hd, he, fun q hq hq' => furthest q hq ((entry q).mp hq'), ?_, ?_⟩
  · rw [at_d]
    exact run
  · rintro rfl
    rw [deepest_of_reach reached] at left
    exact left

end Mounted

/-- After any mounts: siblings have different names; the entries are those on the paths of the mounts
and the node of an entry is the one of the first mount for it; the next mount returns, and leaves the tree
as it is where there is a node already, if and only if there is none or a path is left to print; and the
path of an entry, with or without a slash at the end, resolves to the node of the entry and leaves no path. -/
theorem vfs_refines_mounts [DecidableEq N] {v : Vfs N} {ms : List (List Bytes × N)}
    (hm : Mounted v ms) :
    (∀ n m m', v.tree.Child n m → v.tree.Child n m' → nameOf v.tree m = nameOf v.tree m' → m = m') ∧
    (∀ p, (IsEntry ms p → nodeAt v.tree p = some (firstMount ms p)) ∧
      (¬ IsEntry ms p → nodeAt v.tree p = none)) ∧
    (∀ h p bytes path nd, Heap.bytes h p = some bytes → IsStr bytes (slash :: path) →
      ((∃ v' h', vfsMount v h p nd = some (v', h') ∧
        (firstMount ms (components (slash :: path)) ≠ none → v'.tree = v.tree)) ↔ MountReturns ms path)) ∧
    (∀ h p bytes cs node, (∀ c ∈ cs, IsComponent c) → Heap.bytes h p = some bytes →
      IsStr bytes (absPath cs) ∨ IsStr bytes (absPath cs ++ [slash]) → nodeAt v.tree cs = some node →
      ∃ h', vfsGetMountpoint v.tree h (some p) = some (node, none, h')) := by
  obtain ⟨trie, refines⟩ := hm.refines
  refine ⟨fun n m m' => trie.distinct, refines, ?_, ?_⟩
  · intro h p bytes path nd hb hs
    obtain ⟨returns, faults⟩ := refines.vfsMount trie hb hs nd
    constructor
    · rintro ⟨v', h', run, -⟩
      by_contra fails
      rw [faults fails] at run
      cases run
    · intro holds
      obtain ⟨r, v', h', hr, run, walk⟩ := returns holds
      refine ⟨v', h', run, fun taken => ?_⟩
      have mounted := refines.nodeFrom hr (components (slash :: path))
      obtain ⟨nd', first⟩ := Option.ne_none_iff_exists'.mp taken
      obtain ⟨g, reached, hnode⟩ := Option.bind_eq_some_iff.mp (mounted.trans first)
      obtain ⟨m, hm', hg⟩ := Option.bind_eq_some_iff.mp reached
      have again := mountAt_again nd hm' hg (by rw [hnode]; rfl)
      rw [walk, Option.some.injEq] at again
      exact again
  · intro h p bytes cs node hcs hb hs hnode
    have he : IsEntry ms cs := by
      by_contra hc
      rw [(refines cs).2 hc] at hnode
      cases hnode
    have same : firstMount ms cs = node := by
      rw [(refines cs).1 he, Option.some.injEq] at hnode
      exact hnode
    obtain ⟨h', bytes', trim, hb', hs'⟩ : ∃ h' bytes', trimSlash h p = some h' ∧
        h'.bytes p = some bytes' ∧ IsStr bytes' (absPath cs) := by
      obtain hs | hs := hs
      · exact ⟨h, bytes, trimSlash_absPath hb hcs hs, hb, hs⟩
      · obtain ⟨h', bytes', trim, hb', hs', _⟩ := trimSlash_trailing hb hs
        exact ⟨h', bytes', trim, hb', hs'⟩
    obtain ⟨d, path', h'', hd, _, furthest, run, whole⟩ := hm.get hcs trim hb' hs'
    have all : d = cs := hd.eq_of_length_le (furthest cs List.prefix_rfl he).length_le
    refine ⟨h'', ?_⟩
    rw [run, whole all, all, same]

/-- Two mounts, on `/a/b/` and on `/a/c`. -/
def sharedMounts : List (List Bytes × Nat) := [([[97], [98]], 1), ([[97], [99]], 2)]

/-- The entry for `/a` is created on the way of the first one. -/
lemma exists_sharedMounts : ∃ v : Vfs Nat, Mounted v sharedMounts := by
  obtain ⟨v, init⟩ : ∃ v : Vfs Nat, vfsInitRoot (fun _ => 0) = some v := ⟨_, rfl⟩
  obtain ⟨v₁, first⟩ := (Mounted.init init).exists_mount [97, 47, 98, 47] (by decide) (.inl rfl) 1
  obtain ⟨v₂, second⟩ := first.exists_mount [97, 47, 99] (by decide) (.inl rfl) 2
  exact ⟨v₂, second⟩

/-- `/a` has an entry without a node, `/a/c/` resolves to the second node, and `/a//d` can still be mounted,
on the entry of `/a`. -/
theorem vfs_refines_mounts_shared :
    ∃ v : Vfs Nat, Mounted v sharedMounts ∧ nodeAt v.tree [[97]] = some none ∧
      (∃ h', vfsGetMountpoint v.tree ⟨fun _ => some [47, 97, 47, 99, 47, 0], 1⟩ (some ⟨0, 0⟩) =
        some (some 2, none, h')) ∧
      ∃ v' h', vfsMount v ⟨fun _ => some [47, 97, 47, 47, 100, 0], 1⟩ ⟨0, 0⟩ 3 = some (v', h') := by
  obtain ⟨v, hm⟩ := exists_sharedMounts
  obtain ⟨-, refines, mounts, gets⟩ := vfs_refines_mounts hm
  have between : IsEntry sharedMounts [[97]] := .inr ⟨([[97], [98]], 1), by decide, by decide⟩
  have leaf : IsEntry sharedMounts [[97], [99]] := .inr ⟨([[97], [99]], 2), by decide, List.prefix_rfl⟩
  have components_ : ∀ c ∈ [[97], [99]], IsComponent c := by
    simp [IsComponent, IsToken, slash]
  have trailing : IsStr [47, 97, 47, 99, 47, 0] (absPath [[97], [99]] ++ [slash]) :=
    isStr_self (by decide)
  have third : IsStr [47, 97, 47, 47, 100, 0] (slash :: [97, 47, 47, 100]) := isStr_self (by decide)
  refine ⟨v, hm, (refines _).1 between, ?_, ?_⟩
  · exact gets ⟨fun _ => some [47, 97, 47, 99, 47, 0], 1⟩ ⟨0, 0⟩ _ _ _ components_ rfl (.inr trailing)
      ((refines _).1 leaf)
  · obtain ⟨v', h', run, -⟩ := (mounts ⟨fun _ => some [47, 97, 47, 47, 100, 0], 1⟩ ⟨0, 0⟩ _ _ 3 rfl
      third).mpr (.inl rfl)
    exact ⟨v', h', run⟩

/-- The second mount on `/a` does not return: its complaint reads a string at `NULL`. -/
theorem vfs_mount_again_faults :
    ∃ v : Vfs Nat, Mounted v [([[97]], 1)] ∧ nodeAt v.tree [[97]] = some (some 1) ∧
      vfsMount v ⟨fun _ => some [47, 97, 0], 1⟩ ⟨0, 0⟩ 2 = none ∧
      ¬ ∃ v' h', vfsMount v ⟨fun _ => some [47, 97, 0], 1⟩ ⟨0, 0⟩ 2 = some (v', h') ∧ v'.tree = v.tree := by
  obtain ⟨v, init⟩ : ∃ v : Vfs Nat, vfsInitRoot (fun _ => 0) = some v := ⟨_, rfl⟩
  obtain ⟨v', first⟩ := (Mounted.init init).exists_mount [97] (by decide) (.inl rfl) 1
  have hm : Mounted v' [([[97]], 1)] := first
  obtain ⟨trie, refines⟩ := hm.refines
  have str : IsStr [47, 97, 0] (slash :: [97]) := isStr_self (by decide)
  have hb : Heap.bytes ⟨fun _ => some [47, 97, 0], 1⟩ ⟨0, 0⟩ = some [47, 97, 0] := rfl
  have taken : ¬ MountReturns [([[97]], 1)] [97] := by
    unfold MountReturns
    decide
  have faults := (refines.vfsMount trie hb str 2).2 taken
  refine ⟨v', hm, (refines _).1 (.inr ⟨_, List.mem_singleton_self _, List.prefix_rfl⟩), faults, ?_⟩
  rintro ⟨v'', h', run, -⟩
  rw [faults] at run
  cases run

/-- The node of the longest list of components before `cs` on which there is one, `NULL` if there is
none. -/
def ResolvesLongest (ms : List (List Bytes × N)) (cs : List Bytes) : Option N → Prop
  | none => ∀ p, p <+: cs → firstMount ms p = none
  | some nd => ∃ p, p <+: cs ∧ firstMount ms p = some nd ∧
      ∀ q, q <+: cs → firstMount ms q ≠ none → q <+: p

/-- The longest list of components before `cs` that is on the path of a mount has a node itself, or none
before `cs` has. -/
def LastMounted (ms : List (List Bytes × N)) (cs : List Bytes) : Prop :=
  (∃ d, d <+: cs ∧ IsEntry ms d ∧ (∀ q, q <+: cs → IsEntry ms q → q <+: d) ∧ firstMount ms d ≠ none) ∨
  ∀ p, p <+: cs → firstMount ms p = none

section Resolve
variable {ms : List (List Bytes × N)} {cs : List Bytes} {res res' : Option N}

/-- There is one node that a path resolves to. -/
lemma ResolvesLongest.unique (h : ResolvesLongest ms cs res) (h' : ResolvesLongest ms cs res') :
    res' = res := by
  cases res with
  | none =>
    cases res' with
    | none => rfl
    | some nd' =>
      obtain ⟨p, hp, mount, _⟩ := h'
      rw [h p hp] at mount
      cases mount
  | some nd =>
    obtain ⟨p, hp, mount, longest⟩ := h
    cases res' with
    | none =>
      rw [h' p hp] at mount
      cases mount
    | some nd' =>
      obtain ⟨p', hp', mount', longest'⟩ := h'
      have le := longest p' hp' (by simp [mount'])
      have le' := longest' p hp (by simp [mount])
      have same := le.eq_of_length_le le'.length_le
      subst same
      exact mount'.symm.trans mount

/-- A mount elsewhere does not change what the longest is. -/
lemma ResolvesLongest.elsewhere {path : List Bytes} {nd : N} (hp : ¬ path <+: cs) :
    ResolvesLongest (ms ++ [(path, nd)]) cs res ↔ ResolvesLongest ms cs res := by
  have same : ∀ q, q <+: cs → firstMount (ms ++ [(path, nd)]) q = firstMount ms q := by
    intro q hq
    have hne : path ≠ q := by
      rintro rfl
      exact hp hq
    rw [firstMount_append, if_neg hne, Option.or_none]
  cases res with
  | none =>
    constructor
    · intro h q hq
      rw [← same q hq]
      exact h q hq
    · intro h q hq
      rw [same q hq]
      exact h q hq
  | some nd' =>
    constructor
    · rintro ⟨p, hp', mount, longest⟩
      refine ⟨p, hp', by rw [← same p hp']; exact mount, fun q hq hne => ?_⟩
      exact longest q hq (by rw [same q hq]; exact hne)
    · rintro ⟨p, hp', mount, longest⟩
      refine ⟨p, hp', by rw [same p hp']; exact mount, fun q hq hne => ?_⟩
      exact longest q hq (by rw [← same q hq]; exact hne)

/-- The node of the last entry is the one of the longest that has one only if it has one. -/
lemma resolvesLongest_last_iff {d : List Bytes} (hd : d <+: cs) (entry : IsEntry ms d)
    (last : ∀ q, q <+: cs → IsEntry ms q → q <+: d) :
    ResolvesLongest ms cs (firstMount ms d) ↔ LastMounted ms cs := by
  have below : ∀ q, q <+: cs → firstMount ms q ≠ none → q <+: d := by
    intro q hq hne
    refine last q hq ?_
    by_contra hc
    exact hne (firstMount_of_not_isEntry hc)
  cases hm : firstMount ms d with
  | some nd =>
    constructor
    · intro _
      exact .inl ⟨d, hd, entry, last, by simp [hm]⟩
    · intro _
      exact ⟨d, hd, hm, below⟩
  | none =>
    constructor
    · exact .inr
    · rintro (⟨d', hd', entry', last', mount⟩ | none)
      · have same := (last d' hd' entry').eq_of_length_le (last' d hd entry).length_le
        exact absurd (same ▸ hm) mount
      · exact none

end Resolve

/-- After any mounts, a path resolves to the node of its longest prefix that has one, if and only if the
longest prefix that is on the path of a mount has one itself or no prefix has one. Where this holds
before and after a mount that is on no prefix, the path resolves as before. -/
theorem resolves_longest_iff [DecidableEq N] {v : Vfs N} {ms : List (List Bytes × N)}
    (hm : Mounted v ms) {cs : List Bytes} (hcs : ∀ c ∈ cs, IsComponent c) {h : Heap} {p : Ptr}
    {bytes : Bytes} (hb : h.bytes p = some bytes) (hs : IsStr bytes (absPath cs)) :
    ∃ res path' h', vfsGetMountpoint v.tree h (some p) = some (res, path', h') ∧
      (ResolvesLongest ms cs res ↔ LastMounted ms cs) ∧
      ∀ v' path nd, Mounted v' (ms ++ [(path, nd)]) → ¬ path <+: cs → LastMounted ms cs →
        LastMounted (ms ++ [(path, nd)]) cs →
        ∃ path'' h'', vfsGetMountpoint v'.tree h (some p) = some (res, path'', h'') := by
  have trim := trimSlash_absPath hb hcs hs
  obtain ⟨d, path', h', hd, entry, last, run, _⟩ := hm.get hcs trim hb hs
  have iff := resolvesLongest_last_iff hd entry last
  refine ⟨_, path', h', run, iff, ?_⟩
  intro v' path nd hm' elsewhere before after
  obtain ⟨d', path'', h'', hd', entry', last', run', _⟩ := hm'.get hcs trim hb hs
  have resolved' := (resolvesLongest_last_iff hd' entry' last').mpr after
  have same := (iff.mpr before).unique ((ResolvesLongest.elsewhere elsewhere).mp resolved')
  exact ⟨path'', h'', by rw [run', same]⟩

/-- With nodes on `/a` and on `/a/b`, the path `/a/d` resolves to that of `/a`, also after a mount on
`/a/c`. -/
theorem resolves_longest_shared :
    ∃ v v' : Vfs Nat, Mounted v [([[97]], 1), ([[97], [98]], 2)] ∧
      Mounted v' [([[97]], 1), ([[97], [98]], 2), ([[97], [99]], 3)] ∧ ∃ res,
      (∃ path' h', vfsGetMountpoint v.tree ⟨fun _ => some [47, 97, 47, 100, 0], 1⟩ (some ⟨0, 0⟩) =
        some (res, path', h')) ∧
      ResolvesLongest [([[97]], 1), ([[97], [98]], 2)] [[97], [100]] res ∧
      ∃ path' h', vfsGetMountpoint v'.tree ⟨fun _ => some [47, 97, 47, 100, 0], 1⟩ (some ⟨0, 0⟩) =
        some (res, path', h') := by
  obtain ⟨v, init⟩ : ∃ v : Vfs Nat, vfsInitRoot (fun _ => 0) = some v := ⟨_, rfl⟩
  obtain ⟨v₁, first⟩ := (Mounted.init init).exists_mount [97] (by decide) (.inl rfl) 1
  obtain ⟨v₂, second⟩ := first.exists_mount [97, 47, 98] (by decide) (.inl rfl) 2
  obtain ⟨v₃, third⟩ := second.exists_mount [97, 47, 99] (by decide) (.inl rfl) 3
  have hm : Mounted v₂ [([[97]], 1), ([[97], [98]], 2)] := second
  have hm' : Mounted v₃ ([([[97]], 1), ([[97], [98]], 2)] ++ [([[97], [99]], 3)]) := third
  have hcs : ∀ c ∈ [[97], [100]], IsComponent c := by
    simp [IsComponent, IsToken, slash]
  have hs : IsStr [47, 97, 47, 100, 0] (absPath [[97], [100]]) := isStr_self (by decide)
  -- the last entry on the path is `/a`, whatever is mounted beside it
  have last : ∀ ms : List (List Bytes × Nat), (∀ m ∈ ms, m.1 <+: [[97], [98]] ∨ m.1 <+: [[97], [99]]) →
      firstMount ms [[97]] = some 1 → LastMounted ms [[97], [100]] := by
    intro ms others mounted
    refine .inl ⟨[[97]], by decide, ?_, ?_, by simp [mounted]⟩
    · by_contra fresh
      rw [firstMount_of_not_isEntry fresh] at mounted
      cases mounted
    · intro q prefix_ entry
      have inits : q ∈ [[97], [100]].inits := (List.mem_inits ..).mpr prefix_
      simp only [List.inits, List.map, List.mem_cons, List.not_mem_nil, or_false] at inits
      obtain rfl | rfl | rfl := inits
      · exact List.nil_prefix
      · exact List.prefix_rfl
      · obtain e | ⟨m, mem, below⟩ := entry
        · cases e
        · rcases others m mem with le | le
          · exact absurd (below.trans le) (by decide)
          · exact absurd (below.trans le) (by decide)
  have before : LastMounted [([[97]], 1), ([[97], [98]], 2)] [[97], [100]] :=
    last _ (by decide) rfl
  have after : LastMounted ([([[97]], 1), ([[97], [98]], 2)] ++ [([[97], [99]], 3)]) [[97], [100]] :=
    last _ (by decide) rfl
  obtain ⟨res, path', h', run, iff, elsewhere⟩ := resolves_longest_iff hm hcs
    (h := ⟨fun _ => some [47, 97, 47, 100, 0], 1⟩) (p := ⟨0, 0⟩) rfl hs
  exact ⟨v₂, v₃, hm, hm', res, ⟨path', h', run⟩, iff.mpr before,
    elsewhere v₃ _ _ hm' (by decide) before after⟩

/-- With nodes on `/` and on `/a/b`, the path `/a/c` resolves to `NULL`, and not to the node of `/`. -/
theorem unresolved_below_mount :
    ∃ v : Vfs Nat, Mounted v [([], 1), ([[97], [98]], 2)] ∧ ∃ path' h',
      vfsGetMountpoint v.tree ⟨fun _ => some [47, 97, 47, 99, 0], 1⟩ (some ⟨0, 0⟩) =
        some (none, path', h') ∧
      ¬ ResolvesLongest [([], 1), ([[97], [98]], 2)] [[97], [99]] none := by
  obtain ⟨v, init⟩ : ∃ v : Vfs Nat, vfsInitRoot (fun _ => 0) = some v := ⟨_, rfl⟩
  obtain ⟨v₁, first⟩ := (Mounted.init init).exists_mount [] (by simp) (.inl rfl) 1
  obtain ⟨v₂, second⟩ := first.exists_mount [97, 47, 98] (by decide) (.inl rfl) 2
  have hm : Mounted v₂ [([], 1), ([[97], [98]], 2)] := second
  have hcs : ∀ c ∈ [[97], [99]], IsComponent c := by
    simp [IsComponent, IsToken, slash]
  have hs : IsStr [47, 97, 47, 99, 0] (absPath [[97], [99]]) := isStr_self (by decide)
  have hb : Heap.bytes ⟨fun _ => some [47, 97, 47, 99, 0], 1⟩ ⟨0, 0⟩ = some [47, 97, 47, 99, 0] := rfl
  obtain ⟨d, path', h', hd, _, last, run, _⟩ := hm.get hcs (trimSlash_absPath hb hcs hs) hb hs
  -- the last entry is `/a`
  have below : [[97]] <+: d := last [[97]] (by decide) (.inr ⟨([[97], [98]], 2), by simp, by decide⟩)
  have unmounted : firstMount [([], 1), ([[97], [98]], 2)] d = none := by
    have inits : d ∈ [[97], [99]].inits := (List.mem_inits ..).mpr hd
    simp only [List.inits, List.map, List.mem_cons, List.not_mem_nil, or_false] at inits
    obtain rfl | rfl | rfl := inits
    · simp at below
    · decide
    · decide
  refine ⟨v₂, hm, path', h', by rw [run, unmounted], fun h => ?_⟩
  have := h [] List.nil_prefix
  simp [firstMount] at this

end WivOS.Fs
