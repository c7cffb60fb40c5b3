import WivOS.Fs.Mounts
import WivOS.Lib.Runs

/-!
# Mounting by several threads

Threads that call `vfs_mount` at the same time, each with a path in memory of its own. What a call does
while it holds a lock is one step (the search for a child, `gentree_insert`), and so is the assignment of
the node at the end. The search and the insertion are different steps, so that an entry of the same name
may come between them: sibling names stay different, and every path resolves to its node, exactly in the
runs in which none does (`vfs_mounts_iff`). A call on an entry that another one has mounted on before
complains about it, and may have no path left to print (`PrintsPath`).
-/

namespace WivOS.Fs
open WivOS.Utils Entries Lib

variable {T N : Type}

/-- Where a thread stands in `vfs_mount`. -/
inductive MountPhase where
  /-- Before the call. -/
  | start (h : Heap) (path : Ptr)
  /-- Before `vfs_mount_recursive`. -/
  | walk (h : Heap) (path : Option Ptr) (subroot : Nat)
  /-- Before `gentree_insert`, with the token that no child is named by. -/
  | insert (h : Heap) (path : Option Ptr) (subroot : Nat) (currentToken : Bytes)
  /-- Before the assignment of the node, or the complaint about another one. -/
  | assign (h : Heap) (path : Option Ptr) (subroot : Nat)
  /-- After the call. -/
  | returned

/-- `VFSTree`, and the threads. -/
structure MountThreads (T N : Type) where
  vfs : Vfs N
  phase : T → MountPhase

namespace MountThreads
variable [DecidableEq T] [DecidableEq N]

/-- A thread goes on. -/
def goOn (s : MountThreads T N) (t : T) (v : Vfs N) (phase : MountPhase) : MountThreads T N :=
  ⟨v, Function.update s.phase t phase⟩

/-- A step of C `vfs_mount` for `node`. -/
def resume (s : MountThreads T N) (t : T) (node : N) : MountPhase → Option (MountThreads T N)
  | .start h path => do
    let v := { s.vfs with referenceCount := Function.update s.vfs.referenceCount node minusOne }
    let str ← h.bytes path
    let first ← str[0]?
    let length ← strlen str
    let root ← v.tree.root
    if first = slash ∧ length = 1 then return s.goOn t v (.assign h (some path) root)
    return s.goOn t v (.walk h (some (path.add 1)) root)
  | .walk h path subroot => do
    let (currentToken, path, h) ← h.strsep path [slash]
    match currentToken with
    | none => return s.goOn t s.vfs (.assign h path subroot)
    | some currentToken =>
      let token ← h.bytes currentToken
      if (← strcmp token [0]) = 0 then return s.goOn t s.vfs (.assign h path subroot)
      let entry ← s.vfs.tree.nodes subroot
      match ← findEntry s.vfs.tree token entry.children with
      | some child => return s.goOn t s.vfs (.walk h path child)
      | none => return s.goOn t s.vfs (.insert h path subroot token)
  | .insert h path subroot currentToken => do
    let name ← dupBytes currentToken
    let (child, tree) ← gentreeInsert s.vfs.tree (some subroot) ⟨name, none⟩
    return s.goOn t { s.vfs with tree := tree } (.walk h path child)
  | .assign h path subroot => do
    let v ← mountEntry s.vfs h path subroot node
    return s.goOn t v .returned
  | .returned => none

/-- A step of a run, in which every thread has a node to mount. -/
def step (node : T → N) (s : MountThreads T N) (t : T) (_ : Unit) : Option (Unit × MountThreads T N) :=
  (s.resume t (node t) (s.phase t)).map ((), ·)

omit [DecidableEq T] [DecidableEq N] in
/-- What a search would find now, if the next step of a thread is to insert an entry. -/
def found (s : MountThreads T N) (t : T) : Option (Option Nat) :=
  match s.phase t with
  | .insert _ _ subroot currentToken => do
    let entry ← s.vfs.tree.nodes subroot
    findEntry s.vfs.tree currentToken entry.children
  | _ => some none

/-- If the next step of a thread is the complaint about a node that another one has mounted, it has a path to
print. -/
def PrintsPath (s : MountThreads T N) (t : T) : Prop :=
  match s.phase t with
  | .assign _ none subroot => (s.vfs.tree.nodes subroot).bind (·.value.node) = none
  | _ => True

/-- If the next step of a thread inserts an entry, there is still none of that name. -/
def Unnamed (s : MountThreads T N) (t : T) : Prop := s.found t = some none

instance (s : MountThreads T N) (t : T) : Decidable (s.Unnamed t) :=
  inferInstanceAs (Decidable (_ = _))

end MountThreads

/-- A step of a thread. -/
abbrev MountEvent (T N : Type) := Event (MountThreads T N) T Unit Unit

/-! ## What a path resolves to -/

section Reached
variable {tree : Entries N} {n m r : Nat} {g : GentreeNode (VfsEntry N)} {h : Heap}

/-- `vfs_get_mountpoint_recursive` finds the entry that the leading tokens lead to. -/
lemma vfsGetMountpointRecursive_reached {path : Option Ptr} {ts : List Bytes} {fuel : Nat}
    (hp : PathAt h path ts) (trie : Trie tree) (hn : ∃ g, tree.nodes n = some g)
    (reached : reach tree n (ts.takeWhile (· ≠ [])) = some m) (hm : tree.nodes m = some g)
    (hf : ts.length < fuel) :
    ∃ path' h', vfsGetMountpointRecursive tree fuel h path n = some (g.value.node, path', h') := by
  induction ts generalizing h path n fuel with
  | nil =>
    cases hp
    obtain ⟨fuel, rfl⟩ := Nat.exists_eq_add_one_of_ne_zero (Nat.ne_of_gt hf)
    obtain rfl : n = m := by simpa [reach] using reached
    exact ⟨none, h, by simp [vfsGetMountpointRecursive, strsep_none, hm]⟩
  | cons t ts ih =>
    obtain ⟨fuel, rfl⟩ := Nat.exists_eq_add_one_of_ne_zero (Nat.ne_zero_of_lt hf)
    obtain ⟨p, rfl⟩ : ∃ p, path = some p := by
      cases hp
      exact ⟨_, rfl⟩
    obtain ⟨path', h', token, sep, bytes, isStr, hp', -, -, -⟩ := hp.strsep
    obtain ⟨r, cmp, empty⟩ := strcmp_empty isStr
    obtain ⟨g', hg'⟩ := hn
    by_cases ht : t = []
    · obtain rfl : n = m := by simpa [ht, reach] using reached
      refine ⟨path', h', ?_⟩
      simp [vfsGetMountpointRecursive, sep, bytes, cmp, empty.mpr ht, hm]
    · have hr : r ≠ 0 := fun e => ht (empty.mp e)
      have find := trie.findEntry hg' isStr
      have hf' : ts.length < fuel := by
        simp only [List.length_cons] at hf
        omega
      rw [show (t :: ts).takeWhile (· ≠ []) = t :: ts.takeWhile (· ≠ []) by simp [ht], reach,
        Option.bind_eq_some_iff] at reached
      obtain ⟨child, hl, reached⟩ := reached
      have there := (trie.grown.child (trie.lookup_eq_some.mp hl).1).2
      obtain ⟨path'', h'', run⟩ := ih hp' there reached hf'
      refine ⟨path'', h'', ?_⟩
      simpa [vfsGetMountpointRecursive, sep, bytes, cmp, hr, hg', find, hl] using run

/-- A slash at the end of a path starts no component. -/
lemma components_trailing (path : Bytes) :
    components (slash :: (path ++ [slash])) = components (slash :: path) := by
  have tokens : (path ++ [slash]).splitOn slash = path.splitOn slash ++ [[]] := by
    rw [List.splitOn_append_cons_self, List.splitOn_nil]
  have cut : ∀ ts : List Bytes, (ts ++ [[]]).takeWhile (· ≠ []) = ts.takeWhile (· ≠ []) := by
    intro ts
    induction ts with
    | nil => rfl
    | cons t ts ih => simp only [List.cons_append, List.takeWhile_cons, ih]
  simp only [components, List.drop_succ_cons, List.drop_zero, tokens, cut]

/-- The slash at the end that `vfs_get_mountpoint` cuts off. -/
lemma trimSlash_eq {p : Ptr} {bytes path : Bytes} (hb : h.bytes p = some bytes)
    (hs : IsStr bytes (slash :: path)) :
    ∃ h' bytes' path', trimSlash h p = some h' ∧ h'.bytes p = some bytes' ∧
      IsStr bytes' (slash :: path') ∧ components (slash :: path') = components (slash :: path) := by
  rcases List.eq_nil_or_concat' path with rfl | ⟨path, c, rfl⟩
  · refine ⟨h, bytes, [], ?_, hb, hs, rfl⟩
    simp [trimSlash, hb, strlen_eq hs]
  · by_cases trailing : c = slash
    · subst trailing
      have join : absPath (path.splitOn slash) = slash :: path := by
        rw [absPath, List.intercalate_splitOn]
      have ends : IsStr bytes (absPath (path.splitOn slash) ++ [slash]) := by
        rw [join]
        exact hs
      obtain ⟨h', bytes', trim, hb', hs', -, -⟩ := trimSlash_trailing hb ends
      rw [join] at hs'
      exact ⟨h', bytes', path, trim, hb', hs', (components_trailing path).symm⟩
    · refine ⟨h, bytes, path ++ [c], ?_, hb, hs, rfl⟩
      have length := strlen_eq hs
      obtain ⟨-, rest, rfl⟩ := hs
      simp only [trimSlash, hb, length, Option.bind_eq_bind, Option.bind_some]
      simp [trailing]

/-- `vfs_get_mountpoint` finds the entry of any path that has one. -/
lemma vfsGetMountpoint_reached {p : Ptr} {bytes path : Bytes} (trie : Trie tree)
    (hr : tree.root = some r) (hb : h.bytes p = some bytes) (hs : IsStr bytes (slash :: path))
    (reached : reach tree r (components (slash :: path)) = some m) (hm : tree.nodes m = some g) :
    ∃ path' h', vfsGetMountpoint tree h (some p) = some (g.value.node, path', h') := by
  obtain ⟨h', bytes', path', trim, hb', hs', same⟩ := trimSlash_eq hb hs
  rw [← same] at reached
  have length := strlen_eq hs'
  obtain ⟨h0, rest, rfl⟩ := hs'
  simp only [List.mem_cons, not_or] at h0
  simp only [List.cons_append] at hb' length
  cases path' with
  | nil =>
    obtain rfl : r = m := by simpa [components, reach] using reached
    refine ⟨none, h', ?_⟩
    simp only [List.nil_append] at hb' length
    simp [vfsGetMountpoint, trim, hb', length, hr, hm]
  | cons c path' =>
    have tokens : PathAt h' (some (p.add 1)) ((c :: path').splitOn slash) :=
      pathAt_splitOn (bytes_add_one hb') h0.2
    have fuel : ((c :: path').splitOn slash).length <
        (slash :: (c :: path' ++ 0 :: rest)).length + 1 := by
      have := length_splitOn_le slash (c :: path')
      simp only [List.length_cons, List.length_append] at this ⊢
      omega
    obtain ⟨path'', h'', run⟩ :=
      vfsGetMountpointRecursive_reached tokens trie (trie.grown.root hr).1 reached hm fuel
    refine ⟨path'', h'', ?_⟩
    simp only [List.cons_append] at hb' length
    simpa [vfsGetMountpoint, trim, hb', length, hr] using run

end Reached

/-- Every path of these components resolves to the node. -/
def ResolvesTo (tree : Entries N) (cs : List Bytes) (nd : N) : Prop :=
  ∀ {h p bytes} (path : Bytes), components (slash :: path) = cs → Heap.bytes h p = some bytes →
    IsStr bytes (slash :: path) →
    ∃ path' h', vfsGetMountpoint tree h (some p) = some (some nd, path', h')

/-- The entry of the path itself is the one that it resolves to. -/
lemma resolvesTo_of_nodeAt {tree : Entries N} {cs : List Bytes} {nd : N} (trie : Trie tree)
    (at_cs : nodeAt tree cs = some (some nd)) : ResolvesTo tree cs nd := by
  obtain ⟨r, hr, at_r⟩ := Option.bind_eq_some_iff.mp at_cs
  obtain ⟨m, reached, at_m⟩ := Option.bind_eq_some_iff.mp at_r
  obtain ⟨g, hg, mounted⟩ := Option.map_eq_some_iff.mp at_m
  rintro h p bytes path rfl hb hs
  rw [← mounted]
  exact vfsGetMountpoint_reached trie hr hb hs reached hg

/-! ## Runs in which no name comes twice -/

/-- What holds of a thread that mounts on the components `cs`. -/
def MountPhase.Stands (tree : Entries N) (r : Nat) (cs : List Bytes) : MountPhase → Prop
  | .start h p => ∃ bytes path, h.bytes p = some bytes ∧ IsStr bytes (slash :: path) ∧
    components (slash :: path) = cs
  | .walk h path n => ∃ q ts, PathAt h path ts ∧ reach tree r q = some n ∧
    q ++ ts.takeWhile (· ≠ []) = cs
  | .insert h path n token => ∃ q t ts, PathAt h path ts ∧ reach tree r q = some n ∧ IsStr token t ∧
    q ++ t :: ts.takeWhile (· ≠ []) = cs
  | .assign h path n => Readable h path ∧ reach tree r cs = some n
  | .returned => ∃ nd, nodeAt tree cs = some (some nd)

namespace MountThreads
variable {target : T → List Bytes} {node : T → N} {start : Entries N} {r : Nat}
  {s s' : MountThreads T N} {t : T}

/-- What holds between the steps of a run: a node stands where it stood before, or where a thread that has
returned was to mount it. -/
structure Inv (start : Entries N) (r : Nat) (target : T → List Bytes) (node : T → N)
    (s : MountThreads T N) : Prop where
  trie : Trie s.vfs.tree
  root : s.vfs.tree.root = some r
  stands : ∀ t, (s.phase t).Stands s.vfs.tree r (target t)
  nodes : ∀ p nd, nodeAt s.vfs.tree p = some (some nd) → nodeAt start p = some (some nd) ∨
    ∃ t, p = target t ∧ nd = node t ∧ s.phase t = .returned

/-- What one thread does to the tree of another. -/
structure Grows (tree tree' : Entries N) (r : Nat) : Prop where
  trie : Trie tree'
  root : tree'.root = some r
  reach : ∀ {p n}, reach tree r p = some n → reach tree' r p = some n
  nodes : ∀ {p nd}, nodeAt tree p = some (some nd) → nodeAt tree' p = some (some nd)

/-- Where a call stands is still in the tree when others have added to it. -/
lemma Grows.stands {tree tree' : Entries N} {cs : List Bytes} {phase : MountPhase}
    (grows : Grows tree tree' r) (stands : phase.Stands tree r cs) : phase.Stands tree' r cs := by
  cases phase with
  | start h p => exact stands
  | walk h path n =>
    obtain ⟨q, ts, hp, reached, e⟩ := stands
    exact ⟨q, ts, hp, grows.reach reached, e⟩
  | insert h path n token =>
    obtain ⟨q, t, ts, hp, reached, isStr, e⟩ := stands
    exact ⟨q, t, ts, hp, grows.reach reached, isStr, e⟩
  | assign h path n => exact ⟨stands.1, grows.reach stands.2⟩
  | returned =>
    obtain ⟨nd, at_cs⟩ := stands
    exact ⟨nd, grows.nodes at_cs⟩

section Resume
variable [DecidableEq T] [DecidableEq N] (h : s.Inv start r target node)
include h

omit [DecidableEq N] in
/-- A step of one thread. -/
lemma Inv.goOn {v : Vfs N} {phase : MountPhase} (running : s.phase t ≠ .returned)
    (grows : Grows s.vfs.tree v.tree r)
    (new : ∀ p nd, nodeAt v.tree p = some (some nd) → nodeAt s.vfs.tree p = some (some nd) ∨
      (p = target t ∧ nd = node t ∧ phase = .returned)) (stands : phase.Stands v.tree r (target t)) :
    (s.goOn t v phase).Inv start r target node := by
  refine ⟨grows.trie, grows.root, ?_, ?_⟩
  · intro u
    by_cases own : u = t
    · subst own
      simpa [MountThreads.goOn] using stands
    · simpa [MountThreads.goOn, own] using grows.stands (h.stands u)
  · intro p nd at_p
    rcases new p nd at_p with old | ⟨at_t, own, returned⟩
    · rcases h.nodes p nd old with before | ⟨u, at_u, given, returned⟩
      · exact .inl before
      · have other : u ≠ t := by
          rintro rfl
          exact running returned
        exact .inr ⟨u, at_u, given, by simpa [MountThreads.goOn, other] using returned⟩
    · exact .inr ⟨t, at_t, own, by simpa [MountThreads.goOn] using returned⟩

omit [DecidableEq N] in
/-- A step that leaves the tree as it is. -/
lemma Inv.goOn_same {v : Vfs N} {phase : MountPhase} (running : s.phase t ≠ .returned)
    (same : v.tree = s.vfs.tree) (stands : phase.Stands s.vfs.tree r (target t)) :
    (s.goOn t v phase).Inv start r target node := by
  apply h.goOn running
  · rw [same]
    exact ⟨h.trie, h.root, id, id⟩
  · intro p nd at_p
    exact .inl (same ▸ at_p)
  · rw [same]
    exact stands

/-- The start of a call keeps the invariant. -/
lemma start_inv {heap : Heap} {path : Ptr} (phase : s.phase t = .start heap path) :
    ∃ s', s.resume t (node t) (.start heap path) = some s' ∧ s'.Inv start r target node := by
  have running : s.phase t ≠ .returned := by simp [phase]
  obtain ⟨bytes, str, hb, hs, cs⟩ : (MountPhase.start heap path).Stands s.vfs.tree r (target t) :=
    phase ▸ h.stands t
  have length := strlen_eq hs
  have readable : Readable heap (some path) := by
    intro p e
    cases e
    exact ⟨bytes, _, hb, hs⟩
  obtain ⟨h0, rest, rfl⟩ := hs
  simp only [List.mem_cons, not_or] at h0
  simp only [List.cons_append] at hb length
  let v := { s.vfs with referenceCount := Function.update s.vfs.referenceCount (node t) minusOne }
  cases str with
  | nil =>
    refine ⟨s.goOn t v (.assign heap (some path) r), ?_, h.goOn_same running rfl ⟨readable, ?_⟩⟩
    · simp only [List.nil_append] at hb length
      simp [resume, hb, length, h.root, v]
    · rw [← cs]
      simp [components, reach]
  | cons c str =>
    refine ⟨s.goOn t v (.walk heap (some (path.add 1)) r), ?_, h.goOn_same running rfl ?_⟩
    · simp only [List.cons_append] at hb length
      simp [resume, hb, length, h.root, v]
    · exact ⟨[], _, pathAt_splitOn (bytes_add_one hb) h0.2, rfl, cs⟩

/-- A round of the recursion does, up to an insertion. -/
lemma walk_inv {heap : Heap} {path : Option Ptr} {n : Nat} (phase : s.phase t = .walk heap path n) :
    ∃ s', s.resume t (node t) (.walk heap path n) = some s' ∧ s'.Inv start r target node := by
  have running : s.phase t ≠ .returned := by simp [phase]
  obtain ⟨q, ts, hp, reached, cs⟩ : (MountPhase.walk heap path n).Stands s.vfs.tree r (target t) :=
    phase ▸ h.stands t
  obtain ⟨g, hg⟩ := h.trie.reach_node h.root reached
  cases ts with
  | nil =>
    cases hp
    refine ⟨s.goOn t s.vfs (.assign heap none n), by simp [resume, strsep_none],
      h.goOn_same running rfl ⟨by rintro p ⟨⟩, ?_⟩⟩
    rw [← cs]
    simpa using reached
  | cons token ts =>
    obtain ⟨p, rfl⟩ : ∃ p, path = some p := by
      cases hp
      exact ⟨_, rfl⟩
    obtain ⟨path', heap', str, sep, bytes, isStr, hp', -, -, -⟩ := hp.strsep
    obtain ⟨order, cmp, empty⟩ := strcmp_empty isStr
    by_cases ht : token = []
    · refine ⟨s.goOn t s.vfs (.assign heap' path' n), ?_, h.goOn_same running rfl ⟨hp'.readable, ?_⟩⟩
      · simp [resume, sep, bytes, cmp, empty.mpr ht]
      · rw [← cs]
        simpa [ht] using reached
    · have differs : order ≠ 0 := fun e => ht (empty.mp e)
      have find := h.trie.findEntry hg isStr
      have rest : (token :: ts).takeWhile (· ≠ []) = token :: ts.takeWhile (· ≠ []) := by simp [ht]
      rw [rest] at cs
      cases hl : lookup s.vfs.tree n token with
      | some m =>
        refine ⟨s.goOn t s.vfs (.walk heap' path' m), ?_, h.goOn_same running rfl ?_⟩
        · simp [resume, sep, bytes, cmp, differs, hg, find, hl]
        · refine ⟨q ++ [token], ts, hp', ?_, by simpa using cs⟩
          rw [reach_snoc, reached, Option.bind_some, hl]
      | none =>
        refine ⟨s.goOn t s.vfs (.insert heap' path' n str), ?_, h.goOn_same running rfl ?_⟩
        · simp [resume, sep, bytes, cmp, differs, hg, find, hl]
        · exact ⟨q, token, ts, hp', reached, isStr, cs⟩

/-- So does the insertion of an entry, if there is still none of its name. -/
lemma insert_inv {heap : Heap} {path : Option Ptr} {n : Nat} {token : Bytes}
    (phase : s.phase t = .insert heap path n token) (unnamed : s.Unnamed t) :
    ∃ s', s.resume t (node t) (.insert heap path n token) = some s' ∧ s'.Inv start r target node := by
  have running : s.phase t ≠ .returned := by simp [phase]
  obtain ⟨q, c, ts, hp, reached, isStr, cs⟩ :
    (MountPhase.insert heap path n token).Stands s.vfs.tree r (target t) := phase ▸ h.stands t
  obtain ⟨g, hg⟩ := h.trie.reach_node h.root reached
  have free : lookup s.vfs.tree n c = none := by
    simpa [Unnamed, found, phase, hg, h.trie.findEntry hg isStr] using unnamed
  have inserted : gentreeInsert s.vfs.tree (some n) ⟨c ++ [0], none⟩ =
      some (s.vfs.tree.next, insertEntry s.vfs.tree n g c) := Gentree.insert_child h.root hg
  have reach' := insertEntry_reach h.trie h.root reached hg isStr.1 free
  have nodeAt' := insertEntry_nodeAt h.trie h.root reached hg isStr.1 free
  have missing : reach s.vfs.tree r (q ++ [c]) = none := by
    rw [reach_snoc, reached, Option.bind_some, free]
  refine ⟨s.goOn t { s.vfs with tree := insertEntry s.vfs.tree n g c } (.walk heap path s.vfs.tree.next),
    by simp [resume, dupBytes_eq isStr, inserted], h.goOn running ⟨?_, h.root, ?_, ?_⟩ ?_ ?_⟩
  · exact h.trie.insertEntry hg isStr.1 free
  · intro p m old
    rw [reach', if_neg, old]
    rintro rfl
    rw [missing] at old
    cases old
  · intro p nd old
    rw [nodeAt', if_neg, old]
    rintro rfl
    rw [nodeAt, h.root, Option.bind_some, missing] at old
    cases old
  · intro p nd at_p
    rw [nodeAt'] at at_p
    split at at_p
    · cases at_p
    · exact .inl at_p
  · exact ⟨q ++ [c], ts, hp, by rw [reach', if_pos rfl], by simpa using cs⟩

/-- And so does the assignment of the node, or the complaint if it has a path to print. -/
lemma assign_inv {heap : Heap} {path : Option Ptr} {n : Nat} (phase : s.phase t = .assign heap path n)
    (prints : s.PrintsPath t) :
    ∃ s', s.resume t (node t) (.assign heap path n) = some s' ∧ s'.Inv start r target node := by
  have running : s.phase t ≠ .returned := by simp [phase]
  obtain ⟨readable, reached⟩ : (MountPhase.assign heap path n).Stands s.vfs.tree r (target t) :=
    phase ▸ h.stands t
  obtain ⟨g, hg⟩ := h.trie.reach_node h.root reached
  have at_target := nodeAt_eq h.root reached hg
  have quiet : g.value.node = none ∨ path ≠ none := by
    cases path with
    | none => exact .inl (by simpa [PrintsPath, phase, hg] using prints)
    | some p => exact .inr (by simp)
  obtain ⟨v, done, tree⟩ := mountEntry_some (node t) hg readable quiet
  simp only [mountAt, hg, Option.map_some, Option.some.injEq] at tree
  refine ⟨s.goOn t v .returned, by simp [resume, done], ?_⟩
  cases mounted : g.value.node with
  | some nd =>
    rw [mounted, if_pos (by rfl)] at tree
    exact h.goOn_same running tree.symm ⟨nd, by rw [at_target, mounted]⟩
  | none =>
    rw [mounted, if_neg (by simp)] at tree
    have nodeAt' : ∀ p, nodeAt v.tree p = _ := tree ▸ setNode_nodeAt h.trie h.root reached hg
    refine h.goOn running ⟨?_, ?_, ?_, ?_⟩ ?_ ⟨node t, by rw [nodeAt', if_pos rfl]⟩
    · rw [← tree]
      exact h.trie.setNode hg
    · rw [← tree]
      exact h.root
    · intro p m old
      rw [← tree, setNode_reach h.trie hg, old]
    · intro p nd old
      rw [nodeAt', if_neg, old]
      rintro rfl
      rw [at_target, mounted] at old
      cases old
    · intro p nd at_p
      rw [nodeAt'] at at_p
      split at at_p
      · cases at_p
        exact .inr ⟨‹_›, rfl, rfl⟩
      · exact .inl at_p

omit [DecidableEq T] [DecidableEq N] in
/-- A thread whose entry no other thread mounts on has nothing to complain about. -/
lemma Inv.prints (free : ∀ nd, nodeAt start (target t) ≠ some (some nd))
    (alone : ∀ u, target u = target t → u = t) : s.PrintsPath t := by
  cases phase : s.phase t with
  | assign heap path n =>
    cases path with
    | some p => simp [PrintsPath, phase]
    | none =>
      obtain ⟨-, reached⟩ : (MountPhase.assign heap none n).Stands s.vfs.tree r (target t) :=
        phase ▸ h.stands t
      obtain ⟨g, hg⟩ := h.trie.reach_node h.root reached
      have at_target := nodeAt_eq h.root reached hg
      simp only [PrintsPath, phase, hg, Option.bind_some]
      cases mounted : g.value.node with
      | none => rfl
      | some nd =>
        rw [mounted] at at_target
        rcases h.nodes _ nd at_target with before | ⟨u, at_u, -, returned⟩
        · exact absurd before (free nd)
        · rw [alone u at_u.symm, phase] at returned
          cases returned
  | _ => simp [PrintsPath, phase]

omit h in
/-- A complaint that returned has printed a path. -/
lemma prints_of_step (done : step node s t () = some ((), s')) : s.PrintsPath t := by
  cases phase : s.phase t with
  | assign heap path n =>
    cases path with
    | some p => simp [PrintsPath, phase]
    | none =>
      simp only [step, phase, resume, mountEntry, printMounted_none, Option.map_eq_some_iff,
        Option.bind_eq_bind, Option.bind_eq_some_iff] at done
      obtain ⟨s₁, ⟨v, ⟨g, hg, assigned⟩, -⟩, -⟩ := done
      simp only [PrintsPath, phase, hg, Option.bind_some]
      cases mounted : g.value.node with
      | none => rfl
      | some nd => simp [mounted] at assigned
  | _ => simp [PrintsPath, phase]

/-- A thread that has not returned has a next step, which keeps the invariant. -/
lemma Inv.step (running : s.phase t ≠ .returned) (unnamed : s.Unnamed t) (prints : s.PrintsPath t) :
    ∃ s', step node s t () = some ((), s') ∧ s'.Inv start r target node := by
  have resumed : ∃ s', s.resume t (node t) (s.phase t) = some s' ∧ s'.Inv start r target node := by
    cases phase : s.phase t with
    | start heap path => exact start_inv h phase
    | walk heap path n => exact walk_inv h phase
    | insert heap path n token => exact insert_inv h phase unnamed
    | assign heap path n => exact assign_inv h phase prints
    | returned => exact absurd phase running
  obtain ⟨s', done, inv⟩ := resumed
  exact ⟨s', by simp [MountThreads.step, done], inv⟩

end Resume

/-! ## Runs in which a name comes twice -/

/-- Two siblings have one name. -/
def Twice (tree : Entries N) : Prop :=
  ∃ n m m', tree.Child n m ∧ tree.Child n m' ∧ nameOf tree m = nameOf tree m' ∧ m ≠ m'

/-- What a step can do to the tree. -/
lemma resume_tree [DecidableEq T] [DecidableEq N] {nd : N} {phase : MountPhase}
    (hr : s.vfs.tree.root = some r) (done : s.resume t nd phase = some s') :
    s'.vfs.tree = s.vfs.tree ∨
    (∃ n g value, s.vfs.tree.nodes n = some g ∧ s'.vfs.tree = s.vfs.tree.insertChild n g value) ∨
    ∃ n g, s.vfs.tree.nodes n = some g ∧ s'.vfs.tree = setNode s.vfs.tree n g nd := by
  cases phase with
  | start h path =>
    simp only [resume, Option.bind_eq_bind, Option.bind_eq_some_iff] at done
    obtain ⟨str, -, first, -, length, -, root, -, done⟩ := done
    split at done
    · cases done
      exact .inl rfl
    · cases done
      exact .inl rfl
  | walk h path n =>
    refine .inl ?_
    simp only [resume, Option.bind_eq_bind, Option.bind_eq_some_iff] at done
    obtain ⟨⟨currentToken, path', h'⟩, -, done⟩ := done
    cases currentToken with
    | none =>
      cases done
      rfl
    | some currentToken =>
      simp only [Option.bind_eq_some_iff] at done
      obtain ⟨token, -, order, -, done⟩ := done
      split at done
      · cases done
        rfl
      · simp only [Option.bind_eq_some_iff] at done
        obtain ⟨entry, -, child, -, done⟩ := done
        cases child with
        | none =>
          cases done
          rfl
        | some child =>
          cases done
          rfl
  | insert h path n token =>
    simp only [resume, Option.bind_eq_bind, Option.bind_eq_some_iff] at done
    obtain ⟨name, -, ⟨child, tree⟩, inserted, done⟩ := done
    cases done
    cases hg : s.vfs.tree.nodes n with
    | none => simp [gentreeInsert, gentreeNodeCreate, hr, hg] at inserted
    | some g =>
      rw [Gentree.insert_child hr hg, Option.some_inj] at inserted
      exact .inr (.inl ⟨n, g, _, hg, (Prod.mk.inj inserted).2.symm⟩)
  | assign h path n =>
    simp only [resume, mountEntry, Option.bind_eq_bind, Option.bind_eq_some_iff] at done
    obtain ⟨v, ⟨g, hg, assigned⟩, done⟩ := done
    cases done
    split at assigned
    · obtain ⟨text, -, assigned⟩ := Option.bind_eq_some_iff.mp assigned
      cases assigned
      exact .inl rfl
    · simp only [Gentree.modifyValue, hg, Option.bind_eq_bind, Option.bind_some] at assigned
      cases assigned
      exact .inr (.inr ⟨n, g, hg, rfl⟩)
  | returned => cases done

/-- Two siblings of one name stay so. -/
lemma Twice.insertChild {tree : Entries N} {n : Nat} {g : GentreeNode (VfsEntry N)} {value : VfsEntry N}
    (twice : Twice tree) (grown : tree.Grown) (hn : tree.nodes n = some g) :
    Twice (tree.insertChild n g value) := by
  obtain ⟨p, m, m', hc, hc', name, differ⟩ := twice
  have child := Gentree.insertChild_child grown hn value
  have nameOf' := insertChild_nameOf grown hn value
  have old : ∀ {m}, tree.Child p m → m ≠ tree.next := by
    rintro m hc rfl
    exact grown.not_child_next p hc
  refine ⟨p, m, m', (child p m).mpr (.inl hc), (child p m').mpr (.inl hc'), ?_, differ⟩
  rw [nameOf', nameOf', if_neg (old hc), if_neg (old hc'), name]

/-- Setting a node leaves a name that comes twice. -/
lemma Twice.setNode {tree : Entries N} {n : Nat} {g : GentreeNode (VfsEntry N)} {nd : N}
    (twice : Twice tree) (hn : tree.nodes n = some g) : Twice (setNode tree n g nd) := by
  obtain ⟨p, m, m', hc, hc', name, differ⟩ := twice
  refine ⟨p, m, m', (setNode_child hn p m).mpr hc, (setNode_child hn p m').mpr hc', ?_, differ⟩
  rw [setNode_nameOf hn, name]

section Twice
variable [DecidableEq T] [DecidableEq N]

/-- A step of a thread goes on with its call. -/
lemma resume_of_step (done : step node s t () = some ((), s')) :
    s.resume t (node t) (s.phase t) = some s' := by
  obtain ⟨after, done, e⟩ := Option.map_eq_some_iff.mp done
  rw [done, (Prod.mk.inj e).2]

/-- A tree that grew by insertion, with its root. -/
lemma step_grown (grown : s.vfs.tree.Grown) (hr : s.vfs.tree.root = some r)
    (done : step node s t () = some ((), s')) : s'.vfs.tree.Grown ∧ s'.vfs.tree.root = some r := by
  rcases resume_tree hr (resume_of_step done) with same | ⟨n, g, value, hn, inserted⟩ | ⟨n, g, hn, assigned⟩
  · rw [same]
    exact ⟨grown, hr⟩
  · rw [inserted]
    exact ⟨grown.insertChild hn, hr⟩
  · rw [assigned]
    exact ⟨grown.congr rfl rfl (setNode_children hn), hr⟩

/-- A step leaves a name that comes twice. -/
lemma step_twice (grown : s.vfs.tree.Grown) (hr : s.vfs.tree.root = some r) (twice : Twice s.vfs.tree)
    (done : step node s t () = some ((), s')) : Twice s'.vfs.tree := by
  rcases resume_tree hr (resume_of_step done) with same | ⟨n, g, value, hn, inserted⟩ | ⟨n, g, hn, assigned⟩
  · rw [same]
    exact twice
  · rw [inserted]
    exact twice.insertChild grown hn
  · rw [assigned]
    exact twice.setNode hn

/-- An entry that is inserted beside one of its name. -/
lemma Inv.twice (h : s.Inv start r target node) (named : ¬ s.Unnamed t)
    (done : MountThreads.step node s t () = some ((), s')) : Twice s'.vfs.tree := by
  replace done := resume_of_step done
  cases phase : s.phase t with
  | insert heap path n token =>
    obtain ⟨q, c, ts, hp, reached, isStr, cs⟩ :
      (MountPhase.insert heap path n token).Stands s.vfs.tree r (target t) := phase ▸ h.stands t
    obtain ⟨g, hg⟩ := h.trie.reach_node h.root reached
    have inserted : gentreeInsert s.vfs.tree (some n) ⟨c ++ [0], none⟩ =
        some (s.vfs.tree.next, insertEntry s.vfs.tree n g c) := Gentree.insert_child h.root hg
    simp only [phase, resume, dupBytes_eq isStr, inserted, Option.bind_eq_bind, Option.bind_some] at done
    cases done
    have there : lookup s.vfs.tree n c ≠ none := by
      intro free
      simp [Unnamed, found, phase, hg, h.trie.findEntry hg isStr, free] at named
    obtain ⟨m, hl⟩ := Option.ne_none_iff_exists'.mp there
    obtain ⟨hc, name⟩ := h.trie.lookup_eq_some.mp hl
    have child := Gentree.insertChild_child h.trie.grown hg ⟨c ++ [0], none⟩
    refine ⟨n, m, s.vfs.tree.next, (child n m).mpr (.inl hc), (child n _).mpr (.inr ⟨rfl, rfl⟩), ?_,
      h.trie.ne_next hc⟩
    have nameOf' := insertEntry_nameOf (c := c) h.trie hg
    have old : nameOf (insertEntry s.vfs.tree n g c) m = some (c ++ [0]) := by
      rw [nameOf', if_neg (h.trie.ne_next hc), name]
    have new : nameOf (insertEntry s.vfs.tree n g c) s.vfs.tree.next = some (c ++ [0]) := by
      rw [nameOf', if_pos rfl]
    exact old.trans new.symm
  | _ => exact absurd (by simp [Unnamed, found, phase]) named

/-- The two kinds of runs. -/
lemma run_inv {init : MountThreads T N} {events : List (MountEvent T N)}
    (run : Run (step node) init events s) (inv : init.Inv start r target node) :
    s.vfs.tree.Grown ∧ s.vfs.tree.root = some r ∧
      ((∀ e ∈ events, e.before.Unnamed e.thread) → s.Inv start r target node) ∧
      ((¬ ∀ e ∈ events, e.before.Unnamed e.thread) → Twice s.vfs.tree) := by
  induction run with
  | nil => exact ⟨inv.trie.grown, inv.root, fun _ => inv, fun h => absurd (by simp) h⟩
  | @snoc events e run done ih =>
    obtain ⟨grown, root, unnamed, twice⟩ := ih
    obtain ⟨grown', root'⟩ := step_grown grown root done
    refine ⟨grown', root', ?_, ?_⟩
    · intro h
      rw [List.forall_mem_append, List.forall_mem_singleton] at h
      have running : e.before.phase e.thread ≠ .returned := by
        intro returned
        simp [step, returned, resume] at done
      obtain ⟨s', done', inv'⟩ := (unnamed h.1).step running h.2 (prints_of_step done)
      obtain rfl : s' = e.after := by
        rw [done] at done'
        exact (Prod.mk.inj (Option.some_inj.mp done')).2.symm
      exact inv'
    · intro h
      by_cases earlier : ∀ e ∈ events, e.before.Unnamed e.thread
      · refine (unnamed earlier).twice ?_ done
        intro last
        exact h (List.forall_mem_append.mpr ⟨earlier, List.forall_mem_singleton.mpr last⟩)
      · exact step_twice grown root (twice earlier) done

end Twice

/-- Before the calls, on paths on which no node is mounted. -/
lemma inv_start {v : Vfs N} {heap : T → Heap} {path : T → Ptr} {str : T → Bytes} (trie : Trie v.tree)
    (root : v.tree.root = some r)
    (paths : ∀ t, ∃ bytes, (heap t).bytes (path t) = some bytes ∧ IsStr bytes (slash :: str t)) :
    Inv v.tree r (fun t => components (slash :: str t)) node ⟨v, fun t => .start (heap t) (path t)⟩ := by
  refine ⟨trie, root, ?_, fun p nd at_p => .inl at_p⟩
  intro t
  obtain ⟨bytes, hb, hs⟩ := paths t
  exact ⟨bytes, str t, hb, hs, rfl⟩

end MountThreads

/-- Every path resolves to the node that was mounted on it. -/
def Resolves (tree : Entries N) (str : T → Bytes) (node : T → N) : Prop :=
  ∀ t h p bytes, Heap.bytes h p = some bytes → IsStr bytes (slash :: str t) →
    ∃ path' h', vfsGetMountpoint tree h (some p) = some (some (node t), path', h')

/-- For any calls of `vfs_mount` at the same time, on paths on which no node is mounted, and any order of
their steps: until an entry is inserted beside one of its name a step faults only where it has no path to
print, and never in a call with an entry of its own; and once all calls have returned, siblings have
different names and every path resolves to its node if and only if no entry was inserted so, and the calls
whose paths name one entry have one node. -/
theorem vfs_mounts_iff [DecidableEq T] [DecidableEq N] {v : Vfs N} {ms : List (List Bytes × N)}
    (mounted : Mounted v ms) {node : T → N} {heap : T → Heap} {path : T → Ptr} {str : T → Bytes}
    (paths : ∀ t, ∃ bytes, (heap t).bytes (path t) = some bytes ∧ IsStr bytes (slash :: str t))
    (free : ∀ t nd, nodeAt v.tree (components (slash :: str t)) ≠ some (some nd))
    {events : List (MountEvent T N)} {s : MountThreads T N}
    (run : Run (MountThreads.step node) ⟨v, fun t => .start (heap t) (path t)⟩ events s) :
    ((∀ e ∈ events, e.before.Unnamed e.thread) → ∀ t, s.phase t ≠ .returned → s.Unnamed t →
      ((∃ s', MountThreads.step node s t () = some ((), s')) ↔ s.PrintsPath t) ∧
      ((∀ u, components (slash :: str u) = components (slash :: str t) → u = t) → s.PrintsPath t)) ∧
    ((∀ t, s.phase t = .returned) →
      ((∀ n m m', s.vfs.tree.Child n m → s.vfs.tree.Child n m' →
          nameOf s.vfs.tree m = nameOf s.vfs.tree m' → m = m') ∧ Resolves s.vfs.tree str node ↔
        (∀ e ∈ events, e.before.Unnamed e.thread) ∧
          ∀ t u, components (slash :: str t) = components (slash :: str u) → node t = node u)) := by
  obtain ⟨trie, -⟩ := mounted.refines
  obtain ⟨r, root⟩ := trie.root
  obtain ⟨-, -, unnamed, twice⟩ := MountThreads.run_inv run (MountThreads.inv_start trie root paths)
  constructor
  · intro h t running next
    refine ⟨⟨?_, ?_⟩, (unnamed h).prints (free t)⟩
    · rintro ⟨s', done⟩
      exact MountThreads.prints_of_step done
    · intro prints
      obtain ⟨s', done, -⟩ := (unnamed h).step running next prints
      exact ⟨s', done⟩
  · intro returned
    have resolved : (∀ e ∈ events, e.before.Unnamed e.thread) → ∀ t, ∃ u,
        components (slash :: str t) = components (slash :: str u) ∧
          ResolvesTo s.vfs.tree (components (slash :: str t)) (node u) := by
      intro all t
      obtain ⟨nd, at_t⟩ := returned t ▸ (unnamed all).stands t
      rcases (unnamed all).nodes _ nd at_t with old | ⟨u, same, rfl, -⟩
      · exact absurd old (free t nd)
      · exact ⟨u, same, resolvesTo_of_nodeAt (unnamed all).trie at_t⟩
    constructor
    · rintro ⟨distinct, resolves⟩
      have all : ∀ e ∈ events, e.before.Unnamed e.thread := by
        by_contra named
        obtain ⟨n, m, m', hc, hc', name, differ⟩ := twice named
        exact differ (distinct n m m' hc hc' name)
      refine ⟨all, ?_⟩
      intro t u same
      obtain ⟨w, -, get⟩ := resolved all t
      have given : ∀ t', components (slash :: str t') = components (slash :: str t) →
          node t' = node w := by
        intro t' same'
        obtain ⟨bytes, hb, hs⟩ := paths t'
        obtain ⟨path₁, h₁, get₁⟩ := resolves t' _ _ _ hb hs
        obtain ⟨path₂, h₂, get₂⟩ := get _ same' hb hs
        rw [get₁] at get₂
        exact Option.some_inj.mp (Prod.mk.inj (Option.some_inj.mp get₂)).1
      rw [given t rfl, given u same.symm]
    · rintro ⟨all, agree⟩
      refine ⟨fun n m m' => (unnamed all).trie.distinct, ?_⟩
      intro t h p bytes hb hs
      obtain ⟨u, same, get⟩ := resolved all t
      rw [agree t u same]
      exact get _ rfl hb hs

section Race

/-- Two threads, for `/a/b` and `/a/c`. -/
def twoPaths : Bool → Bytes
  | true => [97, 47, 98]
  | false => [97, 47, 99]

/-- The heap of a thread, with its path. -/
def pathHeap (t : Bool) : Heap := ⟨fun _ => some (slash :: twoPaths t ++ [0]), 1⟩

/-- The nodes they mount. -/
def twoNodes (t : Bool) : Nat := if t then 1 else 2

/-- What `vfs_init` leaves. -/
def emptyVfs : Vfs Nat where
  tree := ⟨some 0, Function.update (fun _ => none) 0 (some ⟨⟨[114, 111, 111, 116, 0], none⟩, []⟩), 1⟩
  referenceCount _ := 0
  printed := []

/-- An empty tree has no mounts. -/
lemma emptyVfs_mounted : Mounted emptyVfs [] := by
  have init : vfsInitRoot (fun _ => 0) = some emptyVfs := rfl
  exact .init init

/-- The heap of a thread holds its path. -/
lemma twoPaths_paths (t : Bool) : ∃ bytes, (pathHeap t).bytes ⟨0, 0⟩ = some bytes ∧
    IsStr bytes (slash :: twoPaths t) := by
  refine ⟨_, rfl, isStr_self ?_⟩
  cases t <;> decide

/-- Nothing is mounted at either path. -/
lemma twoPaths_free (t : Bool) (nd : Nat) :
    nodeAt emptyVfs.tree (components (slash :: twoPaths t)) ≠ some (some nd) := by
  cases t <;> nofun

/-- Before the two calls. -/
def bothStart : MountThreads Bool Nat := ⟨emptyVfs, fun t => .start (pathHeap t) ⟨0, 0⟩⟩

/-- The call has returned. -/
def MountPhase.isReturned : MountPhase → Bool
  | .returned => true
  | _ => false

/-- A call that has returned. -/
lemma MountPhase.eq_returned {phase : MountPhase} (h : phase.isReturned = true) : phase = .returned := by
  cases phase with
  | returned => rfl
  | _ => cases h

/-- What can be computed of the run of a schedule: whether the calls have returned, whether every entry
was inserted where there was none of its name, and the node of `/a/b`. -/
def outcome (threads : List Bool) : Option (Bool × Bool × Option (Option Nat)) :=
  (schedule (MountThreads.step twoNodes) bothStart (threads.map (·, ()))).map fun (events, s) =>
    ((s.phase true).isReturned && (s.phase false).isReturned,
      events.all fun e => e.before.Unnamed e.thread,
      (vfsGetMountpoint s.vfs.tree (pathHeap true) (some ⟨0, 0⟩)).map (·.1))

/-- The outcome of a schedule of the two threads is that of a run. -/
lemma outcome_run {threads : List Bool} {unnamed : Bool} {node : Option (Option Nat)}
    (h : outcome threads = some (true, unnamed, node)) :
    ∃ events s, Run (MountThreads.step twoNodes) bothStart events s ∧ (∀ t, s.phase t = .returned) ∧
      (unnamed = true ↔ ∀ e ∈ events, e.before.Unnamed e.thread) ∧
      (vfsGetMountpoint s.vfs.tree (pathHeap true) (some ⟨0, 0⟩)).map (·.1) = node := by
  obtain ⟨⟨events, s⟩, run, e⟩ := Option.map_eq_some_iff.mp h
  obtain ⟨returned, e⟩ := Prod.mk.inj e
  obtain ⟨all, found⟩ := Prod.mk.inj e
  obtain ⟨first, second⟩ := Bool.and_eq_true_iff.mp returned
  refine ⟨events, s, .of_schedule run, ?_, ?_, found⟩
  · intro t
    cases t with
    | true => exact MountPhase.eq_returned first
    | false => exact MountPhase.eq_returned second
  · rw [← all, List.all_eq_true]
    simp only [decide_eq_true_eq]

/-- The calls take turns, and both have their insertion to make when one of them makes it; but the second one
searches for `a` when the first has inserted it. -/
theorem vfs_mounts_iff_turns :
    ∃ events s, Run (MountThreads.step twoNodes) bothStart events s ∧ (∀ t, s.phase t = .returned) ∧
      Resolves s.vfs.tree twoPaths twoNodes := by
  have h : outcome [true, false, true, true, false, true, false, true, false, true, false, false, true] =
      some (true, true, some (some 1)) := rfl
  obtain ⟨events, s, run, returned, unnamed, -⟩ := outcome_run h
  have iff := (vfs_mounts_iff emptyVfs_mounted twoPaths_paths twoPaths_free run).2 returned
  have agree : ∀ t u, components (slash :: twoPaths t) = components (slash :: twoPaths u) →
      twoNodes t = twoNodes u := by
    decide
  exact ⟨events, s, run, returned, (iff.mpr ⟨unnamed.mp rfl, agree⟩).2⟩

/-- Both calls search for `a` before one of them inserts it. The tree has two entries of that name, and
`/a/b` does not resolve to its node. -/
theorem vfs_mounts_lose_path :
    ∃ events s, Run (MountThreads.step twoNodes) bothStart events s ∧ (∀ t, s.phase t = .returned) ∧
      (∃ n m m', s.vfs.tree.Child n m ∧ s.vfs.tree.Child n m' ∧
        nameOf s.vfs.tree m = nameOf s.vfs.tree m' ∧ m ≠ m') ∧
      ¬ Resolves s.vfs.tree twoPaths twoNodes := by
  have h : outcome [true, true, false, false, true, false, true, true, true, true, false, false, false,
      false] = some (true, false, some none) := rfl
  obtain ⟨events, s, run, returned, unnamed, node⟩ := outcome_run h
  obtain ⟨trie, -⟩ := emptyVfs_mounted.refines
  have inv : MountThreads.Inv emptyVfs.tree 0 (fun t => components (slash :: twoPaths t)) twoNodes
      bothStart := MountThreads.inv_start trie rfl twoPaths_paths
  obtain ⟨-, -, -, twice⟩ := MountThreads.run_inv run inv
  refine ⟨events, s, run, returned, twice (fun all => nomatch unnamed.mpr all), ?_⟩
  intro resolves
  obtain ⟨bytes, hb, hs⟩ := twoPaths_paths true
  obtain ⟨path', h', get⟩ := resolves true _ _ _ hb hs
  rw [get] at node
  cases node

end Race

end WivOS.Fs
