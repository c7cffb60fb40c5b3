import WivOS.Fs.Trie

/-!
# Walking a path

How the recursions of `fs/vfs.c` that cut a path with `strsep` walk the entries: `PathAt` says which
tokens are still to come at a pointer. `vfs_mount` walks over the leading tokens that are not empty
(`mountAt`), and then mounts, or prints what is left of the path (`Arrives`): that is `NULL`, which the
`printf` reads through, unless the walk ended at an empty token before the last one. `vfs_get_mountpoint`
stops at the last entry that there is (`deepest`), with the pointer at the token that it did not find.
-/

namespace WivOS.Fs
open WivOS.Utils Entries

variable {N : Type}

/-- A string that can stand between two slashes. -/
def IsToken (t : Bytes) : Prop := 0 ∉ t ∧ slash ∉ t

/-- The tokens of the string at a pointer, none at `NULL`. -/
inductive PathAt (h : Heap) : Option Ptr → List Bytes → Prop where
  | nil : PathAt h none []
  | cons {p t ts rest} : (∀ t' ∈ t :: ts, IsToken t') →
      h.bytes p = some ([slash].intercalate (t :: ts) ++ 0 :: rest) → PathAt h (some p) (t :: ts)

section Strsep
variable {h : Heap} {p : Ptr} {t : Bytes} {ts : List Bytes}

/-- `strsep` returns the first token, and leaves the pointer at the second. -/
lemma PathAt.strsep (hp : PathAt h (some p) (t :: ts)) :
    ∃ path' h' token, h.strsep (some p) [slash] = some (some p, path', h') ∧
      h'.bytes p = some token ∧ IsStr token t ∧ PathAt h' path' ts ∧
      (∀ p', path' = some p' → p' = p.add (t.length + 1)) ∧
      (∀ b, b ≠ p.block → h'.blocks b = h.blocks b) ∧ h'.next = h.next := by
  cases hp with
  | @cons _ _ _ rest tokens hb =>
    obtain ⟨h0, hs⟩ := tokens t (List.mem_cons_self ..)
    cases ts with
    | nil =>
      rw [List.intercalate_singleton] at hb
      refine ⟨none, h, _, strsep_last hb h0 hs, hb, ⟨h0, rest, rfl⟩, .nil, ?_, fun _ _ => rfl, rfl⟩
      intro p' hp'
      cases hp'
    | cons t' ts =>
      rw [List.intercalate_cons_cons] at hb
      simp only [List.append_assoc, List.cons_append, List.nil_append] at hb
      obtain ⟨h', run, token, after, frame, next⟩ := strsep_cut hb h0 hs
      refine ⟨_, h', _, run, token, ⟨h0, _, rfl⟩, ?_, ?_, frame, next⟩
      · exact .cons (fun t'' ht'' => tokens t'' (List.mem_cons_of_mem _ ht'')) after
      · intro p' hp'
        cases hp'
        rfl

/-- `strsep` at the end of the string returns `NULL`. -/
lemma strsep_none : h.strsep none [slash] = some (none, none, h) := rfl

/-- A token is compared with the empty string. -/
lemma strcmp_empty {token : Bytes} (ht : IsStr token t) :
    ∃ r, strcmp token [0] = some r ∧ (r = 0 ↔ t = []) :=
  strcmp_eq ht ⟨by simp, [], rfl⟩

end Strsep

section Find
variable {tree : Entries N} {n : Nat} {g : GentreeNode (VfsEntry N)} {token t : Bytes}

/-- The loop over the children finds the one of that name. -/
lemma Entries.Trie.findEntry (h : Trie tree) (hn : tree.nodes n = some g) (ht : IsStr token t) :
    findEntry tree token g.children = some (lookup tree n t) := by
  have loop : ∀ children : List Nat, (∀ m ∈ children, tree.Child n m) →
      Fs.findEntry tree token children =
        some (children.find? fun m => nameOf tree m = some (t ++ [0])) := by
    intro children
    induction children with
    | nil => intro _; rfl
    | cons m children ih =>
      intro hc
      simp only [List.mem_cons, forall_eq_or_imp] at hc
      obtain ⟨_, g', hg'⟩ := h.grown.child hc.1
      obtain ⟨c, h0, name⟩ := h.names hg'
      obtain ⟨r, hr, eq⟩ := strcmp_eq (isStr_self h0) ht
      have named : nameOf tree m = some (c ++ [0]) := by simp [nameOf, hg', name]
      by_cases hc' : c = t
      · subst hc'
        simp [Fs.findEntry, hg', name, hr, eq.mpr rfl, named]
      · have hr0 : r ≠ 0 := fun e => hc' (eq.mp e)
        have differ : nameOf tree m ≠ some (t ++ [0]) := by
          rw [named, ne_eq, Option.some.injEq]
          exact fun e => hc' (List.append_cancel_right e)
        simp [Fs.findEntry, hg', name, hr, hr0, differ, ih hc.2]
  rw [loop g.children fun m hm => ⟨g, hn, hm⟩]
  simp [lookup, hn]

end Find

section Print
variable {h : Heap}

/-- What `printf` writes for a path. -/
def mountedText (s : Bytes) : Bytes := mountedFormat.1 ++ s ++ mountedFormat.2 ++ [0]

/-- The message quotes the string that the path points at. -/
lemma printMounted_some {p : Ptr} {memory s : Bytes} (hb : h.bytes p = some memory) (hs : IsStr memory s) :
    printMounted h (some p) = some (mountedText s) := by
  have before : ∀ c ∈ mountedFormat.1, c ≠ 0 ∧ c ≠ 37 := by simp [mountedFormat]
  have behind : ∀ c ∈ mountedFormat.2, c ≠ 0 ∧ c ≠ 37 := by simp [mountedFormat]
  have string := Printf.directiveAt_string true (mountedFormat.2 ++ [0]) fun _ => ⟨0, memory⟩
  simp only [Printf.convertStringAt_plain hs, Option.map_some] at string
  have tail := Printf.vsnprintfLoopAt_text true behind 3 [0] fun _ => ⟨0, memory⟩
  have rest : Printf.vsnprintfLoopAt true (4 + mountedFormat.2.length)
      (37 :: 115 :: (mountedFormat.2 ++ [0])) (fun _ => ⟨0, memory⟩) =
      some (s ++ (mountedFormat.2 ++ [0])) := by
    rw [show 4 + mountedFormat.2.length = 3 + mountedFormat.2.length + 1 from rfl, Printf.vsnprintfLoopAt]
    simp only [List.head?_cons, List.tail_cons, Option.bind_eq_bind, Option.bind_some, string, tail]
    rfl
  have whole := Printf.vsnprintfLoopAt_text true before (4 + mountedFormat.2.length)
    (37 :: 115 :: (mountedFormat.2 ++ [0])) fun _ => ⟨0, memory⟩
  rw [rest, Option.map_some] at whole
  simp only [printMounted, hb, Option.bind_some, Option.getD_some, mountedText, List.append_assoc]
  exact whole

/-- There is nothing to quote at `NULL`. -/
lemma printMounted_none (h : Heap) : printMounted h none = none := rfl

end Print

section Mount
variable {v : Vfs N} {n : Nat} (nd : N)

/-- The string at a pointer can be read, unless the pointer is `NULL`. -/
def Readable (h : Heap) (path : Option Ptr) : Prop :=
  ∀ p, path = some p → ∃ memory s, h.bytes p = some memory ∧ IsStr memory s

/-- Tokens with slashes between them have no 0 byte. -/
lemma intercalate_tokens {ts : List Bytes} (tokens : ∀ t ∈ ts, IsToken t) : 0 ∉ [slash].intercalate ts := by
  induction ts with
  | nil => simp
  | cons t ts ih =>
    simp only [List.mem_cons, forall_eq_or_imp] at tokens
    cases ts with
    | nil => simpa using tokens.1.1
    | cons t' ts =>
      rw [List.intercalate_cons_cons]
      simp only [List.mem_append, List.mem_singleton, not_or]
      exact ⟨⟨tokens.1.1, by decide⟩, ih tokens.2⟩

/-- Tokens are a string. -/
lemma PathAt.readable {h : Heap} {path : Option Ptr} {ts : List Bytes} (hp : PathAt h path ts) :
    Readable h path := by
  rintro p rfl
  cases hp with
  | @cons _ t ts rest tokens hb => exact ⟨_, _, hb, intercalate_tokens tokens, rest, rfl⟩

/-- The mount at an entry, with a path that can be printed or no node to complain about. -/
lemma mountEntry_some {g : GentreeNode (VfsEntry N)} {h : Heap} {path : Option Ptr}
    (hn : v.tree.nodes n = some g) (readable : Readable h path)
    (prints : g.value.node = none ∨ path ≠ none) :
    ∃ v', mountEntry v h path n nd = some v' ∧ mountAt nd v.tree n [] = some v'.tree := by
  unfold mountEntry
  simp only [hn, mountAt, Option.map_some, Option.bind_eq_bind, Option.bind_some]
  cases taken : g.value.node with
  | none =>
    refine ⟨{ v with tree := setNode v.tree n g nd }, ?_, rfl⟩
    simp [Gentree.modifyValue, hn, setNode]
  | some nd' =>
    obtain ⟨p, rfl⟩ := Option.ne_none_iff_exists'.mp (prints.resolve_left (by simp [taken]))
    obtain ⟨memory, s, hb, hs⟩ := readable p rfl
    refine ⟨{ v with printed := v.printed ++ mountedText s }, ?_, rfl⟩
    simp [printMounted_some hb hs]

/-- The complaint about an entry that has a node faults at `NULL`. -/
lemma mountEntry_none {g : GentreeNode (VfsEntry N)} {h : Heap} (hn : v.tree.nodes n = some g)
    (taken : g.value.node ≠ none) : mountEntry v h none n nd = none := by
  obtain ⟨nd', taken⟩ := Option.ne_none_iff_exists'.mp taken
  simp [mountEntry, hn, taken, printMounted_none]

/-- The node of the entry that a list of names leads to, `NULL` if there is none. -/
def nodeFrom (tree : Entries N) (n : Nat) (cs : List Bytes) : Option N :=
  ((reach tree n cs).bind fun m => tree.nodes m).bind (·.value.node)

/-- Below an entry that was just inserted there is nothing. -/
lemma nodeFrom_next {tree : Entries N} {g : GentreeNode (VfsEntry N)} {c : Bytes} (trie : Trie tree)
    (hn : tree.nodes n = some g) (h0 : 0 ∉ c) (free : lookup tree n c = none) (cs : List Bytes) :
    nodeFrom (insertEntry tree n g c) tree.next cs = none := by
  have lt := trie.grown.bound hn
  cases cs with
  | nil =>
    have new : (insertEntry tree n g c).nodes tree.next = some ⟨⟨c ++ [0], none⟩, []⟩ := by
      unfold insertEntry
      rw [Gentree.insertChild_nodes, if_neg (by omega), if_pos rfl]
    simp [nodeFrom, reach, new]
  | cons d cs =>
    have leaf : lookup (insertEntry tree n g c) tree.next d = none := by
      rw [insertEntry_lookup trie hn h0 free, if_neg (by omega), if_pos rfl]
    simp [nodeFrom, reach, leaf]

/-- What is behind the first empty token. -/
def behindEmpty (ts : List Bytes) : List Bytes := (ts.dropWhile (· ≠ [])).tail

/-- Something is, if a token that is not the last one is empty. -/
lemma behindEmpty_ne_nil {ts : List Bytes} : behindEmpty ts ≠ [] ↔ [] ∈ ts.dropLast := by
  induction ts with
  | nil => simp [behindEmpty]
  | cons t ts ih =>
    cases ts with
    | nil => by_cases ht : t = [] <;> simp [behindEmpty, ht]
    | cons t' ts =>
      by_cases ht : t = []
      · simp [behindEmpty, ht]
      · rw [List.dropLast_cons_of_ne_nil (by simp), List.mem_cons, ← ih]
        simp [behindEmpty, ht, Ne.symm ht]

/-- Where `vfs_mount_recursive` gets to from the entry `n`: the entries as they are then, the entry `m` of
the leading tokens that are not empty, and what is left of the path. -/
structure Arrives (nd : N) (tree : Entries N) (n : Nat) (ts : List Bytes) (v₁ : Vfs N) (m : Nat) (h₁ : Heap)
    (path₁ : Option Ptr) : Prop where
  walked : mountAt nd tree n (ts.takeWhile (· ≠ [])) = mountAt nd v₁.tree m []
  entry : ∃ g, v₁.tree.nodes m = some g ∧ g.value.node = nodeFrom tree n (ts.takeWhile (· ≠ []))
  left : PathAt h₁ path₁ (behindEmpty ts)

/-- `vfs_mount_recursive` walks over the leading tokens that are not empty, and mounts there. -/
lemma vfsMountRecursive_eq {h : Heap} {path : Option Ptr} {ts : List Bytes} {fuel : Nat}
    {g : GentreeNode (VfsEntry N)} (hp : PathAt h path ts) (trie : Trie v.tree)
    (hn : v.tree.nodes n = some g) (hf : ts.length < fuel) :
    ∃ v₁ m h₁ path₁, Arrives nd v.tree n ts v₁ m h₁ path₁ ∧
      vfsMountRecursive nd fuel v h path n = (mountEntry v₁ h₁ path₁ m nd).map (·, h₁) := by
  induction ts generalizing v h path n g fuel with
  | nil =>
    cases hp
    obtain ⟨fuel, rfl⟩ := Nat.exists_eq_add_one_of_ne_zero (Nat.ne_of_gt hf)
    refine ⟨v, n, h, none, ⟨rfl, ⟨g, hn, by simp [nodeFrom, reach, hn]⟩, .nil⟩, ?_⟩
    simp only [vfsMountRecursive, strsep_none, Option.bind_eq_bind, Option.bind_some, Option.map_eq_bind]
    rfl
  | cons t ts ih =>
    obtain ⟨fuel, rfl⟩ := Nat.exists_eq_add_one_of_ne_zero (Nat.ne_zero_of_lt hf)
    obtain ⟨p, rfl⟩ : ∃ p, path = some p := by
      cases hp
      exact ⟨_, rfl⟩
    have valid : IsToken t := by
      cases hp with
      | cons tokens _ => exact tokens t (List.mem_cons_self ..)
    obtain ⟨path', h', token, sep, bytes, isStr, hp', -, -, -⟩ := hp.strsep
    obtain ⟨r, cmp, empty⟩ := strcmp_empty isStr
    by_cases ht : t = []
    · refine ⟨v, n, h', path', ⟨by simp [ht], ⟨g, hn, by simp [ht, nodeFrom, reach, hn]⟩, ?_⟩, ?_⟩
      · simpa [behindEmpty, ht] using hp'
      · simp only [vfsMountRecursive, sep, bytes, cmp, empty.mpr ht, Option.bind_eq_bind, Option.bind_some,
          if_true, Option.map_eq_bind]
        rfl
    · have hr : r ≠ 0 := fun e => ht (empty.mp e)
      have find := trie.findEntry hn isStr
      have hf' : ts.length < fuel := by
        simp only [List.length_cons] at hf
        omega
      have rest : (t :: ts).takeWhile (· ≠ []) = t :: ts.takeWhile (· ≠ []) := by simp [ht]
      have behind : behindEmpty (t :: ts) = behindEmpty ts := by simp [behindEmpty, ht]
      cases hl : lookup v.tree n t with
      | some m =>
        obtain ⟨g', hm⟩ := (trie.grown.child (trie.lookup_eq_some.mp hl).1).2
        obtain ⟨v₁, m₁, h₁, path₁, arrives, run⟩ := ih hp' trie hm hf'
        refine ⟨v₁, m₁, h₁, path₁, ⟨?_, ?_, by rw [behind]; exact arrives.left⟩, ?_⟩
        · rw [rest, ← arrives.walked]
          simp [mountAt, hl]
        · obtain ⟨g₁, hg₁, node⟩ := arrives.entry
          refine ⟨g₁, hg₁, ?_⟩
          rw [rest, node]
          simp [nodeFrom, reach, hl]
        · simpa [vfsMountRecursive, sep, bytes, cmp, hr, hn, find, hl] using run
      | none =>
        obtain ⟨root, hroot⟩ := trie.root
        have insert : gentreeInsert v.tree (some n) ⟨t ++ [0], none⟩ =
            some (v.tree.next, insertEntry v.tree n g t) := Gentree.insert_child hroot hn
        have new : ∃ g', (insertEntry v.tree n g t).nodes v.tree.next = some g' := by
          have lt := trie.grown.bound hn
          refine ⟨⟨⟨t ++ [0], none⟩, []⟩, ?_⟩
          unfold insertEntry
          rw [Gentree.insertChild_nodes, if_neg (by omega), if_pos rfl]
        obtain ⟨g', new⟩ := new
        obtain ⟨v₁, m₁, h₁, path₁, arrives, run⟩ :=
          ih (v := { v with tree := insertEntry v.tree n g t }) hp' (trie.insertEntry hn valid.1 hl) new hf'
        refine ⟨v₁, m₁, h₁, path₁, ⟨?_, ?_, by rw [behind]; exact arrives.left⟩, ?_⟩
        · rw [rest, ← arrives.walked]
          simp [mountAt, hl, hn]
        · obtain ⟨g₁, hg₁, node⟩ := arrives.entry
          refine ⟨g₁, hg₁, ?_⟩
          rw [rest, node, nodeFrom_next trie hn valid.1 hl]
          simp [nodeFrom, reach, hl]
        · simpa [vfsMountRecursive, sep, bytes, cmp, hr, hn, find, hl, dupBytes_eq isStr, insert]
            using run

end Mount

/-- The last entry on a list of names, and the names that are left. -/
def deepest (tree : Entries N) : Nat → List Bytes → Nat × List Bytes
  | n, [] => (n, [])
  | n, c :: cs =>
    match lookup tree n c with
    | none => (n, c :: cs)
    | some m => deepest tree m cs

/-- How far a pointer moves over tokens and the slashes behind them. -/
def width (ts : List Bytes) : Nat := (ts.map (·.length + 1)).sum

section Get
variable {tree : Entries N} {n : Nat}

/-- The path splits where its entries end. -/
lemma deepest_split (tree : Entries N) (n : Nat) (ts : List Bytes) :
    ∃ ks, ts = ks ++ (deepest tree n ts).2 ∧ reach tree n ks = some (deepest tree n ts).1 := by
  induction ts generalizing n with
  | nil => exact ⟨[], rfl, rfl⟩
  | cons t ts ih =>
    unfold deepest
    cases hl : lookup tree n t with
    | none => exact ⟨[], rfl, rfl⟩
    | some m =>
      obtain ⟨ks, split, reached⟩ := ih m
      refine ⟨t :: ks, ?_, by simpa [reach, hl] using reached⟩
      dsimp only
      rw [List.cons_append, ← split]

/-- Where a path is left, with the tokens `rest` of `ts` to come: at `NULL`, or at the first of them. -/
def LeftAt (h : Heap) (path : Option Ptr) (ts rest : List Bytes) (path' : Option Ptr) : Prop :=
  match rest with
  | [] => path' = none
  | t :: _ => ∃ p ks token, path = some p ∧ ts = ks ++ rest ∧ path' = some (p.add (width ks)) ∧
      h.bytes (p.add (width ks)) = some token ∧ IsStr token t

/-- `vfs_get_mountpoint_recursive` stops at the last entry, with the pointer at the next token. -/
lemma vfsGetMountpointRecursive_eq {h : Heap} {path : Option Ptr} {ts : List Bytes} {fuel : Nat}
    {g : GentreeNode (VfsEntry N)} (hp : PathAt h path ts) (filled : ∀ t ∈ ts, t ≠ []) (trie : Trie tree)
    (hn : tree.nodes n = some g) (hf : ts.length < fuel) :
    ∃ path' h' g', tree.nodes (deepest tree n ts).1 = some g' ∧
      vfsGetMountpointRecursive tree fuel h path n = some (g'.value.node, path', h') ∧
      LeftAt h' path ts (deepest tree n ts).2 path' ∧
      (∀ b, (∀ p, path = some p → b ≠ p.block) → h'.blocks b = h.blocks b) ∧ h'.next = h.next := by
  induction ts generalizing h path n g fuel with
  | nil =>
    cases hp
    obtain ⟨fuel, rfl⟩ := Nat.exists_eq_add_one_of_ne_zero (Nat.ne_of_gt hf)
    refine ⟨none, h, g, hn, ?_, rfl, fun _ _ => rfl, rfl⟩
    simp [vfsGetMountpointRecursive, strsep_none, hn]
  | cons t ts ih =>
    obtain ⟨fuel, rfl⟩ := Nat.exists_eq_add_one_of_ne_zero (Nat.ne_zero_of_lt hf)
    obtain ⟨p, rfl⟩ : ∃ p, path = some p := by
      cases hp
      exact ⟨_, rfl⟩
    simp only [List.mem_cons, forall_eq_or_imp] at filled
    obtain ⟨path', h', token, sep, bytes, isStr, hp', moved, frame, next⟩ := hp.strsep
    obtain ⟨r, cmp, empty⟩ := strcmp_empty isStr
    have hr : r ≠ 0 := fun e => filled.1 (empty.mp e)
    have find := trie.findEntry hn isStr
    have hf' : ts.length < fuel := by
      simp only [List.length_cons] at hf
      omega
    cases hl : lookup tree n t with
    | none =>
      have stop : deepest tree n (t :: ts) = (n, t :: ts) := by simp [deepest, hl]
      rw [stop]
      refine ⟨some p, h', g, hn, ?_, ?_, ?_, next⟩
      · simp [vfsGetMountpointRecursive, sep, bytes, cmp, hr, hn, find, hl]
      · exact ⟨p, [], token, rfl, rfl, by simp [width, Ptr.add], by simpa [width, Ptr.add] using bytes,
          isStr⟩
      · intro b hb
        exact frame b (hb p rfl)
    | some m =>
      have step : deepest tree n (t :: ts) = deepest tree m ts := by simp [deepest, hl]
      obtain ⟨g', hm⟩ := (trie.grown.child (trie.lookup_eq_some.mp hl).1).2
      obtain ⟨path'', h'', g'', node, run, left, frame', next'⟩ := ih hp' filled.2 hm hf'
      rw [step]
      refine ⟨path'', h'', g'', node, ?_, ?_, ?_, next'.trans next⟩
      · simpa [vfsGetMountpointRecursive, sep, bytes, cmp, hr, hn, find, hl] using run
      · unfold LeftAt at left ⊢
        split at left
        · exact left
        · obtain ⟨p', ks, token', rfl, split, left, at_left, isStr'⟩ := left
          have hp'' := moved p' rfl
          have add : p'.add (width ks) = p.add (width (t :: ks)) := by
            rw [hp'']
            simp [width, Ptr.add, Nat.add_assoc]
          rw [add] at left at_left
          exact ⟨p, t :: ks, token', rfl, by rw [List.cons_append, ← split], left, at_left, isStr'⟩
      · intro b hb
        have other : ∀ p', path' = some p' → b ≠ p'.block := by
          intro p' e
          rw [moved p' e]
          exact hb p rfl
        rw [frame' b other, frame b (hb p rfl)]

end Get

end WivOS.Fs
