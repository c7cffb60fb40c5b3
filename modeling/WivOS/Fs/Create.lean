import WivOS.Fs.Open

/-!
# Creating and trailing slashes

Two things that `kopen` is meant to do and when it does them. With `O_CREAT` it should create the last
component of a path only, in the directory that the others denote, and return `NULL` where it cannot:
its loop creates the first component that is missing, and returns the directory of that where nothing
was created (`kopen_creates_iff`). A slash at the end of a path should make no difference: it is taken
away from the one copy of the path and looked up as an empty component in the other
(`kopen_slash_iff`).
-/

namespace WivOS.Fs
open WivOS.Utils Entries

variable {N : Type}

/-- The node of the last entry on a path. -/
def mountNode (tree : Entries N) (r : Nat) (cs : List Bytes) : Option N :=
  (tree.nodes (deepest tree r cs).1).bind fun g => g.value.node

/-- The node that a path denotes: from the last entry on it, the node that `finddir` finds for the
components behind. -/
def denotes (cb : Callbacks N) (tree : Entries N) (r : Nat) (cs : List Bytes) : Option N :=
  resolve cb (mountNode tree r cs) (deepest tree r cs).2

/-- The node that `create` returns for the last component in the directory of the others. -/
def created (cb : Callbacks N) (tree : Entries N) (r : Nat) (cs : List Bytes) (flags : Nat) : Option N :=
  (denotes cb tree r cs.dropLast).bind fun d => cs.getLast?.bind fun c => vfsCreate cb d c flags

/-- What `kopen` with `O_CREAT` should return and call: it creates in the directory of the preceding
components and under the name of the last one only, what it returns denotes the whole path or was
created, and it returns `NULL` for a path that neither denotes a node nor can be created. -/
structure CreatesLast (cb : Callbacks N) (tree : Entries N) (r : Nat) (cs : List Bytes) (flags : Nat)
    (node : Option N) (calls : List (FsCall N)) : Prop where
  only_last : ∀ d c f, .create d c f ∈ calls →
    denotes cb tree r cs.dropLast = some d ∧ cs.getLast? = some c
  whole : ∀ n, node = some n → denotes cb tree r cs = some n ∨ created cb tree r cs flags = some n
  missing : denotes cb tree r cs = none → created cb tree r cs flags = none → node = none

section LookUp
variable (cb : Callbacks N) {flags : Nat}

/-- With `O_CREAT` the components are found one after the other, or the first that is missing is
created. -/
lemma lookUp_creates (hf : flags &&& oCreat ≠ 0) (ts : List Bytes) (node : N) (nextNode : Option N) :
    (∃ n, ts.foldlM (vfsFinddir cb) node = some n ∧
        (lookUp cb flags node nextNode ts).1 = .found n (if ts = [] then nextNode else some n) ∧
        ∀ d c f, .create d c f ∉ (lookUp cb flags node nextNode ts).2) ∨
      ∃ pre t post d, ts = pre ++ t :: post ∧ pre.foldlM (vfsFinddir cb) node = some d ∧
        vfsFinddir cb d t = none ∧
        (lookUp cb flags node nextNode ts).1 = .found d (vfsCreate cb d t flags) ∧
        ∀ d' c f, .create d' c f ∈ (lookUp cb flags node nextNode ts).2 → d' = d ∧ c = t := by
  have only_finddir : ∀ n t d c f, FsCall.create d c f ∉ finddirCalls cb n t := by
    intro n t d c f h
    unfold finddirCalls at h
    split at h <;> simp at h
  induction ts generalizing node nextNode with
  | nil => exact .inl ⟨node, rfl, rfl, by simp [lookUp]⟩
  | cons t ts ih =>
    cases find : vfsFinddir cb node t with
    | none =>
      refine .inr ⟨[], t, ts, node, rfl, rfl, find, by simp [lookUp, find, hf], ?_⟩
      intro d c f h
      simp only [lookUp, find, if_pos hf, List.mem_append, only_finddir, false_or, createCalls] at h
      split at h
      · simp at h
      · simp only [List.mem_singleton, FsCall.create.injEq] at h
        exact ⟨h.1, h.2.1⟩
    | some node' =>
      obtain ⟨n, found, result, calls⟩ | ⟨pre, t', post, d, split, found, none', result, calls⟩ :=
        ih node' (some node')
      · refine .inl ⟨n, by simp [find, found], ?_, ?_⟩
        · have last : (if ts = [] then some node' else some n) = some n := by
            split
            · subst_vars
              exact found
            · rfl
          simp only [lookUp, find, result, last, List.cons_ne_nil, ↓reduceIte]
        · intro d c f h
          simp only [lookUp, find, List.mem_append, only_finddir, false_or] at h
          exact calls d c f h
      · refine .inr ⟨t :: pre, t', post, d, by rw [split]; rfl, by simp [find, found], none', ?_, ?_⟩
        · simp only [lookUp, find, result]
        · intro d' c f h
          simp only [lookUp, find, List.mem_append, only_finddir, false_or] at h
          exact calls d' c f h

/-- The last component is left behind the same entry. -/
lemma deepest_dropLast {tree : Entries N} {n : Nat} {cs : List Bytes} (h : (deepest tree n cs).2 ≠ []) :
    deepest tree n cs.dropLast = ((deepest tree n cs).1, (deepest tree n cs).2.dropLast) := by
  induction cs generalizing n with
  | nil => exact absurd rfl h
  | cons c cs ih =>
    cases hl : lookup tree n c with
    | none =>
      have stop : deepest tree n (c :: cs) = (n, c :: cs) := by simp [deepest, hl]
      rw [stop]
      cases cs with
      | nil => rfl
      | cons c' cs => simp [deepest, hl]
    | some m =>
      have step : ∀ cs, deepest tree n (c :: cs) = deepest tree m cs := by simp [deepest, hl]
      rw [step] at h ⊢
      cases cs with
      | nil => exact absurd rfl h
      | cons c' cs =>
        rw [List.dropLast_cons_of_ne_nil (List.cons_ne_nil c' cs), step]
        exact ih h

end LookUp

section Creates
variable (cb : Callbacks N) {tree : Entries N} {r : Nat} {cs : List Bytes} {flags : Nat}

/-- What the preceding components denote, where some components are left behind the last entry. -/
lemma denotes_dropLast (h : (deepest tree r cs).2 ≠ []) :
    denotes cb tree r cs.dropLast =
      resolve cb (mountNode tree r cs) (deepest tree r cs).2.dropLast := by
  rw [denotes, mountNode, mountNode, deepest_dropLast h]

/-- The last component is among those that have no entry. -/
lemma getLast?_eq (h : (deepest tree r cs).2 ≠ []) : cs.getLast? = (deepest tree r cs).2.getLast? := by
  obtain ⟨ks, split, -⟩ := deepest_split tree r cs
  conv_lhs => rw [split]
  exact List.getLast?_append_of_ne_nil _ h

/-- When `kopen` with `O_CREAT` does what it should: the last entry on the path has no node, the path
denotes one, or its last component can be created. -/
lemma createsLast_iff (hf : flags &&& oCreat ≠ 0) :
    CreatesLast cb tree r cs flags
        (openFrom cb flags (mountNode tree r cs) (deepest tree r cs).2).1
        (openFrom cb flags (mountNode tree r cs) (deepest tree r cs).2).2.2 ↔
      mountNode tree r cs = none ∨ (denotes cb tree r cs).isSome ∨
        (created cb tree r cs flags).isSome := by
  have whole : denotes cb tree r cs = resolve cb (mountNode tree r cs) (deepest tree r cs).2 := rfl
  cases hm : mountNode tree r cs with
  | none => exact ⟨fun _ => .inl rfl, fun _ => ⟨by simp [openFrom], by simp [openFrom], fun _ _ => rfl⟩⟩
  | some s =>
    rw [hm] at whole
    simp only [openFrom]
    generalize hrest : (deepest tree r cs).2 = ts at whole
    obtain ⟨n, found, result, calls⟩ | ⟨pre, t, post, d, split, found, none', result, calls⟩ :=
      lookUp_creates cb hf ts s none
    · -- every component is found
      have denoted : denotes cb tree r cs = some n := by rw [whole, resolve, Option.bind_some, found]
      have last : (if ts = [] then none else some n).or (some n) = some n := by split <;> rfl
      rw [show lookUp cb flags s none ts = (_, (lookUp cb flags s none ts).2) from
        Prod.ext result rfl]
      simp only [last]
      refine ⟨fun _ => .inr (.inl (by rw [denoted]; rfl)), fun _ => ⟨?_, ?_, ?_⟩⟩
      · exact fun d c f h => absurd h (calls d c f)
      · exact fun n' e => .inl (denoted.trans e)
      · exact fun e => absurd (denoted.symm.trans e) (by simp)
    · -- the first missing component is `t`
      have ne : ts ≠ [] := by simp [split]
      have denoted : denotes cb tree r cs = none := by
        rw [whole, resolve, Option.bind_some, split, List.foldlM_append, found]
        simp [none']
      have before : denotes cb tree r cs.dropLast = resolve cb (some s) ts.dropLast := by
        rw [denotes_dropLast cb (by rw [hrest]; exact ne), hm, hrest]
      have last : cs.getLast? = ts.getLast? := by
        rw [getLast?_eq (by rw [hrest]; exact ne), hrest]
      rw [show lookUp cb flags s none ts = (_, (lookUp cb flags s none ts).2) from
        Prod.ext result rfl]
      simp only [reduceCtorEq, denoted, Option.isSome_none, Bool.false_eq_true, false_or]
      cases post with
      | nil =>
        have dir : denotes cb tree r cs.dropLast = some d := by
          rw [before, split, List.dropLast_concat, resolve, Option.bind_some, found]
        have name : cs.getLast? = some t := by rw [last, split, List.getLast?_concat]
        have made : created cb tree r cs flags = vfsCreate cb d t flags := by
          rw [created, dir, name]
          rfl
        rw [made]
        cases hc : vfsCreate cb d t flags with
        | none =>
          refine ⟨fun h => ?_, by simp⟩
          exact absurd (h.missing denoted (made.trans hc)) (by simp)
        | some n =>
          refine ⟨fun _ => rfl, fun _ => ⟨?_, ?_, ?_⟩⟩
          · intro d' c f h
            obtain ⟨rfl, rfl⟩ := calls d' c f h
            exact ⟨dir, name⟩
          · exact fun n' e => .inr (made.trans (hc.trans e))
          · exact fun _ e => absurd (hc.symm.trans (made.symm.trans e)) (by simp)
      | cons t' post =>
        have dir : denotes cb tree r cs.dropLast = none := by
          rw [before, split, List.dropLast_append_of_ne_nil (by simp),
            List.dropLast_cons_of_ne_nil (by simp), resolve, Option.bind_some, List.foldlM_append, found]
          simp [none']
        have made : created cb tree r cs flags = none := by
          rw [created, dir]
          rfl
        rw [made]
        refine ⟨fun h => ?_, by simp⟩
        have := h.missing denoted made
        cases hc : vfsCreate cb d t flags <;> simp [hc] at this

/-- `kopen` with `O_CREAT` returns, and it creates the last component only and returns `NULL` where it
cannot, if and only if the last entry on the path has no node, the path denotes one already, or its last
component can be created in the directory of the others. -/
theorem kopen_creates_iff [DecidableEq N] {v : Vfs N} {ms : List (List Bytes × N)} {bytes : Bytes}
    {h : Heap} {p : Ptr} (hm : Mounted v ms) (hr : v.tree.root = some r)
    (hf : flags &&& oCreat ≠ 0) (hcs : ∀ c ∈ cs, IsComponent c) (hb : h.bytes p = some bytes)
    (hs : IsStr bytes (absPath cs)) :
    ∃ node opens calls h', kopenTraced cb v.tree h p flags = some (node, opens, calls, h') ∧
      kopen cb v.tree h p flags = some (node, opens, h') ∧
      (CreatesLast cb v.tree r cs flags node calls ↔
        mountNode v.tree r cs = none ∨ (denotes cb v.tree r cs).isSome ∨
          (created cb v.tree r cs flags).isSome) := by
  obtain ⟨trie, -⟩ := hm.refines
  have whole : slashedPath false cs = absPath cs := List.append_nil _
  rw [← whole] at hs
  obtain ⟨g, h', hg, run, -⟩ := kopenTraced_eq cb flags trie hr hcs hb hs
  have node : g.value.node = mountNode v.tree r cs := by
    rw [mountNode, hg]
    rfl
  rw [node, toLookUp_false] at run
  refine ⟨_, _, _, h', run, ?_, createsLast_iff cb hf⟩
  rw [← kopenTraced_erase, run, Option.map_some]

end Creates

/-- The callbacks that `devfs_init` gives the node 7 of the filesystem, with the one entry `log`, the node
8. Neither creates. -/
def devfsCallbacks : Callbacks Nat where
  flags := fun node => if node = 7 then vfsDirectory else 0
  opens := fun _ => false
  finddir := fun node =>
    if node = 7 then some fun name => if name = [108, 111, 103] then some 8 else none else none
  create := fun _ => none

/-- The mount of `devfs_init`, and what comes of a path then. -/
lemma exists_devfs {α : Type} (f : Vfs Nat → α) {a : α}
    (h : ((vfsInitRoot fun _ => 0).bind fun v =>
      (vfsMount v ⟨Function.update (fun _ => none) 0 (some [47, 100, 101, 118, 47, 0]), 1⟩ ⟨0, 0⟩ 7).map
        fun r => (r.1.tree.root, f r.1)) = some (some 0, a)) :
    ∃ v : Vfs Nat, Mounted v [([[100, 101, 118]], 7)] ∧ v.tree.root = some 0 ∧ f v = a := by
  simp only [Option.bind_eq_some_iff, Option.map_eq_some_iff, Prod.mk.injEq] at h
  obtain ⟨v, init, ⟨v', h'⟩, mount, root, run⟩ := h
  have isDev : IsStr [47, 100, 101, 118, 47, 0] (slash :: [100, 101, 118, 47]) := ⟨by decide, [], rfl⟩
  have mounted : Mounted v' [([[100, 101, 118]], 7)] := .mount (.init init) rfl isDev mount
  exact ⟨v', mounted, root, run⟩

/-- A block with a string. -/
def stringHeap (s : Bytes) : Heap := ⟨Function.update (fun _ => none) 0 (some (s ++ [0])), 1⟩

/-- The string and its terminator. -/
lemma stringHeap_bytes (s : Bytes) : (stringHeap s).bytes ⟨0, 0⟩ = some (s ++ [0]) := rfl

/-- `kopen("/dev/log", O_CREAT)` does what it should. -/
theorem kopen_creates_iff_log :
    ∃ (v : Vfs Nat) (node : Option Nat) (opens : _) (calls : _) (h' : Heap),
      Mounted v [([[100, 101, 118]], 7)] ∧
      kopenTraced devfsCallbacks v.tree (stringHeap (absPath [[100, 101, 118], [108, 111, 103]])) ⟨0, 0⟩
        oCreat = some (node, opens, calls, h') ∧
      CreatesLast devfsCallbacks v.tree 0 [[100, 101, 118], [108, 111, 103]] oCreat node calls := by
  obtain ⟨v, mounted, root, eval⟩ := exists_devfs (a := some 8)
    (fun v => denotes devfsCallbacks v.tree 0 [[100, 101, 118], [108, 111, 103]]) rfl
  have components : ∀ c ∈ [[100, 101, 118], [108, 111, 103]], IsComponent c := by
    simp [IsComponent, IsToken, slash]
  obtain ⟨node, opens, calls, h', run, -, iff⟩ := kopen_creates_iff devfsCallbacks mounted root
    (show oCreat &&& oCreat ≠ 0 by decide) components (stringHeap_bytes _) (isStr_self (by decide))
  exact ⟨v, node, opens, calls, h', mounted, run, iff.mpr (.inr (.inl (by rw [eval]; rfl)))⟩

/-- `kopen("/dev/x", O_CREAT)` returns the node of the filesystem: `devfs` has no `create`. -/
theorem kopen_returns_directory :
    ∃ (v : Vfs Nat) (opens : _) (calls : _) (h' : Heap), Mounted v [([[100, 101, 118]], 7)] ∧
      v.tree.root = some 0 ∧
      kopenTraced devfsCallbacks v.tree (stringHeap (absPath [[100, 101, 118], [120]])) ⟨0, 0⟩ oCreat =
        some (some 7, opens, calls, h') ∧
      ¬ CreatesLast devfsCallbacks v.tree 0 [[100, 101, 118], [120]] oCreat (some 7) calls := by
  obtain ⟨v, mounted, root, eval⟩ := exists_devfs
    (fun v => (((kopenTraced devfsCallbacks v.tree (stringHeap (absPath [[100, 101, 118], [120]])) ⟨0, 0⟩
        oCreat).map fun r => r.1), denotes devfsCallbacks v.tree 0 [[100, 101, 118], [120]],
      created devfsCallbacks v.tree 0 [[100, 101, 118], [120]] oCreat))
    (a := (some (some 7), none, none)) rfl
  simp only [Prod.mk.injEq, Option.map_eq_some_iff] at eval
  obtain ⟨⟨⟨node, opens, calls, h'⟩, run, rfl⟩, denoted, made⟩ := eval
  refine ⟨v, opens, calls, h', mounted, root, run, fun h => ?_⟩
  cases h.missing denoted made

section Slash
variable (cb : Callbacks N) (flags : Nat)

/-- More components behind ones that are all found. -/
lemma lookUp_append_found (us : List Bytes) {ts : List Bytes} {node n : N} (nextNode : Option N)
    (found : ts.foldlM (vfsFinddir cb) node = some n) (ne : ts ≠ []) :
    (lookUp cb flags node nextNode ts).1 = .found n (some n) ∧
      lookUp cb flags node nextNode (ts ++ us) = ((lookUp cb flags n (some n) us).1,
        (lookUp cb flags node nextNode ts).2 ++ (lookUp cb flags n (some n) us).2) := by
  induction ts generalizing node nextNode with
  | nil => exact absurd rfl ne
  | cons t ts ih =>
    cases find : vfsFinddir cb node t with
    | none => simp [find] at found
    | some node' =>
      simp only [List.foldlM_cons, find, Option.bind_eq_bind, Option.bind_some] at found
      cases ts with
      | nil =>
        cases found
        simp [lookUp, find]
      | cons t' ts =>
        obtain ⟨result, append⟩ := ih (some node') found (List.cons_ne_nil _ _)
        constructor
        · rw [lookUp, find]
          exact result
        · rw [List.cons_append, lookUp, lookUp, find]
          simp only [append, List.append_assoc]

/-- More components behind one that is missing. -/
lemma lookUp_append_missing (us : List Bytes) {ts : List Bytes} {node : N} (nextNode : Option N)
    (missing : ts.foldlM (vfsFinddir cb) node = none) :
    lookUp cb flags node nextNode (ts ++ us) = lookUp cb flags node nextNode ts := by
  induction ts generalizing node nextNode with
  | nil => cases missing
  | cons t ts ih =>
    cases find : vfsFinddir cb node t with
    | none => simp [lookUp, find]
    | some node' =>
      simp only [List.foldlM_cons, find, Option.bind_eq_bind, Option.bind_some] at missing
      rw [List.cons_append, lookUp, lookUp, find]
      simp only [ih (some node') missing]

/-- A node that is asked nothing: it is no directory, or has no callbacks for it. -/
def Silent (cb : Callbacks N) (node : N) : Prop :=
  cb.flags node &&& vfsDirectory = 0 ∨ (cb.finddir node = none ∧ cb.create node = none)

/-- A node that is silent gets no calls of its callbacks. -/
lemma silent_iff {node : N} {name : Bytes} :
    finddirCalls cb node name = [] ∧ createCalls cb node name flags = [] ↔ Silent cb node := by
  unfold finddirCalls createCalls Silent
  by_cases hd : cb.flags node &&& vfsDirectory = 0
  · simp [hd]
  · cases cb.finddir node <;> cases cb.create node <;> simp [hd]

/-- `vfs_create` at a silent node returns `NULL`. -/
lemma vfsCreate_silent {node : N} (h : Silent cb node) (name : Bytes) :
    vfsCreate cb node name flags = none := by
  obtain hd | ⟨-, hc⟩ := h
  · simp [vfsCreate, hd]
  · simp [vfsCreate, hc]

/-- When the empty component behind a slash makes no difference. -/
lemma openFrom_slash_iff (bare : ∀ node finddir, cb.finddir node = some finddir → finddir [] = none)
    (startPoint : Option N) (rest : List Bytes) :
    (openFrom cb flags startPoint (toLookUp true rest)).2.2 =
          (openFrom cb flags startPoint rest).2.2 ∧
        (openFrom cb flags startPoint (toLookUp true rest)).1 =
          (openFrom cb flags startPoint rest).1 ↔
      rest = [] ∨ resolve cb startPoint rest = none ∨
        (flags &&& oCreat ≠ 0 ∧ ∃ node, resolve cb startPoint rest = some node ∧ Silent cb node) := by
  by_cases ne : rest = []
  · subst ne
    simp [toLookUp]
  have look : toLookUp true rest = rest ++ [[]] := by simp [toLookUp, ne]
  rw [look]
  cases startPoint with
  | none => simp [openFrom, resolve]
  | some s =>
    cases found : rest.foldlM (vfsFinddir cb) s with
    | none =>
      have same := lookUp_append_missing cb flags [[]] none found
      simp [openFrom, resolve, found, same]
    | some n =>
      obtain ⟨result, append⟩ := lookUp_append_found cb flags [[]] none found ne
      have missing : vfsFinddir cb n [] = none := by
        unfold vfsFinddir
        split
        · rfl
        · cases hf : cb.finddir n with
          | none => rfl
          | some finddir => exact bare n finddir hf
      have plain : lookUp cb flags s none rest =
          (.found n (some n), (lookUp cb flags s none rest).2) := Prod.ext result rfl
      have denoted : resolve cb (some s) rest = some n := found
      simp only [openFrom, append, denoted, ne, false_or, reduceCtorEq]
      rw [plain]
      by_cases hf : flags &&& oCreat = 0
      · -- `NULL` for the empty name
        simp [lookUp, missing, hf]
      · simp only [lookUp, missing, ne_eq, hf, not_false_eq_true, ↓reduceIte, Option.or_some,
          List.append_right_eq_self, List.append_eq_nil_iff, true_and]
        constructor
        · rintro ⟨calls, -⟩
          exact ⟨n, rfl, (silent_iff cb flags).mp calls⟩
        · rintro ⟨node, e, silent⟩
          cases e
          exact ⟨(silent_iff cb flags).mpr silent, by simp [vfsCreate_silent cb flags silent]⟩

/-- `kopen` of a path with a slash behind it makes the same calls of `finddir` and `create` and returns
the same as without it, if and only if the path ends at an entry, denotes no node, or is opened with
`O_CREAT` and denotes a node that is asked nothing. -/
theorem kopen_slash_iff [DecidableEq N] {v : Vfs N} {ms : List (List Bytes × N)} {r : Nat}
    {cs : List Bytes} {h k : Heap} {p q : Ptr} {bytes bytes' : Bytes}
    (bare : ∀ node finddir, cb.finddir node = some finddir → finddir [] = none)
    (hm : Mounted v ms) (hr : v.tree.root = some r) (hcs : ∀ c ∈ cs, IsComponent c)
    (hb : h.bytes p = some bytes) (hs : IsStr bytes (absPath cs))
    (hb' : k.bytes q = some bytes') (hs' : IsStr bytes' (absPath cs ++ [slash])) :
    ∃ node opens calls h' node' opens' calls' k',
      kopenTraced cb v.tree h p flags = some (node, opens, calls, h') ∧
      kopenTraced cb v.tree k q flags = some (node', opens', calls', k') ∧
      (calls' = calls ∧ node' = node ↔
        (deepest v.tree r cs).2 = [] ∨ denotes cb v.tree r cs = none ∨
          (flags &&& oCreat ≠ 0 ∧ ∃ node, denotes cb v.tree r cs = some node ∧ Silent cb node)) := by
  obtain ⟨trie, -⟩ := hm.refines
  have whole : slashedPath false cs = absPath cs := List.append_nil _
  have whole' : slashedPath true cs = absPath cs ++ [slash] := rfl
  rw [← whole] at hs
  rw [← whole'] at hs'
  obtain ⟨g, h', hg, run, -⟩ := kopenTraced_eq cb flags trie hr hcs hb hs
  obtain ⟨g', k', hg', run', -⟩ := kopenTraced_eq cb flags trie hr hcs hb' hs'
  cases hg.symm.trans hg'
  have node : g.value.node = mountNode v.tree r cs := by
    rw [mountNode, hg]
    rfl
  rw [node, toLookUp_false] at run
  rw [node] at run'
  exact ⟨_, _, _, h', _, _, _, k', run, run', openFrom_slash_iff cb flags bare _ _⟩

end Slash

/-- The devices have no entry with an empty name. -/
lemma devfsCallbacks_bare (node : Nat) (finddir : Bytes → Option Nat)
    (h : devfsCallbacks.finddir node = some finddir) : finddir [] = none := by
  simp only [devfsCallbacks] at h
  split at h
  · cases h
    rfl
  · cases h

/-- `kopen("/dev/log/", O_CREAT)` is `kopen("/dev/log", O_CREAT)`: the node of the log is no directory. -/
theorem kopen_slash_iff_log :
    ∃ (v : Vfs Nat) (opens : _) (calls : _) (h' : Heap) (opens' : _) (k' : Heap),
      Mounted v [([[100, 101, 118]], 7)] ∧
      kopenTraced devfsCallbacks v.tree (stringHeap (absPath [[100, 101, 118], [108, 111, 103]])) ⟨0, 0⟩
        oCreat = some (some 8, opens, calls, h') ∧
      kopenTraced devfsCallbacks v.tree (stringHeap (absPath [[100, 101, 118], [108, 111, 103]] ++ [slash]))
        ⟨0, 0⟩ oCreat = some (some 8, opens', calls, k') := by
  let path : Bytes := absPath [[100, 101, 118], [108, 111, 103]]
  obtain ⟨v, mounted, root, eval⟩ := exists_devfs
    (fun v => (denotes devfsCallbacks v.tree 0 [[100, 101, 118], [108, 111, 103]],
      (kopenTraced devfsCallbacks v.tree (stringHeap path) ⟨0, 0⟩ oCreat).map fun r => r.1))
    (a := (some 8, some (some 8))) rfl
  simp only [Prod.mk.injEq, Option.map_eq_some_iff] at eval
  obtain ⟨log, ⟨found, opens, calls, h'⟩, run, rfl⟩ := eval
  have components : ∀ c ∈ [[100, 101, 118], [108, 111, 103]], IsComponent c := by
    simp [IsComponent, IsToken, slash]
  have silent : Silent devfsCallbacks 8 := by
    simp [Silent, devfsCallbacks]
  obtain ⟨node, _, calls₁, _, node', opens', calls', k', first, second, iff⟩ :=
    kopen_slash_iff devfsCallbacks oCreat devfsCallbacks_bare mounted root components
      (stringHeap_bytes _) (isStr_self (by decide)) (stringHeap_bytes _) (isStr_self (by decide))
  obtain ⟨rfl, rfl⟩ := iff.mpr (.inr (.inr ⟨by decide, 8, log, silent⟩))
  cases run.symm.trans first
  exact ⟨v, opens, _, h', opens', k', mounted, run, second⟩

/-- `kopen("/dev/log")` is the node of the log, and `kopen("/dev/log/")` is `NULL`. -/
theorem kopen_slash_differs :
    (∀ node finddir, devfsCallbacks.finddir node = some finddir → finddir [] = none) ∧
    ∃ (v : Vfs Nat) (opens : _) (calls : _) (h' : Heap) (opens' : _) (calls' : _) (k' : Heap),
      Mounted v [([[100, 101, 118]], 7)] ∧
      kopenTraced devfsCallbacks v.tree (stringHeap (absPath [[100, 101, 118], [108, 111, 103]]))
        ⟨0, 0⟩ 0 = some (some 8, opens, calls, h') ∧
      kopenTraced devfsCallbacks v.tree
        (stringHeap (absPath [[100, 101, 118], [108, 111, 103]] ++ [slash])) ⟨0, 0⟩ 0 =
        some (none, opens', calls', k') := by
  obtain ⟨v, mounted, root, eval⟩ := exists_devfs
    (fun v => ((kopenTraced devfsCallbacks v.tree
        (stringHeap (absPath [[100, 101, 118], [108, 111, 103]])) ⟨0, 0⟩ 0).map fun r => r.1,
      (kopenTraced devfsCallbacks v.tree
        (stringHeap (absPath [[100, 101, 118], [108, 111, 103]] ++ [slash])) ⟨0, 0⟩ 0).map fun r => r.1))
    (a := (some (some 8), some none)) rfl
  simp only [Prod.mk.injEq, Option.map_eq_some_iff] at eval
  obtain ⟨⟨⟨node, opens, calls, h'⟩, run, rfl⟩, ⟨node', opens', calls', k'⟩, run', rfl⟩ := eval
  exact ⟨devfsCallbacks_bare, v, opens, calls, h', opens', calls', k', mounted, run, run'⟩

end WivOS.Fs
