import WivOS.Fs.Mounts

/-!
# The callbacks that opening a path makes

`kopen` once more, with the calls of `finddir` and `create` that it makes (`kopenTraced`); without them
it is `kopen` (`kopenTraced_erase`). It walks two copies of a path: `vfs_get_mountpoint` cuts the first
one up and takes a slash at its end away, and the components that it leaves are looked up in the second
one, from the same offset on. What comes of the path is a function of these components alone
(`lookUp`), of which there is an empty one more where the path ends in a slash (`kopenTraced_eq`).
-/

namespace WivOS.Fs
open WivOS.Utils Entries

variable {N : Type}

/-- A call of a callback of a node. -/
inductive FsCall (N : Type) where
  | finddir (node : N) (name : Bytes)
  | create (node : N) (name : Bytes) (flags : Nat)
deriving DecidableEq

/-- The calls of the callback that C `vfs_finddir` makes. -/
def finddirCalls (cb : Callbacks N) (node : N) (name : Bytes) : List (FsCall N) :=
  if cb.flags node &&& vfsDirectory = 0 ∨ (cb.finddir node).isNone then [] else [.finddir node name]

/-- The calls of the callback that C `vfs_create` makes. -/
def createCalls (cb : Callbacks N) (node : N) (name : Bytes) (flags : Nat) : List (FsCall N) :=
  if cb.flags node &&& vfsDirectory = 0 ∨ (cb.create node).isNone then []
  else [.create node name flags]

/-- The loop of C `kopen`, with the calls that it makes. -/
def kopenLoopTraced (cb : Callbacks N) (flags : Nat) :
    Nat → Heap → Option Ptr → N → Option N → Option (Resolved N × List (FsCall N) × Heap)
  | 0, _, _, _, _ => none
  | fuel + 1, h, newStart, startPoint, nextNode =>
    match newStart with
    | none => some (.found startPoint nextNode, [], h)
    | some newStart => do
      let (currentToken, newStart, h) ← h.strsep (some newStart) [slash]
      match currentToken with
      | none => return (.found startPoint nextNode, [], h)
      | some currentToken =>
        let token ← h.bytes currentToken
        let length ← strlen token
        let name := token.take length
        let calls := finddirCalls cb startPoint name
        match vfsFinddir cb startPoint name with
        | none =>
          if flags &&& oCreat ≠ 0 then
            return (.found startPoint (vfsCreate cb startPoint name flags),
              calls ++ createCalls cb startPoint name flags, h)
          return (.missing, calls, h)
        | some node => do
          let (resolved, rest, h) ← kopenLoopTraced cb flags fuel h newStart node (some node)
          return (resolved, calls ++ rest, h)

/-- C `kopen`: the node, the calls of `open`, and those of `finddir` and `create`. -/
def kopenTraced (cb : Callbacks N) (tree : Gentree (VfsEntry N)) (h : Heap) (name : Ptr)
    (flags : Nat) : Option (Option N × List (N × Nat) × List (FsCall N) × Heap) := do
  let (originalName, h) ← h.strdup name
  let (save, h) ← h.strdup originalName
  let (startPoint, filename, h) ← vfsGetMountpoint tree h (some originalName)
  match startPoint with
  | none => return (none, [], [], (h.kfree save).kfree originalName)
  | some startPoint =>
    let newStart ←
      match filename with
      | none => some none
      | some filename => do
        let rest := save.add (filename.offset - originalName.offset)
        let offset ← strstr (← h.bytes rest) (← h.bytes filename)
        some (offset.map rest.add)
    let str ← h.bytes save
    let (resolved, calls, h) ← kopenLoopTraced cb flags (str.length + 1) h newStart startPoint none
    let h := (h.kfree save).kfree originalName
    match resolved with
    | .missing => return (none, [], calls, h)
    | .found startPoint nextNode =>
      let nextNode := nextNode.or (some startPoint)
      return (nextNode, vfsOpen cb nextNode flags, calls, h)

section Erase
variable (cb : Callbacks N) {flags : Nat}

/-- The trace adds nothing but the calls. -/
lemma kopenLoopTraced_erase {fuel : Nat} {h : Heap} {newStart : Option Ptr} {startPoint : N}
    {nextNode : Option N} :
    (kopenLoopTraced cb flags fuel h newStart startPoint nextNode).map (fun r => (r.1, r.2.2)) =
      kopenLoop cb flags fuel h newStart startPoint nextNode := by
  induction fuel generalizing h newStart startPoint nextNode with
  | zero => rfl
  | succ fuel ih =>
    cases newStart with
    | none => rfl
    | some newStart =>
      simp only [kopenLoopTraced, kopenLoop, Option.bind_eq_bind]
      cases h.strsep (some newStart) [slash] with
      | none => rfl
      | some sep =>
        obtain ⟨_ | currentToken, path, h'⟩ := sep
        · rfl
        simp only [Option.bind_some]
        cases h'.bytes currentToken with
        | none => rfl
        | some token =>
          simp only [Option.bind_some]
          cases strlen token with
          | none => rfl
          | some length =>
            simp only [Option.bind_some]
            cases vfsFinddir cb startPoint (token.take length) with
            | none =>
              simp only
              split <;> rfl
            | some node =>
              simp only
              rw [← ih]
              cases kopenLoopTraced cb flags fuel h' path node (some node) with
              | none => rfl
              | some r => rfl

/-- Without the calls it is `kopen`. -/
lemma kopenTraced_erase {tree : Gentree (VfsEntry N)} {h : Heap} {p : Ptr} :
    (kopenTraced cb tree h p flags).map (fun r => (r.1, r.2.1, r.2.2.2)) = kopen cb tree h p flags := by
  have rest : ∀ (h : Heap) (originalName save : Ptr) (newStart : Option Ptr) (startPoint : N)
      (str : Bytes),
      ((kopenLoopTraced cb flags (str.length + 1) h newStart startPoint none).bind fun r =>
        match r.1 with
        | .missing => some (none, [], (r.2.2.kfree save).kfree originalName)
        | .found startPoint nextNode =>
          some (nextNode.or (some startPoint), vfsOpen cb (nextNode.or (some startPoint)) flags,
            (r.2.2.kfree save).kfree originalName)) =
      (kopenLoop cb flags (str.length + 1) h newStart startPoint none).bind fun r =>
        match r.1 with
        | .missing => some (none, [], (r.2.kfree save).kfree originalName)
        | .found startPoint nextNode =>
          some (nextNode.or (some startPoint), vfsOpen cb (nextNode.or (some startPoint)) flags,
            (r.2.kfree save).kfree originalName) := by
    intro h originalName save newStart startPoint str
    rw [← kopenLoopTraced_erase]
    cases kopenLoopTraced cb flags (str.length + 1) h newStart startPoint none with
    | none => rfl
    | some r => rfl
  have push : ∀ {α : Type} (r : Resolved N × α) (o : Option N × List (N × Nat) × List (FsCall N) × Heap)
      (f : N → Option N → Option N × List (N × Nat) × List (FsCall N) × Heap),
      Option.map (fun r => (r.1, r.2.1, r.2.2.2)) (match r.1 with
        | .missing => some o
        | .found startPoint nextNode => some (f startPoint nextNode)) =
      match r.1 with
        | .missing => some (o.1, o.2.1, o.2.2.2)
        | .found startPoint nextNode =>
          some ((f startPoint nextNode).1, (f startPoint nextNode).2.1,
            (f startPoint nextNode).2.2.2) := by
    rintro α ⟨_ | _, _⟩ o f <;> rfl
  unfold kopenTraced kopen
  cases h.strdup p with
  | none => rfl
  | some x =>
    obtain ⟨originalName, h⟩ := x
    dsimp only [Option.bind_eq_bind, Option.bind_some]
    cases h.strdup originalName with
    | none => rfl
    | some y =>
      obtain ⟨save, h⟩ := y
      dsimp only [Option.bind_some]
      cases vfsGetMountpoint tree h (some originalName) with
      | none => rfl
      | some z =>
        obtain ⟨_ | startPoint, _ | filename, h⟩ := z
        · rfl
        · rfl
        · simp only [Option.bind_some, Option.map_bind, Option.pure_def, Function.comp_def, push]
          exact Option.bind_congr fun str _ => rest ..
        · simp only [Option.bind_some, Option.map_bind, Option.pure_def, Function.comp_def, push]
          refine Option.bind_congr fun _ _ => Option.bind_congr fun _ _ => Option.bind_congr fun _ _ => ?_
          exact Option.bind_congr fun str _ => rest ..

end Erase

/-- What becomes of the components that are to be looked up from a node on. -/
def lookUp (cb : Callbacks N) (flags : Nat) : N → Option N → List Bytes → Resolved N × List (FsCall N)
  | startPoint, nextNode, [] => (.found startPoint nextNode, [])
  | startPoint, _, t :: ts =>
    match vfsFinddir cb startPoint t with
    | none =>
      if flags &&& oCreat ≠ 0 then
        (.found startPoint (vfsCreate cb startPoint t flags),
          finddirCalls cb startPoint t ++ createCalls cb startPoint t flags)
      else (.missing, finddirCalls cb startPoint t)
    | some node =>
      let r := lookUp cb flags node (some node) ts
      (r.1, finddirCalls cb startPoint t ++ r.2)

/-- What `kopen` returns, the calls of `open`, and those of `finddir` and `create`. -/
def openFrom (cb : Callbacks N) (flags : Nat) (startPoint : Option N) (ts : List Bytes) :
    Option N × List (N × Nat) × List (FsCall N) :=
  match startPoint with
  | none => (none, [], [])
  | some node =>
    match lookUp cb flags node none ts with
    | (.missing, calls) => (none, [], calls)
    | (.found startPoint nextNode, calls) =>
      (nextNode.or (some startPoint), vfsOpen cb (nextNode.or (some startPoint)) flags, calls)

/-- The loop of `kopen` looks up the components that are to come. -/
lemma kopenLoopTraced_eq (cb : Callbacks N) (flags : Nat) {h : Heap} {newStart : Option Ptr}
    {ts : List Bytes} {fuel : Nat} (hp : PathAt h newStart ts) (fuelled : ts.length < fuel) (node : N)
    (nextNode : Option N) :
    ∃ h', kopenLoopTraced cb flags fuel h newStart node nextNode =
        some ((lookUp cb flags node nextNode ts).1, (lookUp cb flags node nextNode ts).2, h') ∧
      ∀ b, (∀ p, newStart = some p → b ≠ p.block) → h'.blocks b = h.blocks b := by
  induction ts generalizing h newStart fuel node nextNode with
  | nil =>
    cases hp
    obtain ⟨fuel, rfl⟩ := Nat.exists_eq_add_one_of_ne_zero (Nat.ne_of_gt fuelled)
    exact ⟨h, rfl, fun _ _ => rfl⟩
  | cons t ts ih =>
    obtain ⟨fuel, rfl⟩ := Nat.exists_eq_add_one_of_ne_zero (Nat.ne_zero_of_lt fuelled)
    obtain ⟨p, rfl⟩ : ∃ p, newStart = some p := by
      cases hp
      exact ⟨_, rfl⟩
    obtain ⟨path', h', token, sep, bytes, isStr, hp', moved, frame, -⟩ := hp.strsep
    have length := strlen_eq isStr
    have name : token.take t.length = t := by
      obtain ⟨_, rest, rfl⟩ := isStr
      exact List.take_left
    cases find : vfsFinddir cb node t with
    | none =>
      refine ⟨h', ?_, fun b hb => frame b (hb p rfl)⟩
      by_cases hf : flags &&& oCreat = 0
      · simp [kopenLoopTraced, lookUp, sep, bytes, length, name, find, hf]
      · simp [kopenLoopTraced, lookUp, sep, bytes, length, name, find, hf]
    | some node' =>
      have fuelled' : ts.length < fuel := by
        simp only [List.length_cons] at fuelled
        omega
      obtain ⟨h'', run, frame'⟩ := ih hp' fuelled' node' (some node')
      refine ⟨h'', ?_, ?_⟩
      · simp [kopenLoopTraced, lookUp, sep, bytes, length, name, find, run]
      · intro b hb
        have other : ∀ p', path' = some p' → b ≠ p'.block := by
          intro p' e
          rw [moved p' e]
          exact hb p rfl
        rw [frame' b other, frame b (hb p rfl)]

section Width
variable {ks ks' : List Bytes}

/-- The width of components after each other. -/
lemma width_append : width (ks ++ ks') = width ks + width ks' := by simp [width]

/-- The components behind the first ones stand at their width. -/
lemma intercalate_split {ts : List Bytes} (ks : List Bytes) (hne : ts ≠ []) :
    ∃ before, [slash].intercalate (ks ++ ts) = before ++ [slash].intercalate ts ∧
      before.length = width ks := by
  induction ks with
  | nil => exact ⟨[], rfl, rfl⟩
  | cons k ks ih =>
    obtain ⟨before, split, length⟩ := ih
    refine ⟨k ++ [slash] ++ before, ?_, ?_⟩
    · rw [List.cons_append, List.intercalate_cons_of_ne_nil (by simp [hne]), split]
      simp
    · simp only [List.length_append, List.length_singleton, length, width, List.map_cons, List.sum_cons]

end Width

section Kopen
variable (cb : Callbacks N) {flags : Nat} {h : Heap} {p : Ptr}

/-- The copy that `strdup` makes. -/
lemma strdup_eq {bytes s : Bytes} (hb : h.bytes p = some bytes) (hs : IsStr bytes s) :
    h.strdup p = some (⟨h.next, 0⟩, ⟨Function.update h.blocks h.next (some (s ++ [0])), h.next + 1⟩) := by
  simp [Heap.strdup, hb, dupBytes_eq hs]

/-- A slash at the end of a path is an empty component more. -/
lemma intercalate_trailing {ts : List Bytes} (hne : ts ≠ []) :
    [slash].intercalate (ts ++ [[]]) = [slash].intercalate ts ++ [slash] := by
  induction ts with
  | nil => exact absurd rfl hne
  | cons t ts ih =>
    cases ts with
    | nil => simp
    | cons t' ts =>
      rw [List.cons_append, List.intercalate_cons_of_ne_nil (by simp), ih (by simp),
        List.intercalate_cons_cons]
      simp

/-- The path of components, with a slash at its end or not. -/
def slashedPath (slashed : Bool) (cs : List Bytes) : Bytes :=
  absPath cs ++ if slashed then [slash] else []

/-- The components that the loop of `kopen` finds in the second copy, where `rest` are those that are
left of the first one. -/
def toLookUp (slashed : Bool) (rest : List Bytes) : List Bytes :=
  if rest = [] then [] else rest ++ if slashed then [[]] else []

/-- A path without a slash in front is looked up as it is. -/
lemma toLookUp_false (rest : List Bytes) : toLookUp false rest = rest := by
  unfold toLookUp
  split
  · simp [*]
  · simp

/-- The components that are left stand in the second copy as well, with an empty one behind a slash. -/
lemma secondCopy {save : Ptr} {slashed : Bool} {ks ts : List Bytes} {t : Bytes}
    (member : ∀ c ∈ ks ++ t :: ts, IsToken c)
    (hb : h.bytes save = some (slashedPath slashed (ks ++ t :: ts) ++ [0])) :
    ∃ ts', toLookUp slashed (t :: ts) = t :: ts' ∧
      h.bytes (save.add (width ks + 1)) = some ([slash].intercalate (t :: ts') ++ [0]) ∧
      PathAt h (some (save.add (width ks + 1))) (t :: ts') ∧
      (t :: ts').length < (slashedPath slashed (ks ++ t :: ts) ++ [0]).length + 1 := by
  obtain ⟨ts', look, bare, behind⟩ : ∃ ts', toLookUp slashed (t :: ts) = t :: ts' ∧
      (∀ t' ∈ ts', t' ∈ ts ∨ t' = []) ∧ [slash].intercalate (t :: ts') =
        [slash].intercalate (t :: ts) ++ if slashed then [slash] else [] := by
    cases slashed with
    | false => exact ⟨ts, by simp [toLookUp], fun t' ht' => .inl ht', by simp⟩
    | true =>
      refine ⟨ts ++ [[]], by simp [toLookUp], fun t' ht' => ?_, ?_⟩
      · simpa using ht'
      · simpa using intercalate_trailing (List.cons_ne_nil t ts)
  obtain ⟨before, cut, length⟩ := intercalate_split ks (List.cons_ne_nil t ts)
  have rest : h.bytes (save.add (width ks + 1)) = some ([slash].intercalate (t :: ts') ++ [0]) := by
    have whole : h.bytes save = some ((slash :: before) ++ ([slash].intercalate (t :: ts') ++ [0])) := by
      rw [hb, behind]
      simp [slashedPath, absPath, cut]
    simpa [length] using Heap.bytes_add whole
  refine ⟨ts', look, rest, .cons (fun t' ht' => ?_) rest, ?_⟩
  · obtain rfl | ht' := List.mem_cons.mp ht'
    · exact member _ (by simp)
    · obtain ht' | rfl := bare t' ht'
      · exact member _ (by simp [ht'])
      · exact ⟨List.not_mem_nil, List.not_mem_nil⟩
  · have short := length_le_intercalate (t :: ts')
    have total := congrArg List.length cut
    rw [behind] at short
    simp only [List.length_append, List.length_cons, length] at total short
    simp only [slashedPath, absPath, List.length_append, List.length_cons]
    omega

/-- The first of several components is found at once. -/
lemma strstr_first {token t : Bytes} {ts : List Bytes} (isStr : IsStr token t) :
    strstr ([slash].intercalate (t :: ts) ++ [0]) token = some (some 0) := by
  obtain ⟨rest, first⟩ : ∃ rest, [slash].intercalate (t :: ts) ++ [0] = t ++ rest := by
    cases ts with
    | nil => exact ⟨[0], by simp⟩
    | cons t' ts => exact ⟨_, by rw [List.intercalate_cons_cons, List.append_assoc, List.append_assoc]⟩
  rw [first]
  exact strstr_start isStr

/-- `kopen` of a path of components, with the entry at which `vfs_get_mountpoint` stops. -/
lemma kopenTraced_eq (flags : Nat) {tree : Entries N} {r : Nat} {cs : List Bytes} {bytes : Bytes} {slashed : Bool}
    (trie : Trie tree) (hr : tree.root = some r) (hcs : ∀ c ∈ cs, IsComponent c)
    (hb : h.bytes p = some bytes) (hs : IsStr bytes (slashedPath slashed cs)) :
    ∃ g h', tree.nodes (deepest tree r cs).1 = some g ∧
      kopenTraced cb tree h p flags =
        some ((openFrom cb flags g.value.node (toLookUp slashed (deepest tree r cs).2)).1,
          (openFrom cb flags g.value.node (toLookUp slashed (deepest tree r cs).2)).2.1,
          (openFrom cb flags g.value.node (toLookUp slashed (deepest tree r cs).2)).2.2, h') ∧
      ∀ b, b < h.next → h'.blocks b = h.blocks b := by
  -- the two copies, which differ in the block only
  let copy := slashedPath slashed cs ++ [0]
  let h₁ : Heap := ⟨Function.update h.blocks h.next (some copy), h.next + 1⟩
  let h₂ : Heap := ⟨Function.update h₁.blocks h₁.next (some copy), h₁.next + 1⟩
  let originalName : Ptr := ⟨h.next, 0⟩
  let save : Ptr := ⟨h.next + 1, 0⟩
  have isCopy : IsStr copy (slashedPath slashed cs) := isStr_self hs.1
  have dup₁ : h.strdup p = some (originalName, h₁) := strdup_eq hb hs
  have bytes₁ : h₁.bytes originalName = some copy := by simp [Heap.bytes, h₁, originalName]
  have dup₂ : h₁.strdup originalName = some (save, h₂) := strdup_eq bytes₁ isCopy
  have bytes₂ : h₂.bytes originalName = some copy := by simp [Heap.bytes, h₂, h₁, originalName]
  -- the slash is taken away in the first copy only
  obtain ⟨h₂', copy', trim, bytes₂', isCopy', frame₂, -⟩ : ∃ h₂' copy', trimSlash h₂ originalName =
      some h₂' ∧ h₂'.bytes originalName = some copy' ∧ IsStr copy' (absPath cs) ∧
      (∀ b, b ≠ originalName.block → h₂'.blocks b = h₂.blocks b) ∧ h₂'.next = h₂.next := by
    cases slashed with
    | false =>
      have whole : slashedPath false cs = absPath cs := List.append_nil _
      rw [whole] at isCopy
      exact ⟨h₂, copy, trimSlash_absPath bytes₂ hcs isCopy, bytes₂, isCopy, fun _ _ => rfl, rfl⟩
    | true => exact trimSlash_trailing bytes₂ isCopy
  obtain ⟨filename, h₃, g, hg, get, left, frame₃, -⟩ :=
    vfsGetMountpoint_eq trie hr trim bytes₂' hcs isCopy'
  have frame : ∀ b, b ≠ originalName.block → h₃.blocks b = h₂.blocks b := fun b hne =>
    (frame₃ b hne).trans (frame₂ b hne)
  have bytes₃ : h₃.bytes save = some copy := by
    rw [Heap.bytes, frame _ (by simp [save, originalName])]
    simp [h₂, h₁, save]
  have kept : ∀ b, b < h.next → h₃.blocks b = h.blocks b := by
    intro b hlt
    have ne₁ : b ≠ h.next := Nat.ne_of_lt hlt
    have ne₂ : b ≠ h.next + 1 := by omega
    rw [frame b ne₁]
    simp [h₂, h₁, ne₁, ne₂]
  have freed : ∀ (h' : Heap), (∀ b, b ≠ save.block → h'.blocks b = h₃.blocks b) →
      ∀ b, b < h.next → ((h'.kfree save).kfree originalName).blocks b = h.blocks b := by
    intro h' frame' b hlt
    have ne₁ : b ≠ h.next := Nat.ne_of_lt hlt
    have ne₂ : b ≠ h.next + 1 := by omega
    simp only [Heap.kfree, save, originalName, Function.update_of_ne ne₁, Function.update_of_ne ne₂]
    rw [frame' b ne₂, kept b hlt]
  refine ⟨g, ?_⟩
  cases hn : g.value.node with
  | none =>
    refine ⟨(h₃.kfree save).kfree originalName, hg, ?_, freed h₃ fun _ _ => rfl⟩
    simp only [kopenTraced, dup₁, dup₂, get, hn, Option.bind_eq_bind, Option.bind_some]
    rfl
  | some node =>
    cases rest : (deepest tree r cs).2 with
    | nil =>
      rw [rest] at left
      cases left
      refine ⟨(h₃.kfree save).kfree originalName, hg, ?_, freed h₃ fun _ _ => rfl⟩
      simp only [kopenTraced, dup₁, dup₂, get, hn, bytes₃, Option.bind_eq_bind, Option.bind_some]
      rfl
    | cons t ts =>
      rw [rest] at left
      obtain ⟨p', ks, token, start, split, rfl, at_left, isStr⟩ := left
      obtain rfl : originalName.add 1 = p' := Option.some.inj start
      subst split
      obtain ⟨ts', look, bytes₄, tokens, fuelled⟩ := secondCopy (fun c hc => (hcs c hc).1) bytes₃
      have aligned : strstr ([slash].intercalate (t :: ts') ++ [0]) token = some (some 0) := strstr_first isStr
      change _ < copy.length + 1 at fuelled
      have offset : originalName.offset + 1 + width ks - originalName.offset = width ks + 1 := by omega
      obtain ⟨h₄, run, frame'⟩ := kopenLoopTraced_eq cb flags tokens fuelled node none
      refine ⟨(h₄.kfree save).kfree originalName, hg, ?_, freed h₄ ?_⟩
      · have zero : (save.add (width ks + 1)).add 0 = save.add (width ks + 1) := rfl
        simp only [kopenTraced, dup₁, dup₂, get, hn, Ptr.add_offset, offset, bytes₄, look,
          at_left, aligned, bytes₃, Option.bind_eq_bind, Option.bind_some, Option.map_some, zero, run]
        simp only [openFrom]
        cases lookUp cb flags node none (t :: ts') with
        | mk resolved calls =>
          cases resolved with
          | missing => rfl
          | found startPoint nextNode => rfl
      · intro b hne
        refine frame' b fun q hq => ?_
        cases hq
        exact hne

end Kopen

end WivOS.Fs
