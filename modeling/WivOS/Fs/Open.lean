import WivOS.Fs.Lookup

/-!
# Opening a path

Without `O_CREAT`, `kopen` returns the node that `vfs_finddir` finds for the components that
`vfs_get_mountpoint` leaves, one after the other (`kopen_resolves`).
-/

namespace WivOS.Fs
open WivOS.Utils Entries

variable {N : Type}

/-- The node that `vfs_finddir` finds for components, one after the other. -/
def resolve (cb : Callbacks N) (startPoint : Option N) (cs : List Bytes) : Option N :=
  startPoint.bind fun node => cs.foldlM (vfsFinddir cb) node

/-- Where a path is left determines which components are to come. -/
lemma LeftAt.unique {h : Heap} {path path' : Option Ptr} {ts rest rest' : List Bytes}
    (left : LeftAt h path ts rest path') (left' : LeftAt h path ts rest' path') : rest = rest' := by
  cases rest with
  | nil =>
    cases rest' with
    | nil => rfl
    | cons t' rest' =>
      obtain ⟨_, _, _, _, _, e, _⟩ := left'
      cases left.symm.trans e
  | cons t rest =>
    obtain ⟨p, ks, _, hp, split, e, _⟩ := left
    cases rest' with
    | nil => cases e.symm.trans left'
    | cons t' rest' =>
      obtain ⟨p', ks', _, hp', split', e', _⟩ := left'
      cases hp.symm.trans hp'
      have same : p.add (width ks) = p.add (width ks') := Option.some.inj (e.symm.trans e')
      have offset : width ks = width ks' := by
        have := congrArg Ptr.offset same
        simpa using this
      -- one of the two is a prefix of the other, and what is behind it has no width
      obtain ⟨a, rfl, eq⟩ | ⟨a, rfl, eq⟩ := List.append_eq_append_iff.mp (split.symm.trans split')
      · cases a with
        | nil => simpa using eq
        | cons c a =>
          rw [width_append] at offset
          simp [width] at offset
      · cases a with
        | nil => simpa using eq.symm
        | cons c a =>
          rw [width_append] at offset
          simp [width] at offset

section Kopen
variable (cb : Callbacks N) {flags : Nat} {h : Heap} {p : Ptr}

/-- What the loop of `kopen` ends with, for the node that was found. -/
def loopResult (nextNode : Option N) (ts : List Bytes) : Option N → Resolved N
  | none => .missing
  | some node => .found node (if ts = [] then nextNode else some node)

/-- Nothing is created: the components are found one after the other, or one is missing. -/
lemma lookUp_eq (hf : flags &&& oCreat = 0) (ts : List Bytes) (node : N) (nextNode : Option N) :
    (lookUp cb flags node nextNode ts).1 =
      loopResult nextNode ts (ts.foldlM (vfsFinddir cb) node) := by
  induction ts generalizing node nextNode with
  | nil => rfl
  | cons t ts ih =>
    cases find : vfsFinddir cb node t with
    | none => simp [lookUp, find, hf, loopResult]
    | some node' =>
      have result : loopResult (some node') ts (ts.foldlM (vfsFinddir cb) node') =
          loopResult nextNode (t :: ts) (ts.foldlM (vfsFinddir cb) node') := by
        cases ts with
        | nil => rfl
        | cons t' ts => rfl
      simp [lookUp, find, ih, result]

/-- Without `O_CREAT` the node found is opened. -/
lemma openFrom_resolve (hf : flags &&& oCreat = 0) (startPoint : Option N) (ts : List Bytes) :
    (openFrom cb flags startPoint ts).1 = resolve cb startPoint ts ∧
      (openFrom cb flags startPoint ts).2.1 = vfsOpen cb (resolve cb startPoint ts) flags := by
  cases startPoint with
  | none => exact ⟨rfl, rfl⟩
  | some node =>
    have looked := lookUp_eq cb hf ts node none
    simp only [openFrom, resolve, Option.bind_some]
    cases hl : lookUp cb flags node none ts with
    | mk resolved calls =>
      rw [hl] at looked
      cases hr : ts.foldlM (vfsFinddir cb) node with
      | none =>
        rw [hr] at looked
        cases looked
        exact ⟨rfl, rfl⟩
      | some last =>
        rw [hr] at looked
        cases looked
        cases ts with
        | nil => exact ⟨rfl, rfl⟩
        | cons t ts => exact ⟨rfl, rfl⟩

/-- `kopen` of a path of components, with the entry at which `vfs_get_mountpoint` stops. -/
lemma kopen_eq {tree : Entries N} {r : Nat} {cs : List Bytes} {bytes : Bytes} (hf : flags &&& oCreat = 0)
    (trie : Trie tree) (hr : tree.root = some r) (hcs : ∀ c ∈ cs, IsComponent c)
    (hb : h.bytes p = some bytes) (hs : IsStr bytes (absPath cs)) :
    ∃ g h', tree.nodes (deepest tree r cs).1 = some g ∧
      kopen cb tree h p flags =
        some (resolve cb g.value.node (deepest tree r cs).2,
          vfsOpen cb (resolve cb g.value.node (deepest tree r cs).2) flags, h') ∧
      ∀ b, b < h.next → h'.blocks b = h.blocks b := by
  have whole : slashedPath false cs = absPath cs := List.append_nil _
  rw [← whole] at hs
  obtain ⟨g, h', hg, run, kept⟩ := kopenTraced_eq cb flags trie hr hcs hb hs
  refine ⟨g, h', hg, ?_, kept⟩
  obtain ⟨node, opens⟩ := openFrom_resolve cb hf g.value.node (deepest tree r cs).2
  rw [← kopenTraced_erase, run, toLookUp_false, Option.map_some, node, opens]

/-- `kopen` without `O_CREAT` returns the node that `vfs_finddir` finds from the node of
`vfs_get_mountpoint` on, for the components that this did not consume, and opens it; the blocks that
were allocated before, the caller's path among them, do not change. -/
theorem kopen_resolves [DecidableEq N] {v : Vfs N} {ms : List (List Bytes × N)} {cs : List Bytes}
    {bytes : Bytes} {m : Nat} {s : Option N} {path' : Option Ptr} {h' : Heap} (hm : Mounted v ms)
    (hf : flags &&& oCreat = 0) (hcs : ∀ c ∈ cs, IsComponent c) (hb : h.bytes p = some bytes)
    (hs : IsStr bytes (absPath cs)) (allocated : p.block < h.next)
    (get : vfsGetMountpoint v.tree h (some p) = some (s, path', h'))
    (consumed : LeftAt h' (some (p.add 1)) cs (cs.drop m) path') :
    ∃ h'', kopen cb v.tree h p flags =
        some (resolve cb s (cs.drop m), vfsOpen cb (resolve cb s (cs.drop m)) flags, h'') ∧
      h''.bytes p = h.bytes p ∧ ∀ b, b < h.next → h''.blocks b = h.blocks b := by
  obtain ⟨trie, -⟩ := hm.refines
  obtain ⟨r, hr⟩ := trie.root
  obtain ⟨path₁, h₁, g, hg, get₁, left, -, -⟩ :=
    vfsGetMountpoint_eq trie hr (trimSlash_absPath hb hcs hs) hb hcs hs
  cases get.symm.trans get₁
  have rest := consumed.unique left
  obtain ⟨g', h'', hg', run, kept⟩ := kopen_eq cb hf trie hr hcs hb hs
  cases hg.symm.trans hg'
  rw [← rest] at run
  exact ⟨h'', run, by rw [Heap.bytes, Heap.bytes, kept _ allocated], kept⟩

/-- `/dev/a/b`, with node 7 mounted on `/dev`. -/
theorem kopen_resolves_dev :
    let cb : Callbacks Nat := ⟨fun _ => vfsDirectory, fun _ => true,
      fun node => some fun _ => if node < 9 then some (node + 1) else none, fun _ => none⟩
    let path : Bytes := [47, 100, 101, 118, 47, 97, 47, 98, 0]
    let h : Heap := ⟨Function.update (fun _ => none) 0 (some path), 1⟩
    ∃ v h'', Mounted v [([[100, 101, 118]], 7)] ∧
      kopen cb v.tree h ⟨0, 0⟩ 0 = some (some 9, [(9, 0)], h'') ∧ h''.bytes ⟨0, 0⟩ = some path := by
  intro cb path h
  obtain ⟨v, init⟩ : ∃ v : Vfs Nat, vfsInitRoot (fun _ => 0) = some v := ⟨_, rfl⟩
  let h₀ : Heap := ⟨Function.update (fun _ => none) 0 (some [47, 100, 101, 118, 0]), 1⟩
  obtain ⟨v', h', mount, get⟩ : ∃ v' h', vfsMount v h₀ ⟨0, 0⟩ 7 = some (v', h') ∧
      ∃ h'', vfsGetMountpoint v'.tree h (some ⟨0, 0⟩) = some (some 7, some ⟨0, 5⟩, h'') ∧
        h''.bytes ⟨0, 5⟩ = some [97, 0, 98, 0] := by
    cases init
    exact ⟨_, _, rfl, _, rfl, rfl⟩
  obtain ⟨h'', get, left⟩ := get
  have isDev : IsStr [47, 100, 101, 118, 0] (slash :: [100, 101, 118]) := ⟨by decide, [], rfl⟩
  have mounted : Mounted v' [([[100, 101, 118]], 7)] := .mount (.init init) rfl isDev mount
  have consumed : LeftAt h'' (some ⟨0, 1⟩) [[100, 101, 118], [97], [98]] [[97], [98]] (some ⟨0, 5⟩) :=
    ⟨⟨0, 1⟩, [[100, 101, 118]], _, rfl, rfl, rfl, left, by decide, [98, 0], rfl⟩
  have components : ∀ c ∈ [[100, 101, 118], [97], [98]], IsComponent c := by
    simp [IsComponent, IsToken, slash]
  have noCreat : 0 &&& oCreat = 0 := rfl
  obtain ⟨h₂, run, bytes, -⟩ := kopen_resolves cb (m := 1) mounted noCreat components rfl
    ⟨by decide, [], rfl⟩ (by decide) get consumed
  have found : resolve cb (some 7) (List.drop 1 [[100, 101, 118], [97], [98]]) = some 9 := by decide
  rw [found] at run
  exact ⟨v', h₂, mounted, run, bytes⟩

end Kopen

end WivOS.Fs
