import WivOS.Utils.Gentree
import WivOS.Utils.PrintfMemory

/-!
# The virtual filesystem

`fs/vfs.c` without the calls that only pass on to a callback. The mount points are a `gentree` of
entries; `vfs_mount`, `vfs_get_mountpoint` and `kopen` cut a path in the caller's buffer with `strsep`.
A `vfs_node_t` is a value of `N`, and its callbacks are given by `Callbacks`. The recursions on a path
have as many rounds as it has bytes.
-/

namespace WivOS.Fs
open WivOS.Utils

/-- `vfs_entry_t`. -/
structure VfsEntry (N : Type) where
  name : Bytes
  node : Option N
deriving Repr

/-- `VFSTree`, the reference counts of the nodes, and the bytes that `printf` has written. -/
structure Vfs (N : Type) where
  tree : Gentree (VfsEntry N)
  referenceCount : N → Nat
  printed : Bytes

/-- The callbacks of a node that `kopen` uses, and its flags. -/
structure Callbacks (N : Type) where
  flags : N → Nat
  opens : N → Bool
  finddir : N → Option (Bytes → Option N)
  create : N → Option (Bytes → Nat → Option N)

/-- C `-1` as a `size_t`. -/
def minusOne : Nat := 2 ^ 64 - 1

def vfsDirectory : Nat := 0x02
def oCreat : Nat := 0x0010

variable {N : Type}

/-- The part of C `vfs_init` that creates the root entry. -/
def vfsInitRoot (referenceCount : N → Nat) : Option (Vfs N) := do
  -- C `strdup("root")`
  let (_, tree) ← gentreeInsert gentreeCreate none ⟨[114, 111, 111, 116, 0], none⟩
  return ⟨tree, referenceCount, []⟩

/-- The loop over the children of an entry: the first whose name is the token. -/
def findEntry (tree : Gentree (VfsEntry N)) (currentToken : Bytes) : List Nat → Option (Option Nat)
  | [] => some none
  | child :: children => do
    let newChild ← tree.nodes child
    if (← strcmp newChild.value.name currentToken) = 0 then return some child
    findEntry tree currentToken children

/-- C `vfs_get_mountpoint_recursive`: the node, and what `*path` becomes. -/
def vfsGetMountpointRecursive (tree : Gentree (VfsEntry N)) :
    Nat → Heap → Option Ptr → Nat → Option (Option N × Option Ptr × Heap)
  | 0, _, _, _ => none
  | fuel + 1, h, path, subroot => do
    let (currentToken, path, h) ← h.strsep path [slash]
    let entry ← tree.nodes subroot
    match currentToken with
    | none => return (entry.value.node, path, h)
    | some currentToken =>
      let token ← h.bytes currentToken
      if (← strcmp token [0]) = 0 then return (entry.value.node, path, h)
      match ← findEntry tree token entry.children with
      | none => return (entry.value.node, some currentToken, h)
      | some child => vfsGetMountpointRecursive tree fuel h path child

/-- The first statement of C `vfs_get_mountpoint`: a slash at the end is cut off. -/
def trimSlash (h : Heap) (p : Ptr) : Option Heap := do
  let str ← h.bytes p
  let length ← strlen str
  if 1 < length ∧ str[length - 1]? = some slash then h.store (p.add (length - 1)) 0
  else return h

/-- C `vfs_get_mountpoint`. -/
def vfsGetMountpoint (tree : Gentree (VfsEntry N)) (h : Heap) (path : Option Ptr) :
    Option (Option N × Option Ptr × Heap) :=
  match path with
  | none => some (none, none, h)
  | some p => do
    let h ← trimSlash h p
    let str ← h.bytes p
    let first ← str[0]?
    if first ≠ slash then return (none, some p, h)
    let length ← strlen str
    let root ← tree.root
    if length = 1 then
      -- the path `/`
      let entry ← tree.nodes root
      return (entry.value.node, none, h)
    vfsGetMountpointRecursive tree (str.length + 1) h (some (p.add 1)) root

/-- C `"[VFS] %s: Already mounted\n"`: what is before the `%`, and behind its `s`. -/
def mountedFormat : Bytes × Bytes :=
  ([91, 86, 70, 83, 93, 32],
    [58, 32, 65, 108, 114, 101, 97, 100, 121, 32, 109, 111, 117, 110, 116, 101, 100, 10])

/-- C `printf("[VFS] %s: Already mounted\n", path)`: the bytes that are written. There is no memory to read
the string from at `NULL`. -/
def printMounted (h : Heap) (path : Option Ptr) : Option Bytes :=
  Printf.vsnprintfInternalAt true (mountedFormat.1 ++ [37, 115] ++ mountedFormat.2 ++ [0])
    fun _ => ⟨0, (path.bind h.bytes).getD []⟩

/-- Mounts a node on an entry, unless there is one already. -/
def mountEntry (v : Vfs N) (h : Heap) (path : Option Ptr) (subroot : Nat) (node : N) : Option (Vfs N) := do
  let entry ← v.tree.nodes subroot
  if entry.value.node.isSome then
    let text ← printMounted h path
    return { v with printed := v.printed ++ text }
  let tree ← v.tree.modifyValue subroot fun entry => { entry with node := some node }
  return { v with tree := tree }

/-- C `vfs_mount_recursive`. -/
def vfsMountRecursive (node : N) : Nat → Vfs N → Heap → Option Ptr → Nat → Option (Vfs N × Heap)
  | 0, _, _, _, _ => none
  | fuel + 1, v, h, path, subroot => do
    let (currentToken, path, h) ← h.strsep path [slash]
    match currentToken with
    | none => return (← mountEntry v h path subroot node, h)
    | some currentToken =>
      let token ← h.bytes currentToken
      if (← strcmp token [0]) = 0 then return (← mountEntry v h path subroot node, h)
      let entry ← v.tree.nodes subroot
      match ← findEntry v.tree token entry.children with
      | some child => vfsMountRecursive node fuel v h path child
      | none =>
        -- C `strdup` of the token, for a new entry below this one
        let name ← dupBytes token
        let (child, tree) ← gentreeInsert v.tree (some subroot) ⟨name, none⟩
        vfsMountRecursive node fuel { v with tree := tree } h path child

/-- C `vfs_mount`. -/
def vfsMount (v : Vfs N) [DecidableEq N] (h : Heap) (path : Ptr) (node : N) : Option (Vfs N × Heap) := do
  let v := { v with referenceCount := Function.update v.referenceCount node minusOne }
  let str ← h.bytes path
  let first ← str[0]?
  let length ← strlen str
  let root ← v.tree.root
  if first = slash ∧ length = 1 then return (← mountEntry v h (some path) root node, h)
  vfsMountRecursive node (str.length + 1) v h (some (path.add 1)) root

/-- C `vfs_finddir`, of a callback that does not change the path. -/
def vfsFinddir (cb : Callbacks N) (node : N) (name : Bytes) : Option N :=
  if cb.flags node &&& vfsDirectory = 0 then none
  else (cb.finddir node).bind fun finddir => finddir name

/-- C `vfs_create`. -/
def vfsCreate (cb : Callbacks N) (node : N) (name : Bytes) (flags : Nat) : Option N :=
  if cb.flags node &&& vfsDirectory = 0 then none
  else (cb.create node).bind fun create => create name flags

/-- The calls of the callback that C `vfs_open` makes. -/
def vfsOpen (cb : Callbacks N) (node : Option N) (flags : Nat) : List (N × Nat) :=
  match node with
  | none => []
  | some node => if cb.opens node then [(node, flags)] else []

/-- Where the loop of `kopen` ends: at a name that is not found, or with the last nodes. -/
inductive Resolved (N : Type) where
  | missing
  | found (startPoint : N) (nextNode : Option N)
deriving Repr

/-- The loop of C `kopen`. -/
def kopenLoop (cb : Callbacks N) (flags : Nat) :
    Nat → Heap → Option Ptr → N → Option N → Option (Resolved N × Heap)
  | 0, _, _, _, _ => none
  | fuel + 1, h, newStart, startPoint, nextNode =>
    match newStart with
    | none => some (.found startPoint nextNode, h)
    | some newStart => do
      let (currentToken, newStart, h) ← h.strsep (some newStart) [slash]
      match currentToken with
      | none => return (.found startPoint nextNode, h)
      | some currentToken =>
        let token ← h.bytes currentToken
        let length ← strlen token
        let name := token.take length
        match vfsFinddir cb startPoint name with
        | none =>
          -- the last component or not, it is created here
          if flags &&& oCreat ≠ 0 then return (.found startPoint (vfsCreate cb startPoint name flags), h)
          return (.missing, h)
        | some node => kopenLoop cb flags fuel h newStart node (some node)

/-- C `kopen`: the node, and the calls of `open`. -/
def kopen (cb : Callbacks N) (tree : Gentree (VfsEntry N)) (h : Heap) (name : Ptr) (flags : Nat) :
    Option (Option N × List (N × Nat) × Heap) := do
  let (originalName, h) ← h.strdup name
  let (save, h) ← h.strdup originalName
  let (startPoint, filename, h) ← vfsGetMountpoint tree h (some originalName)
  match startPoint with
  | none => return (none, [], (h.kfree save).kfree originalName)
  | some startPoint =>
    let newStart ←
      match filename with
      | none => some none
      | some filename => do
        -- the offset of `filename`, in the copy that was not cut up
        let rest := save.add (filename.offset - originalName.offset)
        let offset ← strstr (← h.bytes rest) (← h.bytes filename)
        some (offset.map rest.add)
    let str ← h.bytes save
    let (resolved, h) ← kopenLoop cb flags (str.length + 1) h newStart startPoint none
    let h := (h.kfree save).kfree originalName
    match resolved with
    | .missing => return (none, [], h)
    | .found startPoint nextNode =>
      let nextNode := nextNode.or (some startPoint)
      return (nextNode, vfsOpen cb nextNode flags, h)

end WivOS.Fs
