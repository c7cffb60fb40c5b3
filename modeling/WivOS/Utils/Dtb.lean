import WivOS.Utils.Gentree
import WivOS.Utils.Strings

/-!
# The device tree blob

`dtb_init` of `utils/dtb.c`. The blob is the list of the bytes from its address on, and a read past the
end faults (`none`). The machine is little-endian, so every field of the blob but one goes through
`be32`; the bound of the loop is `header->size_dt_struct` as it is loaded. A `dtb_node_t` is the value
of its `tree_node`, by whose number it is named.
-/

namespace WivOS.Utils

/-- A 32-bit load on a little-endian machine. -/
def load32 (blob : Bytes) (offset : Nat) : Option (BitVec 32) :=
  match blob.drop offset with
  | b₀ :: b₁ :: b₂ :: b₃ :: _ => some (b₃.toBitVec ++ b₂.toBitVec ++ b₁.toBitVec ++ b₀.toBitVec)
  | _ => none

/-- C `be32`. -/
def be32 (input : BitVec 32) : BitVec 32 :=
  let temp : BitVec 32 := 0
  let temp := temp ||| (input &&& 0xFF) <<< 24
  let temp := temp ||| (input &&& 0xFF00) <<< 8
  let temp := temp ||| (input &&& 0xFF0000) >>> 8
  temp ||| (input &&& 0xFF000000) >>> 24

/-- C `ROUND_UP`. -/
def roundUp (n s : Nat) : Nat := (n + s - 1) / s * s

def fdtBeginNode : Nat := 0x00000001
def fdtEndNode : Nat := 0x00000002
def fdtProp : Nat := 0x00000003
def fdtNop : Nat := 0x00000004
def fdtEnd : Nat := 0x00000009

/-- The fields of `fdt_header_t` that the loop of `dtb_init` reads, as they are loaded. -/
structure FdtHeader where
  offDtStruct : BitVec 32
  offDtStrings : BitVec 32
  sizeDtStruct : BitVec 32

/-- The header of a blob. -/
def fdtHeader (blob : Bytes) : Option FdtHeader := do
  let offDtStruct ← load32 blob 8
  let offDtStrings ← load32 blob 12
  let sizeDtStruct ← load32 blob 36
  return ⟨offDtStruct, offDtStrings, sizeDtStruct⟩

/-- `dtb_prop_t`. -/
structure DtbProp where
  name : Bytes
  data : Bytes
  dataLen : Nat
deriving DecidableEq, Repr

/-- `dtb_node_t`. -/
structure DtbNode where
  name : Bytes
  props : List DtbProp
  rootNode : Bool
deriving DecidableEq, Repr

/-- The variables of the loop of `dtb_init`. -/
structure DtbState where
  parsedSize : Nat
  tree : Gentree DtbNode
  firstNodeFound : Bool
  currentNode : Option Nat

/-- C `get_string_from_dtb`. -/
def getStringFromDtb (header : FdtHeader) (blob : Bytes) (nameoff : Nat) : Bytes :=
  blob.drop ((be32 header.offDtStrings).toNat + nameoff)

/-- What C `memcpy` copies. -/
def copyBytes (source : Bytes) (n : Nat) : Option Bytes :=
  if n ≤ source.length then some (source.take n) else none

/-- The case `FDT_BEGIN_NODE`: the block size and the state. -/
def beginNode (data : Bytes) (s : DtbState) : Option (Nat × DtbState) := do
  let blockSize := 4 + ((← strlen data) + 1)
  let node : DtbNode := ⟨← dupBytes data, [], !s.firstNodeFound⟩
  let (treeNode, tree) ← gentreeInsert s.tree s.currentNode node
  return (blockSize, { s with tree := tree, currentNode := some treeNode, firstNodeFound := true })

/-- The case `FDT_PROP`. -/
def addProp (header : FdtHeader) (blob : Bytes) (fdtProp : Nat) (s : DtbState) :
    Option (Nat × DtbState) := do
  let len ← load32 blob fdtProp
  let len := (be32 len).toNat
  let nameoff ← load32 blob (fdtProp + 4)
  let nameoff := (be32 nameoff).toNat
  let blockSize := 4 + 8 + len
  let name ← dupBytes (getStringFromDtb header blob nameoff)
  let value ← copyBytes (blob.drop (fdtProp + 8)) len
  let prop : DtbProp := ⟨name, value, len⟩
  let currentNode ← s.currentNode
  -- C `list_push_back`
  let tree ← s.tree.modifyValue currentNode fun node => { node with props := node.props ++ [prop] }
  return (blockSize, { s with tree := tree })

/-- The case `FDT_END_NODE`. -/
def endNode (s : DtbState) : Option (Nat × DtbState) := do
  let currentNode ← s.currentNode
  let node ← s.tree.nodes currentNode
  if node.value.rootNode then return (4, s)
  let parent ← (← gentreeGetParent s.tree currentNode)
  return (4, { s with currentNode := some parent })

/-- The `switch` in the loop of `dtb_init`. -/
def parseToken (header : FdtHeader) (blob : Bytes) (currentBlock token : Nat) (s : DtbState) :
    Option (Nat × DtbState) :=
  if token = fdtBeginNode then beginNode (blob.drop (currentBlock + 4)) s
  else if token = fdtProp then addProp header blob (currentBlock + 4) s
  else if token = fdtEndNode then endNode s
  else some (4, s)

/-- The body of the loop of `dtb_init`: the token, the size of its block, and the state. -/
def parseBlock (header : FdtHeader) (blob : Bytes) (s : DtbState) : Option (Nat × Nat × DtbState) := do
  let currentBlock := (be32 header.offDtStruct).toNat + s.parsedSize
  let token ← load32 blob currentBlock
  let token := (be32 token).toNat
  let (blockSize, s) ← parseToken header blob currentBlock token s
  return (token, roundUp blockSize 4, s)

/-- The loop of `dtb_init`, of `fuel` rounds at most. -/
def parseLoop (header : FdtHeader) (blob : Bytes) : Nat → DtbState → Option DtbState
  | 0, _ => none
  | fuel + 1, s =>
    if s.parsedSize < header.sizeDtStruct.toNat then do
      let (token, blockSize, s) ← parseBlock header blob s
      if token = fdtEnd then return s
      parseLoop header blob fuel { s with parsedSize := s.parsedSize + blockSize }
    else some s

/-- The state before the loop. -/
def dtbStart : DtbState := ⟨0, gentreeCreate, false, none⟩

/-- The checks of `dtb_init`. -/
def dtbChecks (blob : Bytes) : Option Bool := do
  let magic ← load32 blob 0
  if be32 magic ≠ 0xD00DFEED then return false
  let lastCompVersion ← load32 blob 24
  if be32 lastCompVersion > 17 then return false
  return true

/-- C `dtb_init`: what it returns, and `DTBNodes`. Each round moves on by 4 bytes at least. -/
def dtbInit (dtbNodes : Option (Gentree DtbNode)) (blob : Bytes) :
    Option (Int × Option (Gentree DtbNode)) := do
  if ¬ (← dtbChecks blob) then return (-1, dtbNodes)
  let header ← fdtHeader blob
  let s ← parseLoop header blob (header.sizeDtStruct.toNat + 1) dtbStart
  return (0, some s.tree)

end WivOS.Utils
