import WivOS.Utils.Compare
import WivOS.Utils.DtbTree

/-!
# Reading properties

`dtb_prop_read_u32`, `dtb_prop_read_u64` and `dtb_prop_read_address_range` of `utils/dtb.c`. A pointer
to an output is `none` where it is `NULL` and the value it points to otherwise; a load of a byte outside
the data of the property faults (`none`). Both readers count `offset` in cells and check
`offset + sizeof(uint32_t)` against the bytes of the data, so the check lets through reads that reach
beyond the data.
-/

namespace WivOS.Utils

/-- A 64-bit load on a little-endian machine. -/
def load64 (blob : Bytes) (offset : Nat) : Option (BitVec 64) := do
  let low ← load32 blob offset
  let high ← load32 blob (offset + 4)
  return high ++ low

/-- C `be64`. -/
def be64 (input : BitVec 64) : BitVec 64 :=
  let temp : BitVec 64 := 0
  let temp := temp ||| ((input >>> 0) &&& 0xFF) <<< 56
  let temp := temp ||| ((input >>> 8) &&& 0xFF) <<< 48
  let temp := temp ||| ((input >>> 16) &&& 0xFF) <<< 40
  let temp := temp ||| ((input >>> 24) &&& 0xFF) <<< 32
  let temp := temp ||| ((input >>> 32) &&& 0xFF) <<< 24
  let temp := temp ||| ((input >>> 40) &&& 0xFF) <<< 16
  let temp := temp ||| ((input >>> 48) &&& 0xFF) <<< 8
  temp ||| ((input >>> 56) &&& 0xFF) <<< 0

/-- The loop over `node->props`: the first property of that name. -/
def findProp (name : Bytes) : List DtbProp → Option (Option DtbProp)
  | [] => some none
  | prop :: props => do
    if (← strcmp name prop.name) = 0 then return some prop
    findProp name props

/-- `(offset + sizeof(uint32_t)) > prop->data_len`, in `size_t`. -/
def pastData (offset : BitVec 32) (dataLen : Nat) : Bool :=
  dataLen < (offset.signExtend 64 + 4).toNat

/-- A load at a signed distance from the start of the data. -/
def loadAt {α : Type} (load : Bytes → Nat → Option α) (data : Bytes) (distance : Int) : Option α :=
  if distance < 0 then none else load data distance.toNat

/-- The body of the two readers: what they return, and the output. -/
def dtbPropRead {α : Type} (read : Bytes → Int → Option α) (dtbNodes : Option (Gentree DtbNode))
    (node : DtbNode) (name : Bytes) (value : Option α) (offset : BitVec 32) :
    Option (Int × Option α) := do
  if dtbNodes.isNone then return (-1, value)
  let some prop ← findProp name node.props | return (-1, value)
  if pastData offset prop.dataLen then return (-1, value)
  match value with
  | none => return (0, none)
  | some _ =>
    let value ← read prop.data (4 * offset.toInt)
    return (0, some value)

/-- C `dtb_prop_read_u32`. -/
def dtbPropReadU32 : Option (Gentree DtbNode) → DtbNode → Bytes → Option (BitVec 32) → BitVec 32 →
    Option (Int × Option (BitVec 32)) :=
  dtbPropRead fun data distance => (loadAt load32 data distance).map be32

/-- C `dtb_prop_read_u64`. -/
def dtbPropReadU64 : Option (Gentree DtbNode) → DtbNode → Bytes → Option (BitVec 64) → BitVec 32 →
    Option (Int × Option (BitVec 64)) :=
  dtbPropRead fun data distance => (loadAt load64 data distance).map be64

/-- `if(output != NULL) switch(cells)` of `dtb_prop_read_address_range`: whether it goes on, and the
output. A count without a case leaves the output alone. -/
def readCells (dtbNodes : Option (Gentree DtbNode)) (node : DtbNode) (name : Bytes) (cells : Nat)
    (output : Option (BitVec 64)) (offset : BitVec 32) : Option (Bool × Option (BitVec 64)) :=
  if output.isNone then some (true, output)
  else match cells with
    | 0 => some (true, some 0)
    | 1 => do
      let (r, value) ← dtbPropReadU32 dtbNodes node name (some 0) offset
      if r < 0 then return (false, output)
      return (true, value.map (·.setWidth 64))
    | 2 => do
      let (r, output) ← dtbPropReadU64 dtbNodes node name output offset
      if r < 0 then return (false, output)
      return (true, output)
    | _ => some (true, output)

/-- C `dtb_prop_read_address_range`: what it returns, and the outputs. -/
def dtbPropReadAddressRange (dtbNodes : Option (Gentree DtbNode)) (node : DtbNode) (name : Bytes)
    (addressCells sizeCells : BitVec 32) (address size : Option (BitVec 64)) :
    Option (Int × Option (BitVec 64) × Option (BitVec 64)) := do
  let addressOffset : BitVec 32 := 0
  let sizeOffset : BitVec 32 := addressCells
  let (goesOn, address) ← readCells dtbNodes node name addressCells.toNat address addressOffset
  if ¬ goesOn then return (-1, address, size)
  let (goesOn, size) ← readCells dtbNodes node name sizeCells.toNat size sizeOffset
  if ¬ goesOn then return (-1, address, size)
  return (0, address, size)

/-- The number of bytes in big-endian order. -/
def beValue (bytes : Bytes) : Nat := bytes.foldl (fun n b => n * 2 ^ 8 + b.toNat) 0

/-- A property as `dtb_init` makes it: a terminated name, and data of `data_len` bytes. -/
structure DtbProp.Sound (prop : DtbProp) : Prop where
  named : IsStr prop.name (strOf prop.name)
  sized : prop.data.length = prop.dataLen

/-- The property of a node that has that name; the first one, should there be more. -/
def propNamed (node : DtbNode) (name : Bytes) : Option DtbProp :=
  node.props.find? fun prop => strOf prop.name == name

/-- The `width` bytes from the cell at `offset` on lie inside the data. -/
def Inside (width : Nat) (prop : DtbProp) (offset : Int) : Prop :=
  0 ≤ offset ∧ 4 * offset + width ≤ prop.dataLen

/-- What a reader of `width` bytes is to do. -/
structure ReadsCells {w : Nat} (width : Nat) (prop : Option DtbProp) (offset : Int)
    (value : Option (BitVec w)) (result : Option (Int × Option (BitVec w))) : Prop where
  success : ∀ p ∈ prop, Inside width p offset →
    ∃ x : BitVec w, result = some (0, value.map fun _ => x) ∧
      x.toNat = beValue ((p.data.drop (4 * offset.toNat)).take width)
  failure : (∀ p ∈ prop, ¬ Inside width p offset) → result = some (-1, value)

section Cells
variable {name s data : Bytes} {node : DtbNode} {prop : DtbProp}

/-- The byte from bit `s` on, moved to bit `t`. -/
lemma getLsbD_byte {w i : Nat} (x : BitVec w) (s : Nat) {t : Nat} (ht : t % 8 = 0) (hi : i < w) :
    ((x >>> s &&& 0xFF) <<< t).getLsbD i = (decide (i / 8 = t / 8) && x.getLsbD (s + i % 8)) := by
  have low : i - t < w := Nat.lt_of_le_of_lt (Nat.sub_le i t) hi
  have mask : (0xFF : BitVec w).getLsbD (i - t) = decide (i - t < 8) := by
    rw [show (0xFF : BitVec w) = BitVec.ofNat w (2 ^ 8 - 1) from rfl, BitVec.getLsbD_ofNat,
      Nat.testBit_two_pow_sub_one, decide_eq_true low, Bool.true_and]
  rw [BitVec.getLsbD_shiftLeft, BitVec.getLsbD_and, BitVec.getLsbD_ushiftRight, mask, decide_eq_true hi,
    Bool.true_and]
  by_cases place : i / 8 = t / 8
  · have offset : i - t = i % 8 := by omega
    have above : ¬ i < t := by omega
    simp [place, above, offset, Nat.mod_lt]
  · have away : i < t ∨ ¬ i - t < 8 := by omega
    obtain below | above := away
    · simp [place, below]
    · simp [place, above]

/-- `be64` reverses the bytes. -/
lemma be64_getLsbD {i : Nat} (x : BitVec 64) (hi : i < 64) :
    (be64 x).getLsbD i = x.getLsbD (8 * (7 - i / 8) + i % 8) := by
  have byte := fun s t (ht : t % 8 = 0) => getLsbD_byte x s ht hi
  have row : i / 8 < 8 := by omega
  simp only [be64, BitVec.getLsbD_or, byte]
  generalize i / 8 = k at row
  interval_cases k <;> simp

/-- `be64` in terms of the two halves. -/
lemma be64_append (high low : BitVec 32) : be64 (high ++ low) = be32 low ++ be32 high := by
  apply BitVec.eq_of_getLsbD_eq
  intro i hi
  rw [be64_getLsbD _ hi, BitVec.getLsbD_append, BitVec.getLsbD_append]
  by_cases below : i < 32
  · rw [be32_getLsbD _ below, if_pos below, if_neg (by omega)]
    congr 1
    omega
  · rw [be32_getLsbD _ (show i - 32 < 32 by omega), if_neg below, if_pos (by omega)]
    congr 1
    omega

/-- A load inside the data is the number of its 4 bytes. -/
lemma load32_eq (data : Bytes) (offset : Nat) (h : offset + 4 ≤ data.length) :
    ∃ x, load32 data offset = some x ∧ (be32 x).toNat = beValue ((data.drop offset).take 4) := by
  obtain ⟨b₀, b₁, b₂, b₃, rest, e⟩ :
      ∃ b₀ b₁ b₂ b₃ rest, data.drop offset = b₀ :: b₁ :: b₂ :: b₃ :: rest := by
    have length : 4 ≤ (data.drop offset).length := by rw [List.length_drop]; omega
    match data.drop offset, length with
    | b₀ :: b₁ :: b₂ :: b₃ :: rest, _ => exact ⟨b₀, b₁, b₂, b₃, rest, rfl⟩
  refine ⟨_, by rw [load32, e], ?_⟩
  rw [be32_append, toNat_append, e]
  simp [beValue]

/-- A load past the data faults. -/
lemma load32_none (data : Bytes) (offset : Nat) (h : data.length < offset + 4) : load32 data offset = none := by
  have length : (data.drop offset).length < 4 := by rw [List.length_drop]; omega
  unfold load32
  split
  · next e =>
    simp only [e, List.length_cons] at length
    omega
  · rfl

/-- The number of two parts after each other. -/
lemma beValue_append (bytes bytes' : Bytes) :
    beValue (bytes ++ bytes') = beValue bytes * 2 ^ (8 * bytes'.length) + beValue bytes' := by
  induction bytes' using List.reverseRecOn with
  | nil => simp [beValue]
  | append_singleton bytes' b ih =>
    have step : ∀ bytes : Bytes, beValue (bytes ++ [b]) = beValue bytes * 2 ^ 8 + b.toNat := by
      intro bytes
      simp [beValue]
    rw [← List.append_assoc, step, step, ih, List.length_append, Nat.mul_add, Nat.pow_add]
    simp only [List.length_singleton]
    ring

/-- A load inside the data is the number of its 8 bytes. -/
lemma load64_eq (data : Bytes) (offset : Nat) (h : offset + 8 ≤ data.length) :
    ∃ x, load64 data offset = some x ∧ (be64 x).toNat = beValue ((data.drop offset).take 8) := by
  obtain ⟨low, loadLow, lowValue⟩ := load32_eq data offset (by omega)
  obtain ⟨high, loadHigh, highValue⟩ := load32_eq data (offset + 4) (by omega)
  refine ⟨high ++ low, by simp [load64, loadLow, loadHigh], ?_⟩
  have split : (data.drop offset).take 8 = (data.drop offset).take 4 ++ (data.drop (offset + 4)).take 4 := by
    rw [show 8 = 4 + 4 from rfl, List.take_add, List.drop_drop]
  have length : ((data.drop (offset + 4)).take 4).length = 4 := by
    rw [List.length_take, List.length_drop]
    omega
  rw [be64_append, BitVec.toNat_append, ← Nat.shiftLeft_add_eq_or_of_lt (be32 high).isLt,
    Nat.shiftLeft_eq, split, beValue_append, length, lowValue, highValue]

/-- A load past the data faults. -/
lemma load64_none (data : Bytes) (offset : Nat) (h : data.length < offset + 8) : load64 data offset = none := by
  rw [load64, load32_none data (offset + 4) (by omega)]
  cases load32 data offset with
  | none => rfl
  | some low => rfl

/-- A load of `width` bytes in big-endian order. -/
structure Loads {w : Nat} (width : Nat) (read : Bytes → Int → Option (BitVec w)) : Prop where
  inside : ∀ (data : Bytes) (distance : Int), 0 ≤ distance → distance + width ≤ data.length →
    ∃ x, read data distance = some x ∧ x.toNat = beValue ((data.drop distance.toNat).take width)
  outside : ∀ (data : Bytes) (distance : Int), ¬ (0 ≤ distance ∧ distance + width ≤ data.length) →
    read data distance = none

/-- A load that is right from any offset is right from any signed distance. -/
lemma loads_loadAt {w width : Nat} {load : Bytes → Nat → Option (BitVec w)} {be : BitVec w → BitVec w}
    (load_eq : ∀ (data : Bytes) (offset : Nat), offset + width ≤ data.length →
      ∃ x, load data offset = some x ∧ (be x).toNat = beValue ((data.drop offset).take width))
    (load_none : ∀ (data : Bytes) (offset : Nat), data.length < offset + width →
      load data offset = none) :
    Loads width fun data distance => (loadAt load data distance).map be where
  inside := by
    intro data distance pos le
    obtain ⟨x, loaded, value⟩ := load_eq data distance.toNat (by omega)
    refine ⟨be x, ?_, value⟩
    rw [loadAt, if_neg (by omega), loaded]
    rfl
  outside := by
    intro data distance out
    rw [loadAt]
    split
    · rfl
    · rw [load_none data distance.toNat (by omega)]
      rfl

/-- The load of `dtb_prop_read_u32`. -/
lemma loads_u32 : Loads 4 fun data distance => (loadAt load32 data distance).map be32 :=
  loads_loadAt load32_eq load32_none

/-- The load of `dtb_prop_read_u64`. -/
lemma loads_u64 : Loads 8 fun data distance => (loadAt load64 data distance).map be64 :=
  loads_loadAt load64_eq load64_none

/-- The loop finds the first property of that name. -/
lemma findProp_eq {props : List DtbProp} (h : IsStr name s) (sound : ∀ prop ∈ props, prop.Sound) :
    findProp name props = some (props.find? fun prop => strOf prop.name == s) := by
  induction props with
  | nil => rfl
  | cons prop props ih =>
    obtain ⟨r, compared, sign⟩ := strcmp_signOf h (sound prop List.mem_cons_self).named
    have rest := ih fun p hp => sound p (List.mem_cons_of_mem _ hp)
    rw [findProp, compared, List.find?_cons]
    by_cases e : s = strOf prop.name
    · simp [sign.zero.mpr e, e]
    · have ne : (strOf prop.name == s) = false := by simp [Ne.symm e]
      simp [mt sign.zero.mp e, ne, rest]

/-- The test of the offset, which wraps for -4 to -1. -/
lemma pastData_iff (offset : BitVec 32) (dataLen : Nat) :
    pastData offset dataLen = true ↔ (dataLen : Int) < (offset.toInt + 4) % 2 ^ 64 := by
  have wide : (offset.signExtend 64).toInt = offset.toInt := BitVec.toInt_signExtend_of_le (by decide)
  have signed := BitVec.toInt_eq_toNat_cond (offset.signExtend 64)
  rw [pastData, decide_eq_true_iff, BitVec.toNat_add, ← wide, signed]
  have four : (4 : BitVec 64).toNat = 4 := rfl
  rw [four]
  split <;> omega

end Cells

section Readers
variable {name s : Bytes} {node : DtbNode} {tree : Gentree DtbNode} {w width : Nat}
  {read : Bytes → Int → Option (BitVec w)} {value : Option (BitVec w)} {offset : BitVec 32}

/-- A property that is missing is not read. -/
lemma dtbPropRead_missing (h : IsStr name s) (sound : ∀ prop ∈ node.props, prop.Sound)
    (missing : propNamed node s = none) :
    dtbPropRead read (some tree) node name value offset = some (-1, value) := by
  have found := findProp_eq h sound
  rw [← propNamed, missing] at found
  simp [dtbPropRead, found]

/-- Nor is one that the test rejects. -/
lemma dtbPropRead_past {prop : DtbProp} (h : IsStr name s) (sound : ∀ prop ∈ node.props, prop.Sound)
    (named : propNamed node s = some prop) (past : pastData offset prop.dataLen = true) :
    dtbPropRead read (some tree) node name value offset = some (-1, value) := by
  have found := findProp_eq h sound
  rw [← propNamed, named] at found
  simp [dtbPropRead, found, past]

/-- One that it accepts is read if there is an output. -/
lemma dtbPropRead_accepted {prop : DtbProp} (h : IsStr name s)
    (sound : ∀ prop ∈ node.props, prop.Sound) (named : propNamed node s = some prop)
    (accepted : ¬ pastData offset prop.dataLen = true) :
    dtbPropRead read (some tree) node name value offset = match value with
      | none => some (0, none)
      | some _ => (read prop.data (4 * offset.toInt)).map fun x => (0, some x) := by
  have found := findProp_eq h sound
  rw [← propNamed, named] at found
  cases value with
  | none => simp [dtbPropRead, found, accepted]
  | some old => simp [dtbPropRead, found, accepted, Option.map_eq_bind]

/-- The test accepts what lies inside the data. -/
lemma Inside.accepted {prop : DtbProp} (wide : 4 ≤ width) (inside : Inside width prop offset.toInt) :
    ¬ pastData offset prop.dataLen = true := by
  obtain ⟨pos, le⟩ := inside
  have bound := BitVec.toInt_lt (x := offset)
  rw [pastData_iff, Int.emod_eq_of_lt (by omega) (by omega)]
  omega

/-- A cell inside the data is read. -/
lemma dtbPropRead_inside (tree : Gentree DtbNode) (value : Option (BitVec w)) {prop : DtbProp}
    (loads : Loads width read) (wide : 4 ≤ width)
    (h : IsStr name s) (sound : ∀ prop ∈ node.props, prop.Sound) (named : propNamed node s = some prop)
    (inside : Inside width prop offset.toInt) :
    ∃ x : BitVec w, dtbPropRead read (some tree) node name value offset =
        some (0, value.map fun _ => x) ∧
      x.toNat = beValue ((prop.data.drop (4 * offset.toInt.toNat)).take width) := by
  have sized := (sound prop (List.mem_of_find?_eq_some named)).sized
  obtain ⟨x, loaded, decoded⟩ := loads.inside prop.data (4 * offset.toInt)
    (by have := inside.1; omega) (by have := inside.2; omega)
  refine ⟨x, ?_, ?_⟩
  · rw [dtbPropRead_accepted h sound named (inside.accepted wide)]
    cases value with
    | none => rfl
    | some old => simp [loaded]
  · have distance : (4 * offset.toInt).toNat = 4 * offset.toInt.toNat := by
      have := inside.1
      omega
    rw [decoded, distance]

/-- A load that the test wrongly accepts faults. -/
lemma dtbPropRead_outside {prop : DtbProp} (loads : Loads width read) (h : IsStr name s)
    (sound : ∀ prop ∈ node.props, prop.Sound) (named : propNamed node s = some prop)
    (accepted : ¬ pastData offset prop.dataLen = true) (outside : ¬ Inside width prop offset.toInt) :
    dtbPropRead read (some tree) node name value offset = if value.isNone then some (0, none) else none := by
  have sized := (sound prop (List.mem_of_find?_eq_some named)).sized
  rw [dtbPropRead_accepted h sound named accepted]
  cases value with
  | none => rfl
  | some old =>
    have out : read prop.data (4 * offset.toInt) = none := by
      apply loads.outside
      rw [Inside] at outside
      omega
    simp [out]

/-- A reader does what it is to do if and only if what its check lets through lies inside the data. -/
lemma dtbPropRead_iff (loads : Loads width read) (wide : 4 ≤ width) (h : IsStr name s)
    (sound : ∀ prop ∈ node.props, prop.Sound) :
    ReadsCells width (propNamed node s) offset.toInt value
        (dtbPropRead read (some tree) node name value offset) ↔
      ∀ prop ∈ propNamed node s, (offset.toInt + 4) % 2 ^ 64 ≤ prop.dataLen →
        Inside width prop offset.toInt := by
  constructor
  · intro reads prop named le
    by_contra outside
    have accepted : ¬ pastData offset prop.dataLen = true := by
      rw [pastData_iff]
      omega
    have failed := reads.failure fun p hp => by
      rw [Option.mem_unique hp named]
      exact outside
    rw [dtbPropRead_outside loads h sound named accepted outside] at failed
    cases value with
    | none => cases failed
    | some old => cases failed
  · intro condition
    refine ⟨fun prop named inside => dtbPropRead_inside tree value loads wide h sound named inside, ?_⟩
    intro outside
    cases named : propNamed node s with
    | none => exact dtbPropRead_missing h sound named
    | some prop =>
      refine dtbPropRead_past h sound named ?_
      rw [pastData_iff]
      by_contra le
      exact outside prop named (condition prop named (by omega))

/-- For every node, name, offset and output: each reader returns 0 with the big-endian value of its bytes
exactly when they lie inside the data, and -1 otherwise, if and only if they lie inside whenever
`offset + 4` modulo $2^{64}$ is at most the length of the data. -/
theorem dtb_prop_read_iff (tree : Gentree DtbNode) (offset : BitVec 32) (value : Option (BitVec 32))
    (value' : Option (BitVec 64)) (h : IsStr name s) (sound : ∀ prop ∈ node.props, prop.Sound) :
    (ReadsCells 4 (propNamed node s) offset.toInt value
        (dtbPropReadU32 (some tree) node name value offset) ↔
      ∀ prop ∈ propNamed node s, (offset.toInt + 4) % 2 ^ 64 ≤ prop.dataLen →
        0 ≤ offset.toInt ∧ 4 * offset.toInt + 4 ≤ prop.dataLen) ∧
    (ReadsCells 8 (propNamed node s) offset.toInt value'
        (dtbPropReadU64 (some tree) node name value' offset) ↔
      ∀ prop ∈ propNamed node s, (offset.toInt + 4) % 2 ^ 64 ≤ prop.dataLen →
        0 ≤ offset.toInt ∧ 4 * offset.toInt + 8 ≤ prop.dataLen) :=
  ⟨dtbPropRead_iff loads_u32 (by decide) h sound, dtbPropRead_iff loads_u64 (by decide) h sound⟩

end Readers

/-- A node with a property `"x"`. -/
def xNode (data : Bytes) : DtbNode := ⟨[0], [⟨[120, 0], data, data.length⟩], true⟩

/-- The string `"x"`. -/
lemma isStr_x : IsStr [120, 0] [120] := ⟨by decide, [], rfl⟩

/-- The property is as `dtb_init` makes it. -/
lemma xNode_sound (data : Bytes) : ∀ prop ∈ (xNode data).props, prop.Sound := by
  intro prop hp
  rw [List.mem_singleton.mp hp]
  exact ⟨isStr_x, rfl⟩

/-- The second of the two cells of a property. -/
theorem dtb_prop_read_iff_second :
    ReadsCells 4 (propNamed (xNode [0, 0, 0, 1, 0, 0, 0, 2]) [120]) 1 (some 7)
      (dtbPropReadU32 (some gentreeCreate) (xNode [0, 0, 0, 1, 0, 0, 0, 2]) [120, 0] (some 7) 1) := by
  apply (dtb_prop_read_iff gentreeCreate 1 (some 7) none isStr_x (xNode_sound _)).1.mpr
  intro prop named le
  cases named
  decide

/-- The third cell of a property of two cells: `dtb_prop_read_u32` reads beyond the data. -/
theorem dtb_prop_read_third :
    dtbPropReadU32 (some gentreeCreate) (xNode [0, 0, 0, 1, 0, 0, 0, 2]) [120, 0] (some 7) 2 = none ∧
      ¬ ReadsCells 4 (propNamed (xNode [0, 0, 0, 1, 0, 0, 0, 2]) [120]) 2 (some 7)
        (dtbPropReadU32 (some gentreeCreate) (xNode [0, 0, 0, 1, 0, 0, 0, 2]) [120, 0] (some 7) 2) := by
  have faults : dtbPropReadU32 (some gentreeCreate) (xNode [0, 0, 0, 1, 0, 0, 0, 2]) [120, 0] (some 7) 2 =
      none := rfl
  refine ⟨faults, fun reads => ?_⟩
  have failed := reads.failure fun prop named inside => by
    cases named
    exact absurd inside.2 (by decide)
  rw [faults] at failed
  cases failed

/-- The output is the big-endian number of `cells` cells of the property, from the cell `first` on. -/
def Decoded (prop : Option DtbProp) (first cells : Nat) (output : BitVec 64) : Prop :=
  cells = 0 ∧ output = 0 ∨ ∃ p ∈ prop, 4 * (first + cells) ≤ p.dataLen ∧
    output.toNat = beValue ((p.data.drop (4 * first)).take (4 * cells))

/-- What `dtb_prop_read_address_range` is to do, whatever the outputs hold before. -/
structure DecodesRange (prop : Option DtbProp) (addressCells sizeCells : Nat)
    (range : Option (BitVec 64) → Option (BitVec 64) →
      Option (Int × Option (BitVec 64) × Option (BitVec 64))) : Prop where
  success : ∀ address size, ∃ r address' size',
    range (some address) (some size) = some (r, some address', some size') ∧
      (r = 0 ∧ Decoded prop 0 addressCells address' ∧ Decoded prop addressCells sizeCells size' ∨ r = -1)
  failure : ∀ {address size address' size'}, range address size = some (-1, address', size') →
    address' = address ∧ size' = size

section Range
variable {name s : Bytes} {node : DtbNode} {tree : Gentree DtbNode} {cells : Nat} {offset : BitVec 32}
  {addressCells sizeCells : BitVec 32} {address address' size size' output : Option (BitVec 64)}

/-- There is one number that the cells hold. -/
lemma Decoded.unique {prop : Option DtbProp} {first : Nat} {x y : BitVec 64}
    (hx : Decoded prop first cells x) (hy : Decoded prop first cells y) : x = y := by
  obtain ⟨zero, rfl⟩ | ⟨p, named, -, value⟩ := hx
  · obtain ⟨-, rfl⟩ | ⟨p, -, -, value⟩ := hy
    · rfl
    · apply BitVec.eq_of_toNat_eq
      simp [value, zero, beValue]
  · obtain ⟨zero, rfl⟩ | ⟨p', named', -, value'⟩ := hy
    · apply BitVec.eq_of_toNat_eq
      simp [value, zero, beValue]
    · rw [Option.mem_unique named' named] at value'
      exact BitVec.eq_of_toNat_eq (value.trans value'.symm)

/-- A count without a case leaves the output. -/
lemma readCells_many (many : 3 ≤ cells) :
    readCells (some tree) node name cells output offset = some (true, output) := by
  match cells, many with
  | cells + 3, _ =>
    cases output with
    | none => rfl
    | some old => rfl

/-- Cells that the test rejects end the call. -/
lemma readCells_rejected {old : BitVec 64} (h : IsStr name s) (sound : ∀ prop ∈ node.props, prop.Sound)
    (count : cells = 1 ∨ cells = 2)
    (rejected : ∀ prop ∈ propNamed node s, pastData offset prop.dataLen = true) :
    readCells (some tree) node name cells (some old) offset = some (false, some old) := by
  have failed : ∀ {w : Nat} {read : Bytes → Int → Option (BitVec w)} {value : Option (BitVec w)},
      dtbPropRead read (some tree) node name value offset = some (-1, value) := by
    intro w read value
    cases named : propNamed node s with
    | none => exact dtbPropRead_missing h sound named
    | some prop => exact dtbPropRead_past h sound named (rejected prop named)
  rcases count with rfl | rfl
  · simp [readCells, dtbPropReadU32, failed]
  · simp [readCells, dtbPropReadU64, failed]

/-- Cells inside the data are read. -/
lemma readCells_inside (tree : Gentree DtbNode) (old : BitVec 64) {prop : DtbProp} (h : IsStr name s)
    (sound : ∀ prop ∈ node.props, prop.Sound) (count : cells = 1 ∨ cells = 2)
    (named : propNamed node s = some prop) (inside : Inside (4 * cells) prop offset.toInt) :
    ∃ x, readCells (some tree) node name cells (some old) offset = some (true, some x) ∧
      x.toNat = beValue ((prop.data.drop (4 * offset.toInt.toNat)).take (4 * cells)) := by
  rcases count with rfl | rfl
  · obtain ⟨x, returned, value⟩ := dtbPropRead_inside tree (some 0#32) loads_u32
      (by decide) h sound named inside
    refine ⟨x.setWidth 64, by simp [readCells, dtbPropReadU32, returned], ?_⟩
    rw [BitVec.toNat_setWidth, Nat.mod_eq_of_lt (by omega), value]
  · obtain ⟨x, returned, value⟩ := dtbPropRead_inside tree (some old) loads_u64
      (by decide) h sound named inside
    exact ⟨x, by simp [readCells, dtbPropReadU64, returned], value⟩

/-- Cells that the test wrongly accepts fault. -/
lemma readCells_outside {old : BitVec 64} {prop : DtbProp} (h : IsStr name s)
    (sound : ∀ prop ∈ node.props, prop.Sound) (count : cells = 1 ∨ cells = 2)
    (named : propNamed node s = some prop) (accepted : ¬ pastData offset prop.dataLen = true)
    (outside : ¬ Inside (4 * cells) prop offset.toInt) :
    readCells (some tree) node name cells (some old) offset = none := by
  rcases count with rfl | rfl
  · simp [readCells, dtbPropReadU32, dtbPropRead_outside loads_u32 h sound named accepted outside]
  · simp [readCells, dtbPropReadU64, dtbPropRead_outside loads_u64 h sound named accepted outside]

/-- The size is not read when reading the address has failed. -/
lemma range_stopped
    (first : readCells (some tree) node name addressCells.toNat address 0 = some (false, address')) :
    dtbPropReadAddressRange (some tree) node name addressCells sizeCells address size =
      some (-1, address', size) := by
  simp only [dtbPropReadAddressRange, first]
  rfl

/-- It is read when the address was. -/
lemma range_second (sizeCells : BitVec 32) (size : Option (BitVec 64))
    (first : readCells (some tree) node name addressCells.toNat address 0 = some (true, address')) :
    dtbPropReadAddressRange (some tree) node name addressCells sizeCells address size =
      (readCells (some tree) node name sizeCells.toNat size addressCells).map fun result =>
        (if result.1 then 0 else -1, address', result.2) := by
  simp only [dtbPropReadAddressRange, first]
  cases readCells (some tree) node name sizeCells.toNat size addressCells with
  | none => rfl
  | some result =>
    obtain ⟨goesOn, size'⟩ := result
    cases goesOn with
    | false => rfl
    | true => rfl

/-- Cells that lie inside the data, or no cells, are decoded. -/
lemma readCells_decodes (tree : Gentree DtbNode) (offset : BitVec 32) (old : BitVec 64) {first : Nat}
    (h : IsStr name s) (sound : ∀ prop ∈ node.props, prop.Sound) (few : cells ≤ 2)
    (at_first : offset.toInt = first)
    (fits : cells = 0 ∨ ∃ prop ∈ propNamed node s, 4 * (first + cells) ≤ prop.dataLen) :
    ∃ x, readCells (some tree) node name cells (some old) offset = some (true, some x) ∧
      Decoded (propNamed node s) first cells x := by
  rcases Nat.eq_zero_or_pos cells with rfl | pos
  · exact ⟨0, rfl, .inl ⟨rfl, rfl⟩⟩
  · obtain rfl | ⟨prop, named, le⟩ := fits
    · omega
    · obtain ⟨x, returned, value⟩ := readCells_inside tree old h sound (by omega) named
        (⟨by omega, by push_cast; omega⟩ : Inside (4 * cells) prop offset.toInt)
      rw [at_first, Int.toNat_natCast] at value
      exact ⟨x, returned, .inr ⟨prop, named, le, value⟩⟩

/-- A read of one or two cells is turned down, decodes them, or reads beyond the data. -/
lemma readCells_cases (tree : Gentree DtbNode) (offset : BitVec 32) (old : BitVec 64) (h : IsStr name s)
    (sound : ∀ prop ∈ node.props, prop.Sound) (count : cells = 1 ∨ cells = 2) :
    ((∀ prop ∈ propNamed node s, pastData offset prop.dataLen = true) ∧
      readCells (some tree) node name cells (some old) offset = some (false, some old)) ∨
    (∃ prop ∈ propNamed node s, Inside (4 * cells) prop offset.toInt ∧
      ∃ x, readCells (some tree) node name cells (some old) offset = some (true, some x)) ∨
    ((∃ prop ∈ propNamed node s, pastData offset prop.dataLen = false) ∧
      readCells (some tree) node name cells (some old) offset = none) := by
  cases named : propNamed node s with
  | none => exact .inl ⟨by simp, readCells_rejected h sound count (by simp [named])⟩
  | some prop =>
    by_cases past : pastData offset prop.dataLen = true
    · refine .inl ⟨by simpa using past, readCells_rejected h sound count fun p hp => ?_⟩
      rw [Option.mem_unique hp named]
      exact past
    · by_cases inside : Inside (4 * cells) prop offset.toInt
      · obtain ⟨x, returned, -⟩ := readCells_inside tree old h sound count named inside
        exact .inr (.inl ⟨prop, rfl, inside, x, returned⟩)
      · exact .inr (.inr ⟨⟨prop, rfl, by simpa using past⟩,
          readCells_outside h sound count named past inside⟩)

/-- A read that stops leaves the output alone. -/
lemma readCells_unchanged {output' : Option (BitVec 64)} (h : IsStr name s)
    (sound : ∀ prop ∈ node.props, prop.Sound)
    (stopped : readCells (some tree) node name cells output offset = some (false, output')) :
    output' = output := by
  cases output with
  | none => cases stopped
  | some old =>
    rcases (by omega : cells = 0 ∨ (cells = 1 ∨ cells = 2) ∨ 3 ≤ cells) with rfl | count | many
    · cases stopped
    · rcases readCells_cases tree offset old h sound count with
        ⟨-, returned⟩ | ⟨_, _, _, x, returned⟩ | ⟨-, returned⟩
      · rw [returned] at stopped
        cases stopped
        rfl
      · rw [returned] at stopped
        cases stopped
      · rw [returned] at stopped
        cases stopped
    · rw [readCells_many many] at stopped
      cases stopped

/-- Reading goes on where the cells fit the data. -/
lemma goesOn_of_fits (tree : Gentree DtbNode) (offset : BitVec 32) (output : Option (BitVec 64)) {first : Nat}
    (h : IsStr name s) (sound : ∀ prop ∈ node.props, prop.Sound)
    (few : cells ≤ 2) (at_first : offset.toInt = first)
    (fits : cells = 0 ∨ ∃ prop ∈ propNamed node s, 4 * (first + cells) ≤ prop.dataLen) :
    ∃ output', readCells (some tree) node name cells output offset = some (true, output') := by
  cases output with
  | none => exact ⟨none, rfl⟩
  | some old =>
    obtain ⟨x, returned, -⟩ := readCells_decodes tree offset old h sound few at_first fits
    exact ⟨some x, returned⟩

/-- A small count is not negative. -/
lemma toInt_of_few (few : addressCells.toNat ≤ 2) : addressCells.toInt = addressCells.toNat :=
  BitVec.toInt_eq_toNat_of_lt (by omega)

/-- At most two cells each, and all of them there. -/
lemma decodesRange_fits (h : IsStr name s) (sound : ∀ prop ∈ node.props, prop.Sound)
    (fewAddress : addressCells.toNat ≤ 2) (fewSize : sizeCells.toNat ≤ 2)
    (fits : (addressCells.toNat = 0 ∧ sizeCells.toNat = 0) ∨ ∃ prop ∈ propNamed node s,
      4 * (addressCells.toNat + sizeCells.toNat) ≤ prop.dataLen) :
    DecodesRange (propNamed node s) addressCells.toNat sizeCells.toNat
      (dtbPropReadAddressRange (some tree) node name addressCells sizeCells) := by
  have fitsAddress : addressCells.toNat = 0 ∨
      ∃ prop ∈ propNamed node s, 4 * (0 + addressCells.toNat) ≤ prop.dataLen := by
    obtain ⟨zero, -⟩ | ⟨prop, named, le⟩ := fits
    · exact .inl zero
    · exact .inr ⟨prop, named, by omega⟩
  have fitsSize := fits.imp And.right id
  have at_size := toInt_of_few fewAddress
  constructor
  · intro address size
    obtain ⟨x, first, decoded⟩ := readCells_decodes tree 0 address
      h sound fewAddress rfl fitsAddress
    obtain ⟨y, second, decoded'⟩ := readCells_decodes tree addressCells size h sound fewSize
      at_size fitsSize
    refine ⟨0, x, y, ?_, .inl ⟨rfl, decoded, decoded'⟩⟩
    rw [range_second _ _ first, second]
    rfl
  · intro address size address' size' returned
    obtain ⟨x, first⟩ := goesOn_of_fits tree 0 address
      h sound fewAddress rfl fitsAddress
    obtain ⟨y, second⟩ := goesOn_of_fits tree addressCells size h sound fewSize at_size fitsSize
    rw [range_second _ _ first, second] at returned
    cases returned

/-- While the address is as before, a failure leaves both outputs alone. -/
lemma range_unchanged (h : IsStr name s) (sound : ∀ prop ∈ node.props, prop.Sound)
    (first : readCells (some tree) node name addressCells.toNat address 0 = some (true, address))
    (returned : dtbPropReadAddressRange (some tree) node name addressCells sizeCells address size =
      some (-1, address', size')) : address' = address ∧ size' = size := by
  rw [range_second _ _ first] at returned
  cases second : readCells (some tree) node name sizeCells.toNat size addressCells with
  | none => simp [second] at returned
  | some result =>
    obtain ⟨goesOn, size''⟩ := result
    rw [second] at returned
    cases goesOn with
    | true => cases returned
    | false =>
      cases returned
      exact ⟨rfl, readCells_unchanged h sound second⟩

/-- The read of the address is turned down. -/
lemma decodesRange_address (h : IsStr name s) (sound : ∀ prop ∈ node.props, prop.Sound)
    (count : addressCells.toNat = 1 ∨ addressCells.toNat = 2)
    (short : ∀ prop ∈ propNamed node s, prop.dataLen < 4) :
    DecodesRange (propNamed node s) addressCells.toNat sizeCells.toNat
      (dtbPropReadAddressRange (some tree) node name addressCells sizeCells) := by
  have first : ∀ address : BitVec 64, readCells (some tree) node name addressCells.toNat (some address) 0 =
      some (false, some address) := by
    intro address
    refine readCells_rejected h sound count fun prop named => ?_
    have lt := short prop named
    rw [pastData_iff, show (0 : BitVec 32).toInt = 0 from rfl]
    omega
  constructor
  · intro address size
    exact ⟨-1, address, size, range_stopped (first address), .inr rfl⟩
  · intro address size address' size' returned
    cases address with
    | none => exact range_unchanged h sound rfl returned
    | some address =>
      rw [range_stopped (first address)] at returned
      cases returned
      exact ⟨rfl, rfl⟩

/-- The address is not read, and the read of the size is turned down. -/
lemma decodesRange_size (h : IsStr name s) (sound : ∀ prop ∈ node.props, prop.Sound)
    (many : 3 ≤ addressCells.toNat) (count : sizeCells.toNat = 1 ∨ sizeCells.toNat = 2)
    (short : ∀ prop ∈ propNamed node s, pastData addressCells prop.dataLen = true) :
    DecodesRange (propNamed node s) addressCells.toNat sizeCells.toNat
      (dtbPropReadAddressRange (some tree) node name addressCells sizeCells) := by
  constructor
  · intro address size
    refine ⟨-1, address, size, ?_, .inr rfl⟩
    rw [range_second _ _ (readCells_many many), readCells_rejected h sound count short]
    rfl
  · intro address size address' size' returned
    exact range_unchanged h sound (readCells_many many) returned

/-- No output is right whatever it holds, and left alone. -/
lemma not_decoded_all {prop : Option DtbProp} {first : Nat} (all : ∀ x, Decoded prop first cells x) :
    False := by
  have same := (all 0).unique (all 1)
  contradiction

section Necessary
variable (d : DecodesRange (propNamed node s) addressCells.toNat sizeCells.toNat
  (dtbPropReadAddressRange (some tree) node name addressCells sizeCells))
include d

/-- Both outputs hold their cells. -/
lemma DecodesRange.decoded {x y old old' : BitVec 64}
    (first : readCells (some tree) node name addressCells.toNat (some old) 0 = some (true, some x))
    (second : readCells (some tree) node name sizeCells.toNat (some old') addressCells =
      some (true, some y)) :
    Decoded (propNamed node s) 0 addressCells.toNat x ∧
      Decoded (propNamed node s) addressCells.toNat sizeCells.toNat y := by
  obtain ⟨r, address', size', returned, decoded⟩ := d.success old old'
  rw [range_second _ _ first, second] at returned
  cases returned
  obtain ⟨-, decoded⟩ | failed := decoded
  · exact decoded
  · cases failed

/-- Once the address has changed, the size is to be decoded. -/
lemma DecodesRange.second_fits {x old : BitVec 64} (changed : x ≠ old)
    (first : readCells (some tree) node name addressCells.toNat (some old) 0 = some (true, some x)) :
    sizeCells.toNat ≤ 2 ∧ (sizeCells.toNat = 0 ∨
      ∃ prop ∈ propNamed node s, 4 * (addressCells.toNat + sizeCells.toNat) ≤ prop.dataLen) := by
  have goesOn : ∀ old', ∃ y,
      readCells (some tree) node name sizeCells.toNat (some old') addressCells = some (true, some y) := by
    intro old'
    obtain ⟨r, address', size', returned, -⟩ := d.success old old'
    have range := range_second sizeCells (some old') first
    cases second : readCells (some tree) node name sizeCells.toNat (some old') addressCells with
    | none =>
      rw [range, second] at returned
      cases returned
    | some result =>
      obtain ⟨goesOn, y⟩ := result
      rw [second] at range
      cases goesOn with
      | false =>
        have unchanged := (d.failure range).1
        exact absurd (Option.some.inj unchanged) changed
      | true =>
        rw [range] at returned
        cases returned
        exact ⟨size', rfl⟩
  obtain ⟨y, second⟩ := goesOn 0
  refine ⟨?_, (d.decoded first second).2.imp And.left fun ⟨prop, named, le, _⟩ => ⟨prop, named, le⟩⟩
  by_contra many
  exact not_decoded_all fun old' => (d.decoded first (readCells_many (by omega))).2

/-- What has to hold for the call to decode the range or to fail. -/
lemma DecodesRange.condition (h : IsStr name s) (sound : ∀ prop ∈ node.props, prop.Sound) :
    (addressCells.toNat = 0 ∧ sizeCells.toNat = 0) ∨
    (addressCells.toNat ≤ 2 ∧ sizeCells.toNat ≤ 2 ∧ ∃ prop ∈ propNamed node s,
      4 * (addressCells.toNat + sizeCells.toNat) ≤ prop.dataLen) ∨
    ((addressCells.toNat = 1 ∨ addressCells.toNat = 2) ∧
      ∀ prop ∈ propNamed node s, prop.dataLen < 4) ∨
    (3 ≤ addressCells.toNat ∧ (sizeCells.toNat = 1 ∨ sizeCells.toNat = 2) ∧
      ∀ prop ∈ propNamed node s, pastData addressCells prop.dataLen = true) := by
  rcases (by omega : addressCells.toNat = 0 ∨ (addressCells.toNat = 1 ∨ addressCells.toNat = 2) ∨
    3 ≤ addressCells.toNat) with zero | count | many
  · -- no cells: the address is set to zero
    have first : readCells (some tree) node name addressCells.toNat (some 1) 0 = some (true, some 0) := by
      rw [zero]
      rfl
    obtain ⟨few, none | fits⟩ := d.second_fits (by decide) first
    · exact .inl ⟨zero, none⟩
    · exact .inr (.inl ⟨by omega, few, fits⟩)
  · rcases readCells_cases tree 0 0 h sound count with
      ⟨rejected, -⟩ | ⟨prop, named, inside, -⟩ | ⟨-, faults⟩
    · refine .inr (.inr (.inl ⟨count, fun prop named => ?_⟩))
      have past := rejected prop named
      rw [pastData_iff, show (0 : BitVec 32).toInt = 0 from rfl] at past
      omega
    · -- a value that differs from what the output held shows that it was read
      obtain ⟨x, -, value⟩ := readCells_inside tree 0 h sound count named inside
      obtain ⟨x', first, value'⟩ := readCells_inside tree (x + 1) h sound count named inside
      have same : x' = x := BitVec.eq_of_toNat_eq (value'.trans value.symm)
      have changed : x' ≠ x + 1 := by
        rw [same]
        bv_omega
      obtain ⟨few, none | fits⟩ := d.second_fits changed first
      · refine .inr (.inl ⟨by omega, few, prop, named, ?_⟩)
        have le := inside.2
        rw [show (0 : BitVec 32).toInt = 0 from rfl] at le
        omega
      · exact .inr (.inl ⟨by omega, few, fits⟩)
    · obtain ⟨r, address', size', returned, -⟩ := d.success 0 0
      rw [dtbPropReadAddressRange, faults] at returned
      cases returned
  · -- three cells or more leave the output as it was, so it cannot be decoded
    have stuck : ∀ y old', readCells (some tree) node name sizeCells.toNat (some old') addressCells ≠
        some (true, some y) := by
      intro y old' second
      exact not_decoded_all fun x => (d.decoded (readCells_many many) second).1
    rcases (by omega : sizeCells.toNat = 0 ∨ (sizeCells.toNat = 1 ∨ sizeCells.toNat = 2) ∨
      3 ≤ sizeCells.toNat) with zero | count | many'
    · refine absurd ?_ (stuck 0 0)
      rw [zero]
      rfl
    · rcases readCells_cases tree addressCells 0 h sound count with
        ⟨rejected, -⟩ | ⟨-, -, -, y, second⟩ | ⟨-, faults⟩
      · exact .inr (.inr (.inr ⟨many, count, rejected⟩))
      · exact absurd second (stuck y 0)
      · obtain ⟨r, address', size', returned, -⟩ := d.success 0 0
        rw [range_second _ _ (readCells_many many), faults] at returned
        cases returned
    · exact absurd (readCells_many many') (stuck 0 0)

end Necessary

/-- For every node, name and counts of cells, and outputs that are not `NULL`: a return of 0 means that
both outputs are decoded from their cells and -1 that neither has changed, if and only if both counts are
0; or both are at most 2 and the property has all these cells; or the address has one or two and the
property is missing or shorter than one; or the address has more than two, the size one or two, and its
read is turned down. -/
theorem dtb_prop_read_address_range_iff (tree : Gentree DtbNode) (addressCells sizeCells : BitVec 32)
    (h : IsStr name s) (sound : ∀ prop ∈ node.props, prop.Sound) :
    DecodesRange (propNamed node s) addressCells.toNat sizeCells.toNat
        (dtbPropReadAddressRange (some tree) node name addressCells sizeCells) ↔
      (addressCells.toNat = 0 ∧ sizeCells.toNat = 0) ∨
      (addressCells.toNat ≤ 2 ∧ sizeCells.toNat ≤ 2 ∧ ∃ prop ∈ propNamed node s,
        4 * (addressCells.toNat + sizeCells.toNat) ≤ prop.dataLen) ∨
      ((addressCells.toNat = 1 ∨ addressCells.toNat = 2) ∧
        ∀ prop ∈ propNamed node s, prop.dataLen < 4) ∨
      (3 ≤ addressCells.toNat ∧ (sizeCells.toNat = 1 ∨ sizeCells.toNat = 2) ∧
        ∀ prop ∈ propNamed node s, pastData addressCells prop.dataLen = true) := by
  constructor
  · intro d
    exact d.condition h sound
  · rintro (⟨zero, zero'⟩ | ⟨few, few', fits⟩ | ⟨count, short⟩ | ⟨many, count, short⟩)
    · exact decodesRange_fits h sound (by omega) (by omega) (.inl ⟨zero, zero'⟩)
    · exact decodesRange_fits h sound few few' (.inr fits)
    · exact decodesRange_address h sound count short
    · exact decodesRange_size h sound many count short

end Range

/-- An address of one cell and a size of one cell. -/
theorem dtb_prop_read_address_range_iff_two :
    DecodesRange (propNamed (xNode [0, 0, 0, 1, 0, 0, 0, 2]) [120]) (1 : BitVec 32).toNat
      (1 : BitVec 32).toNat
      (dtbPropReadAddressRange (some gentreeCreate) (xNode [0, 0, 0, 1, 0, 0, 0, 2]) [120, 0] 1 1) :=
  (dtb_prop_read_address_range_iff gentreeCreate 1 1 isStr_x (xNode_sound _)).mpr
    (.inr (.inl ⟨by decide, by decide, _, rfl, by decide⟩))

/-- The size is missing: -1 is returned, and the address has changed. -/
theorem dtb_prop_read_address_range_changed :
    dtbPropReadAddressRange (some gentreeCreate) (xNode [0, 0, 0, 1]) [120, 0] 1 1 (some 7) (some 7) =
        some (-1, some 1, some 7) ∧
      ¬ DecodesRange (propNamed (xNode [0, 0, 0, 1]) [120]) 1 1
        (dtbPropReadAddressRange (some gentreeCreate) (xNode [0, 0, 0, 1]) [120, 0] 1 1) := by
  have returned : dtbPropReadAddressRange (some gentreeCreate) (xNode [0, 0, 0, 1]) [120, 0] 1 1 (some 7)
      (some 7) = some (-1, some 1, some 7) := rfl
  refine ⟨returned, fun d => ?_⟩
  have unchanged := (d.failure returned).1
  contradiction

end WivOS.Utils
