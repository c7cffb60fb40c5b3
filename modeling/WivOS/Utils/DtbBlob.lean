import WivOS.Utils.DtbTree

/-!
# The tokens that the loop processes

`Processed` are the states in which the loop of `dtb_init` takes on a token. `Flattened` is the encoding
of a device tree as a blob; where the loop gets to its `FDT_END`, the tree that it has built is the one
that was encoded (`dtb_init_decodes`). The bound of the loop is the size of the structure block in the
wrong byte order, and `token_bound_iff` says for which blobs this makes no difference.
-/

namespace WivOS.Utils

/-- The states in which the loop of `dtb_init` processes a token. -/
inductive Processed (header : FdtHeader) (blob : Bytes) : DtbState → Prop where
  | start : dtbChecks blob = some true → fdtHeader blob = some header →
      0 < header.sizeDtStruct.toNat → Processed header blob dtbStart
  | next {s token blockSize s'} : Processed header blob s →
      parseBlock header blob s = some (token, blockSize, s') → token ≠ fdtEnd →
      s'.parsedSize + blockSize < header.sizeDtStruct.toNat →
      Processed header blob { s' with parsedSize := s'.parsedSize + blockSize }

/-- The bytes of a block, with the strings block. -/
inductive Encodes (strings : Bytes) : Token → Bytes → Prop where
  | beginNode {name padding} : 0 ∉ name → padding.length < 4 → 4 ∣ name.length + 1 + padding.length →
      Encodes strings (.beginNode name) (cell fdtBeginNode ++ (name ++ 0 :: padding))
  | prop {name data nameoff padding} : IsStr (strings.drop nameoff) name → nameoff < 2 ^ 32 →
      data.length < 2 ^ 32 → padding.length < 4 → 4 ∣ data.length + padding.length →
      Encodes strings (.prop name data)
        (cell fdtProp ++ (cell data.length ++ (cell nameoff ++ (data ++ padding))))
  | endNode : Encodes strings .endNode (cell fdtEndNode)
  | nop : Encodes strings .nop (cell fdtNop)

/-- A flattened encoding of a device tree, of version 17. -/
structure Flattened (blob : Bytes) (t : DeviceTree) where
  offDtStruct : Nat
  offDtStrings : Nat
  lastCompVersion : Nat
  sizeDtStruct : Nat
  items : List Token
  blocks : List Bytes
  rest : Bytes
  magic : CellAt blob 0 0xD00DFEED
  structAt : CellAt blob 8 offDtStruct
  stringsAt : CellAt blob 12 offDtStrings
  version : CellAt blob 20 17
  compatible : CellAt blob 24 lastCompVersion ∧ lastCompVersion ≤ 17
  sizeAt : CellAt blob 36 sizeDtStruct
  tokens : items.filter (· ≠ .nop) = t.tokens
  encodes : List.Forall₂ (Encodes (blob.drop offDtStrings)) items blocks
  structBlock : blob.drop offDtStruct = blocks.flatten ++ (cell fdtEnd ++ rest)

section Loop
variable {header : FdtHeader} {blob : Bytes} {s : DtbState}

/-- A block has a cell at least. -/
lemma Token.four_le_size (token : Token) : 4 ≤ token.size := by
  have : 4 ≤ token.blockSize := by
    cases token <;> (simp only [Token.blockSize]; omega)
  unfold Token.size roundUp
  omega

/-- The offset does not matter for a token, and is not changed by it. -/
lemma Token.apply_parsedSize (token : Token) (s : DtbState) (k : Nat) :
    token.apply { s with parsedSize := k } = (token.apply s).map fun s => { s with parsedSize := k } := by
  obtain ⟨_, tree, _, currentNode⟩ := s
  cases token with
  | beginNode name =>
    simp only [Token.apply]
    cases gentreeInsert tree currentNode _ <;> rfl
  | prop name data =>
    simp only [Token.apply]
    cases currentNode with
    | none => rfl
    | some n =>
      simp only [Option.bind_eq_bind, Option.bind_some, Gentree.modifyValue]
      cases tree.nodes n <;> rfl
  | endNode =>
    simp only [Token.apply, Utils.endNode]
    cases currentNode with
    | none => rfl
    | some n =>
      simp only [Option.bind_eq_bind, Option.bind_some]
      cases tree.nodes n with
      | none => rfl
      | some g =>
        simp only [Option.bind_some]
        split
        · rfl
        · cases gentreeGetParent tree n with
          | none => rfl
          | some parent => cases parent <;> rfl
  | other _ => rfl

/-- What a token does does not move the offset. -/
lemma Token.apply_offset {token : Token} {s s' : DtbState} (h : token.apply s = some s') :
    s'.parsedSize = s.parsedSize := by
  have same := token.apply_parsedSize s s.parsedSize
  rw [h, Option.map_some, Option.some.injEq] at same
  rw [same]

/-- A token that was read and applied. -/
lemma parseBlock_eq_some {token blockSize : Nat} {s' : DtbState} :
    parseBlock header blob s = some (token, blockSize, s') ↔
      ∃ tok, readToken header blob s.parsedSize = some tok ∧ tok.apply s = some s' ∧
        tok.code = token ∧ tok.size = blockSize := by
  rw [parseBlock_eq]
  simp only [Option.bind_eq_some_iff, Option.map_eq_some_iff, Prod.mk.injEq]
  constructor
  · rintro ⟨tok, read, _, apply, rfl, rfl, rfl⟩
    exact ⟨tok, read, apply, rfl, rfl⟩
  · rintro ⟨tok, read, apply, rfl, rfl⟩
    exact ⟨tok, read, _, apply, rfl, rfl, rfl⟩

/-- The loop processes tokens inside the size that the header gives. -/
lemma Processed.bound (h : Processed header blob s) : s.parsedSize < header.sizeDtStruct.toNat := by
  cases h with
  | start _ _ pos => exact pos
  | next _ _ _ lt => exact lt

/-- The checks of the blob have passed. -/
lemma Processed.loaded (h : Processed header blob s) :
    dtbChecks blob = some true ∧ fdtHeader blob = some header := by
  induction h with
  | start checks loaded _ => exact ⟨checks, loaded⟩
  | next _ _ _ _ ih => exact ih

/-- The loop goes on from a state in which it processes a token. -/
lemma Processed.loop (h : Processed header blob s) :
    ∃ fuel, header.sizeDtStruct.toNat < fuel + s.parsedSize ∧
      parseLoop header blob (header.sizeDtStruct.toNat + 1) dtbStart = parseLoop header blob fuel s := by
  induction h with
  | start _ _ _ => exact ⟨_, Nat.lt_add_right _ (Nat.lt_succ_self _), rfl⟩
  | @next s token blockSize s' h block more _ ih =>
    obtain ⟨fuel, enough, run⟩ := ih
    have bound := h.bound
    obtain ⟨fuel, rfl⟩ : ∃ k, fuel = k + 1 := ⟨fuel - 1, by omega⟩
    obtain ⟨tok, _, apply, _, rfl⟩ := parseBlock_eq_some.mp block
    have := tok.four_le_size
    refine ⟨fuel, ?_, ?_⟩
    · show header.sizeDtStruct.toNat < fuel + (s'.parsedSize + tok.size)
      rw [Token.apply_offset apply]
      omega
    · rw [run]
      simp [parseLoop, bound, block, more]

/-- `dtb_init` returns once `FDT_END` is processed. -/
lemma Processed.returns (h : Processed header blob s)
    (finish : readToken header blob s.parsedSize = some .finish) (dtbNodes : Option (Gentree DtbNode)) :
    dtbInit dtbNodes blob = some (0, some s.tree) := by
  obtain ⟨checks, loaded⟩ := h.loaded
  have bound := h.bound
  obtain ⟨fuel, enough, run⟩ := h.loop
  obtain ⟨fuel, rfl⟩ : ∃ k, fuel = k + 1 := ⟨fuel - 1, by omega⟩
  have block : parseBlock header blob s = some (fdtEnd, Token.finish.size, s) :=
    parseBlock_eq_some.mpr ⟨.finish, finish, rfl, rfl, rfl⟩
  have last : parseLoop header blob (fuel + 1) s = some s := by simp [parseLoop, bound, block]
  simp [dtbInit, checks, loaded, run, last]

end Loop

/-- The tokens between two offsets of the structure block. -/
inductive TokensAt (header : FdtHeader) (blob : Bytes) : Nat → List Token → Nat → Prop where
  | nil {offset} : TokensAt header blob offset [] offset
  | cons {offset token tokens stop} : readToken header blob offset = some token → token.code ≠ fdtEnd →
      TokensAt header blob (offset + token.size) tokens stop →
      TokensAt header blob offset (token :: tokens) stop

section Walk
variable {header : FdtHeader} {blob : Bytes} {s s' : DtbState} {tokens : List Token} {offset stop : Nat}

/-- A state of the loop, with its offset. -/
def DtbState.at (s : DtbState) (offset : Nat) : DtbState := { s with parsedSize := offset }

/-- The tree at another offset. -/
@[simp] lemma DtbState.at_tree : (s.at offset).tree = s.tree := rfl

/-- The offset itself. -/
@[simp] lemma DtbState.at_parsedSize : (s.at offset).parsedSize = offset := rfl

/-- Tokens take the loop forward. -/
lemma TokensAt.le (h : TokensAt header blob offset tokens stop) : offset ≤ stop := by
  induction h with
  | nil => exact Nat.le_refl _
  | cons _ _ _ ih => omega

/-- One more token at the end. -/
lemma TokensAt.snoc {token : Token} (h : TokensAt header blob offset tokens stop)
    (read : readToken header blob stop = some token) (more : token.code ≠ fdtEnd) :
    TokensAt header blob offset (tokens ++ [token]) (stop + token.size) := by
  induction h with
  | nil => exact .cons read more .nil
  | cons read' more' _ ih => exact .cons read' more' (ih read)

/-- A token that can be applied leads to the next offset, if this is below the bound. -/
lemma Processed.step {token : Token} (h : Processed header blob (s.at offset))
    (read : readToken header blob offset = some token) (more : token.code ≠ fdtEnd)
    (apply : token.apply s = some s') (bound : offset + token.size < header.sizeDtStruct.toNat) :
    Processed header blob (s'.at (offset + token.size)) := by
  have apply' : token.apply (s.at offset) = some (s'.at offset) := by
    unfold DtbState.at
    rw [Token.apply_parsedSize, apply]
    rfl
  exact .next h (parseBlock_eq_some.mpr ⟨token, read, apply', rfl, rfl⟩) more bound

/-- Tokens that can be applied are processed, up to one below the bound. -/
lemma Processed.run (h : Processed header blob (s.at offset))
    (ht : TokensAt header blob offset tokens stop) (apply : tokens.foldlM Token.apply s = some s')
    (bound : stop < header.sizeDtStruct.toNat) : Processed header blob (s'.at stop) := by
  induction ht generalizing s with
  | nil =>
    cases apply
    exact h
  | cons read more rest ih =>
    rw [List.foldlM_cons, Option.bind_eq_bind, Option.bind_eq_some_iff] at apply
    obtain ⟨s₁, first, apply⟩ := apply
    have := rest.le
    exact ih (h.step read more first (by omega)) apply bound

/-- What was processed of the tokens up to `FDT_END`. -/
lemma Processed.split (h : Processed header blob s) (ht : TokensAt header blob 0 tokens stop)
    (finish : readToken header blob stop = some .finish) :
    ∃ before behind, tokens = before ++ behind ∧ TokensAt header blob 0 before s.parsedSize ∧
      TokensAt header blob s.parsedSize behind stop ∧
      ∃ s₀, before.foldlM Token.apply dtbStart = some s₀ ∧ s = s₀.at s.parsedSize := by
  induction h with
  | start => exact ⟨[], tokens, rfl, .nil, ht, dtbStart, rfl, rfl⟩
  | @next s token blockSize s' h block more _ ih =>
    obtain ⟨before, behind, rfl, walked, left, s₀, run, hs⟩ := ih
    obtain ⟨tok, read, apply, rfl, rfl⟩ := parseBlock_eq_some.mp block
    have offset := Token.apply_offset apply
    cases left with
    | nil =>
      rw [finish] at read
      cases read
      exact absurd rfl more
    | @cons _ tok' behind _ read' more' left' =>
      rw [read] at read'
      cases read'
      rw [hs, DtbState.at, Token.apply_parsedSize] at apply
      obtain ⟨s₁, apply₁, rfl⟩ := Option.map_eq_some_iff.mp apply
      refine ⟨before ++ [tok], behind, by simp, walked.snoc read more, left', s₁, ?_, rfl⟩
      simp [List.foldlM_append, run, apply₁]

end Walk

section Encoding
variable {header : FdtHeader} {blob strings bytes rest : Bytes} {token : Token} {offset n : Nat}

/-- A cell has 4 bytes. -/
@[simp] lemma cell_length : (cell n).length = 4 := rfl

/-- A cell is loaded as its number. -/
lemma load32_cell (hn : n < 2 ^ 32) (h : blob.drop offset = cell n ++ rest) :
    ∃ x, load32 blob offset = some x ∧ (be32 x).toNat = n := CellAt.load ⟨hn, rest, h⟩

/-- What follows a cell. -/
lemma drop_cell (h : blob.drop offset = cell n ++ rest) : blob.drop (offset + 4) = rest := by
  rw [← List.drop_drop, h]
  rfl

/-- A block has the size of its token. -/
lemma Encodes.length (h : Encodes strings token bytes) : bytes.length = token.size := by
  cases h with
  | beginNode _ short aligned =>
    simp only [List.length_append, cell_length, List.length_cons, Token.size, Token.blockSize, roundUp]
    omega
  | prop _ _ _ short aligned =>
    simp only [List.length_append, cell_length, Token.size, Token.blockSize, roundUp]
    omega
  | endNode => rfl
  | nop => rfl

/-- No block of an encoding is `FDT_END`. -/
lemma Encodes.more (h : Encodes strings token bytes) : token.code ≠ fdtEnd := by
  cases h <;> simp [Token.code, Token.nop, fdtEnd, fdtBeginNode, fdtProp, fdtEndNode, fdtNop]

/-- A block is read as the token that it encodes. -/
lemma Encodes.read (h : Encodes (blob.drop (be32 header.offDtStrings).toNat) token bytes)
    (hb : blob.drop ((be32 header.offDtStruct).toNat + offset) = bytes ++ rest) :
    readToken header blob offset = some token := by
  cases h with
  | @beginNode name padding h0 _ _ =>
    rw [List.append_assoc] at hb
    obtain ⟨x, load, value⟩ := load32_cell (by decide) hb
    have data := drop_cell hb
    have isStr : IsStr (name ++ 0 :: padding ++ rest) name := ⟨h0, padding ++ rest, by simp⟩
    simp only [readToken, load, Option.bind_some, value, readBlock, if_pos, readBegin, data,
      strlen_eq isStr, Option.map_some]
    simp
  | @prop name data nameoff padding isStr hn hlen _ _ =>
    simp only [List.append_assoc] at hb
    obtain ⟨x, load, value⟩ := load32_cell (by decide) hb
    have hb₁ := drop_cell hb
    obtain ⟨x₁, load₁, value₁⟩ := load32_cell hlen hb₁
    have hb₂ := drop_cell hb₁
    obtain ⟨x₂, load₂, value₂⟩ := load32_cell hn hb₂
    have hb₃ := drop_cell hb₂
    have string : getStringFromDtb header blob nameoff =
        (blob.drop (be32 header.offDtStrings).toNat).drop nameoff := by
      rw [getStringFromDtb, List.drop_drop]
    have copied : copyBytes (data ++ (padding ++ rest)) data.length = some data := by
      simp [copyBytes]
    obtain ⟨_, tail, split⟩ := id isStr
    have name_eq : ((blob.drop (be32 header.offDtStrings).toNat).drop nameoff).take name.length = name := by
      rw [split]
      simp
    have kind : fdtProp ≠ fdtBeginNode := by decide
    simp only [readToken, load, Option.bind_some, value, readBlock, if_neg kind, if_pos, readProp, load₁,
      load₂, value₁, value₂, string, strlen_eq isStr, hb₃, copied, name_eq, Option.bind_eq_bind]
    rfl
  | endNode =>
    obtain ⟨x, load, value⟩ := load32_cell (by decide) hb
    simp [readToken, load, value, readBlock, fdtEndNode, fdtBeginNode, fdtProp]
  | nop =>
    obtain ⟨x, load, value⟩ := load32_cell (by decide) hb
    simp [readToken, load, value, readBlock, fdtEndNode, fdtBeginNode, fdtProp, fdtNop, Token.nop]

/-- Blocks one behind the other are read as their tokens. -/
lemma tokensAt_of_encodes {tokens : List Token} {blocks : List Bytes}
    (h : List.Forall₂ (Encodes (blob.drop (be32 header.offDtStrings).toNat)) tokens blocks)
    (hb : blob.drop ((be32 header.offDtStruct).toNat + offset) = blocks.flatten ++ rest) :
    TokensAt header blob offset tokens (offset + blocks.flatten.length) := by
  induction h generalizing offset with
  | nil => exact .nil
  | @cons token bytes tokens blocks first _ ih =>
    rw [List.flatten_cons, List.append_assoc] at hb
    have length := first.length
    have behind : blob.drop ((be32 header.offDtStruct).toNat + (offset + token.size)) =
        blocks.flatten ++ rest := by
      rw [← Nat.add_assoc, ← List.drop_drop, hb, ← length, List.drop_left]
    have stop : offset + (bytes :: blocks).flatten.length = offset + token.size + blocks.flatten.length := by
      rw [List.flatten_cons, List.length_append, length]
      omega
    rw [stop]
    exact .cons (first.read hb) first.more (ih behind)

end Encoding

section Decode
variable {header : FdtHeader} {blob : Bytes} {t : DeviceTree} {s : DtbState}

/-- `FDT_NOP` changes nothing. -/
lemma foldlM_filter_nop (tokens : List Token) (s : DtbState) :
    (tokens.filter (· ≠ .nop)).foldlM Token.apply s = tokens.foldlM Token.apply s := by
  induction tokens generalizing s with
  | nil => rfl
  | cons token tokens ih =>
    by_cases h : token = .nop
    · subst h
      simpa [Token.apply, Token.nop] using ih s
    · rw [List.filter_cons_of_pos (by simpa using h), List.foldlM_cons, List.foldlM_cons]
      simp only [ih]

/-- The header of an encoding passes the checks. -/
lemma Flattened.loaded (f : Flattened blob t) :
    ∃ header, dtbChecks blob = some true ∧ fdtHeader blob = some header ∧
      (be32 header.offDtStruct).toNat = f.offDtStruct ∧
      (be32 header.offDtStrings).toNat = f.offDtStrings ∧
      (be32 header.sizeDtStruct).toNat = f.sizeDtStruct := by
  obtain ⟨magic, load₀, value₀⟩ := f.magic.load
  obtain ⟨offStruct, load₁, value₁⟩ := f.structAt.load
  obtain ⟨offStrings, load₂, value₂⟩ := f.stringsAt.load
  obtain ⟨version, load₃, value₃⟩ := f.compatible.1.load
  obtain ⟨size, load₄, value₄⟩ := f.sizeAt.load
  refine ⟨⟨offStruct, offStrings, size⟩, ?_, by simp [fdtHeader, load₁, load₂, load₄], value₁, value₂,
    value₄⟩
  have isMagic : be32 magic = 0xD00DFEED := BitVec.eq_of_toNat_eq value₀
  have compatible : be32 version ≤ 17#32 := by
    rw [BitVec.le_def, value₃]
    exact f.compatible.2
  simp [dtbChecks, load₀, isMagic, load₃, compatible]

/-- The items of an encoding are read one after the other, and then `FDT_END`. -/
lemma Flattened.tokensAt (f : Flattened blob t) (hh : fdtHeader blob = some header) :
    TokensAt header blob 0 f.items f.blocks.flatten.length ∧
      readToken header blob f.blocks.flatten.length = some .finish := by
  obtain ⟨header', _, hh', offStruct, offStrings, _⟩ := f.loaded
  obtain rfl : header' = header := Option.some.inj (hh'.symm.trans hh)
  have encodes := f.encodes
  have block := f.structBlock
  rw [← offStrings] at encodes
  rw [← offStruct] at block
  refine ⟨?_, ?_⟩
  · have walk : TokensAt header' blob 0 f.items (0 + _) := tokensAt_of_encodes encodes block
    rwa [Nat.zero_add] at walk
  · have behind : blob.drop ((be32 header'.offDtStruct).toNat + f.blocks.flatten.length) =
        cell fdtEnd ++ f.rest := by
      rw [← List.drop_drop, block, List.drop_left]
    obtain ⟨x, load, value⟩ := load32_cell (by decide) behind
    simp only [readToken, load, Option.bind_some, value]
    rfl

/-- The tokens of an encoding build its device tree. -/
lemma Flattened.builds (f : Flattened blob t) :
    ∃ s r, f.items.foldlM Token.apply dtbStart = some s ∧ s.tree.root = some r ∧ Holds s.tree r t := by
  have fresh : Fresh dtbStart := ⟨rfl, rfl, rfl⟩
  obtain ⟨s, r, run, root, holds⟩ := fresh.builds t
  rw [← f.tokens, foldlM_filter_nop] at run
  exact ⟨s, r, run, root, holds⟩

/-- The blocks before the bound are processed. -/
lemma Flattened.processed (f : Flattened blob t) (hh : fdtHeader blob = some header)
    {before behind : List Bytes} (split : f.blocks = before ++ behind)
    (bound : before.flatten.length < header.sizeDtStruct.toNat) :
    ∃ s, Processed header blob s ∧ s.parsedSize = before.flatten.length := by
  obtain ⟨header', checks, hh', offStruct, offStrings, _⟩ := f.loaded
  obtain rfl : header' = header := Option.some.inj (hh'.symm.trans hh)
  have encodes := List.forall₂_take before.length f.encodes
  have block := f.structBlock
  rw [← offStrings, split, List.take_left] at encodes
  rw [← offStruct, split, List.flatten_append, List.append_assoc] at block
  have walk : TokensAt header' blob 0 _ (0 + _) := tokensAt_of_encodes encodes block
  rw [Nat.zero_add] at walk
  obtain ⟨s, r, run, _⟩ := f.builds
  rw [← List.take_append_drop before.length f.items, List.foldlM_append, Option.bind_eq_bind,
    Option.bind_eq_some_iff] at run
  obtain ⟨s₁, run, _⟩ := run
  have start : Processed header' blob (dtbStart.at 0) := .start checks hh (by omega)
  exact ⟨_, start.run walk run bound, rfl⟩

/-- A root with a property `x` and a child `c`. -/
def sampleTree (data : Bytes) : DeviceTree := .node [] [([120], data)] [.node [99] [] []]

/-- Its tokens, with an `FDT_NOP` in the child. -/
def sampleItems (data : Bytes) : List Token :=
  [.beginNode [], .prop [120] data, .beginNode [99], .nop, .endNode, .endNode]

/-- Their blocks. -/
def sampleBlocks (data : Bytes) : List Bytes :=
  [cell fdtBeginNode ++ ([] ++ 0 :: [0, 0, 0]), cell fdtProp ++ (cell data.length ++ (cell 0 ++ (data ++ []))),
    cell fdtBeginNode ++ ([99] ++ 0 :: [0, 0]), cell fdtNop, cell fdtEndNode, cell fdtEndNode]

/-- Its blob, with the strings block before the structure block. -/
def sampleBlob (data : Bytes) : Bytes :=
  cell 0xD00DFEED ++ (cell (data.length + 88) ++ (cell 44 ++ (cell 40 ++ (cell 40 ++ (cell 17 ++ (cell 16 ++
    (cell 0 ++ (cell 4 ++ (cell (data.length + 44) ++ ([120, 0, 0, 0] ++
      ((sampleBlocks data).flatten ++ (cell fdtEnd ++ []))))))))))))

/-- The blob is an encoding of the tree. -/
def sampleFlattened {data : Bytes} (aligned : 4 ∣ data.length) (short : data.length + 44 < 2 ^ 32) :
    Flattened (sampleBlob data) (sampleTree data) where
  offDtStruct := 44
  offDtStrings := 40
  lastCompVersion := 16
  sizeDtStruct := data.length + 44
  items := sampleItems data
  blocks := sampleBlocks data
  rest := []
  magic := ⟨by decide, _, rfl⟩
  structAt := ⟨by decide, _, rfl⟩
  stringsAt := ⟨by decide, _, rfl⟩
  version := ⟨by decide, _, rfl⟩
  compatible := ⟨⟨by decide, _, rfl⟩, by decide⟩
  sizeAt := ⟨short, _, rfl⟩
  tokens := by
    simp [sampleItems, sampleTree, DeviceTree.tokens, forestTokens, Token.nop]
  encodes := by
    have strings : IsStr (((sampleBlob data).drop 40).drop 0) [120] := ⟨by decide, _, rfl⟩
    refine .cons (.beginNode (by decide) (by decide) (by decide)) (.cons ?_ (.cons ?_ ?_))
    · exact .prop strings (by decide) (by omega) (by decide) (by simpa using aligned)
    · exact .beginNode (by decide) (by decide) (by decide)
    · exact .cons .nop (.cons .endNode (.cons .endNode .nil))
  structBlock := rfl

/-- Where the loop of `dtb_init` gets to `FDT_END`, it has decoded the device tree. -/
theorem dtb_init_decodes (f : Flattened blob t) {size : Nat} {s' : DtbState}
    (reached : Processed header blob s) (finish : parseBlock header blob s = some (fdtEnd, size, s'))
    (dtbNodes : Option (Gentree DtbNode)) :
    ∃ tree r, dtbInit dtbNodes blob = some (0, some tree) ∧ tree.root = some r ∧ Holds tree r t := by
  obtain ⟨_, hh⟩ := reached.loaded
  obtain ⟨walk, stop⟩ := f.tokensAt hh
  obtain ⟨tok, read, _, code, _⟩ := parseBlock_eq_some.mp finish
  obtain ⟨before, behind, split, _, left, s₀, run, hs⟩ := reached.split walk stop
  obtain ⟨s₁, r, run₁, root, holds⟩ := f.builds
  generalize f.blocks.flatten.length = last at left stop
  cases left with
  | nil =>
    rw [List.append_nil] at split
    rw [split, run] at run₁
    cases run₁
    have tree : s.tree = s₀.tree := by rw [hs]; rfl
    exact ⟨s₀.tree, r, by rw [reached.returns stop, tree], root, holds⟩
  | cons read' more _ =>
    rw [read] at read'
    cases read'
    exact absurd code more

/-- A blob whose size is read as 805306368 instead of 48. -/
theorem dtb_init_decodes_sample :
    ∃ tree r, dtbInit none (sampleBlob [1, 2, 3, 4]) = some (0, some tree) ∧ tree.root = some r ∧
      Holds tree r (sampleTree [1, 2, 3, 4]) := by
  let f : Flattened (sampleBlob [1, 2, 3, 4]) (sampleTree [1, 2, 3, 4]) :=
    sampleFlattened (by decide) (by decide)
  obtain ⟨header, hh, bound⟩ : ∃ header, fdtHeader (sampleBlob [1, 2, 3, 4]) = some header ∧
      f.blocks.flatten.length < header.sizeDtStruct.toNat := ⟨_, rfl, by decide⟩
  obtain ⟨s, reached, last⟩ := f.processed hh (List.append_nil _).symm bound
  have finish : parseBlock header (sampleBlob [1, 2, 3, 4]) s = some (fdtEnd, Token.finish.size, s) :=
    parseBlock_eq_some.mpr ⟨.finish, last ▸ (f.tokensAt hh).2, rfl, rfl, rfl⟩
  exact dtb_init_decodes f reached finish none

end Decode

namespace Token

/-- The tokens that are about the current node. -/
def needsNode : Token → Bool
  | prop _ _ | endNode => true
  | beginNode _ | other _ => false

/-- The token begins a node. -/
def begins : Token → Bool
  | beginNode _ => true
  | prop _ _ | endNode | other _ => false

end Token

/-- The offsets of the tokens of a structure block, from the size of each token to the next up to
`FDT_END`, and whether a node has begun. -/
inductive TokenAt (header : FdtHeader) (blob : Bytes) : Nat → Bool → Prop where
  | start : TokenAt header blob 0 false
  | next {offset began token} : TokenAt header blob offset began →
      readToken header blob offset = some token → token.code ≠ fdtEnd →
      (token.needsNode = true → began = true) →
      TokenAt header blob (offset + token.size) (began || token.begins)

/-- The state of the loop, by whether a node has begun. -/
def Valid (s : DtbState) : Bool → Prop
  | false => Fresh s
  | true => ∃ n g, Parsing s n g

section Bound
variable {header : FdtHeader} {blob : Bytes} {s s' : DtbState} {token : Token} {began : Bool} {offset : Nat}

/-- The offset does not matter. -/
lemma Valid.at (h : Valid s began) (offset : Nat) : Valid (s.at offset) began := by
  cases began with
  | false =>
    have h : Fresh s := h
    exact Fresh.mk h.tree h.current h.found
  | true =>
    obtain ⟨n, g, h⟩ := h
    exact ⟨n, g, h.grown, h.node, h.current, h.found, h.rooted⟩

/-- Every token can be applied below a node. -/
lemma Parsing.apply {n : Nat} {g : GentreeNode DtbNode} (h : Parsing s n g) (token : Token) :
    ∃ s', token.apply s = some s' ∧ Valid s' true := by
  cases token with
  | beginNode name =>
    obtain ⟨s', apply, h', _⟩ := h.beginNode name
    exact ⟨s', apply, _, _, h'⟩
  | prop name data =>
    obtain ⟨s', apply, h', _⟩ := h.prop name data
    exact ⟨s', apply, _, _, h'⟩
  | endNode =>
    obtain root | ⟨p, g', hp, hc⟩ := h.grown.linked h.node
    · exact ⟨s, h.endRoot root, n, g, h⟩
    · obtain ⟨apply, h'⟩ := h.endChild hp hc
      exact ⟨_, apply, _, _, h'⟩
  | other _ => exact ⟨s, rfl, n, g, h⟩

/-- A token can be applied unless it is about a node and none has begun. -/
lemma Valid.apply (h : Valid s began) (node : token.needsNode = true → began = true) :
    ∃ s', token.apply s = some s' ∧ Valid s' (began || token.begins) := by
  cases began with
  | true =>
    obtain ⟨n, g, h⟩ := h
    exact h.apply token
  | false =>
    have h : Fresh s := h
    cases token with
    | beginNode name =>
      obtain ⟨s', apply, h', _⟩ := h.beginNode name
      exact ⟨s', apply, _, _, h'⟩
    | prop name data => cases node rfl
    | endNode => cases node rfl
    | other _ => exact ⟨s, rfl, h⟩

/-- A token that is about the current node comes behind the begin of one. -/
lemma Valid.needsNode (h : Valid s began) (apply : token.apply s = some s')
    (node : token.needsNode = true) : began = true := by
  cases began with
  | true => rfl
  | false =>
    have h : Fresh s := h
    cases token with
    | beginNode _ => cases node
    | prop name data => simp [Token.apply, h.current] at apply
    | endNode => simp [Token.apply, endNode, h.current] at apply
    | other _ => cases node

/-- The tokens that are processed stand at the offsets below the bound. -/
lemma processed_iff (checks : dtbChecks blob = some true) (hh : fdtHeader blob = some header) :
    (∃ s, Processed header blob s ∧ s.parsedSize = offset) ↔
      (∃ began, TokenAt header blob offset began) ∧ offset < header.sizeDtStruct.toNat := by
  constructor
  · rintro ⟨s, h, rfl⟩
    refine ⟨?_, h.bound⟩
    suffices ∃ began, TokenAt header blob s.parsedSize began ∧ Valid s began by
      obtain ⟨began, walk, _⟩ := this
      exact ⟨began, walk⟩
    induction h with
    | start => exact ⟨false, .start, rfl, rfl, rfl⟩
    | @next s token blockSize s' h block more _ ih =>
      obtain ⟨began, walk, valid⟩ := ih
      obtain ⟨tok, read, apply, rfl, rfl⟩ := parseBlock_eq_some.mp block
      have node := valid.needsNode apply
      obtain ⟨s'', apply', valid'⟩ := valid.apply node
      rw [apply, Option.some.injEq] at apply'
      subst apply'
      refine ⟨_, ?_, valid'.at _⟩
      show TokenAt header blob (s'.parsedSize + tok.size) _
      rw [Token.apply_offset apply]
      exact .next walk read more node
  · rintro ⟨⟨began, walk⟩, bound⟩
    suffices ∃ s, Processed header blob (s.at offset) ∧ Valid s began by
      obtain ⟨s, h, _⟩ := this
      exact ⟨_, h, rfl⟩
    induction walk with
    | start => exact ⟨dtbStart, .start checks hh bound, rfl, rfl, rfl⟩
    | @next offset began token walk read more node ih =>
      have := token.four_le_size
      obtain ⟨s, h, valid⟩ := ih (by omega)
      obtain ⟨s', apply, valid'⟩ := valid.apply node
      exact ⟨s', h.step read more apply bound, valid'⟩

end Bound

/-- The size of the structure block in the header is the one that it has. -/
def Flattened.Exact {blob : Bytes} {t : DeviceTree} (f : Flattened blob t) : Prop :=
  f.sizeDtStruct = f.blocks.flatten.length + 4

/-- The loop processes tokens in the structure block only, and all of them in an encoding. -/
def BoundsTokens (header : FdtHeader) (blob : Bytes) : Prop :=
  (∀ s, Processed header blob s → s.parsedSize < (be32 header.sizeDtStruct).toNat) ∧
  ∀ t (f : Flattened blob t), f.Exact → ∀ before behind, f.blocks = before ++ behind →
    ∃ s, Processed header blob s ∧ s.parsedSize = before.flatten.length

section Bound
variable {header : FdtHeader} {blob : Bytes} {t : DeviceTree}

/-- The bound of the loop is right if and only if it lets no token through that stands behind the
structure block, and the last block of an encoding stands before it. -/
theorem token_bound_iff (checks : dtbChecks blob = some true) (hh : fdtHeader blob = some header) :
    BoundsTokens header blob ↔
      (∀ offset began, TokenAt header blob offset began → offset < header.sizeDtStruct.toNat →
        offset < (be32 header.sizeDtStruct).toNat) ∧
      ∀ t (f : Flattened blob t), f.Exact →
        (be32 header.sizeDtStruct).toNat < header.sizeDtStruct.toNat + 4 := by
  have size : ∀ t (f : Flattened blob t), f.Exact →
      (be32 header.sizeDtStruct).toNat = f.blocks.flatten.length + 4 := by
    intro t f exact
    obtain ⟨header', _, hh', _, _, size⟩ := f.loaded
    obtain rfl : header' = header := Option.some.inj (hh'.symm.trans hh)
    exact size.trans exact
  refine and_congr ?_ ?_
  · constructor
    · intro h offset began walk bound
      obtain ⟨s, processed, rfl⟩ := (processed_iff checks hh).mpr ⟨⟨began, walk⟩, bound⟩
      exact h s processed
    · intro h s processed
      obtain ⟨⟨began, walk⟩, bound⟩ := (processed_iff checks hh).mp ⟨s, processed, rfl⟩
      exact h _ began walk bound
  · refine forall_congr' fun t => forall_congr' fun f => forall_congr' fun exact => ?_
    have length := size t f exact
    constructor
    · intro h
      obtain ⟨s, processed, last⟩ := h f.blocks [] (List.append_nil _).symm
      have := processed.bound
      omega
    · intro bound before behind split
      refine f.processed hh split ?_
      have : f.blocks.flatten.length = before.flatten.length + behind.flatten.length := by
        rw [split, List.flatten_append, List.length_append]
      omega

/-- Of an encoding no more is processed than `FDT_END`. -/
lemma Flattened.processed_le (f : Flattened blob t) {s : DtbState} (h : Processed header blob s) :
    s.parsedSize ≤ f.blocks.flatten.length := by
  obtain ⟨checks, hh⟩ := h.loaded
  obtain ⟨walk, finish⟩ := f.tokensAt hh
  obtain ⟨_, _, _, _, left, _⟩ := h.split walk finish
  exact left.le

/-- A structure block of 48 bytes, of which none is at the wrong side of the bound. -/
theorem token_bound_iff_sample :
    ∃ header, fdtHeader (sampleBlob [1, 2, 3, 4]) = some header ∧
      BoundsTokens header (sampleBlob [1, 2, 3, 4]) := by
  let f : Flattened (sampleBlob [1, 2, 3, 4]) (sampleTree [1, 2, 3, 4]) :=
    sampleFlattened (by decide) (by decide)
  have checks : dtbChecks (sampleBlob [1, 2, 3, 4]) = some true := by decide
  obtain ⟨header, hh, size, bound⟩ : ∃ header, fdtHeader (sampleBlob [1, 2, 3, 4]) = some header ∧
      (be32 header.sizeDtStruct).toNat = 48 ∧ 48 < header.sizeDtStruct.toNat := ⟨_, rfl, by decide, by decide⟩
  refine ⟨header, hh, (token_bound_iff checks hh).mpr ⟨?_, fun _ _ _ => by omega⟩⟩
  intro offset began walk below
  obtain ⟨s, processed, rfl⟩ := (processed_iff checks hh).mpr ⟨⟨began, walk⟩, below⟩
  have last : f.blocks.flatten.length = 44 := rfl
  have := f.processed_le processed
  omega

/-- A structure block of 65536 bytes, of which 256 are parsed. -/
lemma not_boundsTokens {data : Bytes} (length : data.length = 65492) :
    ∃ header, dtbChecks (sampleBlob data) = some true ∧ fdtHeader (sampleBlob data) = some header ∧
      ¬ BoundsTokens header (sampleBlob data) := by
  let f : Flattened (sampleBlob data) (sampleTree data) :=
    sampleFlattened (by rw [length]; decide) (by rw [length]; decide)
  obtain ⟨header, checks, hh, _⟩ := f.loaded
  refine ⟨header, checks, hh, fun h => ?_⟩
  have size : cell (data.length + 44) = [0, 1, 0, 0] := by
    rw [length]
    decide
  have bound : header.sizeDtStruct.toNat = 256 := by
    obtain ⟨rest, drop⟩ : ∃ rest, (sampleBlob data).drop 36 = cell (data.length + 44) ++ rest := ⟨_, rfl⟩
    rw [size] at drop
    have load : load32 (sampleBlob data) 36 = some 256 := by
      rw [load32, drop]
      rfl
    simp only [fdtHeader, load, Option.bind_eq_bind, Option.bind_eq_some_iff] at hh
    obtain ⟨_, _, _, _, _, same, hh⟩ := hh
    cases same
    cases hh
    rfl
  have exact : f.Exact := by
    simp [Flattened.Exact, f, sampleFlattened, sampleBlocks, length]
  obtain ⟨s, processed, last⟩ := h.2 _ f exact f.blocks [] (List.append_nil _).symm
  have := processed.bound
  simp [f, sampleFlattened, sampleBlocks, length] at last
  omega

/-- The child behind a property of 65492 bytes is dropped. -/
theorem not_bounds_tokens_sample :
    ∃ header, dtbChecks (sampleBlob (List.replicate 65492 0)) = some true ∧
      fdtHeader (sampleBlob (List.replicate 65492 0)) = some header ∧
      ¬ BoundsTokens header (sampleBlob (List.replicate 65492 0)) :=
  not_boundsTokens List.length_replicate

end Bound

end WivOS.Utils
