import WivOS.Lib.Radix

/-!
# Two formats of one radix tree

Two memories whose words have different formats, with the same frames at the same paths and leaves that
look the same (`Alike`). The operations keep them alike: they take the same frames from the same supply,
run into the same leaves and run out of frames together.
-/

namespace WivOS.Lib.Radix
variable {F I V V' W W' U : Type*}

/-- The same frames at the same paths, and leaves that look the same. -/
structure Alike (fmt : Format F V W) (fmt' : Format F V' W') (view : V → U) (view' : V' → U) (top : Nat)
    (root : F) (m : Memory F I W) (m' : Memory F I W') : Prop where
  tables : ∀ r, tableAt fmt m top root r = tableAt fmt' m' top root r
  leaves : ∀ r, (lookup fmt m top root r).map (fun x => (x.1, view x.2.1, x.2.2)) =
    (lookup fmt' m' top root r).map fun x => (x.1, view' x.2.1, x.2.2)

section Slots
variable {fmt : Format F V W} {fmt' : Format F V' W'} {view : V → U} {view' : V' → U} {top : Nat}
  {root f : F} {p : List I} {k : I} {m : Memory F I W} {m' : Memory F I W'}

/-- An entry of a frame, by what is below it. -/
lemma slot_cases (fmt : Format F V W) (l : Nat) (f : F) (k : I) (m : Memory F I W) :
    (tableAt fmt m l f [k] = none ∧ lookup fmt m l f [k] = none ∧
      fmt.decode l (m.entry f k) = .empty) ∨
    (∃ g, tableAt fmt m l f [k] = some g ∧ lookup fmt m l f [k] = none ∧
      fmt.decode l (m.entry f k) = .table g) ∨
    ∃ v, tableAt fmt m l f [k] = none ∧ lookup fmt m l f [k] = some (l, v, []) ∧
      fmt.decode l (m.entry f k) = .leaf v := by
  cases hd : fmt.decode l (m.entry f k) with
  | empty => exact .inl ⟨tableAt_none (by simp [hd]), lookup_empty hd, rfl⟩
  | leaf v => exact .inr (.inr ⟨v, tableAt_none (by simp [hd]), lookup_leaf hd, rfl⟩)
  | table g =>
    cases l with
    | zero => exact absurd hd fmt.not_table
    | succ l => exact .inr (.inl ⟨g, by rw [tableAt_table hd, tableAt_nil], by rw [lookup_table hd, lookup_nil],
        rfl⟩)

/-- The entries of the same frame look the same. -/
lemma Alike.slots (h : Alike fmt fmt' view view' top root m m') (k : I)
    (hp : tableAt fmt m top root p = some f) :
    (fmt.decode (top - p.length) (m.entry f k) = .empty ∧
      fmt'.decode (top - p.length) (m'.entry f k) = .empty) ∨
    (∃ g, fmt.decode (top - p.length) (m.entry f k) = .table g ∧
      fmt'.decode (top - p.length) (m'.entry f k) = .table g) ∨
    ∃ v v', fmt.decode (top - p.length) (m.entry f k) = .leaf v ∧
      fmt'.decode (top - p.length) (m'.entry f k) = .leaf v' ∧ view v = view' v' := by
  have hp' : tableAt fmt' m' top root p = some f := by rw [← h.tables, hp]
  have tables : tableAt fmt m (top - p.length) f [k] = tableAt fmt' m' (top - p.length) f [k] := by
    have := h.tables (p ++ [k])
    rwa [tableAt_append, hp, tableAt_append, hp', Option.bind_some, Option.bind_some] at this
  have leaves := h.leaves (p ++ [k])
  rw [lookup_append, lookup_of_tableAt hp, hp, lookup_append, lookup_of_tableAt hp', hp'] at leaves
  simp only [Option.bind_some] at leaves
  obtain ⟨t, e, d⟩ | ⟨g, t, e, d⟩ | ⟨v, t, e, d⟩ := slot_cases fmt (top - p.length) f k m
  · obtain ⟨-, -, d'⟩ | ⟨g', t', -, -⟩ | ⟨v', -, e', -⟩ := slot_cases fmt' (top - p.length) f k m'
    · exact .inl ⟨d, d'⟩
    · simp [t, t'] at tables
    · simp [e, e'] at leaves
  · obtain ⟨t', -, -⟩ | ⟨g', t', -, d'⟩ | ⟨v', t', -, -⟩ := slot_cases fmt' (top - p.length) f k m'
    · simp [t, t'] at tables
    · obtain rfl : g = g' := by simpa [t, t'] using tables
      exact .inr (.inl ⟨g, d, d'⟩)
    · simp [t, t'] at tables
  · obtain ⟨-, e', -⟩ | ⟨g', -, e', -⟩ | ⟨v', -, e', d'⟩ := slot_cases fmt' (top - p.length) f k m'
    · simp [e, e'] at leaves
    · simp [e, e'] at leaves
    · exact .inr (.inr ⟨v, v', d, d', by simpa [e, e'] using leaves⟩)

/-- Empty frames are alike. -/
lemma Alike.zeroed (hz : ∀ k, m.entry root k = fmt.zero) (hz' : ∀ k, m'.entry root k = fmt'.zero) :
    Alike fmt fmt' view view' top root m m' := by
  constructor
  · intro r
    cases r with
    | nil => rw [tableAt_nil, tableAt_nil]
    | cons k r =>
      rw [tableAt_none (by simp [hz, fmt.decode_zero]), tableAt_none (by simp [hz', fmt'.decode_zero])]
  · intro r
    rw [lookup_zeroed hz, lookup_zeroed hz']
    rfl

/-- The two trees stay alike when the same frames are handed out. -/
lemma Alike.frames (h : Alike fmt fmt' view view' top root m m') (fs : List F) :
    Alike fmt fmt' view view' top root { m with frames := fs } { m' with frames := fs } where
  tables r := by
    simp only [tableAt_frames]
    exact h.tables r
  leaves r := by
    simp only [lookup_frames]
    exact h.leaves r

end Slots

section Operations
variable [DecidableEq F] [DecidableEq I]
variable {fmt : Format F V W} {fmt' : Format F V' W'} {view : V → U} {view' : V' → U} {top : Nat}
  {root f g : F} {p q : List I} {k : I} {m : Memory F I W} {m' : Memory F I W'} {w : W} {w' : W'}
  {fs : List F}

/-- Leaves that look the same are written to the same entry. -/
lemma Alike.writeLeaf {v : V} {v' : V'} (h : Alike fmt fmt' view view' top root m m')
    (hT : Tree fmt top root m) (hT' : Tree fmt' top root m') (hp : tableAt fmt m top root p = some f)
    (hw : fmt.decode (top - p.length) w = .leaf v) (hw' : fmt'.decode (top - p.length) w' = .leaf v')
    (same : view v = view' v') :
    Alike fmt fmt' view view' top root (m.write f k w) (m'.write f k w') := by
  have hp' : tableAt fmt' m' top root p = some f := by rw [← h.tables, hp]
  constructor
  · intro r
    by_cases hr : p ++ [k] <+: r
    · obtain ⟨t, rfl⟩ := exists_of_through hr
      rw [hT.tableAt_write_below hp, hT'.tableAt_write_below hp', tableAt_none (by simp [hw]),
        tableAt_none (by simp [hw'])]
    · rw [hT.tableAt_write_other hp hr, hT'.tableAt_write_other hp' hr, h.tables]
  · intro r
    by_cases hr : p ++ [k] <+: r
    · obtain ⟨t, rfl⟩ := exists_of_through hr
      rw [hT.lookup_write_below hp, hT'.lookup_write_below hp', lookup_leaf (by simpa using hw),
        lookup_leaf (by simpa using hw')]
      simp [same]
    · rw [hT.lookup_write_other hp hr, hT'.lookup_write_other hp' hr, h.leaves]

/-- The same entry is cleared. -/
lemma Alike.clear (h : Alike fmt fmt' view view' top root m m') (hT : Tree fmt top root m)
    (hT' : Tree fmt' top root m') (hp : tableAt fmt m top root p = some f) (k : I) :
    Alike fmt fmt' view view' top root (m.write f k fmt.zero) (m'.write f k fmt'.zero) ∧
      Tree fmt top root (m.write f k fmt.zero) ∧ Tree fmt' top root (m'.write f k fmt'.zero) := by
  have hp' : tableAt fmt' m' top root p = some f := by rw [← h.tables, hp]
  have cleared := hT.clear (k := k) hp
  have cleared' := hT'.clear (k := k) hp'
  refine ⟨⟨fun r => ?_, fun r => ?_⟩, cleared.tree, cleared'.tree⟩
  · by_cases hr : p ++ [k] <+: r
    · obtain ⟨t, rfl⟩ := exists_of_through hr
      rw [cleared.below, cleared'.below]
    · rw [cleared.tables hr, cleared'.tables hr, h.tables]
  · by_cases hr : p ++ [k] <+: r
    · obtain ⟨t, rfl⟩ := exists_of_through hr
      rw [cleared.here, cleared'.here]
      rfl
    · rw [cleared.elsewhere hr, cleared'.elsewhere hr, h.leaves]

/-- The same fresh frame is linked into the same empty entry. -/
lemma Alike.link (h : Alike fmt fmt' view view' top root m m') (hT : Tree fmt top root m)
    (hT' : Tree fmt' top root m') (hp : tableAt fmt m top root p = some f) (hl : p.length < top)
    (hu : fmt.Usable g) (hu' : fmt'.Usable g) (hg : ∀ r, tableAt fmt m top root r ≠ some g)
    (hd : fmt.decode (top - p.length) (m.entry f k) = .empty)
    (hd' : fmt'.decode (top - p.length) (m'.entry f k) = .empty) :
    Alike fmt fmt' view view' top root (m.link fmt f k g) (m'.link fmt' f k g) := by
  have hp' : tableAt fmt' m' top root p = some f := by rw [← h.tables, hp]
  have hg' : ∀ r, tableAt fmt' m' top root r ≠ some g := by
    intro r
    rw [← h.tables]
    exact hg r
  constructor
  · intro r
    by_cases hr : p ++ [k] <+: r
    · obtain ⟨t, rfl⟩ := exists_of_through hr
      rw [hT.tableAt_link_below hg hp hu hl, hT'.tableAt_link_below hg' hp' hu' hl]
    · rw [hT.tableAt_link_other hg hp hr, hT'.tableAt_link_other hg' hp' hr, h.tables]
  · intro r
    rw [hT.lookup_link hg hp hu hl hd, hT'.lookup_link hg' hp' hu' hl hd', h.leaves]

/-- Two trees that are alike, with the same frames to be handed out. -/
structure Twins (fmt : Format F V W) (fmt' : Format F V' W') (view : V → U) (view' : V' → U) (top : Nat)
    (root : F) (m : Memory F I W) (m' : Memory F I W') : Prop
    extends Alike fmt fmt' view view' top root m m' where
  tree : Tree fmt top root m
  tree' : Tree fmt' top root m'
  supply : Supply fmt top root m
  supply' : Supply fmt' top root m'
  same : m'.frames = m.frames

/-- One step down in both trees. -/
lemma Twins.getOrAlloc (h : Twins fmt fmt' view view' top root m m')
    (hp : tableAt fmt m top root p = some f) (hl : p.length < top)
    (hk : lookup fmt m top root (p ++ [k]) = none) :
    (∃ g n n', Radix.getOrAlloc fmt (top - p.length) f k m = .ok (g, n) ∧
      Radix.getOrAlloc fmt' (top - p.length) f k m' = .ok (g, n') ∧
      Twins fmt fmt' view view' top root n n' ∧ Grown fmt top root m n ∧
      tableAt fmt n top root (p ++ [k]) = some g) ∨
    (Radix.getOrAlloc fmt (top - p.length) f k m = .error .outOfFrames ∧
      Radix.getOrAlloc fmt' (top - p.length) f k m' = .error .outOfFrames) := by
  have hp' : tableAt fmt' m' top root p = some f := by rw [← h.tables, hp]
  obtain ⟨hd, hd'⟩ | ⟨g, hd, hd'⟩ | ⟨v, -, hd, -, -⟩ := h.toAlike.slots k hp
  · cases hf : m.frames with
    | nil =>
      have hf' : m'.frames = [] := by rw [h.same, hf]
      exact .inr ⟨by simp only [Radix.getOrAlloc, hd, hf], by simp only [Radix.getOrAlloc, hd', hf']⟩
    | cons g fs =>
      have hf' : m'.frames = g :: fs := by rw [h.same, hf]
      have grown := Grown.link h.tree h.supply hp hl hd hf
      have grown' := Grown.link h.tree' h.supply' hp' hl hd' hf'
      have mem : g ∈ m.frames := by simp [hf]
      have mem' : g ∈ m'.frames := by simp [hf']
      have fresh : ∀ r, tableAt fmt { m with frames := fs } top root r ≠ some g := by
        intro r
        rw [tableAt_frames]
        exact h.supply.fresh g mem r
      have linked := (h.toAlike.frames fs).link (k := k) h.tree.frames h.tree'.frames
        (by rwa [tableAt_frames]) hl (h.supply.usable g mem) (h.supply'.usable g mem') fresh hd hd'
      refine .inl ⟨g, _, _, by simp only [Radix.getOrAlloc, hd, hf], by simp only [Radix.getOrAlloc, hd', hf'],
        ⟨linked, grown.tree, grown'.tree, grown.supply, grown'.supply, rfl⟩, grown, ?_⟩
      rw [Tree.tableAt_link_below h.tree.frames fresh (by rwa [tableAt_frames])
        (h.supply.usable g mem) hl, if_pos rfl]
  · exact .inl ⟨g, m, m', by simp only [Radix.getOrAlloc, hd], by simp only [Radix.getOrAlloc, hd'], h,
      .refl h.tree h.supply, tableAt_concat hp hd hl⟩
  · exact absurd hd (not_leaf_of_clear hp hk v)

/-- Down a path in both trees. -/
lemma Twins.descendAlloc (h : Twins fmt fmt' view view' top root m m')
    (hq : tableAt fmt m top root q = some f) (hl : q.length + p.length ≤ top)
    (hp : lookup fmt m top root (q ++ p) = none) :
    (∃ g n n', Radix.descendAlloc fmt (top - q.length) f p m = .ok (g, n) ∧
      Radix.descendAlloc fmt' (top - q.length) f p m' = .ok (g, n') ∧
      Twins fmt fmt' view view' top root n n' ∧ Grown fmt top root m n ∧
      tableAt fmt n top root (q ++ p) = some g) ∨
    (Radix.descendAlloc fmt (top - q.length) f p m = .error .outOfFrames ∧
      Radix.descendAlloc fmt' (top - q.length) f p m' = .error .outOfFrames) := by
  induction p generalizing q f m m' with
  | nil =>
    exact .inl ⟨f, m, m', by simp [Radix.descendAlloc], by simp [Radix.descendAlloc], h,
      .refl h.tree h.supply, by simpa using hq⟩
  | cons k p ih =>
    rw [List.length_cons] at hl
    have hk : lookup fmt m top root (q ++ [k]) = none :=
      lookup_none_of_append (q := p) (by simpa using hp)
    have level : top - (q ++ [k]).length = top - q.length - 1 := by simp; omega
    obtain ⟨g, n, n', e, e', twins, grown, ht⟩ | ⟨e, e'⟩ := h.getOrAlloc hq (by omega) hk
    · have clear : lookup fmt n top root (q ++ [k] ++ p) = none := by
        rw [grown.lookup]
        simpa using hp
      have step := ih twins ht (by simp; omega) clear
      rw [level, ← List.append_cons] at step
      have down : Radix.descendAlloc fmt (top - q.length) f (k :: p) m =
          Radix.descendAlloc fmt (top - q.length - 1) g p n := by
        simp only [Radix.descendAlloc, e]
        rfl
      have down' : Radix.descendAlloc fmt' (top - q.length) f (k :: p) m' =
          Radix.descendAlloc fmt' (top - q.length - 1) g p n' := by
        simp only [Radix.descendAlloc, e']
        rfl
      rw [down, down']
      obtain ⟨g', o, o', d, d', twins', grown', ht'⟩ | stuck := step
      · exact .inl ⟨g', o, o', d, d', twins', grown.trans grown', ht'⟩
      · exact .inr stuck
    · refine .inr ⟨?_, ?_⟩
      · simp only [Radix.descendAlloc, e]
        rfl
      · simp only [Radix.descendAlloc, e']
        rfl

/-- A leaf that looks the same is put into its place in both trees. -/
lemma Twins.mapLeaf {v : V} {v' : V'} (h : Twins fmt fmt' view view' top root m m') (hl : p.length ≤ top)
    (hp : lookup fmt m top root p = none) (hw : fmt.decode (top - p.length) w = .leaf v)
    (hw' : fmt'.decode (top - p.length) w' = .leaf v') (same : view v = view' v')
    (hs : fmt.Sane (top - p.length) w) (hs' : fmt'.Sane (top - p.length) w') :
    (∃ n n', Radix.mapLeaf fmt top root p k w m = .ok n ∧ Radix.mapLeaf fmt' top root p k w' m' = .ok n' ∧
      Twins fmt fmt' view view' top root n n' ∧
      ∀ r, ¬ p ++ [k] <+: r → lookup fmt n top root r = lookup fmt m top root r) ∨
    (Radix.mapLeaf fmt top root p k w m = .error .outOfFrames ∧
      Radix.mapLeaf fmt' top root p k w' m' = .error .outOfFrames) := by
  have nolink : ∀ g, fmt.decode (top - p.length) w ≠ .table g := by simp [hw]
  have nolink' : ∀ g, fmt'.decode (top - p.length) w' ≠ .table g := by simp [hw']
  have step := h.descendAlloc (q := []) (p := p) tableAt_nil (by simpa using hl) hp
  rw [List.length_nil, Nat.sub_zero, List.nil_append] at step
  obtain ⟨f, n, n', e, e', twins, grown, ht⟩ | ⟨e, e'⟩ := step
  · have ht' : tableAt fmt' n' top root p = some f := by rw [← twins.tables, ht]
    refine .inl ⟨n.write f k w, n'.write f k w', ?_, ?_, ?_, ?_⟩
    · simp only [Radix.mapLeaf, e]
      rfl
    · simp only [Radix.mapLeaf, e']
      rfl
    · exact ⟨twins.toAlike.writeLeaf twins.tree twins.tree' ht hw hw' same,
        twins.tree.write ht nolink hs, twins.tree'.write ht' nolink' hs',
        twins.supply.write twins.tree ht nolink, twins.supply'.write twins.tree' ht' nolink', twins.same⟩
    · intro r hr
      rw [twins.tree.lookup_write_other ht hr, grown.lookup]
  · refine .inr ⟨?_, ?_⟩
    · simp only [Radix.mapLeaf, e]
      rfl
    · simp only [Radix.mapLeaf, e']
      rfl

end Operations

end WivOS.Lib.Radix
