import Mathlib.Tactic
import Mathlib.Data.List.Infix

/-!
# Radix tables in memory

A radix tree kept in frames of memory: `entry f k` is the word in slot `k` of frame `f`, and a
`Format` says what a word means at a level of the tree (nothing, a link to a frame one level down, a
leaf). `tableAt` and `lookup` follow a path of indices from a root; what they find depends on the
entries along the path only (`tableAt_congr`, `lookup_congr`).

`Wf` is the invariant of such a tree: no two paths lead to one frame, every entry is one the format
allows, and the frames still to be handed out are not part of it. The operations are `getOrAlloc` (one
step down, linking a fresh frame where there is none), `descendAlloc` (down a path) and writing a leaf
or an empty word; each has a spec lemma that says which paths it changes.
-/

namespace WivOS.Lib.Radix

/-- What a word means to a walk. -/
inductive Slot (F V : Type*) where
  | empty
  | table (f : F)
  | leaf (v : V)
deriving DecidableEq

/-- Why a run of table operations ends without a result. -/
inductive Stop where
  | outOfFrames
  | fault
deriving DecidableEq, Repr

/-- The words of a table: what they mean at a level, and which ones the operations write there. -/
structure Format (F V W : Type*) where
  decode : Nat → W → Slot F V
  zero : W
  link : F → W
  Usable : F → Prop
  Sane : Nat → W → Prop
  decode_zero : ∀ l, decode l zero = .empty
  sane_zero : ∀ l, Sane l zero
  decode_link : ∀ {f} l, Usable f → decode (l + 1) (link f) = .table f
  sane_link : ∀ {f} l, Usable f → Sane (l + 1) (link f)
  not_leaf_of_sane : ∀ {l w v}, Sane (l + 2) w → decode (l + 2) w ≠ .leaf v
  usable_of_sane : ∀ {l w f}, Sane l w → decode l w = .table f → Usable f
  zero_of_sane : ∀ {l w}, Sane l w → decode l w = .empty → w = zero
  not_table : ∀ {w f}, decode 0 w ≠ .table f

/-- Frames of memory, and the frames that an allocator is about to hand out. -/
structure Memory (F I W : Type*) where
  entry : F → I → W
  frames : List F

variable {F I W V : Type*} (fmt : Format F V W)

/-- The frame that a path leads to from frame `f` at level `l`. -/
def tableAt (m : Memory F I W) : Nat → F → List I → Option F
  | _, f, [] => some f
  | 0, _, _ :: _ => none
  | l + 1, f, k :: p =>
    match fmt.decode (l + 1) (m.entry f k) with
    | .table g => tableAt m l g p
    | _ => none

/-- The leaf that a path runs into: its level, its value and the indices left over. -/
def lookup (m : Memory F I W) : Nat → F → List I → Option (Nat × V × List I)
  | _, _, [] => none
  | 0, f, k :: p =>
    match fmt.decode 0 (m.entry f k) with
    | .leaf v => some (0, v, p)
    | _ => none
  | l + 1, f, k :: p =>
    match fmt.decode (l + 1) (m.entry f k) with
    | .leaf v => some (l + 1, v, p)
    | .table g => lookup m l g p
    | .empty => none

section Paths
variable {fmt} {m m' : Memory F I W} {l : Nat} {f g g' : F} {k : I} {p q r : List I} {v : V}

/-- The empty path stays at its frame. -/
@[simp] lemma tableAt_nil : tableAt fmt m l f [] = some f := by
  cases l <;> rfl

/-- The empty path reaches no leaf. -/
@[simp] lemma lookup_nil : lookup fmt m l f [] = none := by
  cases l <;> rfl

/-- A path goes on in the table that its first entry links. -/
lemma tableAt_table (h : fmt.decode (l + 1) (m.entry f k) = .table g) :
    tableAt fmt m (l + 1) f (k :: p) = tableAt fmt m l g p := by
  simp only [tableAt, h]

/-- So does the search for a leaf. -/
lemma lookup_table (h : fmt.decode (l + 1) (m.entry f k) = .table g) :
    lookup fmt m (l + 1) f (k :: p) = lookup fmt m l g p := by
  simp only [lookup, h]

/-- Below an empty entry is nothing. -/
lemma lookup_empty (h : fmt.decode l (m.entry f k) = .empty) :
    lookup fmt m l f (k :: p) = none := by
  cases l <;> simp only [lookup, h]

/-- A leaf ends the search, with what is left of the path. -/
lemma lookup_leaf (h : fmt.decode l (m.entry f k) = .leaf v) :
    lookup fmt m l f (k :: p) = some (l, v, p) := by
  cases l <;> simp only [lookup, h]

/-- No frame hangs below an entry that is no link. -/
lemma tableAt_none (h : ∀ g, fmt.decode l (m.entry f k) ≠ .table g) :
    tableAt fmt m l f (k :: p) = none := by
  cases l with
  | zero => rfl
  | succ l =>
    cases hd : fmt.decode (l + 1) (m.entry f k) with
    | table g => exact absurd hd (h g)
    | empty => simp only [tableAt, hd]
    | leaf v => simp only [tableAt, hd]

/-- A path is followed part after part. -/
lemma tableAt_append :
    tableAt fmt m l f (p ++ q) =
      (tableAt fmt m l f p).bind fun g => tableAt fmt m (l - p.length) g q := by
  induction p generalizing l f with
  | nil => simp
  | cons k p ih =>
    cases l with
    | zero => simp [tableAt]
    | succ l =>
      simp only [List.cons_append, tableAt]
      split
      · rw [ih, List.length_cons, Nat.succ_sub_succ]
      · rfl

/-- The frames along a path are at most one a level. -/
lemma tableAt_length (h : tableAt fmt m l f p = some g) : p.length ≤ l := by
  induction p generalizing l f with
  | nil => exact Nat.zero_le l
  | cons k p ih =>
    cases l with
    | zero => simp [tableAt] at h
    | succ l =>
      simp only [tableAt] at h
      split at h
      · exact Nat.succ_le_succ (ih h)
      · cases h

/-- A walk goes on from the frame its first part leads to, unless that part ran into a leaf. -/
lemma lookup_append :
    lookup fmt m l f (p ++ q) =
      match lookup fmt m l f p with
      | some (i, v, r) => some (i, v, r ++ q)
      | none => (tableAt fmt m l f p).bind fun g => lookup fmt m (l - p.length) g q := by
  induction p generalizing l f with
  | nil => simp
  | cons k p ih =>
    cases l with
    | zero => simp only [List.cons_append, lookup, tableAt]; split <;> rfl
    | succ l =>
      cases hd : fmt.decode (l + 1) (m.entry f k) with
      | empty => simp only [List.cons_append, lookup, tableAt, hd, Option.bind_none]
      | leaf v => simp only [List.cons_append, lookup, hd]
      | table g =>
        simp only [List.cons_append, lookup, tableAt, hd, List.length_cons, Nat.succ_sub_succ]
        exact ih

/-- A path that leads to a frame runs into no leaf. -/
lemma lookup_of_tableAt (h : tableAt fmt m l f p = some g) : lookup fmt m l f p = none := by
  induction p generalizing l f with
  | nil => exact lookup_nil
  | cons k p ih =>
    cases l with
    | zero => simp [tableAt] at h
    | succ l =>
      cases hd : fmt.decode (l + 1) (m.entry f k) with
      | empty => exact lookup_empty hd
      | leaf v => simp only [tableAt, hd] at h; cases h
      | table g' => rw [tableAt_table hd] at h; rw [lookup_table hd, ih h]

/-- A leaf that a walk finds is an entry of a frame on its path. -/
lemma lookup_some {i : Nat} (h : lookup fmt m l f r = some (i, v, q)) :
    ∃ p k g, r = p ++ k :: q ∧ tableAt fmt m l f p = some g ∧ i = l - p.length ∧
      fmt.decode i (m.entry g k) = .leaf v := by
  induction r generalizing l f with
  | nil => simp at h
  | cons k r ih =>
    cases hd : fmt.decode l (m.entry f k) with
    | empty => rw [lookup_empty hd] at h; cases h
    | leaf w =>
      rw [lookup_leaf hd] at h
      cases h
      exact ⟨[], k, f, rfl, tableAt_nil, rfl, hd⟩
    | table g =>
      cases l with
      | zero => simp only [lookup, hd] at h; cases h
      | succ l =>
        rw [lookup_table hd] at h
        obtain ⟨p, j, g', rfl, ht, rfl, hv⟩ := ih h
        exact ⟨k :: p, j, g', rfl, (tableAt_table hd).trans ht, by simp, hv⟩

/-- What a path does not reach, no beginning of it does. -/
lemma lookup_none_of_append (h : lookup fmt m l f (p ++ q) = none) : lookup fmt m l f p = none := by
  rw [lookup_append] at h
  split at h
  · cases h
  · assumption

/-- The entry that follows a path decides what the walk does there. -/
lemma tableAt_concat (hp : tableAt fmt m l f p = some g)
    (h : fmt.decode (l - p.length) (m.entry g k) = .table g') (hl : p.length < l) :
    tableAt fmt m l f (p ++ [k]) = some g' := by
  obtain ⟨i, hi⟩ : ∃ i, l - p.length = i + 1 := ⟨l - p.length - 1, by omega⟩
  rw [hi] at h
  rw [tableAt_append, hp, Option.bind_some, hi, tableAt_table h, tableAt_nil]

/-- Where the last entry is no leaf the path reaches none. -/
lemma lookup_concat_none (hp : tableAt fmt m l f p = some g)
    (h : ∀ v, fmt.decode (l - p.length) (m.entry g k) ≠ .leaf v) :
    lookup fmt m l f (p ++ [k]) = none := by
  rw [lookup_append, lookup_of_tableAt hp, hp, Option.bind_some]
  cases hd : fmt.decode (l - p.length) (m.entry g k) with
  | empty => exact lookup_empty hd
  | leaf v => exact absurd hd (h v)
  | table g' =>
    cases hl : l - p.length with
    | zero => simp only [lookup, hl ▸ hd]
    | succ i => rw [lookup_table (hl ▸ hd), lookup_nil]

/-- Where a path reaches nothing its last entry is no leaf. -/
lemma not_leaf_of_clear (hp : tableAt fmt m l f p = some g)
    (h : lookup fmt m l f (p ++ [k]) = none) (v : V) :
    fmt.decode (l - p.length) (m.entry g k) ≠ .leaf v := by
  intro hd
  rw [lookup_append, lookup_of_tableAt hp, hp, Option.bind_some, lookup_leaf hd] at h
  cases h

/-- `m'` has the words of `m` at every entry that the path `r` reads from frame `f`. -/
def AgreeAlong (fmt : Format F V W) (m m' : Memory F I W) (l : Nat) (f : F) (r : List I) : Prop :=
  ∀ p k g, tableAt fmt m l f p = some g → p ++ [k] <+: r → m'.entry g k = m.entry g k

/-- The memories agree on the first entry of the path. -/
lemma AgreeAlong.head (h : AgreeAlong fmt m m' l f (k :: r)) : m'.entry f k = m.entry f k :=
  h [] k f tableAt_nil (by simp)

/-- They agree along the path below it. -/
lemma AgreeAlong.tail (h : AgreeAlong fmt m m' (l + 1) f (k :: r))
    (hd : fmt.decode (l + 1) (m.entry f k) = .table g) : AgreeAlong fmt m m' l g r := by
  intro p j g' hp hr
  refine h (k :: p) j g' ?_ ?_
  · rw [tableAt_table hd, hp]
  · simpa using hr

/-- Memories that agree along a path lead it to the same frame. -/
lemma tableAt_congr (h : AgreeAlong fmt m m' l f r) :
    tableAt fmt m' l f r = tableAt fmt m l f r := by
  induction r generalizing l f with
  | nil => simp
  | cons k r ih =>
    cases l with
    | zero => rfl
    | succ l =>
      simp only [tableAt, h.head]
      split
      · rename_i g hg
        exact ih (h.tail hg)
      · rfl

/-- And to the same leaf. -/
lemma lookup_congr (h : AgreeAlong fmt m m' l f r) :
    lookup fmt m' l f r = lookup fmt m l f r := by
  induction r generalizing l f with
  | nil => simp
  | cons k r ih =>
    cases l with
    | zero => simp only [lookup, h.head]
    | succ l =>
      simp only [lookup, h.head]
      split
      · rfl
      · rename_i g hg
        exact ih (h.tail hg)
      · rfl

/-- A path through the entry `k` below `p` goes on from there. -/
lemma exists_of_through (h : p ++ [k] <+: r) : ∃ t, r = p ++ k :: t := by
  obtain ⟨t, rfl⟩ := h
  exact ⟨t, by simp⟩

end Paths

/-- The frames below `root` form a tree, and every entry in it is one the format allows. -/
structure Tree (top : Nat) (root : F) (m : Memory F I W) : Prop where
  distinct : ∀ {p q f}, tableAt fmt m top root p = some f → tableAt fmt m top root q = some f → p = q
  sane : ∀ {p f} k, tableAt fmt m top root p = some f → fmt.Sane (top - p.length) (m.entry f k)

/-- The frames to be handed out are usable, apart from each other and not part of the tree. -/
structure Supply (top : Nat) (root : F) (m : Memory F I W) : Prop where
  nodup : m.frames.Nodup
  usable : ∀ f ∈ m.frames, fmt.Usable f
  fresh : ∀ f ∈ m.frames, ∀ p, tableAt fmt m top root p ≠ some f

/-- `m'` is `m` with fresh frames linked into empty entries: no leaf moved. -/
structure Grown (top : Nat) (root : F) (m m' : Memory F I W) : Prop where
  tree : Tree fmt top root m'
  supply : Supply fmt top root m'
  lookup : ∀ r, Radix.lookup fmt m' top root r = Radix.lookup fmt m top root r
  tables : ∀ {q f}, tableAt fmt m top root q = some f → tableAt fmt m' top root q = some f
  frames : m'.frames <:+ m.frames

/-- `m'` is `m` without what was at entry `k` below `p`: nothing else has moved. -/
structure Cleared (fmt : Format F V W) (top : Nat) (root : F) (p : List I) (k : I)
    (m m' : Memory F I W) : Prop where
  tree : Tree fmt top root m'
  here : ∀ t, lookup fmt m' top root (p ++ k :: t) = none
  elsewhere : ∀ {r}, ¬ p ++ [k] <+: r → lookup fmt m' top root r = lookup fmt m top root r
  below : ∀ t, tableAt fmt m' top root (p ++ k :: t) = none
  tables : ∀ {r}, ¬ p ++ [k] <+: r → tableAt fmt m' top root r = tableAt fmt m top root r

section Invariant
variable {fmt} {top : Nat} {root f g : F} {k : I} {p r : List I} {m m' m₁ m₂ : Memory F I W}
  {fs : List F}

/-- Nothing linked. -/
lemma Grown.refl (hT : Tree fmt top root m) (hS : Supply fmt top root m) :
    Grown fmt top root m m :=
  ⟨hT, hS, fun _ => rfl, id, List.suffix_refl _⟩

/-- First some frames are linked and then others. -/
lemma Grown.trans (h₁ : Grown fmt top root m m₁) (h₂ : Grown fmt top root m₁ m₂) :
    Grown fmt top root m m₂ where
  tree := h₂.tree
  supply := h₂.supply
  lookup r := (h₂.lookup r).trans (h₁.lookup r)
  tables h := h₂.tables (h₁.tables h)
  frames := h₂.frames.trans h₁.frames

/-- No path reads the supply. -/
lemma agree_frames : AgreeAlong fmt m { m with frames := fs } top root r :=
  fun _ _ _ _ _ => rfl

/-- A walk does not depend on the frames to be handed out. -/
@[simp] lemma tableAt_frames :
    tableAt fmt { m with frames := fs } top root p = tableAt fmt m top root p :=
  tableAt_congr agree_frames

/-- Nor does the search for a leaf. -/
@[simp] lemma lookup_frames :
    lookup fmt { m with frames := fs } top root p = lookup fmt m top root p :=
  lookup_congr agree_frames

/-- A tree stays one with other frames to be handed out. -/
lemma Tree.frames (hT : Tree fmt top root m) : Tree fmt top root { m with frames := fs } where
  distinct h₁ h₂ := hT.distinct (tableAt_frames ▸ h₁) (tableAt_frames ▸ h₂)
  sane j h := hT.sane j (tableAt_frames ▸ h)

section Zeroed
variable (hz : ∀ k, m.entry root k = fmt.zero)
include hz

/-- A zeroed root is the only frame of its tree. -/
lemma tableAt_zeroed (h : tableAt fmt m top root p = some f) : p = [] ∧ f = root := by
  cases p with
  | nil =>
    rw [tableAt_nil, Option.some.injEq] at h
    exact ⟨rfl, h.symm⟩
  | cons k p =>
    rw [tableAt_none (by simp [hz, fmt.decode_zero])] at h
    cases h

/-- It has no leaves. -/
lemma lookup_zeroed : lookup fmt m top root p = none := by
  cases p with
  | nil => exact lookup_nil
  | cons k p => exact lookup_empty (by rw [hz, fmt.decode_zero])

/-- An empty frame is a tree. -/
lemma Tree.zeroed : Tree fmt top root m where
  distinct h₁ h₂ := (tableAt_zeroed hz h₁).1.trans (tableAt_zeroed hz h₂).1.symm
  sane k h := by
    rw [(tableAt_zeroed hz h).2, hz]
    exact fmt.sane_zero _

end Zeroed

/-- The frames of the tree are usable ones. -/
lemma tableAt_usable (hT : Tree fmt top root m) (hr : fmt.Usable root)
    (hp : tableAt fmt m top root p = some f) : fmt.Usable f := by
  induction p using List.reverseRecOn generalizing f with
  | nil =>
    rw [tableAt_nil, Option.some.injEq] at hp
    rwa [← hp]
  | append_singleton p k _ =>
    have hl := tableAt_length hp
    rw [tableAt_append] at hp
    obtain ⟨g, hg, hk⟩ := Option.bind_eq_some_iff.mp hp
    have hs := hT.sane k hg
    simp only [List.length_append, List.length_cons, List.length_nil] at hl
    obtain ⟨i, hi⟩ : ∃ i, top - p.length = i + 1 := ⟨top - p.length - 1, by omega⟩
    rw [hi] at hs hk
    cases hd : fmt.decode (i + 1) (m.entry g k) with
    | table g' =>
      rw [tableAt_table hd, tableAt_nil, Option.some.injEq] at hk
      exact hk ▸ fmt.usable_of_sane hs hd
    | empty => rw [tableAt_none (by simp [hd])] at hk; cases hk
    | leaf v => rw [tableAt_none (by simp [hd])] at hk; cases hk

/-- What was not there before is not there after. -/
lemma Cleared.lookup_none (h : Cleared fmt top root p k m m')
    (hr : lookup fmt m top root r = none) : lookup fmt m' top root r = none := by
  by_cases hpr : p ++ [k] <+: r
  · obtain ⟨t, rfl⟩ := exists_of_through hpr
    exact h.here t
  · rw [h.elsewhere hpr, hr]

/-- Clearing adds no tables. -/
lemma Cleared.tableAt_none (h : Cleared fmt top root p k m m')
    (hr : tableAt fmt m top root r = none) : tableAt fmt m' top root r = none := by
  by_cases hpr : p ++ [k] <+: r
  · obtain ⟨t, rfl⟩ := exists_of_through hpr
    exact h.below t
  · rw [h.tables hpr, hr]

/-- A frame outside the tree is none of its tables. -/
lemma ne_of_fresh (hg : ∀ p, tableAt fmt m top root p ≠ some g)
    (hp : tableAt fmt m top root p = some f) : g ≠ f := by
  rintro rfl
  exact hg p hp

end Invariant

section Write
variable [DecidableEq F]

/-- Stores one word in every entry of a frame. -/
def Memory.fill (m : Memory F I W) (f : F) (w : W) : Memory F I W :=
  { m with entry := fun g j => if g = f then w else m.entry g j }

variable {fmt} {top : Nat} {root f g : F} {k : I} {p r t : List I} {m : Memory F I W} {w : W} {v : V}

/-- No path notices what happens in a frame that is not part of the tree. -/
lemma agree_fill (hg : ∀ p, tableAt fmt m top root p ≠ some g) :
    AgreeAlong fmt m (m.fill g w) top root r := by
  intro q j f hq _
  simp only [Memory.fill, ite_eq_right_iff]
  rintro rfl
  exact absurd hq (hg q)

/-- A tree does not notice that a frame outside it is filled. -/
lemma Tree.fill (hT : Tree fmt top root m) (hg : ∀ p, tableAt fmt m top root p ≠ some g) :
    Tree fmt top root (m.fill g w) where
  distinct h₁ h₂ := by
    rw [tableAt_congr (agree_fill hg)] at h₁ h₂
    exact hT.distinct h₁ h₂
  sane {q f} j hq := by
    rw [tableAt_congr (agree_fill hg)] at hq
    have hne : f ≠ g := by rintro rfl; exact hg q hq
    simpa only [Memory.fill, if_neg hne] using hT.sane j hq

variable [DecidableEq I]

/-- Stores a word in an entry. -/
def Memory.write (m : Memory F I W) (f : F) (k : I) (w : W) : Memory F I W :=
  { m with entry := fun g j => if g = f ∧ j = k then w else m.entry g j }

/-- The word that was written. -/
@[simp] lemma Memory.write_self : (m.write f k w).entry f k = w := by
  simp [Memory.write]

/-- Of two writes to an entry the last one counts. -/
@[simp] lemma Memory.write_write {w' : W} : (m.write f k w).write f k w' = m.write f k w' := by
  simp only [Memory.write, Memory.mk.injEq, and_true]
  funext g j
  split <;> rfl

/-- A write hands out no frames. -/
@[simp] lemma Memory.write_frames : (m.write f k w).frames = m.frames := rfl

/-- Only paths through the written entry notice the write. -/
lemma Tree.agree_write (hT : Tree fmt top root m) (hp : tableAt fmt m top root p = some f)
    (hr : ¬ p ++ [k] <+: r) : AgreeAlong fmt m (m.write f k w) top root r := by
  intro q j g hq hqr
  simp only [Memory.write, ite_eq_right_iff]
  rintro ⟨rfl, rfl⟩
  obtain rfl := hT.distinct hq hp
  exact absurd hqr hr

/-- A write moves no path that does not pass the entry. -/
lemma Tree.tableAt_write_other (hT : Tree fmt top root m) (hp : tableAt fmt m top root p = some f)
    (hr : ¬ p ++ [k] <+: r) :
    tableAt fmt (m.write f k w) top root r = tableAt fmt m top root r :=
  tableAt_congr (hT.agree_write hp hr)

/-- Nor a leaf at the end of one. -/
lemma Tree.lookup_write_other (hT : Tree fmt top root m) (hp : tableAt fmt m top root p = some f)
    (hr : ¬ p ++ [k] <+: r) :
    lookup fmt (m.write f k w) top root r = lookup fmt m top root r :=
  lookup_congr (hT.agree_write hp hr)

/-- The written frame stays where it is. -/
lemma Tree.tableAt_write_self (hT : Tree fmt top root m) (hp : tableAt fmt m top root p = some f) :
    tableAt fmt (m.write f k w) top root p = some f := by
  rw [hT.tableAt_write_other hp, hp]
  intro h
  simpa using h.length_le

/-- A path that passes the entry goes on from the word written. -/
lemma Tree.tableAt_write_below (hT : Tree fmt top root m) (hp : tableAt fmt m top root p = some f) :
    tableAt fmt (m.write f k w) top root (p ++ k :: t) =
      tableAt fmt (m.write f k w) (top - p.length) f (k :: t) := by
  rw [tableAt_append, hT.tableAt_write_self hp, Option.bind_some]

/-- So does the search for a leaf. -/
lemma Tree.lookup_write_below (hT : Tree fmt top root m) (hp : tableAt fmt m top root p = some f) :
    lookup fmt (m.write f k w) top root (p ++ k :: t) =
      lookup fmt (m.write f k w) (top - p.length) f (k :: t) := by
  have hs := hT.tableAt_write_self (k := k) (w := w) hp
  rw [lookup_append, lookup_of_tableAt hs, hs, Option.bind_some]

/-- Writing a word that is no link adds no frame to the tree. -/
lemma Tree.tableAt_of_write (hT : Tree fmt top root m) (hp : tableAt fmt m top root p = some f)
    (hw : ∀ g, fmt.decode (top - p.length) w ≠ .table g)
    (h : tableAt fmt (m.write f k w) top root r = some g) :
    tableAt fmt m top root r = some g ∧ ¬ p ++ [k] <+: r := by
  by_cases hr : p ++ [k] <+: r
  · obtain ⟨t, rfl⟩ := exists_of_through hr
    rw [hT.tableAt_write_below hp, tableAt_none (by simpa using hw)] at h
    cases h
  · rw [hT.tableAt_write_other hp hr] at h
    exact ⟨h, hr⟩

/-- Writing a word that is no link keeps the tree. -/
lemma Tree.write (hT : Tree fmt top root m) (hp : tableAt fmt m top root p = some f)
    (hw : ∀ g, fmt.decode (top - p.length) w ≠ .table g) (hs : fmt.Sane (top - p.length) w) :
    Tree fmt top root (m.write f k w) where
  distinct h₁ h₂ := hT.distinct (hT.tableAt_of_write hp hw h₁).1 (hT.tableAt_of_write hp hw h₂).1
  sane {q g} j hq := by
    have hq' := (hT.tableAt_of_write hp hw hq).1
    simp only [Memory.write]
    split
    · rename_i h
      obtain ⟨rfl, rfl⟩ := h
      rwa [hT.distinct hq' hp]
    · exact hT.sane j hq'

/-- A write that links no table keeps the frames to be handed out fresh. -/
lemma Supply.write (hS : Supply fmt top root m) (hT : Tree fmt top root m)
    (hp : tableAt fmt m top root p = some f)
    (hw : ∀ g, fmt.decode (top - p.length) w ≠ .table g) : Supply fmt top root (m.write f k w) where
  nodup := hS.nodup
  usable := hS.usable
  fresh g hg q hq := hS.fresh g hg q (hT.tableAt_of_write hp hw hq).1

/-- Writing an empty word removes what is below it. -/
lemma Tree.clear (hT : Tree fmt top root m) (hp : tableAt fmt m top root p = some f) :
    Cleared fmt top root p k m (m.write f k fmt.zero) := by
  have empty : fmt.decode (top - p.length) ((m.write f k fmt.zero).entry f k) = .empty := by
    rw [Memory.write_self, fmt.decode_zero]
  refine ⟨hT.write hp (by simp [fmt.decode_zero]) (fmt.sane_zero _), ?_, hT.lookup_write_other hp, ?_,
    hT.tableAt_write_other hp⟩
  · intro t
    rw [hT.lookup_write_below hp, lookup_empty empty]
  · intro t
    rw [hT.tableAt_write_below hp, tableAt_none (by simp [fmt.decode_zero])]

/-- Writing the word that is there already changes nothing. -/
lemma Memory.write_entry (h : m.entry f k = w) : m.write f k w = m := by
  cases m
  simp only [Memory.write, Memory.mk.injEq, and_true]
  funext g j
  split
  · rename_i e
    rw [e.1, e.2]
    exact h.symm
  · rfl

/-- Links the fresh frame `g`, all of its entries empty, into entry `k` of `f`. -/
def Memory.link (fmt : Format F V W) (m : Memory F I W) (f : F) (k : I) (g : F) : Memory F I W :=
  (m.fill g fmt.zero).write f k (fmt.link g)

/-- The entries of a frame just linked. -/
lemma link_entry_fresh (hne : g ≠ f) (j : I) : (m.link fmt f k g).entry g j = fmt.zero := by
  simp [Memory.link, Memory.write, Memory.fill, hne]

section Link
variable (hT : Tree fmt top root m) (hg : ∀ p, tableAt fmt m top root p ≠ some g)
  (hp : tableAt fmt m top root p = some f)
include hT hg hp

/-- Linking a frame moves no path that does not pass the entry. -/
lemma Tree.tableAt_link_other (hr : ¬ p ++ [k] <+: r) :
    tableAt fmt (m.link fmt f k g) top root r = tableAt fmt m top root r := by
  have hp' := (tableAt_congr (agree_fill (w := fmt.zero) hg)).trans hp
  rw [Memory.link, (hT.fill hg).tableAt_write_other hp' hr, tableAt_congr (agree_fill hg)]

/-- Nor a leaf at the end of one. -/
lemma Tree.lookup_link_other (hr : ¬ p ++ [k] <+: r) :
    lookup fmt (m.link fmt f k g) top root r = lookup fmt m top root r := by
  have hp' := (tableAt_congr (agree_fill (w := fmt.zero) hg)).trans hp
  rw [Memory.link, (hT.fill hg).lookup_write_other hp' hr, lookup_congr (agree_fill hg)]

variable (hu : fmt.Usable g) (hl : p.length < top)
include hu hl

/-- Below the linked entry there is the fresh frame and nothing else. -/
lemma Tree.tableAt_link_below :
    tableAt fmt (m.link fmt f k g) top root (p ++ k :: t) = if t = [] then some g else none := by
  have hp' := (tableAt_congr (agree_fill (w := fmt.zero) hg)).trans hp
  obtain ⟨i, hi⟩ : ∃ i, top - p.length = i + 1 := ⟨top - p.length - 1, by omega⟩
  have hd : fmt.decode (i + 1) ((m.link fmt f k g).entry f k) = .table g := by
    simpa [Memory.link] using fmt.decode_link i hu
  rw [Memory.link, (hT.fill hg).tableAt_write_below hp', ← Memory.link, hi, tableAt_table hd]
  cases t with
  | nil => simp
  | cons j t =>
    rw [if_neg (by simp), tableAt_none]
    simp [link_entry_fresh (ne_of_fresh hg hp), fmt.decode_zero]

/-- There are no leaves below the frame just linked. -/
lemma Tree.lookup_link_below :
    lookup fmt (m.link fmt f k g) top root (p ++ k :: t) = none := by
  have hp' := (tableAt_congr (agree_fill (w := fmt.zero) hg)).trans hp
  obtain ⟨i, hi⟩ : ∃ i, top - p.length = i + 1 := ⟨top - p.length - 1, by omega⟩
  have hd : fmt.decode (i + 1) ((m.link fmt f k g).entry f k) = .table g := by
    simpa [Memory.link] using fmt.decode_link i hu
  rw [Memory.link, (hT.fill hg).lookup_write_below hp', ← Memory.link, hi, lookup_table hd]
  cases t with
  | nil => simp
  | cons j t =>
    apply lookup_empty
    rw [link_entry_fresh (ne_of_fresh hg hp), fmt.decode_zero]

/-- The frames of the tree after a link: the old ones, and the fresh one at its place. -/
lemma Tree.tableAt_of_link {h : F} (hr : tableAt fmt (m.link fmt f k g) top root r = some h) :
    (r = p ++ [k] ∧ h = g) ∨ (tableAt fmt m top root r = some h ∧ ¬ p ++ [k] <+: r) := by
  by_cases hpr : p ++ [k] <+: r
  · obtain ⟨t, rfl⟩ := exists_of_through hpr
    rw [hT.tableAt_link_below hg hp hu hl] at hr
    split at hr
    · rename_i ht
      subst ht
      exact .inl ⟨rfl, (Option.some.inj hr).symm⟩
    · cases hr
  · rw [hT.tableAt_link_other hg hp hpr] at hr
    exact .inr ⟨hr, hpr⟩

/-- Linking a fresh frame keeps the tree. -/
lemma Tree.link : Tree fmt top root (m.link fmt f k g) where
  distinct h₁ h₂ := by
    obtain ⟨rfl, rfl⟩ | ⟨o₁, _⟩ := hT.tableAt_of_link hg hp hu hl h₁
    · obtain ⟨rfl, _⟩ | ⟨o₂, _⟩ := hT.tableAt_of_link hg hp hu hl h₂
      · rfl
      · exact absurd o₂ (hg _)
    · obtain ⟨_, rfl⟩ | ⟨o₂, _⟩ := hT.tableAt_of_link hg hp hu hl h₂
      · exact absurd o₁ (hg _)
      · exact hT.distinct o₁ o₂
  sane {q h} j hq' := by
    obtain ⟨rfl, rfl⟩ | ⟨hq, _⟩ := hT.tableAt_of_link hg hp hu hl hq'
    · rw [link_entry_fresh (ne_of_fresh hg hp)]
      exact fmt.sane_zero _
    · have hne : h ≠ g := by rintro rfl; exact hg q hq
      simp only [Memory.link, Memory.write, Memory.fill, if_neg hne]
      split
      · rename_i e
        obtain ⟨rfl, rfl⟩ := e
        obtain rfl := hT.distinct hq hp
        obtain ⟨i, hi⟩ : ∃ i, top - q.length = i + 1 := ⟨top - q.length - 1, by omega⟩
        rw [hi]
        exact fmt.sane_link i hu
      · exact hT.sane j hq

/-- Linking a fresh frame into an empty entry moves no leaf. -/
lemma Tree.lookup_link (hd : fmt.decode (top - p.length) (m.entry f k) = .empty) :
    lookup fmt (m.link fmt f k g) top root r = lookup fmt m top root r := by
  by_cases hr : p ++ [k] <+: r
  · obtain ⟨t, rfl⟩ := exists_of_through hr
    rw [hT.lookup_link_below hg hp hu hl, lookup_append, lookup_of_tableAt hp, hp,
      Option.bind_some, lookup_empty hd]
  · exact hT.lookup_link_other hg hp hr

omit hu hl in
/-- Linking a frame into an empty entry loses no table. -/
lemma Tree.tableAt_link (hd : fmt.decode (top - p.length) (m.entry f k) = .empty) {h : F}
    (hr : tableAt fmt m top root r = some h) :
    tableAt fmt (m.link fmt f k g) top root r = some h := by
  rw [hT.tableAt_link_other hg hp, hr]
  intro hpr
  obtain ⟨t, rfl⟩ := exists_of_through hpr
  rw [tableAt_append, hp, Option.bind_some, tableAt_none (by simp [hd])] at hr
  cases hr

end Link

end Write

section Alloc
variable [DecidableEq F] [DecidableEq I]

/-- The frame that entry `k` of `f` links to; a fresh one is linked there when it is empty. -/
def getOrAlloc (l : Nat) (f : F) (k : I) (m : Memory F I W) : Except Stop (F × Memory F I W) :=
  match fmt.decode l (m.entry f k) with
  | .table g => .ok (g, m)
  | .leaf _ => .error .fault
  | .empty =>
    match m.frames with
    | [] => .error .outOfFrames
    | g :: fs => .ok (g, { m with frames := fs }.link fmt f k g)

/-- The frame that a path leads to, with fresh frames linked where there are none. -/
def descendAlloc : Nat → F → List I → Memory F I W → Except Stop (F × Memory F I W)
  | _, f, [], m => .ok (f, m)
  | l, f, k :: p, m => do
    let (g, m) ← getOrAlloc fmt l f k m
    descendAlloc (l - 1) g p m

variable {fmt} {top : Nat} {root f : F} {k : I} {p q : List I} {m m₁ m₂ : Memory F I W}

/-- The walk is made part after part. -/
lemma descendAlloc_append {l : Nat} :
    descendAlloc fmt l f (p ++ q) m =
      (descendAlloc fmt l f p m).bind fun (g, m) => descendAlloc fmt (l - p.length) g q m := by
  induction p generalizing l f m with
  | nil => simp [descendAlloc, Except.bind]
  | cons k p ih =>
    simp only [List.cons_append, descendAlloc, bind, Except.bind]
    cases getOrAlloc fmt l f k m with
    | error e => rfl
    | ok x =>
      simp only [ih, Except.bind, List.length_cons]
      congr 2
      funext
      congr 1
      omega

/-- Taking the next frame of the supply and linking it into an empty entry. -/
lemma Grown.link {g fs} (hT : Tree fmt top root m) (hS : Supply fmt top root m)
    (hp : tableAt fmt m top root p = some f) (hl : p.length < top)
    (hd : fmt.decode (top - p.length) (m.entry f k) = .empty) (hf : m.frames = g :: fs) :
    Grown fmt top root m ({ m with frames := fs }.link fmt f k g) := by
  have hg : ∀ q, tableAt fmt { m with frames := fs } top root q ≠ some g := by
    intro q
    rw [tableAt_frames]
    exact hS.fresh g (by simp [hf]) q
  have hT' : Tree fmt top root { m with frames := fs } := hT.frames
  have hp' : tableAt fmt { m with frames := fs } top root p = some f := by rwa [tableAt_frames]
  have hu := hS.usable g (by simp [hf])
  have nd := hS.nodup
  rw [hf, List.nodup_cons] at nd
  refine ⟨hT'.link hg hp' hu hl, ⟨nd.2, ?_, ?_⟩, ?_, ?_, ?_⟩
  · intro h hh
    exact hS.usable h (hf ▸ List.mem_cons_of_mem _ hh)
  · intro h hh q hq
    obtain ⟨_, rfl⟩ | ⟨hq, _⟩ := hT'.tableAt_of_link hg hp' hu hl hq
    · exact nd.1 hh
    · rw [tableAt_frames] at hq
      exact hS.fresh h (hf ▸ List.mem_cons_of_mem _ hh) q hq
  · intro r
    rw [hT'.lookup_link hg hp' hu hl hd, lookup_frames]
  · intro q h hq
    exact hT'.tableAt_link hg hp' hd (by rwa [tableAt_frames])
  · rw [hf]
    exact List.suffix_cons g fs

/-- One step down: the entry's frame, or a fresh one, unless the frames have run out. -/
lemma getOrAlloc_spec (hT : Tree fmt top root m) (hS : Supply fmt top root m)
    (hp : tableAt fmt m top root p = some f) (hl : p.length < top)
    (hk : lookup fmt m top root (p ++ [k]) = none) :
    (∃ g m', getOrAlloc fmt (top - p.length) f k m = .ok (g, m') ∧ Grown fmt top root m m' ∧
      tableAt fmt m' top root (p ++ [k]) = some g ∧ m.frames.length ≤ m'.frames.length + 1) ∨
    (getOrAlloc fmt (top - p.length) f k m = .error .outOfFrames ∧ m.frames = []) := by
  cases hd : fmt.decode (top - p.length) (m.entry f k) with
  | leaf v => exact absurd hd (not_leaf_of_clear hp hk v)
  | table g =>
    refine .inl ⟨g, m, by simp only [getOrAlloc, hd], .refl hT hS, ?_, Nat.le_succ _⟩
    exact tableAt_concat hp hd hl
  | empty =>
    cases hf : m.frames with
    | nil => exact .inr ⟨by simp only [getOrAlloc, hd, hf], rfl⟩
    | cons g fs =>
      have grown := Grown.link hT hS hp hl hd hf
      refine .inl ⟨g, _, by simp only [getOrAlloc, hd, hf], grown, ?_, by simp [Memory.link, Memory.fill]⟩
      have hg : ∀ q, tableAt fmt { m with frames := fs } top root q ≠ some g := by
        intro q
        rw [tableAt_frames]
        exact hS.fresh g (by simp [hf]) q
      rw [Tree.tableAt_link_below hT.frames hg (by rwa [tableAt_frames])
        (hS.usable g (by simp [hf])) hl, if_pos rfl]

/-- Down a path that runs into no leaf: its last frame, unless the frames have run out. -/
lemma descendAlloc_spec (hT : Tree fmt top root m) (hS : Supply fmt top root m)
    (hq : tableAt fmt m top root q = some f) (hl : q.length + p.length ≤ top)
    (hp : lookup fmt m top root (q ++ p) = none) :
    (∃ g m', descendAlloc fmt (top - q.length) f p m = .ok (g, m') ∧ Grown fmt top root m m' ∧
      tableAt fmt m' top root (q ++ p) = some g ∧
      m.frames.length ≤ m'.frames.length + p.length) ∨
    (descendAlloc fmt (top - q.length) f p m = .error .outOfFrames ∧
      m.frames.length < p.length) := by
  induction p generalizing q f m with
  | nil => exact .inl ⟨f, m, by simp [descendAlloc], .refl hT hS, by simpa using hq, by simp⟩
  | cons k p ih =>
    rw [List.length_cons] at hl
    have hk : lookup fmt m top root (q ++ [k]) = none :=
      lookup_none_of_append (q := p) (by simpa using hp)
    obtain ⟨g, m', e, grown, ht, hlen⟩ | ⟨e, hf⟩ := getOrAlloc_spec hT hS hq (by omega) hk
    · have hp' : lookup fmt m' top root (q ++ [k] ++ p) = none := by
        rw [grown.lookup]
        simpa using hp
      have step := ih grown.tree grown.supply ht (by simp; omega) hp'
      have hlev : top - (q ++ [k]).length = top - q.length - 1 := by simp; omega
      rw [hlev] at step
      have e' : descendAlloc fmt (top - q.length) f (k :: p) m =
          descendAlloc fmt (top - q.length - 1) g p m' := by
        simp only [descendAlloc, e]
        rfl
      rw [e', List.append_cons]
      obtain ⟨h, m'', d, grown', ht', hlen'⟩ | ⟨d, hf⟩ := step
      · refine .inl ⟨h, m'', d, grown.trans grown', ht', ?_⟩
        simp only [List.length_cons]
        omega
      · refine .inr ⟨d, ?_⟩
        simp only [List.length_cons]
        omega
    · refine .inr ⟨?_, by simp [hf]⟩
      simp only [descendAlloc, e]
      rfl

/-- Puts the word `w` into entry `k` of the frame that the path `p` leads to. -/
def mapLeaf (fmt : Format F V W) (top : Nat) (root : F) (p : List I) (k : I) (w : W)
    (m : Memory F I W) : Except Stop (Memory F I W) := do
  let (f, m) ← descendAlloc fmt top root p m
  return m.write f k w

/-- `m'` is `m` with the leaf `v` at entry `k` below `p`: no other leaf moved. -/
structure Mapped (fmt : Format F V W) (top : Nat) (root : F) (p : List I) (k : I) (v : V)
    (m m' : Memory F I W) : Prop where
  tree : Tree fmt top root m'
  supply : Supply fmt top root m'
  here : ∀ t, lookup fmt m' top root (p ++ k :: t) = some (top - p.length, v, t)
  elsewhere : ∀ {r}, ¬ p ++ [k] <+: r → lookup fmt m' top root r = lookup fmt m top root r
  table : ∃ f, tableAt fmt m' top root p = some f
  tables : ∀ {q f}, tableAt fmt m top root q = some f → ¬ p ++ [k] <+: q →
    tableAt fmt m' top root q = some f
  frames : m'.frames <:+ m.frames
  taken : m.frames.length ≤ m'.frames.length + p.length

/-- A leaf is put in its place unless a larger leaf is in the way or the frames have run out. -/
lemma mapLeaf_spec {w : W} {v : V} (hT : Tree fmt top root m) (hS : Supply fmt top root m)
    (hl : p.length ≤ top) (hp : lookup fmt m top root p = none)
    (hw : fmt.decode (top - p.length) w = .leaf v) (hs : fmt.Sane (top - p.length) w) :
    (∃ m', mapLeaf fmt top root p k w m = .ok m' ∧ Mapped fmt top root p k v m m') ∨
    (mapLeaf fmt top root p k w m = .error .outOfFrames ∧ m.frames.length < p.length) := by
  have step := descendAlloc_spec (q := []) hT hS tableAt_nil (by simpa using hl) hp
  obtain ⟨f, m', d, grown, ht, hlen⟩ | ⟨d, hf⟩ := step
  · refine .inl ⟨m'.write f k w, ?_, ?_⟩
    · rw [List.length_nil, Nat.sub_zero] at d
      simp only [mapLeaf, d]
      rfl
    · rw [List.nil_append] at ht
      have nolink : ∀ g, fmt.decode (top - p.length) w ≠ .table g := by simp [hw]
      refine ⟨grown.tree.write ht nolink hs, grown.supply.write grown.tree ht nolink, ?_, ?_,
        ⟨f, grown.tree.tableAt_write_self ht⟩, ?_, grown.frames, hlen⟩
      · intro t
        rw [grown.tree.lookup_write_below ht, lookup_leaf (by simpa using hw)]
      · intro r hr
        rw [grown.tree.lookup_write_other ht hr, grown.lookup]
      · intro q g hq hr
        rw [grown.tree.tableAt_write_other ht hr, grown.tables hq]
  · refine .inr ⟨?_, hf⟩
    rw [List.length_nil, Nat.sub_zero] at d
    simp only [mapLeaf, d]
    rfl

section Tables
variable {g h : F} {r : List I} {m' : Memory F I W} {w : W}

/-- The frames of the tree after one step down: the old ones, and a fresh one at the end of the step. -/
lemma getOrAlloc_tables (hT : Tree fmt top root m) (hS : Supply fmt top root m)
    (hp : tableAt fmt m top root p = some f) (hl : p.length < top)
    (e : getOrAlloc fmt (top - p.length) f k m = .ok (g, m')) (hr : tableAt fmt m' top root r = some h) :
    tableAt fmt m top root r = some h ∨ (r = p ++ [k] ∧ h ∈ m.frames) := by
  unfold getOrAlloc at e
  split at e
  · cases e
    exact .inl hr
  · cases e
  · split at e
    · cases e
    · rename_i g' fs hf
      cases e
      have mem : g ∈ m.frames := by simp [hf]
      have hg : ∀ q, tableAt fmt { m with frames := fs } top root q ≠ some g := by
        intro q
        rw [tableAt_frames]
        exact hS.fresh g mem q
      have hp' : tableAt fmt { m with frames := fs } top root p = some f := by rwa [tableAt_frames]
      obtain ⟨place, rfl⟩ | ⟨old, -⟩ := Tree.tableAt_of_link hT.frames hg hp' (hS.usable g mem) hl hr
      · exact .inr ⟨place, mem⟩
      · rw [tableAt_frames] at old
        exact .inl old

/-- The frames of the tree after a way down: the old ones, and fresh ones on the way. -/
lemma descendAlloc_tables (hT : Tree fmt top root m) (hS : Supply fmt top root m)
    (hq : tableAt fmt m top root q = some f) (hl : q.length + p.length ≤ top)
    (hp : lookup fmt m top root (q ++ p) = none)
    (e : descendAlloc fmt (top - q.length) f p m = .ok (g, m')) (hr : tableAt fmt m' top root r = some h) :
    tableAt fmt m top root r = some h ∨ (r <+: q ++ p ∧ h ∈ m.frames) := by
  induction p generalizing q f m with
  | nil =>
    cases e
    exact .inl hr
  | cons k p ih =>
    rw [List.length_cons] at hl
    have hk : lookup fmt m top root (q ++ [k]) = none :=
      lookup_none_of_append (q := p) (by simpa using hp)
    obtain ⟨g', m₁, e₁, grown, ht, -⟩ | ⟨e₁, -⟩ := getOrAlloc_spec hT hS hq (by omega) hk
    · have hp' : lookup fmt m₁ top root (q ++ [k] ++ p) = none := by
        rw [grown.lookup]
        simpa using hp
      have hlev : top - (q ++ [k]).length = top - q.length - 1 := by simp; omega
      have rest : descendAlloc fmt (top - (q ++ [k]).length) g' p m₁ = .ok (g, m') := by
        rw [hlev, ← e]
        simp only [descendAlloc, e₁]
        rfl
      obtain old | ⟨place, mem⟩ := ih grown.tree grown.supply ht (by simp; omega) hp' rest
      · obtain older | ⟨rfl, mem⟩ := getOrAlloc_tables hT hS hq (by omega) e₁ old
        · exact .inl older
        · exact .inr ⟨by simp, mem⟩
      · rw [List.append_cons]
        exact .inr ⟨place, grown.frames.subset mem⟩
    · simp only [descendAlloc, e₁] at e
      cases e

/-- The frames of the tree after a leaf was put in its place. -/
lemma mapLeaf_tables {v : V} (hT : Tree fmt top root m) (hS : Supply fmt top root m) (hl : p.length ≤ top)
    (hp : lookup fmt m top root p = none) (hw : fmt.decode (top - p.length) w = .leaf v)
    (e : mapLeaf fmt top root p k w m = .ok m') (hr : tableAt fmt m' top root r = some h) :
    tableAt fmt m top root r = some h ∨ (r <+: p ∧ h ∈ m.frames) := by
  have step := descendAlloc_spec (q := []) hT hS tableAt_nil (by simpa using hl) hp
  rw [List.length_nil, Nat.sub_zero] at step
  obtain ⟨f, m₁, d, grown, ht, -⟩ | ⟨d, -⟩ := step
  · simp only [mapLeaf, d] at e
    cases e
    rw [List.nil_append] at ht
    have nolink : ∀ g, fmt.decode (top - p.length) w ≠ .table g := by simp [hw]
    have old := (grown.tree.tableAt_of_write ht nolink hr).1
    exact descendAlloc_tables (q := []) hT hS tableAt_nil (by simpa using hl) hp d old
  · simp only [mapLeaf, d] at e
    cases e

end Tables

end Alloc

end WivOS.Lib.Radix
