import WivOS.Utils.HashmapCalls

/-!
# Deleting a hash map

`hashmap_delete` of `utils/lists.c`, at the end of any calls that set and remove keys. The heap has the
blocks that `kmalloc` returned and that are not freed yet, by what they hold; to free a block that is not
allocated faults. The entries, their keys and the `hashmap_t` are freed once each, the array of the
buckets never is (`hashmap_delete_leaves_array`).
-/

namespace WivOS.Utils
open Lib Hashmap

/-- The fields of a `hashmap_t` block. -/
structure MapBlock where
  hashSize : Nat
  hashmap : Nat
deriving DecidableEq, Repr

/-- The blocks that are allocated. -/
structure HashmapHeap where
  maps : Nat → Option MapBlock
  arrays : Nat → Option (Nat → Option (Option Nat))
  entries : Nat → Option HashmapEntry
  keys : Nat → Option Bytes

/-- C `kfree`, of a block of one kind. -/
def kfreeBlock {γ : Type} (blocks : Nat → Option γ) (p : Nat) : Option (Nat → Option γ) :=
  match blocks p with
  | none => none
  | some _ => some (Function.update blocks p none)

/-- The inner loop of C `hashmap_delete`. -/
def freeChain :
    Nat → Option Nat → (Nat → Option HashmapEntry) → (Nat → Option Bytes) →
      Option ((Nat → Option HashmapEntry) × (Nat → Option Bytes))
  | 0, _, _, _ => none
  | _ + 1, none, entries, keys => some (entries, keys)
  | fuel + 1, some currEntry, entries, keys => do
    let e ← entries currEntry
    let keys ← kfreeBlock keys e.key
    let entries ← kfreeBlock entries currEntry
    freeChain fuel e.next entries keys

/-- The outer loop of C `hashmap_delete`, for `n` buckets from `i` on. -/
def freeBuckets (buckets : Nat → Option (Option Nat)) :
    Nat → Nat → (Nat → Option HashmapEntry) → (Nat → Option Bytes) →
      Option ((Nat → Option HashmapEntry) × (Nat → Option Bytes))
  | 0, _, entries, keys => some (entries, keys)
  | n + 1, i, entries, keys => do
    let entry ← buckets i
    let (entries, keys) ← freeChain nodeCount entry entries keys
    freeBuckets buckets n (i + 1) entries keys

/-- A call that changes the map, with the addresses that `kmalloc` and `strdup` return. -/
inductive HashmapChange where
  | set (key : Bytes) (value : Option Nat) (entry dup : Nat)
  | remove (key : Bytes)

namespace HashmapHeap

/-- A block is allocated. -/
def Live (heap : HashmapHeap) (p : Nat) : Prop :=
  heap.maps p ≠ none ∨ heap.arrays p ≠ none ∨ heap.entries p ≠ none ∨ heap.keys p ≠ none

/-- C `hashmap_create`, for which `kmalloc` returns `map` and `array`. -/
def create (heap : HashmapHeap) (hashSize map array : Nat) : HashmapHeap :=
  { heap with
    maps := Function.update heap.maps map (some ⟨hashSize, array⟩)
    arrays := Function.update heap.arrays array
      (some (hashmapCreate hashSize heap.entries heap.keys).buckets) }

/-- The map at an address. -/
def view (heap : HashmapHeap) (map : Nat) : Option Hashmap := do
  let block ← heap.maps map
  let buckets ← heap.arrays block.hashmap
  return ⟨block.hashSize, buckets, heap.entries, heap.keys⟩

/-- The heap once the map at an address has changed. -/
def store (heap : HashmapHeap) (map : Nat) (changed : Hashmap) : Option HashmapHeap := do
  let block ← heap.maps map
  return { heap with
    arrays := Function.update heap.arrays block.hashmap (some changed.buckets)
    entries := changed.entries
    keys := changed.keys }

/-- What a call does. -/
def exec (signed : Bool) (map : Nat) (heap : HashmapHeap) : HashmapChange → Option HashmapHeap
  | .set key value entry dup => do
    let (_, changed) ← hashmapSet signed (← heap.view map) key value entry dup
    heap.store map changed
  | .remove key => do
    let (_, changed) ← hashmapRemove signed (← heap.view map) key
    heap.store map changed

/-- C `hashmap_delete`. -/
def delete (heap : HashmapHeap) (map : Nat) : Option HashmapHeap := do
  let block ← heap.maps map
  let buckets ← heap.arrays block.hashmap
  let (entries, keys) ← freeBuckets buckets block.hashSize 0 heap.entries heap.keys
  let maps ← kfreeBlock heap.maps map
  return { heap with maps := maps, entries := entries, keys := keys }

/-- A map is created, changed by calls, and deleted. -/
def run (signed : Bool) (heap : HashmapHeap) (hashSize map array : Nat) (changes : List HashmapChange) :
    Option HashmapHeap := do
  let heap ← changes.foldlM (exec signed map) (heap.create hashSize map array)
  heap.delete map

/-- The strings end with a 0, and memory that is allocated was free. -/
def Proper (heap : HashmapHeap) : HashmapChange → Prop
  | .set key _ entry dup => 0 ∈ key ∧ LinkedList.Address entry ∧ ¬ heap.Live entry ∧ ¬ heap.Live dup ∧
    entry ≠ dup
  | .remove key => 0 ∈ key

/-- Every call is proper. -/
def ProperRun (signed : Bool) (map : Nat) : List HashmapChange → HashmapHeap → Prop
  | [], _ => True
  | change :: changes, heap => heap.Proper change ∧
    ∀ heap', heap.exec signed map change = some heap' → ProperRun signed map changes heap'

end HashmapHeap

/-- Memory without the blocks at some addresses. -/
def without {γ : Type} (m : Nat → Option γ) (ps : List Nat) : Nat → Option γ :=
  fun p => if p ∈ ps then none else m p

section Loops
variable {γ : Type} {m : Nat → Option γ} {ps qs : List Nat} {p : Nat}

/-- What is free then. -/
lemma without_none_iff : without m ps p = none ↔ p ∈ ps ∨ m p = none := by
  unfold without
  split
  · simp [*]
  · simp [*]

/-- Without nothing. -/
lemma without_nil (m : Nat → Option γ) : without m [] = m := by
  funext p
  simp [without]

/-- One block freed and then others. -/
lemma without_cons (m : Nat → Option γ) (q : Nat) (ps : List Nat) :
    without (Function.update m q none) ps = without m (q :: ps) := by
  funext p
  unfold without
  by_cases e : p = q
  · simp [e]
  · simp [e]

/-- Some blocks freed and then others. -/
lemma without_append (m : Nat → Option γ) (ps qs : List Nat) :
    without (without m ps) qs = without m (ps ++ qs) := by
  funext p
  unfold without
  by_cases mem : p ∈ ps
  · simp [mem]
  · simp [mem]

variable {entries : Nat → Option HashmapEntry} {keys : Nat → Option Bytes} {q : Option Nat}
  {l : List Item} {fuel : Nat}

/-- A chain is freed. -/
lemma freeChain_eq (linked : Linked Item.entry Item.toEntry entries q l none)
    (entriesNodup : (l.map Item.entry).Nodup) (keysNodup : (l.map Item.key).Nodup)
    (stored : ∀ x ∈ l, keys x.key ≠ none) (enough : l.length < fuel) :
    freeChain fuel (firstOr Item.entry l none) entries keys =
      some (without entries (l.map Item.entry), without keys (l.map Item.key)) := by
  induction l generalizing entries keys q fuel with
  | nil =>
    obtain ⟨fuel, rfl⟩ := Nat.exists_eq_add_one_of_ne_zero (Nat.ne_zero_of_lt enough)
    simp [freeChain, without_nil]
  | cons x l ih =>
    obtain ⟨fuel, rfl⟩ := Nat.exists_eq_add_one_of_ne_zero (Nat.ne_zero_of_lt enough)
    simp only [List.map_cons, List.nodup_cons] at entriesNodup keysNodup
    obtain ⟨here, rest⟩ := linked
    obtain ⟨bytes, key⟩ := Option.ne_none_iff_exists'.mp (stored x List.mem_cons_self)
    have others : ∀ y ∈ l, Function.update keys x.key none y.key ≠ none := by
      intro y mem
      have ne : y.key ≠ x.key := fun e => keysNodup.1 (e ▸ List.mem_map_of_mem mem)
      rw [Function.update_of_ne ne]
      exact stored y (List.mem_cons_of_mem _ mem)
    have more := ih (rest.update (c := none) entriesNodup.1) entriesNodup.2 keysNodup.2 others
      (Nat.lt_of_succ_lt_succ enough)
    simp [freeChain, here, Item.toEntry, kfreeBlock, key, more, without_cons]

end Loops

section Delete
variable {signed : Bool} {place : Bytes → Nat} {m : Hashmap} {items freed c : List Item} {y : Item}
  {i n : Nat}

/-- The key of another entry is none of these. -/
lemma key_notMem (h : m.Represents place items) (mem : y ∈ items) (sub : c ⊆ items) (other : y ∉ c) :
    y.key ∉ c.map Item.key := by
  intro he
  obtain ⟨z, hz, e⟩ := List.mem_map.mp he
  exact other (List.inj_on_of_nodup_map h.keys (sub hz) mem e ▸ hz)

/-- The chains of the buckets are freed, of which those before `i` are gone already. -/
lemma freeBuckets_eq (h : m.Represents place items) (last : i + n = m.hashSize) (sub : freed ⊆ items)
    (before : ∀ y ∈ freed, place y.str < i) :
    freeBuckets m.buckets n i (without m.entries (freed.map Item.entry))
        (without m.keys (freed.map Item.key)) =
      some (without m.entries ((freed ++ (List.range' i n).flatMap (chain place items)).map Item.entry),
        without m.keys ((freed ++ (List.range' i n).flatMap (chain place items)).map Item.key)) := by
  induction n generalizing i freed with
  | zero => simp [freeBuckets]
  | succ n ih =>
    have inside : i < m.hashSize := by omega
    have own : ∀ y ∈ chain place items i, place y.str = i := by
      intro y mem
      simpa using (List.mem_filter.mp mem).2
    have apart : ∀ y ∈ chain place items i, y ∉ freed := by
      intro y mem gone
      exact absurd (own y mem) (Nat.ne_of_lt (before y gone))
    have linked : Linked Item.entry Item.toEntry (without m.entries (freed.map Item.entry)) none
        (chain place items i) none := by
      refine (h.linked i inside).congr fun y mem => ?_
      exact if_neg (h.entry_notMem (chain_subset mem) sub (apart y mem))
    have stored : ∀ y ∈ chain place items i, without m.keys (freed.map Item.key) y.key ≠ none := by
      intro y mem
      rw [without, if_neg (key_notMem h (chain_subset mem) sub (apart y mem)), (h.stored_chain y mem).1]
      exact Option.some_ne_none _
    have chainSub : (chain place items i).Sublist items := List.filter_sublist
    have freedHere := freeChain_eq linked (h.entries.sublist (chainSub.map _))
      (h.keys.sublist (chainSub.map _)) stored (h.chain_length i)
    rw [without_append, without_append, ← List.map_append, ← List.map_append] at freedHere
    have earlier : ∀ y ∈ freed ++ chain place items i, place y.str < i + 1 := by
      intro y mem
      rcases List.mem_append.mp mem with gone | here
      · exact Nat.lt_succ_of_lt (before y gone)
      · exact Nat.lt_succ_of_le (Nat.le_of_eq (own y here))
    have rest := ih (by omega) (List.append_subset.mpr ⟨sub, chain_subset⟩) earlier
    rw [List.append_assoc] at rest
    simpa [freeBuckets, h.buckets i inside, freedHere, List.range'_succ] using rest

/-- All entries and keys of a map are freed. -/
lemma freeBuckets_all (h : m.Maps signed items) (pos : 0 < m.hashSize) :
    ∃ entries keys, freeBuckets m.buckets m.hashSize 0 m.entries m.keys = some (entries, keys) ∧
      (∀ p, entries p = none ↔ p ∈ items.map Item.entry ∨ m.entries p = none) ∧
      ∀ p, keys p = none ↔ p ∈ items.map Item.key ∨ m.keys p = none := by
  have perm := h.flatMap_perm fun _ => home_lt pos
  have start : ∀ y ∈ ([] : List Item), home signed m.hashSize y.str < 0 := by simp
  have freed := freeBuckets_eq h (Nat.zero_add _) (List.nil_subset _) start
  simp only [List.map_nil, List.nil_append, without_nil] at freed
  refine ⟨_, _, freed, fun p => ?_, fun p => ?_⟩
  · rw [without_none_iff, (perm.map _).mem_iff]
  · rw [without_none_iff, (perm.map _).mem_iff]

end Delete

namespace HashmapHeap

/-- The heap `heap` while a map with these entries is there beside what was in `base`. -/
structure Beside (signed : Bool) (base : HashmapHeap) (hashSize map array : Nat) (heap : HashmapHeap)
    (items : List Item) : Prop where
  maps : heap.maps = Function.update base.maps map (some ⟨hashSize, array⟩)
  arrays : ∃ buckets, heap.arrays = Function.update base.arrays array (some buckets) ∧
    Maps signed ⟨hashSize, buckets, heap.entries, heap.keys⟩ items
  entries : ∀ p, heap.entries p = none ↔ base.entries p = none ∧ p ∉ items.map Item.entry
  keys : ∀ p, heap.keys p = none ↔ base.keys p = none ∧ p ∉ items.map Item.key
  free : ∀ x ∈ items, base.entries x.entry = none ∧ base.keys x.key = none

section Runs
variable {signed : Bool} {base heap heap' : HashmapHeap} {hashSize map array : Nat} {items : List Item}
  {change : HashmapChange} {changes : List HashmapChange}

/-- A new map has no entries. -/
lemma beside_create (small : hashSize < 2 ^ 61) :
    Beside signed base hashSize map array (base.create hashSize map array) [] :=
  ⟨rfl, ⟨_, rfl, HashmapCall.maps_create small base.entries base.keys⟩, by simp [create], by simp [create], by simp⟩

/-- The map in the heap is one with these entries. -/
lemma Beside.view (h : Beside signed base hashSize map array heap items) :
    ∃ m, heap.view map = some m ∧ m.hashSize = hashSize ∧ m.Maps signed items ∧ m.entries = heap.entries ∧
      m.keys = heap.keys := by
  obtain ⟨buckets, arrays, maps⟩ := h.arrays
  refine ⟨⟨hashSize, buckets, heap.entries, heap.keys⟩, ?_, rfl, maps, rfl, rfl⟩
  simp [HashmapHeap.view, h.maps, arrays]

/-- The map has changed. -/
lemma Beside.store {items' : List Item} {m : Hashmap} (h : Beside signed base hashSize map array heap items)
    (size : m.hashSize = hashSize) (maps : m.Maps signed items')
    (entries : ∀ p, m.entries p = none ↔ base.entries p = none ∧ p ∉ items'.map Item.entry)
    (keys : ∀ p, m.keys p = none ↔ base.keys p = none ∧ p ∉ items'.map Item.key)
    (free : ∀ x ∈ items', base.entries x.entry = none ∧ base.keys x.key = none) :
    ∃ heap', heap.store map m = some heap' ∧ Beside signed base hashSize map array heap' items' := by
  obtain ⟨buckets, arrays, -⟩ := h.arrays
  subst size
  refine ⟨{ heap with
    arrays := Function.update heap.arrays array (some m.buckets)
    entries := m.entries
    keys := m.keys }, ?_, h.maps, ⟨m.buckets, ?_, maps⟩, entries, keys, free⟩
  · simp [HashmapHeap.store, h.maps]
  · simp [arrays]

/-- What is not in a list with one more entry. -/
lemma notMem_append_singleton {β : Type} {f : β → Nat} {x : β} {l : List β} {p : Nat} :
    p ∉ (l ++ [x]).map f ↔ p ∉ l.map f ∧ p ≠ f x := by
  simp

/-- One address less is in use. -/
lemma removed_iff {γ : Type} {f : Item → Nat} {m : Nat → Option γ} {a b : List Item} {x : Item} {p : Nat}
    (free : m (f x) = none) (others : ∀ y ∈ a ++ b, f y ≠ f x) :
    (m p = none ∧ p ∉ (a ++ x :: b).map f) ∨ p = f x ↔ m p = none ∧ p ∉ (a ++ b).map f := by
  have sub : (a ++ b).map f ⊆ (a ++ x :: b).map f := List.map_subset _ (by simp)
  constructor
  · rintro (⟨none, notMem⟩ | rfl)
    · exact ⟨none, fun mem => notMem (sub mem)⟩
    · refine ⟨free, fun mem => ?_⟩
      obtain ⟨y, hy, e⟩ := List.mem_map.mp mem
      exact others y hy e
  · rintro ⟨none, notMem⟩
    by_cases e : p = f x
    · exact .inr e
    · refine .inl ⟨none, fun mem => notMem ?_⟩
      simpa [e] using mem

/-- What was there before is left. -/
lemma left_iff {γ : Type} {f : Item → Nat} {m : Nat → Option γ} {p : Nat}
    (free : ∀ x ∈ items, m (f x) = none) :
    p ∈ items.map f ∨ (m p = none ∧ p ∉ items.map f) ↔ m p = none := by
  constructor
  · rintro (mem | ⟨none, -⟩)
    · obtain ⟨x, hx, rfl⟩ := List.mem_map.mp mem
      exact free x hx
    · exact none
  · intro none
    by_cases mem : p ∈ items.map f
    · exact .inl mem
    · exact .inr ⟨none, mem⟩

/-- A key that is bound gets another value. -/
lemma Beside.exec_found {a b : List Item} {x : Item} {key : Bytes} {value : Option Nat} {entry dup : Nat}
    (h : Beside signed base hashSize map array heap (a ++ x :: b)) (pos : 0 < hashSize)
    (isStr : IsStr key x.str) :
    ∃ heap', heap.exec signed map (.set key value entry dup) = some heap' ∧
      Beside signed base hashSize map array heap' (a ++ { x with value := value } :: b) := by
  obtain ⟨m, view, rfl, maps, hentries, hkeys⟩ := h.view
  obtain ⟨m', done, size, maps', entries', keys'⟩ := Represents.set_found pos maps isStr value entry dup
  have sameEntries : (a ++ { x with value := value } :: b).map Item.entry = (a ++ x :: b).map Item.entry := by
    simp
  have sameKeys : (a ++ { x with value := value } :: b).map Item.key = (a ++ x :: b).map Item.key := by simp
  have free : ∀ y ∈ a ++ { x with value := value } :: b,
      base.entries y.entry = none ∧ base.keys y.key = none := by
    intro y mem
    simp only [List.mem_append, List.mem_cons] at mem
    rcases mem with left | rfl | right
    · exact h.free y (by simp [left])
    · exact h.free x (by simp)
    · exact h.free y (by simp [right])
  obtain ⟨heap', stored, beside⟩ := h.store size maps'
    (fun p => by rw [sameEntries, entries' p, hentries, h.entries p])
    (fun p => by rw [sameKeys, keys', hkeys, h.keys p]) free
  exact ⟨heap', by simp [HashmapHeap.exec, view, done, stored], beside⟩

/-- A key is bound. -/
lemma Beside.exec_missing {key str : Bytes} {value : Option Nat} {entry dup : Nat}
    (h : Beside signed base hashSize map array heap items) (pos : 0 < hashSize) (isStr : IsStr key str)
    (unbound : str ∉ items.map Item.str) (address : LinkedList.Address entry) (freeEntry : ¬ heap.Live entry)
    (freeDup : ¬ heap.Live dup) :
    ∃ heap', heap.exec signed map (.set key value entry dup) = some heap' ∧
      Beside signed base hashSize map array heap' (items ++ [⟨entry, dup, str, value⟩]) := by
  obtain ⟨m, view, rfl, maps, hentries, hkeys⟩ := h.view
  simp only [Live, not_or, not_not] at freeEntry freeDup
  obtain ⟨m', done, size, maps', entries', keys'⟩ := Represents.set_missing pos maps isStr unbound value
    address (hentries ▸ freeEntry.2.2.1) (hkeys ▸ freeDup.2.2.2)
  have free : ∀ y ∈ items ++ [⟨entry, dup, str, value⟩],
      base.entries y.entry = none ∧ base.keys y.key = none := by
    intro y mem
    rcases List.mem_append.mp mem with old | new
    · exact h.free y old
    · rw [List.mem_singleton.mp new]
      exact ⟨((h.entries _).mp freeEntry.2.2.1).1, ((h.keys _).mp freeDup.2.2.2).1⟩
  obtain ⟨heap', stored, beside⟩ := h.store size maps'
    (fun p => by rw [entries' p, hentries, h.entries p, and_assoc, notMem_append_singleton])
    (fun p => by rw [keys' p, hkeys, h.keys p, and_assoc, notMem_append_singleton]) free
  exact ⟨heap', by simp [HashmapHeap.exec, view, done, stored], beside⟩

/-- A key that is bound is removed. -/
lemma Beside.exec_remove {a b : List Item} {x : Item} {key : Bytes}
    (h : Beside signed base hashSize map array heap (a ++ x :: b)) (pos : 0 < hashSize)
    (isStr : IsStr key x.str) :
    ∃ heap', heap.exec signed map (.remove key) = some heap' ∧
      Beside signed base hashSize map array heap' (a ++ b) := by
  obtain ⟨m, view, rfl, maps, hentries, hkeys⟩ := h.view
  obtain ⟨m', done, size, maps', entries', keys'⟩ := Represents.remove_found pos maps isStr
  obtain ⟨freeEntry, freeKey⟩ := h.free x (by simp)
  have others := maps.split.1
  have free : ∀ y ∈ a ++ b, base.entries y.entry = none ∧ base.keys y.key = none := by
    intro y mem
    exact h.free y (List.mem_append.mpr ((List.mem_append.mp mem).imp_right (List.mem_cons_of_mem _)))
  have entriesLeft : ∀ p, m'.entries p = none ↔ base.entries p = none ∧ p ∉ (a ++ b).map Item.entry := by
    intro p
    rw [entries' p, hentries, h.entries p]
    exact removed_iff freeEntry fun y mem => (others y mem).1
  have keysLeft : ∀ p, m'.keys p = none ↔ base.keys p = none ∧ p ∉ (a ++ b).map Item.key := by
    intro p
    rw [keys' p, hkeys, h.keys p]
    exact removed_iff freeKey fun y mem => (others y mem).2.1
  obtain ⟨heap', stored, beside⟩ := h.store size maps' entriesLeft keysLeft free
  exact ⟨heap', by simp [HashmapHeap.exec, view, done, stored], beside⟩

/-- A call keeps the map beside what was there before. -/
lemma Beside.exec (h : Beside signed base hashSize map array heap items) (pos : 0 < hashSize)
    (proper : heap.Proper change) :
    ∃ heap' items', heap.exec signed map change = some heap' ∧
      Beside signed base hashSize map array heap' items' := by
  cases change with
  | set key value entry dup =>
    obtain ⟨term, address, freeEntry, freeDup, -⟩ := proper
    have isStr := isStr_strOf term
    rcases HashmapCall.bound_cases items (strOf key) with ⟨a, x, b, rfl, e⟩ | unbound
    · obtain ⟨heap', run, beside⟩ := h.exec_found pos (e ▸ isStr)
      exact ⟨heap', _, run, beside⟩
    · obtain ⟨heap', run, beside⟩ := h.exec_missing pos isStr unbound address freeEntry freeDup
      exact ⟨heap', _, run, beside⟩
  | remove key =>
    have isStr := isStr_strOf proper
    rcases HashmapCall.bound_cases items (strOf key) with ⟨a, x, b, rfl, e⟩ | unbound
    · obtain ⟨heap', run, beside⟩ := h.exec_remove pos (e ▸ isStr)
      exact ⟨heap', _, run, beside⟩
    · obtain ⟨m, view, rfl, maps, hentries, hkeys⟩ := h.view
      have missing := Represents.lookup_missing pos maps isStr unbound
      obtain ⟨heap', stored, beside⟩ := h.store rfl maps (fun p => by rw [hentries, h.entries p])
        (fun p => by rw [hkeys, h.keys p]) h.free
      exact ⟨heap', items, by simp [HashmapHeap.exec, view, hashmapRemove, missing, stored], beside⟩

/-- `hashmap_delete` frees what the map has, but for its array. -/
lemma Beside.delete (h : Beside signed base hashSize map array heap items) (pos : 0 < hashSize)
    (freeMap : ¬ base.Live map) :
    ∃ heap', heap.delete map = some heap' ∧ ∀ p, heap'.Live p ↔ base.Live p ∨ p = array := by
  obtain ⟨buckets, arrays, maps⟩ := h.arrays
  obtain ⟨entries, keys, freed, entriesNone, keysNone⟩ := freeBuckets_all maps pos
  refine ⟨⟨Function.update heap.maps map none, heap.arrays, entries, keys⟩, ?_, fun p => ?_⟩
  · have block : heap.maps map = some ⟨hashSize, array⟩ := by simp [h.maps]
    have bucketsAt : heap.arrays array = some buckets := by simp [arrays]
    simp only [HashmapHeap.delete, block, bucketsAt, freed, kfreeBlock, Option.bind_eq_bind,
      Option.bind_some]
    rfl
  · simp only [Live, not_or, not_not] at freeMap
    have mapsLeft : Function.update heap.maps map none p = none ↔ base.maps p = none := by
      rw [update_none_iff, h.maps, update_some_iff]
      constructor
      · rintro (⟨none, -⟩ | rfl)
        · exact none
        · exact freeMap.1
      · intro none
        by_cases e : p = map
        · exact .inr e
        · exact .inl ⟨none, e⟩
    have arraysLeft : heap.arrays p = none ↔ base.arrays p = none ∧ p ≠ array := by
      rw [arrays, update_some_iff]
    have entriesLeft : entries p = none ↔ base.entries p = none := by
      rw [entriesNone p, h.entries p]
      exact left_iff fun x mem => (h.free x mem).1
    have keysLeft : keys p = none ↔ base.keys p = none := by
      rw [keysNone p, h.keys p]
      exact left_iff fun x mem => (h.free x mem).2
    simp only [Live, ne_eq, mapsLeft, arraysLeft, entriesLeft, keysLeft]
    by_cases e : p = array
    · simp [e]
    · simp only [e, not_false_eq_true, and_true, or_false]

/-- Proper calls keep the map beside what was there. -/
lemma ProperRun.beside (h : Beside signed base hashSize map array heap items) (pos : 0 < hashSize)
    (proper : ProperRun signed map changes heap) :
    ∃ heap' items', changes.foldlM (HashmapHeap.exec signed map) heap = some heap' ∧
      Beside signed base hashSize map array heap' items' := by
  induction changes generalizing heap items with
  | nil => exact ⟨heap, items, rfl, h⟩
  | cons change changes ih =>
    obtain ⟨heap₁, items₁, done, beside⟩ := h.exec pos proper.1
    obtain ⟨heap', items', rest, beside'⟩ := ih beside (proper.2 heap₁ done)
    exact ⟨heap', items', by simp [done, rest], beside'⟩

/-- The array stays where it is. -/
def HasArray (map array : Nat) (heap : HashmapHeap) : Prop :=
  (∀ block, heap.maps map = some block → block.hashmap = array) ∧ heap.arrays array ≠ none

/-- Writing the map back leaves its array. -/
lemma HasArray.store {m : Hashmap} (h : HasArray map array heap) (stored : heap.store map m = some heap') :
    HasArray map array heap' := by
  obtain ⟨block, at_map, e⟩ := Option.bind_eq_some_iff.mp stored
  cases e
  refine ⟨h.1, ?_⟩
  rw [← h.1 block at_map]
  simp

/-- So does every call. -/
lemma HasArray.exec (h : HasArray map array heap) (done : heap.exec signed map change = some heap') :
    HasArray map array heap' := by
  cases change with
  | set key value entry dup =>
    simp only [HashmapHeap.exec, Option.bind_eq_bind, Option.bind_eq_some_iff] at done
    obtain ⟨_, -, _, -, stored⟩ := done
    exact h.store stored
  | remove key =>
    simp only [HashmapHeap.exec, Option.bind_eq_bind, Option.bind_eq_some_iff] at done
    obtain ⟨_, -, _, -, stored⟩ := done
    exact h.store stored

/-- So do calls one after the other. -/
lemma HasArray.run (h : HasArray map array heap)
    (done : changes.foldlM (HashmapHeap.exec signed map) heap = some heap') : HasArray map array heap' := by
  induction changes generalizing heap with
  | nil =>
    cases done
    exact h
  | cons change changes ih =>
    rw [List.foldlM_cons] at done
    obtain ⟨heap₁, first, rest⟩ := Option.bind_eq_some_iff.mp done
    exact ih (h.exec first) rest

/-- `hashmap_delete` frees no array. -/
lemma delete_arrays (done : heap.delete map = some heap') : heap'.arrays = heap.arrays := by
  simp only [HashmapHeap.delete, Option.bind_eq_bind, Option.bind_eq_some_iff] at done
  obtain ⟨_, -, _, -, _, -, _, -, e⟩ := done
  cases e
  rfl

/-- The array is the one that was allocated. -/
lemma hasArray_create : HasArray map array (base.create hashSize map array) := by
  refine ⟨fun block at_map => ?_, by simp [create]⟩
  simp only [create, Function.update_self, Option.some.injEq] at at_map
  rw [← at_map]

/-- For every heap, size and calls: after `hashmap_delete` the blocks that are allocated are not those
that were before `hashmap_create`. If the array has all the buckets and the calls are proper, the array is
all that is left. -/
theorem hashmap_delete_leaves_array (signed : Bool) (base : HashmapHeap) {hashSize map array : Nat}
    (pos : 0 < hashSize) (freeMap : ¬ base.Live map) (freeArray : ¬ base.Live array)
    (changes : List HashmapChange) :
    (¬ ∃ heap', base.run signed hashSize map array changes = some heap' ∧
      ∀ p, heap'.Live p ↔ base.Live p) ∧
    (hashSize < 2 ^ 61 → ProperRun signed map changes (base.create hashSize map array) →
      ∃ heap', base.run signed hashSize map array changes = some heap' ∧
        ∀ p, heap'.Live p ↔ base.Live p ∨ p = array) := by
  constructor
  · rintro ⟨heap', done, same⟩
    obtain ⟨heap, changed, deleted⟩ := Option.bind_eq_some_iff.mp done
    have kept := (hasArray_create.run changed).2
    rw [← delete_arrays deleted] at kept
    exact freeArray ((same array).mp (.inr (.inl kept)))
  · intro small proper
    obtain ⟨heap, items, changed, beside⟩ := proper.beside (beside_create small) pos
    obtain ⟨heap', deleted, left⟩ := beside.delete pos freeMap
    exact ⟨heap', by simp [HashmapHeap.run, changed, deleted], left⟩

end Runs

/-- A heap without blocks. -/
def empty : HashmapHeap := ⟨fun _ => none, fun _ => none, fun _ => none, fun _ => none⟩

/-- Nothing is allocated in an empty heap. -/
lemma not_live_empty (p : Nat) : ¬ empty.Live p := by simp [Live, empty]

/-- A key is set, and the map of one bucket is deleted. -/
theorem hashmap_delete_leaves_array_one :
    ∃ heap', empty.run true 1 16 32 [.set [97, 0] (some 5) 48 64] = some heap' ∧
      ∀ p, heap'.Live p ↔ empty.Live p ∨ p = 32 := by
  refine (hashmap_delete_leaves_array true empty (by decide) (not_live_empty 16) (not_live_empty 32) _).2
    (by decide) ⟨⟨by decide, ⟨by decide, by decide⟩, ?_, ?_, by decide⟩, fun _ _ => trivial⟩
  · simp [Live, create, empty]
  · simp [Live, create, empty]

/-- Without a call in between, the array at 32 is left. -/
theorem hashmap_delete_leak :
    ¬ ∃ heap', empty.run true 1 16 32 [] = some heap' ∧ ∀ p, heap'.Live p ↔ empty.Live p := by
  rintro ⟨heap', done, same⟩
  cases done
  exact not_live_empty 32 ((same 32).mp (.inr (.inl (by simp [create]))))

end HashmapHeap

end WivOS.Utils
