import WivOS.Utils.Strings
import WivOS.Utils.Lists

/-!
# Hash maps

The hash maps of `utils/lists.c`: an array of chains of entries, each with its own copy of the key. A
read or a write outside of the array that `kmalloc` returned faults, and so does one of memory that is
not allocated. `Represents` ties the chains to the entries in the order in which their keys were bound.
The maps behave as finite maps from strings to values exactly if the size of the array does not wrap.
-/

namespace WivOS.Utils
open Lib

/-- `hashmap_entry_t`. -/
structure HashmapEntry where
  key : Nat
  value : Option Nat
  next : Option Nat
deriving DecidableEq, Repr

/-- `hashmap_t`, with its array, the entries and the keys in memory. -/
structure Hashmap where
  hashSize : Nat
  buckets : Nat → Option (Option Nat)
  entries : Nat → Option HashmapEntry
  keys : Nat → Option Bytes

/-- C `int c = *key`; whether `char` is signed depends on the architecture. -/
def charToInt (signed : Bool) (c : UInt8) : BitVec 32 :=
  if signed then c.toBitVec.signExtend 32 else c.toBitVec.setWidth 32

/-- The loop of C `hashmap_string_hash`. -/
def hashLoop (signed : Bool) : Bytes → BitVec 32 → Option (BitVec 32)
  | [], _ => none
  | c :: key, hash =>
    if c = 0 then some hash
    else hashLoop signed key (charToInt signed c + (hash <<< 6) + (hash <<< 16) - hash)

/-- C `hashmap_string_hash`. -/
def hashmapStringHash (signed : Bool) (key : Bytes) : Option (BitVec 32) := hashLoop signed key 0

/-- C `hashmap_create`: `kmalloc` returns as many bytes as it is asked for, all zero. -/
def hashmapCreate (hashSize : Nat) (entries : Nat → Option HashmapEntry) (keys : Nat → Option Bytes) :
    Hashmap where
  hashSize := hashSize
  buckets i := if 8 * (i + 1) ≤ 8 * hashSize % 2 ^ 64 then some none else none
  entries := entries
  keys := keys

namespace Hashmap

/-- C `hash % map->hashSize`, of which both sides are 64 bits wide. -/
def index (map : Hashmap) (hash : BitVec 64) : Option Nat :=
  if map.hashSize = 0 then none else some (hash.toNat % map.hashSize)

/-- C `map->hashmap[i] = entry`. -/
def setBucket (map : Hashmap) (i : Nat) (entry : Option Nat) : Option Hashmap :=
  match map.buckets i with
  | none => none
  | some _ => some { map with buckets := Function.update map.buckets i (some entry) }

/-- C `entry->next = next`. -/
def setNext (map : Hashmap) (entry : Nat) (next : Option Nat) : Option Hashmap := do
  let e ← map.entries entry
  return { map with entries := Function.update map.entries entry (some { e with next := next }) }

/-- A new entry at the address `entry`, with the copy of the key at `dup`. -/
def newEntry (map : Hashmap) (entry dup : Nat) (key : Bytes) (value : Option Nat) : Option Hashmap := do
  let bytes ← dupBytes key
  return { map with
    keys := Function.update map.keys dup (some bytes)
    entries := Function.update map.entries entry (some ⟨dup, value, none⟩) }

/-- The loop over a chain of C `hashmap_set`, `hashmap_get`, `hashmap_remove` and `hashmap_has`: the
entry with the key, and the entry before it (or the last entry). -/
def search (map : Hashmap) (key : Bytes) :
    Nat → Option Nat → Option Nat → Option (Option Nat × Option Nat)
  | 0, _, _ => none
  | _ + 1, lastEntry, none => some (lastEntry, none)
  | fuel + 1, lastEntry, some entry => do
    let e ← map.entries entry
    let cmp ← strcmp (← map.keys e.key) key
    if cmp = 0 then return (lastEntry, some entry)
    search map key fuel (some entry) e.next

end Hashmap

/-- C `hashmap_set`, for which `kmalloc` returns `entry` and `strdup` returns `dup`. -/
def hashmapSet (signed : Bool) (map : Hashmap) (key : Bytes) (value : Option Nat) (entry dup : Nat) :
    Option (Option Nat × Hashmap) := do
  let hash ← hashmapStringHash signed key
  let i ← map.index (hash.setWidth 64)
  match ← map.buckets i with
  | some first =>
    match ← map.search key nodeCount none (some first) with
    | (_, some found) =>
      -- the key is bound: its entry gets the value
      let e ← map.entries found
      return (e.value, { map with
        entries := Function.update map.entries found (some { e with value := value }) })
    | (lastEntry, none) =>
      -- a new entry behind the last one of the bucket
      let map ← map.newEntry entry dup key value
      let map ← map.setNext (← lastEntry) (some entry)
      return (none, map)
  | none =>
    -- a new entry in an empty bucket
    let map ← map.newEntry entry dup key value
    let map ← map.setBucket i (some entry)
    return (none, map)

/-- The entry that C `hashmap_get`, `hashmap_remove` and `hashmap_has` find for a key, with its bucket and
the entry before it. -/
def Hashmap.lookup (signed : Bool) (map : Hashmap) (key : Bytes) :
    Option (Nat × Option Nat × Option Nat) := do
  let hash : BitVec 64 := (← hashmapStringHash signed key).setWidth 64
  let i ← map.index hash
  let first ← map.buckets i
  let (lastEntry, found) ← map.search key nodeCount none first
  return (i, lastEntry, found)

/-- C `hashmap_get`. -/
def hashmapGet (signed : Bool) (map : Hashmap) (key : Bytes) : Option (Option Nat) := do
  let (_, _, found) ← map.lookup signed key
  match found with
  | none => return none
  | some entry =>
    let e ← map.entries entry
    return e.value

/-- C `hashmap_remove`. -/
def hashmapRemove (signed : Bool) (map : Hashmap) (key : Bytes) : Option (Option Nat × Hashmap) := do
  let (i, lastEntry, found) ← map.lookup signed key
  match found with
  | none => return (none, map)
  | some entry =>
    let e ← map.entries entry
    let map ← match lastEntry with
      | some last => map.setNext last e.next
      | none => map.setBucket i e.next
    return (e.value, { map with
      keys := Function.update map.keys e.key none
      entries := Function.update map.entries entry none })

/-- C `hashmap_has`. -/
def hashmapHas (signed : Bool) (map : Hashmap) (key : Bytes) : Option Bool := do
  let (_, _, found) ← map.lookup signed key
  return found.isSome

/-- The loop over a chain of C `hashmap_to_list`; `nodes` are what `kmalloc` returns. -/
def pushKeys (map : Hashmap) :
    Nat → Option Nat → LinkedList → List Nat → Option (LinkedList × List Nat)
  | 0, _, _, _ => none
  | _ + 1, none, list, nodes => some (list, nodes)
  | fuel + 1, some entry, list, nodes => do
    let e ← map.entries entry
    let (_, list) ← listPushBack list (← nodes.head?) (some e.key)
    pushKeys map fuel e.next list nodes.tail

/-- The loop over the array of C `hashmap_to_list`, for `n` buckets from `i` on. -/
def toListLoop (map : Hashmap) : Nat → Nat → LinkedList → List Nat → Option LinkedList
  | 0, _, list, _ => some list
  | n + 1, i, list, nodes => do
    let (list, nodes) ← pushKeys map nodeCount (← map.buckets i) list nodes
    toListLoop map n (i + 1) list nodes

/-- C `hashmap_to_list`, in a memory that holds other lists. -/
def hashmapToList (map : Hashmap) (memory : Nat → Option ListNode) (nodes : List Nat) :
    Option LinkedList :=
  toListLoop map map.hashSize 0 (listCreate memory) nodes

/-! ## The entries of a map -/

/-- An entry with the address of its key, the string that is the key, and its value. -/
structure Item where
  entry : Nat
  key : Nat
  str : Bytes
  value : Option Nat

/-- The entry in memory. -/
def Item.toEntry (x : Item) (_ next : Option Nat) : HashmapEntry := ⟨x.key, x.value, next⟩

/-- The hash of a string. -/
def hashOf (signed : Bool) (str : Bytes) : BitVec 32 :=
  str.foldl (fun hash c => charToInt signed c + (hash <<< 6) + (hash <<< 16) - hash) 0

/-- The bucket of a string. -/
def home (signed : Bool) (hashSize : Nat) (str : Bytes) : Nat :=
  ((hashOf signed str).setWidth 64).toNat % hashSize

/-- The entries of a bucket, where `place` gives the bucket of a string. -/
def chain (place : Bytes → Nat) (items : List Item) (i : Nat) : List Item :=
  items.filter fun x => place x.str = i

/-- The value that is bound to a string. -/
def binding (items : List Item) (str : Bytes) : Option (Option Nat) :=
  (items.find? (·.str = str)).map Item.value

/-- The entries of a map, in the order in which their keys were bound. -/
structure Hashmap.Represents (place : Bytes → Nat) (map : Hashmap) (items : List Item) : Prop where
  entries : (items.map Item.entry).Nodup
  keys : (items.map Item.key).Nodup
  strs : (items.map Item.str).Nodup
  stored : ∀ x ∈ items, map.keys x.key = some (x.str ++ [0]) ∧ 0 ∉ x.str
  address : ∀ x ∈ items, LinkedList.Address x.entry
  buckets : ∀ i < map.hashSize, map.buckets i = some (firstOr Item.entry (chain place items i) none)
  linked : ∀ i < map.hashSize,
    Linked Item.entry Item.toEntry map.entries none (chain place items i) none

namespace Hashmap
variable {signed : Bool} {place : Bytes → Nat} {map : Hashmap} {items a b c : List Item} {x y : Item}
  {key str : Bytes} {fuel i : Nat}

/-- The hash of a string. -/
lemma hashLoop_eq (h : IsStr key str) : hashmapStringHash signed key = some (hashOf signed str) := by
  obtain ⟨h0, rest, rfl⟩ := h
  unfold hashmapStringHash hashOf
  generalize (0 : BitVec 32) = hash
  induction str generalizing hash with
  | nil => simp [hashLoop]
  | cons c str ih =>
    simp only [List.mem_cons, not_or] at h0
    simp [hashLoop, Ne.symm h0.1, ih h0.2]

/-- The bucket of a string is in the array. -/
lemma home_lt {hashSize : Nat} (pos : 0 < hashSize) : home signed hashSize str < hashSize :=
  Nat.mod_lt _ pos

/-- The index is that of the bucket. -/
lemma index_eq (pos : 0 < map.hashSize) :
    map.index ((hashOf signed str).setWidth 64) = some (home signed map.hashSize str) := by
  simp [index, Nat.ne_of_gt pos, home]

/-- The chain of entries after each other. -/
lemma chain_append : chain place (a ++ b) i = chain place a i ++ chain place b i := by
  simp [chain]

/-- An entry of the chain is its first one. -/
lemma chain_cons_self (own : place x.str = i) : chain place (x :: b) i = x :: chain place b i := by
  simp [chain, own]

/-- An entry of another chain is not in it. -/
lemma chain_cons_other (other : place x.str ≠ i) : chain place (x :: b) i = chain place b i := by
  simp [chain, other]

/-- A chain has entries of the map only. -/
lemma chain_subset : chain place items i ⊆ items := List.filter_subset_self _

/-- The loop over a chain goes on behind entries with other keys. -/
lemma search_skip {p n : Option Nat} (linked : Linked Item.entry Item.toEntry map.entries p a n)
    (stored : ∀ y ∈ a, map.keys y.key = some (y.str ++ [0]) ∧ 0 ∉ y.str) (isStr : IsStr key str)
    (others : ∀ y ∈ a, y.str ≠ str) (last : Option Nat) (fuel : Nat) :
    map.search key (a.length + fuel) last (firstOr Item.entry a n) =
      map.search key fuel (lastOr Item.entry last a) n := by
  induction a generalizing p last with
  | nil => simp
  | cons y a ih =>
    obtain ⟨bytes, h0⟩ := stored y (by simp)
    obtain ⟨r, compared, zero⟩ := strcmp_eq (isStr_self h0) isStr
    have different : r ≠ 0 := fun e => others y (by simp) (zero.mp e)
    have rest := ih linked.2 (fun z mem => stored z (by simp [mem]))
      (fun z mem => others z (by simp [mem])) (some y.entry)
    have more : (y :: a).length + fuel = a.length + fuel + 1 := by
      rw [List.length_cons]
      omega
    rw [more, firstOr_cons, search]
    simpa [linked.1, Item.toEntry, bytes, compared, different] using rest

/-- The loop over a chain comes to an entry with the key. -/
lemma search_found {p : Option Nat}
    (linked : Linked Item.entry Item.toEntry map.entries p (a ++ x :: b) none)
    (stored : ∀ y ∈ a ++ x :: b, map.keys y.key = some (y.str ++ [0]) ∧ 0 ∉ y.str)
    (isStr : IsStr key x.str) (others : ∀ y ∈ a, y.str ≠ x.str) (last : Option Nat)
    (enough : a.length < fuel) :
    map.search key fuel last (firstOr Item.entry (a ++ x :: b) none) =
      some (lastOr Item.entry last a, some x.entry) := by
  obtain ⟨before, atX, -⟩ := linked_append.mp linked
  obtain ⟨bytes, h0⟩ := stored x (by simp)
  obtain ⟨r, compared, zero⟩ := strcmp_eq (isStr_self h0) isStr
  obtain rfl := zero.mpr rfl
  obtain ⟨more, rfl⟩ := Nat.exists_eq_add_of_lt enough
  rw [firstOr_append, Nat.add_assoc,
    search_skip before (fun y mem => stored y (by simp [mem])) isStr others]
  simp [search, atX, Item.toEntry, bytes, compared]

/-- The loop over a chain comes to its end. -/
lemma search_missing {p : Option Nat}
    (linked : Linked Item.entry Item.toEntry map.entries p c none)
    (stored : ∀ y ∈ c, map.keys y.key = some (y.str ++ [0]) ∧ 0 ∉ y.str)
    (isStr : IsStr key str) (others : ∀ y ∈ c, y.str ≠ str) (last : Option Nat)
    (enough : c.length < fuel) :
    map.search key fuel last (firstOr Item.entry c none) = some (lastOr Item.entry last c, none) := by
  obtain ⟨more, rfl⟩ := Nat.exists_eq_add_of_lt enough
  rw [Nat.add_assoc, search_skip linked stored isStr others]
  rfl

namespace Represents

/-- There are fewer entries than addresses. -/
lemma length_lt (h : map.Represents place items) : items.length < 2 ^ 64 := by
  have pairs : (items.map fun x => (x.entry, x.value)).length < 2 ^ 64 := by
    apply LinkedList.length_lt
    · rw [List.map_map]
      exact h.entries
    · intro y mem
      obtain ⟨x, hx, rfl⟩ := List.mem_map.mp mem
      exact h.address x hx
  simpa using pairs

/-- The fuel is enough for a chain. -/
lemma chain_length (h : map.Represents place items) (i : Nat) :
    (chain place items i).length < nodeCount :=
  Nat.lt_of_le_of_lt (List.length_filter_le ..) h.length_lt

/-- The keys of a chain are stored. -/
lemma stored_chain (h : map.Represents place items) :
    ∀ y ∈ chain place items i, map.keys y.key = some (y.str ++ [0]) ∧ 0 ∉ y.str :=
  fun y mem => h.stored y (chain_subset mem)

/-- Entries are told apart by their address. -/
lemma entry_notMem (h : map.Represents place items) (mem : y ∈ items) (sub : c ⊆ items)
    (other : y ∉ c) : y.entry ∉ c.map Item.entry := by
  intro he
  obtain ⟨z, hz, e⟩ := List.mem_map.mp he
  exact other (List.inj_on_of_nodup_map h.entries (sub hz) mem e ▸ hz)

/-- An entry is in no chain but its own. -/
lemma entry_notMem_chain (h : map.Represents place items) (mem : y ∈ items) (other : place y.str ≠ i) :
    y.entry ∉ (chain place items i).map Item.entry := by
  apply h.entry_notMem mem chain_subset
  intro hy
  exact other (by simpa using (List.mem_filter.mp hy).2)

/-- An entry is there once. -/
lemma split (h : map.Represents place (a ++ x :: b)) :
    (∀ y ∈ a ++ b, y.entry ≠ x.entry ∧ y.key ≠ x.key ∧ y.str ≠ x.str) ∧
      (∀ y ∈ a, y ∉ b) := by
  have moved : (a ++ x :: b).Perm (x :: (a ++ b)) := List.perm_middle
  have entries := (moved.map Item.entry).nodup_iff.mp h.entries
  have keys := (moved.map Item.key).nodup_iff.mp h.keys
  have strs := (moved.map Item.str).nodup_iff.mp h.strs
  simp only [List.map_cons, List.nodup_cons] at entries keys strs
  constructor
  · intro y mem
    refine ⟨?_, ?_, ?_⟩
    · exact fun e => entries.1 (e ▸ List.mem_map_of_mem mem)
    · exact fun e => keys.1 (e ▸ List.mem_map_of_mem mem)
    · exact fun e => strs.1 (e ▸ List.mem_map_of_mem mem)
  · have nodup := entries.2.of_map
    rw [List.nodup_append] at nodup
    exact fun y ha hb => nodup.2.2 y ha y hb rfl

/-- The key is bound. -/
lemma search_chain_found (h : map.Represents place (a ++ x :: b)) (inside : place x.str < map.hashSize)
    (isStr : IsStr key x.str) :
    map.search key nodeCount none (firstOr Item.entry (chain place (a ++ x :: b) (place x.str)) none) =
      some (lastOr Item.entry none (chain place a (place x.str)), some x.entry) := by
  have linked := h.linked _ inside
  have short := h.chain_length (place x.str)
  have stored := h.stored_chain (i := place x.str)
  rw [chain_append, chain_cons_self rfl] at linked short stored ⊢
  have others : ∀ y ∈ chain place a (place x.str), y.str ≠ x.str := by
    intro y mem
    exact (h.split.1 y (by simp [chain_subset mem])).2.2
  exact search_found linked stored isStr others none (Nat.lt_of_le_of_lt (by simp) short)

/-- The key is not bound. -/
lemma search_chain_missing (h : map.Represents place items) (inside : place str < map.hashSize)
    (isStr : IsStr key str) (unbound : str ∉ items.map Item.str) :
    map.search key nodeCount none (firstOr Item.entry (chain place items (place str)) none) =
      some (lastOr Item.entry none (chain place items (place str)), none) := by
  refine search_missing (h.linked _ inside) h.stored_chain isStr ?_ none (h.chain_length _)
  intro y mem e
  exact unbound (e ▸ List.mem_map_of_mem (chain_subset mem))

/-- An entry that is the first of its chain is taken out. -/
lemma unlink_first (h : map.Represents place (a ++ x :: b)) (first : chain place a (place x.str) = [])
    (hi : i < map.hashSize) :
    Function.update map.buckets (place x.str)
        (some (firstOr Item.entry (chain place b (place x.str)) none)) i =
      some (firstOr Item.entry (chain place (a ++ b) i) none) ∧
    Linked Item.entry Item.toEntry map.entries none (chain place (a ++ b) i) none := by
  have linked := h.linked i hi
  have bucket := h.buckets i hi
  rw [chain_append] at linked bucket ⊢
  by_cases own : place x.str = i
  · subst own
    rw [chain_cons_self rfl, first] at linked
    rw [first]
    exact ⟨by simp, linked.2.forward fun _ _ _ _ => rfl⟩
  · rw [chain_cons_other own] at linked bucket
    exact ⟨by rw [Function.update_of_ne (Ne.symm own), bucket], linked⟩

/-- An entry behind another one is taken out of its chain. -/
lemma unlink_behind (h : map.Represents place (a ++ x :: b))
    (behind : chain place a (place x.str) = c ++ [y]) (hi : i < map.hashSize) :
    map.buckets i = some (firstOr Item.entry (chain place (a ++ b) i) none) ∧
    Linked Item.entry Item.toEntry (Function.update map.entries y.entry (some (y.toEntry none
      (firstOr Item.entry (chain place b (place x.str)) none)))) none (chain place (a ++ b) i) none := by
  have linked := h.linked i hi
  have bucket := h.buckets i hi
  have mem : y ∈ chain place a (place x.str) := by simp [behind]
  have inA : y ∈ a := chain_subset mem
  have sameHome : place y.str = place x.str := by simpa using (List.mem_filter.mp mem).2
  by_cases own : place x.str = i
  · subst own
    rw [chain_append, chain_cons_self rfl, behind] at linked bucket
    obtain ⟨before, -, rest⟩ := linked_append.mp linked
    rw [chain_append, behind]
    refine ⟨by simpa using bucket, linked_append.mpr ⟨?_, ?_⟩⟩
    · refine (before.update_last ?_).forward fun _ _ _ _ => rfl
      have nodup : ((chain place a (place x.str)).map Item.entry).Nodup :=
        h.entries.sublist ((List.filter_sublist.trans (List.sublist_append_left ..)).map _)
      rw [behind, List.map_append, List.nodup_append] at nodup
      exact fun he => nodup.2.2 _ he y.entry (by simp) rfl
    · refine (rest.update ?_).forward fun _ _ _ _ => rfl
      refine h.entry_notMem (by simp [inA]) ?_ fun hb => h.split.2 y inA (chain_subset hb)
      intro z hz
      simp [chain_subset hz]
  · have other := h.entry_notMem_chain (y := y) (by simp [inA]) (sameHome ▸ own)
    rw [chain_append, chain_cons_other own, ← chain_append] at linked bucket other
    exact ⟨bucket, linked.update other⟩

/-- No other entry has the address of an entry. -/
lemma entry_unique (h : map.Represents place (a ++ x :: b)) (sub : c ⊆ a ++ b) :
    x.entry ∉ c.map Item.entry := by
  intro he
  obtain ⟨y, hy, e⟩ := List.mem_map.mp he
  exact (h.split.1 y (sub hy)).1 e

/-- An entry gets another value. -/
lemma revalue (h : map.Represents place (a ++ x :: b)) (x' : Item) (he : x'.entry = x.entry)
    (hk : x'.key = x.key) (hs : x'.str = x.str) :
    Represents place { map with
      entries := Function.update map.entries x.entry (some (x'.toEntry none
        (firstOr Item.entry (chain place b (place x.str)) none))) } (a ++ x' :: b) := by
  have old : ∀ y ∈ a ++ x' :: b, ∃ z ∈ a ++ x :: b,
      y.entry = z.entry ∧ y.key = z.key ∧ y.str = z.str := by
    intro y mem
    simp only [List.mem_append, List.mem_cons] at mem ⊢
    rcases mem with mem | rfl | mem
    · exact ⟨y, .inl mem, rfl, rfl, rfl⟩
    · exact ⟨x, .inr (.inl rfl), he, hk, hs⟩
    · exact ⟨y, .inr (.inr mem), rfl, rfl, rfl⟩
  refine ⟨by simpa [he] using h.entries, by simpa [hk] using h.keys, by simpa [hs] using h.strs,
    ?_, ?_, ?_, ?_⟩
  · intro y mem
    obtain ⟨z, hz, -, hk, hs⟩ := old y mem
    rw [hk, hs]
    exact h.stored z hz
  · intro y mem
    obtain ⟨z, hz, he, -⟩ := old y mem
    rw [he]
    exact h.address z hz
  · intro i hi
    have bucket := h.buckets i hi
    rw [chain_append] at bucket ⊢
    by_cases own : place x.str = i
    · rw [chain_cons_self own] at bucket
      rw [chain_cons_self (hs ▸ own)]
      simpa [he] using bucket
    · rw [chain_cons_other own] at bucket
      rw [chain_cons_other (hs ▸ own)]
      exact bucket
  · intro i hi
    have linked := h.linked i hi
    rw [chain_append] at linked ⊢
    by_cases own : place x.str = i
    · subst own
      rw [chain_cons_self rfl] at linked
      rw [chain_cons_self (congrArg place hs)]
      refine linked.update_at he (h.entry_unique ?_) (h.entry_unique ?_)
      · exact List.subset_append_of_subset_left _ chain_subset
      · exact List.subset_append_of_subset_right _ chain_subset
    · rw [chain_cons_other own] at linked
      rw [chain_cons_other (hs ▸ own)]
      rw [← chain_append] at linked ⊢
      exact linked.update (h.entry_unique chain_subset)

/-- An address that is free is not that of an entry. -/
lemma fresh_entry {entry : Nat} (h : map.Represents place items)
    (inside : ∀ str, place str < map.hashSize) (free : map.entries entry = none) :
    entry ∉ items.map Item.entry := by
  intro he
  obtain ⟨y, hy, rfl⟩ := List.mem_map.mp he
  have inChain : y ∈ chain place items (place y.str) := by simp [chain, hy]
  obtain ⟨p, n, stored⟩ := (h.linked _ (inside y.str)).exists_node inChain
  rw [free] at stored
  cases stored

/-- A free address is none of a key. -/
lemma fresh_key {dup : Nat} (h : map.Represents place items) (free : map.keys dup = none) :
    dup ∉ items.map Item.key := by
  intro he
  obtain ⟨y, hy, rfl⟩ := List.mem_map.mp he
  rw [(h.stored y hy).1] at free
  cases free

/-- The chain of a single entry. -/
lemma chain_singleton_self (own : place x.str = i) : chain place [x] i = [x] := by simp [chain, own]

/-- Any other chain is empty then. -/
lemma chain_singleton_other (other : place x.str ≠ i) : chain place [x] i = [] := by
  simp [chain, other]

/-- A new entry is the first of its chain. -/
lemma link_first (h : map.Represents place items) (new : x.entry ∉ items.map Item.entry)
    (empty : chain place items (place x.str) = []) (hi : i < map.hashSize) :
    Function.update map.buckets (place x.str) (some (some x.entry)) i =
      some (firstOr Item.entry (chain place (items ++ [x]) i) none) ∧
    Linked Item.entry Item.toEntry (Function.update map.entries x.entry (some (x.toEntry none none)))
      none (chain place (items ++ [x]) i) none := by
  rw [chain_append]
  by_cases own : place x.str = i
  · subst own
    rw [empty, chain_singleton_self rfl]
    exact ⟨by simp, by simp⟩
  · rw [chain_singleton_other own, List.append_nil, Function.update_of_ne (Ne.symm own)]
    refine ⟨h.buckets i hi, (h.linked i hi).update ?_⟩
    exact fun he => new (List.map_subset _ chain_subset he)

/-- A new entry is put behind the last one of its chain. -/
lemma link_behind (h : map.Represents place items) (new : x.entry ∉ items.map Item.entry)
    (last : chain place items (place x.str) = c ++ [y]) (hi : i < map.hashSize) :
    map.buckets i = some (firstOr Item.entry (chain place (items ++ [x]) i) none) ∧
    Linked Item.entry Item.toEntry (Function.update
      (Function.update map.entries x.entry (some (x.toEntry none none))) y.entry
      (some (y.toEntry none (some x.entry)))) none (chain place (items ++ [x]) i) none := by
  have mem : y ∈ chain place items (place x.str) := by simp [last]
  have sameHome : place y.str = place x.str := by simpa using (List.mem_filter.mp mem).2
  have outside : x.entry ∉ (chain place items i).map Item.entry :=
    fun he => new (List.map_subset _ chain_subset he)
  have linked := (h.linked i hi).update (c := some (x.toEntry none none)) outside
  have bucket := h.buckets i hi
  rw [chain_append]
  by_cases own : place x.str = i
  · subst own
    have nodup : ((chain place items (place x.str)).map Item.entry).Nodup :=
      h.entries.sublist (List.filter_sublist.map _)
    have different : x.entry ≠ y.entry := fun e => new (e ▸ List.mem_map_of_mem (chain_subset mem))
    rw [last] at linked bucket nodup ⊢
    rw [List.map_append, List.nodup_append] at nodup
    rw [chain_singleton_self rfl]
    refine ⟨by simpa using bucket, linked_append.mpr ⟨?_, ?_⟩⟩
    · refine (linked.update_last ?_).forward fun _ _ _ _ => rfl
      exact fun he => nodup.2.2 _ he y.entry (by simp) rfl
    · simp [Function.update_of_ne different, Item.toEntry]
  · rw [chain_singleton_other own, List.append_nil]
    refine ⟨bucket, linked.update ?_⟩
    exact h.entry_notMem_chain (chain_subset mem) (sameHome ▸ own)

/-- A new entry in the place where it belongs. -/
lemma insert {map' : Hashmap} (h : map.Represents place items) (x : Item)
    (address : LinkedList.Address x.entry) (entries : x.entry ∉ items.map Item.entry)
    (keys : x.key ∉ items.map Item.key) (strs : x.str ∉ items.map Item.str) (h0 : 0 ∉ x.str)
    (size : map'.hashSize = map.hashSize)
    (stored : map'.keys = Function.update map.keys x.key (some (x.str ++ [0])))
    (linked : ∀ i < map.hashSize,
      map'.buckets i = some (firstOr Item.entry (chain place (items ++ [x]) i) none) ∧
      Linked Item.entry Item.toEntry map'.entries none (chain place (items ++ [x]) i) none) :
    map'.Represents place (items ++ [x]) := by
  have moved : (items ++ [x]).Perm (x :: items) := List.perm_append_singleton ..
  refine ⟨?_, ?_, ?_, ?_, ?_, fun i hi => (linked i (size ▸ hi)).1, fun i hi => (linked i (size ▸ hi)).2⟩
  · exact (moved.map _).nodup_iff.mpr (List.nodup_cons.mpr ⟨entries, h.entries⟩)
  · exact (moved.map _).nodup_iff.mpr (List.nodup_cons.mpr ⟨keys, h.keys⟩)
  · exact (moved.map _).nodup_iff.mpr (List.nodup_cons.mpr ⟨strs, h.strs⟩)
  · intro y mem
    rw [stored]
    rcases List.mem_cons.mp (moved.mem_iff.mp mem) with rfl | mem
    · exact ⟨by simp, h0⟩
    · have other : y.key ≠ x.key := fun e => keys (e ▸ List.mem_map_of_mem mem)
      rw [Function.update_of_ne other]
      exact h.stored y mem
  · intro y mem
    rcases List.mem_cons.mp (moved.mem_iff.mp mem) with rfl | mem
    · exact address
    · exact h.address y mem

/-- An entry is freed once it is out of its chain. -/
lemma free (map' : Hashmap) (h : map.Represents place (a ++ x :: b))
    (size : map'.hashSize = map.hashSize) (keys : map'.keys = map.keys)
    (unlinked : ∀ i < map.hashSize,
      map'.buckets i = some (firstOr Item.entry (chain place (a ++ b) i) none) ∧
      Linked Item.entry Item.toEntry map'.entries none (chain place (a ++ b) i) none) :
    Represents place { map' with
      keys := Function.update map'.keys x.key none
      entries := Function.update map'.entries x.entry none } (a ++ b) := by
  have sub : (a ++ b).Sublist (a ++ x :: b) := by simp
  refine ⟨h.entries.sublist (sub.map _), h.keys.sublist (sub.map _), h.strs.sublist (sub.map _), ?_,
    fun y mem => h.address y (sub.subset mem), ?_, ?_⟩
  · intro y mem
    simpa [keys, (h.split.1 y mem).2.1] using h.stored y (sub.subset mem)
  · intro i hi
    exact (unlinked i (size ▸ hi)).1
  · intro i hi
    exact (unlinked i (size ▸ hi)).2.update (h.entry_unique chain_subset)

end Represents

/-! ## The functions -/

section Update
variable {γ : Type} {m : Nat → Option γ} {q p : Nat}

/-- What is free once a block is freed. -/
lemma update_none_iff (m : Nat → Option γ) (q p : Nat) :
    Function.update m q none p = none ↔ m p = none ∨ p = q := by
  by_cases e : p = q
  · simp [e]
  · simp [e]

/-- What is free once a block is allocated. -/
lemma update_some_iff (m : Nat → Option γ) (q p : Nat) (x : γ) :
    Function.update m q (some x) p = none ↔ m p = none ∧ p ≠ q := by
  by_cases e : p = q
  · simp [e]
  · simp [e]

/-- A write to memory that is allocated. -/
lemma update_stored_iff {x y : γ} (stored : m q = some y) :
    Function.update m q (some x) p = none ↔ m p = none := by
  rw [update_some_iff]
  constructor
  · exact And.left
  · intro free
    refine ⟨free, fun e => ?_⟩
    rw [e, stored] at free
    cases free

end Update

/-- The buckets of the keys of a map are those of their hashes. -/
abbrev Maps (signed : Bool) (map : Hashmap) (items : List Item) : Prop :=
  map.Represents (home signed map.hashSize) items

namespace Represents
variable (pos : 0 < map.hashSize)
include pos

/-- The search finds the entry, with the one before it in the chain. -/
lemma lookup_found (h : map.Maps signed (a ++ x :: b)) (isStr : IsStr key x.str) :
    map.lookup signed key = some (home signed map.hashSize x.str,
      lastOr Item.entry none (chain (home signed map.hashSize) a (home signed map.hashSize x.str)),
      some x.entry) := by
  have inside : home signed map.hashSize x.str < map.hashSize := home_lt pos
  simp [lookup, hashLoop_eq isStr, index_eq pos, h.buckets _ inside, h.search_chain_found inside isStr]

/-- The search ends behind the chain. -/
lemma lookup_missing (h : map.Maps signed items) (isStr : IsStr key str)
    (unbound : str ∉ items.map Item.str) :
    map.lookup signed key = some (home signed map.hashSize str,
      lastOr Item.entry none (chain (home signed map.hashSize) items (home signed map.hashSize str)),
      none) := by
  have inside : home signed map.hashSize str < map.hashSize := home_lt pos
  simp [lookup, hashLoop_eq isStr, index_eq pos, h.buckets _ inside,
    h.search_chain_missing inside isStr unbound]

/-- `hashmap_get` of a key that is bound. -/
lemma get_found (h : map.Maps signed (a ++ x :: b)) (isStr : IsStr key x.str) :
    hashmapGet signed map key = some x.value := by
  have linked := h.linked (home signed map.hashSize x.str) (home_lt pos)
  rw [chain_append, chain_cons_self rfl] at linked
  have stored := (linked_append.mp linked).2.1
  simp [hashmapGet, lookup_found pos h isStr, stored, Item.toEntry]

/-- `hashmap_remove` of a key that is bound. -/
lemma remove_found (h : map.Maps signed (a ++ x :: b)) (isStr : IsStr key x.str) :
    ∃ map', hashmapRemove signed map key = some (x.value, map') ∧
      map'.hashSize = map.hashSize ∧ map'.Maps signed (a ++ b) ∧
      (∀ p, map'.entries p = none ↔ map.entries p = none ∨ p = x.entry) ∧
      ∀ p, map'.keys p = none ↔ map.keys p = none ∨ p = x.key := by
  have inside : home signed map.hashSize x.str < map.hashSize := home_lt pos
  have linked := h.linked _ inside
  have bucket := h.buckets _ inside
  have found := lookup_found pos h isStr
  rw [chain_append, chain_cons_self rfl] at linked
  have stored := (linked_append.mp linked).2.1
  rcases List.eq_nil_or_concat' (chain (home signed map.hashSize) a (home signed map.hashSize x.str))
    with first | ⟨c, y, behind⟩
  · let map' : Hashmap := { map with
      buckets := Function.update map.buckets (home signed map.hashSize x.str) (some (firstOr Item.entry
        (chain (home signed map.hashSize) b (home signed map.hashSize x.str)) none)) }
    refine ⟨{ map' with
      keys := Function.update map'.keys x.key none
      entries := Function.update map'.entries x.entry none }, ?_, rfl,
      h.free map' rfl rfl fun i hi => h.unlink_first first hi, fun p => update_none_iff ..,
      fun p => update_none_iff ..⟩
    simp [hashmapRemove, found, first, stored, Item.toEntry, setBucket, bucket, map']
  · rw [behind] at linked
    have last := (linked_append.mp (linked_append.mp linked).1).2.1
    let map' : Hashmap := { map with
      entries := Function.update map.entries y.entry (some (y.toEntry none (firstOr Item.entry
        (chain (home signed map.hashSize) b (home signed map.hashSize x.str)) none))) }
    refine ⟨{ map' with
      keys := Function.update map'.keys x.key none
      entries := Function.update map'.entries x.entry none }, ?_, rfl,
      h.free map' rfl rfl fun i hi => h.unlink_behind behind hi, fun p => ?_,
      fun p => update_none_iff ..⟩
    · simp [hashmapRemove, found, behind, stored, Item.toEntry, setNext, last, map']
    · rw [update_none_iff, update_stored_iff last]

/-- An entry gets another value. -/
lemma set_found (h : map.Maps signed (a ++ x :: b)) (isStr : IsStr key x.str) (value : Option Nat)
    (entry dup : Nat) :
    ∃ map', hashmapSet signed map key value entry dup = some (x.value, map') ∧
      map'.hashSize = map.hashSize ∧ map'.Maps signed (a ++ { x with value := value } :: b) ∧
      (∀ p, map'.entries p = none ↔ map.entries p = none) ∧ map'.keys = map.keys := by
  have inside : home signed map.hashSize x.str < map.hashSize := home_lt pos
  have linked := h.linked _ inside
  have bucket := h.buckets _ inside
  have found := h.search_chain_found inside isStr
  rw [chain_append, chain_cons_self rfl] at linked bucket found
  have stored := (linked_append.mp linked).2.1
  obtain ⟨first, hf⟩ : ∃ first, firstOr Item.entry
      (chain (home signed map.hashSize) a (home signed map.hashSize x.str) ++
        x :: chain (home signed map.hashSize) b (home signed map.hashSize x.str)) none = some first := by
    cases chain (home signed map.hashSize) a (home signed map.hashSize x.str) <;> simp
  rw [hf] at bucket found
  refine ⟨{ map with entries := Function.update map.entries x.entry (some ⟨x.key, value,
    firstOr Item.entry (chain (home signed map.hashSize) b (home signed map.hashSize x.str)) none⟩) },
    ?_, rfl, ?_, fun p => update_stored_iff stored, rfl⟩
  · simp [hashmapSet, hashLoop_eq isStr, index_eq pos, bucket, found, stored, Item.toEntry]
  · exact h.revalue { x with value := value } rfl rfl rfl

/-- `hashmap_set` of a key that is not bound. -/
lemma set_missing (h : map.Maps signed items) (isStr : IsStr key str)
    (unbound : str ∉ items.map Item.str) (value : Option Nat) {entry dup : Nat}
    (address : LinkedList.Address entry) (freeEntry : map.entries entry = none)
    (freeKey : map.keys dup = none) :
    ∃ map', hashmapSet signed map key value entry dup = some (none, map') ∧
      map'.hashSize = map.hashSize ∧ map'.Maps signed (items ++ [⟨entry, dup, str, value⟩]) ∧
      (∀ p, map'.entries p = none ↔ map.entries p = none ∧ p ≠ entry) ∧
      ∀ p, map'.keys p = none ↔ map.keys p = none ∧ p ≠ dup := by
  have all : ∀ str, home signed map.hashSize str < map.hashSize := fun _ => home_lt pos
  have inside := all str
  have bucket := h.buckets _ inside
  have missing := h.search_chain_missing inside isStr unbound
  have newEntry := h.fresh_entry all freeEntry
  have newKey := h.fresh_key freeKey
  rcases List.eq_nil_or_concat' (chain (home signed map.hashSize) items (home signed map.hashSize str))
    with empty | ⟨c, y, last⟩
  · rw [empty] at bucket
    refine ⟨{ map with
      buckets := Function.update map.buckets (home signed map.hashSize str) (some (some entry))
      keys := Function.update map.keys dup (some (str ++ [0]))
      entries := Function.update map.entries entry (some ⟨dup, value, none⟩) }, ?_, rfl, ?_,
      fun p => update_some_iff .., fun p => update_some_iff ..⟩
    · simp [hashmapSet, hashLoop_eq isStr, index_eq pos, bucket, Hashmap.newEntry, dupBytes_eq isStr,
        setBucket]
    · exact h.insert ⟨entry, dup, str, value⟩ address newEntry newKey unbound isStr.1 rfl rfl
        fun i hi => h.link_first (x := ⟨entry, dup, str, value⟩) newEntry empty hi
  · have mem : y ∈ chain (home signed map.hashSize) items (home signed map.hashSize str) := by
      simp [last]
    have different : y.entry ≠ entry :=
      fun e => newEntry (e ▸ List.mem_map_of_mem (chain_subset mem))
    obtain ⟨first, hf⟩ : ∃ first, firstOr Item.entry (c ++ [y]) none = some first := by
      cases c <;> simp
    have linked := h.linked _ inside
    rw [last] at linked bucket missing
    rw [hf] at bucket missing
    have stored := (linked_append.mp linked).2.1
    refine ⟨{ map with
      keys := Function.update map.keys dup (some (str ++ [0]))
      entries := Function.update (Function.update map.entries entry (some ⟨dup, value, none⟩)) y.entry
        (some ⟨y.key, y.value, some entry⟩) }, ?_, rfl, ?_, fun p => ?_, fun p => update_some_iff ..⟩
    · simp [hashmapSet, hashLoop_eq isStr, index_eq pos, bucket, missing, Hashmap.newEntry,
        dupBytes_eq isStr, setNext, different, stored, Item.toEntry]
    · exact h.insert ⟨entry, dup, str, value⟩ address newEntry newKey unbound isStr.1 rfl rfl
        fun i hi => h.link_behind (x := ⟨entry, dup, str, value⟩) newEntry last hi
    · have kept : Function.update map.entries entry (some ⟨dup, value, none⟩) y.entry = _ :=
        (Function.update_of_ne different ..).trans stored
      rw [update_stored_iff kept, update_some_iff]

end Represents

/-! ## The list of the keys -/

/-- Addresses that `kmalloc` may return one after the other. -/
def Supply (list : LinkedList) (nodes : List Nat) : Prop :=
  nodes.Nodup ∧ ∀ node ∈ nodes, LinkedList.Address node ∧ list.nodes node = none

/-- The keys of a chain are pushed in its order. -/
lemma pushKeys_eq {list : LinkedList} {l : Contents} {nodes : List Nat} {p : Option Nat}
    (linked : Linked Item.entry Item.toEntry map.entries p c none) (holds : list.Holds l)
    (supply : Supply list nodes) (enough : c.length ≤ nodes.length) (short : c.length < fuel) :
    ∃ list', pushKeys map fuel (firstOr Item.entry c none) list nodes =
        some (list', nodes.drop c.length) ∧
      list'.Holds (l ++ nodes.zip (c.map fun x => some x.key)) ∧
      Supply list' (nodes.drop c.length) := by
  induction c generalizing list l nodes p fuel with
  | nil =>
    obtain ⟨fuel, rfl⟩ := Nat.exists_eq_succ_of_ne_zero (Nat.ne_of_gt short)
    exact ⟨list, rfl, by simpa using holds, supply⟩
  | cons x c ih =>
    obtain ⟨fuel, rfl⟩ := Nat.exists_eq_succ_of_ne_zero (Nat.ne_of_gt (Nat.zero_lt_of_lt short))
    obtain _ | ⟨node, nodes⟩ := nodes
    · simp at enough
    obtain ⟨address, free⟩ := supply.2 node (by simp)
    obtain ⟨list', pushed, holds'⟩ := holds.pushBack (some x.key) address free
    have nodup := List.nodup_cons.mp supply.1
    have supply' : Supply list' nodes := by
      refine ⟨nodup.2, ?_⟩
      intro a mem
      obtain ⟨address, free⟩ := supply.2 a (by simp [mem])
      refine ⟨address, LinkedList.pushBack_free pushed ?_ free⟩
      rintro rfl
      exact nodup.1 mem
    obtain ⟨list'', rest, holds'', supply''⟩ := ih linked.2 holds' supply'
      (by simpa using enough) (Nat.lt_of_succ_lt_succ short)
    refine ⟨list'', ?_, by simpa using holds'', supply''⟩
    simpa [pushKeys, linked.1, Item.toEntry, pushed] using rest

/-- Keys after each other take the nodes one after the other. -/
lemma zip_append_drop {α β : Type} (nodes : List α) (k k' : List β) (enough : k.length ≤ nodes.length) :
    nodes.zip (k ++ k') = nodes.zip k ++ (nodes.drop k.length).zip k' := by
  induction k generalizing nodes with
  | nil => simp
  | cons x k ih =>
    obtain _ | ⟨node, nodes⟩ := nodes
    · simp at enough
    · simpa using ih nodes (by simpa using enough)

/-- The keys of the buckets are pushed in their order. -/
lemma toListLoop_eq {list : LinkedList} {l : Contents} {nodes : List Nat} {n : Nat}
    (h : map.Represents place items) (last : i + n = map.hashSize) (holds : list.Holds l)
    (supply : Supply list nodes)
    (enough : ((List.range' i n).flatMap (chain place items)).length ≤ nodes.length) :
    ∃ list', toListLoop map n i list nodes = some list' ∧
      list'.Holds (l ++ nodes.zip
        (((List.range' i n).flatMap (chain place items)).map fun x => some x.key)) := by
  induction n generalizing i list l nodes with
  | zero => exact ⟨list, rfl, by simpa using holds⟩
  | succ n ih =>
    have inside : i < map.hashSize := by omega
    rw [List.range'_succ, List.flatMap_cons, List.length_append] at enough
    obtain ⟨list', pushed, holds', supply'⟩ := pushKeys_eq (h.linked i inside) holds supply
      (by omega) (h.chain_length i)
    obtain ⟨list'', rest, holds''⟩ := ih (i := i + 1) (by omega) holds' supply' (by
      rw [List.length_drop]
      omega)
    refine ⟨list'', ?_, ?_⟩
    · simpa [toListLoop, h.buckets i inside, pushed] using rest
    · rw [List.range'_succ, List.flatMap_cons, List.map_append, zip_append_drop _ _ _ (by simp; omega)]
      simpa using holds''

/-- Every entry is in one of the chains. -/
lemma Represents.flatMap_perm (h : map.Represents place items)
    (inside : ∀ str, place str < map.hashSize) :
    ((List.range' 0 map.hashSize).flatMap (chain place items)).Perm items := by
  have nodup : items.Nodup := h.strs.of_map
  have parts : ((List.range' 0 map.hashSize).flatMap (chain place items)).Nodup := by
    refine List.nodup_flatMap.mpr ⟨fun i _ => nodup.filter _, ?_⟩
    refine (List.nodup_range').imp ?_
    intro i j different x hi hj
    have atI : place x.str = i := by simpa using (List.mem_filter.mp hi).2
    have atJ : place x.str = j := by simpa using (List.mem_filter.mp hj).2
    exact different (atI.symm.trans atJ)
  refine (List.perm_ext_iff_of_nodup parts nodup).mpr ?_
  intro x
  simp [chain, inside]

/-- `hashmap_to_list`. -/
lemma Represents.toList (h : map.Represents place items) (inside : ∀ str, place str < map.hashSize)
    {memory : Nat → Option ListNode} {nodes : List Nat} (supply : Supply (listCreate memory) nodes)
    (enough : items.length ≤ nodes.length) :
    ∃ (list : LinkedList) (l : Contents) (strs : List Bytes),
      hashmapToList map memory nodes = some list ∧ list.WellFormed l ∧ strs.Perm (items.map Item.str) ∧
      l.map (fun x => x.2.bind map.keys) = strs.map fun str => some (str ++ [0]) := by
  have perm := h.flatMap_perm inside
  obtain ⟨list, done, holds⟩ := toListLoop_eq h (Nat.zero_add _) (LinkedList.holds_create memory) supply
    (perm.length_eq ▸ enough)
  refine ⟨list, _, _, done, holds.wellFormed, perm.map Item.str, ?_⟩
  have values : (nodes.zip (((List.range' 0 map.hashSize).flatMap (chain place items)).map
      fun x => some x.key)).map Prod.snd = _ :=
    List.map_snd_zip (by simpa [perm.length_eq] using enough)
  have read : ∀ l : Contents, l.map (fun x => x.2.bind map.keys) =
      (l.map Prod.snd).map (·.bind map.keys) := by
    intro l
    rw [List.map_map]
    rfl
  rw [List.nil_append, read, values, List.map_map, List.map_map]
  apply List.map_congr_left
  intro x mem
  exact (h.stored x (perm.subset mem)).1

end Hashmap

end WivOS.Utils
