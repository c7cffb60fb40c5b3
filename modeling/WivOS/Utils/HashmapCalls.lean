import WivOS.Utils.Hashmap

/-!
# Hash maps as finite maps

Calls of the functions on a hash map in any order, beside a finite map from strings to values. The
results are those of the finite map exactly if the array has as many bytes as its buckets take, which
`hashmap_create` computes without a look at the overflow.
-/

namespace WivOS.Utils
open Lib Hashmap

/-- A finite map from strings to values, where `some none` stands for a string that is bound to `NULL`. -/
abbrev FiniteMap := Bytes → Option (Option Nat)

/-- A call on a hash map. The addresses are what `kmalloc` and `strdup` return, and a list of keys is
made in a memory that holds other lists. -/
inductive HashmapCall where
  | set (key : Bytes) (value : Option Nat) (entry dup : Nat)
  | remove (key : Bytes)
  | get (key : Bytes)
  | has (key : Bytes)
  | toList (memory : Nat → Option ListNode) (nodes : List Nat)

/-- What a call returns. -/
inductive HashmapResult where
  | value (value : Option Nat)
  | bound (bound : Bool)
  | list (list : LinkedList)

namespace HashmapCall

/-- What a call does. -/
def exec (signed : Bool) (map : Hashmap) : HashmapCall → Option (HashmapResult × Hashmap)
  | set key value entry dup => (hashmapSet signed map key value entry dup).map (.map .value id)
  | remove key => (hashmapRemove signed map key).map (.map .value id)
  | get key => (hashmapGet signed map key).map (.value ·, map)
  | has key => (hashmapHas signed map key).map (.bound ·, map)
  | toList memory nodes => (hashmapToList map memory nodes).map (.list ·, map)

/-- The strings end with a 0, memory that is allocated was free, and there are nodes for all keys. -/
def Proper (map : Hashmap) (m : FiniteMap) : HashmapCall → Prop
  | set key _ entry dup => 0 ∈ key ∧ LinkedList.Address entry ∧ map.entries entry = none ∧
    map.keys dup = none
  | remove key | get key | has key => 0 ∈ key
  | toList memory nodes => Supply (listCreate memory) nodes ∧
    ∀ strs : List Bytes, strs.Nodup → (∀ str ∈ strs, (m str).isSome) → strs.length ≤ nodes.length

/-- What a call has to return. -/
def Returns (map : Hashmap) (m : FiniteMap) (result : HashmapResult) : HashmapCall → Prop
  | set key _ _ _ | remove key | get key => result = .value (m (strOf key)).join
  | has key => result = .bound (m (strOf key)).isSome
  | toList _ _ => ∃ (list : LinkedList) (l : Contents) (strs : List Bytes), result = .list list ∧
    list.WellFormed l ∧ strs.Nodup ∧ (∀ str, str ∈ strs ↔ (m str).isSome) ∧
    l.map (fun x => x.2.bind map.keys) = strs.map fun str => some (str ++ [0])

/-- What a call does to the finite map. -/
def update (m : FiniteMap) : HashmapCall → FiniteMap
  | set key value _ _ => Function.update m (strOf key) (some value)
  | remove key => Function.update m (strOf key) none
  | _ => m

/-- Proper calls return, each with what it has to return. -/
def Behaves (signed : Bool) : List HashmapCall → Hashmap → FiniteMap → Prop
  | [], _, _ => True
  | call :: calls, map, m => call.Proper map m →
    ∃ result map', call.exec signed map = some (result, map') ∧ call.Returns map m result ∧
      Behaves signed calls map' (call.update m)

end HashmapCall

section Binding
variable {items a b : List Item} {x : Item} {str : Bytes} {value : Option Nat} {key : Bytes}

/-- The binding of a string is the value of its entry. -/
lemma binding_eq_some (nodup : (items.map Item.str).Nodup) :
    binding items str = some value ↔ ∃ x ∈ items, x.str = str ∧ x.value = value := by
  unfold binding
  constructor
  · intro found
    obtain ⟨x, hx, rfl⟩ := Option.map_eq_some_iff.mp found
    exact ⟨x, List.mem_of_find?_eq_some hx, by simpa using List.find?_some hx, rfl⟩
  · rintro ⟨x, mem, rfl, rfl⟩
    obtain ⟨y, found⟩ : ∃ y, items.find? (·.str = x.str) = some y := by
      apply Option.isSome_iff_exists.mp
      exact List.find?_isSome.mpr ⟨x, mem, by simp⟩
    have same : y.str = x.str := by simpa using List.find?_some found
    rw [found, List.inj_on_of_nodup_map nodup (List.mem_of_find?_eq_some found) mem same]
    rfl

/-- Strings with an entry are bound. -/
lemma binding_isSome : (binding items str).isSome ↔ str ∈ items.map Item.str := by
  simp [binding, List.find?_isSome]

/-- Without its entry a string is not bound. -/
lemma binding_remove (nodup : ((a ++ x :: b).map Item.str).Nodup) :
    binding (a ++ b) = Function.update (binding (a ++ x :: b)) x.str none := by
  have moved : (a ++ x :: b).Perm (x :: (a ++ b)) := List.perm_middle
  have nodup' := (moved.map Item.str).nodup_iff.mp nodup
  rw [List.map_cons, List.nodup_cons] at nodup'
  funext str
  apply Option.ext
  intro value
  by_cases own : str = x.str
  · subst own
    have unbound : binding (a ++ b) x.str = none := by
      rw [← Option.not_isSome_iff_eq_none, binding_isSome]
      exact nodup'.1
    simp [unbound]
  · rw [Function.update_of_ne own, binding_eq_some nodup'.2, binding_eq_some nodup]
    constructor
    · rintro ⟨y, mem, h⟩
      exact ⟨y, moved.mem_iff.mpr (by simp_all), h⟩
    · rintro ⟨y, mem, rfl, rfl⟩
      rcases List.mem_cons.mp (moved.mem_iff.mp mem) with rfl | mem
      · exact absurd rfl own
      · exact ⟨y, mem, rfl, rfl⟩

/-- Binding a string that has no other entry. -/
lemma binding_insert {c : List Item} (nodup : ((a ++ x :: b).map Item.str).Nodup)
    (rest : ∀ str, str ≠ x.str → binding c str = binding (a ++ b) str) :
    binding (a ++ x :: b) = Function.update (binding c) x.str (some x.value) := by
  funext str
  by_cases own : str = x.str
  · subst own
    rw [Function.update_self]
    exact (binding_eq_some nodup).mpr ⟨x, by simp, rfl, rfl⟩
  · rw [Function.update_of_ne own, rest str own, binding_remove nodup, Function.update_of_ne own]

end Binding

namespace HashmapCall
variable {signed : Bool} {map : Hashmap} {items : List Item} {key : Bytes}

/-- A string is bound, or it is not. -/
lemma bound_cases (items : List Item) (str : Bytes) :
    (∃ a x b, items = a ++ x :: b ∧ x.str = str) ∨ str ∉ items.map Item.str := by
  by_cases mem : str ∈ items.map Item.str
  · obtain ⟨x, hx, rfl⟩ := List.mem_map.mp mem
    obtain ⟨a, b, e⟩ := List.append_of_mem hx
    exact .inl ⟨a, x, b, e, rfl⟩
  · exact .inr mem

/-- The value that a string is bound to. -/
lemma binding_bound {a b : List Item} {x : Item} (h : map.Maps signed (a ++ x :: b)) :
    binding (a ++ x :: b) x.str = some x.value :=
  (binding_eq_some h.strs).mpr ⟨x, by simp, rfl, rfl⟩

/-- A string without an entry is not bound. -/
lemma binding_unbound {str : Bytes} (unbound : str ∉ items.map Item.str) :
    binding items str = none := by
  rw [← Option.not_isSome_iff_eq_none, binding_isSome]
  exact unbound

/-- A proper call on a map that represents its entries. -/
lemma exec_eq {call : HashmapCall} (pos : 0 < map.hashSize) (h : map.Maps signed items)
    (proper : call.Proper map (binding items)) :
    ∃ result map' items', call.exec signed map = some (result, map') ∧
      call.Returns map (binding items) result ∧ map'.hashSize = map.hashSize ∧
      map'.Maps signed items' ∧ binding items' = call.update (binding items) := by
  cases call with
  | set key value entry dup =>
    -- a bound key keeps its node and gets the value
    obtain ⟨term, address, freeEntry, freeKey⟩ := proper
    have isStr := isStr_strOf term
    rcases bound_cases items (strOf key) with ⟨a, x, b, rfl, e⟩ | unbound
    · obtain ⟨map', done, size, maps, -⟩ := Represents.set_found pos h (e ▸ isStr) value entry dup
      refine ⟨.value x.value, map', _, by simp [exec, done], ?_, size, maps, ?_⟩
      · simp [Returns, ← e, binding_bound h]
      · simp only [update, ← e]
        apply binding_insert (x := { x with value := value }) maps.strs
        intro str other
        rw [binding_remove h.strs, Function.update_of_ne other]
    · obtain ⟨map', done, size, maps, -⟩ :=
        Represents.set_missing pos h isStr unbound value address freeEntry freeKey
      refine ⟨.value none, map', _, by simp [exec, done], ?_, size, maps, ?_⟩
      · simp [Returns, binding_unbound unbound]
      · apply binding_insert (x := ⟨entry, dup, strOf key, value⟩) maps.strs
        intro str _
        rw [List.append_nil]
  | remove key =>
    have isStr := isStr_strOf proper
    rcases bound_cases items (strOf key) with ⟨a, x, b, rfl, e⟩ | unbound
    · obtain ⟨map', done, size, maps, -⟩ := Represents.remove_found pos h (e ▸ isStr)
      refine ⟨.value x.value, map', _, by simp [exec, done], ?_, size, maps, ?_⟩
      · simp [Returns, ← e, binding_bound h]
      · simp only [update, ← e, binding_remove h.strs]
    · have missing := Represents.lookup_missing pos h isStr unbound
      refine ⟨.value none, map, items, by simp [exec, hashmapRemove, missing], ?_, rfl, h, ?_⟩
      · simp [Returns, binding_unbound unbound]
      · simp [update, ← binding_unbound unbound]
  | get key =>
    have isStr := isStr_strOf proper
    rcases bound_cases items (strOf key) with ⟨a, x, b, rfl, e⟩ | unbound
    · have found := Represents.get_found pos h (e ▸ isStr)
      refine ⟨.value x.value, map, _, by simp [exec, found], ?_, rfl, h, rfl⟩
      simp [Returns, ← e, binding_bound h]
    · have missing := Represents.lookup_missing pos h isStr unbound
      refine ⟨.value none, map, items, by simp [exec, hashmapGet, missing], ?_, rfl, h, rfl⟩
      simp [Returns, binding_unbound unbound]
  | has key =>
    have isStr := isStr_strOf proper
    rcases bound_cases items (strOf key) with ⟨a, x, b, rfl, e⟩ | unbound
    · have found := Represents.lookup_found pos h (e ▸ isStr)
      refine ⟨.bound true, map, _, by simp [exec, hashmapHas, found], ?_, rfl, h, rfl⟩
      simp [Returns, ← e, binding_bound h]
    · have missing := Represents.lookup_missing pos h isStr unbound
      refine ⟨.bound false, map, items, by simp [exec, hashmapHas, missing], ?_, rfl, h, rfl⟩
      simp [Returns, binding_unbound unbound]
  | toList memory nodes =>
    obtain ⟨supply, enough⟩ := proper
    have count := enough (items.map Item.str) h.strs (fun str mem => binding_isSome.mpr mem)
    obtain ⟨list, l, strs, done, wellFormed, perm, keys⟩ :=
      h.toList (fun _ => home_lt pos) supply (by simpa using count)
    refine ⟨.list list, map, items, by simp [exec, done], ?_, rfl, h, rfl⟩
    refine ⟨list, l, strs, rfl, wellFormed, perm.nodup_iff.mpr h.strs, ?_, keys⟩
    intro str
    rw [perm.mem_iff, binding_isSome]

/-- Calls on a map do what they do on its bindings. -/
lemma behaves_of_maps {calls : List HashmapCall} (pos : 0 < map.hashSize) (h : map.Maps signed items) :
    Behaves signed calls map (binding items) := by
  induction calls generalizing map items with
  | nil => trivial
  | cons call calls ih =>
    intro proper
    obtain ⟨result, map', items', done, returns, size, maps, bindings⟩ := exec_eq pos h proper
    refine ⟨result, map', done, returns, ?_⟩
    rw [← bindings]
    exact ih (size ▸ pos) maps

/-- A new map, if its array has all the buckets. -/
lemma maps_create {hashSize : Nat} (small : hashSize < 2 ^ 61) (entries : Nat → Option HashmapEntry)
    (keys : Nat → Option Bytes) : (hashmapCreate hashSize entries keys).Maps signed [] := by
  constructor
  all_goals simp [chain, hashmapCreate]
  intro i hi
  omega

/-- The loop over the array stops at a bucket that is not there. -/
lemma toListLoop_none {n i j : Nat} {list : LinkedList} {nodes : List Nat}
    (empty : ∀ k, map.buckets k = none ∨ map.buckets k = some none) (first : i ≤ j) (last : j < i + n)
    (outside : map.buckets j = none) : toListLoop map n i list nodes = none := by
  induction n generalizing i with
  | zero => omega
  | succ n ih =>
    rcases empty i with e | e
    · simp [toListLoop, e]
    · have different : i ≠ j := by
        rintro rfl
        rw [outside] at e
        cases e
      have rest := ih (i := i + 1) (by omega) (by omega)
      simpa [toListLoop, e, pushKeys, nodeCount] using rest

/-- `hashmap_to_list` of a new map leaves the array, if the number of its bytes was wrapped. -/
lemma toList_faults {hashSize : Nat} (large : 2 ^ 61 ≤ hashSize) (entries : Nat → Option HashmapEntry)
    (keys : Nat → Option Bytes) :
    ¬ Behaves signed [.toList (fun _ => none) []] (hashmapCreate hashSize entries keys) fun _ => none := by
  intro behaves
  have proper : Proper (hashmapCreate hashSize entries keys) (fun _ => none)
      (.toList (fun _ => none) []) := by
    refine ⟨⟨by simp, by simp⟩, ?_⟩
    intro strs _ bound
    cases strs with
    | nil => simp
    | cons str strs => simpa using bound str (by simp)
  obtain ⟨result, map', done, -⟩ := behaves proper
  have faults : hashmapToList (hashmapCreate hashSize entries keys) (fun _ => none) [] = none := by
    refine toListLoop_none ?_ (Nat.zero_le (hashSize - 1)) ?_ ?_
    · intro k
      by_cases inside : 8 * (k + 1) ≤ 8 * hashSize % 2 ^ 64
      · exact .inr (if_pos inside)
      · exact .inl (if_neg inside)
    · simp only [hashmapCreate]
      omega
    · exact if_neg (by omega)
  simp [exec, faults] at done

/-- Calls in any order on a new hash map return what they return for a finite map exactly if the size of
the array in bytes fits in 64 bits. -/
theorem hashmap_behaves_iff {hashSize : Nat} (pos : 0 < hashSize)
    (entries : Nat → Option HashmapEntry) (keys : Nat → Option Bytes) :
    (∀ calls, Behaves signed calls (hashmapCreate hashSize entries keys) fun _ => none) ↔
      hashSize < 2 ^ 61 := by
  constructor
  · intro behaves
    by_contra large
    exact toList_faults (Nat.le_of_not_lt large) entries keys (behaves _)
  · intro small calls
    exact behaves_of_maps pos (maps_create small entries keys)

/-- A map of 16 buckets, with characters that are signed. -/
theorem hashmap_behaves_iff_sixteen :
    0 < 16 ∧ ∀ calls, Behaves true calls (hashmapCreate 16 (fun _ => none) fun _ => none)
      fun _ => none :=
  ⟨by omega, (hashmap_behaves_iff (by omega) _ _).mpr (by omega)⟩

/-- The array of `2 ^ 61` buckets has no byte. -/
theorem hashmap_array_wraps :
    (hashmapCreate (2 ^ 61) (fun _ => none) fun _ => none).buckets 0 = none ∧
      ¬ ∀ calls, Behaves true calls (hashmapCreate (2 ^ 61) (fun _ => none) fun _ => none)
        fun _ => none := by
  refine ⟨by simp [hashmapCreate], ?_⟩
  intro behaves
  exact toList_faults le_rfl _ _ (behaves _)

end HashmapCall

end WivOS.Utils
