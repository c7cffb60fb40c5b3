import WivOS.Utils.DtbProps

/-!
# Lists of strings

`dtb_prop_read_stringlist` of `utils/dtb.c`: it walks over the strings of a property one by one and counts
them until the count is `index` or the data is at its end. The count is an `int`, so that behind the string
2^31 - 1 it goes on with negative numbers, which a negative `index` can meet.
-/

namespace WivOS.Utils

/-- The loop of `dtb_prop_read_stringlist`. A pointer is its distance from `prop->data`, and `current_index`
wraps: in C its overflow is undefined. -/
def stringlistLoop (data : Bytes) (dataLen : Nat) (index : BitVec 32) :
    Nat → BitVec 64 → BitVec 32 → Option (Option (BitVec 64))
  | 0, _, _ => none
  | fuel + 1, currentStr, currentIndex =>
    if currentStr.toNat < dataLen then
      if currentIndex = index then some (some currentStr)
      else do
        let length ← strlen (data.drop currentStr.toNat)
        stringlistLoop data dataLen index fuel (currentStr + (BitVec.ofNat 64 length + 1)) (currentIndex + 1)
    else some none

/-- C `dtb_prop_read_stringlist`. Each round moves on by a byte at least. -/
def dtbPropReadStringlist (dtbNodes : Option (Gentree DtbNode)) (node : DtbNode) (name : Bytes)
    (index : BitVec 32) : Option (Option (BitVec 64)) := do
  if dtbNodes.isNone then return none
  let some prop ← findProp name node.props | return none
  stringlistLoop prop.data prop.dataLen index (prop.dataLen + 1) 0 0

/-- The strings one behind the other, each with its terminator. -/
def listBytes (strs : List Bytes) : Bytes := strs.flatMap (· ++ [0])

/-- What `dtb_prop_read_stringlist` is to do for the data of some strings. -/
structure ReadsString (strs : List Bytes) (index : Int) (result : Option (Option (BitVec 64))) : Prop where
  success : ∀ i : Nat, (i : Int) = index → ∀ str ∈ strs[i]?, ∃ p : BitVec 64, result = some (some p) ∧
    p.toNat = (listBytes (strs.take i)).length ∧ p.toNat + str.length < (listBytes strs).length ∧
    IsStr ((listBytes strs).drop p.toNat) str
  failure : ¬ (0 ≤ index ∧ index < strs.length) → result = some none

section ListBytes
variable {strs : List Bytes} {str : Bytes} {i : Nat}

/-- The first string with its terminator, and the others. -/
lemma listBytes_cons (str : Bytes) (strs : List Bytes) : listBytes (str :: strs) = str ++ 0 :: listBytes strs := by
  simp [listBytes]

/-- Lists of strings after each other. -/
lemma listBytes_append (strs strs' : List Bytes) : listBytes (strs ++ strs') = listBytes strs ++ listBytes strs' :=
  List.flatMap_append

/-- The bytes before, of and behind a string of the list. -/
lemma listBytes_split (h : strs[i]? = some str) :
    listBytes strs = listBytes (strs.take i) ++ (str ++ 0 :: listBytes (strs.drop (i + 1))) := by
  obtain ⟨hi, rfl⟩ := List.getElem?_eq_some_iff.mp h
  rw [← listBytes_cons, ← listBytes_append, ← List.drop_eq_getElem_cons hi, List.take_append_drop]

/-- Every string takes up a byte at least. -/
lemma length_le_listBytes (strs : List Bytes) : strs.length ≤ (listBytes strs).length := by
  induction strs with
  | nil => exact Nat.zero_le _
  | cons str strs ih =>
    rw [listBytes_cons]
    simp only [List.length_append, List.length_cons]
    omega

/-- Empty strings are terminators only. -/
lemma length_listBytes_empty (n : Nat) : (listBytes (List.replicate n [])).length = n := by
  induction n with
  | zero => rfl
  | succ n ih => rw [List.replicate_succ, listBytes_cons, List.nil_append, List.length_cons, ih]

end ListBytes

section Stringlist
variable {name s : Bytes} {node : DtbNode} {prop : DtbProp} {strs : List Bytes} {index c : BitVec 32}
  {fuel : Nat}

/-- The next number, and the one that is looked for. -/
lemma toNat_sub_next (ne : c ≠ index) : (index - c).toNat = (index - (c + 1)).toNat + 1 := by
  have differ : c.toNat ≠ index.toNat := fun e => ne (BitVec.eq_of_toNat_eq e)
  have one : (1 : BitVec 32).toNat = 1 := rfl
  have := c.isLt
  have := index.isLt
  rw [BitVec.toNat_sub, BitVec.toNat_sub, BitVec.toNat_add, one]
  omega

/-- The loop, in front of a string or at the end of the data: it returns the first string whose number is
`index` modulo 2^32. -/
lemma stringlistLoop_eq (before : Bytes) (index c : BitVec 32) (strings : ∀ str ∈ strs, 0 ∉ str)
    (size : (before ++ listBytes strs).length < 2 ^ 64) (enough : strs.length ≤ fuel) :
    stringlistLoop (before ++ listBytes strs) (before ++ listBytes strs).length index (fuel + 1)
        (BitVec.ofNat 64 before.length) c =
      some (if (index - c).toNat < strs.length
        then some (BitVec.ofNat 64 (before.length + (listBytes (strs.take (index - c).toNat)).length))
        else none) := by
  induction strs generalizing before c fuel with
  | nil =>
    have here : (BitVec.ofNat 64 before.length).toNat = before.length := by
      rw [List.length_append] at size
      rw [BitVec.toNat_ofNat]
      omega
    have atEnd : ¬ before.length < (before ++ listBytes []).length := by simp [listBytes]
    rw [stringlistLoop, here, if_neg atEnd]
    rfl
  | cons str strs ih =>
    obtain ⟨fuel, rfl⟩ := Nat.exists_eq_succ_of_ne_zero (Nat.ne_of_gt (Nat.zero_lt_of_lt enough))
    have inside : before.length < (before ++ listBytes (str :: strs)).length := by
      rw [List.length_append, listBytes_cons, List.length_append, List.length_cons]
      omega
    have here : (BitVec.ofNat 64 before.length).toNat = before.length := by
      rw [BitVec.toNat_ofNat, Nat.mod_eq_of_lt (Nat.lt_trans inside size)]
    rw [stringlistLoop, here, if_pos inside]
    by_cases e : c = index
    · subst e
      rw [if_pos rfl, BitVec.sub_self]
      simp [listBytes]
    · have isStr : IsStr ((before ++ listBytes (str :: strs)).drop before.length) str :=
        ⟨strings str List.mem_cons_self, listBytes strs, by rw [List.drop_left, listBytes_cons]⟩
      have moved : before ++ listBytes (str :: strs) = (before ++ (str ++ [0])) ++ listBytes strs := by
        simp [listBytes_cons]
      have next : BitVec.ofNat 64 before.length + (BitVec.ofNat 64 str.length + 1) =
          BitVec.ofNat 64 (before ++ (str ++ [0])).length := by
        rw [List.length_append, List.length_append, BitVec.ofNat_add, BitVec.ofNat_add]
        rfl
      have rest := ih (before ++ (str ++ [0])) (c + 1)
        (fun str' mem => strings str' (List.mem_cons_of_mem _ mem)) (moved ▸ size) (Nat.le_of_succ_le_succ enough)
      rw [if_neg e, strlen_eq isStr, Option.bind_eq_bind, Option.bind_some, next, moved]
      refine rest.trans ?_
      rw [toNat_sub_next e, List.take_succ_cons, listBytes_cons]
      simp only [List.length_append, List.length_cons, List.length_nil, Nat.add_lt_add_iff_right]
      grind

/-- `dtb_prop_read_stringlist` returns the string of the number `index`, read as an unsigned number. -/
lemma dtbPropReadStringlist_eq (tree : Gentree DtbNode) (index : BitVec 32) (h : IsStr name s)
    (sound : ∀ prop ∈ node.props, prop.Sound) (named : propNamed node s = some prop)
    (data : prop.data = listBytes strs) (strings : ∀ str ∈ strs, 0 ∉ str) (size : prop.dataLen < 2 ^ 64) :
    dtbPropReadStringlist (some tree) node name index =
      some (if index.toNat < strs.length
        then some (BitVec.ofNat 64 (listBytes (strs.take index.toNat)).length) else none) := by
  have found := findProp_eq h sound
  rw [← propNamed, named] at found
  have sized := (sound prop (List.mem_of_find?_eq_some named)).sized
  rw [data] at sized
  have enough : strs.length ≤ prop.dataLen := sized ▸ length_le_listBytes strs
  have loop := stringlistLoop_eq [] index 0 strings
    (show (listBytes strs).length < 2 ^ 64 by rwa [sized]) enough
  have zero : index - 0 = index := BitVec.sub_zero index
  rw [zero, List.nil_append, sized, List.length_nil, Nat.zero_add] at loop
  simp only [dtbPropReadStringlist, found, Option.bind_eq_bind, Option.bind_some, data]
  exact loop

/-- For every property whose data are strings, and every `index`: the function returns the string of that
number, and `NULL` where there is none, if and only if the counter does not come to a negative `index`.
That takes more than 2^31 strings. -/
theorem dtb_prop_read_stringlist_iff (tree : Gentree DtbNode) (index : BitVec 32) (h : IsStr name s)
    (sound : ∀ prop ∈ node.props, prop.Sound) (named : propNamed node s = some prop)
    (data : prop.data = listBytes strs) (strings : ∀ str ∈ strs, 0 ∉ str) (size : prop.dataLen < 2 ^ 64) :
    ReadsString strs index.toInt (dtbPropReadStringlist (some tree) node name index) ↔
      0 ≤ index.toInt ∨ strs.length ≤ 2 ^ 32 + index.toInt := by
  have result := dtbPropReadStringlist_eq tree index h sound named data strings size
  have sized := (sound prop (List.mem_of_find?_eq_some named)).sized
  have number := BitVec.toInt_eq_toNat_cond index
  rw [data] at sized
  constructor
  · intro reads
    by_contra neither
    have negative : ¬ (0 ≤ index.toInt ∧ index.toInt < strs.length) := fun both => neither (.inl both.1)
    have failed := reads.failure negative
    have met : index.toNat < strs.length := by
      split at number <;> omega
    rw [result, if_pos met] at failed
    cases failed
  · intro condition
    constructor
    · intro i hi str mem
      have e : index.toNat = i := by
        split at number <;> omega
      have split := listBytes_split (Option.mem_def.mp mem)
      have total := congrArg List.length split
      simp only [List.length_append, List.length_cons] at total
      have lt : i < strs.length := (List.getElem?_eq_some_iff.mp mem).1
      have start : (BitVec.ofNat 64 (listBytes (strs.take i)).length).toNat =
          (listBytes (strs.take i)).length := by
        rw [BitVec.toNat_ofNat]
        omega
      refine ⟨_, by rw [result, e, if_pos lt], start, by omega, ?_⟩
      refine ⟨strings str (List.mem_of_getElem? mem), listBytes (strs.drop (i + 1)), ?_⟩
      rw [start, split, List.drop_left]
    · intro outside
      have past : ¬ index.toNat < strs.length := by
        split at number <;> omega
      rw [result, if_neg past]

/-- The last of three strings, an empty one. -/
theorem dtb_prop_read_stringlist_iff_last :
    ReadsString [[97, 98], [], []] 2
      (dtbPropReadStringlist (some gentreeCreate) (xNode (listBytes [[97, 98], [], []])) [120, 0] 2) := by
  apply (dtb_prop_read_stringlist_iff gentreeCreate 2 isStr_x (xNode_sound _) rfl rfl ?_ ?_).mpr
  · exact .inl (by decide)
  · decide
  · decide

/-- The node has its property. -/
lemma propNamed_xNode (data : Bytes) : propNamed (xNode data) [120] = some ⟨[120, 0], data, data.length⟩ := rfl

/-- Of 2^31 + 1 empty strings the last one is returned for the number -2^31. -/
theorem dtb_prop_read_stringlist_wraps :
    let strs : List Bytes := List.replicate (2 ^ 31 + 1) []
    dtbPropReadStringlist (some gentreeCreate) (xNode (listBytes strs)) [120, 0] (BitVec.intMin 32) =
        some (some (BitVec.ofNat 64 (2 ^ 31))) ∧
      ¬ ReadsString strs (-2 ^ 31)
        (dtbPropReadStringlist (some gentreeCreate) (xNode (listBytes strs)) [120, 0] (BitVec.intMin 32)) := by
  intro strs
  have count : strs.length = 2 ^ 31 + 1 := List.length_replicate
  have empty : ∀ str ∈ strs, 0 ∉ str := by
    intro str mem
    rw [List.eq_of_mem_replicate mem]
    exact List.not_mem_nil
  have size : (listBytes strs).length < 2 ^ 64 := by
    rw [length_listBytes_empty]
    decide
  have first : (listBytes (strs.take (2 ^ 31))).length = 2 ^ 31 := by
    rw [List.take_replicate, length_listBytes_empty]
    decide
  have number : (BitVec.intMin 32).toNat = 2 ^ 31 := by decide
  have data : (DtbProp.mk [120, 0] (listBytes strs) (listBytes strs).length).data = listBytes strs := rfl
  have result := dtbPropReadStringlist_eq gentreeCreate (BitVec.intMin 32) isStr_x (xNode_sound _)
    (propNamed_xNode _) data empty size
  rw [number, count, if_pos (Nat.lt_succ_self _), first] at result
  refine ⟨result, fun reads => ?_⟩
  have failed := reads.failure fun both => absurd both.1 (by decide)
  rw [result] at failed
  cases failed

end Stringlist

end WivOS.Utils
