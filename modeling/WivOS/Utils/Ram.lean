import Mathlib.Tactic
import WivOS.Utils.Strings

/-!
# Memory by addresses

The functions of `utils/string.c` for which addresses matter work on memory as the processor sees it: a
byte at each of the 2^64 addresses, and pointers that wrap there. `memmove` copies between two ranges of
it, `StrAt` says that a string starts at an address.
-/

namespace WivOS.Utils

/-- An address. -/
abbrev Addr := BitVec 64

/-- The byte at each address. -/
abbrev Ram := Addr → UInt8

namespace Ram

/-- C `*a = b`. -/
def store (ram : Ram) (a : Addr) (b : UInt8) : Ram := Function.update ram a b

/-- One round of a copying loop: `pdest[k] = psrc[k]`. -/
def copyByte (dest src : Addr) (ram : Ram) (k : BitVec 64) : Ram := ram.store (dest + k) (ram (src + k))

/-- C `memmove`. -/
def memmove (ram : Ram) (dest src : Addr) (n : BitVec 64) : Addr × Ram :=
  let indices := (List.range n.toNat).map (BitVec.ofNat 64)
  if src > dest then (dest, indices.foldl (fun ram i => copyByte dest src ram i) ram)
  else if src < dest then (dest, indices.foldl (fun ram i => copyByte dest src ram (n - i - 1)) ram)
  else (dest, ram)

end Ram

/-- The string that starts at an address. -/
def StrAt (ram : Ram) : Addr → Bytes → Prop
  | a, [] => ram a = 0
  | a, c :: s => c ≠ 0 ∧ ram a = c ∧ StrAt ram (a + 1) s

section Addresses
variable {p : Addr} {i j : Nat}

/-- The address of a byte of a range that does not wrap. -/
lemma toNat_add_ofNat (h : p.toNat + i < 2 ^ 64) : (p + BitVec.ofNat 64 i).toNat = p.toNat + i := by
  rw [BitVec.toNat_add, BitVec.toNat_ofNat]
  omega

/-- An address that does not wrap is not `NULL`. -/
lemma add_ofNat_ne_zero (pointer : p ≠ 0) (room : p.toNat + i < 2 ^ 64) : p + BitVec.ofNat 64 i ≠ 0 := by
  intro e
  have value := congrArg BitVec.toNat e
  have zero : (0 : Addr).toNat = 0 := rfl
  have positive : p.toNat ≠ 0 := fun none => pointer (BitVec.eq_of_toNat_eq none)
  rw [toNat_add_ofNat room, zero] at value
  omega

/-- Distances add up. -/
lemma add_ofNat_add (p : Addr) (i j : Nat) :
    p + BitVec.ofNat 64 i + BitVec.ofNat 64 j = p + BitVec.ofNat 64 (i + j) := by
  rw [BitVec.add_assoc, BitVec.ofNat_add]

/-- The next byte and a distance from there. -/
lemma add_one_add (p : Addr) (i : Nat) : p + 1 + BitVec.ofNat 64 i = p + BitVec.ofNat 64 (i + 1) := by
  rw [Nat.add_comm i 1, ← add_ofNat_add]
  rfl

end Addresses

section StrAt
variable {ram ram' : Ram} {a : Addr} {s t : Bytes} {c : UInt8}

/-- A string has no terminator inside. -/
lemma StrAt.nonzero (h : StrAt ram a s) : 0 ∉ s := by
  induction s generalizing a with
  | nil => exact List.not_mem_nil
  | cons c s ih =>
    rw [List.mem_cons, not_or]
    exact ⟨Ne.symm h.1, ih h.2.2⟩

/-- The rest of a string is a string. -/
lemma StrAt.drop (h : StrAt ram a (t ++ s)) : StrAt ram (a + BitVec.ofNat 64 t.length) s := by
  induction t generalizing a with
  | nil => simpa using h
  | cons c t ih =>
    rw [List.length_cons, ← add_one_add]
    exact ih h.2.2

/-- The terminator is behind it. -/
lemma StrAt.terminator (h : StrAt ram a s) : ram (a + BitVec.ofNat 64 s.length) = 0 := by
  have rest : StrAt ram (a + BitVec.ofNat 64 s.length) [] := StrAt.drop (by rwa [List.append_nil])
  exact rest

/-- The byte behind a part of it. -/
lemma StrAt.next (h : StrAt ram a (t ++ c :: s)) : ram (a + BitVec.ofNat 64 t.length) = c := h.drop.2.1

/-- A string depends on its bytes only. -/
lemma StrAt.congr (h : StrAt ram a s)
    (same : ∀ i ≤ s.length, ram' (a + BitVec.ofNat 64 i) = ram (a + BitVec.ofNat 64 i)) : StrAt ram' a s := by
  induction s generalizing a with
  | nil =>
    have first := same 0 le_rfl
    simp only [BitVec.add_zero] at first
    exact first.trans h
  | cons c s ih =>
    have first := same 0 (Nat.zero_le _)
    simp only [BitVec.add_zero] at first
    refine ⟨h.1, first.trans h.2.1, ih h.2.2 ?_⟩
    intro i hi
    rw [add_one_add]
    exact same (i + 1) (Nat.succ_le_succ hi)

/-- A byte outside of a string is stored. -/
lemma StrAt.store (h : StrAt ram a s) {x : Addr} (away : ∀ i ≤ s.length, x ≠ a + BitVec.ofNat 64 i)
    (b : UInt8) : StrAt (ram.store x b) a s :=
  h.congr fun i hi => Function.update_of_ne (away i hi).symm ..

/-- A string is cut where a zero is stored. -/
lemma StrAt.cut (h : StrAt ram a (t ++ s)) (room : a.toNat + t.length < 2 ^ 64) :
    StrAt (ram.store (a + BitVec.ofNat 64 t.length) 0) a t := by
  induction t generalizing a with
  | nil => simp [StrAt, Ram.store]
  | cons c t ih =>
    rw [List.length_cons] at room
    have other : a ≠ a + BitVec.ofNat 64 (t.length + 1) := by
      intro e
      have same := congrArg BitVec.toNat e
      rw [toNat_add_ofNat room] at same
      omega
    refine ⟨h.1, ?_, ?_⟩
    · rw [List.length_cons, Ram.store, Function.update_of_ne other]
      exact h.2.1
    · have one : (a + 1).toNat = a.toNat + 1 := toNat_add_ofNat (i := 1) (by omega)
      rw [List.length_cons, ← add_one_add]
      exact ih h.2.2 (by omega)

/-- A string is left behind where a zero is stored. -/
lemma StrAt.behind (h : StrAt ram a (t ++ c :: s)) (room : a.toNat + (t ++ c :: s).length < 2 ^ 64) :
    StrAt (ram.store (a + BitVec.ofNat 64 t.length) 0) (a + BitVec.ofNat 64 (t.length + 1)) s := by
  rw [List.length_append, List.length_cons] at room
  have rest : StrAt ram (a + BitVec.ofNat 64 (t.length + 1)) s := by
    have tail := h.drop.2.2
    rwa [show a + BitVec.ofNat 64 t.length + 1 = a + BitVec.ofNat 64 (t.length + 1) from
      add_ofNat_add a t.length 1] at tail
  apply rest.store
  intro i hi e
  have same := congrArg BitVec.toNat e
  rw [add_ofNat_add, toNat_add_ofNat (by omega), toNat_add_ofNat (by omega)] at same
  omega

end StrAt

section Memmove
variable {ram : Ram} {dest src a : Addr} {n : BitVec 64} {p : Addr} {i j : Nat}

/-- After some rounds of a copying loop: the bytes at the indices of the rounds are copied, all others
are as they were. -/
structure Copied (ram : Ram) (dest src : Addr) (ks : List (BitVec 64)) (ram' : Ram) : Prop where
  copied : ∀ k ∈ ks, ram' (dest + k) = ram (src + k)
  others : ∀ a, (∀ k ∈ ks, a ≠ dest + k) → ram' a = ram a

/-- A loop may copy the bytes in any order in which it reads none that it has overwritten. -/
lemma copied_foldl {ks : List (BitVec 64)} (distinct : ks.Nodup)
    (order : ks.Pairwise fun earlier later => dest + earlier ≠ src + later) :
    Copied ram dest src ks (ks.foldl (fun ram k => Ram.copyByte dest src ram k) ram) := by
  induction ks using List.reverseRecOn with
  | nil => exact ⟨by simp, fun _ _ => rfl⟩
  | append_singleton ks k ih =>
    obtain ⟨distinct', -, apart⟩ := List.nodup_append.mp distinct
    obtain ⟨order', -, last⟩ := List.pairwise_append.mp order
    obtain ⟨copied, others⟩ := ih distinct' order'
    rw [List.foldl_append, List.foldl_cons, List.foldl_nil]
    have original : (ks.foldl (fun ram k => Ram.copyByte dest src ram k) ram) (src + k) = ram (src + k) := by
      apply others
      intro k' hk'
      exact (last k' hk' k (by simp)).symm
    constructor
    · intro k' hk'
      rcases List.mem_append.mp hk' with mem | mem
      · have ne : dest + k' ≠ dest + k := by
          intro e
          exact apart k' mem k (by simp) ((BitVec.add_right_inj _).mp e)
        rw [Ram.copyByte, Ram.store, Function.update_of_ne ne, copied k' mem]
      · rw [List.mem_singleton.mp mem, Ram.copyByte, Ram.store, Function.update_self, original]
    · intro a away
      have ne : a ≠ dest + k := away k (by simp)
      rw [Ram.copyByte, Ram.store, Function.update_of_ne ne]
      exact others a fun k' hk' => away k' (List.mem_append_left _ hk')

/-- What `memmove` is to do. -/
structure Moved (ram : Ram) (dest src : Addr) (n : BitVec 64) (ram' : Ram) : Prop where
  copied : ∀ i < n.toNat, ram' (dest + BitVec.ofNat 64 i) = ram (src + BitVec.ofNat 64 i)
  others : ∀ a, ¬ (dest.toNat ≤ a.toNat ∧ a.toNat < dest.toNat + n.toNat) → ram' a = ram a

/-- All rounds of a copying loop together copy the range. -/
lemma Copied.moved {ks : List (BitVec 64)} {ram' : Ram} (h : Copied ram dest src ks ram')
    (all : ∀ k, k ∈ ks ↔ k.toNat < n.toNat) (hd : dest.toNat + n.toNat ≤ 2 ^ 64) :
    Moved ram dest src n ram' := by
  have below := n.isLt
  constructor
  · intro i hi
    apply h.copied
    rw [all, BitVec.toNat_ofNat]
    omega
  · intro a outside
    apply h.others
    rintro k hk rfl
    rw [all] at hk
    rw [BitVec.toNat_add] at outside
    omega

/-- The index of a loop that counts down. -/
lemma toNat_index_down (hi : i < n.toNat) : (n - BitVec.ofNat 64 i - 1).toNat = n.toNat - i - 1 := by
  have below := n.isLt
  have one : (1 : BitVec 64).toNat = 1 := rfl
  rw [BitVec.toNat_sub, BitVec.toNat_sub, BitVec.toNat_ofNat, one]
  omega

/-- Upwards, the next byte to be read is above all that were written. -/
lemma copied_up (less : dest.toNat < src.toNat) (hs : src.toNat + n.toNat ≤ 2 ^ 64) :
    Copied ram dest src ((List.range n.toNat).map (BitVec.ofNat 64))
      (((List.range n.toNat).map (BitVec.ofNat 64)).foldl (fun ram k => Ram.copyByte dest src ram k) ram) := by
  have below := n.isLt
  apply copied_foldl
  · refine List.Nodup.map_on ?_ List.nodup_range
    intro i hi j hj e
    rw [List.mem_range] at hi hj
    have same := congrArg BitVec.toNat e
    rw [BitVec.toNat_ofNat, BitVec.toNat_ofNat] at same
    omega
  · rw [List.pairwise_map]
    refine List.pairwise_lt_range.imp_of_mem ?_
    intro i j hi hj lt e
    rw [List.mem_range] at hi hj
    have same := congrArg BitVec.toNat e
    rw [toNat_add_ofNat (by omega), toNat_add_ofNat (by omega)] at same
    omega

/-- Downwards, the next byte to be read is below all that were written. -/
lemma copied_down (less : src.toNat < dest.toNat) (hd : dest.toNat + n.toNat ≤ 2 ^ 64) :
    Copied ram dest src ((List.range n.toNat).map fun i => n - BitVec.ofNat 64 i - 1)
      (((List.range n.toNat).map fun i => n - BitVec.ofNat 64 i - 1).foldl
        (fun ram k => Ram.copyByte dest src ram k) ram) := by
  apply copied_foldl
  · refine List.Nodup.map_on ?_ List.nodup_range
    intro i hi j hj e
    rw [List.mem_range] at hi hj
    have same := congrArg BitVec.toNat e
    rw [toNat_index_down hi, toNat_index_down hj] at same
    omega
  · rw [List.pairwise_map]
    refine List.pairwise_lt_range.imp_of_mem ?_
    intro i j hi hj lt e
    rw [List.mem_range] at hi hj
    have same := congrArg BitVec.toNat e
    rw [BitVec.toNat_add, BitVec.toNat_add, toNat_index_down hi, toNat_index_down hj] at same
    omega

/-- `memmove` copies as if through a buffer, however the ranges overlap. -/
theorem memmove_moved (ram : Ram) (hs : src.toNat + n.toNat ≤ 2 ^ 64) (hd : dest.toNat + n.toNat ≤ 2 ^ 64) :
    (ram.memmove dest src n).1 = dest ∧ Moved ram dest src n (ram.memmove dest src n).2 := by
  have below := n.isLt
  unfold Ram.memmove
  by_cases up : src > dest
  · rw [if_pos up]
    refine ⟨rfl, (copied_up (BitVec.lt_def.mp up) hs).moved ?_ hd⟩
    intro k
    rw [List.mem_map]
    constructor
    · rintro ⟨i, hi, rfl⟩
      rw [List.mem_range] at hi
      rw [BitVec.toNat_ofNat]
      omega
    · intro hk
      exact ⟨k.toNat, List.mem_range.mpr hk, BitVec.ofNat_toNat ..⟩
  · rw [if_neg up]
    by_cases down : src < dest
    · rw [if_pos down]
      have loop : Copied ram dest src _ _ := copied_down (BitVec.lt_def.mp down) hd
      rw [List.foldl_map] at loop ⊢
      refine ⟨rfl, loop.moved ?_ hd⟩
      intro k
      rw [List.mem_map]
      constructor
      · rintro ⟨i, hi, rfl⟩
        rw [List.mem_range] at hi
        rw [toNat_index_down hi]
        omega
      · intro hk
        refine ⟨n.toNat - k.toNat - 1, List.mem_range.mpr (by omega), BitVec.eq_of_toNat_eq ?_⟩
        rw [toNat_index_down (by omega)]
        omega
    · rw [if_neg down]
      have same : src = dest := BitVec.le_antisymm (BitVec.not_lt.mp up) (BitVec.not_lt.mp down)
      subst same
      exact ⟨rfl, fun _ _ => rfl, fun _ _ => rfl⟩

/-- Three bytes are moved one up, over two of themselves. -/
theorem memmove_moved_three :
    Moved (fun a => ⟨a.setWidth 8⟩) 0x101 0x100 3 (Ram.memmove (fun a => ⟨a.setWidth 8⟩) 0x101 0x100 3).2 ∧
      (Ram.memmove (fun a => ⟨a.setWidth 8⟩) 0x101 0x100 3).2 0x103 = 2 :=
  ⟨(memmove_moved _ (by decide) (by decide)).2, by decide⟩

end Memmove

end WivOS.Utils
