import WivOS.Utils.Hashmap
import WivOS.Utils.Strchrnul
import WivOS.Utils.Strsep

/-!
# `strtok_r`

Runs of characters that are no delimiters, and the functions of `utils/string.c` that find them. `strspn`
and `strcspn` go separate ways for no delimiter, one and several; with several the delimiters are a set of
256 bits, without them the search is that of `strchrnul`. All ways agree (`strspn_eq`, `strcspn_eq`), so a
row of calls returns the runs of a string one after the other (`Runs`).
-/

namespace WivOS.Utils
open WivOS.Lib

/-- C `size_t byteset[32 / sizeof(size_t)]`. -/
abbrev Byteset := Fin 4 → BitVec 64

/-- A byte has its bit in one of the four words. -/
lemma bitWord_lt (b : UInt8) : b.toNat / 64 < 4 := by
  have := b.toNat_lt
  omega

/-- The word of a byte in the set: `(size_t)b / (8 * sizeof *byteset)`. -/
def bitWord (b : UInt8) : Fin 4 := ⟨b.toNat / 64, bitWord_lt b⟩

/-- The bit of a byte in its word: `(size_t)1 << ((size_t)b % (8 * sizeof *byteset))`. -/
def bitMask (b : UInt8) : BitVec 64 := 1 <<< (b.toNat % 64)

namespace Byteset

/-- C `BITOP(byteset, b, &)`. -/
def bitAnd (set : Byteset) (b : UInt8) : BitVec 64 := set (bitWord b) &&& bitMask b

/-- C `BITOP(byteset, b, |=)`: the value of the expression, and the set. -/
def bitOr (set : Byteset) (b : UInt8) : BitVec 64 × Byteset :=
  let word := set (bitWord b) ||| bitMask b
  (word, Function.update set (bitWord b) word)

end Byteset

namespace Ram

/-- C `for (; *c && BITOP(byteset, *(unsigned char *)c, |=); c++);`. -/
def fillSet (ram : Ram) : Nat → Addr → Byteset → Option Byteset
  | 0, _, _ => none
  | fuel + 1, c, set =>
    if ram c = 0 then some set
    else
      let (value, set) := set.bitOr (ram c)
      if value = 0 then some set else fillSet ram fuel (c + 1) set

/-- C `strspn`. -/
def strspn (ram : Ram) (fuel : Nat) (s c : Addr) : Option (BitVec 64) :=
  let a := s
  if ram c = 0 then some 0
  else if ram (c + 1) = 0 then
    (scan (fun s => ram s ≠ ram c) (· + 1) fuel s).map (· - a)
  else do
    let byteset ← fillSet ram fuel c fun _ => 0
    (scan (fun s => ram s = 0 ∨ byteset.bitAnd (ram s) = 0) (· + 1) fuel s).map (· - a)

/-- C `strcspn`. -/
def strcspn (ram : Ram) (signed : Bool) (fuel : Nat) (s c : Addr) : Option (BitVec 64) :=
  let a := s
  if ram c ≠ 0 ∧ ram (c + 1) ≠ 0 then do
    let byteset ← fillSet ram fuel c fun _ => 0
    (scan (fun s => ram s = 0 ∨ byteset.bitAnd (ram s) ≠ 0) (· + 1) fuel s).map (· - a)
  else (strchrnul ram fuel s (charToInt signed (ram c))).map (· - a)

/-- C `strpbrk`. -/
def strpbrk (ram : Ram) (signed : Bool) (fuel : Nat) (s b : Addr) : Option Addr := do
  let s := s + (← strcspn ram signed fuel s b)
  return if ram s ≠ 0 then s else 0

/-- C `strchr`. -/
def strchr (ram : Ram) (fuel : Nat) (s : Addr) (c : BitVec 32) : Option Addr := do
  let r ← strchrnul ram fuel s c
  return if ram r = uchar c then r else 0

/-- C `lfind`. -/
def lfind (ram : Ram) (signed : Bool) (fuel : Nat) (str : Addr) (accept : UInt8) : Option (BitVec 64) :=
  strchr ram fuel str (charToInt signed accept)

/-- C `strtok_r`: the token, what `*saveptr` becomes, and the memory. -/
def strtokR (ram : Ram) (signed : Bool) (fuel : Nat) (str delim saveptr : Addr) :
    Option (Addr × Addr × Ram) := do
  let str := if str = 0 then saveptr else str
  let str := str + (← strspn ram fuel str delim)
  if ram str = 0 then return (0, str, ram)
  let token := str
  let str ← strpbrk ram signed fuel token delim
  if str = 0 then return (token, ← lfind ram signed fuel token 0, ram)
  else return (token, str + 1, ram.store str 0)

/-- Calls `strtok_r`, with `NULL` after the first call, until it returns `NULL`: the token of each call and
the memory after it, and in the end `*saveptr` and the memory. -/
def strtokAll (signed : Bool) (fuel : Nat) (delim : Addr) :
    Nat → Ram → Addr → Addr → Option (List (Addr × Ram) × Addr × Ram)
  | 0, _, _, _ => none
  | rounds + 1, ram, str, saveptr => do
    let (token, saveptr, ram) ← strtokR ram signed fuel str delim saveptr
    if token = 0 then return ([], saveptr, ram)
    let (calls, saveptr, last) ← strtokAll signed fuel delim rounds ram 0 saveptr
    return ((token, ram) :: calls, saveptr, last)

end Ram

/-- The calls that find the runs of a string at `p`. Before each run is a gap of delimiters; behind it one
delimiter is overwritten, or the string ends. -/
inductive Runs (d : Bytes) : Ram → Addr → Bytes → List Bytes → List (Addr × Ram) → Prop where
  | done {ram p gap} : (∀ x ∈ gap, x ∈ d) → Runs d ram p gap [] []
  | last {ram p gap run} :
    (∀ x ∈ gap, x ∈ d) → run ≠ [] → (∀ x ∈ run, x ∉ d) →
    StrAt ram (p + BitVec.ofNat 64 gap.length) run →
    Runs d ram p (gap ++ run) [run] [(p + BitVec.ofNat 64 gap.length, ram)]
  | cut {ram ram' p gap run c rest runs calls} :
    (∀ x ∈ gap, x ∈ d) → run ≠ [] → (∀ x ∈ run, x ∉ d) → c ∈ d →
    ram' = ram.store (p + BitVec.ofNat 64 (gap.length + run.length)) 0 →
    StrAt ram' (p + BitVec.ofNat 64 gap.length) run →
    Runs d ram' (p + BitVec.ofNat 64 (gap.length + run.length + 1)) rest runs calls →
    Runs d ram p (gap ++ run ++ c :: rest) (run :: runs) ((p + BitVec.ofNat 64 gap.length, ram') :: calls)

section Bytesets
variable {set : Byteset} {b c : UInt8}

/-- The bit of a byte is set. -/
lemma bitAnd_ne_zero_iff : set.bitAnd b ≠ 0 ↔ (set (bitWord b)).getLsbD (b.toNat % 64) = true := by
  have inside : b.toNat % 64 < 64 := Nat.mod_lt _ (by decide)
  have mask : bitMask b = BitVec.twoPow 64 (b.toNat % 64) := (BitVec.twoPow_eq ..).symm
  rw [Byteset.bitAnd, mask, BitVec.and_twoPow]
  have nonzero : BitVec.twoPow 64 (b.toNat % 64) ≠ 0 := by
    intro zero
    have bit := congrArg (BitVec.getLsbD · (b.toNat % 64)) zero
    simp [inside] at bit
  cases (set (bitWord b)).getLsbD (b.toNat % 64) with
  | false => simp
  | true => exact iff_of_true nonzero rfl

/-- The mask of a byte. -/
lemma getLsbD_bitMask (i : Nat) : (bitMask c).getLsbD i = decide (c.toNat % 64 = i) := by
  have inside : c.toNat % 64 < 64 := Nat.mod_lt _ (by decide)
  have mask : bitMask c = BitVec.twoPow 64 (c.toNat % 64) := (BitVec.twoPow_eq ..).symm
  simp [mask, inside]

/-- The value of the expression that adds a byte is never zero. -/
lemma bitOr_value_ne_zero : (set.bitOr c).1 ≠ 0 := by
  intro zero
  have bit := congrArg (BitVec.getLsbD · (c.toNat % 64)) zero
  simp [Byteset.bitOr, getLsbD_bitMask] at bit

/-- A byte is added to the set, and no other. -/
lemma bitOr_bitAnd : (set.bitOr c).2.bitAnd b ≠ 0 ↔ set.bitAnd b ≠ 0 ∨ b = c := by
  have added : (set.bitOr c).2 = Function.update set (bitWord c) (set (bitWord c) ||| bitMask c) := rfl
  rw [bitAnd_ne_zero_iff, bitAnd_ne_zero_iff, added]
  by_cases same : bitWord b = bitWord c
  · have parts : b = c ↔ c.toNat % 64 = b.toNat % 64 := by
      have quotient : b.toNat / 64 = c.toNat / 64 := congrArg Fin.val same
      rw [← UInt8.toNat_inj]
      omega
    rw [same, Function.update_self, BitVec.getLsbD_or, getLsbD_bitMask, parts]
    simp
  · have ne : b ≠ c := by
      rintro rfl
      exact same rfl
    rw [Function.update_of_ne same]
    simp [ne]

/-- The loop over the delimiters puts them all into the set. -/
lemma fillSet_eq {ram : Ram} {p : Addr} {d : Bytes} {fuel : Nat} (hd : StrAt ram p d)
    (many : d.length < fuel) :
    ∃ filled, ram.fillSet fuel p set = some filled ∧
      ∀ b, filled.bitAnd b ≠ 0 ↔ set.bitAnd b ≠ 0 ∨ b ∈ d := by
  induction d generalizing p fuel set with
  | nil =>
    obtain ⟨fuel, rfl⟩ := Nat.exists_eq_succ_of_ne_zero (Nat.ne_of_gt many)
    have zero : ram p = 0 := hd
    exact ⟨set, by rw [Ram.fillSet, if_pos zero], by simp⟩
  | cons c d ih =>
    obtain ⟨fuel, rfl⟩ := Nat.exists_eq_succ_of_ne_zero (Nat.ne_of_gt (Nat.zero_lt_of_lt many))
    obtain ⟨nonzero, first, rest⟩ := hd
    have next : ∃ filled, ram.fillSet fuel (p + 1) (set.bitOr c).2 = some filled ∧
        ∀ b, filled.bitAnd b ≠ 0 ↔ (set.bitOr c).2.bitAnd b ≠ 0 ∨ b ∈ d :=
      ih rest (Nat.lt_of_succ_lt_succ many)
    obtain ⟨filled, e, has⟩ := next
    refine ⟨filled, ?_, ?_⟩
    · rw [Ram.fillSet, first, if_neg nonzero]
      show (if (set.bitOr c).1 = 0 then _ else _) = _
      rw [if_neg bitOr_value_ne_zero]
      exact e
    · intro b
      rw [has, bitOr_bitAnd, List.mem_cons, or_assoc]

/-- The set of the delimiters. -/
lemma fillSet_empty {ram : Ram} {p : Addr} {d : Bytes} {fuel : Nat} (hd : StrAt ram p d)
    (many : d.length < fuel) :
    ∃ filled, (ram.fillSet fuel p fun _ => 0) = some filled ∧ ∀ b, filled.bitAnd b ≠ 0 ↔ b ∈ d := by
  have fill : ∃ filled, (ram.fillSet fuel p fun _ => 0) = some filled ∧
      ∀ b, filled.bitAnd b ≠ 0 ↔ Byteset.bitAnd (fun _ => 0) b ≠ 0 ∨ b ∈ d := fillSet_eq hd many
  obtain ⟨filled, e, has⟩ := fill
  refine ⟨filled, e, ?_⟩
  intro b
  have none : Byteset.bitAnd (fun _ => 0) b = 0 := BitVec.zero_and
  rw [has, none, ne_self_iff_false, false_or]

end Bytesets

section Spans
variable {ram : Ram} {p b : Addr} {d s : Bytes} {fuel : Nat} (signed : Bool)

/-- A loop over a string passes its first characters of a kind. -/
lemma StrAt.scan {stop : Addr → Bool} (q : UInt8 → Bool) (hs : StrAt ram p s)
    (pass : ∀ a, ram a ∈ s → stop a = !q (ram a)) (last : ∀ a, ram a = 0 → stop a = true)
    (enough : s.length < fuel) :
    scan stop (· + 1) fuel p = some (p + BitVec.ofNat 64 (s.takeWhile q).length) := by
  induction s generalizing p fuel with
  | nil =>
    rw [scan_here (last p hs) enough]
    simp
  | cons c s ih =>
    obtain ⟨fuel, rfl⟩ := Nat.exists_eq_succ_of_ne_zero (Nat.ne_of_gt (Nat.zero_lt_of_lt enough))
    obtain ⟨-, first, rest⟩ := hs
    have here := pass p (by simp [first])
    rw [first] at here
    cases hq : q c with
    | false =>
      rw [scan_here (by rw [here, hq]; rfl) (Nat.succ_pos fuel), List.takeWhile_cons_of_neg (by simp [hq])]
      simp
    | true =>
      rw [scan_next (by rw [here, hq]; rfl), List.takeWhile_cons_of_pos hq, List.length_cons, ← add_one_add]
      exact ih rest (fun a ha => pass a (List.mem_cons_of_mem _ ha)) (Nat.lt_of_succ_lt_succ enough)

/-- The distance of an address from the start. -/
lemma add_ofNat_sub (p : Addr) (n : Nat) : p + BitVec.ofNat 64 n - p = BitVec.ofNat 64 n := by
  rw [BitVec.add_comm, BitVec.add_sub_cancel]

/-- `strspn` counts the first characters that are delimiters. -/
lemma strspn_eq (hs : StrAt ram p s) (hd : StrAt ram b d) (many : d.length < fuel) (enough : s.length < fuel) :
    ram.strspn fuel p b = some (BitVec.ofNat 64 (s.takeWhile (· ∈ d)).length) := by
  have h0 := hs.nonzero
  match d, hd with
  | [], hd =>
    have zero : ram b = 0 := hd
    have none : s.takeWhile (· ∈ ([] : Bytes)) = [] := by
      cases s <;> simp
    rw [Ram.strspn, if_pos zero, none]
    rfl
  | [c], hd =>
    obtain ⟨nonzero, first, zero⟩ := hd
    have zero' : ram (b + 1) = 0 := zero
    have loop : scan (fun s => ram s ≠ c) (· + 1) fuel p =
        some (p + BitVec.ofNat 64 (s.takeWhile (· ∈ [c])).length) := by
      refine hs.scan _ ?_ ?_ enough
      · intro a _
        simp
      · intro a ha
        simp [ha, Ne.symm nonzero]
    rw [Ram.strspn, first, if_neg nonzero, if_pos zero', loop, Option.map_some, add_ofNat_sub]
  | c :: c' :: d, hd =>
    obtain ⟨filled, fill, has⟩ := fillSet_empty hd many
    obtain ⟨nonzero, first, nonzero', second, -⟩ := hd
    have loop : scan (fun s => ram s = 0 ∨ filled.bitAnd (ram s) = 0) (· + 1) fuel p =
        some (p + BitVec.ofNat 64 (s.takeWhile (· ∈ c :: c' :: d)).length) := by
      refine hs.scan _ ?_ ?_ enough
      · intro a ha
        have ne : ram a ≠ 0 := fun e => h0 (e ▸ ha)
        rw [← decide_not, decide_eq_decide, ← has]
        simp [ne]
      · intro a ha
        simp [ha]
    rw [Ram.strspn, first, if_neg nonzero, second, if_neg nonzero', fill]
    show Option.map _ (scan _ _ _ _) = _
    rw [loop, Option.map_some, add_ofNat_sub]

/-- A `char` is the same byte when it is read back. -/
lemma uchar_charToInt (c : UInt8) : uchar (charToInt signed c) = c := by
  have same : (charToInt signed c).setWidth 8 = c.toBitVec := by
    cases signed with
    | false => simp [charToInt]
    | true =>
      apply BitVec.eq_of_getLsbD_eq
      intro i hi
      simp [charToInt, BitVec.getLsbD_signExtend, hi]
      omega
  rw [uchar, same]

/-- Where the search for a character ends in a string. -/
lemma StrAt.firstHit (hs : StrAt ram p s) (c : UInt8) : FirstHit ram c p (s.takeWhile (· ≠ c)).length := by
  induction s generalizing p with
  | nil =>
    have zero : ram p = 0 := hs
    exact ⟨.inl (by simpa using zero), fun i hi => absurd hi (Nat.not_lt_zero i)⟩
  | cons x s ih =>
    obtain ⟨nonzero, first, rest⟩ := hs
    by_cases e : x = c
    · rw [List.takeWhile_cons_of_neg (by simp [e])]
      refine ⟨.inr ?_, fun i hi => absurd hi (Nat.not_lt_zero i)⟩
      simpa [first] using e
    · rw [List.takeWhile_cons_of_pos (by simp [e]), List.length_cons]
      obtain ⟨hit, before⟩ := ih rest
      refine ⟨by rwa [← add_one_add], ?_⟩
      intro i hi
      cases i with
      | zero => simpa [first] using ⟨nonzero, e⟩
      | succ i =>
        rw [← add_one_add]
        exact before i (Nat.lt_of_succ_lt_succ hi)

/-- A run is no longer than the string. -/
lemma length_takeWhile_le (q : UInt8 → Bool) (s : Bytes) : (s.takeWhile q).length ≤ s.length :=
  (List.takeWhile_sublist q).length_le

/-- Only bytes of the string matter. -/
lemma takeWhile_congr {q q' : UInt8 → Bool} (same : ∀ x ∈ s, q x = q' x) : s.takeWhile q = s.takeWhile q' := by
  induction s with
  | nil => rfl
  | cons x s ih =>
    rw [List.takeWhile_cons, List.takeWhile_cons, same x List.mem_cons_self,
      ih fun y hy => same y (List.mem_cons_of_mem _ hy)]

/-- The search of `strcspn` for one character, or for the terminator. -/
lemma strchrnul_eq (hs : StrAt ram p s) (c : UInt8) (same : ∀ x ∈ s, x ≠ c ↔ x ∉ d) (enough : s.length < fuel) :
    ram.strchrnul fuel p (charToInt signed c) = some (p + BitVec.ofNat 64 (s.takeWhile (· ∉ d)).length) := by
  have equal : s.takeWhile (· ≠ c) = s.takeWhile (· ∉ d) := by
    apply takeWhile_congr
    intro x hx
    simp [same x hx]
  have hit : FirstHit ram (uchar (charToInt signed c)) p (s.takeWhile (· ∉ d)).length := by
    rw [uchar_charToInt, ← equal]
    exact hs.firstHit c
  exact hit.strchrnul (Nat.lt_of_le_of_lt (length_takeWhile_le _ s) enough)

/-- `strcspn` counts the first characters that are no delimiters. -/
lemma strcspn_eq (hs : StrAt ram p s) (hd : StrAt ram b d) (many : d.length < fuel) (enough : s.length < fuel) :
    ram.strcspn signed fuel p b = some (BitVec.ofNat 64 (s.takeWhile (· ∉ d)).length) := by
  have h0 := hs.nonzero
  match d, hd with
  | [], hd =>
    have zero : ram b = 0 := hd
    have same : ∀ x ∈ s, x ≠ 0 ↔ x ∉ ([] : Bytes) := by
      intro x hx
      have ne : x ≠ 0 := fun e => h0 (e ▸ hx)
      simp [ne]
    rw [Ram.strcspn, zero, if_neg (by simp), strchrnul_eq signed hs 0 same enough, Option.map_some, add_ofNat_sub]
  | [c], hd =>
    obtain ⟨nonzero, first, zero⟩ := hd
    have zero' : ram (b + 1) = 0 := zero
    have same : ∀ x ∈ s, x ≠ c ↔ x ∉ [c] := by simp
    rw [Ram.strcspn, zero', if_neg (by simp), first, strchrnul_eq signed hs c same enough, Option.map_some,
      add_ofNat_sub]
  | c :: c' :: d, hd =>
    obtain ⟨filled, fill, has⟩ := fillSet_empty hd many
    obtain ⟨nonzero, first, nonzero', second, -⟩ := hd
    have loop : scan (fun s => ram s = 0 ∨ filled.bitAnd (ram s) ≠ 0) (· + 1) fuel p =
        some (p + BitVec.ofNat 64 (s.takeWhile (· ∉ c :: c' :: d)).length) := by
      refine hs.scan _ ?_ ?_ enough
      · intro a ha
        have ne : ram a ≠ 0 := fun e => h0 (e ▸ ha)
        rw [← decide_not, decide_eq_decide, has]
        simp only [ne, false_or, not_not]
      · intro a ha
        simp [ha]
    rw [Ram.strcspn, first, second, if_pos ⟨nonzero, nonzero'⟩, fill]
    show Option.map _ (scan _ _ _ _) = _
    rw [loop, Option.map_some, add_ofNat_sub]

end Spans

section Strtok
variable {ram : Ram} {p b q str save : Addr} {c : UInt8} {d s gap run rest : Bytes} {fuel rounds : Nat}
  (signed : Bool)

/-- A string is delimiters only, or it has a first run, and a delimiter behind it or none. -/
lemma gap_run (d s : Bytes) :
    (∀ x ∈ s, x ∈ d) ∨
    (∃ gap run, s = gap ++ run ∧ (∀ x ∈ gap, x ∈ d) ∧ run ≠ [] ∧ ∀ x ∈ run, x ∉ d) ∨
    ∃ gap run c rest, s = gap ++ run ++ c :: rest ∧ (∀ x ∈ gap, x ∈ d) ∧ run ≠ [] ∧ (∀ x ∈ run, x ∉ d) ∧
      c ∈ d := by
  rcases exists_first (· ∉ d) s with all | ⟨gap, x, tail, rfl, hgap, hx⟩
  · exact .inl (by simpa using all)
  · have hgap' : ∀ y ∈ gap, y ∈ d := by simpa using hgap
    rcases exists_first (· ∈ d) tail with clear | ⟨run, c, rest, rfl, hrun, hc⟩
    · refine .inr (.inl ⟨gap, x :: tail, rfl, hgap', by simp, ?_⟩)
      simpa [hx] using clear
    · refine .inr (.inr ⟨gap, x :: run, c, rest, by simp, hgap', by simp, ?_, hc⟩)
      simpa [hx] using hrun

/-- A run of delimiters ends before the first other byte. -/
lemma takeWhile_mem (hgap : ∀ x ∈ gap, x ∈ d) (hrest : ∀ x ∈ rest.head?, x ∉ d) :
    (gap ++ rest).takeWhile (· ∈ d) = gap := by
  rw [List.takeWhile_append_of_pos (by simpa using hgap)]
  cases rest with
  | nil => simp
  | cons x rest =>
    have other : x ∉ d := hrest x rfl
    rw [List.takeWhile_cons_of_neg (by simpa using other), List.append_nil]

/-- A run of other bytes ends before the first delimiter. -/
lemma takeWhile_notMem (hrun : ∀ x ∈ run, x ∉ d) (hrest : ∀ x ∈ rest.head?, x ∈ d) :
    (run ++ rest).takeWhile (· ∉ d) = run := by
  rw [List.takeWhile_append_of_pos (by simpa using hrun)]
  cases rest with
  | nil => simp
  | cons x rest =>
    have delimiter : x ∈ d := hrest x rfl
    rw [List.takeWhile_cons_of_neg (by simpa using delimiter), List.append_nil]

section
variable (hd : StrAt ram b d) (many : d.length < fuel)
include hd many

/-- No run is left. -/
lemma strtokR_done (start : (if str = 0 then save else str) = p) (hs : StrAt ram p gap)
    (hgap : ∀ x ∈ gap, x ∈ d) (enough : gap.length < fuel) :
    ram.strtokR signed fuel str b save = some (0, p + BitVec.ofNat 64 gap.length, ram) := by
  have spn := strspn_eq hs hd many enough
  have all : gap.takeWhile (· ∈ d) = gap := by
    have h : (gap ++ []).takeWhile (· ∈ d) = gap := takeWhile_mem hgap (by simp)
    rwa [List.append_nil] at h
  rw [all] at spn
  simp only [Ram.strtokR, start, spn, Option.bind_eq_bind, Option.bind_some, hs.terminator, if_true]
  rfl

/-- The gap before a run is skipped, and the end of the run is searched. -/
lemma strtokR_run (hs : StrAt ram p (gap ++ (run ++ rest))) (hgap : ∀ x ∈ gap, x ∈ d) (filled : run ≠ [])
    (hrun : ∀ x ∈ run, x ∉ d) (hrest : ∀ x ∈ rest.head?, x ∈ d)
    (enough : (gap ++ (run ++ rest)).length < fuel) :
    ram.strspn fuel p b = some (BitVec.ofNat 64 gap.length) ∧
      ram (p + BitVec.ofNat 64 gap.length) ≠ 0 ∧
      ram.strpbrk signed fuel (p + BitVec.ofNat 64 gap.length) b =
        some (if ram (p + BitVec.ofNat 64 (gap.length + run.length)) ≠ 0
          then p + BitVec.ofNat 64 (gap.length + run.length) else 0) := by
  have spn := strspn_eq hs hd many enough
  have first : ∀ x ∈ (run ++ rest).head?, x ∉ d := by
    obtain ⟨x, run, rfl⟩ := List.exists_cons_of_ne_nil filled
    simpa using hrun x List.mem_cons_self
  rw [takeWhile_mem hgap first] at spn
  have less : (run ++ rest).length < fuel := by
    rw [List.length_append] at enough
    omega
  have cspn := strcspn_eq signed hs.drop hd many less
  rw [takeWhile_notMem hrun hrest] at cspn
  refine ⟨spn, ?_, ?_⟩
  · obtain ⟨x, run, rfl⟩ := List.exists_cons_of_ne_nil filled
    have here := hs.drop
    rw [here.2.1]
    exact here.1
  · simp only [Ram.strpbrk, cspn, Option.bind_eq_bind, Option.bind_some, add_ofNat_add]
    rfl

/-- The last run: the string ends behind it. -/
lemma strtokR_last (start : (if str = 0 then save else str) = p) (hs : StrAt ram p (gap ++ run))
    (hgap : ∀ x ∈ gap, x ∈ d) (filled : run ≠ []) (hrun : ∀ x ∈ run, x ∉ d)
    (enough : (gap ++ run).length < fuel) :
    ram.strtokR signed fuel str b save =
      some (p + BitVec.ofNat 64 gap.length, p + BitVec.ofNat 64 (gap.length + run.length), ram) := by
  have hs' : StrAt ram p (gap ++ (run ++ [])) := by rwa [List.append_nil]
  have enough' : (gap ++ (run ++ [])).length < fuel := by rwa [List.append_nil]
  obtain ⟨spn, nonzero, brk⟩ := strtokR_run signed hd many hs' hgap filled hrun (by simp) enough'
  have zero : ram (p + BitVec.ofNat 64 (gap.length + run.length)) = 0 := by
    have last := hs.drop.terminator
    rwa [add_ofNat_add] at last
  have less : run.length < fuel := by
    rw [List.length_append] at enough
    omega
  have find : ram.lfind signed fuel (p + BitVec.ofNat 64 gap.length) 0 =
      some (p + BitVec.ofNat 64 (gap.length + run.length)) := by
    have same : ∀ x ∈ run, x ≠ 0 ↔ x ∉ ([] : Bytes) := by
      intro x hx
      have ne : x ≠ 0 := fun e => hs.drop.nonzero (e ▸ hx)
      simp [ne]
    have all : run.takeWhile (· ∉ ([] : Bytes)) = run := by
      have h : (run ++ []).takeWhile (· ∉ ([] : Bytes)) = run := takeWhile_notMem (by simp) (by simp)
      rwa [List.append_nil] at h
    have found := strchrnul_eq signed hs.drop 0 same less
    rw [all, add_ofNat_add] at found
    simp only [Ram.lfind, Ram.strchr, found, Option.bind_eq_bind, Option.bind_some, uchar_charToInt, zero,
      if_true]
    rfl
  rw [zero, if_neg (by simp)] at brk
  simp only [Ram.strtokR, start, spn, Option.bind_eq_bind, Option.bind_some, if_neg nonzero, brk, if_true, find]
  rfl

/-- A run with a delimiter behind it, which is overwritten. -/
lemma strtokR_cut (start : (if str = 0 then save else str) = p) (hs : StrAt ram p (gap ++ run ++ c :: rest))
    (hgap : ∀ x ∈ gap, x ∈ d) (filled : run ≠ []) (hrun : ∀ x ∈ run, x ∉ d) (hc : c ∈ d)
    (pointer : p + BitVec.ofNat 64 (gap.length + run.length) ≠ 0)
    (enough : (gap ++ run ++ c :: rest).length < fuel) :
    ram.strtokR signed fuel str b save =
      some (p + BitVec.ofNat 64 gap.length, p + BitVec.ofNat 64 (gap.length + run.length + 1),
        ram.store (p + BitVec.ofNat 64 (gap.length + run.length)) 0) := by
  have hs' : StrAt ram p (gap ++ (run ++ c :: rest)) := by rwa [← List.append_assoc]
  have enough' : (gap ++ (run ++ c :: rest)).length < fuel := by rwa [← List.append_assoc]
  have hrest : ∀ x ∈ (c :: rest).head?, x ∈ d := by
    intro x hx
    cases hx
    exact hc
  obtain ⟨spn, nonzero, brk⟩ := strtokR_run signed hd many hs' hgap filled hrun hrest enough'
  have delimiter : ram (p + BitVec.ofNat 64 (gap.length + run.length)) ≠ 0 := by
    have here := hs.drop
    rw [List.length_append] at here
    rw [here.2.1]
    exact here.1
  have next : p + BitVec.ofNat 64 (gap.length + run.length) + 1 =
      p + BitVec.ofNat 64 (gap.length + run.length + 1) := add_ofNat_add p _ 1
  rw [if_pos delimiter] at brk
  simp only [Ram.strtokR, start, spn, Option.bind_eq_bind, Option.bind_some, if_neg nonzero, brk,
    if_neg pointer, next]
  rfl

end

/-- A gap of delimiters has empty fields only. -/
lemma fields_gap (hgap : ∀ x ∈ gap, x ∈ d) :
    ((gap ++ s).splitOnP (· ∈ d)).filter (· ≠ []) = (s.splitOnP (· ∈ d)).filter (· ≠ []) := by
  induction gap with
  | nil => rfl
  | cons x gap ih =>
    rw [List.forall_mem_cons] at hgap
    rw [List.cons_append, List.splitOnP_cons_eq_if_modifyHead, if_pos (by simpa using hgap.1),
      List.filter_cons_of_neg (by simp), ih hgap.2]

/-- At the end of the string every further call returns `NULL`. -/
lemma strtokR_end (hd : StrAt ram b d) (many : d.length < fuel) (zero : ram q = 0) :
    ram.strtokR signed fuel 0 b q = some (0, q, ram) := by
  have none : StrAt ram q [] := zero
  have done := strtokR_done signed hd many (if_pos rfl) none (by simp) (Nat.zero_lt_of_lt many)
  simpa using done

/-- The calls on a string, whatever was returned before. -/
lemma strtokAll_runs (start : (if str = 0 then save else str) = p) (hs : StrAt ram p s) (hd : StrAt ram b d)
    (pointer : p ≠ 0) (room : p.toNat + s.length < 2 ^ 64)
    (apart : ∀ i < s.length, ∀ j ≤ d.length, p + BitVec.ofNat 64 i ≠ b + BitVec.ofNat 64 j)
    (many : d.length < fuel) (enough : s.length < fuel) (more : s.length < rounds) :
    ∃ calls saveptr last, Ram.strtokAll signed fuel b rounds ram str save = some (calls, saveptr, last) ∧
      Runs d ram p s ((s.splitOnP (· ∈ d)).filter (· ≠ [])) calls ∧
      last.strtokR signed fuel 0 b saveptr = some (0, saveptr, last) := by
  induction rounds generalizing ram p s str save with
  | zero => cases more
  | succ rounds ih =>
    rcases gap_run d s with all | ⟨gap, run, rfl, hgap, filled, hrun⟩ |
      ⟨gap, run, c, rest, rfl, hgap, filled, hrun, hc⟩
    · -- nothing but delimiters is left
      have call := strtokR_done signed hd many start hs all enough
      have none : (s.splitOnP (· ∈ d)).filter (· ≠ []) = [] := by
        have fields := fields_gap (s := []) all
        rw [List.append_nil] at fields
        rw [fields]
        simp
      rw [none]
      refine ⟨[], p + BitVec.ofNat 64 s.length, ram, ?_, .done all, strtokR_end signed hd many hs.terminator⟩
      simp only [Ram.strtokAll, call, Option.bind_eq_bind, Option.bind_some, if_true]
      rfl
    · -- the last token ends with the string, and the call after it finds none
      have call := strtokR_last signed hd many start hs hgap filled hrun enough
      have zero := hs.terminator
      have positive := List.length_pos_of_ne_nil filled
      rw [List.length_append] at room more zero
      have token : p + BitVec.ofNat 64 gap.length ≠ 0 := add_ofNat_ne_zero pointer (by omega)
      have after := strtokR_end signed hd many zero
      obtain ⟨rounds, rfl⟩ := Nat.exists_eq_succ_of_ne_zero (show rounds ≠ 0 by omega)
      have one : ((gap ++ run).splitOnP (· ∈ d)).filter (· ≠ []) = [run] := by
        rw [fields_gap hgap, List.splitOnP_eq_singleton (by simpa using hrun), List.filter_cons_of_pos]
        · rfl
        · simpa using filled
      rw [one]
      refine ⟨_, _, ram, ?_, .last hgap filled hrun hs.drop, after⟩
      simp only [Ram.strtokAll, call, after, Option.bind_eq_bind, Option.bind_some, if_neg token, if_true]
      rfl
    · -- a delimiter ends the token; the next call starts behind it
      have total : (gap ++ run ++ c :: rest).length = gap.length + run.length + (rest.length + 1) := by
        simp only [List.length_append, List.length_cons]
      have hs' := hs.behind room
      have token := hs.cut (show p.toNat + (gap ++ run).length < 2 ^ 64 by rw [List.length_append]; omega)
      rw [List.length_append] at hs' token
      rw [total] at room apart more
      have call := strtokR_cut signed hd many start hs hgap filled hrun hc
        (add_ofNat_ne_zero pointer (by omega)) enough
      rw [total] at enough
      have fields : ((gap ++ run ++ c :: rest).splitOnP (· ∈ d)).filter (· ≠ []) =
          run :: (rest.splitOnP (· ∈ d)).filter (· ≠ []) := by
        rw [List.append_assoc, fields_gap hgap, List.splitOnP_append_cons_of_forall_mem (by simpa using hrun) c
          (by simpa using hc), List.filter_cons_of_pos (by simpa using filled)]
      have hd' := hd.store (fun j hj => apart (gap.length + run.length) (by omega) j hj) 0
      have at' : (p + BitVec.ofNat 64 (gap.length + run.length + 1)).toNat =
        p.toNat + (gap.length + run.length + 1) := toNat_add_ofNat (by omega)
      obtain ⟨calls, saveptr, last, e, runs, after⟩ := ih (if_pos rfl) hs' hd'
        (add_ofNat_ne_zero pointer (by omega)) (by omega) (by
          intro i hi j hj
          rw [add_ofNat_add]
          exact apart _ (by omega) j hj) (by omega) (by omega)
      rw [fields]
      refine ⟨_, saveptr, last, ?_, .cut hgap filled hrun hc rfl token.drop runs, after⟩
      simp only [Ram.strtokAll, call, e, Option.bind_eq_bind, Option.bind_some,
        if_neg (add_ofNat_ne_zero pointer (show p.toNat + gap.length < 2 ^ 64 by omega))]
      rfl

/-- Calls of `strtok_r` until it returns `NULL` find the runs of the characters of a string that are no
delimiters, one after the other: what a cut at every delimiter leaves without its empty fields. The
delimiters may be none, one or several. From the first `NULL` on nothing changes, so every later call
returns `NULL` as well. -/
theorem strtok_runs (hs : StrAt ram p s) (hd : StrAt ram b d) (pointer : p ≠ 0)
    (room : p.toNat + s.length < 2 ^ 64)
    (apart : ∀ i < s.length, ∀ j ≤ d.length, p + BitVec.ofNat 64 i ≠ b + BitVec.ofNat 64 j)
    (many : d.length < fuel) (enough : s.length < fuel) :
    ∃ calls saveptr last, Ram.strtokAll signed fuel b fuel ram p save = some (calls, saveptr, last) ∧
      Runs d ram p s ((s.splitOnP (· ∈ d)).filter (· ≠ [])) calls ∧
      last.strtokR signed fuel 0 b saveptr = some (0, saveptr, last) :=
  strtokAll_runs signed (if_neg pointer) hs hd pointer room apart many enough enough

/-- One run between two delimiters. -/
theorem strtok_runs_one :
    ∃ calls saveptr last, Ram.strtokAll true 4 0x104 4 twoStrings 0x100 0 = some (calls, saveptr, last) ∧
      Runs [44, 59] twoStrings 0x100 [44, 97, 59] [[97]] calls ∧
      last.strtokR true 4 0 0x104 saveptr = some (0, saveptr, last) := by
  obtain ⟨hs, hd⟩ := twoStrings_at
  have runs : ([44, 97, 59].splitOnP (· ∈ [(44 : UInt8), 59])).filter (· ≠ []) = [[97]] := by decide
  have room : (0x100 : Addr).toNat + [(44 : UInt8), 97, 59].length < 2 ^ 64 := by decide
  have apart : ∀ i < 3, ∀ j ≤ 2, (0x100 : Addr) + BitVec.ofNat 64 i ≠ 0x104 + BitVec.ofNat 64 j := by
    intro i hi j hj
    interval_cases i <;> interval_cases j <;> decide
  have many : [(44 : UInt8), 59].length < 4 := by decide
  rw [← runs]
  exact strtok_runs true hs hd (by decide) room apart many (by decide)

end Strtok

end WivOS.Utils
