import WivOS.Lib.Scan
import WivOS.Lib.Swar
import WivOS.Utils.Ram

/-!
# `strchrnul`

The search that reads a word at a time. Up to the first aligned address it goes by bytes, then by words as
long as neither test for a zero byte finds one, and again by bytes in the last word. Each test is nonzero
exactly if the word has such a byte, so the search ends where a plain scan of the bytes does.
-/

namespace WivOS.Utils
open WivOS.Lib

/-- C `ALIGN`. -/
def align : Nat := 8

/-- C `ONES`. -/
def ones : BitVec 64 := -1 / 255

/-- C `HIGHS`. -/
def highs : BitVec 64 := ones * (255 / 2 + 1)

/-- C `HASZERO`. -/
def haszero (x : BitVec 64) : BitVec 64 := (x - ones) &&& ~~~x &&& highs

/-- C `(unsigned char)c`. -/
def uchar (c : BitVec 32) : UInt8 := ⟨c.setWidth 8⟩

namespace Ram

/-- C `*w` for a `size_t *w`, on a little-endian machine. -/
def word (ram : Ram) (w : Addr) : BitVec 64 :=
  BitVec.ofNat 64 (wordOf ((List.range 8).map fun i => (ram (w + BitVec.ofNat 64 i)).toNat))

/-- C `strlen`. -/
def strlen (ram : Ram) (fuel : Nat) (str : Addr) : Option (BitVec 64) :=
  (scan (fun (str, _) => ram str = 0) (fun (str, len) => (str + 1, len + 1)) fuel
    (str, (0 : BitVec 64))).map Prod.snd

/-- The loop of C `strchrnul` over words. -/
def wordLoop (ram : Ram) (c : UInt8) (fuel : Nat) (w : Addr) : Option Addr :=
  let k := ones * c.toBitVec.setWidth 64
  scan (fun w => haszero (ram.word w) ≠ 0 ∨ haszero (ram.word w ^^^ k) ≠ 0) (· + 8) fuel w

/-- The last loop of C `strchrnul`: a plain scan of the bytes. -/
def byteScan (ram : Ram) (c : UInt8) (fuel : Nat) (s : Addr) : Option Addr :=
  scan (fun s => ram s = 0 ∨ ram s = c) (· + 1) fuel s

/-- C `strchrnul`. -/
def strchrnul (ram : Ram) (fuel : Nat) (s : Addr) (c : BitVec 32) : Option Addr :=
  let c := uchar c
  if c = 0 then (strlen ram fuel s).map (s + ·)
  else do
    let s ← scan (fun s => s.toNat % align = 0 ∨ ram s = 0 ∨ ram s = c) (· + 1) fuel s
    if s.toNat % align ≠ 0 then return s
    let w ← wordLoop ram c fuel s
    byteScan ram c fuel w

end Ram

section Tests
variable {ram : Ram} {w : Addr} {c : UInt8} {i : Nat}

/-- The bytes of a word are those of memory. -/
lemma byteAt_word (hi : i < 8) : byteAt (ram.word w).toNat i = (ram (w + BitVec.ofNat 64 i)).toNat := by
  have small : ∀ b ∈ (List.range 8).map fun i => (ram (w + BitVec.ofNat 64 i)).toNat, b < 2 ^ 8 := by
    intro b hb
    obtain ⟨j, -, rfl⟩ := List.mem_map.mp hb
    exact UInt8.toNat_lt _
  have below := wordOf_lt small
  rw [List.length_map, List.length_range] at below
  rw [Ram.word, BitVec.toNat_ofNat, Nat.mod_eq_of_lt below, byteAt_wordOf small (by simpa using hi),
    List.getElem_map, List.getElem_range]

/-- `ONES` is a one in each byte. -/
lemma toNat_ones : ones.toNat = onesWord 8 := by decide

/-- `HIGHS` is the high bit of each byte. -/
lemma toNat_highs : highs.toNat = 2 ^ 7 * onesWord 8 := by decide

/-- `HASZERO` marks zero bytes. -/
lemma toNat_haszero (x : BitVec 64) : (haszero x).toNat = zeroBytes 8 x.toNat := by
  rw [haszero, BitVec.toNat_and, BitVec.toNat_and, BitVec.toNat_sub, BitVec.toNat_not, toNat_ones,
    toNat_highs, Nat.add_comm, zeroBytes]

/-- It is 0 if no byte is. -/
lemma haszero_eq_zero_iff {x : BitVec 64} : haszero x = 0 ↔ ∀ i < 8, byteAt x.toNat i ≠ 0 := by
  have zero : (0 : BitVec 64).toNat = 0 := rfl
  rw [← BitVec.toNat_inj, toNat_haszero, zero]
  exact zeroBytes_eq_zero_iff x.isLt

/-- The test for a zero byte. -/
lemma haszero_word : haszero (ram.word w) = 0 ↔ ∀ i < 8, ram (w + BitVec.ofNat 64 i) ≠ 0 := by
  rw [haszero_eq_zero_iff]
  refine forall₂_congr fun i hi => ?_
  rw [byteAt_word hi, not_iff_not, ← UInt8.toNat_inj]
  rfl

/-- The word that has the character in each byte. -/
lemma byteAt_ones_mul (c : UInt8) (hi : i < 8) :
    byteAt (ones * c.toBitVec.setWidth 64).toNat i = c.toNat := by
  have small := c.toNat_lt
  have below : onesWord 8 * c.toNat < 2 ^ 64 := by
    rw [← toNat_ones]
    show 0x0101010101010101 * c.toNat < 2 ^ 64
    omega
  rw [BitVec.toNat_mul, BitVec.toNat_setWidth, UInt8.toNat_toBitVec, toNat_ones,
    Nat.mod_eq_of_lt (a := c.toNat) (by omega), Nat.mod_eq_of_lt below]
  exact byteAt_onesWord_mul small hi

/-- The test for a byte `c`. -/
lemma haszero_word_xor :
    haszero (ram.word w ^^^ ones * c.toBitVec.setWidth 64) = 0 ↔
      ∀ i < 8, ram (w + BitVec.ofNat 64 i) ≠ c := by
  rw [haszero_eq_zero_iff, BitVec.toNat_xor]
  refine forall₂_congr fun i hi => ?_
  rw [byteAt_xor, byteAt_word hi, byteAt_ones_mul c hi, not_iff_not, Nat.xor_eq_zero_iff,
    UInt8.toNat_inj]

end Tests

section Scans
variable {ram : Ram} {s w : Addr} {c : UInt8} {fuel n : Nat} {stop : Addr → Bool}

/-- Steps of one size. -/
lemma iterate_step (step : Nat) (s : Addr) (n : Nat) :
    (· + BitVec.ofNat 64 step)^[n] s = s + BitVec.ofNat 64 (step * n) := by
  induction n with
  | zero => simp
  | succ n ih => rw [Function.iterate_succ_apply', ih, add_ofNat_add, Nat.mul_succ]

/-- A loop over bytes ends at the first that stops it. -/
lemma scan_bytes (before : ∀ i < n, stop (s + BitVec.ofNat 64 i) = false)
    (here : stop (s + BitVec.ofNat 64 n) = true) (enough : n < fuel) :
    scan stop (· + 1) fuel s = some (s + BitVec.ofNat 64 n) := by
  have step : ∀ i, (· + (1 : Addr))^[i] s = s + BitVec.ofNat 64 i := by
    intro i
    have h := iterate_step 1 s i
    rwa [Nat.one_mul] at h
  rw [← step n]
  apply scan_iterate
  · intro i hi
    rw [step]
    exact before i hi
  · rwa [step]
  · exact enough

/-- The bytes that end the search for `c`: the first one is `n` bytes from `s`. -/
structure FirstHit (ram : Ram) (c : UInt8) (s : Addr) (n : Nat) : Prop where
  hit : ram (s + BitVec.ofNat 64 n) = 0 ∨ ram (s + BitVec.ofNat 64 n) = c
  before : ∀ i < n, ram (s + BitVec.ofNat 64 i) ≠ 0 ∧ ram (s + BitVec.ofNat 64 i) ≠ c

/-- In a terminated string there is a first hit. -/
lemma exists_firstHit (terminated : ram (s + BitVec.ofNat 64 n) = 0) : ∃ i ≤ n, FirstHit ram c s i := by
  have some : ∃ i, ram (s + BitVec.ofNat 64 i) = 0 ∨ ram (s + BitVec.ofNat 64 i) = c := ⟨n, .inl terminated⟩
  refine ⟨Nat.find some, Nat.find_min' some (.inl terminated), Nat.find_spec some, ?_⟩
  intro i hi
  exact not_or.mp (Nat.find_min some hi)

/-- The rest of the search from an address before the first hit. -/
lemma FirstHit.drop {k : Nat} (h : FirstHit ram c s n) (hk : k ≤ n) :
    FirstHit ram c (s + BitVec.ofNat 64 k) (n - k) := by
  constructor
  · rw [add_ofNat_add, Nat.add_sub_cancel' hk]
    exact h.hit
  · intro i hi
    rw [add_ofNat_add]
    exact h.before (k + i) (by omega)

/-- The byte scan finds it. -/
lemma FirstHit.byteScan (h : FirstHit ram c s n) (enough : n < fuel) :
    ram.byteScan c fuel s = some (s + BitVec.ofNat 64 n) := by
  apply scan_bytes
  · intro i hi
    simpa using h.before i hi
  · simpa using h.hit
  · exact enough

/-- `strlen` counts the bytes before the terminator. -/
lemma strlen_bytes (before : ∀ i < n, ram (s + BitVec.ofNat 64 i) ≠ 0)
    (here : ram (s + BitVec.ofNat 64 n) = 0) (enough : n < fuel) :
    ram.strlen fuel s = some (BitVec.ofNat 64 n) := by
  have step : ∀ i, (fun (str, len) => (str + 1, len + 1))^[i] (s, (0 : BitVec 64)) =
      (s + BitVec.ofNat 64 i, BitVec.ofNat 64 i) := by
    intro i
    induction i with
    | zero => simp
    | succ i ih =>
      rw [Function.iterate_succ_apply', ih, BitVec.ofNat_add, ← BitVec.add_assoc]
      rfl
  have loop : scan (fun (str, _) => ram str = 0) (fun (str, len) => (str + 1, len + 1)) fuel
      (s, (0 : BitVec 64)) = some ((fun (str, len) => (str + 1, len + 1))^[n] (s, (0 : BitVec 64))) := by
    apply scan_iterate
    · intro i hi
      rw [step]
      simpa using before i hi
    · rw [step]
      simpa using here
    · exact enough
  rw [Ram.strlen, loop, step]
  rfl

/-- The loop over words stops in the word of the first hit. -/
lemma FirstHit.wordLoop (h : FirstHit ram c w n) (enough : n / 8 < fuel) :
    ram.wordLoop c fuel w = some (w + BitVec.ofNat 64 (8 * (n / 8))) := by
  have step : ∀ i, (· + (8 : Addr))^[i] w = w + BitVec.ofNat 64 (8 * i) := iterate_step 8 w
  rw [← step]
  apply scan_iterate
  · intro i hi
    rw [step]
    simp only [decide_eq_false_iff_not, not_or, not_not, haszero_word, haszero_word_xor, add_ofNat_add]
    exact ⟨fun j hj => (h.before _ (by omega)).1, fun j hj => (h.before _ (by omega)).2⟩
  · rw [step]
    simp only [decide_eq_true_iff]
    by_contra neither
    simp only [not_or, not_not, haszero_word, haszero_word_xor, add_ofNat_add] at neither
    have here := h.hit
    rw [← Nat.div_add_mod n 8] at here
    rcases here with zero | same
    · exact neither.1 _ (Nat.mod_lt _ (by decide)) zero
    · exact neither.2 _ (Nat.mod_lt _ (by decide)) same
  · exact enough

/-- The alignment of an address. -/
lemma toNat_mod_align (s : Addr) (i : Nat) : (s + BitVec.ofNat 64 i).toNat % align = (s.toNat + i) % 8 := by
  rw [BitVec.toNat_add, BitVec.toNat_ofNat, align]
  omega

/-- The first loop of `strchrnul` stops at an aligned address or at the first hit. -/
lemma FirstHit.prologue {m : Nat} (h : FirstHit ram c s n) (hm : m ≤ n)
    (odd : ∀ i < m, (s.toNat + i) % 8 ≠ 0) (stop : (s.toNat + m) % 8 = 0 ∨ m = n) (enough : m < fuel) :
    scan (fun s => s.toNat % align = 0 ∨ ram s = 0 ∨ ram s = c) (· + 1) fuel s =
      some (s + BitVec.ofNat 64 m) := by
  apply scan_bytes
  · intro i hi
    obtain ⟨nonzero, other⟩ := h.before i (by omega)
    rw [decide_eq_false_iff_not, toNat_mod_align]
    rintro (even | hit | hit)
    · exact odd i hi even
    · exact nonzero hit
    · exact other hit
  · rw [decide_eq_true_iff, toNat_mod_align]
    rcases stop with even | rfl
    · exact .inl even
    · exact .inr h.hit
  · exact enough

/-- `strchrnul` stops at the first hit. -/
lemma FirstHit.strchrnul {c : BitVec 32} (h : FirstHit ram (uchar c) s n) (enough : n < fuel) :
    ram.strchrnul fuel s c = some (s + BitVec.ofNat 64 n) := by
  unfold Ram.strchrnul
  by_cases zero : uchar c = 0
  · have here : ram (s + BitVec.ofNat 64 n) = 0 := by
      have either := h.hit
      rwa [zero, or_self] at either
    have length := strlen_bytes (fun i hi => (h.before i hi).1) here enough
    simp only [zero, if_true, length, Option.map_some]
  · simp only [zero, if_false]
    -- the bytes up to the first aligned address
    obtain ⟨k, hk⟩ : ∃ k, k = (8 - s.toNat % 8) % 8 := ⟨_, rfl⟩
    by_cases early : n < k
    · have first := h.prologue le_rfl (by omega) (.inr rfl) enough
      have odd : (s + BitVec.ofNat 64 n).toNat % align ≠ 0 := by
        rw [toNat_mod_align]
        omega
      simp only [first, Option.bind_eq_bind, Option.bind_some, if_pos odd]
      rfl
    · have first := h.prologue (m := k) (by omega) (by omega) (.inl (by omega)) (by omega : k < fuel)
      have even : (s + BitVec.ofNat 64 k).toNat % align = 0 := by
        rw [toNat_mod_align]
        omega
      have rest := h.drop (show k ≤ n by omega)
      have words := rest.wordLoop (show (n - k) / 8 < fuel by omega)
      have bytes := (rest.drop (Nat.mul_div_le (n - k) 8)).byteScan
        (show n - k - 8 * ((n - k) / 8) < fuel by omega)
      rw [add_ofNat_add, add_ofNat_add,
        show k + 8 * ((n - k) / 8) + (n - k - 8 * ((n - k) / 8)) = n by omega] at bytes
      rw [add_ofNat_add] at words
      simp only [first, Option.bind_eq_bind, Option.bind_some, even, ne_eq, not_true_eq_false, if_false,
        words, bytes]

/-- One of the two tests is nonzero exactly if the word has a byte that ends the search. -/
lemma wordTests_iff (ram : Ram) (c : UInt8) (w : Addr) :
    (haszero (ram.word w) ≠ 0 ∨ haszero (ram.word w ^^^ ones * c.toBitVec.setWidth 64) ≠ 0) ↔
      ∃ i < 8, ram (w + BitVec.ofNat 64 i) = 0 ∨ ram (w + BitVec.ofNat 64 i) = c := by
  simp only [ne_eq, haszero_word, haszero_word_xor, not_forall, not_not, exists_prop]
  constructor
  · rintro (⟨i, hi, zero⟩ | ⟨i, hi, same⟩)
    · exact ⟨i, hi, .inl zero⟩
    · exact ⟨i, hi, .inr same⟩
  · rintro ⟨i, hi, zero | same⟩
    · exact .inl ⟨i, hi, zero⟩
    · exact .inr ⟨i, hi, same⟩

/-- `strchrnul` on a terminated string: it stops where the scan of the bytes does, at the first byte that is
zero or `c`. No word with such a byte is skipped, and the loop over words goes no further than the word of
the terminator. -/
theorem strchrnul_eq_byteScan (ram : Ram) (s : Addr) (c : BitVec 32)
    (terminated : ram (s + BitVec.ofNat 64 n) = 0) (enough : n < fuel) :
    (∃ i ≤ n, FirstHit ram (uchar c) s i ∧ ram.strchrnul fuel s c = some (s + BitVec.ofNat 64 i) ∧
      ram.byteScan (uchar c) fuel s = some (s + BitVec.ofNat 64 i)) ∧
    (∀ w, (haszero (ram.word w) ≠ 0 ∨ haszero (ram.word w ^^^ ones * (uchar c).toBitVec.setWidth 64) ≠ 0) ↔
      ∃ i < 8, ram (w + BitVec.ofNat 64 i) = 0 ∨ ram (w + BitVec.ofNat 64 i) = uchar c) ∧
    ∀ (w : Addr) (k rounds : Nat), ram (w + BitVec.ofNat 64 k) = 0 → k / 8 < rounds →
      ∃ j ≤ k / 8, ram.wordLoop (uchar c) rounds w = some (w + BitVec.ofNat 64 (8 * j)) := by
  refine ⟨?_, wordTests_iff ram (uchar c), ?_⟩
  · obtain ⟨i, hi, first⟩ := exists_firstHit terminated
    exact ⟨i, hi, first, first.strchrnul (by omega), first.byteScan (by omega)⟩
  · intro w k rounds zero more
    obtain ⟨i, hi, first⟩ := exists_firstHit zero
    have le : i / 8 ≤ k / 8 := Nat.div_le_div_right hi
    exact ⟨i / 8, le, first.wordLoop (by omega)⟩

/-- The bytes `b b b b 0` from the address 0x1005 on: a word is read, and `c` is not found. -/
theorem strchrnul_eq_byteScan_unaligned :
    let ram : Ram := fun a => if a < 0x1009 then 98 else 0
    (∃ i ≤ 4, FirstHit ram (uchar 99) 0x1005 i ∧ ram.strchrnul 5 0x1005 99 = some (0x1005 + BitVec.ofNat 64 i) ∧
      ram.byteScan (uchar 99) 5 0x1005 = some (0x1005 + BitVec.ofNat 64 i)) ∧
    ram.byteScan (uchar 99) 5 0x1005 = some 0x1009 := by
  intro ram
  have zero : ram (0x1005 + BitVec.ofNat 64 4) = 0 := by decide
  exact ⟨(strchrnul_eq_byteScan ram 0x1005 99 zero (by decide)).1, by decide⟩

end Scans

end WivOS.Utils
