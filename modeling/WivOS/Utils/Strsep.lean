import Mathlib.Tactic
import WivOS.Utils.Ram

/-!
# `strsep`

Cutting a string at single delimiters. The inner loop compares a character with those of the delimiter
string and with its terminator, so the end of the string is found as one more delimiter. `Tokens` describes
a row of calls: each returns the next field of the string and writes a zero over the one delimiter behind
it, the last one writes nothing.
-/

namespace WivOS.Utils

namespace Ram

/-- The inner loop of C `strsep`: whether the delimiter string, or its terminator, has the character. -/
def spans (ram : Ram) (c : UInt8) : Nat → Addr → Option Bool
  | 0, _ => none
  | fuel + 1, spanP =>
    let sc := ram spanP
    let spanP := spanP + 1
    if sc = c then some true
    else if sc ≠ 0 then spans ram c fuel spanP
    else some false

/-- The loop of C `strsep`: the token, what `*stringPointer` becomes, and the memory. -/
def strsepLoop (ram : Ram) (fuel : Nat) (delimiter token : Addr) : Nat → Addr → Option (Addr × Addr × Ram)
  | 0, _ => none
  | rounds + 1, str => do
    let c := ram str
    let str := str + 1
    if ← spans ram c fuel delimiter then
      if c = 0 then return (token, 0, ram)
      else return (token, str, ram.store (str - 1) 0)
    else strsepLoop ram fuel delimiter token rounds str

/-- C `strsep`. -/
def strsep (ram : Ram) (fuel : Nat) (stringPointer delimiter : Addr) : Option (Addr × Addr × Ram) :=
  let str := stringPointer
  if str = 0 then some (0, stringPointer, ram)
  else strsepLoop ram fuel delimiter str fuel str

/-- Calls `strsep` until the pointer is `NULL`: the token of each call, and the memory after it. -/
def strsepAll (fuel : Nat) (delimiter : Addr) : Nat → Ram → Addr → Option (List (Addr × Ram))
  | 0, _, _ => none
  | rounds + 1, ram, stringPointer => do
    let (token, stringPointer, ram) ← strsep ram fuel stringPointer delimiter
    if stringPointer = 0 then return [(token, ram)]
    else return (token, ram) :: (← strsepAll fuel delimiter rounds ram stringPointer)

end Ram

/-- The calls that cut the fields off a string at `p`: each token is the next field, and the one byte that
is overwritten is the delimiter behind it. -/
inductive Tokens (d : Bytes) : Ram → Addr → List Bytes → List (Addr × Ram) → Prop where
  | last {ram p f} : StrAt ram p f → Tokens d ram p [f] [(p, ram)]
  | cut {ram p f fs calls} :
    ram (p + BitVec.ofNat 64 f.length) ∈ d →
    StrAt (ram.store (p + BitVec.ofNat 64 f.length) 0) p f →
    Tokens d (ram.store (p + BitVec.ofNat 64 f.length) 0) (p + BitVec.ofNat 64 (f.length + 1)) fs calls →
    Tokens d ram p (f :: fs) ((p, ram.store (p + BitVec.ofNat 64 f.length) 0) :: calls)

section Strsep
variable {ram : Ram} {p b : Addr} {c : UInt8} {d f s rest : Bytes} {fuel rounds : Nat}

/-- The inner loop finds the characters of the delimiter string, and the terminator. -/
lemma spans_eq (hd : StrAt ram b d) (enough : d.length < fuel) :
    ram.spans c fuel b = some (decide (c ∈ d ∨ c = 0)) := by
  induction d generalizing b fuel with
  | nil =>
    obtain ⟨fuel, rfl⟩ := Nat.exists_eq_succ_of_ne_zero (Nat.ne_of_gt enough)
    have zero : ram b = 0 := hd
    by_cases e : c = 0
    · simp [Ram.spans, zero, e]
    · simp [Ram.spans, zero, e, Ne.symm e]
  | cons sc d ih =>
    obtain ⟨fuel, rfl⟩ := Nat.exists_eq_succ_of_ne_zero (Nat.ne_of_gt (Nat.zero_lt_of_lt enough))
    obtain ⟨nonzero, first, hd⟩ := hd
    by_cases e : sc = c
    · simp [Ram.spans, first, e]
    · have next := ih hd (Nat.lt_of_succ_lt_succ enough)
      simp only [Ram.spans, first, if_neg e, if_pos nonzero, next, List.mem_cons, Ne.symm e, false_or]

section
variable (hd : StrAt ram b d) (many : d.length < fuel) {token : Addr}
include hd many

/-- The loop of `strsep` passes characters that are no delimiters. -/
lemma strsepLoop_skip (hs : StrAt ram p (f ++ s)) (clear : ∀ x ∈ f, x ∉ d) (enough : f.length ≤ rounds) :
    ram.strsepLoop fuel b token rounds p =
      ram.strsepLoop fuel b token (rounds - f.length) (p + BitVec.ofNat 64 f.length) := by
  induction f generalizing p rounds with
  | nil => simp
  | cons c f ih =>
    obtain ⟨rounds, rfl⟩ := Nat.exists_eq_succ_of_ne_zero (Nat.ne_of_gt (Nat.zero_lt_of_lt enough))
    obtain ⟨nonzero, first, hs⟩ := hs
    have other : c ∉ d := clear c List.mem_cons_self
    have next := ih hs (fun x hx => clear x (List.mem_cons_of_mem _ hx)) (Nat.le_of_succ_le_succ enough)
    rw [List.length_cons, Nat.succ_sub_succ, ← add_one_add, ← next]
    simp [Ram.strsepLoop, first, spans_eq hd many, other, nonzero]

/-- The last field. -/
lemma Ram.strsep_last (hs : StrAt ram p f) (clear : ∀ x ∈ f, x ∉ d) (pointer : p ≠ 0) (enough : f.length < fuel) :
    ram.strsep fuel p b = some (p, 0, ram) := by
  have hs' : StrAt ram p (f ++ []) := by rwa [List.append_nil]
  obtain ⟨rest, hr⟩ : ∃ rest, fuel - f.length = rest + 1 := ⟨fuel - f.length - 1, by omega⟩
  rw [Ram.strsep, if_neg pointer, strsepLoop_skip hd many hs' clear (by omega), hr, Ram.strsepLoop,
    hs.terminator, spans_eq hd many]
  simp

/-- A field before a delimiter, which is overwritten. -/
lemma Ram.strsep_cut (hs : StrAt ram p (f ++ c :: rest)) (clear : ∀ x ∈ f, x ∉ d) (hc : c ∈ d) (pointer : p ≠ 0)
    (enough : f.length < fuel) :
    ram.strsep fuel p b = some (p, p + BitVec.ofNat 64 (f.length + 1),
      ram.store (p + BitVec.ofNat 64 f.length) 0) := by
  have nonzero : c ≠ 0 := hs.drop.1
  have next : p + BitVec.ofNat 64 f.length + 1 = p + BitVec.ofNat 64 (f.length + 1) := add_ofNat_add p f.length 1
  obtain ⟨left, hr⟩ : ∃ left, fuel - f.length = left + 1 := ⟨fuel - f.length - 1, by omega⟩
  rw [Ram.strsep, if_neg pointer, strsepLoop_skip hd many hs clear (by omega), hr, Ram.strsepLoop, hs.next,
    spans_eq hd many]
  have back : p + BitVec.ofNat 64 (f.length + 1) - 1 = p + BitVec.ofNat 64 f.length := by
    rw [← next, BitVec.add_sub_cancel]
  simp only [hc, nonzero, or_false, decide_true, Option.bind_eq_bind, Option.bind_some, if_true, if_false,
    next, back]
  rfl

end

/-- No character of a string is of a kind, or there is a first one. -/
lemma exists_first (P : UInt8 → Prop) (s : Bytes) :
    (∀ x ∈ s, ¬ P x) ∨ ∃ f c rest, s = f ++ c :: rest ∧ (∀ x ∈ f, ¬ P x) ∧ P c := by
  induction s with
  | nil => exact .inl (by simp)
  | cons c s ih =>
    by_cases hc : P c
    · exact .inr ⟨[], c, s, rfl, by simp, hc⟩
    · rcases ih with clear | ⟨f, c', rest, rfl, clear, hc'⟩
      · exact .inl (by simpa [hc] using clear)
      · exact .inr ⟨c :: f, c', rest, rfl, by simpa [hc] using clear, hc'⟩

/-- On memory by addresses, `strsep` cuts a string where it does in the block that holds it. -/
lemma Ram.strsep_tokenEnd (hs : StrAt ram p s) (hd : StrAt ram b d) (pointer : p ≠ 0)
    (many : d.length < fuel) (enough : s.length < fuel) :
    ∃ n ≤ s.length, tokenEnd d (s ++ [0]) = some n ∧
      ram.strsep fuel p b = some (if n = s.length then (p, 0, ram)
        else (p, p + BitVec.ofNat 64 (n + 1), ram.store (p + BitVec.ofNat 64 n) 0)) := by
  have h0 := hs.nonzero
  rcases exists_first (· ∈ d) s with clear | ⟨f, c, rest, rfl, clear, hc⟩
  · refine ⟨s.length, le_rfl, tokenEnd_eq h0 clear (.inr rfl), ?_⟩
    rw [if_pos rfl, Ram.strsep_last hd many hs clear pointer enough]
  · rw [List.length_append, List.length_cons] at enough ⊢
    rw [List.mem_append, not_or] at h0
    refine ⟨f.length, by omega, ?_, ?_⟩
    · rw [List.append_assoc, List.cons_append]
      exact tokenEnd_eq h0.1 clear (.inl hc)
    · rw [if_neg (by omega), Ram.strsep_cut hd many hs clear hc pointer (by omega)]

/-- The calls on a string, whatever was cut off before it. -/
lemma strsepAll_tokens (hs : StrAt ram p s) (hd : StrAt ram b d) (pointer : p ≠ 0)
    (room : p.toNat + s.length < 2 ^ 64)
    (apart : ∀ i < s.length, ∀ j ≤ d.length, p + BitVec.ofNat 64 i ≠ b + BitVec.ofNat 64 j)
    (many : d.length < fuel) (enough : s.length < fuel) (more : s.length < rounds) :
    ∃ calls, Ram.strsepAll fuel b rounds ram p = some calls ∧ Tokens d ram p (s.splitOnP (· ∈ d)) calls := by
  induction rounds generalizing ram p s with
  | zero => cases more
  | succ rounds ih =>
    rcases exists_first (· ∈ d) s with clear | ⟨f, c, rest, rfl, clear, hc⟩
    · have fields : s.splitOnP (· ∈ d) = [s] := by
        apply List.splitOnP_eq_singleton
        simpa using clear
      refine ⟨[(p, ram)], ?_, fields ▸ .last hs⟩
      simp [Ram.strsepAll, Ram.strsep_last hd many hs clear pointer enough]
    · have fields : (f ++ c :: rest).splitOnP (· ∈ d) = f :: rest.splitOnP (· ∈ d) := by
        apply List.splitOnP_append_cons_of_forall_mem
        · simpa using clear
        · simpa using hc
      have hs' := hs.behind room
      rw [List.length_append, List.length_cons] at room apart enough more
      have call := Ram.strsep_cut hd many hs clear hc pointer (by omega)
      have at' : (p + BitVec.ofNat 64 (f.length + 1)).toNat = p.toNat + (f.length + 1) := toNat_add_ofNat (by omega)
      have pointer' : p + BitVec.ofNat 64 (f.length + 1) ≠ 0 := add_ofNat_ne_zero pointer (by omega)
      have hd' : StrAt (ram.store (p + BitVec.ofNat 64 f.length) 0) b d :=
        hd.store (fun j hj => apart f.length (by omega) j hj) 0
      obtain ⟨calls, e, tokens⟩ := ih hs' hd' pointer' (by omega) (by
        intro i hi j hj
        rw [add_ofNat_add]
        exact apart _ (by omega) j hj) (by omega) (by omega)
      have first : ram (p + BitVec.ofNat 64 f.length) ∈ d := by rwa [hs.next]
      rw [fields]
      refine ⟨_, ?_, .cut first (hs.cut (by omega)) tokens⟩
      simp only [Ram.strsepAll, call, Option.bind_eq_bind, Option.bind_some, if_neg pointer', e]
      rfl

/-- Calls of `strsep` until the pointer is `NULL` cut a string at the characters of the delimiter string,
into fields that may be empty. The fields and the delimiters together are the string, and a call with
`NULL` returns `NULL`. -/
theorem strsep_fields (hs : StrAt ram p s) (hd : StrAt ram b d) (pointer : p ≠ 0)
    (room : p.toNat + s.length < 2 ^ 64)
    (apart : ∀ i < s.length, ∀ j ≤ d.length, p + BitVec.ofNat 64 i ≠ b + BitVec.ofNat 64 j)
    (many : d.length < fuel) (enough : s.length < fuel) :
    (∃ calls, Ram.strsepAll fuel b fuel ram p = some calls ∧ Tokens d ram p (s.splitOnP (· ∈ d)) calls) ∧
    (List.zipWith (· ++ ·) (s.splitOnP (· ∈ d)) (((s.filter (· ∈ d)).map fun x => [x]) ++ [[]])).flatten = s ∧
    ∀ ram' : Ram, ram'.strsep fuel 0 b = some (0, 0, ram') :=
  ⟨strsepAll_tokens hs hd pointer room apart many enough enough, List.splitOnP_spec .., fun _ => rfl⟩

/-- The bytes `,a;` at the address 0x100 and the delimiters `,;` at 0x104. -/
def twoStrings : Ram := fun a => [44, 97, 59, 0, 44, 59, 0].getD (a.toNat - 0x100) 0

/-- Where the two strings are. -/
lemma twoStrings_at : StrAt twoStrings 0x100 [44, 97, 59] ∧ StrAt twoStrings 0x104 [44, 59] := by
  simp only [StrAt]
  decide

/-- Fields before, between and behind two delimiters; the first and the last are empty. -/
theorem strsep_fields_three :
    ∃ calls, Ram.strsepAll 4 0x104 4 twoStrings 0x100 = some calls ∧
      Tokens [44, 59] twoStrings 0x100 [[], [97], []] calls := by
  obtain ⟨hs, hd⟩ := twoStrings_at
  have fields : [44, 97, 59].splitOnP (· ∈ [(44 : UInt8), 59]) = [[], [97], []] := by decide
  have room : (0x100 : Addr).toNat + [(44 : UInt8), 97, 59].length < 2 ^ 64 := by decide
  have apart : ∀ i < 3, ∀ j ≤ 2, (0x100 : Addr) + BitVec.ofNat 64 i ≠ 0x104 + BitVec.ofNat 64 j := by
    intro i hi j hj
    interval_cases i <;> interval_cases j <;> decide
  have many : [(44 : UInt8), 59].length < 4 := by decide
  have calls := (strsep_fields hs hd (by decide) room apart many (by decide)).1
  rwa [fields] at calls

end Strsep

end WivOS.Utils
