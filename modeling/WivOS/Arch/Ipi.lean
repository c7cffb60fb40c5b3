import Mathlib.Tactic

/-!
# Interrupts between harts

Model of `riscv_send_ipi_to_all_harts` of `kernel/arch/riscv64/int.c` and of the registration of the harts in
`kernel/arch/riscv64/cpu.c`. The harts are named to the firmware in windows of 64: by a mask and the hart of
its lowest bit.

A bit of the mask is `1 << (cpu - base)`, an `int`, which is extended with its sign: bit 31 is that of all
harts from 31 on, and C does not say what a shift by 32 or more is, so that this is a parameter here. The
masks are right only for harts below 31 in their window, and for windows of which all harts are there
(`riscv_ipi_exact_iff`).
-/

namespace WivOS.Arch.Riscv64

/-- What is used here of C `cpu_t`. -/
structure Cpu where
  currentCpu : BitVec 64
  ipiType : BitVec 8
deriving Repr, DecidableEq

/-! ## The harts -/

/-- The loop of C `riscv_cpu_init` over the harts that the boot loader lists. -/
def initCpus (bsp : BitVec 64) : List (BitVec 64) → List Cpu → BitVec 64 → List Cpu × BitVec 64
  | [], cpus, cpuMaxHartId => (cpus, cpuMaxHartId)
  | hartid :: rest, cpus, cpuMaxHartId =>
    let cpuMaxHartId := if cpuMaxHartId < hartid then hartid else cpuMaxHartId
    if hartid = bsp then initCpus bsp rest cpus cpuMaxHartId
    else initCpus bsp rest (cpus ++ [⟨hartid, 0⟩]) cpuMaxHartId

/-- C `riscv_cpu_init`: the CPUs that are registered, and `cpu_max_hart_id`. -/
def riscvCpuInit (bsp : BitVec 64) (harts : List (BitVec 64)) : List Cpu × BitVec 64 :=
  initCpus bsp harts [⟨bsp, 0⟩] 0

/-- The harts of CPUs. -/
def harts (cpus : List Cpu) : List Nat := cpus.map fun cpu => cpu.currentCpu.toNat

/-- The largest of some harts. -/
def maxHart (hs : List Nat) : Nat := hs.foldr max 0

/-! ## The interrupts -/

/-- C `1 << n`; `undef` is what it is for an `n` that C does not define. -/
def shiftInt (undef : BitVec 32) (n : Nat) : BitVec 32 := if n < 32 then 1#32 <<< n else undef

/-- The `if` of C `riscv_send_ipi_to_all_harts`: a hart is in the window. -/
def inWindow (base cpu : BitVec 64) : Bool := base ≤ cpu && (cpu - base).toInt < 64

section Send
variable (undef : BitVec 64 → BitVec 32) (type : BitVec 32)

/-- The bits that a hart adds to the mask. -/
def hartBits (base cpu : BitVec 64) : BitVec 64 :=
  (shiftInt (undef cpu) (cpu - base).toNat).signExtend 64

/-- The inner loop of C `riscv_send_ipi_to_all_harts`: the mask, and the CPUs with their `ipiType`. -/
def sendWindow (base mask : BitVec 64) : List Cpu → BitVec 64 × List Cpu
  | [] => (mask, [])
  | cpu :: rest =>
    if inWindow base cpu.currentCpu then
      let (mask, rest) := sendWindow base (mask ||| hartBits undef base cpu.currentCpu) rest
      (mask, { cpu with ipiType := type.setWidth 8 } :: rest)
    else
      let (mask, rest) := sendWindow base mask rest
      (mask, cpu :: rest)

/-- The outer loop of C `riscv_send_ipi_to_all_harts`: the masks and bases of its calls of
`riscv_sbi_send_ipi`, and the CPUs. -/
def sendWindows (maxCpu : BitVec 64) : (fuel : Nat) → (base : BitVec 64) → List Cpu →
    Option (List (BitVec 64 × BitVec 64) × List Cpu)
  | 0, _, _ => none
  | fuel + 1, base, cpus =>
    if base ≤ maxCpu then
      let (mask, cpus) := sendWindow undef type base 0 cpus
      (sendWindows maxCpu fuel (base + 64) cpus).map fun (calls, cpus) => ((mask, base) :: calls, cpus)
    else some ([], cpus)

/-- C `riscv_send_ipi_to_all_harts`. A base that does not wrap is beyond `maxCpu` after so many turns. -/
def riscvSendIpiToAllHarts (maxCpu : BitVec 64) (cpus : List Cpu) :
    Option (List (BitVec 64 × BitVec 64) × List Cpu) :=
  sendWindows undef type maxCpu (maxCpu.toNat / 64 + 2) 0 cpus

end Send

/-- A call of `riscv_sbi_send_ipi` selects a hart. -/
def Selects (h : Nat) (call : BitVec 64 × BitVec 64) : Bool :=
  call.2.toNat ≤ h && h - call.2.toNat < 64 && call.1.getLsbD (h - call.2.toNat)

/-- The calls select exactly the harts of the CPUs, each of them once, and every CPU has its type. -/
structure Exact (type : BitVec 32) (cpus : List Cpu) (calls : List (BitVec 64 × BitVec 64))
    (cpus' : List Cpu) : Prop where
  selected : ∀ h, calls.countP (Selects h) = if h ∈ harts cpus then 1 else 0
  typed : cpus' = cpus.map fun cpu => { cpu with ipiType := type.setWidth 8 }

/-- Every hart is below 31 in its window, or all harts of its window are there. -/
def Narrow (hs : List Nat) : Prop := ∀ h ∈ hs, h % 64 < 31 ∨ ∀ k < 64, 64 * (h / 64) + k ∈ hs

/-! ## The masks -/

section Masks
variable {undef : BitVec 64 → BitVec 32} {type : BitVec 32} {w : Nat} {cpu : BitVec 64}

/-- The hart of the lowest bit of a window. -/
def windowBase (w : Nat) : BitVec 64 := BitVec.ofNat 64 (64 * w)

/-- The first hart of a window, which does not wrap. -/
lemma windowBase_toNat (low : w ≤ 2 ^ 57) : (windowBase w).toNat = 64 * w := by
  rw [windowBase, BitVec.toNat_ofNat]
  omega

/-- The next window is 64 harts further. -/
lemma windowBase_succ : windowBase w + 64 = windowBase (w + 1) := by
  unfold windowBase
  bv_omega

/-- The windows are those of 64 harts each. -/
lemma inWindow_iff (low : w ≤ 2 ^ 57) (small : cpu.toNat ≤ 2 ^ 62) :
    inWindow (windowBase w) cpu = true ↔ cpu.toNat / 64 = w := by
  have base := windowBase_toNat low
  simp only [inWindow, Bool.and_eq_true, decide_eq_true_eq, BitVec.le_def, BitVec.toInt_eq_toNat_cond,
    BitVec.toNat_sub]
  constructor
  · rintro ⟨le, lt⟩
    split at lt <;> omega
  · intro same
    refine ⟨by omega, ?_⟩
    split <;> omega

/-- The bit of a hart in its window. -/
lemma toNat_sub_windowBase (low : w ≤ 2 ^ 57) (same : cpu.toNat / 64 = w) :
    (cpu - windowBase w).toNat = cpu.toNat % 64 := by
  have base := windowBase_toNat low
  rw [BitVec.toNat_sub]
  omega

/-- The bits of a power of two, extended with its sign. -/
lemma signExtend_shift_getLsbD {n k : Nat} (small : n < 32) (lt : k < 64) :
    ((1#32 <<< n).signExtend 64).getLsbD k = true ↔ k = n ∨ n = 31 ∧ 31 ≤ k := by
  have bits : ∀ j, (1#32 <<< n).getLsbD j = true ↔ j = n := by
    intro j
    simp only [BitVec.getLsbD_shiftLeft, BitVec.getLsbD_one, Bool.and_eq_true, decide_eq_true_eq,
      Bool.not_eq_true', decide_eq_false_iff_not]
    omega
  rw [BitVec.getLsbD_signExtend, BitVec.msb_eq_getLsbD_last, decide_eq_true lt, Bool.true_and]
  split
  · rw [bits]
    omega
  · rw [bits]
    omega

/-- The bits of a hart: its own one below 31, all from 31 on at 31. -/
lemma hartBits_getLsbD (undef : BitVec 64 → BitVec 32) (low : w ≤ 2 ^ 57) (same : cpu.toNat / 64 = w)
    {k : Nat} (lt : k < 64) :
    (cpu.toNat % 64 < 32 → ((hartBits undef (windowBase w) cpu).getLsbD k = true ↔
      k = cpu.toNat % 64 ∨ cpu.toNat % 64 = 31 ∧ 31 ≤ k)) ∧
      (32 ≤ cpu.toNat % 64 →
        (hartBits undef (windowBase w) cpu).getLsbD k = ((undef cpu).signExtend 64).getLsbD k) := by
  have amount := toNat_sub_windowBase low same
  refine ⟨?_, ?_⟩
  · intro below
    rw [hartBits, amount, shiftInt, if_pos below, signExtend_shift_getLsbD below lt]
  · intro above
    rw [hartBits, amount, shiftInt, if_neg (by omega)]

/-- A hart of the window adds a bit to its mask. -/
def MaskBit (undef : BitVec 64 → BitVec 32) (ids : List (BitVec 64)) (w k : Nat) : Prop :=
  ∃ cpu ∈ ids, cpu.toNat / 64 = w ∧ (hartBits undef (windowBase w) cpu).getLsbD k = true

/-- The inner loop: the mask has the bits of the harts in the window, and these get their type. -/
lemma sendWindow_spec (undef : BitVec 64 → BitVec 32) (type : BitVec 32) (low : w ≤ 2 ^ 57)
    {cpus : List Cpu} (mask : BitVec 64)
    (small : ∀ cpu ∈ cpus, cpu.currentCpu.toNat ≤ 2 ^ 62) :
    (∀ k, (sendWindow undef type (windowBase w) mask cpus).1.getLsbD k = true ↔
        mask.getLsbD k = true ∨ MaskBit undef (cpus.map Cpu.currentCpu) w k) ∧
      (sendWindow undef type (windowBase w) mask cpus).2 = cpus.map fun cpu =>
        if cpu.currentCpu.toNat / 64 = w then { cpu with ipiType := type.setWidth 8 } else cpu := by
  induction cpus generalizing mask with
  | nil => simp [sendWindow, MaskBit]
  | cons cpu rest ih =>
    have smallRest : ∀ c ∈ rest, c.currentCpu.toNat ≤ 2 ^ 62 := fun c mem => small c (by simp [mem])
    have inside := inWindow_iff low (small cpu (by simp))
    unfold sendWindow
    by_cases same : cpu.currentCpu.toNat / 64 = w
    · obtain ⟨bits, cpus'⟩ := ih (mask ||| hartBits undef (windowBase w) cpu.currentCpu) smallRest
      rw [if_pos (inside.mpr same)]
      refine ⟨?_, ?_⟩
      · intro k
        simp only [bits, BitVec.getLsbD_or, Bool.or_eq_true, MaskBit, List.map_cons, List.mem_cons,
          exists_eq_or_imp, same, true_and, or_assoc]
      · simp only [cpus', List.map_cons, if_pos same]
    · obtain ⟨bits, cpus'⟩ := ih mask smallRest
      rw [if_neg (fun h => same (inside.mp h))]
      refine ⟨?_, ?_⟩
      · intro k
        simp only [bits, MaskBit, List.map_cons, List.mem_cons, exists_eq_or_imp, same, false_and, false_or]
      · simp only [cpus', List.map_cons, if_neg same]

/-- A call selects the harts of its window that have a bit. -/
lemma selects_iff (low : w ≤ 2 ^ 57) {mask : BitVec 64} {h : Nat} :
    Selects h (mask, windowBase w) = true ↔ h / 64 = w ∧ mask.getLsbD (h % 64) = true := by
  simp only [Selects, windowBase_toNat low, Bool.and_eq_true, decide_eq_true_eq]
  constructor
  · rintro ⟨⟨le, lt⟩, bit⟩
    have offset : h - 64 * w = h % 64 := by omega
    exact ⟨by omega, offset ▸ bit⟩
  · rintro ⟨same, bit⟩
    have offset : h - 64 * w = h % 64 := by omega
    exact ⟨⟨by omega, by omega⟩, offset.symm ▸ bit⟩

/-- The CPUs with their type, if their windows are from `w` on. -/
def typedFrom (type : BitVec 32) (w : Nat) (cpus : List Cpu) : List Cpu :=
  cpus.map fun cpu =>
    if w ≤ cpu.currentCpu.toNat / 64 then { cpu with ipiType := type.setWidth 8 } else cpu

/-- After a window its harts have the type. -/
lemma typedFrom_step {cpus : List Cpu} :
    typedFrom type (w + 1) (cpus.map fun cpu =>
      if cpu.currentCpu.toNat / 64 = w then { cpu with ipiType := type.setWidth 8 } else cpu) =
      typedFrom type w cpus := by
  unfold typedFrom
  rw [List.map_map]
  refine List.map_congr_left ?_
  intro cpu _
  rcases Nat.lt_trichotomy (cpu.currentCpu.toNat / 64) w with lt | same | gt
  · have ne : cpu.currentCpu.toNat / 64 ≠ w := by omega
    simp only [Function.comp_apply, if_neg ne]
    rw [if_neg (by omega), if_neg (by omega)]
  · simp only [Function.comp_apply, if_pos same]
    rw [if_neg (by omega), if_pos (by omega)]
  · have ne : cpu.currentCpu.toNat / 64 ≠ w := by omega
    simp only [Function.comp_apply, if_neg ne]
    rw [if_pos (by omega), if_pos (by omega)]

/-- The outer loop: a hart from the window on is selected once if it has a bit, and not at all else. -/
lemma sendWindows_spec (undef : BitVec 64 → BitVec 32) (type : BitVec 32) {maxCpu : BitVec 64}
    (bound : maxCpu.toNat ≤ 2 ^ 62) {fuel : Nat} {cpus : List Cpu}
    (small : ∀ cpu ∈ cpus, cpu.currentCpu.toNat ≤ maxCpu.toNat) (first : w ≤ maxCpu.toNat / 64 + 1)
    (enough : maxCpu.toNat / 64 + 2 ≤ fuel + w) :
    ∃ calls, sendWindows undef type maxCpu fuel (windowBase w) cpus = some (calls, typedFrom type w cpus) ∧
      ∀ h, (w ≤ h / 64 ∧ MaskBit undef (cpus.map Cpu.currentCpu) (h / 64) (h % 64) →
          calls.countP (Selects h) = 1) ∧
        (¬ (w ≤ h / 64 ∧ MaskBit undef (cpus.map Cpu.currentCpu) (h / 64) (h % 64)) →
          calls.countP (Selects h) = 0) := by
  induction fuel generalizing w cpus with
  | zero => omega
  | succ fuel ih =>
    have low : w ≤ 2 ^ 57 := by omega
    have base := windowBase_toNat low
    unfold sendWindows
    by_cases last : 64 * w ≤ maxCpu.toNat
    · -- one window, then the windows behind it
      have le : windowBase w ≤ maxCpu := by
        rw [BitVec.le_def]
        omega
      obtain ⟨bits, next_eq⟩ := sendWindow_spec undef type low 0
        fun cpu mem => (small cpu mem).trans bound
      rcases window : sendWindow undef type (windowBase w) 0 cpus with ⟨mask, next⟩
      rw [window] at bits next_eq
      simp only at bits next_eq
      have smallNext : ∀ cpu ∈ next, cpu.currentCpu.toNat ≤ maxCpu.toNat := by
        rw [next_eq]
        intro cpu mem
        obtain ⟨c, memc, rfl⟩ := List.mem_map.mp mem
        split
        · exact small c memc
        · exact small c memc
      have ids : next.map Cpu.currentCpu = cpus.map Cpu.currentCpu := by
        rw [next_eq, List.map_map]
        refine List.map_congr_left ?_
        intro cpu _
        simp only [Function.comp_apply]
        split <;> rfl
      obtain ⟨calls, sent, counts⟩ := ih (w := w + 1) smallNext (by omega) (by omega)
      have types : typedFrom type (w + 1) next = typedFrom type w cpus := by rw [next_eq, typedFrom_step]
      refine ⟨(mask, windowBase w) :: calls, ?_, ?_⟩
      · simp only [if_pos le, windowBase_succ, sent, types, Option.map_some]
      intro h
      obtain ⟨once, never⟩ := counts h
      rw [ids] at once never
      have selects : Selects h (mask, windowBase w) = true ↔
          h / 64 = w ∧ MaskBit undef (cpus.map Cpu.currentCpu) w (h % 64) := by
        rw [selects_iff low, bits]
        simp
      rw [List.countP_cons]
      -- a hart of this window is in its mask, and in none of the masks behind it
      by_cases here : h / 64 = w
      · have zero := never (by omega)
        rw [here] at once never ⊢
        refine ⟨?_, ?_⟩
        · rintro ⟨-, bit⟩
          rw [zero, if_pos (selects.mpr ⟨here, bit⟩)]
        · intro none
          rw [zero, if_neg fun h => none ⟨le_rfl, (selects.mp h).2⟩]
      · rw [if_neg fun h => here (selects.mp h).1, Nat.add_zero]
        refine ⟨?_, ?_⟩
        · rintro ⟨from_, bit⟩
          exact once ⟨by omega, bit⟩
        · intro none
          exact never fun h => none ⟨by omega, h.2⟩
    · -- the loop is over: no CPU is in a window from here on
      have lt : ¬ windowBase w ≤ maxCpu := by
        rw [BitVec.le_def]
        omega
      have outside : ∀ cpu ∈ cpus, ¬ w ≤ cpu.currentCpu.toNat / 64 := by
        intro cpu mem
        have := small cpu mem
        omega
      have same : typedFrom type w cpus = cpus := by
        unfold typedFrom
        refine (List.map_congr_left fun cpu mem => if_neg (outside cpu mem)).trans (List.map_id _)
      rw [if_neg lt, same]
      refine ⟨[], rfl, ?_⟩
      intro h
      refine ⟨?_, fun _ => rfl⟩
      rintro ⟨from_, cpu, mem, window, -⟩
      obtain ⟨c, memc, rfl⟩ := List.mem_map.mp mem
      have := outside c memc
      omega

end Masks

/-- The harts are those of the CPUs. -/
lemma mem_harts {cpus : List Cpu} {h : Nat} :
    h ∈ harts cpus ↔ ∃ cpu ∈ cpus.map Cpu.currentCpu, cpu.toNat = h := by
  simp [harts]

/-- No hart is above the maximum. -/
lemma le_maxHart {hs : List Nat} {h : Nat} (mem : h ∈ hs) : h ≤ maxHart hs := by
  induction hs with
  | nil => cases mem
  | cons first rest ih =>
    rcases List.mem_cons.mp mem with rfl | mem
    · exact le_max_left ..
    · exact (ih mem).trans (le_max_right ..)

/-- The maximum is below every bound of the harts. -/
lemma maxHart_le {hs : List Nat} {bound : Nat} (le : ∀ h ∈ hs, h ≤ bound) : maxHart hs ≤ bound := by
  induction hs with
  | nil => exact Nat.zero_le _
  | cons first rest ih =>
    exact max_le (le first (by simp)) (ih fun h mem => le h (by simp [mem]))

/-- The loop registers the harts other than the first one, and keeps the largest of all. -/
lemma initCpus_spec (bsp : BitVec 64) (hs : List (BitVec 64)) (cpus : List Cpu) (top : BitVec 64) :
    harts (initCpus bsp hs cpus top).1 = harts cpus ++ (hs.filter (· ≠ bsp)).map BitVec.toNat ∧
      (initCpus bsp hs cpus top).2.toNat = max top.toNat (maxHart (hs.map BitVec.toNat)) := by
  induction hs generalizing cpus top with
  | nil => simp [initCpus, maxHart]
  | cons hart rest ih =>
    have larger : (if top < hart then hart else top).toNat = max top.toNat hart.toNat := by
      split <;> rename_i h <;> rw [BitVec.lt_def] at h <;> omega
    have most : maxHart ((hart :: rest).map BitVec.toNat) =
        max hart.toNat (maxHart (rest.map BitVec.toNat)) := rfl
    unfold initCpus
    by_cases first : hart = bsp
    · obtain ⟨registered, top'⟩ := ih cpus (if top < hart then hart else top)
      rw [if_pos first, top', larger, most, registered]
      exact ⟨by simp [first], by omega⟩
    · obtain ⟨registered, top'⟩ := ih (cpus ++ [⟨hart, 0⟩]) (if top < hart then hart else top)
      rw [if_neg first, top', larger, most, registered]
      exact ⟨by simp [first, harts], by omega⟩

/-- After `riscv_cpu_init` the harts that the boot loader lists are registered, and `cpu_max_hart_id` is
their maximum. -/
lemma riscvCpuInit_spec {bsp : BitVec 64} {hs : List (BitVec 64)} (listed : bsp ∈ hs) :
    (∀ h, h ∈ harts (riscvCpuInit bsp hs).1 ↔ h ∈ hs.map BitVec.toNat) ∧
      (riscvCpuInit bsp hs).2.toNat = maxHart (harts (riscvCpuInit bsp hs).1) := by
  obtain ⟨registered, top⟩ := initCpus_spec bsp hs [⟨bsp, 0⟩] 0
  have mem : ∀ h, h ∈ harts (riscvCpuInit bsp hs).1 ↔ h ∈ hs.map BitVec.toNat := by
    intro h
    rw [riscvCpuInit, registered]
    simp only [harts, List.map_cons, List.map_nil, List.singleton_append, List.mem_cons, List.mem_map,
      List.mem_filter, decide_eq_true_eq]
    constructor
    · rintro (rfl | ⟨x, ⟨mem, -⟩, rfl⟩)
      · exact ⟨bsp, listed, rfl⟩
      · exact ⟨x, mem, rfl⟩
    · rintro ⟨x, mem, rfl⟩
      by_cases first : x = bsp
      · exact .inl (by rw [first])
      · exact .inr ⟨x, ⟨mem, by simpa using first⟩, rfl⟩
  refine ⟨mem, ?_⟩
  rw [riscvCpuInit, top]
  refine le_antisymm (max_le (Nat.zero_le _) (maxHart_le fun h h' => le_maxHart ((mem h).mpr h'))) ?_
  exact (maxHart_le fun h h' => le_maxHart ((mem h).mp h')).trans (le_max_right ..)

section Exact
variable {undef : BitVec 64 → BitVec 32} {type : BitVec 32} {cpus : List Cpu} {maxCpu : BitVec 64}

/-- The calls select exactly the harts if the masks have exactly their bits. -/
lemma exact_iff_maskBit (small : ∀ h ∈ harts cpus, h ≤ 2 ^ 62) (most : maxCpu.toNat = maxHart (harts cpus)) :
    (∃ calls cpus', riscvSendIpiToAllHarts undef type maxCpu cpus = some (calls, cpus') ∧
        Exact type cpus calls cpus') ↔
      ∀ h, MaskBit undef (cpus.map Cpu.currentCpu) (h / 64) (h % 64) ↔ h ∈ harts cpus := by
  have bound : maxCpu.toNat ≤ 2 ^ 62 := most ▸ maxHart_le small
  have below : ∀ cpu ∈ cpus, cpu.currentCpu.toNat ≤ maxCpu.toNat := by
    intro cpu mem
    rw [most]
    exact le_maxHart (List.mem_map_of_mem mem)
  obtain ⟨calls, sent, counts⟩ := sendWindows_spec undef type (w := 0) bound below (by omega)
    le_rfl
  have all : typedFrom type 0 cpus = cpus.map fun cpu => { cpu with ipiType := type.setWidth 8 } :=
    List.map_congr_left fun cpu _ => if_pos (Nat.zero_le _)
  constructor
  · rintro ⟨calls', cpus', sent', exact_⟩ h
    have same : some (calls', cpus') = some (calls, typedFrom type 0 cpus) := sent'.symm.trans sent
    cases same
    have count := exact_.selected h
    obtain ⟨once, never⟩ := counts h
    constructor
    · intro bit
      by_contra absent
      rw [once ⟨Nat.zero_le _, bit⟩, if_neg absent] at count
      cases count
    · intro mem
      by_contra noBit
      rw [never fun h => noBit h.2, if_pos mem] at count
      cases count
  · intro bits
    refine ⟨calls, _, sent, ?_, all⟩
    intro h
    obtain ⟨once, never⟩ := counts h
    split
    · rename_i mem
      exact once ⟨Nat.zero_le _, (bits h).mpr mem⟩
    · rename_i absent
      exact never fun bit => absent ((bits h).mp bit.2)

/-- If every hart is narrow, the masks have exactly the bits of the harts, whatever C does not define. -/
lemma maskBit_of_narrow (small : ∀ h ∈ harts cpus, h ≤ 2 ^ 62) (narrow : Narrow (harts cpus)) (h : Nat) :
    MaskBit undef (cpus.map Cpu.currentCpu) (h / 64) (h % 64) ↔ h ∈ harts cpus := by
  have bits : ∀ cpu ∈ cpus.map Cpu.currentCpu, cpu.toNat / 64 = h / 64 → cpu.toNat % 64 < 32 →
      ((hartBits undef (windowBase (h / 64)) cpu).getLsbD (h % 64) = true ↔
        h % 64 = cpu.toNat % 64 ∨ cpu.toNat % 64 = 31 ∧ 31 ≤ h % 64) := by
    intro cpu mem same below
    have le := small _ (mem_harts.mpr ⟨cpu, mem, rfl⟩)
    exact (hartBits_getLsbD undef (by omega) same (Nat.mod_lt _ (by omega))).1 below
  constructor
  · rintro ⟨cpu, mem, same, bit⟩
    rcases narrow _ (mem_harts.mpr ⟨cpu, mem, rfl⟩) with below | full
    · have offset := (bits cpu mem same (by omega)).mp bit
      have hart : cpu.toNat = h := by omega
      exact mem_harts.mpr ⟨cpu, mem, hart⟩
    · have hart := full (h % 64) (Nat.mod_lt _ (by omega))
      rw [same, Nat.div_add_mod] at hart
      exact hart
  · intro mem
    by_cases low : h % 64 < 31
    · obtain ⟨cpu, memc, rfl⟩ := mem_harts.mp mem
      exact ⟨cpu, memc, rfl, (bits cpu memc rfl (by omega)).mpr (.inl rfl)⟩
    · -- the hart at 31 has the bits of all harts behind it
      have full := (narrow h mem).resolve_left low
      obtain ⟨cpu, memc, hart⟩ := mem_harts.mp (full 31 (by omega))
      have same : cpu.toNat / 64 = h / 64 := by omega
      exact ⟨cpu, memc, same, (bits cpu memc same (by omega)).mpr (.inr ⟨by omega, by omega⟩)⟩

/-- What the machine does for a shift that C does not define: it takes the lower five bits of the amount. -/
def sllw (cpu : BitVec 64) : BitVec 32 := 1#32 <<< (cpu.toNat % 32)

/-- With the shift of the machine, masks that have exactly the bits of the harts are those of narrow ones. -/
lemma narrow_of_maskBit (small : ∀ h ∈ harts cpus, h ≤ 2 ^ 62)
    (exactly : ∀ h, MaskBit sllw (cpus.map Cpu.currentCpu) (h / 64) (h % 64) ↔ h ∈ harts cpus) :
    Narrow (harts cpus) := by
  -- the bits of a hart are those of its lower five bits
  have bits : ∀ h ∈ harts cpus, ∀ k < 64,
      (k = h % 32 ∨ h % 32 = 31 ∧ 31 ≤ k) → 64 * (h / 64) + k ∈ harts cpus := by
    intro h mem k lt bit
    obtain ⟨cpu, memc, rfl⟩ := mem_harts.mp mem
    have le := small _ mem
    rw [← exactly]
    have window : (64 * (cpu.toNat / 64) + k) / 64 = cpu.toNat / 64 := by omega
    have offset : (64 * (cpu.toNat / 64) + k) % 64 = k := by omega
    rw [window, offset]
    refine ⟨cpu, memc, rfl, ?_⟩
    obtain ⟨below, above⟩ := hartBits_getLsbD sllw (by omega) (rfl : cpu.toNat / 64 = _) lt
    by_cases low : cpu.toNat % 64 < 32
    · exact (below low).mpr (by omega)
    · rw [above (by omega), sllw, signExtend_shift_getLsbD (by omega) lt]
      exact bit
  have full : ∀ w, 64 * w + 31 ∈ harts cpus → ∀ k < 64, 64 * w + k ∈ harts cpus := by
    intro w mem k lt
    have window : (64 * w + 31) / 64 = w := by omega
    have behind : ∀ k < 64, 31 ≤ k → 64 * w + k ∈ harts cpus := by
      intro k lt from_
      have := bits _ mem k lt (.inr ⟨by omega, from_⟩)
      rwa [window] at this
    by_cases from_ : 31 ≤ k
    · exact behind k lt from_
    · have upper := behind (32 + k) (by omega) (by omega)
      have := bits _ upper k lt (.inl (by omega))
      have window' : (64 * w + (32 + k)) / 64 = w := by omega
      rwa [window'] at this
  intro h mem
  by_cases low : h % 64 < 31
  · exact .inl low
  · refine .inr (full _ ?_)
    by_cases at_ : h % 64 = 31
    · rwa [← at_, Nat.div_add_mod]
    · -- the bit of the hart is set by one that sets all from 31 on
      obtain ⟨cpu, memc, same, bit⟩ := (exactly h).mpr mem
      have le := small _ (mem_harts.mpr ⟨cpu, memc, rfl⟩)
      obtain ⟨below, above⟩ := hartBits_getLsbD sllw (k := h % 64) (by omega) same
        (Nat.mod_lt _ (by omega))
      have top : cpu.toNat % 32 = 31 := by
        by_cases under : cpu.toNat % 64 < 32
        · have := (below under).mp bit
          omega
        · rw [above (by omega), sllw, signExtend_shift_getLsbD (by omega) (Nat.mod_lt _ (by omega))] at bit
          omega
      have := bits _ (mem_harts.mpr ⟨cpu, memc, rfl⟩) 31 (by omega) (.inr ⟨top, le_rfl⟩)
      rwa [same] at this

end Exact

/-- For all CPUs whose harts are at most `2 ^ 62`, with their maximum in `cpu_max_hart_id`: whatever C does
not define, the calls select exactly the harts of the CPUs, each once, and set every type, if and only if
every hart is below 31 in its window of 64 or all harts of its window are there. With the shift of the
machine for what C does not define it is the same. -/
theorem riscv_ipi_exact_iff (type : BitVec 32) (cpus : List Cpu) (maxCpu : BitVec 64)
    (small : ∀ h ∈ harts cpus, h ≤ 2 ^ 62) (most : maxCpu.toNat = maxHart (harts cpus)) :
    ((∀ undef, ∃ calls cpus', riscvSendIpiToAllHarts undef type maxCpu cpus = some (calls, cpus') ∧
        Exact type cpus calls cpus') ↔ Narrow (harts cpus)) ∧
      ((∃ calls cpus', riscvSendIpiToAllHarts sllw type maxCpu cpus = some (calls, cpus') ∧
        Exact type cpus calls cpus') ↔ Narrow (harts cpus)) := by
  refine ⟨⟨?_, ?_⟩, ⟨?_, ?_⟩⟩
  · intro exactly
    exact narrow_of_maskBit small ((exact_iff_maskBit small most).mp (exactly sllw))
  · intro narrow undef
    exact (exact_iff_maskBit small most).mpr (maskBit_of_narrow small narrow)
  · intro exactly
    exact narrow_of_maskBit small ((exact_iff_maskBit small most).mp exactly)
  · intro narrow
    exact (exact_iff_maskBit small most).mpr (maskBit_of_narrow small narrow)

/-- The CPUs of four harts. -/
def fourHarts : List Cpu := [⟨0, 0⟩, ⟨1, 0⟩, ⟨2, 0⟩, ⟨3, 0⟩]

/-- The harts 0 to 3. -/
theorem riscv_ipi_exact_iff_fourHarts :
    ((∀ undef, ∃ calls cpus', riscvSendIpiToAllHarts undef 1 3 fourHarts = some (calls, cpus') ∧
        Exact 1 fourHarts calls cpus') ↔ Narrow (harts fourHarts)) ∧
      ((∃ calls cpus', riscvSendIpiToAllHarts sllw 1 3 fourHarts = some (calls, cpus') ∧
        Exact 1 fourHarts calls cpus') ↔ Narrow (harts fourHarts)) :=
  riscv_ipi_exact_iff 1 fourHarts 3 (by decide) (by decide)

/-- With the harts 0 and 31 the mask selects all harts from 31 to 63. -/
theorem riscv_ipi_selects_absent :
    riscvSendIpiToAllHarts sllw 1 31 [⟨0, 0⟩, ⟨31, 0⟩] =
        some ([(0xFFFFFFFF80000001, 0)], [⟨0, 1⟩, ⟨31, 1⟩]) ∧
      Selects 32 (0xFFFFFFFF80000001, 0) = true ∧
      ¬ Exact 1 [⟨0, 0⟩, ⟨31, 0⟩] [(0xFFFFFFFF80000001, 0)] [⟨0, 1⟩, ⟨31, 1⟩] := by
  refine ⟨by decide, by decide, ?_⟩
  intro exactly
  have count := exactly.selected 32
  revert count
  decide

end WivOS.Arch.Riscv64
