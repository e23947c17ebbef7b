import Mathlib.Data.List.Nodup
import Unics.Arch.Cpu
import Unics.Lib.Windows
import Unics.Lib.Words

/-!
# What the bytes of the features say

Each field but two is stored as a whole byte of a register that is shifted by one place a field, so
it is nonzero when any bit of a window of eight is set, and the window is off by one more place
behind every reserved bit that is not skipped. The fields are then right only for registers that
are uniform: in EDX all the features or no bit at all, in ECX all of them or the first few only.
-/

namespace Unics

open Unics.Lib

/-! ## Leaf 1 -/

/-- What each bit of EDX stands for, `none` where it is reserved. -/
def leaf1Edx : List (Option CpuFeature) :=
  [some .fpu, some .vme, some .de, some .pse, some .tsc, some .msr, some .pae, some .mce,
    some .cx8, some .apic, none, some .sep, some .mtrr, some .pge, some .mca, some .cmov,
    some .pat, some .pse36, some .psn, some .clfsh, none, some .ds, some .acpi, some .mmx,
    some .fxsr, some .sse, some .sse2, some .ss, some .htt, some .tm, some .ia64, some .pbe]

/-- What each bit of ECX stands for. -/
def leaf1Ecx : List (Option CpuFeature) :=
  [some .sse3, some .pclmul, some .dtes64, some .monitor, some .dsCpl, some .vmx, some .smx,
    some .est, some .tm2, some .ssse3, some .cid, some .sdbg, some .fma, some .cx16, some .xtpr,
    some .pdcm, none, some .pcid, some .dca, some .sse4_1, some .sse4_2, some .x2apic,
    some .movbe, some .popcnt, some .tscDeadline, some .aes, some .xsave, some .osxsave,
    some .avx, some .f16c, some .rdrand, some .hypervisor]

/-- Each field is nonzero exactly when the bit of its feature is set. -/
structure Decoded (regs : CpuidRegs) (features : CpuFeatures) : Prop where
  edx : ∀ i field, leaf1Edx[i]? = some (some field) →
    (features field ≠ 0 ↔ regs.edx.getLsbD i = true)
  ecx : ∀ i field, leaf1Ecx[i]? = some (some field) →
    (features field ≠ 0 ↔ regs.ecx.getLsbD i = true)

/-! ## Stores -/

theorem storeBytes_of_notMem {fields : List CpuFeature} {field : CpuFeature}
    (h : field ∉ fields) (features : CpuFeatures) (reg : BitVec 32) :
    storeBytes features reg fields field = features field := by
  induction fields generalizing features reg with
  | nil => rfl
  | cons f fs ih =>
    rw [List.mem_cons, not_or] at h
    rw [storeBytes, ih h.2, Function.update_of_ne h.1]

/-- The field stored after `k` shifts. -/
theorem storeBytes_getElem {fields : List CpuFeature} (h : fields.Nodup) {k : ℕ}
    (hk : k < fields.length) (features : CpuFeatures) (reg : BitVec 32) :
    storeBytes features reg fields fields[k] = (reg >>> k).setWidth 8 := by
  induction fields generalizing features reg k with
  | nil => exact absurd hk (Nat.not_lt_zero k)
  | cons f fs ih =>
    obtain ⟨fresh, rest⟩ := List.nodup_cons.mp h
    rw [storeBytes]
    cases k with
    | zero =>
      rw [List.getElem_cons_zero, storeBytes_of_notMem fresh, Function.update_self,
        BitVec.ushiftRight_zero]
    | succ k =>
      rw [List.getElem_cons_succ, ih rest (Nat.lt_of_succ_lt_succ hk), ← BitVec.shiftRight_add,
        Nat.add_comm]

/-- Where the feature of the field stored from EDX after `k` shifts has its bit. -/
def edxPlace (k : ℕ) : ℕ := if k < 9 then k + 1 else if k < 18 then k + 2 else k + 3

/-- Where the feature of the field stored from ECX after `k` shifts has its bit. -/
def ecxPlace (k : ℕ) : ℕ := if k < 16 then k else k + 1

theorem leaf1Edx_place {k : ℕ} (hk : k < edxFields.length) :
    leaf1Edx[edxPlace k]? = some (some edxFields[k]) := by
  revert k
  decide

theorem leaf1Ecx_place {k : ℕ} (hk : k < ecxFields.length) :
    leaf1Ecx[ecxPlace k]? = some (some ecxFields[k]) := by
  revert k
  decide

/-- The place is in its own window and, one reserved bit after the other, past its start. -/
theorem edxPlace_bounds (k : ℕ) : k + 1 ≤ edxPlace k ∧ edxPlace k ≤ k + 3 := by
  unfold edxPlace
  split
  · omega
  · split <;> omega

theorem ecxPlace_low {k : ℕ} (hk : k < 16) : ecxPlace k = k := if_pos hk

theorem ecxPlace_high {k : ℕ} (hk : 16 ≤ k) : ecxPlace k = k + 1 := if_neg (Nat.not_lt.mpr hk)

theorem ecxPlace_bounds (k : ℕ) : k ≤ ecxPlace k ∧ ecxPlace k ≤ k + 1 := by
  unfold ecxPlace
  split <;> omega

/-- The bits of EDX that have no place: that of the FPU, and the reserved ones. -/
theorem edxPlace_cases {i : ℕ} (hi : i < 32) :
    i = 0 ∨ i = 10 ∨ i = 20 ∨ ∃ k < edxFields.length, edxPlace k = i := by
  revert i
  decide

/-- The bits of ECX that have no place: the reserved one, and that of the hypervisor. -/
theorem ecxPlace_cases {i : ℕ} (hi : i < 32) :
    i = 16 ∨ i = 31 ∨ ∃ k < ecxFields.length, ecxPlace k = i := by
  revert i
  decide

/-! ## Fields and windows -/

section Detect

variable {cpu : Cpu} {features : CpuFeatures}

theorem cpuDetectFeatures_edx (h : cpu.idFlag = true) {k : ℕ} (hk : k < edxFields.length) :
    cpuDetectFeatures cpu features edxFields[k] = ((cpu.cpuid 1).edx >>> k).setWidth 8 := by
  have apart : ∀ field ∈ edxFields, field ≠ .hypervisor ∧ field ∉ ecxFields := by decide
  obtain ⟨last, other⟩ := apart _ (List.getElem_mem hk)
  rw [cpuDetectFeatures, if_pos h, Function.update_of_ne last, storeBytes_of_notMem other,
    storeBytes_getElem (by decide) hk]

theorem cpuDetectFeatures_ecx (h : cpu.idFlag = true) {k : ℕ} (hk : k < ecxFields.length) :
    cpuDetectFeatures cpu features ecxFields[k] = ((cpu.cpuid 1).ecx >>> k).setWidth 8 := by
  have apart : ∀ field ∈ ecxFields, field ≠ .hypervisor := by decide
  rw [cpuDetectFeatures, if_pos h, Function.update_of_ne (apart _ (List.getElem_mem hk)),
    storeBytes_getElem (by decide) hk]

/-- The FPU's field is tested and set, as it should be. -/
theorem cpuDetectFeatures_fpu (h : cpu.idFlag = true) :
    cpuDetectFeatures cpu features .fpu ≠ 0 ↔ (cpu.cpuid 1).edx.getLsbD 0 = true := by
  have first : CpuFeature.fpu ≠ .hypervisor := by decide
  rw [cpuDetectFeatures, if_pos h, Function.update_of_ne first,
    storeBytes_of_notMem (by decide), storeBytes_of_notMem (by decide),
    ← and_twoPow_ne_zero_iff (by decide)]
  by_cases hbit : (cpu.cpuid 1).edx &&& 1 <<< 0 ≠ 0
  · rw [if_pos hbit, Function.update_self]
    exact iff_of_true (by decide) hbit
  · rw [if_neg hbit, Function.update_self]
    exact iff_of_false (by decide) hbit

/-- So is the hypervisor's. -/
theorem cpuDetectFeatures_hypervisor (h : cpu.idFlag = true) :
    cpuDetectFeatures cpu features .hypervisor ≠ 0 ↔ (cpu.cpuid 1).ecx.getLsbD 31 = true := by
  rw [cpuDetectFeatures, if_pos h, Function.update_self, ← and_twoPow_ne_zero_iff (by decide)]
  by_cases hbit : (cpu.cpuid 1).ecx &&& 1 <<< 31 ≠ 0
  · rw [if_pos hbit]
    exact iff_of_true (by decide) hbit
  · rw [if_neg hbit]
    exact iff_of_false (by decide) hbit

/-- The features are decoded exactly when each window tells of its feature's bit. -/
theorem decoded_iff_tells (h : cpu.idFlag = true) :
    Decoded (cpu.cpuid 1) (cpuDetectFeatures cpu features) ↔
      Tells 8 (fun i => (cpu.cpuid 1).edx.getLsbD i = true) edxPlace edxFields.length ∧
      Tells 8 (fun i => (cpu.cpuid 1).ecx.getLsbD i = true) ecxPlace ecxFields.length := by
  constructor
  · refine fun hd => ⟨fun k hk => ?_, fun k hk => ?_⟩
    · rw [← shiftRight_setWidth_ne_zero_iff, ← cpuDetectFeatures_edx h hk]
      exact hd.edx (edxPlace k) edxFields[k] (leaf1Edx_place hk)
    · rw [← shiftRight_setWidth_ne_zero_iff, ← cpuDetectFeatures_ecx h hk]
      exact hd.ecx (ecxPlace k) ecxFields[k] (leaf1Ecx_place hk)
  · rintro ⟨edx, ecx⟩
    refine ⟨fun i field hfield => ?_, fun i field hfield => ?_⟩
    · obtain ⟨hi, -⟩ := List.getElem?_eq_some_iff.mp hfield
      rcases edxPlace_cases hi with rfl | rfl | rfl | ⟨k, hk, rfl⟩
      · obtain rfl : CpuFeature.fpu = field := by simpa [leaf1Edx] using hfield
        exact cpuDetectFeatures_fpu h
      · cases hfield
      · cases hfield
      · rw [leaf1Edx_place hk, Option.some.injEq, Option.some.injEq] at hfield
        rw [← hfield, cpuDetectFeatures_edx h hk, shiftRight_setWidth_ne_zero_iff]
        exact edx k hk
    · obtain ⟨hi, -⟩ := List.getElem?_eq_some_iff.mp hfield
      rcases ecxPlace_cases hi with rfl | rfl | ⟨k, hk, rfl⟩
      · cases hfield
      · obtain rfl : CpuFeature.hypervisor = field := by simpa [leaf1Ecx] using hfield
        exact cpuDetectFeatures_hypervisor h
      · rw [leaf1Ecx_place hk, Option.some.injEq, Option.some.injEq] at hfield
        rw [← hfield, cpuDetectFeatures_ecx h hk, shiftRight_setWidth_ne_zero_iff]
        exact ecx k hk

end Detect

/-! ## Uniform registers -/

/-- EDX is zero, or all its features are there. -/
def EdxUniform (edx : BitVec 32) : Prop := edx = 0 ∨ edx &&& 0xFFEFFBFE = 0xFFEFFBFE

/-- The first features of ECX are there, up to the reserved bit at most, or all features are. -/
def EcxUniform (ecx : BitVec 32) : Prop :=
  (∃ k ≤ 16, ecx = BitVec.ofNat 32 (2 ^ k - 1)) ∨ ecx &&& 0x7FFEFFFF = 0x7FFEFFFF

theorem edx_mask_iff {edx : BitVec 32} : edx &&& 0xFFEFFBFE = 0xFFEFFBFE ↔
    ∀ k < edxFields.length, edx.getLsbD (edxPlace k) = true :=
  and_eq_mask_iff (by decide) (by decide)

theorem ecx_mask_iff {ecx : BitVec 32} : ecx &&& 0x7FFEFFFF = 0x7FFEFFFF ↔
    ∀ k < ecxFields.length, ecx.getLsbD (ecxPlace k) = true :=
  and_eq_mask_iff (by decide) (by decide)

theorem edx_tells_iff {edx : BitVec 32} :
    Tells 8 (fun i => edx.getLsbD i = true) edxPlace edxFields.length ↔ EdxUniform edx := by
  rw [EdxUniform, edx_mask_iff]
  constructor
  · intro h
    by_cases hzero : edx = 0
    · exact .inl hzero
    refine .inr fun k hk => ?_
    -- some bit is set, it is in a window, and a window's place is in its neighbours
    obtain ⟨i, hi⟩ : ∃ i, edx.getLsbD i = true := by
      by_contra none
      refine hzero (BitVec.eq_of_getLsbD_eq fun i _ => ?_)
      exact (Bool.eq_false_iff.mpr fun set => none ⟨i, set⟩).trans BitVec.getLsbD_zero.symm
    have bound := lt_of_getLsbD hi
    have start : edx.getLsbD (edxPlace (min i 28)) = true :=
      h.of_bit (show min i 28 < 29 by omega) (by omega) (by omega) hi
    have up : edx.getLsbD (edxPlace 28) = true := by
      refine h.upwards (fun k _ _ => ?_) (Nat.min_le_right i 28) (by decide) start
      have bounds := edxPlace_bounds k
      omega
    refine h.downwards (fun k _ => ?_) (Nat.le_of_lt_succ hk) (by decide) up
    have bounds := edxPlace_bounds (k + 1)
    omega
  · rintro (rfl | h)
    · refine fun k hk => iff_of_false ?_ ?_
      · rintro ⟨i, -, -, set⟩
        cases BitVec.getLsbD_zero.symm.trans set
      · intro set
        cases BitVec.getLsbD_zero.symm.trans set
    · refine tells_of_all (fun k _ => ?_) h
      have bounds := edxPlace_bounds k
      omega

/-- Bits up to the reserved one: the first ones are set. -/
theorem ecx_ones_of_tells {ecx : BitVec 32}
    (h : Tells 8 (fun i => ecx.getLsbD i = true) ecxPlace ecxFields.length)
    (low : ∀ i, ecx.getLsbD i = true → i < 16) : ∃ k ≤ 16, ecx = BitVec.ofNat 32 (2 ^ k - 1) := by
  obtain ⟨k, hk, first⟩ := exists_first_bits low fun i set => by
    have bound := low (i + 1) set
    rw [← ecxPlace_low bound] at set
    have down := h.downwards (fun k _ => by have bounds := ecxPlace_bounds (k + 1); omega)
      (Nat.le_succ i) (show i + 1 < 30 by omega) set
    rwa [ecxPlace_low (Nat.lt_of_succ_lt bound)] at down
  refine ⟨k, hk, BitVec.eq_of_getLsbD_eq fun i _ => ?_⟩
  rw [Bool.eq_iff_iff, getLsbD_ones (by omega), first]

/-- A bit past the reserved one: every feature is there. -/
theorem ecx_all_of_tells {ecx : BitVec 32}
    (h : Tells 8 (fun i => ecx.getLsbD i = true) ecxPlace ecxFields.length) {i : ℕ} (hlo : 16 ≤ i)
    (hi : ecx.getLsbD i = true) :
    ∀ k < ecxFields.length, ecx.getLsbD (ecxPlace k) = true := by
  intro k hk
  have bound := lt_of_getLsbD hi
  have start : ecx.getLsbD (ecxPlace (min i 29)) = true :=
    h.of_bit (show min i 29 < 30 by omega) (by omega) (by omega) hi
  -- past the reserved bit a window's place is in the next window
  have up : ecx.getLsbD (ecxPlace 29) = true := by
    refine h.upwards (fun k hk _ => ?_) (Nat.min_le_right i 29) (by decide) start
    rw [ecxPlace_high (by omega)]
    omega
  refine h.downwards (fun k _ => ?_) (Nat.le_of_lt_succ hk) (by decide) up
  have bounds := ecxPlace_bounds (k + 1)
  omega

theorem ecx_tells_ones {m : ℕ} (hm : m ≤ 16) :
    Tells 8 (fun i => (BitVec.ofNat 32 (2 ^ m - 1)).getLsbD i = true) ecxPlace
      ecxFields.length := by
  intro k _
  have bounds := ecxPlace_bounds k
  have high := @ecxPlace_high k
  show Through 8 _ k ↔ (BitVec.ofNat 32 (2 ^ m - 1)).getLsbD (ecxPlace k) = true
  rw [getLsbD_ones (by omega)]
  constructor
  · rintro ⟨i, hlo, -, set⟩
    rw [getLsbD_ones (by omega)] at set
    rw [ecxPlace_low (by omega)]
    omega
  · intro set
    exact ⟨k, le_rfl, by omega, (getLsbD_ones (by omega)).mpr (by omega)⟩

theorem ecx_tells_iff {ecx : BitVec 32} :
    Tells 8 (fun i => ecx.getLsbD i = true) ecxPlace ecxFields.length ↔ EcxUniform ecx := by
  rw [EcxUniform, ecx_mask_iff]
  constructor
  · intro h
    by_cases high : ∃ i, 16 ≤ i ∧ ecx.getLsbD i = true
    · obtain ⟨i, hlo, hi⟩ := high
      exact .inr (ecx_all_of_tells h hlo hi)
    · exact .inl (ecx_ones_of_tells h fun i hi => Nat.lt_of_not_le fun hlo => high ⟨i, hlo, hi⟩)
  · rintro (⟨m, hm, rfl⟩ | h)
    · exact ecx_tells_ones hm
    · refine tells_of_all (fun k _ => ?_) h
      have bounds := ecxPlace_bounds k
      omega

/-- On a processor with `cpuid`, every field says what its bit of leaf 1 says exactly when both
registers are uniform. -/
theorem decoded_iff {cpu : Cpu} (h : cpu.idFlag = true) (features : CpuFeatures) :
    Decoded (cpu.cpuid 1) (cpuDetectFeatures cpu features) ↔
      EdxUniform (cpu.cpuid 1).edx ∧ EcxUniform (cpu.cpuid 1).ecx := by
  rw [decoded_iff_tells h, edx_tells_iff, ecx_tells_iff]

/-- A processor that answers every leaf with the same registers. -/
def Cpu.answering (edx ecx : BitVec 32) : Cpu where
  idFlag := true
  cpuid := fun _ => { eax := 0, ebx := 0, ecx, edx }

/-- No feature but the first three of ECX. -/
theorem decoded_three :
    Decoded ((Cpu.answering 0 7).cpuid 1) (cpuDetectFeatures (Cpu.answering 0 7) fun _ => 0) ↔
      EdxUniform ((Cpu.answering 0 7).cpuid 1).edx ∧
        EcxUniform ((Cpu.answering 0 7).cpuid 1).ecx :=
  decoded_iff rfl fun _ => 0

/-- A processor with an FPU and nothing else: the field of virtual 8086 mode is set. -/
theorem not_decoded_fpu : ¬ Decoded ((Cpu.answering 1 0).cpuid 1)
    (cpuDetectFeatures (Cpu.answering 1 0) fun _ => 0) := fun h =>
  absurd ((h.edx 1 .vme rfl).mp (by decide)) (by decide)

end Unics
