import Mathlib.Logic.Function.Basic
import Unics.Types

/-!
# CPU features

`cpu_detect_features` of `arch/i386/cpu.s`, and `cpu_features_t` of `arch/i386/cpu.h`. The fields of
`cpu_features_t` are a byte each.
-/

namespace Unics

/-- The fields of `cpu_features_t`, in their order. -/
inductive CpuFeature where
  | fpu | vme | de | pse | tsc | msr | pae | mce | cx8 | apic | sep | mtrr | pge | mca | cmov
  | pat | pse36 | psn | clfsh | ds | acpi | mmx | fxsr | sse | sse2 | ss | htt | tm | ia64 | pbe
  | sse3 | pclmul | dtes64 | monitor | dsCpl | vmx | smx | est | tm2 | ssse3 | cid | sdbg | fma
  | cx16 | xtpr | pdcm | pcid | dca | sse4_1 | sse4_2 | x2apic | movbe | popcnt | tscDeadline
  | aes | xsave | osxsave | avx | f16c | rdrand | hypervisor
  deriving DecidableEq, Repr

/-- `cpu_features_t`. -/
abbrev CpuFeatures := CpuFeature → BitVec 8

/-- The registers after `cpuid`. -/
structure CpuidRegs where
  eax : BitVec 32
  ebx : BitVec 32
  ecx : BitVec 32
  edx : BitVec 32

/-- What `cpu_detect_features` asks of the processor: whether the ID flag of EFLAGS can be flipped,
and what `cpuid` answers for a leaf. -/
structure Cpu where
  idFlag : Bool
  cpuid : BitVec 32 → CpuidRegs

/-- `mov byte [edi + field], low byte of the register`, `shr register, 1`, for one field after the
other. -/
def storeBytes (features : CpuFeatures) (reg : BitVec 32) : List CpuFeature → CpuFeatures
  | [] => features
  | field :: fields =>
    storeBytes (Function.update features field (reg.setWidth 8)) (reg >>> 1) fields

/-- The fields stored from EDX, the first one before any shift. -/
def edxFields : List CpuFeature :=
  [.vme, .de, .pse, .tsc, .msr, .pae, .mce, .cx8, .apic, .sep, .mtrr, .pge, .mca, .cmov, .pat,
    .pse36, .psn, .clfsh, .ds, .acpi, .mmx, .fxsr, .sse, .sse2, .ss, .htt, .tm, .ia64, .pbe]

/-- The fields stored from ECX, the first one before any shift. -/
def ecxFields : List CpuFeature :=
  [.sse3, .pclmul, .dtes64, .monitor, .dsCpl, .vmx, .smx, .est, .tm2, .ssse3, .cid, .sdbg, .fma,
    .cx16, .xtpr, .pdcm, .pcid, .dca, .sse4_1, .sse4_2, .x2apic, .movbe, .popcnt, .tscDeadline,
    .aes, .xsave, .osxsave, .avx, .f16c, .rdrand]

def cpuDetectFeatures (cpu : Cpu) (features : CpuFeatures) : CpuFeatures :=
  if cpu.idFlag then
    let regs := cpu.cpuid 1
    let features := Function.update features .fpu 1
    let features :=
      if regs.edx &&& 1 <<< 0 ≠ 0 then features else Function.update features .fpu 0
    let features := storeBytes features regs.edx edxFields
    let features := storeBytes features regs.ecx ecxFields
    -- leaf 1 again, ECX has been shifted away
    let regs := cpu.cpuid 1
    Function.update features .hypervisor (if regs.ecx &&& 1 <<< 31 ≠ 0 then 1 else 0)
  else features

end Unics
