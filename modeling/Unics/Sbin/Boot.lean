import Unics.Drivers.Paging
import Unics.Drivers.Pmm
import Unics.Drivers.Vmm

/-!
# Booting
-/

namespace Unics

/-!
## The boot calls, in any order

Paging takes its frames from the page allocator, and `main` calls `paging_init` before `pmm_init`.
The module holds the calls that bring the two drivers up and use the page tables, over one state of
both, so that they can be made in any order. `paging_init` and `paging_map_page` ask the allocator
themselves here, where `Drivers/Paging` takes its answer.

With no directory the driver's global is null, and the functions read and write the words at
address 0 as if they were one: `Paging.memory` holds those too.
-/

/-- The two drivers. -/
structure Boot where
  pmm : Pmm
  paging : Paging

/-- The globals as the program starts, over a memory with any content. -/
def bootStart (memory : UIntPtr → PageEntry) : Boot :=
  { pmm := pmmStart, paging := { memory := memory, currentPageDirectory := null } }

/-- `paging_init`. Without a page it returns early, and the global keeps its value. -/
def bootPagingInit (b : Boot) : Boot :=
  let (pmm, page) := pmmAllocPage b.pmm
  if page = null then { b with pmm := pmm }
  else { pmm := pmm, paging := { b.paging.clearPage page with currentPageDirectory := page } }

/-- The directory has no table for an address. -/
def Boot.lacksTable (b : Boot) (virtAddr : UIntPtr) : Bool :=
  b.paging.entry b.paging.currentPageDirectory (pdIndex virtAddr) &&& pagePresent == 0

/-- `paging_map_page`. The allocator is asked only where the table is missing. -/
def bootMapPage (b : Boot) (virtAddr physAddr : UIntPtr) (flags : BitVec 32) : Boot × Bool :=
  let (pmm, page) :=
    if pmmIsPageAligned virtAddr && pmmIsPageAligned physAddr && b.lacksTable virtAddr then
      pmmAllocPage b.pmm
    else (b.pmm, null)
  let (paging, ok) := pagingMapPage b.paging virtAddr physAddr flags page
  ({ pmm := pmm, paging := paging }, ok)

def bootUnmapPage (b : Boot) (virtAddr : UIntPtr) : Boot × Bool :=
  let (paging, ok) := pagingUnmapPage b.paging virtAddr
  ({ b with paging := paging }, ok)

/-- A call of the boot. -/
inductive BootCall where
  | pagingInit
  | pmmInit
  | pmmAddRegion (base : UIntPtr) (size : SizeT) (zone : PmmZone) (heap : PmmHeap)
  | mapPage (virtAddr physAddr : UIntPtr) (flags : BitVec 32)
  | unmapPage (virtAddr : UIntPtr)
  | getPhysical (virtAddr : UIntPtr)

/-- The state after a call. -/
def bootCall (b : Boot) : BootCall → Boot
  | .pagingInit => bootPagingInit b
  | .pmmInit => { b with pmm := (pmmInit b.pmm).1 }
  | .pmmAddRegion base size zone heap =>
    { b with pmm := (pmmAddRegion b.pmm base size zone heap).1 }
  | .mapPage virtAddr physAddr flags => (bootMapPage b virtAddr physAddr flags).1
  | .unmapPage virtAddr => (bootUnmapPage b virtAddr).1
  | .getPhysical _ => b

/-- The call gets to `get_or_create_page_table`, whose first access is `pd->entries[pdi]`, with
`pd` the driver's global. -/
def BootCall.readsDirectory : BootCall → Bool
  | .mapPage virtAddr physAddr _ => pmmIsPageAligned virtAddr && pmmIsPageAligned physAddr
  | .unmapPage virtAddr => pmmIsPageAligned virtAddr
  | .getPhysical _ => true
  | _ => false

/-!
## Bringing the memory managers up

The part of `main` in `sbin/init/init.c` that initialises the two memory managers, and the place of
the kernel image that `linker.ld` lays out. Each manager keeps its own account of who has which
page; nothing in `main` tells one of the other.
-/

/-- The kernel load address of `linker.ld`, 1M. The image ends at the page aligned `_kernel_end`. -/
def kernelStart : UIntPtr := 0x100000

/-- The two memory managers. -/
structure Mem where
  vmm : Vmm
  pmm : Pmm

/-- `main`, from `vmm_init` to `pmm_reserve_range`. It drops the codes that the calls return. -/
def mainInitMem (heap : PmmHeap) : Mem :=
  let vmm := vmmInit vmmStart
  let pmm := (pmmInit pmmStart).1
  let pmm := (pmmAddRegion pmm 0x00100000 0x07F00000 .normal heap).1
  let pmm := (pmmReserveRange pmm 0x00000000 0x00100000).1
  { vmm, pmm }

end Unics
