import Unics.Drivers.Pmm

/-!
# Paging

`usr/drivers/paging.c`: the page tables that the processor reads. The directory and the tables are
frames of one memory, here the word at each address, and the functions read and write it there.
`paging_invalidate` and `paging_enable` change no memory, and leave no trace here.

The driver asks `pmm_alloc_page` for a frame where a table is missing. What that answers is an
argument, `page`; a call that does not ask ignores it.
-/

namespace Unics

def pagePresent : BitVec 32 := 0x001

def pageWritable : BitVec 32 := 0x002

def pageUser : BitVec 32 := 0x004

/-- `PAGE_SIZE`. -/
def pageSize : SizeT := 4096

/-- `page_entry_t`. -/
abbrev PageEntry := BitVec 32

/-- The memory, and the driver's global. -/
structure Paging where
  memory : UIntPtr → PageEntry
  currentPageDirectory : UIntPtr

def pdIndex (addr : UIntPtr) : SizeT := addr >>> 22 &&& 0x3FF

def ptIndex (addr : UIntPtr) : SizeT := addr >>> 12 &&& 0x3FF

/-- `&table->entries[i]`. -/
def entryAddr (table : UIntPtr) (i : SizeT) : UIntPtr := table + 4 * i

/-- `table->entries[i]`. -/
def Paging.entry (s : Paging) (table : UIntPtr) (i : SizeT) : PageEntry :=
  s.memory (entryAddr table i)

/-- `table->entries[i] = entry`. -/
def Paging.setEntry (s : Paging) (table : UIntPtr) (i : SizeT) (entry : PageEntry) : Paging :=
  { s with memory := fun a => if a = entryAddr table i then entry else s.memory a }

/-- `memset(page, 0, PAGE_SIZE)`. -/
def Paging.clearPage (s : Paging) (page : UIntPtr) : Paging :=
  { s with memory := fun a => if a - page < pageSize then 0 else s.memory a }

/-- The address in an entry. -/
def PageEntry.address (entry : PageEntry) : UIntPtr := entry &&& ~~~0xFFF

def getOrCreatePageTable (s : Paging) (pd virtAddr : UIntPtr) (create : Bool) (page : UIntPtr) :
    Paging × UIntPtr :=
  let pdi := pdIndex virtAddr
  let entry := s.entry pd pdi
  if entry &&& pagePresent ≠ 0 then (s, PageEntry.address entry)
  else if !create then (s, null)
  else if page = null then (s, null)
  else ((s.clearPage page).setEntry pd pdi (page ||| pagePresent ||| pageWritable), page)

def pagingInit (memory : UIntPtr → PageEntry) (page : UIntPtr) : Paging :=
  let s : Paging := { memory := memory, currentPageDirectory := null }
  if page = null then s
  else { s.clearPage page with currentPageDirectory := page }

def pagingMapPage (s : Paging) (virtAddr physAddr : UIntPtr) (flags : BitVec 32) (page : UIntPtr) :
    Paging × Bool :=
  if !pmmIsPageAligned virtAddr || !pmmIsPageAligned physAddr then (s, false)
  else
    let (s, pt) := getOrCreatePageTable s s.currentPageDirectory virtAddr true page
    if pt = null then (s, false)
    else (s.setEntry pt (ptIndex virtAddr) (physAddr ||| (flags &&& 0xFFF) ||| pagePresent), true)

def pagingUnmapPage (s : Paging) (virtAddr : UIntPtr) : Paging × Bool :=
  if !pmmIsPageAligned virtAddr then (s, false)
  else
    let pt := (getOrCreatePageTable s s.currentPageDirectory virtAddr false null).2
    if pt = null then (s, false)
    else if s.entry pt (ptIndex virtAddr) &&& pagePresent = 0 then (s, false)
    else (s.setEntry pt (ptIndex virtAddr) 0, true)

def pagingGetPhysical (s : Paging) (virtAddr : UIntPtr) : UIntPtr :=
  let pt := (getOrCreatePageTable s s.currentPageDirectory virtAddr false null).2
  if pt = null then 0
  else
    let entry := s.entry pt (ptIndex virtAddr)
    if entry &&& pagePresent = 0 then 0 else PageEntry.address entry

end Unics
