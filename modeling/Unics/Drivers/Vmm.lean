import Unics.Lib.Scan
import Unics.Types

/-!
# The virtual memory manager

`usr/drivers/vmm.c`: a table of 1024 pages from address 1 MiB on, and a first-fit allocator over it.
The module holds the functions as the source writes them; what they keep is proved under `Laws/Vmm`.

- `page_table` is read and written below `VMM_MAX_PAGES` only, and is a function of the index here.
- An `assert` that fails stops the machine, so a function that makes one returns an `Option`.
- Indices of the table stay far below 2^32 in all the sums the source forms with them, so they are
  natural numbers. Sizes and alignments come from the caller, and are words.
-/

namespace Unics

open Unics.Lib

def vmmPageSize : SizeT := 4096

def vmmMaxPages : Nat := 1024

/-- `VMM_BASE_ADDRESS`. "Start after kernel", says the header. -/
def vmmBaseAddress : UIntPtr := 0x100000

/-- `vmm_page_state_t`. -/
inductive VmmPageState where
  | free
  | used
  | reserved
  deriving DecidableEq, Repr

/-- `vmm_page_t`. -/
structure VmmPage where
  baseAddr : UIntPtr
  size : SizeT
  state : VmmPageState
  /-- Number of pages in this allocation, set only on its first page. -/
  allocPages : SizeT
  tag : BitVec 32
  isKernel : Bool
  deriving DecidableEq, Repr

/-- `page_table`. -/
abbrev VmmPageTable := Nat → VmmPage

/-- The driver's two globals. -/
structure Vmm where
  pageTable : VmmPageTable
  initialized : Bool

/-- The globals as the program starts. -/
def vmmStart : Vmm :=
  { pageTable := fun _ =>
      { baseAddr := 0, size := 0, state := .free, allocPages := 0, tag := 0, isKernel := false }
    initialized := false }

/-- The page that `vmm_init` stores at an index. -/
def vmmInitialPage (i : Nat) : VmmPage :=
  { baseAddr := vmmBaseAddress + BitVec.ofNat 32 i * vmmPageSize
    size := vmmPageSize
    state := .free
    allocPages := 0
    tag := 0
    isKernel := false }

def vmmInit (s : Vmm) : Vmm :=
  if s.initialized then s else { pageTable := vmmInitialPage, initialized := true }

/-! ## Reservation -/

def vmmTagKernel : BitVec 32 := 0xDEAD0000

/-- What `vmm_reserve_range` writes to a page. -/
def VmmPage.reserve (page : VmmPage) : VmmPage :=
  { page with state := .reserved, tag := vmmTagKernel, isKernel := true }

def vmmReserveRange (s : Vmm) (start stop : UIntPtr) : Option Vmm :=
  if s.initialized then
    -- Align addresses to page boundaries
    let start := start &&& ~~~(vmmPageSize - 1)
    let stop := (stop + vmmPageSize - 1) &&& ~~~(vmmPageSize - 1)
    some { s with
      pageTable := fun i =>
        if i < vmmMaxPages ∧ start ≤ (s.pageTable i).baseAddr ∧ (s.pageTable i).baseAddr < stop then
          (s.pageTable i).reserve
        else s.pageTable i }
  else none

/-! ## Allocation -/

/-- `(addr + align - 1) & ~(align - 1)`. -/
def vmmAlignUp (addr : UIntPtr) (align : SizeT) : UIntPtr := (addr + align - 1) &&& ~~~(align - 1)

/-- The first offset below `pages` at which the pages from `i` on are not free. -/
def vmmFirstTaken (table : VmmPageTable) (i pages : Nat) : Option Nat :=
  (List.range pages).find? fun j => (table (i + j)).state != .free

/-- The body of the loop of `vmm_alloc_internal`: `continue` with what it adds to `i`, or a block.
-/
def vmmAllocTurn (table : VmmPageTable) (pages : Nat) (align : SizeT) (i : Nat) : Turn :=
  -- Skip reserved pages
  if (table i).state = .reserved then .skip 0
  else
    let alignedAddr := vmmAlignUp (table i).baseAddr align
    if vmmPageSize < align ∧ alignedAddr ≠ (table i).baseAddr then
      let offsetPages := ((alignedAddr - (table i).baseAddr) / vmmPageSize).toNat
      if vmmMaxPages < i + offsetPages + pages then .skip 0
      else .skip (offsetPages - 1)
    else
      match vmmFirstTaken table i pages with
      -- Skip past this used page
      | some j => .skip j
      | none => .found

/-- The loop that marks the pages of a block as used. -/
def vmmMarkUsed (table : VmmPageTable) (i : Nat) (pages : SizeT) (tag : BitVec 32)
    (isKernel : Bool) : VmmPageTable := fun k =>
  if i ≤ k ∧ k < i + pages.toNat then
    { table k with
      state := .used, allocPages := if k = i then pages else 0, tag := tag, isKernel := isKernel }
  else table k

/-- `vmm_alloc_internal`. Every turn of the loop moves on, so it has no more turns than places. -/
def vmmAllocInternal (s : Vmm) (pages align : SizeT) (tag : BitVec 32) (isKernel : Bool) :
    Option (Vmm × UIntPtr) :=
  if s.initialized ∧ 0 < pages.toNat ∧ pages.toNat ≤ vmmMaxPages then
    match scan (vmmAllocTurn s.pageTable pages.toNat align) (vmmMaxPages - pages.toNat)
      (vmmMaxPages + 1) 0 with
    | some i =>
      some ({ s with pageTable := vmmMarkUsed s.pageTable i pages tag isKernel },
        (s.pageTable i).baseAddr)
    | none => some (s, null)
  else none

/-- `(size + VMM_PAGE_SIZE - 1) / VMM_PAGE_SIZE`. -/
def vmmPagesNeeded (size : SizeT) : SizeT := (size + vmmPageSize - 1) / vmmPageSize

/-- What the three allocation functions share. -/
def vmmAllocSized (s : Vmm) (size align : SizeT) (tag : BitVec 32) (isKernel : Bool) :
    Option (Vmm × UIntPtr) :=
  if size = 0 then some (s, null)
  else if vmmMaxPages < (vmmPagesNeeded size).toNat then some (s, null)
  else vmmAllocInternal s (vmmPagesNeeded size) align tag isKernel

def vmmAlloc (s : Vmm) (size : SizeT) : Option (Vmm × UIntPtr) :=
  vmmAllocSized s size vmmPageSize 0 false

def vmmAllocAligned (s : Vmm) (size align : SizeT) : Option (Vmm × UIntPtr) :=
  if size = 0 then some (s, null)
  -- Ensure alignment is power of 2
  else if align &&& (align - 1) ≠ 0 ∨ align = 0 then some (s, null)
  else vmmAllocSized s size align 0 false

def vmmAllocTagged (s : Vmm) (size : SizeT) (tag : BitVec 32) (isKernel : Bool) :
    Option (Vmm × UIntPtr) :=
  vmmAllocSized s size vmmPageSize tag isKernel

/-! ## Deallocation -/

/-- The page that contains an address. -/
def vmmFindPage (table : VmmPageTable) (target : UIntPtr) : Option Nat :=
  (List.range vmmMaxPages).find? fun i =>
    (table i).baseAddr ≤ target && target < (table i).baseAddr + (table i).size

/-- What `vmm_free` writes to a page. -/
def VmmPage.release (page : VmmPage) : VmmPage :=
  { page with state := .free, allocPages := 0, tag := 0, isKernel := false }

/-- The loop of `vmm_free` over `n` pages from `k` on. It stops at a page that is not used, with the
ones before it freed. -/
def vmmFreeLoop (table : VmmPageTable) (k : Nat) : Nat → VmmPageTable
  | 0 => table
  | n + 1 =>
    if (table k).state ≠ .used then table
    else vmmFreeLoop (fun i => if i = k then (table k).release else table i) (k + 1) n

def vmmFree (s : Vmm) (addr : UIntPtr) : Vmm :=
  if addr = null ∨ s.initialized = false then s
  else
    match vmmFindPage s.pageTable addr with
    | none => s
    | some i =>
      if (s.pageTable i).state ≠ .used then s
      else
        let pages := (s.pageTable i).allocPages.toNat
        if pages = 0 ∨ vmmMaxPages < i + pages then s
        else { s with pageTable := vmmFreeLoop s.pageTable i pages }

/-! ## Figures -/

/-- The three counters of `vmm_stats`, in pages, or the three figures, in KB. -/
structure VmmCounts where
  used : SizeT
  free : SizeT
  reserved : SizeT
  deriving DecidableEq, Repr

/-- The counter of a state goes up. -/
def VmmCounts.add (c : VmmCounts) : VmmPageState → SizeT → VmmCounts
  | .used, n => { c with used := c.used + n }
  | .reserved, n => { c with reserved := c.reserved + n }
  | .free, n => { c with free := c.free + n }

/-- The loop of `vmm_stats`. A page that has a count stands for as many pages. The fuel bounds the
number of turns; a loop that needs more has no answer. -/
def vmmStatsLoop (table : VmmPageTable) : Nat → SizeT → VmmCounts → Option VmmCounts
  | 0, _, _ => none
  | fuel + 1, i, c =>
    if i.toNat < vmmMaxPages then
      let page := table i.toNat
      if 0 < page.allocPages then
        vmmStatsLoop table fuel (i + page.allocPages) (c.add page.state page.allocPages)
      else vmmStatsLoop table fuel (i + 1) (c.add page.state 1)
    else some c

/-- `n * VMM_PAGE_SIZE / 1024`. -/
def vmmKb (n : SizeT) : SizeT := n * vmmPageSize / 1024

/-- `vmm_stats`: what it stores through those of its three pointers that are not null. -/
def vmmStats (s : Vmm) : Option VmmCounts :=
  (vmmStatsLoop s.pageTable (vmmMaxPages + 1) 0 { used := 0, free := 0, reserved := 0 }).map
    fun c => { used := vmmKb c.used, free := vmmKb c.free, reserved := vmmKb c.reserved }

def vmmGetTotalMemory : SizeT := BitVec.ofNat 32 vmmMaxPages * vmmPageSize

/-- The two counters of `vmm_get_largest_free_block`. -/
structure VmmFreeRun where
  maxFree : SizeT
  currentFree : SizeT

/-- One turn of its loop. -/
def vmmFreeRunTurn (table : VmmPageTable) (c : VmmFreeRun) (i : Nat) : VmmFreeRun :=
  if (table i).state = .free then
    let currentFree := c.currentFree + 1
    { maxFree := if c.maxFree < currentFree then currentFree else c.maxFree
      currentFree := currentFree }
  else { c with currentFree := 0 }

def vmmGetLargestFreeBlock (s : Vmm) : SizeT :=
  ((List.range vmmMaxPages).foldl (vmmFreeRunTurn s.pageTable)
    { maxFree := 0, currentFree := 0 }).maxFree * vmmPageSize

/-! ## Tags -/

def vmmSetTag (s : Vmm) (addr : UIntPtr) (tag : BitVec 32) : Vmm :=
  if addr = null then s
  else
    match vmmFindPage s.pageTable addr with
    | none => s
    | some i =>
      if (s.pageTable i).state = .used then
        { s with
          pageTable := fun k =>
            if k = i then { s.pageTable k with tag := tag } else s.pageTable k }
      else s

end Unics
