import Mathlib.Logic.Function.Basic
import Unics.Types

/-!
# The physical memory manager

`usr/drivers/pmm.c`: a list of regions, each with a bitmap that has one bit for a page. The module
holds the functions as the source writes them; what they keep is proved under `Laws/Pmm`.

Three things of the source are read in a particular way.

- A region descriptor is a list entry, and `pmm_regions` is the list, newest region first.
- `malloc` and `calloc` may fail, so `pmm_add_region` takes what they answer.
- `pmm_free_pages` can read past a bitmap, because `start_page + count` may wrap. What lies there is
  other heap memory, so the function takes the bits past the bitmap as an argument. Where such a
  call goes on to write there, the write is outside this model.
-/

namespace Unics

def pmmPageSize : SizeT := 4096

/-- `pmm_zone_t`. -/
inductive PmmZone where
  | dma
  | normal
  | high
  deriving DecidableEq, Repr

/-- `pmm_region_t`; `next` is the rest of the list the region stands in. -/
structure PmmRegion where
  base : UIntPtr
  pages : SizeT
  bitmap : List (BitVec 64)
  bitmapSize : SizeT
  /-- Hint for next allocation. -/
  lastAlloc : SizeT
  zone : PmmZone
  deriving DecidableEq, Repr

/-- The driver's two globals. -/
structure Pmm where
  regions : List PmmRegion
  initialized : Bool
  deriving DecidableEq, Repr

/-- The globals as the program starts. -/
def pmmStart : Pmm := { regions := [], initialized := false }

/-! ## Bit helpers -/

/-- One line of `clz64`: at most `bound`, so `k` leading bits are zero; count them and shift. -/
def clzLine (bound : BitVec 64) (k : Nat) (s : Nat × BitVec 64) : Nat × BitVec 64 :=
  if s.2 ≤ bound then (s.1 + k, s.2 <<< k) else s

def clz64 (x : BitVec 64) : Nat :=
  if x = 0 then 64 else
    let s := (0, x)
    let s := clzLine 0x00000000FFFFFFFF 32 s
    let s := clzLine 0x0000FFFFFFFFFFFF 16 s
    let s := clzLine 0x00FFFFFFFFFFFFFF 8 s
    let s := clzLine 0x0FFFFFFFFFFFFFFF 4 s
    let s := clzLine 0x3FFFFFFFFFFFFFFF 2 s
    if s.2 ≤ 0x7FFFFFFFFFFFFFFF then s.1 + 1 else s.1

/-- `bitmap[i]`. -/
def bitmapWord (bitmap : List (BitVec 64)) (i : Nat) : BitVec 64 := bitmap.getD i 0

def setBit64 (bitmap : List (BitVec 64)) (bit : Nat) : List (BitVec 64) :=
  bitmap.set (bit / 64) (bitmapWord bitmap (bit / 64) ||| (1#64 <<< (bit % 64)))

def clearBit64 (bitmap : List (BitVec 64)) (bit : Nat) : List (BitVec 64) :=
  bitmap.set (bit / 64) (bitmapWord bitmap (bit / 64) &&& ~~~(1#64 <<< (bit % 64)))

def testBit64 (bitmap : List (BitVec 64)) (bit : Nat) : Bool :=
  (bitmapWord bitmap (bit / 64) >>> (bit % 64)) &&& 1#64 != 0

def findFirstZeroBit64 (word : BitVec 64) : Nat := clz64 (~~~word)

/-! ## Addresses -/

def pmmIsPageAligned (addr : UIntPtr) : Bool := addr &&& (pmmPageSize - 1) == 0

def pmmPageAlignDown (addr : UIntPtr) : UIntPtr := addr &&& ~~~(pmmPageSize - 1)

def pmmPageAlignUp (addr : UIntPtr) : UIntPtr := (addr + pmmPageSize - 1) &&& ~~~(pmmPageSize - 1)

/-- `region->base + page_idx * PMM_PAGE_SIZE`. -/
def PmmRegion.pageAddr (region : PmmRegion) (pageIdx : Nat) : UIntPtr :=
  region.base + BitVec.ofNat 32 pageIdx * pmmPageSize

/-- `(addr - region->base) / PMM_PAGE_SIZE`. -/
def PmmRegion.pageIdx (region : PmmRegion) (addr : UIntPtr) : SizeT :=
  (addr - region.base) / pmmPageSize

/-- The test of `find_region_for_addr`. -/
def PmmRegion.holds (region : PmmRegion) (addr : UIntPtr) : Bool :=
  region.base ≤ addr && addr < region.base + region.pages * pmmPageSize

def findRegionForAddr (regions : List PmmRegion) (addr : UIntPtr) : Option PmmRegion :=
  regions.find? fun region => region.holds addr

/-- A write through the pointer that `find_region_for_addr` returns. -/
def updateRegionForAddr (addr : UIntPtr) (f : PmmRegion → PmmRegion) :
    List PmmRegion → List PmmRegion
  | [] => []
  | region :: rest =>
    if region.holds addr then f region :: rest else region :: updateRegionForAddr addr f rest

/-! ## Initialization and management -/

def pmmInit (s : Pmm) : Pmm × Int :=
  if s.initialized then (s, -1) else ({ regions := [], initialized := true }, 0)

/-- What the two allocations of `pmm_add_region` answer. -/
structure PmmHeap where
  malloc : Bool
  calloc : Bool
  deriving DecidableEq, Repr

def pmmAddRegion (s : Pmm) (base : UIntPtr) (size : SizeT) (zone : PmmZone) (heap : PmmHeap) :
    Pmm × Int :=
  if !s.initialized then (s, -1) else
    let alignedBase := pmmPageAlignUp base
    let alignedSize := pmmPageAlignDown (size - (alignedBase - base))
    let pages := alignedSize / pmmPageSize
    if pages = 0 then (s, -1)
    else if !heap.malloc then (s, -1)
    else
      let bitmapSize : SizeT := (pages + 63) / 64
      if !heap.calloc then (s, -1)
      else
        let region : PmmRegion :=
          { base := alignedBase, pages := pages, bitmap := List.replicate bitmapSize.toNat 0,
            bitmapSize := bitmapSize, lastAlloc := 0, zone := zone }
        ({ s with regions := region :: s.regions }, 0)

/-- The body of the loop of `pmm_reserve_range`, for one address. -/
def reservePage (addr : UIntPtr) (regions : List PmmRegion) : List PmmRegion :=
  updateRegionForAddr addr (fun region =>
    if region.pageIdx addr < region.pages then
      { region with bitmap := setBit64 region.bitmap (region.pageIdx addr).toNat }
    else region) regions

/-- The loop of `pmm_reserve_range`. The fuel bounds the number of turns. -/
def reserveLoop (alignedEnd : UIntPtr) : Nat → UIntPtr → List PmmRegion → List PmmRegion
  | 0, _, regions => regions
  | fuel + 1, addr, regions =>
    if addr < alignedEnd then
      reserveLoop alignedEnd fuel (addr + pmmPageSize) (reservePage addr regions)
    else regions

/-- `pmm_reserve_range`. Both ends are page aligned, so no run of the loop visits more addresses
than the address space has pages. -/
def pmmReserveRange (s : Pmm) (start end_ : UIntPtr) : Pmm × Int :=
  if !s.initialized then (s, -1) else
    let alignedStart := pmmPageAlignDown start
    let alignedEnd := pmmPageAlignUp end_
    ({ s with regions := reserveLoop alignedEnd (2 ^ 20) alignedStart s.regions }, 0)

/-! ## Page allocation -/

/-- One of the two loops of `alloc_page_from_region`, over the word indices it visits: the page
index it stops with. -/
def scanWords (region : PmmRegion) : List Nat → Option Nat
  | [] => none
  | wordIdx :: rest =>
    let word := bitmapWord region.bitmap wordIdx
    if word ≠ BitVec.allOnes 64 then
      let bitOffset := findFirstZeroBit64 word
      if bitOffset < 64 then
        let pageIdx := wordIdx * 64 + bitOffset
        if pageIdx < region.pages.toNat then some pageIdx else scanWords region rest
      else scanWords region rest
    else scanWords region rest

/-- The writes of `alloc_page_from_region` once it has a page index. -/
def PmmRegion.takePage (region : PmmRegion) (pageIdx : Nat) : PmmRegion :=
  { region with bitmap := setBit64 region.bitmap pageIdx, lastAlloc := BitVec.ofNat 32 pageIdx }

/-- `alloc_page_from_region`: from the hint's word to the last, then from the first to the hint. -/
def allocPageFromRegion (region : PmmRegion) : PmmRegion × UIntPtr :=
  let startWord := region.lastAlloc.toNat / 64
  match scanWords region (List.range' startWord (region.bitmapSize.toNat - startWord)) with
  | some pageIdx => (region.takePage pageIdx, region.pageAddr pageIdx)
  | none =>
    match scanWords region (List.range startWord) with
    | some pageIdx => (region.takePage pageIdx, region.pageAddr pageIdx)
    | none => (region, null)

/-- One of the two loops of `pmm_alloc_page_zone`, over the regions that pass `want`. -/
def allocPageFrom (want : PmmRegion → Bool) : List PmmRegion → List PmmRegion × UIntPtr
  | [] => ([], null)
  | region :: rest =>
    if want region then
      let (region', page) := allocPageFromRegion region
      if page ≠ null then (region' :: rest, page)
      else
        let (rest', page) := allocPageFrom want rest
        (region' :: rest', page)
    else
      let (rest', page) := allocPageFrom want rest
      (region :: rest', page)

def pmmAllocPageZone (s : Pmm) (zone : PmmZone) : Pmm × UIntPtr :=
  if !s.initialized then (s, null) else
    let (regions, page) := allocPageFrom (fun region => region.zone == zone) s.regions
    if page ≠ null then ({ s with regions := regions }, page)
    else
      let (regions, page) := allocPageFrom (fun _ => true) regions
      ({ s with regions := regions }, page)

def pmmAllocPage (s : Pmm) : Pmm × UIntPtr := pmmAllocPageZone s .normal

/-- The search of `pmm_alloc_pages_zone` in one region, over the page indices it visits. -/
def findConsecutive (region : PmmRegion) (count : Nat) : List Nat → Nat → Nat → Option Nat
  | [], _, _ => none
  | i :: rest, consecutive, startPage =>
    if !testBit64 region.bitmap i then
      let startPage := if consecutive = 0 then i else startPage
      let consecutive := consecutive + 1
      if consecutive = count then some startPage
      else findConsecutive region count rest consecutive startPage
    else findConsecutive region count rest 0 startPage

/-- The loop `set_bit_64(region->bitmap, j)` for `count` indices from `startPage`. -/
def setBits (bitmap : List (BitVec 64)) (startPage count : Nat) : List (BitVec 64) :=
  (List.range' startPage count).foldl setBit64 bitmap

/-- The loop of `pmm_alloc_pages_zone` over the regions. -/
def allocPagesFrom (count : SizeT) (zone : PmmZone) : List PmmRegion → List PmmRegion × UIntPtr
  | [] => ([], null)
  | region :: rest =>
    let next :=
      let (rest', page) := allocPagesFrom count zone rest
      (region :: rest', page)
    if region.zone ≠ zone then next
    else
      match findConsecutive region count.toNat (List.range region.pages.toNat) 0 0 with
      | some startPage =>
        ({ region with bitmap := setBits region.bitmap startPage count.toNat } :: rest,
          region.pageAddr startPage)
      | none => next

def pmmAllocPagesZone (s : Pmm) (count : SizeT) (zone : PmmZone) : Pmm × UIntPtr :=
  if !s.initialized || count == 0 then (s, null) else
    let (regions, page) := allocPagesFrom count zone s.regions
    ({ s with regions := regions }, page)

def pmmAllocPages (s : Pmm) (count : SizeT) : Pmm × UIntPtr := pmmAllocPagesZone s count .normal

/-! ## Freeing -/

/-- `test_bit_64` on a region's bitmap, at an index that may lie past it: `past` holds the bits of
the memory that follows. -/
def PmmRegion.testBit (region : PmmRegion) (past : Nat → Bool) (bit : Nat) : Bool :=
  if bit / 64 < region.bitmap.length then testBit64 region.bitmap bit else past bit

/-- The loop `clear_bit_64(region->bitmap, start_page + i)`; the index wraps as a `size_t`. -/
def clearBits (bitmap : List (BitVec 64)) (startPage count : SizeT) : List (BitVec 64) :=
  (List.range count.toNat).foldl
    (fun bitmap i => clearBit64 bitmap (startPage + BitVec.ofNat 32 i).toNat) bitmap

/-- The writes of `pmm_free_pages`. -/
def PmmRegion.givePages (startPage count : SizeT) (region : PmmRegion) : PmmRegion :=
  { region with
    bitmap := clearBits region.bitmap startPage count
    lastAlloc := if startPage < region.lastAlloc then startPage else region.lastAlloc }

def pmmFreePages (s : Pmm) (addr : UIntPtr) (count : SizeT) (past : Nat → Bool) : Pmm × Int :=
  if !s.initialized || addr == null || count == 0 then (s, -1)
  else if !pmmIsPageAligned addr then (s, -1)
  else
    match findRegionForAddr s.regions addr with
    | none => (s, -1)
    | some region =>
      let startPage := region.pageIdx addr
      if region.pages < startPage + count then (s, -1)
      -- Check for double-free
      else if (List.range count.toNat).all
          fun i => region.testBit past (startPage + BitVec.ofNat 32 i).toNat then
        ({ s with regions := updateRegionForAddr addr (·.givePages startPage count) s.regions }, 0)
      else (s, -1)

def pmmFreePage (s : Pmm) (addr : UIntPtr) (past : Nat → Bool) : Pmm × Int :=
  pmmFreePages s addr 1 past

/-- `pmm_is_page_allocated`. A region that holds the address has a bit for its page. -/
def pmmIsPageAllocated (s : Pmm) (addr : UIntPtr) : Bool :=
  if !s.initialized || addr == null then false
  else
    match findRegionForAddr s.regions addr with
    | none => false
    | some region => testBit64 region.bitmap (region.pageIdx addr).toNat

/-! ## Statistics -/

/-- `pmm_stats_t`. The arrays are indexed by the zone. -/
structure PmmStats where
  totalPages : SizeT
  freePages : SizeT
  allocatedPages : SizeT
  reservedPages : SizeT
  zonesPages : PmmZone → SizeT
  zonesFree : PmmZone → SizeT

/-- `pmm_stats_t stats = {0};` -/
def pmmStatsZero : PmmStats :=
  { totalPages := 0, freePages := 0, allocatedPages := 0, reservedPages := 0
    zonesPages := fun _ => 0, zonesFree := fun _ => 0 }

/-- The loop that counts the set bits of a region's pages. -/
def PmmRegion.countAllocated (region : PmmRegion) : SizeT :=
  (List.range region.pages.toNat).foldl
    (fun allocated i => if testBit64 region.bitmap i then allocated + 1 else allocated) 0

/-- One turn of the loop of `pmm_get_stats` over the regions. -/
def PmmStats.addRegion (stats : PmmStats) (region : PmmRegion) : PmmStats :=
  let allocated := region.countAllocated
  let free := region.pages - allocated
  { stats with
    totalPages := stats.totalPages + region.pages
    zonesPages := Function.update stats.zonesPages region.zone
      (stats.zonesPages region.zone + region.pages)
    allocatedPages := stats.allocatedPages + allocated
    freePages := stats.freePages + free
    zonesFree := Function.update stats.zonesFree region.zone
      (stats.zonesFree region.zone + free) }

def pmmGetStats (s : Pmm) : PmmStats :=
  if !s.initialized then pmmStatsZero else s.regions.foldl PmmStats.addRegion pmmStatsZero

end Unics
