import Unics.Types

/-!
# The heap

`lib/libc/stdlib.c`: `_sbrk`, `malloc`, `calloc`, `realloc` and `free` over the memory of the
machine. A pointer is an address and its arithmetic wraps. Nothing bounds `heap_end`, and a block
is never handed out again.
-/

namespace Unics

/-- The byte at each address. -/
abbrev Ram := UIntPtr → UInt8

/-- The memory and `heap_end`. -/
structure HeapArea where
  memory : Ram
  heapEnd : UIntPtr

/-! ## Accesses -/

/-- `*(char *)p = c`. -/
def Ram.store (memory : Ram) (p : UIntPtr) (c : UInt8) : Ram :=
  fun a => if a = p then c else memory a

/-- `*(size_t *)ptr`, the lowest byte first. -/
def Ram.loadSize (memory : Ram) (ptr : UIntPtr) : SizeT :=
  (memory (ptr + 3#32)).toBitVec ++ (memory (ptr + 2#32)).toBitVec ++
    (memory (ptr + 1#32)).toBitVec ++ (memory ptr).toBitVec

/-- Byte `i` of a `size_t`. -/
def sizeByte (size : SizeT) (i : Nat) : UInt8 := ⟨size.extractLsb' (8 * i) 8⟩

/-- `*(size_t *)ptr = size`. -/
def Ram.storeSize (memory : Ram) (ptr : UIntPtr) (size : SizeT) : Ram :=
  (((memory.store ptr (sizeByte size 0)).store (ptr + 1#32) (sizeByte size 1)).store (ptr + 2#32)
    (sizeByte size 2)).store (ptr + 3#32) (sizeByte size 3)

/-- `for (size_t i = 0; i < n; i++) p[i] = value`, where the value may be read from the memory. -/
def Ram.writeLoop (value : Ram → SizeT → UInt8) (p : UIntPtr) (memory : Ram) : Nat → Ram
  | 0 => memory
  | i + 1 =>
    let memory := Ram.writeLoop value p memory i
    memory.store (p + BitVec.ofNat 32 i) (value memory (BitVec.ofNat 32 i))

/-! ## The heap -/

/-- `_sbrk`. -/
def sbrk (h : HeapArea) (incr : BitVec 32) : UIntPtr × HeapArea :=
  (h.heapEnd, { h with heapEnd := h.heapEnd + incr })

def malloc (h : HeapArea) (size : SizeT) : UIntPtr × HeapArea :=
  if size = 0 then (null, h)
  else
    let size := (size + 4 - 1) &&& ~~~(4 - 1)
    let (ptr, h) := sbrk h (size + 4)
    if ptr = -1 then (null, h)
    else (ptr + 4, { h with memory := h.memory.storeSize ptr size })

def calloc (h : HeapArea) (num size : SizeT) : UIntPtr × HeapArea :=
  let totalSize := num * size
  if num ≠ 0 ∧ totalSize / num ≠ size then (null, h)
  else
    let (ptr, h) := malloc h totalSize
    if ptr = null then (ptr, h)
    else (ptr, { h with memory := h.memory.writeLoop (fun _ _ => 0) ptr totalSize.toNat })

/-- `free`. -/
def free (h : HeapArea) (_ptr : UIntPtr) : HeapArea := h

def realloc (h : HeapArea) (ptr : UIntPtr) (size : SizeT) : UIntPtr × HeapArea :=
  if ptr = null then malloc h size
  else if size = 0 then (null, free h ptr)
  else
    let oldSize := h.memory.loadSize (ptr - 4)
    let (newPtr, h) := malloc h size
    if newPtr = null then (null, h)
    else
      let copySize := if oldSize < size then oldSize else size
      let copied := h.memory.writeLoop (fun memory i => memory (ptr + i)) newPtr copySize.toNat
      (newPtr, free { h with memory := copied } ptr)

/-! ## Runs -/

/-- A result that is not null, and how many bytes it was asked for. -/
structure HeapBlock where
  address : UIntPtr
  requested : Nat
  deriving DecidableEq

/-- A request, or a store of the program into a block. A block is named by its place among the
results, and a place where there is none stands for the null pointer. -/
inductive HeapRequest where
  | malloc (size : SizeT)
  | calloc (num size : SizeT)
  | realloc (block : Nat) (size : SizeT)
  | free (block : Nat)
  | store (block offset : Nat) (value : UInt8)

/-- The heap, and the results so far. -/
structure HeapRun where
  heap : HeapArea
  blocks : List HeapBlock

/-- The pointer that a request gives back. -/
def HeapRun.pointer (r : HeapRun) (block : Nat) : UIntPtr :=
  match r.blocks[block]? with
  | some b => b.address
  | none => null

/-- What a request has returned. -/
def HeapRun.handOut (r : HeapRun) (result : UIntPtr × HeapArea) (requested : Nat) : HeapRun where
  heap := result.2
  blocks := if result.1 = null then r.blocks else r.blocks ++ [⟨result.1, requested⟩]

/-- A program stores only into the bytes it has asked for. -/
def HeapRun.store (r : HeapRun) (block offset : Nat) (value : UInt8) : HeapRun :=
  match r.blocks[block]? with
  | some b =>
    if offset < b.requested then
      let memory := r.heap.memory.store (b.address + BitVec.ofNat 32 offset) value
      { r with heap := { r.heap with memory := memory } }
    else r
  | none => r

def HeapRun.step (r : HeapRun) : HeapRequest → HeapRun
  | .malloc size => r.handOut (malloc r.heap size) size.toNat
  | .calloc num size => r.handOut (calloc r.heap num size) (num.toNat * size.toNat)
  | .realloc block size => r.handOut (realloc r.heap (r.pointer block) size) size.toNat
  | .free block => { r with heap := free r.heap (r.pointer block) }
  | .store block offset value => r.store block offset value

/-- The program starts: `heap_end` is `&end`, and no request has been made. -/
def heapStart (memory : Ram) (heapEnd : UIntPtr) : HeapRun := ⟨⟨memory, heapEnd⟩, []⟩

end Unics
