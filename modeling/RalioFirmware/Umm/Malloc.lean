import Mathlib.Algebra.Ring.Int.Defs
import Mathlib.Algebra.Ring.Nat
import Mathlib.Logic.Function.Basic

/-!
# The heap

`umm_malloc` cuts the heap into blocks of eight bytes.  The first of a run of blocks has the
numbers of the runs behind and in front of it, with a mark where the run is free; the free ones are
linked to each other in what would be their data.  The first block and the last are no runs: the
free list starts and ends at the one, and the runs end at the other.

The memory is taken as half words, four of them a block, and a pointer as its distance from the
start of the heap.  There is one heap, and it is built with `UMM_BEST_FIT`, `UMM_STATS`,
`UMM_REALLOC_DEFRAG` and `UMM_LIGHTWEIGHT_CPU`, as the configuration has it.  Sums of block sizes
stay below the number of blocks, which 15 bits hold.
-/

namespace Umm

def UMM_FREELIST_MASK : Nat := 0x8000

def UMM_BLOCKNO_MASK : Nat := 0x7FFF

def INT16_MAX : Nat := 0x7FFF

/-- The numbers in a block: two of its header, and two that its data may overwrite. -/
inductive Field where
  | NBLOCK | PBLOCK | NFREE | PFREE
deriving DecidableEq

def Field.place : Field → Nat
  | NBLOCK => 0
  | PBLOCK => 1
  | NFREE => 2
  | PFREE => 3

/-- `umm_heap_context_t`, and the memory it is about. -/
structure Heap where
  numblocks : Nat
  mem : Nat → Nat
  free_blocks : Nat
  oom_count : Nat

namespace Heap

variable (h : Heap)

/-- `UMM_NBLOCK(b)` and its like, as they are read. -/
def get (f : Field) (b : Nat) : Nat := h.mem (4 * b + f.place)

/-- `UMM_NBLOCK(b)` and its like, as they are assigned. -/
def set (f : Field) (b v : Nat) : Heap :=
  { h with mem := Function.update h.mem (4 * b + f.place) (v % 65536) }

/-- `UMM_BLOCK_LAST`. -/
def last : Nat := h.numblocks - 1

def isFree (b : Nat) : Prop := h.get .NBLOCK b &&& UMM_FREELIST_MASK ≠ 0

instance (b : Nat) : Decidable (h.isFree b) := inferInstanceAs (Decidable (_ ≠ _))

/-- The run behind, without its mark. -/
def nextBlock (b : Nat) : Nat := h.get .NBLOCK b &&& UMM_BLOCKNO_MASK

/-- `STATS__FREE_BLOCKS_UPDATE`, of a `size_t`. -/
def freeBlocksUpdate (n : Int) : Heap :=
  { h with free_blocks := ((h.free_blocks + n) % 2 ^ 32).toNat }

/-- `_umm_init_heap`, in memory that is zero. -/
def init (numblocks : Nat) : Heap :=
  let h : Heap := ⟨numblocks, fun _ => 0, numblocks - 2, 0⟩
  let h := ((h.set .NBLOCK 0 1).set .NFREE 0 1).set .PFREE 0 1
  let h := h.set .NBLOCK 1 (h.last ||| UMM_FREELIST_MASK)
  h.set .PBLOCK h.last 1

end Heap

/-- `umm_blocks`: four bytes of data in the first block, and eight in each other. -/
def blocks (size : Nat) : Nat :=
  if size ≤ 4 then 1
  else
    let blocks := 2 + (size - 4 - 1) / 8
    if blocks > INT16_MAX then INT16_MAX else blocks

/-- The blocks from one to another, an `uint16_t`. -/
def span (c next : Nat) : Nat := (((next : Int) - c) % 65536).toNat

/-- `&UMM_DATA(c)`. -/
def data (c : Nat) : Nat := 8 * c + 4

/-- The block of a pointer. -/
def blockOf (ptr : Nat) : Nat := ptr / 8

namespace Heap

variable (h : Heap)

/-- `umm_split_block`. -/
def splitBlock (c blocks new_freemask : Nat) : Heap :=
  let h := h.set .NBLOCK (c + blocks) (h.nextBlock c ||| new_freemask)
  let h := h.set .PBLOCK (c + blocks) c
  let h := h.set .PBLOCK (h.nextBlock c) (c + blocks)
  h.set .NBLOCK c (c + blocks)

/-- `umm_disconnect_from_free_list`. -/
def disconnect (c : Nat) : Heap :=
  let h := h.set .NFREE (h.get .PFREE c) (h.get .NFREE c)
  let h := h.set .PFREE (h.get .NFREE c) (h.get .PFREE c)
  h.set .NBLOCK c (h.nextBlock c)

/-- `umm_assimilate_up`. -/
def assimilateUp (c : Nat) : Heap :=
  if h.isFree (h.get .NBLOCK c) then
    let h := h.disconnect (h.get .NBLOCK c)
    let h := h.set .PBLOCK (h.nextBlock (h.get .NBLOCK c)) c
    h.set .NBLOCK c (h.nextBlock (h.get .NBLOCK c))
  else h

/-- `umm_assimilate_down`, and the block it returns. -/
def assimilateDown (c freemask : Nat) : Heap × Nat :=
  let h := h.set .NBLOCK (h.get .PBLOCK c) (h.get .NBLOCK c ||| freemask)
  let h := h.set .PBLOCK (h.get .NBLOCK c) (h.get .PBLOCK c)
  (h, h.get .PBLOCK c)

/-- A block is added to the head of the free list. -/
def addToFreeList (c : Nat) : Heap :=
  let h := h.set .PFREE (h.get .NFREE 0) c
  let h := h.set .NFREE c (h.get .NFREE 0)
  let h := h.set .PFREE c 0
  let h := h.set .NFREE 0 c
  h.set .NBLOCK c (h.get .NBLOCK c ||| UMM_FREELIST_MASK)

/-- `umm_free_core`. -/
def freeCore (ptr : Nat) : Heap :=
  let c := blockOf ptr
  let h := h.freeBlocksUpdate ((h.get .NBLOCK c : Int) - c)
  let h := h.assimilateUp c
  if h.isFree (h.get .PBLOCK c) then (h.assimilateDown c UMM_FREELIST_MASK).1
  else h.addToFreeList c

/-- `umm_free`. -/
def free : Option Nat → Heap
  | none => h
  | some ptr => h.freeCore ptr

/-- The front of a free block is taken: the free list goes on to what is left of it. -/
def carve (cf blocks : Nat) : Heap :=
  let h := h.splitBlock cf blocks UMM_FREELIST_MASK
  let h := h.set .NFREE (h.get .PFREE cf) (cf + blocks)
  let h := h.set .PFREE (cf + blocks) (h.get .PFREE cf)
  let h := h.set .PFREE (h.get .NFREE cf) (cf + blocks)
  h.set .NFREE (cf + blocks) (h.get .NFREE cf)

/-! ## Looking for a block -/

/-- The variables of the search. -/
structure Scan where
  cf : Nat
  bestBlock : Nat
  bestSize : Nat
  blockSize : Nat

/-- One block of the free list, and on to the next. -/
def look (blocks : Nat) (s : Scan) : Scan :=
  let blockSize := span s.cf (h.nextBlock s.cf)
  let s :=
    if blockSize ≥ blocks ∧ blockSize < s.bestSize then
      { s with bestBlock := s.cf, bestSize := blockSize }
    else s
  { s with cf := h.get .NFREE s.cf, blockSize }

/-- The loop over the free list; the fuel is the number of blocks. -/
def scan (blocks : Nat) : Nat → Scan → Scan
  | 0, s => s
  | fuel + 1, s => if s.cf = 0 then s else scan blocks fuel (h.look blocks s)

/-- `umm_malloc_core`. -/
def mallocCore (size : Nat) : Option Nat × Heap :=
  let blocks := blocks size
  let s := h.scan blocks h.numblocks ⟨h.get .NFREE 0, h.get .NFREE 0, 0x7FFF, 0⟩
  let (cf, blockSize) := if s.bestSize ≠ 0x7FFF then (s.bestBlock, s.bestSize)
    else (s.cf, s.blockSize)
  if h.nextBlock cf ≠ 0 ∧ blockSize ≥ blocks then
    let h := if blockSize = blocks then h.disconnect cf else h.carve cf blocks
    (some (data cf), h.freeBlocksUpdate (-blocks))
  else (none, { h with oom_count := (h.oom_count + 1) % 2 ^ 32 })

/-- `umm_malloc`. -/
def malloc (size : Nat) : Option Nat × Heap := if size = 0 then (none, h) else h.mallocCore size

/-! ## Another size for a block -/

/-- `memmove` and `memcpy`, of half words. -/
def move (dst src n : Nat) : Heap :=
  { h with mem := fun i => if dst ≤ i ∧ i < dst + n then h.mem (src + (i - dst)) else h.mem i }

/-- What is behind `blocks` blocks of a run is split off and freed. -/
def trim (c blocks : Nat) : Heap := (h.splitBlock c blocks 0).freeCore (data (c + blocks))

/-- `umm_realloc` of a block, for a size that is not zero. -/
def reallocCore (ptr size : Nat) : Option Nat × Heap :=
  let blocks := blocks size
  let c := blockOf ptr
  let blockSize := span c (h.get .NBLOCK c)
  let curSize := blockSize * 4 - 2
  let nextBlockSize :=
    if h.isFree (h.get .NBLOCK c) then span (h.get .NBLOCK c) (h.nextBlock (h.get .NBLOCK c)) else 0
  let prevBlockSize := if h.isFree (h.get .PBLOCK c) then span (h.get .PBLOCK c) c else 0
  if prevBlockSize ≠ 0 ∧ prevBlockSize + blockSize + nextBlockSize ≥ blocks then
    let h := h.disconnect (h.get .PBLOCK c)
    let (h, c) := h.assimilateDown c 0
    let h := h.freeBlocksUpdate (-prevBlockSize)
    let blockSize := blockSize + prevBlockSize
    let (h, blockSize) :=
      if blockSize ≥ blocks then (h, blockSize)
      else
        let h := (h.assimilateUp c).freeBlocksUpdate (-nextBlockSize)
        let blockSize := blockSize + nextBlockSize
        (if blockSize > blocks then h.trim c blocks else h, blocks)
    let h := h.move (data c / 2) (ptr / 2) curSize
    (some (data c), if blockSize > blocks then h.trim c blocks else h)
  else if blockSize ≥ blocks then
    (some ptr, if blockSize > blocks then h.trim c blocks else h)
  else if blockSize + nextBlockSize ≥ blocks then
    let h := (h.assimilateUp c).freeBlocksUpdate (-nextBlockSize)
    (some ptr, if blockSize + nextBlockSize > blocks then h.trim c blocks else h)
  else
    match h.mallocCore size with
    | (some new, h) => (some new, (h.move (new / 2) (ptr / 2) curSize).freeCore ptr)
    | (none, h) => (none, h)

/-- `umm_realloc`. -/
def realloc (ptr : Option Nat) (size : Nat) : Option Nat × Heap :=
  match ptr with
  | none => h.malloc size
  | some ptr => if size = 0 then (none, h.freeCore ptr) else h.reallocCore ptr size

end Heap

end Umm
