import EluaWebServer.Lib.Loop
import EluaWebServer.Lib.Memory

/-!
# The simple allocator

Each memory region holds a list of blocks between two guards.  A block starts
with two words: the address of the next block and that of the previous one,
both divided by the size multiple, and in the highest bit of the first word
whether the block is taken.

Addresses and sizes are numbers; `size_t` has 32 bits, so what is computed
with sizes is taken modulo `2 ^ 32`.  The null pointer is 0.
-/

namespace Salloc

open Memory Loop

def DYN_SIZE_MULT : Nat := 8
def DYN_HEADER_SIZE : Nat := 8
def DYN_MIN_SPLIT_SIZE : Nat := 16

/-- A region of free RAM: the two addresses that `platform_get_first_free_ram`
and `platform_get_last_free_ram` give, which these functions align. -/
structure Region where
  first : Nat
  last : Nat
  first_aligned : first % 8 = 0
  last_aligned : last % 8 = 0
  first_pos : 0 < first
  size : first + 32 ≤ last
  last_lt : last < 2 ^ 32
  deriving DecidableEq

/-! ## Headers -/

/-- Get actual size. -/
def sActSize (size : Nat) : Nat :=
  if size % DYN_SIZE_MULT ≠ 0 then (size / DYN_SIZE_MULT + 1) * DYN_SIZE_MULT % 2 ^ 32 else size

/-- Get next block. -/
def sGetNextBlock (m : Mem) (ptr : Nat) : Nat :=
  ((load32 m ptr &&& 0x7FFFFFFF) <<< 3).toNat

/-- Set next block. -/
def sSetNextBlock (m : Mem) (ptr next : Nat) : Mem :=
  store32 m ptr ((load32 m ptr &&& (0x80000000 : UInt32)) ||| (UInt32.ofNat next >>> (3 : UInt32)))

/-- Get prev block. -/
def sGetPrevBlock (m : Mem) (ptr : Nat) : Nat :=
  ((load32 m (ptr + 4) &&& 0x7FFFFFFF) <<< 3).toNat

/-- Set prev block. -/
def sSetPrevBlock (m : Mem) (ptr prev : Nat) : Mem :=
  store32 m (ptr + 4)
    ((load32 m (ptr + 4) &&& (0x80000000 : UInt32)) ||| (UInt32.ofNat prev >>> (3 : UInt32)))

/-- Get block size. -/
def sGetBlockSize (m : Mem) (ptr : Nat) : Nat :=
  let next := sGetNextBlock m ptr
  if next ≠ 0 then (next + 2 ^ 32 - ptr) % 2 ^ 32 else 0

/-- Mark block as taken. -/
def sMarkBlockTaken (m : Mem) (ptr : Nat) : Mem :=
  store32 m ptr (load32 m ptr ||| 0x80000000)

/-- Mark block as free. -/
def sMarkBlockFree (m : Mem) (ptr : Nat) : Mem :=
  store32 m ptr (load32 m ptr &&& 0x7FFFFFFF)

/-- Is the block free? -/
def sIsBlockFree (m : Mem) (ptr : Nat) : Bool :=
  load32 m ptr &&& 0x80000000 = 0

/-- Create a new block with the given neighbours. -/
def sCreateNewBlock (m : Mem) (ptr next prev : Nat) : Mem :=
  store32 (store32 m ptr (UInt32.ofNat next >>> 3)) (ptr + 4) (UInt32.ofNat prev >>> 3)

/-! ## Blocks -/

/-- More than there can be blocks: the number of addresses a block can have.
A list that is longer has a cycle, and the loop does not end. -/
def LOOP_BOUND : Nat := 2 ^ 29

/-- Tries to compact free blocks. -/
def sCompactFree (m : Mem) (ptr : Nat) : Option Mem := do
  let m := sMarkBlockFree m ptr
  let temp1 ← whileLoop (sIsBlockFree m) (sGetPrevBlock m) LOOP_BOUND ptr
  let temp1 := sGetNextBlock m temp1
  let temp2 ← whileLoop (sIsBlockFree m) (sGetNextBlock m) LOOP_BOUND ptr
  if temp1 ≠ ptr ∨ sGetPrevBlock m temp2 ≠ ptr then
    return sSetPrevBlock (sSetNextBlock m temp1 temp2) temp2 temp1
  else return m

/-- The end of `s_get_free_block` and of `s_shrink_block`: what is behind the
first `size` bytes of the block becomes a free block of its own. -/
def splitBlock (m : Mem) (pblock size : Nat) : Option Mem :=
  let temp := pblock + size
  let next := sGetNextBlock m pblock
  let m := sSetPrevBlock m temp pblock
  let m := sSetNextBlock m temp next
  let m := sSetPrevBlock m next temp
  let m := sSetNextBlock m pblock temp
  sCompactFree m temp

/-- The variables of the search in `s_get_free_block`. -/
structure Search where
  temp : Nat
  minsize : Nat
  pblock : Nat

/-- `while( temp )`. -/
def Search.more (s : Search) : Bool := s.temp ≠ 0

/-- The body of the search: best fit. -/
def bestFit (m : Mem) (size : Nat) (s : Search) : Search :=
  let bsize := sGetBlockSize m s.temp
  if sIsBlockFree m s.temp ∧ size ≤ bsize ∧ bsize < s.minsize then
    ⟨sGetNextBlock m s.temp, bsize, s.temp⟩
  else { s with temp := sGetNextBlock m s.temp }

/-- Find a free block in the dynamic memory part: the new memory and the
pointer, null for error. -/
def sGetFreeBlock (m : Mem) (size pstart : Nat) : Option (Mem × Nat) :=
  if size = 0 then some (m, 0)
  else do
    let size := sActSize ((size + DYN_HEADER_SIZE) % 2 ^ 32)
    let s ← whileLoop Search.more (bestFit m size) LOOP_BOUND
      ⟨sGetNextBlock m pstart, 2 ^ 32 - 1, 0⟩
    if s.pblock = 0 then return (m, 0)
    else
      let m := sMarkBlockTaken m s.pblock
      let m ← if size < s.minsize ∧ DYN_MIN_SPLIT_SIZE ≤ s.minsize - size then
          splitBlock m s.pblock size
        else some m
      return (m, s.pblock + DYN_HEADER_SIZE)

/-- Free a memory block. -/
def sFreeBlock (m : Mem) (ptr : Nat) : Option Mem := sCompactFree m (ptr - DYN_HEADER_SIZE)

/-- Get 'real' block size. -/
def sGetActualBlockSize (m : Mem) (ptr : Nat) : Nat :=
  (sGetBlockSize m (ptr - DYN_HEADER_SIZE) + 2 ^ 32 - DYN_HEADER_SIZE) % 2 ^ 32

/-- Shrinks the given block to its new size. -/
def sShrinkBlock (m : Mem) (pblock size : Nat) : Option Mem :=
  let pblock := pblock - DYN_HEADER_SIZE
  let size := sActSize ((size + DYN_HEADER_SIZE) % 2 ^ 32)
  if sGetBlockSize m pblock ≤ size ∨ sGetBlockSize m pblock - size < DYN_MIN_SPLIT_SIZE then some m
  else splitBlock m pblock size

/-- `s_init` on one region. -/
def initRegion (m : Mem) (r : Region) : Mem :=
  let memspace := r.last - r.first
  let g1 := r.first
  let crt := g1 + DYN_SIZE_MULT
  let g2 := g1 + memspace - DYN_SIZE_MULT
  let m := sCreateNewBlock m g1 crt 0
  let m := sCreateNewBlock m crt g2 g1
  let m := sCreateNewBlock m g2 0 crt
  let m := sMarkBlockTaken m g1
  let m := sMarkBlockTaken m g2
  sMarkBlockFree m crt

/-! ## The allocator -/

/-- The memory and `s_initialized`. -/
structure Heap where
  mem : Mem
  initialized : Bool

def sInit (regions : List Region) (h : Heap) : Heap :=
  ⟨regions.foldl initRegion h.mem, true⟩

/-- `if( !s_initialized ) s_init();` -/
def ensureInit (regions : List Region) (h : Heap) : Heap :=
  if h.initialized then h else sInit regions h

/-- The loop of `smalloc` over the regions. -/
def smallocLoop (m : Mem) (size : Nat) : List Region → Option (Mem × Nat)
  | [] => some (m, 0)
  | r :: rs => do
      let (m, ptr) ← sGetFreeBlock m size r.first
      if ptr ≠ 0 then return (m, ptr) else smallocLoop m size rs

def smalloc (regions : List Region) (h : Heap) (size : Nat) : Option (Heap × Nat) := do
  let h := ensureInit regions h
  let (m, ptr) ← smallocLoop h.mem size regions
  return ({ h with mem := m }, ptr)

def sfree (h : Heap) (ptr : Nat) : Option Heap :=
  if ptr = 0 ∨ h.initialized = false then some h
  else do
    let m ← sFreeBlock h.mem ptr
    return { h with mem := m }

def scalloc (regions : List Region) (h : Heap) (nmemb size : Nat) : Option (Heap × Nat) := do
  let h := ensureInit regions h
  let (h, ptr) ← smalloc regions h (nmemb * size % 2 ^ 32)
  if ptr ≠ 0 then
    -- memset
    return ({ h with
      mem := storeBytes h.mem ptr (List.replicate (nmemb * size % 2 ^ 32) 0) }, ptr)
  else return (h, ptr)

def srealloc (regions : List Region) (h : Heap) (ptr size : Nat) : Option (Heap × Nat) :=
  let h := ensureInit regions h
  if ptr = 0 then smalloc regions h size
  else if size = 0 then do
    let h ← sfree h ptr
    return (h, 0)
  else if sGetActualBlockSize h.mem ptr = size then some (h, ptr)
  else if size < sGetActualBlockSize h.mem ptr then do
    let m ← sShrinkBlock h.mem ptr size
    return ({ h with mem := m }, ptr)
  else do
    let (h, newptr) ← smalloc regions h size
    if newptr = 0 then return (h, 0)
    else
      -- memmove
      let m := storeBytes h.mem newptr (loadBytes h.mem ptr (sGetActualBlockSize h.mem ptr))
      let h ← sfree { h with mem := m } ptr
      return (h, newptr)

end Salloc
