import LearningOS.Store.Bytes

namespace LearningOS
open ByteStore

/-- `heap_start`, `heap_end` and `heap_head`, with the memory the block headers live in. -/
structure Heap where
  mem : Bytes
  heapStart : Nat
  heapEnd : Nat
  heapHead : Nat

/-- The three words of `struct heap_block`, 12 bytes in all. -/
def blockSize (m : Bytes) (block : Nat) : Nat := load32 m block

def blockNext (m : Bytes) (block : Nat) : Nat := load32 m (block + 4)

def blockFree (m : Bytes) (block : Nat) : Nat := load32 m (block + 8)

/-- `(size + 7) & ~7U`: the sum wraps, then the low three bits are cleared. -/
def align8 (size : Nat) : Nat := u32 (size + 7) / 8 * 8

def heapInit (m : Bytes) (start size : Nat) : Heap where
  mem := store32 (store32 (store32 m start (sub32 size 12)) (start + 4) 0) (start + 8) 1
  heapStart := start
  heapEnd := u32 (start + size)
  heapHead := start

/-- The body of the fitting branch of `kmalloc`: a remainder of more than 20
bytes becomes a free block of its own, then `curr` is marked used. -/
def takeBlock (m : Bytes) (curr size : Nat) : Bytes :=
  let remaining := blockSize m curr - size
  let m :=
    if remaining > 12 + 8 then
      let next := u32 (curr + 12 + size)
      let m := store32 m next (remaining - 12)
      let m := store32 m (next + 4) (blockNext m curr)
      let m := store32 m (next + 8) 1
      let m := store32 m (curr + 4) next
      store32 m curr size
    else m
  store32 m (curr + 8) 0

/-- The walk of `kmalloc`. Every loop over the block list carries a bound on its
iterations; `none` is a walk that has not ended within it. -/
def kmallocLoop (size : Nat) : Nat → Bytes → Nat → Option (Bytes × Nat)
  | 0, _, _ => none
  | fuel + 1, m, curr =>
    if curr = 0 then some (m, 0)
    else if blockFree m curr ≠ 0 ∧ size ≤ blockSize m curr then
      some (takeBlock m curr size, u32 (curr + 12))
    else kmallocLoop size fuel m (blockNext m curr)

/-- There are no more than this many places for a block header. -/
def walkLimit : Nat := 2 ^ 32

def kmalloc (h : Heap) (size : Nat) : Option (Heap × Nat) :=
  if size = 0 ∨ h.heapHead = 0 then some (h, 0)
  else (kmallocLoop (align8 size) walkLimit h.mem h.heapHead).map fun r => ({ h with mem := r.1 }, r.2)

def coalesceLoop : Nat → Bytes → Nat → Option Bytes
  | 0, _, _ => none
  | fuel + 1, m, curr =>
    if curr = 0 ∨ blockNext m curr = 0 then some m
    else
      let next := blockNext m curr
      let currEnd := u32 (curr + 12 + blockSize m curr)
      if blockFree m curr ≠ 0 ∧ blockFree m next ≠ 0 ∧ currEnd = next then
        let m := store32 m curr (u32 (blockSize m curr + 12 + blockSize m next))
        coalesceLoop fuel (store32 m (curr + 4) (blockNext m next)) curr
      else coalesceLoop fuel m next

def coalesce (h : Heap) : Option Heap :=
  (coalesceLoop walkLimit h.mem h.heapHead).map fun m => { h with mem := m }

def kfree (h : Heap) (ptr : Nat) : Option Heap :=
  if ptr = 0 ∨ h.heapHead = 0 then some h
  else if ptr < u32 (h.heapStart + 12) ∨ h.heapEnd ≤ ptr then some h
  else coalesce { h with mem := store32 h.mem (ptr - 12 + 8) 1 }

/-- A call of `kfree`: the heap it is made on and its argument. Functions that
free return theirs. -/
structure FreeCall where
  heap : Heap
  ptr : Nat

/-- The counters of `heap_stats`. -/
structure HeapStats where
  used : Nat
  free : Nat
  blocks : Nat
  freeBlocks : Nat
deriving DecidableEq, Repr

def heapStatsLoop : Nat → Bytes → Nat → HeapStats → Option HeapStats
  | 0, _, _, _ => none
  | fuel + 1, m, curr, st =>
    if curr = 0 then some st
    else
      let st := { st with blocks := u32 (st.blocks + 1) }
      let st :=
        if blockFree m curr ≠ 0 then
          { st with free := u32 (st.free + blockSize m curr), freeBlocks := u32 (st.freeBlocks + 1) }
        else { st with used := u32 (st.used + blockSize m curr) }
      heapStatsLoop fuel m (blockNext m curr) st

def heapStats (h : Heap) : Option HeapStats := heapStatsLoop walkLimit h.mem h.heapHead ⟨0, 0, 0, 0⟩

theorem align8_mod (size : Nat) : align8 size % 8 = 0 := by
  unfold align8
  omega

/-- The rounding is exact as long as the sum does not wrap. -/
theorem align8_of_le {size : Nat} (bound : size ≤ 0xFFFFFFF8) : size ≤ align8 size ∧ align8 size < size + 8 := by
  unfold align8 u32
  omega

end LearningOS
