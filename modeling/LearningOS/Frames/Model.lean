import LearningOS.Store.Bytes
import Mathlib.Data.Nat.Count

namespace LearningOS
open ByteStore

/-- The globals of the frame allocator. `words i` is the 32-bit word `i` words
past the address `frameBitmap`; memory behind the bitmap is part of it, so an
index past `bitmapWords` has a meaning too. -/
structure Frames where
  frameBitmap : Nat
  words : Nat → BitVec 32
  totalFrames : Nat
  usedFrames : Nat
  bitmapWords : Nat
  placementAddr : Nat

/-- One packed `struct multiboot_mmap_entry`, read at a byte address. -/
structure MmapEntry where
  size : Nat
  addr : Nat
  len : Nat
  type : Nat
deriving DecidableEq, Repr

def load64 (m : Bytes) (a : Nat) : Nat := load32 m a + 2 ^ 32 * load32 m (a + 4)

def mmapEntryAt (boot : Bytes) (a : Nat) : MmapEntry :=
  ⟨load32 boot a, load64 boot (a + 4), load64 boot (a + 12), load32 boot (a + 20)⟩

/-- The fields of `struct multiboot_info` the allocator reads. -/
def mbFlags (boot : Bytes) (mb : Nat) : Nat := load32 boot mb

def mbMmapLength (boot : Bytes) (mb : Nat) : Nat := load32 boot (mb + 44)

def mbMmapAddr (boot : Bytes) (mb : Nat) : Nat := load32 boot (mb + 48)

/-- `(addr + align - 1) & ~(align - 1)` for a power of two. -/
def alignUp (addr align : Nat) : Nat := u32 (addr + align - 1) / align * align

def testFrame (s : Frames) (frame : Nat) : Bool :=
  ((s.words (frame / 32) >>> (frame % 32)) &&& 1#32) != 0#32

def setFrame (s : Frames) (frame : Nat) : Frames :=
  if testFrame s frame then s
  else { s with
    words := Function.update s.words (frame / 32) (s.words (frame / 32) ||| (1#32 <<< (frame % 32)))
    usedFrames := u32 (s.usedFrames + 1) }

def clearFrame (s : Frames) (frame : Nat) : Frames :=
  if testFrame s frame then
    { s with
      words := Function.update s.words (frame / 32) (s.words (frame / 32) &&& ~~~(1#32 <<< (frame % 32)))
      usedFrames := sub32 s.usedFrames 1 }
  else s

/-- The frame numbers visited by `for (addr = s; addr < e; addr += FRAME_SIZE)`
with the bounds `reserve_region` and `free_region` compute. -/
def regionFrames (start length : Nat) : List Nat :=
  let s := alignUp start 4096
  let e := alignUp (u32 (start + length)) 4096
  List.range' (s / 4096) (e / 4096 - s / 4096)

def reserveRegion (s : Frames) (start length : Nat) : Frames := (regionFrames start length).foldl setFrame s

def freeRegion (s : Frames) (start length : Nat) : Frames := (regionFrames start length).foldl clearFrame s

def clampU64ToU32 (v : Nat) : Nat := if v > 0xFFFFFFFF then 0xFFFFFFFF else v

/-- The entries both walks of `frame_allocator_init` visit, in order; `none` if
the walk has not reached `mmap_end` within its bound. -/
def mmapWalk (boot : Bytes) (mmapEnd : Nat) : Nat → Nat → Option (List MmapEntry)
  | 0, _ => none
  | fuel + 1, entry =>
    if entry < mmapEnd then
      (mmapWalk boot mmapEnd fuel (u32 (entry + (mmapEntryAt boot entry).size + 4))).map
        fun rest => mmapEntryAt boot entry :: rest
    else some []

/-- An entry pointer takes no more than this many values. -/
def mmapLimit : Nat := 2 ^ 32 + 1

def mmapEntries (boot : Bytes) (mb : Nat) : Option (List MmapEntry) :=
  mmapWalk boot (u32 (mbMmapAddr boot mb + mbMmapLength boot mb)) mmapLimit (mbMmapAddr boot mb)

/-- The first walk: the largest `entry->addr + entry->len`, in 64 bits. -/
def maxAddr (entries : List MmapEntry) : Nat :=
  entries.foldl (fun best e => if (e.addr + e.len) % 2 ^ 64 > best then (e.addr + e.len) % 2 ^ 64 else best) 0

/-- The body of the second walk. -/
def freeEntry (s : Frames) (e : MmapEntry) : Frames :=
  if e.type = 1 ∧ e.addr < 0x100000000 then
    let end64 := (e.addr + e.len) % 2 ^ 64
    let end64 := if end64 > 0x100000000 then 0x100000000 else end64
    freeRegion s (u32 e.addr) (u32 (end64 + (2 ^ 64 - e.addr)))
  else s

/-- The two scanning loops of `frame_alloc`. -/
def frameAllocScan (s : Frames) : Option Nat :=
  (List.range s.bitmapWords).findSome? fun i =>
    if s.words i ≠ BitVec.allOnes 32 then
      (List.range 32).findSome? fun b =>
        if s.words i &&& (1#32 <<< b) = 0#32 then some (i * 32 + b) else none
    else none

def frameAlloc (s : Frames) : Frames × Nat :=
  if s.frameBitmap = 0 then (s, 0)
  else
    match frameAllocScan s with
    | some frame => (setFrame s frame, u32 (frame * 4096))
    | none => (s, 0)

def frameFree (s : Frames) (addr : Nat) : Frames :=
  if s.frameBitmap = 0 then s
  else if addr / 4096 < s.totalFrames then clearFrame s (addr / 4096)
  else s

/-- The search of `frame_alloc_contiguous`: on a used frame at `start + i` the
next candidate is the frame after it. The first argument bounds the candidates. -/
def contiguousScan (s : Frames) (count : Nat) : Nat → Nat → Option Nat
  | 0, _ => none
  | fuel + 1, start =>
    if start + count ≤ s.totalFrames then
      match (List.range count).find? fun i => testFrame s (start + i) with
      | some i => contiguousScan s count fuel (start + i + 1)
      | none => some start
    else none

def frameAllocContiguous (s : Frames) (count : Nat) : Frames × Nat :=
  if s.frameBitmap = 0 ∨ count = 0 then (s, 0)
  else if count > s.totalFrames then (s, 0)
  else
    match contiguousScan s count (s.totalFrames + 1) 0 with
    | some start => ((List.range count).foldl (fun s i => setFrame s (start + i)) s, u32 (start * 4096))
    | none => (s, 0)

/-- The loop of `frame_largest_free_run`, with `best` and `current`. -/
def largestRunStep (s : Frames) (r : Nat × Nat) (i : Nat) : Nat × Nat :=
  if testFrame s i then (r.1, 0)
  else
    let current := u32 (r.2 + 1)
    (if current > r.1 then current else r.1, current)

def frameLargestFreeRun (s : Frames) : Nat :=
  if s.frameBitmap = 0 then 0
  else ((List.range s.totalFrames).foldl (largestRunStep s) (0, 0)).1

end LearningOS
