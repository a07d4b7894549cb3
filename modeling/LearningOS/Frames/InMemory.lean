import LearningOS.Frames.Init
import LearningOS.Store.Copy

namespace LearningOS
open ByteStore

/-- The globals of the frame allocator with the whole memory, which the bitmap is a part of. -/
structure FrameGlobals where
  mem : Bytes
  frameBitmap : Nat
  totalFrames : Nat
  usedFrames : Nat
  bitmapWords : Nat
  placementAddr : Nat

def mmapEnd (m : Bytes) (mb : Nat) : Nat := u32 (mbMmapAddr m mb + mbMmapLength m mb)

theorem mbMmapAddr_lt (m : Bytes) (mb : Nat) : mbMmapAddr m mb < 2 ^ 32 := load32_lt m (mb + 48)

/-- The entry behind another. The size field does not count itself. -/
def nextEntry (m : Bytes) (entry : Nat) : Nat := u32 (entry + (mmapEntryAt m entry).size + 4)

namespace FrameGlobals
variable (g : FrameGlobals)

/-- `&frame_bitmap[frame / 32]`. -/
def wordAddr (frame : Nat) : Nat := u32 (g.frameBitmap + 4 * (frame / 32))

def testFrame (frame : Nat) : Bool := (load32 g.mem (g.wordAddr frame) >>> (frame % 32)) &&& 1 != 0

def setFrame (frame : Nat) : FrameGlobals :=
  if g.testFrame frame then g
  else { g with
    mem := store32 g.mem (g.wordAddr frame) (load32 g.mem (g.wordAddr frame) ||| 1 <<< (frame % 32))
    usedFrames := u32 (g.usedFrames + 1) }

def clearFrame (frame : Nat) : FrameGlobals :=
  if g.testFrame frame then
    { g with
      mem := store32 g.mem (g.wordAddr frame)
        (load32 g.mem (g.wordAddr frame) &&& (0xFFFFFFFF ^^^ 1 <<< (frame % 32)))
      usedFrames := sub32 g.usedFrames 1 }
  else g

def reserveRegion (start length : Nat) : FrameGlobals := (regionFrames start length).foldl setFrame g

def freeRegion (start length : Nat) : FrameGlobals := (regionFrames start length).foldl clearFrame g

/-- The body of the second walk. -/
def freeEntry (e : MmapEntry) : FrameGlobals :=
  if e.type = 1 ∧ e.addr < 0x100000000 then
    let end64 := (e.addr + e.len) % 2 ^ 64
    let end64 := if end64 > 0x100000000 then 0x100000000 else end64
    g.freeRegion (u32 e.addr) (u32 (end64 + (2 ^ 64 - e.addr)))
  else g

/-- The second walk. Each entry is read from the memory in which the frames of those in
front of it are cleared, and its size again once its own are. -/
def freeWalk (mmapEnd : Nat) : Nat → FrameGlobals → Nat → Option FrameGlobals
  | 0, _, _ => none
  | limit + 1, g, entry =>
    if entry < mmapEnd then
      let g := g.freeEntry (mmapEntryAt g.mem entry)
      freeWalk mmapEnd limit g (nextEntry g.mem entry)
    else some g

/-- The bitmap behind the kernel, with all bits set. -/
def placeBitmap (kernelEnd : Nat) (entries : List MmapEntry) : FrameGlobals where
  mem := memset g.mem (bitmapAddr kernelEnd) 0xFF (u32 (bitmapLength entries * 4))
  frameBitmap := bitmapAddr kernelEnd
  totalFrames := managedFrames entries
  usedFrames := managedFrames entries
  bitmapWords := bitmapLength entries
  placementAddr := placementEnd entries kernelEnd

def reserveBoot (mb : Nat) : FrameGlobals :=
  let g := g.reserveRegion 0 g.placementAddr
  let g := g.reserveRegion (mbMmapAddr g.mem mb) (mbMmapLength g.mem mb)
  g.reserveRegion mb 52

/-- `frame_allocator_init` with at most `limit` steps for each walk. All that it reads of
the memory map and of the information structure it reads from the memory of that moment. -/
def allocatorInit (limit mb kernelEnd : Nat) : Option FrameGlobals :=
  if mb = 0 ∨ mbFlags g.mem mb &&& 0x40 = 0 then some g
  else
    (mmapWalk g.mem (mmapEnd g.mem mb) limit (mbMmapAddr g.mem mb)).bind fun entries =>
      if managedFrames entries = 0 then some { g with totalFrames := 0 }
      else
        (freeWalk (mmapEnd g.mem mb) limit (g.placeBitmap kernelEnd entries)
          (mbMmapAddr (g.placeBitmap kernelEnd entries).mem mb)).map fun g => g.reserveBoot mb

end FrameGlobals

def multibootMagic : Nat := 0x2BADB002

/-- `multiboot_init` with at most `limit` steps for its walk: the entries it prints, and the
address of the information structure. -/
def multibootInit (limit : Nat) (m : Bytes) (magic addr : Nat) : Option (List MmapEntry × Nat) :=
  if magic ≠ multibootMagic then some ([], 0)
  else if mbFlags m addr &&& 0x40 ≠ 0 then
    (mmapWalk m (mmapEnd m addr) limit (mbMmapAddr m addr)).map fun entries => (entries, addr)
  else some ([], addr)

/-- What stays as it is when bits are set or cleared. -/
structure SameGlobals (g g' : FrameGlobals) : Prop where
  frameBitmap : g'.frameBitmap = g.frameBitmap
  totalFrames : g'.totalFrames = g.totalFrames
  bitmapWords : g'.bitmapWords = g.bitmapWords
  placementAddr : g'.placementAddr = g.placementAddr
  word : g.usedFrames < 2 ^ 32 → g'.usedFrames < 2 ^ 32
  high : ∀ x, 2 ^ 32 + 3 ≤ x → g'.mem x = g.mem x

namespace SameGlobals
variable {g g' g'' : FrameGlobals}

theorem refl (g : FrameGlobals) : SameGlobals g g := ⟨rfl, rfl, rfl, rfl, id, fun _ _ => rfl⟩

theorem trans (first : SameGlobals g g') (second : SameGlobals g' g'') : SameGlobals g g'' :=
  ⟨second.frameBitmap.trans first.frameBitmap, second.totalFrames.trans first.totalFrames,
    second.bitmapWords.trans first.bitmapWords, second.placementAddr.trans first.placementAddr,
    second.word ∘ first.word, fun x high => (second.high x high).trans (first.high x high)⟩

theorem clearFrame (g : FrameGlobals) (frame : Nat) : SameGlobals g (g.clearFrame frame) := by
  unfold FrameGlobals.clearFrame
  split
  · refine ⟨rfl, rfl, rfl, rfl, fun _ => Nat.mod_lt _ (by decide), fun x high => store32_outside (Or.inr ?_)⟩
    have low : g.wordAddr frame < 2 ^ 32 := Nat.mod_lt _ (by decide)
    omega
  · exact .refl g

theorem freeEntry (g : FrameGlobals) (e : MmapEntry) : SameGlobals g (g.freeEntry e) := by
  have region (l : List Nat) (g : FrameGlobals) : SameGlobals g (l.foldl FrameGlobals.clearFrame g) := by
    induction l generalizing g with
    | nil => exact .refl g
    | cons f l ih => exact (SameGlobals.clearFrame g f).trans (ih _)
  unfold FrameGlobals.freeEntry
  split
  · exact region _ g
  · exact .refl g

end SameGlobals

end LearningOS
