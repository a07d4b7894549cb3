import LearningOS.Frames.Bits

namespace LearningOS
open ByteStore

theorem mem_regionFrames {start length f : Nat} :
    f ∈ regionFrames start length ↔
      alignUp start 4096 / 4096 ≤ f ∧ f < alignUp (u32 (start + length)) 4096 / 4096 := by
  simp only [regionFrames, List.mem_range'_1]
  omega

theorem regionFrames_low {start length f : Nat} (member : f ∈ regionFrames start length) : f < 2 ^ 20 := by
  simp only [mem_regionFrames, alignUp, u32] at member
  omega

/-- A region that ends inside the managed memory touches only managed frames. -/
theorem regionFrames_lt {start length total f : Nat} (small : total < 2 ^ 20)
    (inside : start + length ≤ total * 4096) (member : f ∈ regionFrames start length) : f < total := by
  rw [mem_regionFrames] at member
  simp only [alignUp, u32] at member
  omega

/-- The frames the second walk clears for one entry. -/
def entryFrames (e : MmapEntry) : List Nat :=
  if e.type = 1 ∧ e.addr < 0x100000000 then
    let end64 := (e.addr + e.len) % 2 ^ 64
    let end64 := if end64 > 0x100000000 then 0x100000000 else end64
    regionFrames (u32 e.addr) (u32 (end64 + (2 ^ 64 - e.addr)))
  else []

theorem entryFrames_low {e : MmapEntry} {f : Nat} (member : f ∈ entryFrames e) : f < 2 ^ 20 := by
  unfold entryFrames at member
  split at member
  · exact regionFrames_low member
  · simp at member

def managedFrames (entries : List MmapEntry) : Nat := clampU64ToU32 (maxAddr entries) / 4096

def bitmapAddr (kernelEnd : Nat) : Nat := alignUp (alignUp kernelEnd 4096) 4

def bitmapLength (entries : List MmapEntry) : Nat := (managedFrames entries + 31) / 32

/-- `placement_addr` once the bitmap is placed. -/
def placementEnd (entries : List MmapEntry) (kernelEnd : Nat) : Nat :=
  u32 (bitmapAddr kernelEnd + bitmapLength entries * 4)

/-- The frames the three final `reserve_region` calls mark used. -/
def reservedFrames (boot : Bytes) (mb kernelEnd : Nat) (entries : List MmapEntry) : List Nat :=
  regionFrames 0 (placementEnd entries kernelEnd) ++
    regionFrames (mbMmapAddr boot mb) (mbMmapLength boot mb) ++ regionFrames mb 52

/-- The allocator with every bit of the bitmap set. -/
def allUsed (entries : List MmapEntry) (kernelEnd : Nat) (ram : Nat → BitVec 32) : Frames where
  frameBitmap := bitmapAddr kernelEnd
  words := fun i => if i < bitmapLength entries then BitVec.allOnes 32 else ram i
  totalFrames := managedFrames entries
  usedFrames := managedFrames entries
  bitmapWords := bitmapLength entries
  placementAddr := placementEnd entries kernelEnd

theorem managedFrames_lt (entries : List MmapEntry) : managedFrames entries < 2 ^ 20 := by
  unfold managedFrames clampU64ToU32
  split <;> omega

/-- What `frame_allocator_init` makes of a memory map: all bits set, those of the type-1
regions cleared, those of the boot structures set again. -/
def initialFrames (boot : Bytes) (mb kernelEnd : Nat) (entries : List MmapEntry) (ram : Nat → BitVec 32) : Frames :=
  (reservedFrames boot mb kernelEnd entries).foldl setFrame
    ((entries.flatMap entryFrames).foldl clearFrame (allUsed entries kernelEnd ram))

theorem testFrame_allUsed {entries : List MmapEntry} {kernelEnd f : Nat} {ram : Nat → BitVec 32}
    (below : f < 32 * bitmapLength entries) : testFrame (allUsed entries kernelEnd ram) f = true := by
  rw [testFrame_eq]
  simp only [allUsed, if_pos (show f / 32 < bitmapLength entries by omega), BitVec.getLsbD_allOnes]
  simpa using Nat.mod_lt f (by decide)

/-- What `frame_allocator_init` leaves of a memory map with frames. A frame covered by the
bitmap is used unless a type-1 region released it and no boot structure took it back. -/
structure Initialised (boot : Bytes) (mb kernelEnd : Nat) (entries : List MmapEntry) (s : Frames) : Prop where
  total : s.totalFrames = managedFrames entries
  words : s.bitmapWords = bitmapLength entries
  bitmap : s.frameBitmap = bitmapAddr kernelEnd
  placement : s.placementAddr = placementEnd entries kernelEnd
  bits : ∀ {f}, f < 32 * bitmapLength entries →
    (testFrame s f = true ↔ f ∈ reservedFrames boot mb kernelEnd entries ∨ ∀ e ∈ entries, f ∉ entryFrames e)

theorem initialFrames_initialised (boot : Bytes) (mb kernelEnd : Nat) (entries : List MmapEntry)
    (ram : Nat → BitVec 32) :
    Initialised boot mb kernelEnd entries (initialFrames boot mb kernelEnd entries ram) := by
  obtain ⟨totalFreed, wordsFreed, bitmapFreed⟩ :=
    foldl_clearFrame_fields (entries.flatMap entryFrames) (allUsed entries kernelEnd ram)
  obtain ⟨total, words, bitmap⟩ := foldl_setFrame_fields (reservedFrames boot mb kernelEnd entries)
    ((entries.flatMap entryFrames).foldl clearFrame (allUsed entries kernelEnd ram))
  refine ⟨total.trans totalFreed, words.trans wordsFreed, bitmap.trans bitmapFreed, ?_, fun below => ?_⟩
  · unfold initialFrames
    rw [foldl_frames_placementAddr setFrame_placementAddr, foldl_frames_placementAddr clearFrame_placementAddr]
    rfl
  · unfold initialFrames
    rw [testFrame_foldl_setFrame, testFrame_foldl_clearFrame, testFrame_allUsed below]
    simp

/-- No region stops behind the largest end of the first walk. -/
theorem le_maxAddr {entries : List MmapEntry} {e : MmapEntry} (member : e ∈ entries) :
    (e.addr + e.len) % 2 ^ 64 ≤ maxAddr entries := by
  have grows (l : List MmapEntry) (best : Nat) : best ≤ l.foldl (fun best e =>
      if (e.addr + e.len) % 2 ^ 64 > best then (e.addr + e.len) % 2 ^ 64 else best) best := by
    induction l generalizing best with
    | nil => exact le_rfl
    | cons d l ih =>
      refine le_trans ?_ (ih _)
      dsimp only
      split
      · omega
      · exact le_rfl
  have reached (l : List MmapEntry) (best : Nat) (member : e ∈ l) : (e.addr + e.len) % 2 ^ 64 ≤ l.foldl (fun best e =>
      if (e.addr + e.len) % 2 ^ 64 > best then (e.addr + e.len) % 2 ^ 64 else best) best := by
    induction l generalizing best with
    | nil => simp at member
    | cons d l ih =>
      rcases List.mem_cons.mp member with rfl | later
      · refine le_trans ?_ (grows l _)
        dsimp only
        split <;> omega
      · exact ih _ later
  exact reached entries 0 member

/-- The words that the second walk may change: those of the frames up to the largest end. -/
def walkedWords (entries : List MmapEntry) : Nat := ((clampU64ToU32 (maxAddr entries) + 4095) / 4096 + 31) / 32

/-- The words that are filled, cleared or set before the fields of the map are read for the
last time. -/
def bootWords (kernelEnd : Nat) (entries : List MmapEntry) : Nat :=
  max (walkedWords entries) (((placementEnd entries kernelEnd + 4095) / 4096 + 31) / 32)

theorem bitmapLength_le (entries : List MmapEntry) : bitmapLength entries ≤ walkedWords entries := by
  unfold bitmapLength managedFrames walkedWords
  omega

theorem entryFrames_walked {entries : List MmapEntry} {e : MmapEntry} {f : Nat} (member : e ∈ entries)
    (inside : f ∈ entryFrames e) : f / 32 < walkedWords entries := by
  have largest := le_maxAddr member
  unfold entryFrames at inside
  split at inside
  · rename_i usable
    simp only [mem_regionFrames, alignUp, u32] at inside
    unfold walkedWords clampU64ToU32
    split at inside <;> split <;> omega
  · simp at inside

end LearningOS
