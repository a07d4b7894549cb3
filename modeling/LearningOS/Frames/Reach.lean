import LearningOS.Frames.Alloc
import LearningOS.Frames.Overlay

namespace LearningOS
open ByteStore

/-- A memory map the allocator can manage: the walk ends, the usable regions
and the boot structures lie below the last managed frame. -/
structure MemoryMapOk (boot : Bytes) (mb kernelEnd : Nat) (entries : List MmapEntry) : Prop where
  present : mb ≠ 0
  flag : mbFlags boot mb &&& 0x40 ≠ 0
  walk : mmapEntries boot mb = some entries
  image : 0 < kernelEnd
  regions : ∀ e ∈ entries, e.type = 1 → (e.addr + e.len + 4095) / 4096 * 4096 ≤ managedFrames entries * 4096
  bitmap : (kernelEnd + 4095) / 4096 * 4096 + bitmapLength entries * 4 ≤ managedFrames entries * 4096
  buffer : mbMmapAddr boot mb + mbMmapLength boot mb ≤ managedFrames entries * 4096
  info : mb + 52 ≤ managedFrames entries * 4096

/-- The runs of the allocator from `init`, with the frames handed out and not
yet freed. -/
inductive FrameReach (init : Frames) : Frames → List Nat → Prop
  | start : FrameReach init init []
  | alloc {s held} : FrameReach init s held →
      FrameReach init (frameAlloc s).1
        (if (frameAlloc s).2 = 0 then held else (frameAlloc s).2 / 4096 :: held)
  | contiguous {s held} (n : Nat) : FrameReach init s held →
      FrameReach init (frameAllocContiguous s n).1
        (if (frameAllocContiguous s n).2 = 0 then held
        else List.range' ((frameAllocContiguous s n).2 / 4096) n ++ held)
  | free {s held a} : FrameReach init s held → a / 4096 ∈ held →
      FrameReach init (frameFree s a) (held.erase (a / 4096))

/-- What every run keeps: the counter is right, bits past the last frame stay
set, and the used frames are those used at the start and those held. -/
structure FrameInv (init s : Frames) (held : List Nat) : Prop where
  acc : Accounted s
  total : s.totalFrames = init.totalFrames
  words : s.bitmapWords = init.bitmapWords
  bitmap : s.frameBitmap ≠ 0
  covered : s.totalFrames ≤ 32 * s.bitmapWords
  trailing : ∀ f, s.totalFrames ≤ f → f < 32 * s.bitmapWords → testFrame init f = true
  zero : testFrame init 0 = true
  bits : ∀ f, testFrame s f = true ↔ testFrame init f = true ∨ f ∈ held
  fresh : ∀ f ∈ held, testFrame init f = false ∧ f < s.totalFrames
  nodup : held.Nodup

namespace FrameInv
variable {init s : Frames} {held : List Nat}

theorem clear_not_held (inv : FrameInv init s held) {f : Nat} (clear : testFrame s f = false) :
    testFrame init f = false ∧ f ∉ held := by
  have off := (inv.bits f).not.mp (by simp [clear])
  exact ⟨by simpa using fun on => off (Or.inl on), fun member => off (Or.inr member)⟩

theorem clear_bounds (inv : FrameInv init s held) {f : Nat} (clear : testFrame s f = false)
    (below : f < 32 * s.bitmapWords) : 0 < f ∧ f < s.totalFrames := by
  have off := (inv.clear_not_held clear).1
  constructor
  · rcases Nat.eq_zero_or_pos f with rfl | positive
    · rw [inv.zero] at off
      simp at off
    · exact positive
  · by_contra past
    rw [inv.trailing f (by omega) below] at off
    simp at off

/-- Marking free frames and holding them keeps the invariant. -/
theorem hold (inv : FrameInv init s held) {l : List Nat} (nodup : l.Nodup)
    (clear : ∀ f ∈ l, testFrame s f = false) (below : ∀ f ∈ l, f < s.totalFrames) :
    FrameInv init (l.foldl setFrame s) (l ++ held) := by
  obtain ⟨total, words, bitmap⟩ := foldl_setFrame_fields l s
  refine ⟨inv.acc.foldl_setFrame below, total.trans inv.total, words.trans inv.words,
    by rw [bitmap]; exact inv.bitmap, by rw [total, words]; exact inv.covered,
    by rw [total, words]; exact inv.trailing, inv.zero, ?_, ?_, ?_⟩
  · intro f
    rw [testFrame_foldl_setFrame, Bool.or_eq_true, decide_eq_true_eq, inv.bits, List.mem_append]
    tauto
  · intro f member
    rw [total]
    rcases List.mem_append.mp member with new | old
    · exact ⟨(inv.clear_not_held (clear f new)).1, below f new⟩
    · exact inv.fresh f old
  · rw [List.nodup_append']
    exact ⟨nodup, inv.nodup, fun f new old => (inv.clear_not_held (clear f new)).2 old⟩

/-- `frame_alloc` either changes nothing and returns 0, or hands out one frame
that was free. -/
theorem frameAlloc_spec (inv : FrameInv init s held) :
    frameAlloc s = (s, 0) ∨ ∃ f, 0 < f ∧ f < s.totalFrames ∧ testFrame s f = false ∧
      frameAlloc s = (setFrame s f, f * 4096) := by
  have small := inv.acc.small
  unfold frameAlloc
  rw [if_neg inv.bitmap]
  cases scan : frameAllocScan s with
  | none => exact Or.inl rfl
  | some f =>
    obtain ⟨clear, below, _⟩ := frameAllocScan_eq_some.mp scan
    obtain ⟨positive, inside⟩ := inv.clear_bounds clear below
    refine Or.inr ⟨f, positive, inside, clear, ?_⟩
    simp only
    rw [u32_of_lt (by omega)]

theorem frameAllocContiguous_spec (inv : FrameInv init s held) (n : Nat) :
    frameAllocContiguous s n = (s, 0) ∨ ∃ start, 0 < start ∧ 0 < n ∧ start + n ≤ s.totalFrames ∧
      (∀ i, i < n → testFrame s (start + i) = false) ∧
      frameAllocContiguous s n = ((List.range' start n).foldl setFrame s, start * 4096) := by
  have small := inv.acc.small
  unfold frameAllocContiguous
  by_cases empty : s.frameBitmap = 0 ∨ n = 0
  · exact Or.inl (if_pos empty)
  rw [if_neg empty]
  split
  · exact Or.inl rfl
  cases scan : contiguousScan s n (s.totalFrames + 1) 0 with
  | none => exact Or.inl rfl
  | some start =>
    obtain ⟨_, room, clear⟩ := contiguousScan_sound scan
    have covered := inv.covered
    have positive := (inv.clear_bounds (by simpa using clear 0 (by omega)) (by omega)).1
    refine Or.inr ⟨start, positive, by omega, room, clear, ?_⟩
    simp only
    rw [foldl_setFrame_range, u32_of_lt (by omega)]

theorem alloc (inv : FrameInv init s held) :
    FrameInv init (frameAlloc s).1 (if (frameAlloc s).2 = 0 then held else (frameAlloc s).2 / 4096 :: held) := by
  rcases inv.frameAlloc_spec with same | ⟨f, positive, inside, clear, result⟩
  · rw [same]
    exact inv
  · rw [result]
    simp only
    rw [if_neg (by omega), Nat.mul_div_cancel f (by decide)]
    exact inv.hold (l := [f]) (List.nodup_singleton f) (by simpa using clear) (by simpa using inside)

theorem contiguous (inv : FrameInv init s held) (n : Nat) :
    FrameInv init (frameAllocContiguous s n).1 (if (frameAllocContiguous s n).2 = 0 then held
      else List.range' ((frameAllocContiguous s n).2 / 4096) n ++ held) := by
  rcases inv.frameAllocContiguous_spec n with same | ⟨start, positive, _, room, clear, result⟩
  · rw [same]
    exact inv
  · rw [result]
    simp only
    rw [if_neg (by omega), Nat.mul_div_cancel start (by decide)]
    refine inv.hold List.nodup_range' (fun f member => ?_) fun f member => ?_
    · obtain ⟨i, small, rfl⟩ := List.mem_range'.mp member
      simpa using clear i small
    · have bounds := List.mem_range'_1.mp member
      omega

theorem free (inv : FrameInv init s held) {a : Nat} (member : a / 4096 ∈ held) :
    FrameInv init (frameFree s a) (held.erase (a / 4096)) := by
  obtain ⟨off, below⟩ := inv.fresh _ member
  have result : frameFree s a = clearFrame s (a / 4096) := by
    rw [frameFree, if_neg inv.bitmap, if_pos below]
  rw [result]
  refine ⟨inv.acc.clearFrame below, by simpa using inv.total, by simpa using inv.words,
    by simpa using inv.bitmap, by simpa using inv.covered, by simpa using inv.trailing, inv.zero, ?_, ?_,
    inv.nodup.erase _⟩
  · intro f
    rw [testFrame_clearFrame, inv.nodup.mem_erase_iff, Bool.and_eq_true, inv.bits, decide_eq_true_eq]
    constructor
    · rintro ⟨on | held, differ⟩
      · exact Or.inl on
      · exact Or.inr ⟨differ, held⟩
    · rintro (on | ⟨differ, held⟩)
      · exact ⟨Or.inl on, fun equal => by rw [equal, off] at on; simp at on⟩
      · exact ⟨Or.inr held, differ⟩
  · intro f remains
    simpa using inv.fresh f (List.mem_of_mem_erase remains)

end FrameInv

theorem FrameReach.inv {init s : Frames} {held : List Nat} (base : FrameInv init init [])
    (reach : FrameReach init s held) : FrameInv init s held := by
  induction reach with
  | start => exact base
  | alloc _ ih => exact ih.alloc
  | contiguous n _ ih => exact ih.contiguous n
  | free _ member ih => exact ih.free member

namespace MemoryMapOk
variable {boot : Bytes} {mb kernelEnd : Nat} {entries : List MmapEntry}

theorem managed (ok : MemoryMapOk boot mb kernelEnd entries) : 0 < managedFrames entries := by
  have info := ok.info
  omega

theorem placement (ok : MemoryMapOk boot mb kernelEnd entries) :
    0 < bitmapAddr kernelEnd ∧ 0 < placementEnd entries kernelEnd ∧
      placementEnd entries kernelEnd ≤ managedFrames entries * 4096 := by
  have bitmap := ok.bitmap
  have image := ok.image
  have small := managedFrames_lt entries
  have address : bitmapAddr kernelEnd = (kernelEnd + 4095) / 4096 * 4096 := by
    simp only [bitmapAddr, alignUp, u32]
    omega
  unfold placementEnd
  rw [address, u32_of_lt (by omega)]
  omega

theorem entryFrames_lt (ok : MemoryMapOk boot mb kernelEnd entries) {e : MmapEntry} {f : Nat}
    (member : e ∈ entries) (inside : f ∈ entryFrames e) : f < managedFrames entries := by
  have small := managedFrames_lt entries
  unfold entryFrames at inside
  split at inside
  · rename_i usable
    have region := ok.regions e member usable.1
    refine regionFrames_lt small ?_ inside
    simp only [u32]
    split <;> omega
  · simp at inside

theorem reservedFrames_lt (ok : MemoryMapOk boot mb kernelEnd entries) {f : Nat}
    (inside : f ∈ reservedFrames boot mb kernelEnd entries) : f < managedFrames entries := by
  have small := managedFrames_lt entries
  simp only [reservedFrames, List.mem_append] at inside
  rcases inside with (low | buffer) | info
  · exact regionFrames_lt small (by simpa using ok.placement.2.2) low
  · exact regionFrames_lt small ok.buffer buffer
  · exact regionFrames_lt small ok.info info

theorem zero_reserved (ok : MemoryMapOk boot mb kernelEnd entries) :
    0 ∈ reservedFrames boot mb kernelEnd entries := by
  have small := managedFrames_lt entries
  obtain ⟨_, positive, bound⟩ := ok.placement
  simp only [reservedFrames, List.mem_append, mem_regionFrames]
  refine Or.inl (Or.inl ?_)
  simp only [alignUp, u32]
  omega

theorem accounted (ok : MemoryMapOk boot mb kernelEnd entries) (ram : Nat → BitVec 32) :
    Accounted (initialFrames boot mb kernelEnd entries ram) := by
  have full : Accounted (allUsed entries kernelEnd ram) := by
    refine ⟨managedFrames_lt entries, (Nat.count_of_forall fun f below => testFrame_allUsed ?_).symm⟩
    have total : f < managedFrames entries := below
    unfold bitmapLength
    omega
  have released : ∀ f ∈ entries.flatMap entryFrames, f < managedFrames entries := by
    intro f member
    obtain ⟨e, inEntries, inside⟩ := List.mem_flatMap.mp member
    exact ok.entryFrames_lt inEntries inside
  refine (full.foldl_clearFrame released).foldl_setFrame fun f member => ?_
  rw [(foldl_clearFrame_fields _ _).1]
  exact ok.reservedFrames_lt member

/-- `frame_allocator_init` establishes the run invariant. -/
theorem inv (ok : MemoryMapOk boot mb kernelEnd entries) (ram : Nat → BitVec 32) :
    FrameInv (initialFrames boot mb kernelEnd entries ram) (initialFrames boot mb kernelEnd entries ram) [] := by
  have managed := ok.managed
  obtain ⟨total, words, bitmap, _, bits⟩ := initialFrames_initialised boot mb kernelEnd entries ram
  have length : bitmapLength entries = (managedFrames entries + 31) / 32 := rfl
  refine ⟨ok.accounted ram, rfl, rfl, ?_, ?_, ?_, ?_, by simp, by simp, List.nodup_nil⟩
  · rw [bitmap]
    exact Nat.ne_of_gt ok.placement.1
  · rw [total, words]
    omega
  · intro f past below
    refine (bits (by omega)).mpr (Or.inr fun e member inside => ?_)
    have bound := ok.entryFrames_lt member inside
    omega
  · exact (bits (by omega)).mpr (Or.inl ok.zero_reserved)

end MemoryMapOk

/-- A call of `frame_alloc` that finds a frame adds it to those held. -/
theorem FrameReach.take {init s : Frames} {held : List Nat} {f : Nat} (base : FrameInv init init [])
    (reach : FrameReach init s held) (clear : testFrame s f = false) (below : f < s.totalFrames)
    (lowest : ∀ e, e < f → testFrame s e = true) : FrameReach init (setFrame s f) (f :: held) := by
  have inv := reach.inv base
  have covered := inv.covered
  have positive := (inv.clear_bounds clear (by omega)).1
  have small := inv.acc.small
  have result : frameAlloc s = (setFrame s f, f * 4096) := by
    rw [frameAlloc, if_neg inv.bitmap, frameAllocScan_eq_some.mpr ⟨clear, by omega, lowest⟩]
    simp only
    rw [u32_of_lt (by omega)]
  have step := reach.alloc
  rw [result] at step
  simpa [Nat.ne_of_gt positive] using step

end LearningOS
