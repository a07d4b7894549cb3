import LearningOS.User.SameImage
import LearningOS.Store.Patches

namespace LearningOS
open ByteStore

/-- The header `i` is one of the table and of type `PT_LOAD`. -/
def Loadable (m : Bytes) (image i : Nat) : Prop := i < ehPhnum m image ∧ phType m (phdrAt m image i) = 1

/-- The address lies in the segment of the header `ph`. -/
def InSegment (m : Bytes) (ph x : Nat) : Prop := phVaddr m ph ≤ x ∧ x < phVaddr m ph + phMemsz m ph

/-- An image in memory with its header, program headers and segments inside it and its
segments at places of their own. -/
structure ElfImage (m : Bytes) (image size : Nat) : Prop where
  notNull : image ≠ 0
  inMemory : image + size ≤ 2 ^ 32
  header : 52 ≤ size
  magic : ehMagic m image = elfMagic
  entrySize : 32 ≤ ehPhentsize m image
  table : ehPhoff m image + ehPhnum m image * ehPhentsize m image ≤ size
  contents : ∀ i, Loadable m image i → phOffset m (phdrAt m image i) + phFilesz m (phdrAt m image i) ≤ size
  filled : ∀ i, Loadable m image i → phFilesz m (phdrAt m image i) ≤ phMemsz m (phdrAt m image i)
  target : ∀ i, Loadable m image i → phVaddr m (phdrAt m image i) + phMemsz m (phdrAt m image i) ≤ 2 ^ 32
  apartImage : ∀ i x, Loadable m image i → InSegment m (phdrAt m image i) x → ¬ (image ≤ x ∧ x < image + size)
  apart : ∀ i j x, Loadable m image i → Loadable m image j → i ≠ j → InSegment m (phdrAt m image i) x →
    ¬ InSegment m (phdrAt m image j) x

/-- The byte a segment has at an address: one of its contents or a zero behind them. -/
def segmentByte (m : Bytes) (image ph x : Nat) : UInt8 :=
  if x < phVaddr m ph + phFilesz m ph then m (image + phOffset m ph + (x - phVaddr m ph)) else 0

/-- The contents of a segment and the zeros behind them. -/
def segmentPatch (m : Bytes) (image ph : Nat) : Patch where
  start := phVaddr m ph
  bytes := window m (image + phOffset m ph) (phFilesz m ph) ++ List.replicate (phMemsz m ph - phFilesz m ph) 0

/-- The segments of the headers from `i` on. -/
def segmentsFrom (m : Bytes) (image i : Nat) : List Patch :=
  ((List.range' i (ehPhnum m image - i)).filter fun j => phType m (phdrAt m image j) = 1).map
    fun j => segmentPatch m image (phdrAt m image j)

namespace ElfImage
variable {m m' : Bytes} {image size entryOut i : Nat}

theorem word (elf : ElfImage m image size) : size < 2 ^ 32 := by
  have notNull := elf.notNull
  have inMemory := elf.inMemory
  omega

theorem header_inside (elf : ElfImage m image size) (more : i < ehPhnum m image) :
    phdrOffset m image i + 32 ≤ size := by
  have entries : (i + 1) * ehPhentsize m image ≤ ehPhnum m image * ehPhentsize m image := Nat.mul_le_mul_right _ more
  have table := elf.table
  have entrySize := elf.entrySize
  rw [Nat.succ_mul] at entries
  unfold phdrOffset
  omega

theorem checked (elf : ElfImage m image size) : ElfChecked m image size := by
  have table := elf.table
  have header := elf.header
  refine ⟨⟨not_or.mpr ⟨elf.notNull, by omega⟩, elf.magic⟩, ?_⟩
  rwa [u32_of_lt (Nat.lt_of_le_of_lt table elf.word)]

/-- Each header of such an image fits. -/
theorem fits (elf : ElfImage m image size) (more : i < ehPhnum m image) : HeaderFits m image size i := by
  have inside := elf.header_inside more
  have word := elf.word
  have field (k : Nat) (low : k + 4 ≤ 32) : u32 (phdrOffset m image i + k) + 4 ≤ size := by
    rw [u32_of_lt (by omega)]
    omega
  refine ⟨field 0 (by omega), fun load => ⟨field 4 (by omega), field 16 (by omega), fun _ =>
    ⟨field 8 (by omega), field 20 (by omega), ?_⟩⟩⟩
  exact Nat.lt_of_le_of_lt (elf.contents i ⟨more, load⟩) word

/-- A memory with the same image reads the same in each header. -/
theorem fields_eq (elf : ElfImage m image size) (same : SameImage image size m m') (more : i < ehPhnum m image) :
    phType m' (phdrAt m image i) = phType m (phdrAt m image i) ∧
      phOffset m' (phdrAt m image i) = phOffset m (phdrAt m image i) ∧
      phVaddr m' (phdrAt m image i) = phVaddr m (phdrAt m image i) ∧
      phFilesz m' (phdrAt m image i) = phFilesz m (phdrAt m image i) ∧
      phMemsz m' (phdrAt m image i) = phMemsz m (phdrAt m image i) := by
  have inside := elf.header_inside more
  have word := elf.word
  have field (k : Nat) (low : k + 4 ≤ 32) :
      load32 (wrapped m') (phdrAt m image i + k) = load32 (wrapped m) (phdrAt m image i + k) := by
    refine same.field_eq word ?_
    rw [u32_of_lt (by omega)]
    omega
  exact ⟨field 0 (by omega), field 4 (by omega), field 8 (by omega), field 16 (by omega), field 20 (by omega)⟩

theorem loadable_iff (elf : ElfImage m image size) (same : SameImage image size m m') (i : Nat) :
    Loadable m' image i ↔ Loadable m image i := by
  unfold Loadable
  rw [same.ehPhnum_eq elf.word elf.header, same.phdrAt_eq elf.word elf.header]
  exact and_congr_right fun more => by rw [(elf.fields_eq same more).1]

theorem inSegment_iff (elf : ElfImage m image size) (same : SameImage image size m m') (more : i < ehPhnum m image)
    (x : Nat) : InSegment m' (phdrAt m' image i) x ↔ InSegment m (phdrAt m image i) x := by
  obtain ⟨_, _, vaddr, _, memsz⟩ := elf.fields_eq same more
  rw [InSegment, InSegment, same.phdrAt_eq elf.word elf.header, vaddr, memsz]

theorem congr (elf : ElfImage m image size) (same : SameImage image size m m') : ElfImage m' image size where
  notNull := elf.notNull
  inMemory := elf.inMemory
  header := elf.header
  magic := (same.ehMagic_eq elf.word elf.header).trans elf.magic
  entrySize := by
    rw [same.ehPhentsize_eq elf.word elf.header]
    exact elf.entrySize
  table := by
    rw [same.ehPhoff_eq elf.word elf.header, same.ehPhnum_eq elf.word elf.header,
      same.ehPhentsize_eq elf.word elf.header]
    exact elf.table
  contents i load := by
    have load := (elf.loadable_iff same i).mp load
    obtain ⟨_, offset, _, filesz, _⟩ := elf.fields_eq same load.1
    rw [same.phdrAt_eq elf.word elf.header, offset, filesz]
    exact elf.contents i load
  filled i load := by
    have load := (elf.loadable_iff same i).mp load
    obtain ⟨_, _, _, filesz, memsz⟩ := elf.fields_eq same load.1
    rw [same.phdrAt_eq elf.word elf.header, filesz, memsz]
    exact elf.filled i load
  target i load := by
    have load := (elf.loadable_iff same i).mp load
    obtain ⟨_, _, vaddr, _, memsz⟩ := elf.fields_eq same load.1
    rw [same.phdrAt_eq elf.word elf.header, vaddr, memsz]
    exact elf.target i load
  apartImage i x load inside := by
    have load := (elf.loadable_iff same i).mp load
    exact elf.apartImage i x load ((elf.inSegment_iff same load.1 x).mp inside)
  apart i j x first second differ inside := by
    have first := (elf.loadable_iff same i).mp first
    have second := (elf.loadable_iff same j).mp second
    rw [elf.inSegment_iff same second.1]
    exact elf.apart i j x first second differ ((elf.inSegment_iff same first.1 x).mp inside)

theorem segmentPatch_eq (elf : ElfImage m image size) (same : SameImage image size m m') (load : Loadable m image i) :
    segmentPatch m' image (phdrAt m' image i) = segmentPatch m image (phdrAt m image i) := by
  obtain ⟨_, offset, vaddr, filesz, memsz⟩ := elf.fields_eq same load.1
  have contents := elf.contents i load
  have inMemory := elf.inMemory
  rw [segmentPatch, segmentPatch, same.phdrAt_eq elf.word elf.header, offset, vaddr, filesz, memsz]
  refine congrArg (fun bytes => Patch.mk _ (bytes ++ _)) (window_congr fun x lower upper => ?_)
  have byte := same (x - image) (by omega)
  rwa [Nat.add_sub_cancel' (by omega), u32_of_lt (by omega)] at byte

theorem segmentsFrom_eq (elf : ElfImage m image size) (same : SameImage image size m m') (i : Nat) :
    segmentsFrom m' image i = segmentsFrom m image i := by
  unfold segmentsFrom
  rw [same.ehPhnum_eq elf.word elf.header]
  have inTable {j : Nat} (member : j ∈ List.range' i (ehPhnum m image - i)) : j < ehPhnum m image := by
    rw [List.mem_range'_1] at member
    omega
  have types : ∀ j ∈ List.range' i (ehPhnum m image - i),
      decide (phType m' (phdrAt m' image j) = 1) = decide (phType m (phdrAt m image j) = 1) := by
    intro j member
    rw [same.phdrAt_eq elf.word elf.header, (elf.fields_eq same (inTable member)).1]
  rw [List.filter_congr types]
  refine List.map_congr_left fun j member => ?_
  rw [List.mem_filter] at member
  exact elf.segmentPatch_eq same ⟨inTable member.1, by simpa using member.2⟩

/-- Bytes put into a segment leave the image. -/
theorem sameImage_paste (elf : ElfImage m image size) (load : Loadable m image i) (bs : List UInt8)
    (fits : bs.length ≤ phMemsz m (phdrAt m image i)) :
    SameImage image size m (paste m (phVaddr m (phdrAt m image i)) bs) := by
  intro o inside
  have inMemory := elf.inMemory
  rw [u32_of_lt (by omega)]
  refine paste_outside ?_
  by_contra meets
  exact elf.apartImage i (image + o) load ⟨by omega, by omega⟩ ⟨by omega, by omega⟩

theorem memcpy_segment (elf : ElfImage m image size) (load : Loadable m image i) :
    memcpy m (phVaddr m (phdrAt m image i)) (u32 (image + phOffset m (phdrAt m image i)))
        (phFilesz m (phdrAt m image i)) =
      paste m (phVaddr m (phdrAt m image i))
        (window m (image + phOffset m (phdrAt m image i)) (phFilesz m (phdrAt m image i))) := by
  have inMemory := elf.inMemory
  have contents := elf.contents i load
  have filled := elf.filled i load
  have target := elf.target i load
  rcases Nat.eq_zero_or_pos (phFilesz m (phdrAt m image i)) with none | some
  · rw [none]
    simp [memcpy, window]
  rw [u32_of_lt (by omega)]
  refine memcpy_eq_paste (by omega) (by omega) ?_
  by_contra meets
  have first := elf.apartImage i (max (phVaddr m (phdrAt m image i)) (image + phOffset m (phdrAt m image i))) load
    ⟨by omega, by omega⟩
  omega

/-- Loading a segment puts its patch into memory. -/
theorem loadSegment_eq (elf : ElfImage m image size) (load : Loadable m image i) :
    loadSegment m image (phdrAt m image i) =
      paste m (segmentPatch m image (phdrAt m image i)).start (segmentPatch m image (phdrAt m image i)).bytes := by
  have filled := elf.filled i load
  have target := elf.target i load
  have copied := elf.sameImage_paste load
    (window m (image + phOffset m (phdrAt m image i)) (phFilesz m (phdrAt m image i))) (by rwa [window_length])
  obtain ⟨_, _, _, filesz, memsz⟩ := elf.fields_eq copied load.1
  simp only [loadSegment, segmentPatch, elf.memcpy_segment load, filesz, memsz]
  rcases Nat.lt_or_ge (phFilesz m (phdrAt m image i)) (phMemsz m (phdrAt m image i)) with more | same
  · have join := paste_append m (phVaddr m (phdrAt m image i))
      (window m (image + phOffset m (phdrAt m image i)) (phFilesz m (phdrAt m image i)))
      (List.replicate (phMemsz m (phdrAt m image i) - phFilesz m (phdrAt m image i)) 0)
    rw [window_length] at join
    rw [if_pos more, u32_of_lt (by omega), memset_eq_paste (by omega), join]
  · rw [if_neg (by omega), Nat.sub_eq_zero_of_le same, List.replicate_zero, List.append_nil]

theorem covers_iff (elf : ElfImage m image size) (load : Loadable m image i) (x : Nat) :
    (segmentPatch m image (phdrAt m image i)).Covers x ↔ InSegment m (phdrAt m image i) x := by
  have filled := elf.filled i load
  simp only [Patch.Covers, InSegment, segmentPatch, List.length_append, window_length, List.length_replicate]
  omega

theorem segmentsFrom_of_lt (more : i < ehPhnum m image) :
    segmentsFrom m image i =
      if phType m (phdrAt m image i) = 1 then segmentPatch m image (phdrAt m image i) :: segmentsFrom m image (i + 1)
      else segmentsFrom m image (i + 1) := by
  unfold segmentsFrom
  rw [show ehPhnum m image - i = ehPhnum m image - (i + 1) + 1 by omega, List.range'_succ, List.filter_cons]
  by_cases load : phType m (phdrAt m image i) = 1
  · rw [if_pos (by simpa using load), if_pos load, List.map_cons]
  · rw [if_neg (by simpa using load), if_neg load]

theorem loadHeader_eq (elf : ElfImage m image size) (more : i < ehPhnum m image) :
    loadHeader m image size (phdrAt m image i) =
      some (if phType m (phdrAt m image i) = 1 then loadSegment m image (phdrAt m image i) else m) := by
  unfold loadHeader
  by_cases load : phType m (phdrAt m image i) = 1
  · have contents := elf.contents i ⟨more, load⟩
    have word := elf.word
    rw [if_neg (by simpa using load), if_pos load, if_neg]
    rw [u32_of_lt (by omega)]
    omega
  · rw [if_pos load, if_neg load]

/-- The loop puts the patches of the headers it has not seen into memory. -/
theorem elfHeaders_eq (elf : ElfImage m image size) (entryOut i : Nat) :
    (elfHeaders image size entryOut m i).ret = 0 ∧
      SameImage image size m (pastePatches m (segmentsFrom m image i)) ∧
      (elfHeaders image size entryOut m i).mem =
        if entryOut ≠ 0 then store32 (pastePatches m (segmentsFrom m image i)) entryOut (ehEntry m image)
        else pastePatches m (segmentsFrom m image i) := by
  induction left : ehPhnum m image - i generalizing m i with
  | zero =>
    have none : segmentsFrom m image i = [] := by rw [segmentsFrom, left]; rfl
    rw [elfHeaders_done (by omega), none]
    exact ⟨rfl, fun _ _ => rfl, rfl⟩
  | succ left ih =>
    have more : i < ehPhnum m image := by omega
    rw [elfHeaders_next more (elf.loadHeader_eq more), segmentsFrom_of_lt more, ElfLoad.reading]
    by_cases load : phType m (phdrAt m image i) = 1
    · rw [if_pos load, if_pos load, pastePatches_cons, elf.loadSegment_eq ⟨more, load⟩]
      have kept := elf.sameImage_paste ⟨more, load⟩ (segmentPatch m image (phdrAt m image i)).bytes (by
        have filled := elf.filled i ⟨more, load⟩
        simp only [segmentPatch, List.length_append, window_length, List.length_replicate]
        omega)
      have rest := ih (elf.congr kept) (i + 1) (by rw [kept.ehPhnum_eq elf.word elf.header]; omega)
      rw [elf.segmentsFrom_eq kept, kept.ehEntry_eq elf.word elf.header] at rest
      exact ⟨rest.1, fun o inside => (rest.2.1 o inside).trans (kept o inside), rest.2.2⟩
    · rw [if_neg load, if_neg load]
      exact ih elf (i + 1) (by omega)

theorem mem_segmentsFrom {b : Patch} :
    b ∈ segmentsFrom m image 0 ↔ ∃ i, Loadable m image i ∧ segmentPatch m image (phdrAt m image i) = b := by
  unfold segmentsFrom Loadable
  simp only [List.mem_map, List.mem_filter, List.mem_range'_1, Nat.zero_le, Nat.sub_zero, Nat.zero_add, true_and,
    decide_eq_true_eq]

theorem segmentsFrom_apart (elf : ElfImage m image size) : (segmentsFrom m image 0).Pairwise Patch.Apart := by
  unfold segmentsFrom
  have increasing : (List.range' 0 (ehPhnum m image - 0)).Pairwise (· < ·) := List.pairwise_lt_range'
  have ordered := increasing.filter fun j => phType m (phdrAt m image j) = 1
  refine List.pairwise_map.mpr (ordered.imp_of_mem fun {i j} first second below => ?_)
  simp only [List.mem_filter, List.mem_range'_1, Nat.zero_le, Nat.sub_zero, Nat.zero_add, true_and,
    decide_eq_true_eq] at first second
  intro x here there
  exact elf.apart i j x first second (by omega) ((elf.covers_iff first x).mp here) ((elf.covers_iff second x).mp there)

theorem pastePatches_segment (elf : ElfImage m image size) (load : Loadable m image i) {x : Nat}
    (inside : InSegment m (phdrAt m image i) x) :
    pastePatches m (segmentsFrom m image 0) x = segmentByte m image (phdrAt m image i) x := by
  have member := mem_segmentsFrom.mpr ⟨i, load, rfl⟩
  have filled := elf.filled i load
  obtain ⟨low, high⟩ := inside
  have byte := pastePatches_inside (m := m) (i := x - phVaddr m (phdrAt m image i))
    (v := segmentByte m image (phdrAt m image i) x) elf.segmentsFrom_apart member (by
      unfold segmentPatch segmentByte
      by_cases contents : x < phVaddr m (phdrAt m image i) + phFilesz m (phdrAt m image i)
      · rw [List.getElem?_append_left (by rw [window_length]; omega), window_getElem?, if_pos (by omega), if_pos contents]
      · rw [List.getElem?_append_right (by rw [window_length]; omega), window_length, if_neg contents,
          List.getElem?_replicate, if_pos (by omega)])
  rwa [show (segmentPatch m image (phdrAt m image i)).start + (x - phVaddr m (phdrAt m image i)) = x from
    Nat.add_sub_cancel' low] at byte

end ElfImage

/-- `elf_load` puts each segment in its place, zeros behind its contents, and leaves the rest
of the memory. -/
theorem elf_load_builds_image {m : Bytes} {image size : Nat} (elf : ElfImage m image size) (entryOut : Nat) :
    (elfLoad m image size entryOut).ret = 0 ∧
      (entryOut ≠ 0 → load32 (elfLoad m image size entryOut).mem entryOut = ehEntry m image) ∧
      ∀ x, (entryOut = 0 ∨ x < entryOut ∨ entryOut + 4 ≤ x) →
        (∀ i, Loadable m image i → InSegment m (phdrAt m image i) x →
          (elfLoad m image size entryOut).mem x = segmentByte m image (phdrAt m image i) x) ∧
        ((∀ i, Loadable m image i → ¬ InSegment m (phdrAt m image i) x) →
          (elfLoad m image size entryOut).mem x = m x) := by
  obtain ⟨ret, _, mem⟩ := elf.elfHeaders_eq entryOut 0
  have memory (x : Nat) (elsewhere : entryOut = 0 ∨ x < entryOut ∨ entryOut + 4 ≤ x) :
      (elfLoad m image size entryOut).mem x = pastePatches m (segmentsFrom m image 0) x := by
    rw [elfLoad_checked elf.checked, ElfLoad.reading, mem]
    by_cases given : entryOut ≠ 0
    · rw [if_pos given, store32_outside (elsewhere.resolve_left given)]
    · rw [if_neg given]
  refine ⟨by rw [elfLoad_checked elf.checked]; exact ret, fun given => ?_, fun x elsewhere => ⟨?_, fun outside => ?_⟩⟩
  · rw [elfLoad_checked elf.checked, ElfLoad.reading, mem, if_pos given, load32_store32_same]
    exact Nat.mod_eq_of_lt (load32_lt _ _)
  · intro i load inside
    rw [memory x elsewhere]
    exact elf.pastePatches_segment load inside
  · rw [memory x elsewhere]
    refine pastePatches_outside fun b member => ?_
    obtain ⟨i, load, rfl⟩ := ElfImage.mem_segmentsFrom.mp member
    rw [elf.covers_iff load]
    exact outside i load

theorem sampleElf_image : ElfImage (sampleElf 84 4 8) 0x100000 92 := by
  have count : ehPhnum (sampleElf 84 4 8) 0x100000 = 1 := by decide +kernel
  have only {i : Nat} (load : Loadable (sampleElf 84 4 8) 0x100000 i) : i = 0 := by
    have more := load.1
    omega
  have offset : phOffset (sampleElf 84 4 8) (phdrAt (sampleElf 84 4 8) 0x100000 0) = 84 := by decide +kernel
  have vaddr : phVaddr (sampleElf 84 4 8) (phdrAt (sampleElf 84 4 8) 0x100000 0) = 0x200000 := by decide +kernel
  have filesz : phFilesz (sampleElf 84 4 8) (phdrAt (sampleElf 84 4 8) 0x100000 0) = 4 := by decide +kernel
  have memsz : phMemsz (sampleElf 84 4 8) (phdrAt (sampleElf 84 4 8) 0x100000 0) = 8 := by decide +kernel
  refine ⟨by decide, by decide, by decide, by decide +kernel, by decide +kernel, by decide +kernel, ?_, ?_, ?_, ?_, ?_⟩
  · intro i load
    rw [only load, offset, filesz]
    decide
  · intro i load
    rw [only load, filesz, memsz]
    decide
  · intro i load
    rw [only load, vaddr, memsz]
    decide
  · intro i x load inside
    rw [only load, InSegment, vaddr, memsz] at inside
    omega
  · intro i j x first second differ
    exact absurd ((only first).trans (only second).symm) differ

theorem elf_load_builds_image_sampleElf :
    (elfLoad (sampleElf 84 4 8) 0x100000 92 0x300000).ret = 0 ∧
      (0x300000 ≠ 0 → load32 (elfLoad (sampleElf 84 4 8) 0x100000 92 0x300000).mem 0x300000 =
        ehEntry (sampleElf 84 4 8) 0x100000) ∧
      ∀ x, (0x300000 = 0 ∨ x < 0x300000 ∨ 0x300000 + 4 ≤ x) →
        (∀ i, Loadable (sampleElf 84 4 8) 0x100000 i →
          InSegment (sampleElf 84 4 8) (phdrAt (sampleElf 84 4 8) 0x100000 i) x →
          (elfLoad (sampleElf 84 4 8) 0x100000 92 0x300000).mem x =
            segmentByte (sampleElf 84 4 8) 0x100000 (phdrAt (sampleElf 84 4 8) 0x100000 i) x) ∧
        ((∀ i, Loadable (sampleElf 84 4 8) 0x100000 i →
          ¬ InSegment (sampleElf 84 4 8) (phdrAt (sampleElf 84 4 8) 0x100000 i) x) →
          (elfLoad (sampleElf 84 4 8) 0x100000 92 0x300000).mem x = sampleElf 84 4 8 x) :=
  elf_load_builds_image sampleElf_image 0x300000

end LearningOS
