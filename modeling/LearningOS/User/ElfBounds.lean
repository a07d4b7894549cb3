import LearningOS.User.Elf
import Mathlib.Logic.Relation

namespace LearningOS
open ByteStore

/-- The address is that of one of the `size` bytes from `image` on. -/
def InImage (image size a : Nat) : Prop := sub32 a image < size

/-- One round of the loop: the counter and the memory before it and behind it. -/
def HeaderStep (image size : Nat) (s t : Nat × Bytes) : Prop :=
  s.1 < ehPhnum s.2 image ∧ loadHeader s.2 image size (phdrAt s.2 image s.1) = some t.2 ∧ t.1 = s.1 + 1

/-- The checks in front of the loop. -/
def ElfChecked (m : Bytes) (image size : Nat) : Prop :=
  (¬(image = 0 ∨ size < 52) ∧ ehMagic m image = elfMagic) ∧
    u32 (ehPhoff m image + ehPhnum m image * ehPhentsize m image) ≤ size

/-- The loop comes to the header `i`, with the memory the segments before it have left. -/
def HeaderReached (m : Bytes) (image size i : Nat) (m' : Bytes) : Prop :=
  ElfChecked m image size ∧ Relation.ReflTransGen (HeaderStep image size) (0, m) (i, m') ∧ i < ehPhnum m' image

/-- The offset in the image that the pointer to the header `i` is computed from. -/
def phdrOffset (m : Bytes) (image i : Nat) : Nat := ehPhoff m image + i * ehPhentsize m image

/-- The fields the loader uses of the header `i` end inside the image, and no segment gets
past the check by a sum that wraps. -/
def HeaderFits (m : Bytes) (image size i : Nat) : Prop :=
  let h := phdrOffset m image i
  let ph := phdrAt m image i
  u32 h + 4 ≤ size ∧
    (phType m ph = 1 → u32 (h + 4) + 4 ≤ size ∧ u32 (h + 16) + 4 ≤ size ∧
      (u32 (phOffset m ph + phFilesz m ph) ≤ size →
        u32 (h + 8) + 4 ≤ size ∧ u32 (h + 20) + 4 ≤ size ∧ phOffset m ph + phFilesz m ph < 2 ^ 32))

/-- The bytes a program header asks for, whatever the check of its segment says. -/
def headerWants (m : Bytes) (image ph : Nat) : List Nat :=
  bytesAt ph 4 ++
    if phType m ph ≠ 1 then []
    else bytesAt (ph + 4) 4 ++ bytesAt (ph + 16) 4 ++
      (bytesAt (ph + 8) 4 ++ bytesAt (image + phOffset m ph) (phFilesz m ph) ++ bytesAt (ph + 20) 4)

/-- The addresses the two calls for a segment store to. -/
def segmentStores (m : Bytes) (image ph : Nat) : List Nat :=
  let dest := phVaddr m ph
  let copied := memcpy m dest (u32 (image + phOffset m ph)) (phFilesz m ph)
  bytesAt dest (phFilesz m ph) ++
    if phMemsz copied ph > phFilesz copied ph then
      bytesAt (dest + phFilesz copied ph) (phMemsz copied ph - phFilesz copied ph)
    else []

/-- The addresses the body of the loop stores to, where it goes on. -/
def headerStores (m : Bytes) (image ph : Nat) : List Nat :=
  if phType m ph = 1 then segmentStores m image ph else []

/-- What the call returns, reads and stores is settled by the bytes it has read: from a memory
with the same bytes there it does the same. -/
def SettledByReads (m : Bytes) (image size entryOut : Nat) : Prop :=
  ∀ m' : Bytes, (∀ a ∈ (elfLoad m image size entryOut).reads, m' a = m a) →
    (elfLoad m' image size entryOut).ret = (elfLoad m image size entryOut).ret ∧
      (elfLoad m' image size entryOut).reads = (elfLoad m image size entryOut).reads ∧
      ∃ stored, InStep m m' stored (elfLoad m image size entryOut).mem (elfLoad m' image size entryOut).mem

section
variable {m m' : Bytes} {image size entryOut i : Nat}

theorem sub32_u32_add (imageWord : image < 2 ^ 32) (o : Nat) : sub32 (u32 (image + o)) image = u32 o := by
  unfold sub32 u32
  omega

theorem phdrAt_eq (m : Bytes) (image i : Nat) : phdrAt m image i = u32 (image + phdrOffset m image i) := by
  rw [phdrAt, phdrOffset, Nat.add_assoc]

theorem bytesAt_u32 (a k n : Nat) : bytesAt (u32 a + k) n = bytesAt (a + k) n := by
  refine List.map_congr_left fun j _ => ?_
  unfold u32
  omega

/-- Bytes at consecutive wrapped offsets lie below a bound exactly if the last of them
does and none wraps. -/
theorem u32_range_lt_iff {o n : Nat} (sizeWord : size < 2 ^ 32) :
    (∀ j, j < n → u32 (o + j) < size) ↔ n = 0 ∨ u32 o + n ≤ size := by
  constructor
  · intro inside
    by_contra past
    obtain ⟨some, past⟩ := not_or.mp past
    have first := inside 0 (by omega)
    have last := inside (size - u32 o) (by rw [Nat.add_zero] at first; omega)
    unfold u32 at first last
    omega
  · rintro (rfl | fits) j below
    · omega
    · unfold u32 at fits ⊢
      omega

theorem bytesAt_inImage_iff (imageWord : image < 2 ^ 32) (sizeWord : size < 2 ^ 32) (o n : Nat) :
    (∀ a ∈ bytesAt (image + o) n, InImage image size a) ↔ n = 0 ∨ u32 o + n ≤ size := by
  rw [← u32_range_lt_iff sizeWord]
  simp only [bytesAt, List.forall_mem_map, List.mem_range, InImage, Nat.add_assoc, sub32_u32_add imageWord]

theorem field_inImage_iff (imageWord : image < 2 ^ 32) (sizeWord : size < 2 ^ 32) (k : Nat) :
    (∀ a ∈ bytesAt (phdrAt m image i + k) 4, InImage image size a) ↔ u32 (phdrOffset m image i + k) + 4 ≤ size := by
  rw [phdrAt_eq, bytesAt_u32, Nat.add_assoc, bytesAt_inImage_iff imageWord sizeWord]
  omega

theorem headerReads_inImage_iff (imageWord : image < 2 ^ 32) (sizeWord : size < 2 ^ 32) :
    (∀ a ∈ headerReads m image size (phdrAt m image i), InImage image size a) ↔ HeaderFits m image size i := by
  have first := field_inImage_iff (m := m) (i := i) imageWord sizeWord 0
  unfold headerReads HeaderFits
  rw [List.forall_mem_append]
  refine and_congr first ?_
  by_cases segment : phType m (phdrAt m image i) = 1
  · rw [if_neg (by simpa using segment), List.forall_mem_append, List.forall_mem_append,
      field_inImage_iff imageWord sizeWord, field_inImage_iff imageWord sizeWord, and_assoc]
    simp only [segment, forall_const]
    refine and_congr Iff.rfl (and_congr Iff.rfl ?_)
    by_cases passes : u32 (phOffset m (phdrAt m image i) + phFilesz m (phdrAt m image i)) ≤ size
    · rw [if_neg (by omega), List.forall_mem_append, List.forall_mem_append, field_inImage_iff imageWord sizeWord,
        field_inImage_iff imageWord sizeWord, bytesAt_inImage_iff imageWord sizeWord]
      have offsetWord : phOffset m (phdrAt m image i) < 2 ^ 32 := load32_lt _ _
      have contents : phFilesz m (phdrAt m image i) = 0 ∨
          u32 (phOffset m (phdrAt m image i)) + phFilesz m (phdrAt m image i) ≤ size ↔
          phOffset m (phdrAt m image i) + phFilesz m (phdrAt m image i) < 2 ^ 32 := by
        unfold u32 at passes ⊢
        omega
      rw [contents]
      exact ⟨fun all _ => ⟨all.1.1, all.2, all.1.2⟩, fun all => ⟨⟨(all passes).1, (all passes).2.2⟩, (all passes).2.1⟩⟩
    · rw [if_pos (by omega)]
      exact iff_of_true (by simp) fun below => absurd below passes
  · rw [if_pos segment]
    exact iff_of_true (by simp) fun load => absurd load segment

theorem headerSteps_iff {t : Nat × Bytes} :
    Relation.ReflTransGen (HeaderStep image size) (i, m) t ↔ t = (i, m) ∨ ∃ m', i < ehPhnum m image ∧
      loadHeader m image size (phdrAt m image i) = some m' ∧
      Relation.ReflTransGen (HeaderStep image size) (i + 1, m') t := by
  rw [Relation.ReflTransGen.cases_head_iff, eq_comm]
  refine or_congr Iff.rfl ⟨?_, ?_⟩
  · rintro ⟨⟨j, m'⟩, ⟨more, load, rfl⟩, steps⟩
    exact ⟨m', more, load, steps⟩
  · rintro ⟨m', more, load, steps⟩
    exact ⟨(i + 1, m'), ⟨more, load, rfl⟩, steps⟩

theorem elfHeaders_done (done : ¬ i < ehPhnum m image) :
    elfHeaders image size entryOut m i =
      ⟨if entryOut ≠ 0 then store32 m entryOut (ehEntry m image) else m, 0, bytesAt (image + 24) 4⟩ := by
  rw [elfHeaders, if_neg done]

theorem elfHeaders_rejected (more : i < ehPhnum m image) (load : loadHeader m image size (phdrAt m image i) = none) :
    elfHeaders image size entryOut m i = ⟨m, -1, headerReads m image size (phdrAt m image i)⟩ := by
  rw [elfHeaders, if_pos more, load]

theorem elfHeaders_next (more : i < ehPhnum m image)
    (load : loadHeader m image size (phdrAt m image i) = some m') :
    elfHeaders image size entryOut m i =
      (elfHeaders image size entryOut m' (i + 1)).reading (headerReads m image size (phdrAt m image i)) := by
  rw [elfHeaders, if_pos more, load]

/-- The loop reads inside the image exactly if each header it comes to fits. -/
theorem elfHeaders_inImage_iff (imageWord : image < 2 ^ 32) (sizeWord : size < 2 ^ 32) (room : 52 ≤ size)
    (m : Bytes) (i : Nat) :
    (∀ a ∈ (elfHeaders image size entryOut m i).reads, InImage image size a) ↔
      ∀ j m', Relation.ReflTransGen (HeaderStep image size) (i, m) (j, m') → j < ehPhnum m' image →
        HeaderFits m' image size j := by
  induction m, i using elfHeaders.induct image size with
  | case1 m i more load =>
    rw [elfHeaders_rejected more load, headerReads_inImage_iff imageWord sizeWord]
    refine ⟨fun fits j m' steps _ => ?_, fun all => all i m .refl more⟩
    rcases headerSteps_iff.mp steps with same | ⟨m', _, load', _⟩
    · cases same
      exact fits
    · rw [load] at load'
      cases load'
  | case2 m i more m' load ih =>
    rw [elfHeaders_next more load, ElfLoad.reading, List.forall_mem_append, ih,
      headerReads_inImage_iff imageWord sizeWord]
    refine ⟨fun fits j m'' steps => ?_, fun all => ⟨all i m .refl more, fun j m'' steps => ?_⟩⟩
    · rcases headerSteps_iff.mp steps with same | ⟨m₁, _, load', steps⟩
      · cases same
        exact fun _ => fits.1
      · cases load.symm.trans load'
        exact fits.2 j m'' steps
    · exact all j m'' (headerSteps_iff.mpr (Or.inr ⟨m', more, load, steps⟩))
  | case3 m i done =>
    rw [elfHeaders_done done, bytesAt_inImage_iff imageWord sizeWord]
    refine iff_of_true (Or.inr ?_) fun j m' steps more => ?_
    · rw [u32_of_lt (by omega)]
      omega
    · rcases headerSteps_iff.mp steps with same | ⟨_, more', _⟩
      · cases same
        exact absurd more done
      · exact absurd more' done

/-- What the loop returns it returns from each header it comes to. -/
theorem elfHeaders_ret {j : Nat} (steps : Relation.ReflTransGen (HeaderStep image size) (i, m) (j, m')) :
    (elfHeaders image size entryOut m i).ret = (elfHeaders image size entryOut m' j).ret := by
  generalize start : (i, m) = s at steps
  induction steps using Relation.ReflTransGen.head_induction_on generalizing i m with
  | refl =>
    cases start
    rfl
  | head step _ ih =>
    cases start
    obtain ⟨more, load, next⟩ := step
    rw [elfHeaders_next more load, ElfLoad.reading]
    exact ih (Prod.ext next.symm rfl)

theorem elfLoad_checked (checked : ElfChecked m image size) :
    elfLoad m image size entryOut =
      (elfHeaders image size entryOut m 0).reading (bytesAt image 4 ++ bytesAt (image + 28) 4 ++ bytesAt (image + 42) 4) := by
  rw [elfLoad, if_neg checked.1.1, if_neg (by simpa using checked.1.2)]
  exact if_neg (by have := checked.2; omega)

theorem elfHeader_inImage (imageWord : image < 2 ^ 32) (sizeWord : size < 2 ^ 32) (room : 52 ≤ size) {o n : Nat}
    (inside : o + n ≤ 52) : ∀ a ∈ bytesAt (image + o) n, InImage image size a := by
  rw [bytesAt_inImage_iff imageWord sizeWord, u32_of_lt (by omega)]
  omega

theorem elfLoad_inImage_iff (imageWord : image < 2 ^ 32) (sizeWord : size < 2 ^ 32) (room : 52 ≤ size) :
    (∀ a ∈ (elfLoad m image size entryOut).reads, InImage image size a) ↔
      ∀ i m', HeaderReached m image size i m' → HeaderFits m' image size i := by
  have magic := elfHeader_inImage imageWord sizeWord room (o := 0) (n := 4) (by omega)
  have checked : ∀ a ∈ bytesAt image 4 ++ bytesAt (image + 28) 4 ++ bytesAt (image + 42) 4, InImage image size a := by
    simp only [List.forall_mem_append]
    exact ⟨⟨magic, elfHeader_inImage imageWord sizeWord room (by omega)⟩,
      elfHeader_inImage imageWord sizeWord room (by omega)⟩
  by_cases accepted : ElfChecked m image size
  · rw [elfLoad_checked accepted, ElfLoad.reading, List.forall_mem_append,
      elfHeaders_inImage_iff imageWord sizeWord room]
    exact ⟨fun all i m' reached => all.2 i m' reached.2.1 reached.2.2,
      fun all => ⟨checked, fun i m' steps more => all i m' ⟨accepted, steps, more⟩⟩⟩
  · refine iff_of_true ?_ fun i m' reached => absurd reached.1 accepted
    unfold elfLoad
    by_cases header : image = 0 ∨ size < 52
    · rw [if_pos header]
      simp
    rw [if_neg header]
    by_cases elf : ehMagic m image = elfMagic
    · rw [if_neg (by simpa using elf)]
      rw [if_pos (by by_contra table; exact accepted ⟨⟨header, elf⟩, by omega⟩)]
      exact checked
    · rw [if_pos elf]
      exact magic

end

section Footprint
variable {m m' s s' : Bytes} {stored : Set Nat} {image size entryOut ph i : Nat}

theorem phdrAt_inStep (step : InStep m m' stored s s') (table : ∀ a ∈ bytesAt (image + 28) 4, m' a = m a)
    (sizes : ∀ a ∈ bytesAt (image + 42) 4, m' a = m a) (i : Nat) : phdrAt s' image i = phdrAt s image i := by
  have phoff : ehPhoff s' image = ehPhoff s image := step.load32_eq (k := 0) table (Nat.le_refl _)
  have entrySize : ehPhentsize s' image = ehPhentsize s image := step.load16_eq (k := 0) sizes (by decide)
  rw [phdrAt, phdrAt, phoff, entrySize]

theorem loadSegment_inStep (step : InStep m m' stored s s') (offset : ∀ a ∈ bytesAt (ph + 4) 4, m' a = m a)
    (filesz : ∀ a ∈ bytesAt (ph + 16) 4, m' a = m a) (vaddr : ∀ a ∈ bytesAt (ph + 8) 4, m' a = m a)
    (memsz : ∀ a ∈ bytesAt (ph + 20) 4, m' a = m a)
    (contents : ∀ a ∈ bytesAt (image + phOffset s ph) (phFilesz s ph), m' a = m a) :
    InStep m m' (stored ∪ {x | x ∈ segmentStores s image ph}) (loadSegment s image ph) (loadSegment s' image ph) := by
  have sameOffset : phOffset s' ph = phOffset s ph := step.load32_eq (k := 0) offset (Nat.le_refl _)
  have sameFilesz : phFilesz s' ph = phFilesz s ph := step.load32_eq (k := 0) filesz (Nat.le_refl _)
  have sameVaddr : phVaddr s' ph = phVaddr s ph := step.load32_eq (k := 0) vaddr (Nat.le_refl _)
  have source : ∀ a ∈ bytesAt (u32 (image + phOffset s ph)) (phFilesz s ph), m' a = m a := by
    rwa [← Nat.add_zero (u32 _), bytesAt_u32]
  have copied := step.memcpy (a := phVaddr s ph) source
  simp only [loadSegment, segmentStores, sameOffset, sameFilesz, sameVaddr]
  generalize memcpy s (phVaddr s ph) (u32 (image + phOffset s ph)) (phFilesz s ph) = t at copied ⊢
  generalize memcpy s' (phVaddr s ph) (u32 (image + phOffset s ph)) (phFilesz s ph) = t' at copied ⊢
  have laterFilesz : phFilesz t' ph = phFilesz t ph := copied.load32_eq (k := 0) filesz (Nat.le_refl _)
  have laterMemsz : phMemsz t' ph = phMemsz t ph := copied.load32_eq (k := 0) memsz (Nat.le_refl _)
  rw [laterFilesz, laterMemsz]
  by_cases longer : phMemsz t ph > phFilesz t ph
  · have zeros := copied.memset (a := u32 (phVaddr s ph + phFilesz t ph)) (n := phMemsz t ph - phFilesz t ph) 0
    have place := bytesAt_u32 (phVaddr s ph + phFilesz t ph) 0 (phMemsz t ph - phFilesz t ph)
    rw [Nat.add_zero, Nat.add_zero] at place
    rw [place, Set.union_assoc] at zeros
    rw [if_pos longer, if_pos longer, if_pos longer]
    simpa only [List.mem_append, Set.ofPred_or] using zeros
  · rw [if_neg longer, if_neg longer, if_neg longer, List.append_nil]
    exact copied

/-- A round of the loop from memories that agree on what it reads. -/
theorem loadHeader_inStep (step : InStep m m' stored s s')
    (agree : ∀ a ∈ headerReads s image size ph, m' a = m a) :
    headerReads s' image size ph = headerReads s image size ph ∧
      (loadHeader s image size ph = none ∧ loadHeader s' image size ph = none ∨
        ∃ t t', loadHeader s image size ph = some t ∧ loadHeader s' image size ph = some t' ∧
          InStep m m' (stored ∪ {x | x ∈ headerStores s image ph}) t t') := by
  unfold headerReads at agree
  rw [List.forall_mem_append] at agree
  obtain ⟨type, agree⟩ := agree
  have sameType : phType s' ph = phType s ph := step.load32_eq (k := 0) type (Nat.le_refl _)
  unfold headerReads loadHeader headerStores
  rw [sameType]
  by_cases segment : phType s ph = 1
  · rw [if_neg (by simpa using segment), List.forall_mem_append, List.forall_mem_append] at agree
    obtain ⟨⟨offset, filesz⟩, agree⟩ := agree
    have sameOffset : phOffset s' ph = phOffset s ph := step.load32_eq (k := 0) offset (Nat.le_refl _)
    have sameFilesz : phFilesz s' ph = phFilesz s ph := step.load32_eq (k := 0) filesz (Nat.le_refl _)
    simp only [segment, sameOffset, sameFilesz, ne_eq, not_true_eq_false, if_false, if_true, true_and]
    by_cases past : u32 (phOffset s ph + phFilesz s ph) > size
    · exact Or.inl ⟨if_pos past, if_pos past⟩
    · rw [if_neg past, List.forall_mem_append, List.forall_mem_append] at agree
      rw [if_neg past, if_neg past]
      exact Or.inr ⟨_, _, rfl, rfl, loadSegment_inStep step offset filesz agree.1.1 agree.2 agree.1.2⟩
  · simp only [segment, ne_eq, not_false_eq_true, if_true, if_false, true_and]
    exact Or.inr ⟨_, _, rfl, rfl, by simpa using step⟩

/-- The loop from memories that agree on what it reads and on the fields of the ELF header. -/
theorem elfHeaders_inStep (table : ∀ a ∈ bytesAt (image + 28) 4, m' a = m a)
    (sizes : ∀ a ∈ bytesAt (image + 42) 4, m' a = m a) (s s' : Bytes) (i : Nat) (step : InStep m m' stored s s')
    (agree : ∀ a ∈ (elfHeaders image size entryOut s i).reads, m' a = m a) :
    (elfHeaders image size entryOut s' i).ret = (elfHeaders image size entryOut s i).ret ∧
      (elfHeaders image size entryOut s' i).reads = (elfHeaders image size entryOut s i).reads ∧
      ∃ stored', stored ⊆ stored' ∧
        (∀ j t, Relation.ReflTransGen (HeaderStep image size) (i, s) (j, t) → j < ehPhnum t image →
          loadHeader t image size (phdrAt t image j) ≠ none →
          ∀ x ∈ headerStores t image (phdrAt t image j), x ∈ stored') ∧
        InStep m m' stored' (elfHeaders image size entryOut s i).mem (elfHeaders image size entryOut s' i).mem := by
  induction s, i using elfHeaders.induct image size generalizing s' stored with
  | case1 s i more load =>
    have count : ehPhnum s' image = ehPhnum s image := step.load16_eq (k := 2) sizes (Nat.le_refl _)
    have here := phdrAt_inStep step table sizes i
    rw [elfHeaders_rejected more load] at agree ⊢
    obtain ⟨reads, ⟨_, rejects⟩ | ⟨t, _, goes, _⟩⟩ := loadHeader_inStep step agree
    · rw [elfHeaders_rejected (by rwa [count]) (by rwa [here]), here]
      refine ⟨rfl, reads, stored, subset_rfl, fun j t steps _ goes => ?_, step⟩
      rcases headerSteps_iff.mp steps with same | ⟨_, _, goes, _⟩
      · cases same
        exact absurd load goes
      · exact absurd (goes.symm.trans load) nofun
    · exact absurd (goes.symm.trans load) nofun
  | case2 s i more t load ih =>
    have count : ehPhnum s' image = ehPhnum s image := step.load16_eq (k := 2) sizes (Nat.le_refl _)
    have here := phdrAt_inStep step table sizes i
    rw [elfHeaders_next more load, ElfLoad.reading, List.forall_mem_append] at agree
    obtain ⟨reads, ⟨rejects, _⟩ | ⟨u, t', goes, goes', round⟩⟩ := loadHeader_inStep step agree.1
    · exact absurd (load.symm.trans rejects) nofun
    cases goes.symm.trans load
    obtain ⟨ret, later, stored', more', rounds, mem⟩ := ih t' round agree.2
    rw [elfHeaders_next more load, elfHeaders_next (by rwa [count]) (by rwa [here]), here, ElfLoad.reading, ElfLoad.reading]
    refine ⟨ret, congrArg₂ (· ++ ·) reads later, stored', Set.subset_union_left.trans more', ?_, mem⟩
    intro j u steps further goes x stores
    rcases headerSteps_iff.mp steps with same | ⟨v, _, load', steps⟩
    · cases same
      exact more' (Or.inr stores)
    · cases load.symm.trans load'
      exact rounds j u steps further goes x stores
  | case3 s i done =>
    have count : ehPhnum s' image = ehPhnum s image := step.load16_eq (k := 2) sizes (Nat.le_refl _)
    rw [elfHeaders_done done] at agree ⊢
    rw [elfHeaders_done (by rwa [count])]
    have entry : ehEntry s' image = ehEntry s image := step.load32_eq (k := 0) agree (Nat.le_refl _)
    refine ⟨rfl, rfl, ?_⟩
    have none : ∀ j t, Relation.ReflTransGen (HeaderStep image size) (i, s) (j, t) → ¬ j < ehPhnum t image := by
      intro j t steps
      rcases headerSteps_iff.mp steps with same | ⟨_, more, _⟩
      · cases same
        exact done
      · exact absurd more done
    by_cases given : entryOut ≠ 0
    · obtain ⟨stored', more, after⟩ := step.store32 entryOut (ehEntry s image)
      refine ⟨stored', more, fun j t steps more => absurd more (none j t steps), ?_⟩
      rw [if_pos given, if_pos given, entry]
      exact after
    · rw [if_neg given, if_neg given]
      exact ⟨stored, subset_rfl, fun j t steps more => absurd more (none j t steps), step⟩

/-- A call that passes the checks in front of the loop. -/
theorem elfLoad_inStep (checked : ElfChecked m image size)
    (agree : ∀ a ∈ (elfLoad m image size entryOut).reads, m' a = m a) :
    (elfLoad m' image size entryOut).ret = (elfLoad m image size entryOut).ret ∧
      (elfLoad m' image size entryOut).reads = (elfLoad m image size entryOut).reads ∧
      ∃ stored, (∀ j t, Relation.ReflTransGen (HeaderStep image size) (0, m) (j, t) → j < ehPhnum t image →
          loadHeader t image size (phdrAt t image j) ≠ none →
          ∀ x ∈ headerStores t image (phdrAt t image j), x ∈ stored) ∧
        InStep m m' stored (elfLoad m image size entryOut).mem (elfLoad m' image size entryOut).mem := by
  rw [elfLoad_checked checked, ElfLoad.reading] at agree ⊢
  have start := InStep.start m m'
  obtain ⟨fields, loop⟩ := List.forall_mem_append.mp agree
  obtain ⟨⟨magic, table⟩, sizes⟩ : ((∀ a ∈ bytesAt image 4, m' a = m a) ∧ ∀ a ∈ bytesAt (image + 28) 4, m' a = m a) ∧
      ∀ a ∈ bytesAt (image + 42) 4, m' a = m a := by simpa only [List.forall_mem_append] using fields
  have sameMagic : ehMagic m' image = ehMagic m image := start.load32_eq (k := 0) magic (Nat.le_refl _)
  have phoff : ehPhoff m' image = ehPhoff m image := start.load32_eq (k := 0) table (Nat.le_refl _)
  have entrySize : ehPhentsize m' image = ehPhentsize m image := start.load16_eq (k := 0) sizes (by decide)
  have count : ehPhnum m' image = ehPhnum m image := start.load16_eq (k := 2) sizes (Nat.le_refl _)
  have checked' : ElfChecked m' image size := by
    unfold ElfChecked
    rwa [sameMagic, phoff, entrySize, count]
  rw [elfLoad_checked checked', ElfLoad.reading]
  obtain ⟨ret, reads, stored, _, rounds, mem⟩ := elfHeaders_inStep table sizes m m' 0 start loop
  exact ⟨ret, congrArg (_ ++ ·) reads, stored, rounds, mem⟩

theorem elfLoad_settledByReads (m : Bytes) (image size entryOut : Nat) : SettledByReads m image size entryOut := by
  intro m' agree
  by_cases checked : ElfChecked m image size
  · obtain ⟨ret, reads, stored, _, mem⟩ := elfLoad_inStep checked agree
    exact ⟨ret, reads, stored, mem⟩
  have start := InStep.start m m'
  unfold elfLoad at agree ⊢
  by_cases header : image = 0 ∨ size < 52
  · rw [if_pos header, if_pos header]
    exact ⟨rfl, rfl, ∅, start⟩
  rw [if_neg header] at agree
  rw [if_neg header, if_neg header]
  by_cases elf : ehMagic m image = elfMagic
  · have long : u32 (ehPhoff m image + ehPhnum m image * ehPhentsize m image) > size := by
      by_contra table
      exact checked ⟨⟨header, elf⟩, by omega⟩
    have known : ¬ ehMagic m image ≠ elfMagic := not_not.mpr elf
    rw [if_neg known] at agree
    dsimp only at agree ⊢
    rw [if_pos long, List.forall_mem_append, List.forall_mem_append] at agree
    obtain ⟨⟨magic, table⟩, sizes⟩ := agree
    have sameMagic : ehMagic m' image = ehMagic m image := start.load32_eq (k := 0) magic (Nat.le_refl _)
    have phoff : ehPhoff m' image = ehPhoff m image := start.load32_eq (k := 0) table (Nat.le_refl _)
    have entrySize : ehPhentsize m' image = ehPhentsize m image := start.load16_eq (k := 0) sizes (by decide)
    have count : ehPhnum m' image = ehPhnum m image := start.load16_eq (k := 2) sizes (Nat.le_refl _)
    rw [sameMagic, if_neg known, if_neg known, phoff, entrySize, count, if_pos long, if_pos long]
    exact ⟨rfl, rfl, ∅, start⟩
  · rw [if_pos elf] at agree
    have magic : ehMagic m' image = ehMagic m image := start.load32_eq (k := 0) agree (Nat.le_refl _)
    rw [magic, if_pos elf, if_pos elf]
    exact ⟨rfl, rfl, ∅, start⟩

end Footprint

section
variable {m m' : Bytes} {image size entryOut i : Nat}

theorem headerReads_of_accepted {ph : Nat} (load : loadHeader m image size ph = some m') :
    headerReads m image size ph = headerWants m image ph := by
  unfold loadHeader at load
  unfold headerReads headerWants
  by_cases segment : phType m ph = 1
  · rw [if_neg (by simpa using segment)] at load ⊢
    by_cases passes : u32 (phOffset m ph + phFilesz m ph) > size
    · rw [if_pos passes] at load
      cases load
    · rw [if_neg passes, if_neg (by simpa using segment)]
  · rw [if_pos segment, if_pos segment]

/-- The reads the call makes settle what it does. They lie in the image, and an image that asks
for a byte outside is rejected, exactly if each header the loop comes to fits. -/
theorem elf_load_reads_inside_iff (imageWord : image < 2 ^ 32) (sizeWord : size < 2 ^ 32) (room : 52 ≤ size) :
    SettledByReads m image size entryOut ∧
      (((∀ a ∈ (elfLoad m image size entryOut).reads, InImage image size a) ∧
        ∀ i m', HeaderReached m image size i m' →
          (∃ a ∈ headerWants m' image (phdrAt m' image i), ¬ InImage image size a) →
          (elfLoad m image size entryOut).ret = -1) ↔
        ∀ i m', HeaderReached m image size i m' → HeaderFits m' image size i) := by
  refine ⟨elfLoad_settledByReads m image size entryOut, ?_⟩
  rw [elfLoad_inImage_iff imageWord sizeWord room]
  refine ⟨And.left, fun fits => ⟨fits, ?_⟩⟩
  rintro i m' reached ⟨a, wanted, outside⟩
  rw [elfLoad_checked reached.1, ElfLoad.reading]
  refine (elfHeaders_ret reached.2.1).trans ?_
  cases load : loadHeader m' image size (phdrAt m' image i) with
  | none => rw [elfHeaders_rejected reached.2.2 load]
  | some m'' =>
    rw [← headerReads_of_accepted load] at wanted
    exact absurd ((headerReads_inImage_iff imageWord sizeWord).mpr (fits i m' reached) a wanted) outside

end

/-- An image at `0x100000` with one header of type `PT_LOAD`, in memory that is zero
otherwise. -/
def sampleElf (offset filesz memsz : Nat) : Bytes :=
  let header := store16 (store16 (store32 (store32 (store32 (fun _ => 0) 0x100000 elfMagic) 0x100018 0x200000)
    0x10001C 52) 0x10002A 32) 0x10002C 1
  store32 (store32 (store32 (store32 (store32 header 0x100034 1) 0x100038 offset) 0x10003C 0x200000)
    0x100044 filesz) 0x100048 memsz

/-- On an image of 84 bytes, the sum of the offset and the length wraps to 4. -/
theorem elf_load_reads_before_image :
    ¬ ((∀ a ∈ (elfLoad (sampleElf 0xFFFFFFFC 8 8) 0x100000 84 0).reads, InImage 0x100000 84 a) ∧
      ∀ i m', HeaderReached (sampleElf 0xFFFFFFFC 8 8) 0x100000 84 i m' →
        (∃ a ∈ headerWants m' 0x100000 (phdrAt m' 0x100000 i), ¬ InImage 0x100000 84 a) →
        (elfLoad (sampleElf 0xFFFFFFFC 8 8) 0x100000 84 0).ret = -1) := by
  intro claimed
  have checked : ElfChecked (sampleElf 0xFFFFFFFC 8 8) 0x100000 84 := by
    unfold ElfChecked
    decide +kernel
  have more : 0 < ehPhnum (sampleElf 0xFFFFFFFC 8 8) 0x100000 := by decide +kernel
  have fits := (elfLoad_inImage_iff (by decide) (by decide) (by decide)).mp claimed.1 0 _ ⟨checked, .refl, more⟩
  revert fits
  unfold HeaderFits
  decide +kernel

/-- The loader reads inside an image whose only segment ends with the image. -/
theorem elf_load_reads_inside_sampleElf :
    (∀ a ∈ (elfLoad (sampleElf 84 4 8) 0x100000 92 0).reads, InImage 0x100000 92 a) ∧
      SettledByReads (sampleElf 84 4 8) 0x100000 92 0 := by
  obtain ⟨settled, inside⟩ := elf_load_reads_inside_iff (m := sampleElf 84 4 8)
    (show 0x100000 < 2 ^ 32 by decide) (show 92 < 2 ^ 32 by decide) (by decide)
  refine ⟨(inside.mpr ?_).1, settled⟩
  rintro i m' ⟨_, steps, more⟩
  have first : HeaderFits (sampleElf 84 4 8) 0x100000 92 0 := by
    unfold HeaderFits
    decide +kernel
  rcases headerSteps_iff.mp steps with same | ⟨m₁, _, load, later⟩
  · cases same
    exact first
  · have count : (loadHeader (sampleElf 84 4 8) 0x100000 92 (phdrAt (sampleElf 84 4 8) 0x100000 0)).map
        (fun m => ehPhnum m 0x100000) = some 1 := by decide +kernel
    rw [load, Option.map_some, Option.some.injEq] at count
    rcases headerSteps_iff.mp later with same | ⟨_, further, _⟩
    · cases same
      omega
    · omega

end LearningOS
