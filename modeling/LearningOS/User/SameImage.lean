import LearningOS.User.ElfBounds

namespace LearningOS
open ByteStore

/-- The memories hold the same image. -/
def SameImage (image size : Nat) (m m' : Bytes) : Prop := ∀ o, o < size → m' (u32 (image + o)) = m (u32 (image + o))

namespace SameImage
variable {m m' : Bytes} {image size o k i : Nat}

theorem wrapped_eq (same : SameImage image size m m') (inside : u32 o < size) :
    wrapped m' (image + o) = wrapped m (image + o) := by
  have byte := same (u32 o) inside
  rwa [show u32 (image + u32 o) = u32 (image + o) by unfold u32; omega] at byte

theorem load16_eq (same : SameImage image size m m') (word : size < 2 ^ 32) (inside : u32 o + 2 ≤ size) :
    load16 (wrapped m') (image + o) = load16 (wrapped m) (image + o) := by
  refine load16_congr fun x lower upper => ?_
  rw [show x = image + (x - image) by omega]
  refine same.wrapped_eq ?_
  unfold u32 at inside ⊢
  omega

theorem load32_eq (same : SameImage image size m m') (word : size < 2 ^ 32) (inside : u32 o + 4 ≤ size) :
    load32 (wrapped m') (image + o) = load32 (wrapped m) (image + o) := by
  refine load32_congr fun x lower upper => ?_
  rw [show x = image + (x - image) by omega]
  refine same.wrapped_eq ?_
  unfold u32 at inside ⊢
  omega

theorem ehPhoff_eq (same : SameImage image size m m') (word : size < 2 ^ 32) (header : 52 ≤ size) :
    ehPhoff m' image = ehPhoff m image := same.load32_eq word (by rw [u32_of_lt (by omega)]; omega)

theorem ehPhentsize_eq (same : SameImage image size m m') (word : size < 2 ^ 32) (header : 52 ≤ size) :
    ehPhentsize m' image = ehPhentsize m image := same.load16_eq word (by rw [u32_of_lt (by omega)]; omega)

theorem ehPhnum_eq (same : SameImage image size m m') (word : size < 2 ^ 32) (header : 52 ≤ size) :
    ehPhnum m' image = ehPhnum m image := same.load16_eq word (by rw [u32_of_lt (by omega)]; omega)

theorem ehMagic_eq (same : SameImage image size m m') (word : size < 2 ^ 32) (header : 52 ≤ size) :
    ehMagic m' image = ehMagic m image := same.load32_eq (o := 0) word (by rw [u32_of_lt (by omega)]; omega)

theorem ehEntry_eq (same : SameImage image size m m') (word : size < 2 ^ 32) (header : 52 ≤ size) :
    ehEntry m' image = ehEntry m image := same.load32_eq word (by rw [u32_of_lt (by omega)]; omega)

theorem phdrOffset_eq (same : SameImage image size m m') (word : size < 2 ^ 32) (header : 52 ≤ size) (i : Nat) :
    phdrOffset m' image i = phdrOffset m image i := by
  rw [phdrOffset, phdrOffset, same.ehPhoff_eq word header, same.ehPhentsize_eq word header]

theorem phdrAt_eq (same : SameImage image size m m') (word : size < 2 ^ 32) (header : 52 ≤ size) (i : Nat) :
    phdrAt m' image i = phdrAt m image i := by
  rw [LearningOS.phdrAt_eq, LearningOS.phdrAt_eq, same.phdrOffset_eq word header]

/-- A field of a header that lies in the image. -/
theorem field_eq (same : SameImage image size m m') (word : size < 2 ^ 32)
    (inside : u32 (phdrOffset m image i + k) + 4 ≤ size) :
    load32 (wrapped m') (phdrAt m image i + k) = load32 (wrapped m) (phdrAt m image i + k) := by
  have whole (n : Bytes) : load32 (wrapped n) (phdrAt m image i + k) =
      load32 (wrapped n) (image + (phdrOffset m image i + k)) := by
    refine load32_wrapped_congr ?_
    rw [LearningOS.phdrAt_eq]
    unfold u32
    omega
  rw [whole, whole, same.load32_eq word inside]

theorem symm (same : SameImage image size m m') : SameImage image size m' m := fun o inside => (same o inside).symm

/-- What a header that fits says is the same in both memories. -/
theorem fits (same : SameImage image size m m') (word : size < 2 ^ 32) (header : 52 ≤ size)
    (fits : HeaderFits m image size i) : HeaderFits m' image size i := by
  unfold HeaderFits at fits ⊢
  rw [same.phdrOffset_eq word header, same.phdrAt_eq word header]
  have type : phType m' (phdrAt m image i) = phType m (phdrAt m image i) := same.field_eq (k := 0) word fits.1
  refine ⟨fits.1, fun load => ?_⟩
  obtain ⟨offsetIn, fileszIn, passed⟩ := fits.2 (type.symm.trans load)
  have offset : phOffset m' (phdrAt m image i) = phOffset m (phdrAt m image i) := same.field_eq word offsetIn
  have filesz : phFilesz m' (phdrAt m image i) = phFilesz m (phdrAt m image i) := same.field_eq word fileszIn
  rw [offset, filesz]
  exact ⟨offsetIn, fileszIn, passed⟩

end SameImage

section Untouched
variable {m m' m'' : Bytes} {image size entryOut i : Nat}

/-- The segment of the header `i` is loaded: it is of type `PT_LOAD` and passes the check. -/
def Loaded (m : Bytes) (image size i : Nat) : Prop :=
  phType m (phdrAt m image i) = 1 ∧ u32 (phOffset m (phdrAt m image i) + phFilesz m (phdrAt m image i)) ≤ size

/-- No segment that is loaded from a header that fits is put over the image. -/
def Untouched (m : Bytes) (image size : Nat) : Prop :=
  ∀ i, i < ehPhnum m image → HeaderFits m image size i → Loaded m image size i →
    ∀ j, j < phFilesz m (phdrAt m image i) ∨ j < phMemsz m (phdrAt m image i) →
      ¬ InImage image size (u32 (phVaddr m (phdrAt m image i) + j))

/-- A segment that is put beside the image leaves it. -/
theorem loadSegment_same (word : size < 2 ^ 32) (imageWord : image < 2 ^ 32) (header : 52 ≤ size)
    (fits : HeaderFits m image size i) (loaded : Loaded m image size i)
    (beside : ∀ j, j < phFilesz m (phdrAt m image i) ∨ j < phMemsz m (phdrAt m image i) →
      ¬ InImage image size (u32 (phVaddr m (phdrAt m image i) + j))) :
    SameImage image size m (loadSegment m image (phdrAt m image i)) := by
  have away {o j : Nat} (inside : o < size)
      (within : j < phFilesz m (phdrAt m image i) ∨ j < phMemsz m (phdrAt m image i)) :
      u32 (image + o) ≠ u32 (phVaddr m (phdrAt m image i) + j) := by
    intro same
    refine beside j within ?_
    rw [← same, InImage, sub32_u32_add imageWord, u32_of_lt (by omega)]
    exact inside
  obtain ⟨m₁, made⟩ : ∃ m₁, m₁ = memcpy m (phVaddr m (phdrAt m image i))
      (u32 (image + phOffset m (phdrAt m image i))) (phFilesz m (phdrAt m image i)) := ⟨_, rfl⟩
  have copied : SameImage image size m m₁ := by
    intro o inside
    rw [made]
    exact memcpy_outside fun j below => away inside (Or.inl below)
  obtain ⟨_, fileszIn, passed⟩ := fits.2 loaded.1
  have filesz : phFilesz m₁ (phdrAt m image i) = phFilesz m (phdrAt m image i) := copied.field_eq word fileszIn
  have memsz : phMemsz m₁ (phdrAt m image i) = phMemsz m (phdrAt m image i) :=
    copied.field_eq word (passed loaded.2).2.1
  intro o inside
  simp only [loadSegment, ← made, filesz, memsz]
  split
  · refine (memset_outside fun j below => ?_).trans (copied o inside)
    have target := away (j := phFilesz m (phdrAt m image i) + j) inside (Or.inr (by omega))
    rwa [← Nat.add_assoc, show u32 (phVaddr m (phdrAt m image i) + phFilesz m (phdrAt m image i) + j) =
      u32 (u32 (phVaddr m (phdrAt m image i) + phFilesz m (phdrAt m image i)) + j) by unfold u32; omega] at target
  · exact copied o inside

/-- What memories with the same image say of a header that fits. -/
theorem SameImage.loaded_iff (same : SameImage image size m m') (word : size < 2 ^ 32) (header : 52 ≤ size)
    (fits : HeaderFits m image size i) :
    phType m' (phdrAt m image i) = phType m (phdrAt m image i) ∧
      (Loaded m' image size i ↔ Loaded m image size i) ∧
      (Loaded m image size i → phVaddr m' (phdrAt m image i) = phVaddr m (phdrAt m image i) ∧
        phFilesz m' (phdrAt m image i) = phFilesz m (phdrAt m image i) ∧
        phMemsz m' (phdrAt m image i) = phMemsz m (phdrAt m image i)) := by
  have type : phType m' (phdrAt m image i) = phType m (phdrAt m image i) := same.field_eq (k := 0) word fits.1
  refine ⟨type, ?_, fun loaded => ?_⟩
  · unfold Loaded
    rw [same.phdrAt_eq word header, type]
    refine and_congr_right fun load => ?_
    obtain ⟨offsetIn, fileszIn, _⟩ := fits.2 load
    rw [show phOffset m' (phdrAt m image i) = phOffset m (phdrAt m image i) from same.field_eq word offsetIn,
      show phFilesz m' (phdrAt m image i) = phFilesz m (phdrAt m image i) from same.field_eq word fileszIn]
  · obtain ⟨_, fileszIn, passed⟩ := fits.2 loaded.1
    obtain ⟨vaddrIn, memszIn, _⟩ := passed loaded.2
    exact ⟨same.field_eq word vaddrIn, same.field_eq word fileszIn, same.field_eq word memszIn⟩

theorem loadHeader_eq_none_iff :
    loadHeader m image size (phdrAt m image i) = none ↔ phType m (phdrAt m image i) = 1 ∧ ¬ Loaded m image size i := by
  unfold loadHeader Loaded
  by_cases load : phType m (phdrAt m image i) = 1
  · by_cases passes : u32 (phOffset m (phdrAt m image i) + phFilesz m (phdrAt m image i)) ≤ size
    · simp [load, Nat.not_lt.mpr passes, passes]
    · simp [load, Nat.lt_of_not_le passes, passes]
  · simp [load]

theorem loadHeader_eq_some (goes : loadHeader m image size (phdrAt m image i) = some m') :
    m' = m ∨ Loaded m image size i ∧ m' = loadSegment m image (phdrAt m image i) := by
  unfold loadHeader at goes
  by_cases load : phType m (phdrAt m image i) = 1
  · rw [if_neg (by simpa using load)] at goes
    by_cases passes : u32 (phOffset m (phdrAt m image i) + phFilesz m (phdrAt m image i)) ≤ size
    · rw [if_neg (by omega)] at goes
      exact Or.inr ⟨⟨load, passes⟩, (Option.some.inj goes).symm⟩
    · rw [if_pos (by omega)] at goes
      cases goes
  · rw [if_pos load] at goes
    exact Or.inl (Option.some.inj goes).symm

/-- One round of the loop over an image no segment is put over. -/
theorem SameImage.loadHeader (same : SameImage image size m m') (word : size < 2 ^ 32) (imageWord : image < 2 ^ 32)
    (header : 52 ≤ size) (untouched : Untouched m image size) (more : i < ehPhnum m image)
    (fits : HeaderFits m image size i) :
    (loadHeader m' image size (phdrAt m' image i) = none ↔ loadHeader m image size (phdrAt m image i) = none) ∧
      ∀ m'', loadHeader m' image size (phdrAt m' image i) = some m'' → SameImage image size m m'' := by
  obtain ⟨type, loaded, fields⟩ := same.loaded_iff word header fits
  constructor
  · rw [loadHeader_eq_none_iff, loadHeader_eq_none_iff, same.phdrAt_eq word header, type, loaded]
  · intro m'' goes
    rcases loadHeader_eq_some goes with rfl | ⟨load, rfl⟩
    · exact same
    have kept := loadSegment_same word imageWord header (same.fits word header fits) load (by
      obtain ⟨vaddr, filesz, memsz⟩ := fields (loaded.mp load)
      rw [same.phdrAt_eq word header, vaddr, filesz, memsz]
      exact untouched i more fits (loaded.mp load))
    exact fun o inside => (kept o inside).trans (same o inside)

/-- The loop comes to a header past others that go on, over the same image. -/
theorem Untouched.reached (untouched : Untouched m image size) (word : size < 2 ^ 32) (imageWord : image < 2 ^ 32)
    (header : 52 ≤ size) (fits : ∀ i, i < ehPhnum m image →
      (∀ j, j < i → loadHeader m image size (phdrAt m image j) ≠ none) → HeaderFits m image size i)
    {s : Nat × Bytes} (steps : Relation.ReflTransGen (HeaderStep image size) (0, m) s) :
    SameImage image size m s.2 ∧ ∀ j, j < s.1 → loadHeader m image size (phdrAt m image j) ≠ none := by
  induction steps with
  | refl => exact ⟨fun _ _ => rfl, fun j below => absurd below (Nat.not_lt_zero j)⟩
  | @tail b c _ step ih =>
    obtain ⟨more, goes, next⟩ := step
    obtain ⟨same, passed⟩ := ih
    rw [same.ehPhnum_eq word header] at more
    obtain ⟨rejects, kept⟩ := same.loadHeader word imageWord header untouched more (fits b.1 more passed)
    refine ⟨kept c.2 goes, fun j below => ?_⟩
    rcases Nat.lt_or_ge j b.1 with before | last
    · exact passed j before
    · rw [show j = b.1 by omega]
      intro none
      rw [rejects.mpr none] at goes
      cases goes

/-- For an image no segment is put over, the condition is one on the image alone. -/
theorem elfLoad_inImage_iff_of_untouched (imageWord : image < 2 ^ 32) (word : size < 2 ^ 32) (header : 52 ≤ size)
    (untouched : Untouched m image size) :
    (∀ a ∈ (elfLoad m image size entryOut).reads, InImage image size a) ↔
      (ElfChecked m image size → ∀ i, i < ehPhnum m image →
        (∀ j, j < i → loadHeader m image size (phdrAt m image j) ≠ none) → HeaderFits m image size i) := by
  rw [elfLoad_inImage_iff imageWord word header]
  constructor
  · intro all checked
    have reach : ∀ i, i ≤ ehPhnum m image → (∀ j, j < i → loadHeader m image size (phdrAt m image j) ≠ none) →
        ∃ m', Relation.ReflTransGen (HeaderStep image size) (0, m) (i, m') ∧ SameImage image size m m' := by
      intro i within passed
      induction i with
      | zero => exact ⟨m, .refl, fun _ _ => rfl⟩
      | succ i ih =>
        obtain ⟨m', steps, same⟩ := ih (by omega) fun j below => passed j (by omega)
        have more : i < ehPhnum m' image := by rw [same.ehPhnum_eq word header]; omega
        have fits := same.symm.fits word header (all i m' ⟨checked, steps, more⟩)
        obtain ⟨rejects, kept⟩ := same.loadHeader word imageWord header untouched (by omega) fits
        obtain ⟨m'', goes⟩ := Option.ne_none_iff_exists'.mp (mt rejects.mp (passed i (by omega)))
        exact ⟨m'', steps.tail ⟨more, goes, rfl⟩, kept m'' goes⟩
    intro i more passed
    obtain ⟨m', steps, same⟩ := reach i (by omega) passed
    exact same.symm.fits word header (all i m' ⟨checked, steps, by rwa [same.ehPhnum_eq word header]⟩)
  · rintro fits i m' ⟨checked, steps, more⟩
    obtain ⟨same, passed⟩ := untouched.reached word imageWord header (fits checked) steps
    rw [same.ehPhnum_eq word header] at more
    exact same.fits word header (fits checked i more passed)

end Untouched

end LearningOS
