import LearningOS.User.SameImage

namespace LearningOS
open ByteStore

/-- The header `i` of the table has neither contents nor zeros to load. -/
def StoresNothing (m : Bytes) (image i : Nat) : Prop :=
  phType m (phdrAt m image i) = 1 → phFilesz m (phdrAt m image i) = 0 ∧ phMemsz m (phdrAt m image i) = 0

/-- In front of a header that the loop comes to and rejects, no header has anything to load. -/
def NothingInFront (m : Bytes) (image size : Nat) : Prop :=
  ∀ i m', HeaderReached m image size i m' → loadHeader m' image size (phdrAt m' image i) = none →
    ∀ j, j < i → StoresNothing m image j

section
variable {m m' : Bytes} {image size entryOut i x : Nat} {s t : Nat × Bytes}

theorem loadSegment_outside {ph : Nat} (outside : x ∉ segmentStores m image ph) : loadSegment m image ph x = m x := by
  simp only [segmentStores, List.mem_append, not_or] at outside
  obtain ⟨offContents, offZeros⟩ := outside
  have copied : memcpy m (phVaddr m ph) (u32 (image + phOffset m ph)) (phFilesz m ph) x = m x :=
    memcpy_outside fun j below same => offContents (mem_bytesAt.mpr ⟨j, below, same⟩)
  simp only [loadSegment]
  split
  · rename_i longer
    rw [if_pos longer] at offZeros
    refine (memset_outside fun j below same => offZeros (mem_bytesAt.mpr ⟨j, below, same.trans ?_⟩)).trans copied
    unfold u32
    omega
  · exact copied

theorem headerStores_nothing (nothing : StoresNothing m image i) : headerStores m image (phdrAt m image i) = [] := by
  unfold headerStores
  by_cases load : phType m (phdrAt m image i) = 1
  · obtain ⟨filesz, memsz⟩ := nothing load
    have copied : memcpy m (phVaddr m (phdrAt m image i)) (u32 (image + phOffset m (phdrAt m image i))) 0 = m := rfl
    rw [if_pos load]
    simp only [segmentStores, filesz, copied, memsz, Nat.lt_irrefl, gt_iff_lt, if_false]
    rfl
  · exact if_neg load

/-- A header with something to load stores a byte to the start of its segment. -/
theorem headerStores_something (stores : ¬ StoresNothing m image i) :
    phType m (phdrAt m image i) = 1 ∧
      (0 < phFilesz m (phdrAt m image i) ∨ 0 < phMemsz m (phdrAt m image i)) ∧
      u32 (phVaddr m (phdrAt m image i)) ∈ headerStores m image (phdrAt m image i) := by
  unfold StoresNothing at stores
  push Not at stores
  obtain ⟨load, stores⟩ := stores
  refine ⟨load, by omega, ?_⟩
  rw [headerStores, if_pos load]
  simp only [segmentStores, List.mem_append]
  by_cases contents : phFilesz m (phdrAt m image i) = 0
  · have copied : memcpy m (phVaddr m (phdrAt m image i)) (u32 (image + phOffset m (phdrAt m image i))) 0 = m := rfl
    rw [contents, copied, if_pos (by have := stores contents; omega), contents]
    exact Or.inr (mem_bytesAt.mpr ⟨0, by have := stores contents; omega, rfl⟩)
  · exact Or.inl (mem_bytesAt.mpr ⟨0, by omega, rfl⟩)

theorem HeaderStep.outside (step : HeaderStep image size s t)
    (outside : x ∉ headerStores s.2 image (phdrAt s.2 image s.1)) : t.2 x = s.2 x := by
  rcases loadHeader_eq_some step.2.1 with same | ⟨loaded, made⟩
  · rw [same]
  · rw [headerStores, if_pos loaded.1] at outside
    rw [made]
    exact loadSegment_outside outside

/-- Past headers with nothing to load the memory is that of the call. -/
theorem headerSteps_nothing (steps : Relation.ReflTransGen (HeaderStep image size) (0, m) s)
    (nothing : ∀ j, j < s.1 → StoresNothing m image j) : s.2 = m := by
  induction steps with
  | refl => rfl
  | @tail b c _ step ih =>
    have next : c.1 = b.1 + 1 := step.2.2
    have same := ih fun j below => nothing j (by omega)
    have none : headerStores b.2 image (phdrAt b.2 image b.1) = [] := by
      rw [same]
      exact headerStores_nothing (nothing b.1 (by omega))
    funext x
    rw [step.outside (by rw [none]; exact List.not_mem_nil), same]

/-- A way of the loop goes through each round in between. -/
theorem headerSteps_through {s u : Nat × Bytes} (steps : Relation.ReflTransGen (HeaderStep image size) s u) {j : Nat}
    (from_ : s.1 ≤ j) (below : j < u.1) :
    ∃ n t, Relation.ReflTransGen (HeaderStep image size) s (j, n) ∧ HeaderStep image size (j, n) t := by
  induction steps with
  | refl => omega
  | @tail b c before step ih =>
    have next : c.1 = b.1 + 1 := step.2.2
    by_cases last : j < b.1
    · exact ih last
    · obtain rfl : j = b.1 := by omega
      exact ⟨b.2, c, before, step⟩

/-- Headers with nothing to load in front of one that is rejected. -/
theorem nothingInFront_of_first {n : Nat} (nothing : ∀ j, j < n → StoresNothing m image j)
    (refused : loadHeader m image size (phdrAt m image n) = none) : NothingInFront m image size := by
  intro i m' reached _ j below
  by_cases front : j < n
  · exact nothing j front
  · obtain ⟨m'', t, before, step⟩ := headerSteps_through reached.2.1 (Nat.zero_le n) (show n < i by omega)
    obtain rfl : m'' = m := headerSteps_nothing before nothing
    obtain ⟨_, goes, _⟩ := step
    rw [refused] at goes
    simp at goes

/-- The loop that returns -1 has come to a header it rejects, and leaves the memory as it is
there. -/
theorem elfHeaders_ret_neg (m : Bytes) (i : Nat) (rejected : (elfHeaders image size entryOut m i).ret = -1) :
    ∃ j m', Relation.ReflTransGen (HeaderStep image size) (i, m) (j, m') ∧ j < ehPhnum m' image ∧
      loadHeader m' image size (phdrAt m' image j) = none ∧ (elfHeaders image size entryOut m i).mem = m' := by
  induction m, i using elfHeaders.induct image size with
  | case1 m i more load =>
    exact ⟨i, m, .refl, more, load, by rw [elfHeaders_rejected more load]⟩
  | case2 m i more m' load ih =>
    rw [elfHeaders_next more load, ElfLoad.reading] at rejected ⊢
    obtain ⟨j, m'', steps, further, refused, mem⟩ := ih rejected
    exact ⟨j, m'', headerSteps_iff.mpr (Or.inr ⟨m', more, load, steps⟩), further, refused, mem⟩
  | case3 m i done =>
    rw [elfHeaders_done done] at rejected
    cases rejected

theorem elfHeaders_mem_of_rejected {j : Nat} (steps : Relation.ReflTransGen (HeaderStep image size) (i, m) (j, m'))
    (more : j < ehPhnum m' image) (load : loadHeader m' image size (phdrAt m' image j) = none) :
    (elfHeaders image size entryOut m i).ret = -1 ∧ (elfHeaders image size entryOut m i).mem = m' := by
  generalize start : (i, m) = s at steps
  induction steps using Relation.ReflTransGen.head_induction_on generalizing i m with
  | refl =>
    cases start
    rw [elfHeaders_rejected more load]
    exact ⟨rfl, rfl⟩
  | head step _ ih =>
    cases start
    obtain ⟨before, goes, next⟩ := step
    rw [elfHeaders_next before goes, ElfLoad.reading]
    exact ih (Prod.ext next.symm rfl)

theorem elfLoad_unchecked (unchecked : ¬ ElfChecked m image size) : (elfLoad m image size entryOut).mem = m := by
  unfold elfLoad
  by_cases header : image = 0 ∨ size < 52
  · rw [if_pos header]
  rw [if_neg header]
  by_cases elf : ehMagic m image = elfMagic
  · rw [if_neg (by simpa using elf)]
    exact congrArg ElfLoad.mem (if_pos (by by_contra table; exact unchecked ⟨⟨header, elf⟩, by omega⟩))
  · rw [if_pos elf]

/-- The memory of a rejected image is the one in which the loop comes to the header it
rejects. -/
theorem elfLoad_rejected_iff :
    ((elfLoad m image size entryOut).ret = -1 → (elfLoad m image size entryOut).mem = m) ↔
      ∀ i m', HeaderReached m image size i m' → loadHeader m' image size (phdrAt m' image i) = none → m' = m := by
  by_cases checked : ElfChecked m image size
  · rw [elfLoad_checked checked, ElfLoad.reading]
    constructor
    · intro kept i m' reached load
      obtain ⟨_, steps, more⟩ := reached
      obtain ⟨ret, mem⟩ := elfHeaders_mem_of_rejected steps more load
      exact mem.symm.trans (kept ret)
    · intro all rejected
      obtain ⟨j, m', steps, more, load, mem⟩ := elfHeaders_ret_neg m 0 rejected
      exact mem.trans (all j m' ⟨checked, steps, more⟩ load)
  · exact iff_of_true (fun _ => elfLoad_unchecked checked) fun i m' reached => absurd reached.1 checked

/-- From memories that hold an image whose headers fit, with segments put beside it: if a
header in front of the rejected one has something to load, one of these memories changes. -/
theorem nothingInFront_of_untouched (imageWord : image < 2 ^ 32) (word : size < 2 ^ 32) (header : 52 ≤ size)
    (beside : Untouched m image size) (fits : ∀ i, i < ehPhnum m image → HeaderFits m image size i)
    (kept : ∀ m₂, SameImage image size m m₂ →
      (elfLoad m₂ image size entryOut).ret = -1 → (elfLoad m₂ image size entryOut).mem = m₂) :
    NothingInFront m image size := by
  rintro i m' ⟨checked, steps, more⟩ load j below
  by_contra stores
  have ret : (elfHeaders image size entryOut m 0).ret = -1 := (elfHeaders_mem_of_rejected steps more load).1
  obtain ⟨n, t, here, further, goes, _⟩ := headerSteps_through steps (Nat.zero_le j) below
  -- the header reads the same from the image in the memory of its round
  obtain ⟨same, _⟩ := beside.reached word imageWord header (fun i more _ => fits i more) here
  have count : j < ehPhnum m image := by rwa [← same.ehPhnum_eq word header]
  obtain ⟨_, loadedIff, fields⟩ := same.loaded_iff word header (fits j count)
  obtain ⟨type, some, _⟩ := headerStores_something stores
  have loaded : Loaded m image size j := by
    by_contra refused
    have none := loadHeader_eq_none_iff.mpr
      ⟨by rw [same.phdrAt_eq word header, (same.loaded_iff word header (fits j count)).1]; exact type,
        mt loadedIff.mp refused⟩
    rw [none] at goes
    simp at goes
  obtain ⟨vaddr, filesz, memsz⟩ := fields loaded
  have somewhere : ¬ StoresNothing n image j := by
    intro nothing
    rw [StoresNothing, same.phdrAt_eq word header, filesz, memsz] at nothing
    have both := nothing ((same.loaded_iff word header (fits j count)).1.trans type)
    omega
  obtain ⟨_, _, inStores⟩ := headerStores_something somewhere
  rw [same.phdrAt_eq word header] at inStores goes
  rw [vaddr] at inStores
  have target : u32 (phVaddr m (phdrAt m image j)) < 2 ^ 32 := Nat.mod_lt _ (by decide)
  have outside : ¬ InImage image size (u32 (phVaddr m (phdrAt m image j))) := by
    have away := beside j count (fits j count) loaded 0 (by omega)
    rwa [Nat.add_zero] at away
  -- another byte where the header stores first
  generalize u32 (phVaddr m (phdrAt m image j)) = x at inStores outside target
  have image₂ : SameImage image size m (store m x ((elfLoad m image size entryOut).mem x + 1)) := by
    intro o inside
    refine store_of_ne fun hit => outside ?_
    rw [← hit, InImage, sub32_u32_add imageWord, u32_of_lt (by omega)]
    exact inside
  have reads : ∀ a ∈ (elfLoad m image size entryOut).reads, InImage image size a :=
    (elfLoad_inImage_iff imageWord word header).mpr fun i m' reached => by
      obtain ⟨same, _⟩ := beside.reached word imageWord header (fun i more _ => fits i more) reached.2.1
      exact same.fits word header (fits i (by rw [← same.ehPhnum_eq word header]; exact reached.2.2))
  have agree : ∀ a ∈ (elfLoad m image size entryOut).reads,
      store m x ((elfLoad m image size entryOut).mem x + 1) a = m a := by
    intro a member
    refine store_of_ne fun hit => outside ?_
    rw [← hit]
    exact reads a member
  obtain ⟨sameRet, _, stored, within, both⟩ := elfLoad_inStep checked agree
  have changed := kept _ image₂ (sameRet.trans (by rw [elfLoad_checked checked]; exact ret))
  have left := both.same x (within j n here further (by rw [same.phdrAt_eq word header, goes]; simp) x (by
    rw [same.phdrAt_eq word header]
    exact inStores))
  rw [changed, store_same] at left
  exact absurd left (by simp)

/-- A rejected image leaves memory as it was if no header in front of the rejected one has
anything to load. Of an image whose headers fit and whose segments are put beside it this is
the exact condition for all memories that hold it. -/
theorem elf_load_rejected_untouched (m : Bytes) (image size entryOut : Nat) :
    (NothingInFront m image size →
      (elfLoad m image size entryOut).ret = -1 → (elfLoad m image size entryOut).mem = m) ∧
    (image < 2 ^ 32 → size < 2 ^ 32 → 52 ≤ size → Untouched m image size →
      (∀ i, i < ehPhnum m image → HeaderFits m image size i) →
      (∀ m₂, SameImage image size m m₂ →
        (elfLoad m₂ image size entryOut).ret = -1 → (elfLoad m₂ image size entryOut).mem = m₂) →
      NothingInFront m image size) := by
  refine ⟨fun nothing => elfLoad_rejected_iff.mpr fun i m' reached load => ?_, nothingInFront_of_untouched⟩
  exact headerSteps_nothing reached.2.1 (nothing i m' reached load)

end

/-- A second program header behind the first of `sampleElf`, with contents that lie outside
an image of 124 bytes, and a byte of contents for the first. -/
def sampleElfTwo : Bytes :=
  let two := store16 (sampleElf 116 4 8) 0x10002C 2
  let second := store32 (store32 (store32 (store32 (store32 two 0x100054 1) 0x100058 124) 0x10005C 0x300000)
    0x100064 4) 0x100068 4
  store second 0x100074 0xAB

/-- The same with nothing to load for the first header. -/
def sampleElfEmpty : Bytes := store32 (store32 sampleElfTwo 0x100044 0) 0x100048 0

theorem elf_load_rejected_untouched_sampleElfEmpty :
    (elfLoad sampleElfEmpty 0x100000 124 0).ret = -1 ∧ (elfLoad sampleElfEmpty 0x100000 124 0).mem = sampleElfEmpty := by
  have checked : ElfChecked sampleElfEmpty 0x100000 124 := by
    unfold ElfChecked
    decide +kernel
  have more : 0 < ehPhnum sampleElfEmpty 0x100000 ∧ 1 < ehPhnum sampleElfEmpty 0x100000 := by decide +kernel
  have nothing : StoresNothing sampleElfEmpty 0x100000 0 := by
    unfold StoresNothing
    decide +kernel
  have refused : loadHeader sampleElfEmpty 0x100000 124 (phdrAt sampleElfEmpty 0x100000 1) = none :=
    Option.isNone_iff_eq_none.mp (by decide +kernel)
  obtain ⟨m', load⟩ : ∃ m', loadHeader sampleElfEmpty 0x100000 124 (phdrAt sampleElfEmpty 0x100000 0) = some m' :=
    Option.isSome_iff_exists.mp (by decide +kernel)
  have only (j : Nat) (below : j < 1) : StoresNothing sampleElfEmpty 0x100000 j := by
    obtain rfl : j = 0 := by omega
    exact nothing
  have steps : Relation.ReflTransGen (HeaderStep 0x100000 124) (0, sampleElfEmpty) (1, m') :=
    .single ⟨more.1, load, rfl⟩
  obtain rfl : m' = sampleElfEmpty := headerSteps_nothing steps only
  have rejected : (elfLoad sampleElfEmpty 0x100000 124 0).ret = -1 := by
    rw [elfLoad_checked checked, ElfLoad.reading]
    exact (elfHeaders_mem_of_rejected steps more.2 refused).1
  exact ⟨rejected, (elf_load_rejected_untouched sampleElfEmpty 0x100000 124 0).1
    (nothingInFront_of_first only refused) rejected⟩

/-- The first segment is in memory when the second header is rejected. -/
theorem elf_load_rejects_after_loading :
    ¬ ((elfLoad sampleElfTwo 0x100000 124 0).ret = -1 → (elfLoad sampleElfTwo 0x100000 124 0).mem = sampleElfTwo) := by
  intro claimed
  have checked : ElfChecked sampleElfTwo 0x100000 124 := by
    unfold ElfChecked
    decide +kernel
  have more : 0 < ehPhnum sampleElfTwo 0x100000 := by decide +kernel
  obtain ⟨m', load⟩ : ∃ m', loadHeader sampleElfTwo 0x100000 124 (phdrAt sampleElfTwo 0x100000 0) = some m' :=
    Option.isSome_iff_exists.mp (by decide +kernel)
  have byte : (loadHeader sampleElfTwo 0x100000 124 (phdrAt sampleElfTwo 0x100000 0)).map (fun m => m 0x200000) =
      some 0xAB := by decide +kernel
  have second : (loadHeader sampleElfTwo 0x100000 124 (phdrAt sampleElfTwo 0x100000 0)).map (fun m =>
      decide (1 < ehPhnum m 0x100000) && (loadHeader m 0x100000 124 (phdrAt m 0x100000 1)).isNone) = some true := by
    decide +kernel
  rw [load, Option.map_some, Option.some.injEq] at byte second
  obtain ⟨further, refused⟩ := Bool.and_eq_true_iff.mp second
  have reached : HeaderReached sampleElfTwo 0x100000 124 1 m' :=
    ⟨checked, .single ⟨more, load, rfl⟩, of_decide_eq_true further⟩
  have same := elfLoad_rejected_iff.mp claimed 1 m' reached (Option.isNone_iff_eq_none.mp refused)
  rw [same] at byte
  revert byte
  decide +kernel

end LearningOS
