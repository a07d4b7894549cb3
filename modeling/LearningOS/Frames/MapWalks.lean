import LearningOS.Frames.InMemory
import LearningOS.Store.Walks
import Mathlib.Data.Finite.Prod

namespace LearningOS
open ByteStore Links

/-- One step of the walks that only read the memory map. -/
def mapNext (m : Bytes) (mmapEnd entry : Nat) : Option Nat :=
  if entry < mmapEnd then some (nextEntry m entry) else none

/-- One step of the walk that clears the frames of the entries. -/
def freeNext (mmapEnd : Nat) (p : FrameGlobals × Nat) : Option (FrameGlobals × Nat) :=
  if p.2 < mmapEnd then
    let g := p.1.freeEntry (mmapEntryAt p.1.mem p.2)
    some (g, nextEntry g.mem p.2)
  else none

/-- A walk comes back to where it was. -/
def Repeats {α : Type} (next : α → Option α) (a : α) : Prop := ∃ c, Reach next a c ∧ OnCycle next c

/-- Some entry met in the memory map is met again. -/
def MapRepeats (m : Bytes) (mb : Nat) : Prop := Repeats (mapNext m (mmapEnd m mb)) (mbMmapAddr m mb)

/-- Some entry met in the memory map, now with the bitmap in the memory, is met again with the
same bits. -/
def FreeingRepeats (g : FrameGlobals) (mb kernelEnd : Nat) (entries : List MmapEntry) : Prop :=
  Repeats (freeNext (mmapEnd g.mem mb))
    (g.placeBitmap kernelEnd entries, mbMmapAddr (g.placeBitmap kernelEnd entries).mem mb)

section Reading
variable {m : Bytes} {stop a limit more : Nat} {as : List Nat} {entries : List MmapEntry}

theorem mmapWalk_mono (walk : mmapWalk m stop limit a = some entries) (le : limit ≤ more) :
    mmapWalk m stop more a = some entries := by
  induction limit generalizing a more entries with
  | zero => simp [mmapWalk] at walk
  | succ limit ih =>
    obtain ⟨more, rfl⟩ : ∃ k, more = k + 1 := ⟨more - 1, by omega⟩
    unfold mmapWalk at walk ⊢
    split at walk
    · rename_i inside
      obtain ⟨rest, later, rfl⟩ := Option.map_eq_some_iff.mp walk
      rw [if_pos inside, ih later (by omega)]
      rfl
    · rename_i outside
      rwa [if_neg outside]

theorem mmapWalk_of_path (path : Path (mapNext m stop) a as) (enough : as.length ≤ limit) :
    ∃ entries, mmapWalk m stop limit a = some entries := by
  induction path generalizing limit with
  | @stop a ends =>
    obtain ⟨limit, rfl⟩ : ∃ k, limit = k + 1 := ⟨limit - 1, by simp at enough; omega⟩
    unfold mapNext at ends
    split at ends
    · simp at ends
    · rename_i outside
      exact ⟨[], if_neg outside⟩
  | @step a b bs link _ ih =>
    obtain ⟨limit, rfl⟩ : ∃ k, limit = k + 1 := ⟨limit - 1, by simp at enough; omega⟩
    unfold mapNext at link
    split at link
    · rename_i inside
      cases Option.some.inj link
      obtain ⟨rest, later⟩ := ih (show bs.length ≤ limit by simpa using enough)
      exact ⟨mmapEntryAt m a :: rest, by rw [mmapWalk, if_pos inside]; exact congrArg _ later⟩
    · simp at link

theorem path_of_mmapWalk (walk : mmapWalk m stop limit a = some entries) : ∃ as, Path (mapNext m stop) a as := by
  induction limit generalizing a entries with
  | zero => simp [mmapWalk] at walk
  | succ limit ih =>
    unfold mmapWalk at walk
    split at walk
    · rename_i inside
      obtain ⟨rest, later, _⟩ := Option.map_eq_some_iff.mp walk
      obtain ⟨as, path⟩ := ih later
      exact ⟨a :: as, .step (if_pos inside) path⟩
    · rename_i outside
      exact ⟨[a], .stop (if_neg outside)⟩

theorem mapNext_lt {c d : Nat} (link : mapNext m stop c = some d) : d < 2 ^ 32 := by
  unfold mapNext at link
  split at link
  · cases Option.some.inj link
    exact Nat.mod_lt _ (by decide)
  · simp at link

theorem reach_mapNext_lt (start : a < 2 ^ 32) : ∀ c, Reach (mapNext m stop) a c → c < 2 ^ 32 := by
  intro c reach
  induction reach with
  | refl => exact start
  | tail _ link _ => exact mapNext_lt link

/-- A walk over the map ends exactly if it comes back to no entry; then the bound of
`mmapEntries` is large enough. -/
theorem mmapWalk_ends_iff (start : a < 2 ^ 32) :
    (∃ entries, mmapWalk m stop mmapLimit a = some entries) ↔ ¬ Repeats (mapNext m stop) a := by
  have inside : ∀ c, Reach (mapNext m stop) a c → c < 2 ^ 32 := reach_mapNext_lt start
  unfold Repeats
  push Not
  rw [← path_iff_no_cycle inside]
  constructor
  · rintro ⟨entries, walk⟩
    exact path_of_mmapWalk walk
  · rintro ⟨as, path⟩
    have length := path.length_le fun c member => inside c (path.mem_reach member)
    exact mmapWalk_of_path path (by unfold mmapLimit; omega)

/-- What a walk finds does not depend on its bound. -/
theorem mmapWalk_limit (start : a < 2 ^ 32) (walk : mmapWalk m stop limit a = some entries) :
    mmapWalk m stop mmapLimit a = some entries := by
  obtain ⟨as, path⟩ := path_of_mmapWalk walk
  have acyclic := (path_iff_no_cycle (reach_mapNext_lt start)).mp ⟨as, path⟩
  obtain ⟨found, same⟩ := (mmapWalk_ends_iff start).mpr fun ⟨c, reach, cycle⟩ => acyclic c reach cycle
  have left := mmapWalk_mono walk (Nat.le_max_left limit mmapLimit)
  have right := mmapWalk_mono same (Nat.le_max_right limit mmapLimit)
  rw [same, left.symm.trans right]

end Reading

section Freeing
variable {g : FrameGlobals} {stop a limit more : Nat} {ps : List (FrameGlobals × Nat)}

theorem freeWalk_mono {g' : FrameGlobals} (walk : FrameGlobals.freeWalk stop limit g a = some g') (le : limit ≤ more) :
    FrameGlobals.freeWalk stop more g a = some g' := by
  induction limit generalizing g a more with
  | zero => simp [FrameGlobals.freeWalk] at walk
  | succ limit ih =>
    obtain ⟨more, rfl⟩ : ∃ k, more = k + 1 := ⟨more - 1, by omega⟩
    unfold FrameGlobals.freeWalk at walk ⊢
    split at walk
    · rename_i inside
      rw [if_pos inside]
      exact ih walk (by omega)
    · rename_i outside
      rwa [if_neg outside]

theorem path_of_freeWalk {g' : FrameGlobals} (walk : FrameGlobals.freeWalk stop limit g a = some g') :
    ∃ ps, Path (freeNext stop) (g, a) ps := by
  induction limit generalizing g a with
  | zero => simp [FrameGlobals.freeWalk] at walk
  | succ limit ih =>
    unfold FrameGlobals.freeWalk at walk
    split at walk
    · rename_i inside
      obtain ⟨ps, path⟩ := ih walk
      exact ⟨(g, a) :: ps, .step (if_pos inside) path⟩
    · rename_i outside
      exact ⟨[(g, a)], .stop (if_neg outside)⟩

theorem freeWalk_of_path {p : FrameGlobals × Nat} (path : Path (freeNext stop) p ps) :
    ∃ limit g', FrameGlobals.freeWalk stop limit p.1 p.2 = some g' := by
  induction path with
  | @stop p ends =>
    unfold freeNext at ends
    split at ends
    · simp at ends
    · rename_i outside
      exact ⟨1, p.1, if_neg outside⟩
  | @step p q qs link _ ih =>
    unfold freeNext at link
    split at link
    · rename_i inside
      cases Option.some.inj link
      obtain ⟨limit, g', rest⟩ := ih
      exact ⟨limit + 1, g', by rw [FrameGlobals.freeWalk, if_pos inside]; exact rest⟩
    · simp at link

/-- All states of the second walk differ in finitely many bytes only. -/
theorem freeNext_finite (g : FrameGlobals) :
    {p : FrameGlobals × Nat | SameGlobals g p.1 ∧ p.1.usedFrames < 2 ^ 32 ∧ p.2 < 2 ^ 32}.Finite := by
  have memories := finite_same_outside g.mem (2 ^ 32 + 3)
  have words := Set.finite_lt_nat (2 ^ 32)
  refine ((memories.prod (words.prod words)).image fun q : Bytes × Nat × Nat =>
    (({ g with mem := q.1, usedFrames := q.2.1 } : FrameGlobals), q.2.2)).subset ?_
  rintro ⟨⟨mem, bitmap, total, used, bits, placement⟩, entry⟩ ⟨same, word, low⟩
  obtain ⟨rfl, rfl, rfl, rfl, _, high⟩ := same
  exact ⟨(mem, used, entry), ⟨high, word, low⟩, rfl⟩

/-- The second walk ends exactly if it comes back to no entry with the same bits. -/
theorem freeWalk_ends_iff (word : g.usedFrames < 2 ^ 32) (start : a < 2 ^ 32) :
    (∃ limit g', FrameGlobals.freeWalk stop limit g a = some g') ↔ ¬ Repeats (freeNext stop) (g, a) := by
  have inside (p : FrameGlobals × Nat) (reach : Reach (freeNext stop) (g, a) p) :
      SameGlobals g p.1 ∧ p.1.usedFrames < 2 ^ 32 ∧ p.2 < 2 ^ 32 := by
    induction reach with
    | refl => exact ⟨.refl g, word, start⟩
    | @tail p q _ link ih =>
      obtain ⟨same, used, _⟩ := ih
      unfold freeNext at link
      split at link
      · cases Option.some.inj link
        have cleared := SameGlobals.freeEntry p.1 (mmapEntryAt p.1.mem p.2)
        exact ⟨same.trans cleared, cleared.word used, Nat.mod_lt _ (by decide)⟩
      · simp at link
  have acyclic := path_iff_no_cycle_of_finite (freeNext_finite g) inside
  unfold Repeats
  push Not
  rw [← acyclic]
  constructor
  · rintro ⟨limit, g', walk⟩
    exact path_of_freeWalk walk
  · rintro ⟨ps, path⟩
    exact freeWalk_of_path path

end Freeing

theorem multibootInit_ends_iff (m : Bytes) (magic addr : Nat) :
    (∃ limit, multibootInit limit m magic addr ≠ none) ↔
      (magic = multibootMagic → mbFlags m addr &&& 0x40 ≠ 0 → ¬ MapRepeats m addr) := by
  by_cases magical : magic = multibootMagic
  · by_cases flag : mbFlags m addr &&& 0x40 = 0
    · refine iff_of_true ⟨0, ?_⟩ fun _ set => absurd flag set
      rw [multibootInit, if_neg (not_not.mpr magical), if_neg (not_not.mpr flag)]
      simp
    · have same (limit : Nat) : multibootInit limit m magic addr =
          (mmapWalk m (mmapEnd m addr) limit (mbMmapAddr m addr)).map fun entries => (entries, addr) := by
        rw [multibootInit, if_neg (not_not.mpr magical), if_pos flag]
      rw [forall_prop_of_true magical, forall_prop_of_true flag, MapRepeats, ← mmapWalk_ends_iff (mbMmapAddr_lt m addr)]
      simp only [same, ne_eq, Option.map_eq_none_iff]
      constructor
      · rintro ⟨limit, ends⟩
        obtain ⟨entries, walk⟩ := Option.ne_none_iff_exists'.mp ends
        exact ⟨entries, mmapWalk_limit (mbMmapAddr_lt m addr) walk⟩
      · rintro ⟨entries, walk⟩
        exact ⟨mmapLimit, Option.ne_none_iff_exists'.mpr ⟨entries, walk⟩⟩
  · refine iff_of_true ⟨0, ?_⟩ fun same => absurd same magical
    rw [multibootInit, if_pos magical]
    simp

theorem allocatorInit_ends_iff (g : FrameGlobals) (mb kernelEnd : Nat) :
    (∃ limit, g.allocatorInit limit mb kernelEnd ≠ none) ↔
      (mb ≠ 0 → mbFlags g.mem mb &&& 0x40 ≠ 0 → ¬ MapRepeats g.mem mb ∧
        ∀ entries, mmapEntries g.mem mb = some entries → managedFrames entries ≠ 0 →
          ¬ FreeingRepeats g mb kernelEnd entries) := by
  by_cases absent : mb = 0 ∨ mbFlags g.mem mb &&& 0x40 = 0
  · refine iff_of_true ⟨0, ?_⟩ fun present flag => absurd absent (by simp [present, flag])
    rw [FrameGlobals.allocatorInit, if_pos absent]
    simp
  obtain ⟨present, flag⟩ := not_or.mp absent
  have start := mbMmapAddr_lt g.mem mb
  have freeing (entries : List MmapEntry) : (∃ limit g', FrameGlobals.freeWalk (mmapEnd g.mem mb) limit
      (g.placeBitmap kernelEnd entries) (mbMmapAddr (g.placeBitmap kernelEnd entries).mem mb) = some g') ↔
        ¬ FreeingRepeats g mb kernelEnd entries :=
    freeWalk_ends_iff ((managedFrames_lt entries).trans (by decide)) (mbMmapAddr_lt _ mb)
  rw [forall_prop_of_true present, forall_prop_of_true flag, MapRepeats, ← mmapWalk_ends_iff start]
  constructor
  · rintro ⟨limit, ends⟩
    rw [FrameGlobals.allocatorInit, if_neg absent] at ends
    cases walk : mmapWalk g.mem (mmapEnd g.mem mb) limit (mbMmapAddr g.mem mb) with
    | none => simp [walk] at ends
    | some entries =>
      have found := mmapWalk_limit start walk
      refine ⟨⟨entries, found⟩, fun entries' again managed => (freeing entries').mp ?_⟩
      cases Option.some.inj (found.symm.trans again)
      rw [walk, Option.bind_some, if_neg managed, Ne, Option.map_eq_none_iff] at ends
      obtain ⟨g', run⟩ := Option.ne_none_iff_exists'.mp ends
      exact ⟨limit, g', run⟩
  · rintro ⟨⟨entries, walk⟩, acyclic⟩
    by_cases managed : managedFrames entries = 0
    · refine ⟨mmapLimit, ?_⟩
      rw [FrameGlobals.allocatorInit, if_neg absent, walk, Option.bind_some, if_pos managed]
      simp
    · obtain ⟨limit, g', run⟩ := (freeing entries).mpr (acyclic entries walk managed)
      refine ⟨max limit mmapLimit, ?_⟩
      rw [FrameGlobals.allocatorInit, if_neg absent, mmapWalk_mono walk (Nat.le_max_right limit mmapLimit),
        Option.bind_some, if_neg managed, freeWalk_mono run (Nat.le_max_left limit mmapLimit)]
      simp

/-- `multiboot_init` returns exactly if there is no map to walk or no entry of it is met
again. `frame_allocator_init` returns exactly if besides no entry of the map is met again
with the same bits while the frames of the entries are cleared. -/
theorem memory_map_walks_end_iff (m : Bytes) (magic addr : Nat) (g : FrameGlobals) (mb kernelEnd : Nat) :
    ((∃ limit, multibootInit limit m magic addr ≠ none) ↔
      (magic = multibootMagic → mbFlags m addr &&& 0x40 ≠ 0 → ¬ MapRepeats m addr)) ∧
    ((∃ limit, g.allocatorInit limit mb kernelEnd ≠ none) ↔
      (mb ≠ 0 → mbFlags g.mem mb &&& 0x40 ≠ 0 → ¬ MapRepeats g.mem mb ∧
        ∀ entries, mmapEntries g.mem mb = some entries → managedFrames entries ≠ 0 →
          ¬ FreeingRepeats g mb kernelEnd entries)) :=
  ⟨multibootInit_ends_iff m magic addr, allocatorInit_ends_iff g mb kernelEnd⟩

/-- A memory map whose only entry has the size -4, so that it is its own successor. -/
def loopedMap : Bytes :=
  let m : Bytes := fun _ => 0
  store32 (store32 (store32 (store32 m 0x9000 0x40) 0x902C 24) 0x9030 0x9040) 0x9040 0xFFFFFFFC

theorem loopedMap_repeats : MapRepeats loopedMap 0x9000 := by
  have link : mapNext loopedMap (mmapEnd loopedMap 0x9000) 0x9040 = some 0x9040 := by decide +kernel
  have start : mbMmapAddr loopedMap 0x9000 = 0x9040 := by decide +kernel
  unfold MapRepeats
  rw [start]
  exact ⟨0x9040, .refl _ _, 0x9040, link, .refl _ _⟩

/-- On this map neither function returns. -/
theorem memory_map_walks_endless :
    (¬ ∃ limit, multibootInit limit loopedMap multibootMagic 0x9000 ≠ none) ∧
      ¬ ∃ limit, (⟨loopedMap, 0, 0, 0, 0, 0⟩ : FrameGlobals).allocatorInit limit 0x9000 0x120000 ≠ none := by
  have flag : mbFlags loopedMap 0x9000 &&& 0x40 ≠ 0 := by decide +kernel
  refine ⟨fun ends => ?_, fun ends => ?_⟩
  · exact (multibootInit_ends_iff loopedMap multibootMagic 0x9000).mp ends rfl flag loopedMap_repeats
  · exact ((allocatorInit_ends_iff ⟨loopedMap, 0, 0, 0, 0, 0⟩ 0x9000 0x120000).mp ends (by decide) flag).1
      loopedMap_repeats

end LearningOS
