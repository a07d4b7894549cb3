import LearningOS.Fat.Effect
import LearningOS.Fat.RoundTrip
import Mathlib.Data.List.Sort

namespace LearningOS
open ByteStore Prefixes

namespace FatFs
variable (fat : FatFs) (m : Bytes)

/-- The entries in front of the end marker, the first entry that was never used. -/
def inFront : List Nat := (List.range fat.slots).takeWhile fun i => m (fat.slotBase i) ≠ 0

/-- The first 32 entries in front of the end marker that are to be shown. -/
def markedFiles : List FatFileInfo :=
  (((fat.inFront m).filter fun i => fat.Visible m i).map (fat.slotInfo m)).take 32

/-- Only entries in front of the end marker count: an entry behind it that is looked at is
not shown, unless 32 in front of it are, and has the name of one in front of it. -/
structure MarkerHolds : Prop where
  listed : 32 ≤ ((fat.inFront m).filter fun i => fat.Visible m i).length ∨
    ∀ j ∈ fat.looked m 0 fat.rootDirSectors, j ∉ fat.inFront m → ¬ fat.Visible m j
  found : ∀ j ∈ fat.looked m 0 fat.rootDirSectors, j ∉ fat.inFront m → fat.InUse m j →
    ∃ i ∈ fat.inFront m, fat.InUse m i ∧ fat.slotName m i = fat.slotName m j

variable {fat m}

theorem mem_inFront {i : Nat} : i ∈ fat.inFront m ↔ i < fat.slots ∧ ∀ k, k ≤ i → m (fat.slotBase k) ≠ 0 := by
  rw [inFront, List.range_eq_range', mem_takeWhile_range']
  simp only [Nat.zero_le, true_and, Nat.zero_add, decide_eq_true_eq, forall_const]

theorem inFront_looked {i : Nat} (front : i ∈ fat.inFront m) : i ∈ fat.looked m 0 fat.rootDirSectors := by
  obtain ⟨inside, before⟩ := mem_inFront.mp front
  unfold FatFs.slots at inside
  exact (fat.mem_looked m).mpr ⟨by omega, by omega, fun k _ less => before k less.le⟩

theorem looked_sorted (fat : FatFs) (m : Bytes) (i n : Nat) : (fat.looked m i n).Pairwise (· < ·) := by
  induction n generalizing i with
  | zero => exact .nil
  | succ n ih =>
    rw [fat.looked_succ, List.pairwise_append]
    refine ⟨(List.pairwise_lt_range' _).sublist (upTo_sublist _ _), ih (i + 1), fun a atA b atB => ?_⟩
    have upper := (mem_upTo_range'.mp atA).2.1
    have lower := ((fat.mem_looked m).mp atB).1
    omega

/-- The entries shown are those in front of the marker and then those behind it. -/
theorem looked_visible (fat : FatFs) (m : Bytes) :
    (fat.looked m 0 fat.rootDirSectors).filter (fun j => fat.Visible m j) =
    (fat.inFront m).filter (fun j => fat.Visible m j) ++
      (fat.looked m 0 fat.rootDirSectors).filter fun j => fat.Visible m j ∧ j ∉ fat.inFront m := by
  have sorted := fat.looked_sorted m 0 fat.rootDirSectors
  have front : (fat.inFront m).Pairwise (· < ·) := List.pairwise_lt_range.sublist (List.takeWhile_sublist _)
  refine (sorted.filter _).eq_of_mem_iff (List.pairwise_append.mpr ⟨front.filter _, sorted.filter _, ?_⟩) fun j => ?_
  · intro a atA b atB
    have before := (List.mem_filter.mp atA).1
    obtain ⟨inside, behind⟩ := List.mem_filter.mp atB
    by_contra order
    obtain ⟨bound, nonzero⟩ := mem_inFront.mp before
    have behind' : b ∉ fat.inFront m := (of_decide_eq_true behind).2
    exact behind' (mem_inFront.mpr ⟨by omega, fun k le => nonzero k (by omega)⟩)
  · simp only [List.mem_append, List.mem_filter, decide_eq_true_eq]
    constructor
    · rintro ⟨inside, visible⟩
      by_cases before : j ∈ fat.inFront m
      · exact Or.inl ⟨before, visible⟩
      · exact Or.inr ⟨inside, visible, before⟩
    · rintro (⟨before, visible⟩ | ⟨inside, visible, _⟩)
      · exact ⟨inFront_looked before, visible⟩
      · exact ⟨inside, visible⟩

/-- The listing is the one in front of the marker unless it has room for an entry behind. -/
theorem listing_eq_markedFiles_iff : fat.listing m = fat.markedFiles m ↔
    32 ≤ ((fat.inFront m).filter fun i => fat.Visible m i).length ∨
      ∀ j ∈ fat.looked m 0 fat.rootDirSectors, j ∉ fat.inFront m → ¬ fat.Visible m j := by
  rw [fat.listing_eq, markedFiles, looked_visible, List.map_append, take_append_eq_iff, List.length_map,
    List.map_eq_nil_iff, List.filter_eq_nil_iff]
  refine or_congr Iff.rfl (forall_congr' fun j => imp_congr_right fun _ => ?_)
  simp only [decide_eq_true_eq, not_and, not_not]
  exact ⟨fun front behind visible => behind (front visible), fun hidden visible => by_contra fun behind =>
    hidden behind visible⟩

theorem slotPlace_injective {i j : Nat} (same : fat.slotPlace (some i) = fat.slotPlace (some j)) : i = j := by
  simp only [FatFs.slotPlace, Prod.mk.injEq] at same
  omega

theorem searchRoot_found {name : List UInt8} {slots : List Nat} {known : Option Nat} {sector offset : Nat} :
    fat.searchRoot m name slots known = .found sector offset ↔
      ∃ i, slots.find? (fun i => fat.InUse m i ∧ fat.slotName m i = name) = some i ∧
        (sector, offset) = fat.slotPlace (some i) := by
  unfold FatFs.searchRoot
  cases hit : slots.find? fun i => fat.InUse m i ∧ fat.slotName m i = name with
  | some i =>
    simp only [RootSlot.found.injEq, Option.some.injEq, exists_eq_left', Prod.ext_iff]
    exact ⟨fun ⟨a, b⟩ => ⟨a.symm, b.symm⟩, fun ⟨a, b⟩ => ⟨a.symm, b.symm⟩⟩
  | none =>
    simp only [reduceCtorEq, false_and, exists_false, iff_false]
    split
    · simp
    · simp

end FatFs

/-- A search of a directory that can be read looks at all of its sectors. -/
theorem fatFindRootEntry_reads {fat : FatFs} {dev : StorageDevice} (reads : dev.Reads) (area : fat.RootArea dev.sectors)
    (name : List UInt8) :
    ∃ dev', fatFindRootEntry fat dev name =
      (dev', fat.searchRoot dev.disk name (fat.looked dev.disk 0 fat.rootDirSectors) none) ∧ dev.Rests dev' := by
  have answered (k : Nat) (less : k < fat.rootDirSectors) :
      dev.answers (0 + k) (fat.rootDirSector + (0 + k)) = true :=
    reads.answers (by simpa using (area.sector less).2.1) _
  have loop := findRootLoop_after (m := dev.disk) name none reads.present reads.read area
    (show 0 + fat.rootDirSectors ≤ _ by omega) (by simp) (leading_all answered).symm
  rw [← List.range_eq_range'] at loop
  exact ⟨_, loop, reads.after _⟩

/-- What is cached of a root directory and what is found in it precedes the end marker. -/
structure EndsAtMarker (s : FatState) (fat : FatFs) : Prop where
  mounted : ∃ dev', fatInit s = .ok ⟨dev', fat, fat.markedFiles s.dev.disk⟩
  refreshed : ∃ dev', fatRefreshRootCache ⟨s.dev, fat, s.files⟩ = .ok ⟨dev', fat, fat.markedFiles s.dev.disk⟩
  found : ∀ name dev' sector offset, fatFindRootEntry fat s.dev name = (dev', .found sector offset) →
    ∃ i ∈ fat.inFront s.dev.disk, (sector, offset) = fat.slotPlace (some i)

/-- The scans of a FAT16 root directory stop at its end marker exactly if no entry behind
it that they look at is one to be shown or found. -/
theorem root_ends_at_marker_iff {s : FatState} {fat : FatFs} (boot : fatGeometry (sectorAt s.dev.disk 0) = .ok fat)
    (type : fat.fatType = 16) (area : fat.RootArea s.dev.sectors) (first : 0 < s.dev.sectors) (reads : s.dev.Reads) :
    EndsAtMarker s fat ↔ fat.MarkerHolds s.dev.disk := by
  obtain ⟨dev₁, mount, _⟩ := fatInit_reads boot type area first reads
  obtain ⟨dev₂, refresh, _⟩ := fatRefreshRootCache_reads (s := ⟨s.dev, fat, s.files⟩) type area reads
  constructor
  · intro ends
    refine ⟨?_, fun j inside behind use => ?_⟩
    · obtain ⟨dev', mounted⟩ := ends.mounted
      have same := Except.ok.inj (mount.symm.trans mounted)
      exact FatFs.listing_eq_markedFiles_iff.mp (congrArg FatState.files same)
    · obtain ⟨dev', search, _⟩ := fatFindRootEntry_reads reads area (fat.slotName s.dev.disk j)
      cases hit : (fat.looked s.dev.disk 0 fat.rootDirSectors).find? fun i =>
          fat.InUse s.dev.disk i ∧ fat.slotName s.dev.disk i = fat.slotName s.dev.disk j with
      | none => exact absurd (decide_eq_true ⟨use, rfl⟩) (List.find?_eq_none.mp hit j inside)
      | some i =>
        have both : fat.InUse s.dev.disk i ∧ fat.slotName s.dev.disk i = fat.slotName s.dev.disk j := by
          simpa using List.find?_some hit
        have place : fat.searchRoot s.dev.disk (fat.slotName s.dev.disk j)
            (fat.looked s.dev.disk 0 fat.rootDirSectors) none =
              .found (fat.slotPlace (some i)).1 (fat.slotPlace (some i)).2 :=
          FatFs.searchRoot_found.mpr ⟨i, hit, rfl⟩
        rw [place] at search
        obtain ⟨k, front, same⟩ := ends.found _ _ _ _ search
        obtain rfl := FatFs.slotPlace_injective same
        exact ⟨i, front, both⟩
  · intro holds
    have listed := FatFs.listing_eq_markedFiles_iff.mpr holds.listed
    refine ⟨⟨dev₁, listed ▸ mount⟩, ⟨dev₂, listed ▸ refresh⟩, fun name dev' sector offset found => ?_⟩
    obtain ⟨dev₃, search, _⟩ := fatFindRootEntry_reads reads area name
    obtain ⟨i, hit, place⟩ := FatFs.searchRoot_found.mp (congrArg Prod.snd (search.symm.trans found))
    refine ⟨i, ?_, place⟩
    by_contra behind
    have both : fat.InUse s.dev.disk i ∧ fat.slotName s.dev.disk i = name := by simpa using List.find?_some hit
    obtain ⟨k, front, use, same⟩ := holds.found i (List.mem_of_find?_eq_some hit) behind both.1
    -- the search stops at the first entry of the name, which is in front of the marker
    have least := find?_least (fat.looked_sorted _ _ _) hit (FatFs.inFront_looked front)
      (decide_eq_true ⟨use, same.trans both.2⟩)
    obtain ⟨inside, before⟩ := FatFs.mem_inFront.mp front
    exact behind (FatFs.mem_inFront.mpr ⟨by omega, fun n le => before n (by omega)⟩)

theorem root_ends_at_marker_emptyDisk : EndsAtMarker emptyDisk emptyDisk.fat := by
  have empty (j : Nat) (inside : j ∈ emptyDisk.fat.looked emptyDisk.dev.disk 0 emptyDisk.fat.rootDirSectors) :
      ¬ emptyDisk.fat.InUse emptyDisk.dev.disk j := by
    have upper : j < 16 := ((FatFs.mem_looked _ _).mp inside).2.1
    exact fun use => use.1 (emptyDisk_vacant upper)
  exact (root_ends_at_marker_iff emptyDisk_volume.boot rfl emptyDisk_volume.sound.rootArea (by decide)
    emptyDisk_works.reads).mpr ⟨Or.inr fun j inside _ visible => empty j inside visible.1,
      fun j inside _ use => absurd use (empty j inside)⟩

/-- A root directory of two sectors: nothing in the first, and a file `A` at the start of
the second. -/
def splitDisk : Bytes := fun x =>
  if x < 512 then (sampleBoot.set 17 0x20).getD x 0
  else if 512 * 258 ≤ x ∧ x < 512 * 258 + 11 then (0x41 :: List.replicate 10 0x20).getD (x - 512 * 258) 0
  else 0

def splitFat : FatFs := ⟨true, 512, 128, 1, 1, 256, 32, 2, 1, 259, 257, 0, 16, 39999⟩

def splitState : FatState := ⟨⟨true, true, true, 5120258, splitDisk, fun _ _ => false, fun _ _ => false⟩, splitFat, []⟩

theorem root_listed_behind_marker :
    ¬ ∀ (s : FatState) (fat : FatFs), fatGeometry (sectorAt s.dev.disk 0) = .ok fat → fat.fatType = 16 →
      fat.RootArea s.dev.sectors → 0 < s.dev.sectors → s.dev.Reads → EndsAtMarker s fat := by
  intro claim
  have area : splitFat.RootArea splitState.dev.sectors := ⟨rfl, by decide, by decide⟩
  have reads : splitState.dev.Reads := ⟨rfl, rfl, rfl⟩
  have boot : fatGeometry (sectorAt splitState.dev.disk 0) = .ok splitFat := by rfl
  have ends := claim splitState splitFat boot rfl area (by decide) reads
  obtain ⟨dev₁, mount, _⟩ := fatInit_reads boot rfl area (show 0 < splitState.dev.sectors by decide) reads
  obtain ⟨dev₂, mounted⟩ := ends.mounted
  have same := congrArg FatState.files (Except.ok.inj (mount.symm.trans mounted))
  have none : splitFat.inFront splitDisk = [] := rfl
  have behind : 16 ∈ splitFat.looked splitDisk 0 2 :=
    (FatFs.mem_looked _ _).mpr ⟨by decide, by decide, fun k lower upper => by omega⟩
  rcases FatFs.listing_eq_markedFiles_iff.mp same with many | hidden
  · change 32 ≤ ((splitFat.inFront splitDisk).filter _).length at many
    rw [none] at many
    exact absurd many (by decide)
  · refine hidden 16 behind (fun front => ?_) (by decide)
    change 16 ∈ splitFat.inFront splitDisk at front
    rw [none] at front
    exact absurd front (by decide)

end LearningOS
