import LearningOS.Fat.Failure
import LearningOS.Fat.Mirror
import LearningOS.Fat.Regions

namespace LearningOS
open ByteStore

namespace FatFs
variable (fat : FatFs) (m : Bytes) (i : Nat)

/-- The entry of a subdirectory. -/
def Directory : Prop := m (fat.slotBase i + 11) &&& 0x10 ≠ 0

/-- The entry of a subdirectory or of a volume label. -/
def Special : Prop := fat.Directory m i ∨ m (fat.slotBase i + 11) &&& 0x08 ≠ 0

/-- An entry is the same on two disks, and so are the clusters of a subdirectory, their
links and their bytes. -/
structure EntryKept (m' : Bytes) : Prop where
  bytes : ∀ k, k < 32 → m' (fat.slotBase i + k) = m (fat.slotBase i + k)
  clusters : fat.Directory m i → ∀ cs, fat.Chain m (fat.slotCluster m i) cs → ∀ c ∈ cs,
    fat.entry m' c = fat.entry m c ∧ fat.clusterData m' c = fat.clusterData m c

end FatFs

/-- The subdirectory or volume label under an encoded name is kept. -/
def SpecialKept (s s' : FatState) (name : Option (List UInt8)) : Prop :=
  ∀ raw i, name.bind fatFormatName = some raw → i < s.fat.slots → ¬ s.fat.Vacant s.dev.disk i →
    s.fat.slotName s.dev.disk i = raw → s.fat.Special s.dev.disk i → s.fat.EntryKept s.dev.disk i s'.dev.disk

/-- A write that finds a subdirectory or a volume label in use under its name, where the
subdirectory has clusters to free, or there is room for the bytes once they are free. -/
def ReplacesSpecial (s : FatState) (name buffer : Option (List UInt8)) : Prop :=
  ∃ raw bytes i cs, name.bind fatFormatName = some raw ∧ buffer = some bytes ∧ i < s.fat.slots ∧
    s.fat.InUse s.dev.disk i ∧ s.fat.slotName s.dev.disk i = raw ∧ s.fat.Special s.dev.disk i ∧
    (s.fat.slotCluster s.dev.disk i < 2 ∧ cs = [] ∨ s.fat.Chain s.dev.disk (s.fat.slotCluster s.dev.disk i) cs) ∧
    (s.fat.Directory s.dev.disk i ∧ cs ≠ [] ∨ bytes = [] ∨
      ∃ start, RunOf (fun c => s.fat.entry s.dev.disk c = 0 ∨ c ∈ cs) s.fat.totalClusters start
        (max (s.fat.clustersNeeded bytes.length) 1))

variable {fat : FatFs} {m m' : Bytes} {i : Nat}

theorem FatFs.Special.attribute_ne (special : fat.Special m i) : m (fat.slotBase i + 11) ≠ 0x20 := by
  intro archive
  unfold FatFs.Special FatFs.Directory at special
  rw [archive] at special
  exact absurd special (by decide)

theorem FatFs.Directory.attribute_ne (directory : fat.Directory m i) : m (fat.slotBase i + 11) ≠ 0x0F := by
  intro long
  unfold FatFs.Directory at directory
  rw [long] at directory
  exact absurd directory (by decide)

theorem FatFs.Directory.inUse (directory : fat.Directory m i) (taken : ¬ fat.Vacant m i) : fat.InUse m i :=
  ⟨fun zero => taken (Or.inl zero), fun deleted => taken (Or.inr deleted), directory.attribute_ne⟩

theorem FatFs.EntryKept.refl (fat : FatFs) (m : Bytes) (i : Nat) : fat.EntryKept m i m :=
  ⟨fun _ _ => rfl, fun _ _ _ _ _ => ⟨rfl, rfl⟩⟩

/-- The attribute of an entry that was filled in is that of a file. -/
theorem FatFs.filled_archive (fat : FatFs) (m old : Bytes) (i first size : Nat) {raw : List UInt8}
    (eleven : raw.length = 11) : putSector m (fat.slotPlace (some i)).1 (fillEntry
      (sectorAt old (fat.slotPlace (some i)).1) (fat.slotPlace (some i)).2 raw first size) (fat.slotBase i + 11) =
        0x20 := by
  have address : fat.slotBase i + 11 = 512 * (fat.slotPlace (some i)).1 + ((fat.slotPlace (some i)).2 + 11) := by
    simp only [FatFs.slotPlace, FatFs.slotBase]
    omega
  rw [address, putSector_apply (by simp only [FatFs.slotPlace]; omega)]
  exact (fillEntry_fields _ _ first size eleven).2.1

/-- The clusters met from an entry in use belong to a closed set. -/
theorem FatFs.Rooted.linked {sectors : Nat} {member : Nat → Prop} (rooted : fat.Rooted m member)
    (sound : fat.Sound sectors) (inside : i < fat.slots) (use : fat.InUse m i) {c : Nat}
    (linked : fat.Linked m (fat.oldCluster m i) c) : member c := by
  obtain ⟨two, upper, reach⟩ := linked
  induction reach with
  | refl => exact rooted.roots i inside use two upper
  | tail _ link ih =>
    refine rooted.links _ _ ih ?_
    rwa [FatFs.tableLink, sound.tableEntry_eq] at link

namespace FatVolume
variable {s s' : FatState} {name buffer : Option (List UInt8)} {ret : Int}

/-- On a well-formed volume no write leaves its regions. -/
theorem writesInRegions (volume : FatVolume s.dev s.fat) (works : s.dev.Works)
    (name buffer : Option (List UInt8)) : WritesInRegions s name buffer := by
  refine (fileWrites_regions volume.layout works name buffer).mpr fun raw hit i _ _ choice c replaced => ?_
  obtain ⟨inside, ⟨_, use, _⟩ | ⟨miss, _⟩⟩ := FatFs.chosen_cases choice
  · have member := volume.rooted.linked volume.sound inside use replaced.2
    exact Or.inl (volume.layout.table_inside (volume.rooted.inside c member))
  · rw [replaced.1] at miss
    cases miss

/-- A write leaves all entries alone that are neither vacant nor looked at for their names. -/
theorem long_kept (volume : FatVolume s.dev s.fat) (works : s.dev.Works)
    (run : fatWriteFile s name buffer = .ok (s', ret)) {j : Nat} (inside : j < s.fat.slots)
    (taken : ¬ s.fat.Vacant s.dev.disk j) (long : ¬ s.fat.InUse s.dev.disk j) {k : Nat} (less : k < 32) :
    s'.dev.disk (s.fat.slotBase j + k) = s.dev.disk (s.fat.slotBase j + k) := by
  rw [fatWriteFile_log works run]
  refine applyWrites_kept (fun w atW lower upper => ?_) rfl
  have sector : w.1 = (s.fat.slotPlace (some j)).1 := by
    simp only [FatFs.slotPlace, FatFs.slotBase] at lower upper ⊢
    omega
  obtain ⟨raw, hit, i, _, choice, may⟩ := volume.writesInRegions works name buffer w atW
  have apart : ¬ s.fat.TableSector (s.fat.slotPlace (some j)).1 ∧
      ¬ s.fat.SpareSector s.dev.disk (s.fat.Replaced s.dev.disk hit i) (s.fat.slotPlace (some j)).1 :=
    volume.layout.root_apart inside
  rcases may with table | ⟨_, beside⟩ | data
  · rw [sector] at table
    exact absurd table apart.1
  · have other : i ≠ j := by
      rintro rfl
      obtain ⟨_, ⟨_, use, _⟩ | ⟨_, vacant⟩⟩ := FatFs.chosen_cases choice
      · exact long use
      · exact taken vacant
    rw [beside, Nat.add_sub_cancel' lower]
    simp only [FatFs.slotPlace, FatFs.slotBase, FatFs.Beside] at *
    omega
  · rw [sector] at data
    exact absurd data apart.2

/-- Such a write breaks the entry, or the chain of the subdirectory. -/
theorem write_replaces_special (volume : FatVolume s.dev s.fat) (works : s.dev.Works)
    (replaces : ReplacesSpecial s name buffer) :
    ∃ s' ret, fatWriteFile s name buffer = .ok (s', ret) ∧ ¬ SpecialKept s s' name := by
  obtain ⟨raw, bytes, j, ds, encoded, rfl, bound, use, same, special, holds, room⟩ := replaces
  obtain ⟨text, rfl, format⟩ := Option.bind_eq_some_iff.mp encoded
  have taken : ¬ s.fat.Vacant s.dev.disk j := fun vacant => vacant.elim use.1 use.2.1
  rcases volume.fatWriteFile_cases works format bytes with
    ⟨_, absent, _⟩ | ⟨i, cs, inside, target, ⟨filled, none, run⟩ | ⟨first, m, _, _, run⟩⟩
  · exact absurd same (absent j bound use)
  · obtain ⟨rfl, rfl⟩ := volume.target_eq inside bound target (.replace use same holds)
    refine ⟨_, _, run, fun kept => ?_⟩
    have entry := kept raw i encoded inside taken same special
    rcases room with ⟨directory, some⟩ | empty | ⟨start, room⟩
    · -- the write has failed, and the first cluster is free
      have chain := holds.resolve_left fun low => some low.2
      have marked := chain.marked _ chain.head_mem
      have linked := (entry.clusters directory cs chain _ chain.head_mem).1
      have zero := (s.fat.entry_freed s.dev.disk cs target.nodup _).trans (if_pos chain.head_mem)
      rw [← linked] at marked
      exact absurd (marked.trans_eq zero) (by decide)
    · exact absurd empty filled
    · exact none start ((FatFs.freeRun_freed target.nodup).mpr room)
  · obtain ⟨rfl, rfl⟩ := volume.target_eq inside bound target (.replace use same holds)
    have archive := s.fat.filled_archive m s.dev.disk i first bytes.length (fatFormatName_length format)
    generalize putSector m (s.fat.slotPlace (some i)).1 (fillEntry (sectorAt s.dev.disk (s.fat.slotPlace (some i)).1)
      (s.fat.slotPlace (some i)).2 raw first bytes.length) = m' at run archive
    obtain ⟨dev', refresh, rests⟩ := fatRefreshRootCache_reads (s := { s with dev := s.dev.withDisk m' })
      volume.sound.type volume.sound.rootArea (works.withDisk m').reads
    rw [refresh] at run
    refine ⟨_, _, run, fun kept => ?_⟩
    have entry := (kept raw i encoded inside taken same special).bytes 11 (by decide)
    change dev'.disk (s.fat.slotBase i + 11) = _ at entry
    rw [rests.disk] at entry
    exact special.attribute_ne (entry.symm.trans archive)

/-- Every other write returns and keeps it. -/
theorem write_keeps_special (volume : FatVolume s.dev s.fat) (works : s.dev.Works)
    (keeps : ¬ ReplacesSpecial s name buffer) :
    ∃ s' ret, fatWriteFile s name buffer = .ok (s', ret) ∧ SpecialKept s s' name := by
  rcases volume.write_outcome works name buffer with
    run | ⟨raw, bytes, i, cs, encoded, rfl, inside, target, ⟨_, _, run⟩ | ⟨first, m, placed, _, run⟩⟩
  · exact ⟨s, -1, run, fun _ i _ _ _ _ _ => .refl s.fat s.dev.disk i⟩
  · -- the write has failed, and freed the clusters of a file at most
    refine ⟨_, _, run, fun raw' j encoded' bound taken same special => ⟨fun k less => ?_, fun directory ds chain => ?_⟩⟩
    · exact volume.sound.freed_behind target.inside (by unfold FatFs.slotBase; omega)
    · cases Option.some.inj (encoded.symm.trans encoded')
      have use := directory.inUse taken
      obtain ⟨rfl, rfl⟩ := volume.target_eq inside bound target (.replace use same (Or.inr chain))
      exact absurd ⟨raw, bytes, i, cs, encoded, rfl, inside, use, same, special, Or.inr chain,
        Or.inl ⟨directory, List.ne_nil_of_mem chain.head_mem⟩⟩ keeps
  · obtain ⟨s', stored⟩ := fatRefreshRootCache_returns run volume.sound.type
    refine ⟨s', 0, stored, fun raw' j encoded' bound taken same special => ?_⟩
    cases Option.some.inj (encoded.symm.trans encoded')
    by_cases use : s.fat.InUse s.dev.disk j
    · -- it is the entry that the write goes to, and there was room
      obtain ⟨ds, holds⟩ := volume.clusters_of bound use
      obtain ⟨rfl, rfl⟩ := volume.target_eq inside bound target (.replace use same holds)
      refine absurd ⟨raw, bytes, i, cs, encoded, rfl, inside, use, same, special, holds, Or.inr ?_⟩ keeps
      exact placed.imp And.left fun free => ⟨first, (FatFs.freeRun_freed target.nodup).mp free.2⟩
    · exact ⟨fun k less => volume.long_kept works stored bound taken use less,
        fun directory => absurd (directory.inUse taken) use⟩

end FatVolume

/-- On a well-formed volume, a call of `fat_write_file` keeps the subdirectory or the volume
label under its name exactly if there is none in use, or else there is nothing to free and no
room for the bytes. -/
theorem fat_write_special_kept_iff {s₀ s : FatState} (volume : FatVolume s₀.dev fat) (works : s₀.dev.Works)
    (mounted : fatInit s₀ = .ok s) (name buffer : Option (List UInt8)) :
    ∃ s' ret, fatWriteFile s name buffer = .ok (s', ret) ∧
      (SpecialKept s s' name ↔ ¬ ReplacesSpecial s name buffer) := by
  rw [volume.fatInit_eq works] at mounted
  cases Except.ok.inj mounted
  have volume' : FatVolume (FatState.mk s₀.dev fat (fat.rootFiles s₀.dev.disk)).dev fat := volume
  by_cases replaces : ReplacesSpecial ⟨s₀.dev, fat, fat.rootFiles s₀.dev.disk⟩ name buffer
  · obtain ⟨s', ret, run, broken⟩ := volume'.write_replaces_special works replaces
    exact ⟨s', ret, run, iff_of_false broken (not_not.mpr replaces)⟩
  · obtain ⟨s', ret, run, kept⟩ := volume'.write_keeps_special works replaces
    exact ⟨s', ret, run, iff_of_true kept replaces⟩

/-- The entry of a subdirectory `A` in cluster 2. -/
def directoryEntry : List UInt8 :=
  0x41 :: List.replicate 10 0x20 ++ 0x10 :: List.replicate 14 0 ++ [2, 0, 0, 0, 0, 0]

/-- A full volume with one subdirectory. -/
def directoryDisk : FatState := ⟨sampleDevice 0xFF directoryEntry, sampleFat, []⟩

theorem directoryDisk_volume : FatVolume directoryDisk.dev sampleFat :=
  fullVolume (by decide) (by decide) (by decide)

theorem directoryDisk_works : directoryDisk.dev.Works := sampleDevice_works _ _

theorem directoryDisk_mounted :
    fatInit directoryDisk = .ok { directoryDisk with files := sampleFat.rootFiles directoryDisk.dev.disk } :=
  directoryDisk_volume.fatInit_eq directoryDisk_works

theorem directoryDisk_replaces (files : List FatFileInfo) (bytes : List UInt8) :
    ReplacesSpecial { directoryDisk with files } (some [0x41]) (some bytes) := by
  have cluster : sampleFat.slotCluster (sampleDisk 0xFF directoryEntry) 0 = 2 := by decide
  have directory : sampleFat.Directory (sampleDisk 0xFF directoryEntry) 0 := by
    unfold FatFs.Directory
    decide
  have slots : 0 < sampleFat.slots := by decide
  have use : sampleFat.InUse (sampleDisk 0xFF directoryEntry) 0 := by decide
  have named : sampleFat.slotName (sampleDisk 0xFF directoryEntry) 0 = 0x41 :: List.replicate 10 0x20 := by decide
  refine ⟨0x41 :: List.replicate 10 0x20, bytes, 0, [2], by decide, rfl, slots, use, named, Or.inl directory,
    Or.inr ?_, Or.inl ⟨directory, by decide⟩⟩
  change sampleFat.Chain (sampleDisk 0xFF directoryEntry) (sampleFat.slotCluster (sampleDisk 0xFF directoryEntry) 0) [2]
  rw [cluster]
  exact sampleDisk_chain directoryEntry

theorem fat_write_special_directoryDisk :
    ∃ s s' ret, fatInit directoryDisk = .ok s ∧ fatWriteFile s (some [0x41]) (some [7]) = .ok (s', ret) ∧
      ¬ SpecialKept s s' (some [0x41]) := by
  obtain ⟨s', ret, run, exact⟩ := fat_write_special_kept_iff directoryDisk_volume directoryDisk_works
    directoryDisk_mounted (some [0x41]) (some [7])
  exact ⟨_, s', ret, directoryDisk_mounted, run, fun kept => exact.mp kept (directoryDisk_replaces _ _)⟩

/-- Writing a file `A` replaces the subdirectory `A`. -/
theorem fat_write_replaces_directory :
    ¬ ∀ (s₀ s s' : FatState) (fat : FatFs) (name buffer : Option (List UInt8)) (ret : Int), FatVolume s₀.dev fat →
      s₀.dev.Works → fatInit s₀ = .ok s → fatWriteFile s name buffer = .ok (s', ret) → SpecialKept s s' name := by
  intro claim
  obtain ⟨s', ret, run, broken⟩ := FatVolume.write_replaces_special
    (s := { directoryDisk with files := sampleFat.rootFiles directoryDisk.dev.disk }) directoryDisk_volume
    directoryDisk_works (directoryDisk_replaces _ [7])
  exact broken (claim directoryDisk _ s' sampleFat _ _ ret directoryDisk_volume directoryDisk_works directoryDisk_mounted run)

end LearningOS
