import LearningOS.Fat.Mount

namespace LearningOS
open ByteStore

/-- The regions of a volume, computed without wrap-around, lie inside its sectors, and
so does every sector that a data cluster is mapped to. -/
structure FatFs.Consistent (fat : FatFs) (total : Nat) : Prop where
  regions : fat.reservedSectors + fat.numFats * fat.fatSize + fat.rootDirSectors ≤ total
  data : fat.firstDataSector + fat.totalClusters * fat.sectorsPerCluster ≤ total
  clusters : ∀ c, fat.IsCluster c → ∀ s, s < fat.sectorsPerCluster →
    fat.firstDataSector ≤ fatClusterToLba fat c ∧ fatClusterToLba fat c + s < total

/-- The sectors that a boot sector states in front of the data, without wrap-around. -/
def regionSectors (bpb : Bytes) : Nat :=
  load16 bpb 14 + (bpb 16).toNat * (if load16 bpb 22 ≠ 0 then load16 bpb 22 else load32 bpb 36) +
    (load16 bpb 17 * 32 + (load16 bpb 11 - 1)) / load16 bpb 11

/-- The 32-bit number of data sectors that `fat_init` computes. -/
def dataSectors (bpb : Bytes) : Nat := sub32 (totalSectors bpb) (u32 (regionSectors bpb))

theorem fatGeometry_fields {bpb : Bytes} {fat : FatFs} (boot : fatGeometry bpb = .ok fat) :
    fat.bytesPerSector = load16 bpb 11 ∧ fat.sectorsPerCluster = (bpb 13).toNat ∧
      fat.reservedSectors = load16 bpb 14 ∧
      fat.reservedSectors + fat.numFats * fat.fatSize + fat.rootDirSectors = regionSectors bpb := by
  simp only [fatGeometry] at boot
  split at boot
  · simp at boot
  · split at boot
    · simp at boot
    · cases Except.ok.inj boot
      exact ⟨rfl, rfl, rfl, rfl⟩

theorem fatGeometry_returns {bpb : Bytes} (bytes : load16 bpb 11 ≠ 0) (cluster : bpb 13 ≠ 0) :
    ∃ fat, fatGeometry bpb = .ok fat := by
  have positive : (bpb 13).toNat ≠ 0 := fun zero => cluster (UInt8.toNat_inj.mp zero)
  simp only [fatGeometry, if_neg bytes, if_neg positive]
  exact ⟨_, rfl⟩

theorem fatGeometry_trap {bpb : Bytes} {trap : Trap} (boot : fatGeometry bpb = .error trap) : trap = .divideByZero := by
  simp only [fatGeometry] at boot
  split at boot
  · exact (Except.error.inj boot).symm
  · split at boot
    · exact (Except.error.inj boot).symm
    · simp at boot

/-- Without a zero divisor the boot sector decides the geometry, and only a volume with a
type is scanned. -/
theorem fatInitWithin_boot {limit : Nat} {s : FatState} {dev : StorageDevice} {bpb : Bytes} {fat : FatFs}
    (read : readSector s.dev 0 = (dev, some bpb)) (boot : fatGeometry bpb = .ok fat) :
    fatInitWithin limit s =
      if fat.fatType = 0 then .ok { s with dev, fat } else fatRefreshRootCacheWithin limit { s with dev, fat } := by
  have enabled : ¬ (¬ s.dev.present ∨ ¬ s.dev.read) := by
    intro off
    rw [readSector, if_pos off] at read
    simp at read
  rw [fatInitWithin, if_neg enabled, read]
  change (fatGeometry bpb >>= _) = _
  rw [boot]
  rfl

theorem fatInit_boot {s : FatState} {dev : StorageDevice} {bpb : Bytes} {fat : FatFs}
    (read : readSector s.dev 0 = (dev, some bpb)) (boot : fatGeometry bpb = .ok fat) :
    fatInit s = if fat.fatType = 0 then .ok { s with dev, fat } else fatRefreshRootCache { s with dev, fat } :=
  fatInitWithin_boot read boot

/-- Regions that fit make a consistent geometry. -/
theorem FatFs.consistent {bpb : Bytes} {fat : FatFs} (boot : fatGeometry bpb = .ok fat)
    (regions : fat.reservedSectors + fat.numFats * fat.fatSize + fat.rootDirSectors ≤ totalSectors bpb) :
    fat.Consistent (totalSectors bpb) := by
  have total := totalSectors_lt bpb
  obtain ⟨_, _, _, inside⟩ := fatGeometry_regions boot regions
  refine ⟨regions, inside, fun c member s less => ?_⟩
  obtain ⟨two, upper⟩ := member
  have within : (c - 2 + 1) * fat.sectorsPerCluster ≤ fat.totalClusters * fat.sectorsPerCluster :=
    Nat.mul_le_mul_right _ (by omega)
  have many : c - 2 + 1 ≤ (c - 2 + 1) * fat.sectorsPerCluster := Nat.le_mul_of_pos_right _ (by omega)
  rw [Nat.succ_mul] at within many
  have difference : sub32 c 2 = c - 2 := by
    unfold sub32 u32
    omega
  rw [fatClusterToLba, difference, u32_of_lt (by omega)]
  exact ⟨Nat.le_add_right _ _, by omega⟩

/-- The type of a volume is decided by the wrapped number of its data sectors. -/
theorem fatGeometry_type {bpb : Bytes} {fat : FatFs} (boot : fatGeometry bpb = .ok fat) :
    fat.fatType = 16 ∨ fat.fatType = 32 ↔ 4085 ≤ dataSectors bpb / (bpb 13).toNat := by
  obtain ⟨_, _, _, _, data, clusters, type⟩ := fatGeometry_ok boot
  obtain ⟨_, cluster, _, regions⟩ := fatGeometry_fields boot
  rw [data, regions, cluster] at clusters
  unfold dataSectors
  rw [type, ← clusters]
  split
  · simp only [show ¬ (0 = 16) by decide, show ¬ (0 = 32) by decide, or_self, false_iff]
    omega
  · split
    · exact ⟨fun _ => by omega, fun _ => Or.inl rfl⟩
    · exact ⟨fun _ => by omega, fun _ => Or.inr rfl⟩

/-- An accepted boot sector states a consistent geometry exactly if its regions fit into
its sectors, or the wrapped number of data sectors is one that is rejected. -/
theorem fat_geometry_consistent_iff {s : FatState} {dev : StorageDevice} {bpb : Bytes}
    (read : readSector s.dev 0 = (dev, some bpb)) (bytes : load16 bpb 11 ≠ 0) (cluster : bpb 13 ≠ 0) :
    ∃ fat, fatGeometry bpb = .ok fat ∧
      fatInit s = (if fat.fatType = 0 then .ok { s with dev, fat } else fatRefreshRootCache { s with dev, fat }) ∧
      ((fat.fatType = 16 ∨ fat.fatType = 32 → fat.Consistent (totalSectors bpb)) ↔
        regionSectors bpb ≤ totalSectors bpb ∨ dataSectors bpb / (bpb 13).toNat < 4085) := by
  obtain ⟨fat, boot⟩ := fatGeometry_returns bytes cluster
  obtain ⟨_, _, _, regions⟩ := fatGeometry_fields boot
  refine ⟨fat, boot, fatInit_boot read boot, ?_⟩
  rw [fatGeometry_type boot]
  constructor
  · intro consistent
    rcases Nat.lt_or_ge (dataSectors bpb / (bpb 13).toNat) 4085 with few | many
    · exact Or.inr few
    · have fits := (consistent many).regions
      rw [regions] at fits
      exact Or.inl fits
  · rintro (fits | few) many
    · rw [← regions] at fits
      exact FatFs.consistent boot fits
    · omega

theorem fat_geometry_consistent_sample :
    ∃ fat, fatGeometry (sectorAt (sampleDisk 0 []) 0) = .ok fat ∧ fat.fatType = 16 ∧
      fat.Consistent (totalSectors (sectorAt (sampleDisk 0 []) 0)) := by
  have works := sampleDevice_works 0 []
  have read := works.readSector_eq (show 0 < (sampleDevice 0 []).sectors by decide)
  obtain ⟨fat, boot, _, exact⟩ := fat_geometry_consistent_iff (s := ⟨sampleDevice 0 [], sampleFat, []⟩) read
    (by decide) (by decide)
  have known : fatGeometry (sectorAt (sampleDisk 0 []) 0) = .ok sampleFat := by
    rw [sampleDisk_boot]
    rfl
  cases Except.ok.inj (known.symm.trans boot)
  refine ⟨sampleFat, boot, rfl, exact.mpr (Or.inl ?_) (Or.inl rfl)⟩
  change regionSectors (sectorAt (sampleDisk 0 []) 0) ≤ totalSectors (sectorAt (sampleDisk 0 []) 0)
  rw [sampleDisk_boot]
  decide

/-- The start of a boot sector that states ten sectors, two FATs of nine and a root
directory of one. -/
def tinyBoot : List UInt8 :=
  [0xEB, 0x3C, 0x90, 0, 0, 0, 0, 0, 0, 0, 0, 0x00, 0x02, 0x01, 0x01, 0x00, 0x02, 0x10, 0x00, 0x0A, 0x00, 0xF8, 0x09,
    0x00]

theorem fat_geometry_underflows :
    ¬ ∀ (bpb : Bytes) (fat : FatFs), load16 bpb 11 ≠ 0 → bpb 13 ≠ 0 → fatGeometry bpb = .ok fat →
      fat.fatType = 16 ∨ fat.fatType = 32 → fat.Consistent (totalSectors bpb) := by
  intro claim
  obtain ⟨fat, boot⟩ := fatGeometry_returns (show load16 (fun i => tinyBoot.getD i 0) 11 ≠ 0 by decide) (by decide)
  have accepted := (fatGeometry_type boot).mpr (by decide)
  have consistent := claim _ fat (by decide) (by decide) boot accepted
  have regions := consistent.regions
  rw [(fatGeometry_fields boot).2.2.2] at regions
  exact absurd regions (by decide)

end LearningOS
