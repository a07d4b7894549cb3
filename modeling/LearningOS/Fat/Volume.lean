import LearningOS.Fat.Model
import LearningOS.Store.Links
import LearningOS.Store.Words

namespace LearningOS
open ByteStore Links

/-- A mounted FAT16 geometry whose regions lie one after the other inside the
device, with a FAT entry for every data cluster. -/
structure FatFs.Sound (fat : FatFs) (sectors : Nat) : Prop where
  attached : fat.attached = true
  bytes : fat.bytesPerSector = 512
  type : fat.fatType = 16
  cluster : 0 < fat.sectorsPerCluster
  table : 2 * (fat.totalClusters + 2) ≤ 512 * fat.fatSize
  fats : fat.firstFatSector + fat.fatSize ≤ fat.rootDirSector
  root : fat.rootDirSector + fat.rootDirSectors = fat.firstDataSector
  data : fat.firstDataSector + fat.totalClusters * fat.sectorsPerCluster ≤ sectors
  small : fat.firstDataSector + fat.totalClusters * fat.sectorsPerCluster < 2 ^ 32
  many : 4085 ≤ fat.totalClusters
  clusters : fat.totalClusters < 65525

/-- The size of a FAT entry. -/
def FatFs.entryBytes (fat : FatFs) : Nat := if fat.fatType = 16 then 2 else 4

/-- The least of the FAT entries that end a chain. -/
def FatFs.endMark (fat : FatFs) : Nat := if fat.fatType = 16 then 0xFFF8 else 0x0FFFFFF8

/-- A geometry of either type whose files can be read: a FAT with an entry for every
data cluster, then the data, inside the device. -/
structure FatFs.Readable (fat : FatFs) (sectors : Nat) : Prop where
  bytes : fat.bytesPerSector = 512
  type : fat.fatType = 16 ∨ fat.fatType = 32
  cluster : 0 < fat.sectorsPerCluster
  table : fat.entryBytes * (fat.totalClusters + 2) ≤ 512 * fat.fatSize
  fats : fat.firstFatSector + fat.fatSize ≤ fat.firstDataSector
  data : fat.firstDataSector + fat.totalClusters * fat.sectorsPerCluster ≤ sectors
  small : fat.firstDataSector + fat.totalClusters * fat.sectorsPerCluster < 2 ^ 32
  clusters : fat.totalClusters + 2 ≤ fat.endMark

theorem FatFs.Sound.readable {fat : FatFs} {sectors : Nat} (sound : fat.Sound sectors) : fat.Readable sectors := by
  have fats := sound.fats
  have root := sound.root
  have table := sound.table
  have clusters := sound.clusters
  refine ⟨sound.bytes, Or.inl sound.type, sound.cluster, ?_, by omega, sound.data, sound.small, ?_⟩
  · rwa [FatFs.entryBytes, if_pos sound.type]
  · rw [FatFs.endMark, if_pos sound.type]
    omega

/-- The data clusters. -/
def FatFs.IsCluster (fat : FatFs) (c : Nat) : Prop := 2 ≤ c ∧ c < fat.totalClusters + 2

/-- Where the first FAT starts on the disk. -/
def FatFs.tableBase (fat : FatFs) : Nat := 512 * fat.firstFatSector

def FatFs.clusterBytes (fat : FatFs) : Nat := 512 * fat.sectorsPerCluster

/-- Where the bytes of a cluster start on the disk. -/
def FatFs.clusterBase (fat : FatFs) (c : Nat) : Nat := 512 * fat.firstDataSector + (c - 2) * fat.clusterBytes

/-- The first sector of a cluster. -/
def FatFs.clusterSector (fat : FatFs) (c : Nat) : Nat := fat.firstDataSector + (c - 2) * fat.sectorsPerCluster

/-- The sector of a FAT entry. -/
def FatFs.entrySector (fat : FatFs) (c : Nat) : Nat := fat.firstFatSector + fat.entryBytes * c / 512

/-- How many entries the root directory has room for. -/
def FatFs.slots (fat : FatFs) : Nat := 16 * fat.rootDirSectors

/-- Where an entry of the root directory starts on the disk. -/
def FatFs.slotBase (fat : FatFs) (i : Nat) : Nat := 512 * fat.rootDirSector + 32 * i

/-- The FAT entry of a cluster. -/
def FatFs.entry (fat : FatFs) (m : Bytes) (c : Nat) : Nat := word m fat.tableBase c

/-- The cluster a FAT entry links to, if it is no mark. -/
def FatFs.link (fat : FatFs) (m : Bytes) (c : Nat) : Option Nat :=
  if 2 ≤ fat.entry m c ∧ fat.entry m c < 0xFFF8 then some (fat.entry m c) else none

theorem FatFs.link_eq_some {fat : FatFs} {m : Bytes} {c d : Nat} (link : fat.link m c = some d) :
    fat.entry m c = d ∧ 2 ≤ d ∧ d < 0xFFF8 := by
  unfold FatFs.link at link
  split at link
  · rename_i both
    cases Option.some.inj link
    exact ⟨rfl, both⟩
  · simp at link

theorem FatFs.link_eq_none {fat : FatFs} {m : Bytes} {c : Nat} (ends : fat.link m c = none) :
    ¬ (fat.entry m c ≥ 2 ∧ fat.entry m c < 0xFFF8) := fun both => by
  simp [FatFs.link, both.1, both.2] at ends

/-- The clusters of a file: links in range up to an end mark. -/
structure FatFs.Chain (fat : FatFs) (m : Bytes) (first : Nat) (cs : List Nat) : Prop where
  path : Path (fat.link m) first cs
  inside : ∀ c ∈ cs, fat.IsCluster c
  marked : ∀ c ∈ cs, 2 ≤ fat.entry m c

/-- The bytes of a cluster. -/
def FatFs.clusterData (fat : FatFs) (m : Bytes) (c : Nat) : List UInt8 := window m (fat.clusterBase c) fat.clusterBytes

theorem FatFs.clusterBase_eq (fat : FatFs) (c : Nat) : fat.clusterBase c = 512 * fat.clusterSector c := by
  unfold FatFs.clusterBase FatFs.clusterSector FatFs.clusterBytes
  rw [Nat.mul_add, Nat.mul_left_comm]

namespace FatFs.Readable
variable {fat : FatFs} {sectors : Nat}

theorem totalClusters_lt (readable : fat.Readable sectors) : fat.totalClusters + 2 ≤ 0x0FFFFFF8 := by
  have clusters := readable.clusters
  unfold FatFs.endMark at clusters
  split at clusters
  · omega
  · exact clusters

/-- The sectors of a cluster lie one after the other. -/
theorem lba_eq (readable : fat.Readable sectors) {c s : Nat} (member : fat.IsCluster c)
    (inside : s < fat.sectorsPerCluster) :
    u32 (fatClusterToLba fat c + s) = fat.clusterSector c + s ∧ fat.clusterSector c + s < sectors := by
  have two := member.1
  have upper := member.2
  have within : (c - 2 + 1) * fat.sectorsPerCluster ≤ fat.totalClusters * fat.sectorsPerCluster :=
    Nat.mul_le_mul_right _ (by omega)
  rw [Nat.succ_mul] at within
  have data := readable.data
  have small := readable.small
  have clusters := readable.totalClusters_lt
  have difference : sub32 c 2 = c - 2 := sub32_of_le two (by omega)
  have lba : fatClusterToLba fat c = fat.clusterSector c := by
    rw [fatClusterToLba, difference]
    exact u32_of_lt (by omega)
  unfold FatFs.clusterSector at lba ⊢
  rw [lba, u32_of_lt (by omega)]
  exact ⟨rfl, by omega⟩

theorem entrySector_lt (readable : fat.Readable sectors) {c : Nat} (member : fat.IsCluster c) :
    fat.entrySector c < sectors := by
  have table := readable.table
  have fats := readable.fats
  have data := readable.data
  have positive : 0 < fat.entryBytes := by
    unfold FatFs.entryBytes
    split
    · decide
    · decide
  have inside := Nat.mul_lt_mul_of_pos_left member.2 positive
  unfold FatFs.entrySector
  omega

end FatFs.Readable

namespace FatFs.Sound
variable {fat : FatFs} {sectors : Nat}

/-- The clusters lie one after the other behind the root directory. -/
theorem clusterBase_succ (fat : FatFs) {c : Nat} (two : 2 ≤ c) :
    fat.clusterBase (c + 1) = fat.clusterBase c + fat.clusterBytes := by
  have next : (c + 1 - 2) * fat.clusterBytes = (c - 2) * fat.clusterBytes + fat.clusterBytes := by
    rw [← Nat.succ_mul]
    congr 1
    omega
  unfold FatFs.clusterBase
  omega

theorem clusterBase_mono (fat : FatFs) {c d : Nat} (two : 2 ≤ c) (less : c < d) :
    fat.clusterBase c + fat.clusterBytes ≤ fat.clusterBase d := by
  rw [← clusterBase_succ fat two]
  unfold FatFs.clusterBase
  have ordered := Nat.mul_le_mul_right fat.clusterBytes (show c + 1 - 2 ≤ d - 2 by omega)
  omega

theorem clusterBytes_lt (sound : fat.Sound sectors) : 0 < fat.clusterBytes ∧ fat.clusterBytes < 2 ^ 32 := by
  have positive := sound.cluster
  have small := sound.small
  have many := Nat.mul_le_mul_right fat.sectorsPerCluster sound.many
  unfold FatFs.clusterBytes
  omega

/-- The sectors of a cluster are those its bytes lie in. -/
theorem lba_eq (sound : fat.Sound sectors) {c s : Nat} (member : fat.IsCluster c) (inside : s < fat.sectorsPerCluster) :
    512 * u32 (fatClusterToLba fat c + s) = fat.clusterBase c + 512 * s ∧
      u32 (fatClusterToLba fat c + s) < sectors := by
  obtain ⟨address, onDisk⟩ := sound.readable.lba_eq member inside
  rw [address, fat.clusterBase_eq]
  exact ⟨Nat.mul_add 512 _ _, onDisk⟩

theorem entry_sector (sound : fat.Sound sectors) {c : Nat} (bound : c < fat.totalClusters + 2) :
    u32 (fat.firstFatSector + 2 * c / 512) = fat.firstFatSector + 2 * c / 512 ∧
      fat.firstFatSector + 2 * c / 512 < sectors ∧
      512 * (fat.firstFatSector + 2 * c / 512) + 2 * c % 512 = fat.tableBase + 2 * c := by
  have table := sound.table
  have fats := sound.fats
  have root := sound.root
  have data := sound.data
  have small := sound.small
  refine ⟨u32_of_lt (by omega), by omega, ?_⟩
  unfold FatFs.tableBase
  omega

/-- The bytes of the FAT end before the root directory. -/
theorem entry_before_root (sound : fat.Sound sectors) {c : Nat} (bound : c < fat.totalClusters + 2) (i : Nat) :
    fat.tableBase + 2 * c + 2 ≤ fat.slotBase i := by
  have table := sound.table
  have fats := sound.fats
  unfold FatFs.tableBase FatFs.slotBase
  omega

/-- The root directory ends before the data. -/
theorem slot_before_data (sound : fat.Sound sectors) {i : Nat} (bound : i < fat.slots) (c : Nat) :
    fat.slotBase i + 32 ≤ fat.clusterBase c := by
  have root := sound.root
  have less : 512 * fat.firstDataSector ≤ fat.clusterBase c := Nat.le_add_right _ _
  unfold FatFs.slots at bound
  unfold FatFs.slotBase
  omega

theorem entry_before_data (sound : fat.Sound sectors) {c : Nat} (bound : c < fat.totalClusters + 2) (d : Nat) :
    fat.tableBase + 2 * c + 2 ≤ fat.clusterBase d := by
  have before := sound.entry_before_root bound 0
  have root := sound.root
  have less : 512 * fat.firstDataSector ≤ fat.clusterBase d := Nat.le_add_right _ _
  unfold FatFs.slotBase at before
  omega

end FatFs.Sound

end LearningOS
