import LearningOS.Fat.Names
import LearningOS.Fat.Write

namespace LearningOS
open ByteStore

/-- A FAT16 volume by its boot sector: sectors of 512 bytes, at least one FAT, large
enough for every data cluster, and regions inside the device. -/
structure FatLayout (dev : StorageDevice) (fat : FatFs) : Prop where
  boot : fatGeometry (sectorAt dev.disk 0) = .ok fat
  type : fat.fatType = 16
  bytes : fat.bytesPerSector = 512
  fats : 0 < fat.numFats
  regions : fat.reservedSectors + fat.numFats * fat.fatSize + fat.rootDirSectors ≤ totalSectors (sectorAt dev.disk 0)
  device : totalSectors (sectorAt dev.disk 0) ≤ dev.sectors
  table : 2 * (fat.totalClusters + 2) ≤ 512 * fat.fatSize

/-- A well-formed FAT16 volume: its boot sector states a geometry whose regions
lie inside the device, the entries of its root directory have distinct names and
chains of clusters that do not meet, and the names of those shown are padded. -/
structure FatVolume (dev : StorageDevice) (fat : FatFs) : Prop where
  boot : fatGeometry (sectorAt dev.disk 0) = .ok fat
  type : fat.fatType = 16
  bytes : fat.bytesPerSector = 512
  fats : 0 < fat.numFats
  regions : fat.reservedSectors + fat.numFats * fat.fatSize + fat.rootDirSectors ≤ totalSectors (sectorAt dev.disk 0)
  device : totalSectors (sectorAt dev.disk 0) ≤ dev.sectors
  table : 2 * (fat.totalClusters + 2) ≤ 512 * fat.fatSize
  ended : fat.Ended dev.disk
  names : ∀ i, i < fat.slots → fat.Visible dev.disk i → PaddedName (fat.slotName dev.disk i)
  distinct : ∀ i j, i < fat.slots → j < fat.slots → fat.InUse dev.disk i → fat.InUse dev.disk j →
    fat.slotName dev.disk i = fat.slotName dev.disk j → i = j
  chains : ∀ i, i < fat.slots → fat.InUse dev.disk i →
    fat.slotCluster dev.disk i < 2 ∨ ∃ cs, fat.Chain dev.disk (fat.slotCluster dev.disk i) cs
  disjoint : ∀ i j cs ds, i < fat.slots → j < fat.slots → fat.InUse dev.disk i → fat.InUse dev.disk j → i ≠ j →
    fat.Chain dev.disk (fat.slotCluster dev.disk i) cs → fat.Chain dev.disk (fat.slotCluster dev.disk j) ds →
      cs.Disjoint ds

/-- What a boot sector without a zero divisor is read as. -/
theorem fatGeometry_ok {bpb : Bytes} {fat : FatFs} (boot : fatGeometry bpb = .ok fat) :
    fat.attached = true ∧ 0 < fat.sectorsPerCluster ∧ fat.firstFatSector = fat.reservedSectors ∧
      fat.rootDirSector = u32 (fat.reservedSectors + fat.numFats * fat.fatSize) ∧
      fat.firstDataSector = u32 (fat.reservedSectors + fat.numFats * fat.fatSize + fat.rootDirSectors) ∧
      fat.totalClusters = sub32 (totalSectors bpb) fat.firstDataSector / fat.sectorsPerCluster ∧
      fat.fatType = if fat.totalClusters < 4085 then 0 else if fat.totalClusters < 65525 then 16 else 32 := by
  simp only [fatGeometry] at boot
  split at boot
  · simp at boot
  · split at boot
    · simp at boot
    · rename_i _ cluster
      cases Except.ok.inj boot
      exact ⟨rfl, Nat.pos_of_ne_zero cluster, rfl, rfl, rfl, rfl, rfl⟩

theorem totalSectors_lt (bpb : Bytes) : totalSectors bpb < 2 ^ 32 := by
  have small := load16_lt bpb 19
  have large := load32_lt bpb 32
  unfold totalSectors
  split
  · omega
  · omega

/-- Regions that fit lie one after the other. -/
theorem fatGeometry_regions {bpb : Bytes} {fat : FatFs} (boot : fatGeometry bpb = .ok fat)
    (regions : fat.reservedSectors + fat.numFats * fat.fatSize + fat.rootDirSectors ≤ totalSectors bpb) :
    fat.firstFatSector = fat.reservedSectors ∧
      fat.rootDirSector = fat.reservedSectors + fat.numFats * fat.fatSize ∧
      fat.firstDataSector = fat.rootDirSector + fat.rootDirSectors ∧
      fat.firstDataSector + fat.totalClusters * fat.sectorsPerCluster ≤ totalSectors bpb := by
  obtain ⟨_, _, first, root, data, clusters, _⟩ := fatGeometry_ok boot
  have total := totalSectors_lt bpb
  rw [u32_of_lt (by omega)] at root data
  rw [sub32_of_le (by omega) total] at clusters
  have inside : fat.totalClusters * fat.sectorsPerCluster ≤ totalSectors bpb - fat.firstDataSector := by
    rw [clusters]
    exact Nat.div_mul_le_self _ _
  exact ⟨first, root, by omega, by omega⟩

namespace FatLayout
variable {dev : StorageDevice} {fat : FatFs}

/-- The regions lie one after the other. -/
theorem order (layout : FatLayout dev fat) : fat.firstFatSector = fat.reservedSectors ∧
    fat.rootDirSector = fat.reservedSectors + fat.numFats * fat.fatSize ∧
      fat.firstDataSector = fat.rootDirSector + fat.rootDirSectors := by
  obtain ⟨first, root, data, _⟩ := fatGeometry_regions layout.boot layout.regions
  exact ⟨first, root, data⟩

theorem sound (layout : FatLayout dev fat) : fat.Sound dev.sectors := by
  obtain ⟨attached, cluster, _, _, _, _, type⟩ := fatGeometry_ok layout.boot
  obtain ⟨first, root, data, inside⟩ := fatGeometry_regions layout.boot layout.regions
  have total := totalSectors_lt (sectorAt dev.disk 0)
  have device := layout.device
  have copy : fat.fatSize ≤ fat.numFats * fat.fatSize := Nat.le_mul_of_pos_left _ layout.fats
  have range : 4085 ≤ fat.totalClusters ∧ fat.totalClusters < 65525 := by
    have kind := layout.type
    rw [type] at kind
    split at kind
    · simp at kind
    · split at kind
      · omega
      · simp at kind
  exact ⟨attached, layout.bytes, layout.type, cluster, layout.table, by omega, by omega, by omega, by omega,
    range.1, range.2⟩

/-- Mounting lists the root directory, whatever its entries are. -/
theorem fatInit_eq {s : FatState} (layout : FatLayout s.dev fat) (works : s.dev.Works) (ended : fat.Ended s.dev.disk) :
    fatInit s = .ok { s with fat, files := fat.rootFiles s.dev.disk } := by
  have sound := layout.sound
  have data := sound.data
  have many := Nat.mul_le_mul sound.many sound.cluster
  have first : 0 < s.dev.sectors := by omega
  rw [fatInit, fatInitWithin, if_neg (by simp [works.present, works.read]), works.readSector_eq first]
  change (fatGeometry (sectorAt s.dev.disk 0) >>= _) = _
  rw [layout.boot]
  change (if fat.fatType = 0 then _ else fatRefreshRootCache { s with fat }) = _
  rw [if_neg (by rw [layout.type]; decide)]
  exact fatRefreshRootCache_eq (s := { s with fat }) works sound ended

/-- The layout is that of the boot sector. -/
theorem congr {dev' : StorageDevice} (layout : FatLayout dev fat) (sectors : dev'.sectors = dev.sectors)
    (boot : sectorAt dev'.disk 0 = sectorAt dev.disk 0) : FatLayout dev' fat := by
  have same := layout
  obtain ⟨_, type, bytes, fats, _, _, table⟩ := layout
  exact ⟨boot ▸ same.boot, type, bytes, fats, boot ▸ same.regions, boot ▸ sectors ▸ same.device, table⟩

/-- A volume with no entry in its root directory is well formed. -/
theorem volume (layout : FatLayout dev fat) (empty : ∀ i, i < fat.slots → dev.disk (fat.slotBase i) = 0) :
    FatVolume dev fat := by
  have unused {i : Nat} (inside : i < fat.slots) : ¬ fat.InUse dev.disk i := fun use => use.1 (empty i inside)
  exact ⟨layout.boot, layout.type, layout.bytes, layout.fats, layout.regions, layout.device, layout.table,
    fun _ j _ inside _ => empty j inside, fun _ inside visible => absurd visible.1 (unused inside),
    fun _ _ inside _ use => absurd use (unused inside), fun _ inside use => absurd use (unused inside),
    fun _ _ _ _ inside _ use => absurd use (unused inside)⟩

end FatLayout

namespace FatVolume
variable {dev : StorageDevice} {fat : FatFs}

theorem layout (volume : FatVolume dev fat) : FatLayout dev fat :=
  ⟨volume.boot, volume.type, volume.bytes, volume.fats, volume.regions, volume.device, volume.table⟩

theorem sound (volume : FatVolume dev fat) : fat.Sound dev.sectors := volume.layout.sound

/-- Mounting a well-formed volume lists its root directory. -/
theorem fatInit_eq {s : FatState} (volume : FatVolume s.dev fat) (works : s.dev.Works) :
    fatInit s = .ok { s with fat, files := fat.rootFiles s.dev.disk } := volume.layout.fatInit_eq works volume.ended

end FatVolume

/-- The start of a boot sector: 40000 clusters of 128 sectors, one FAT of 256
sectors, a root directory of one sector. -/
def sampleBoot : List UInt8 :=
  [0xEB, 0x3C, 0x90, 0, 0, 0, 0, 0, 0, 0, 0, 0x00, 0x02, 0x80, 0x01, 0x00, 0x01, 0x10, 0x00, 0x00, 0x00, 0xF8, 0x00,
    0x01, 0, 0, 0, 0, 0, 0, 0, 0, 0x02, 0x21, 0x4E, 0x00]

/-- A disk whose FAT holds the same byte throughout and whose root directory has
at most one entry. -/
def sampleDisk (fatByte : UInt8) (entry : List UInt8) : Bytes := fun x =>
  if x < 512 then sampleBoot.getD x 0
  else if x < 512 * 257 then fatByte
  else if x < 512 * 258 then entry.getD (x - 512 * 257) 0
  else 0

def sampleDevice (fatByte : UInt8) (entry : List UInt8) : StorageDevice :=
  ⟨true, true, true, 5120258, sampleDisk fatByte entry, fun _ _ => false, fun _ _ => false⟩

def sampleFat : FatFs :=
  ⟨true, 512, 128, 1, 1, 256, 16, 1, 1, 258, 257, 0, 16, 40000⟩

theorem sampleDevice_works (fatByte : UInt8) (entry : List UInt8) : (sampleDevice fatByte entry).Works :=
  ⟨rfl, rfl, rfl, rfl, rfl⟩

theorem sampleDisk_boot (fatByte : UInt8) (entry : List UInt8) :
    sectorAt (sampleDisk fatByte entry) 0 = fun i => sampleBoot.getD i 0 := by
  funext i
  by_cases inside : i < 512
  · rw [sectorAt_apply inside, sampleDisk, if_pos (by omega), Nat.mul_zero, Nat.zero_add]
  · have length : sampleBoot.length = 36 := rfl
    rw [sectorAt, if_neg inside, List.getD_eq_getElem?_getD, List.getElem?_eq_none (by omega)]
    rfl

theorem sampleDisk_entry {fatByte : UInt8} {entry : List UInt8} {c : Nat} (inside : c < 40002) :
    sampleFat.entry (sampleDisk fatByte entry) c = 257 * fatByte.toNat := by
  have byte {x : Nat} (low : 512 ≤ x) (high : x < 512 * 257) : sampleDisk fatByte entry x = fatByte := by
    rw [sampleDisk, if_neg (by omega), if_pos high]
  have base : sampleFat.tableBase = 512 := rfl
  rw [FatFs.entry, word, load16, base, byte (by omega) (by omega), byte (by omega) (by omega)]
  omega

/-- Only the first entry of the sample's directory may be in use. -/
theorem sampleDisk_slot {fatByte : UInt8} {entry : List UInt8} (short : entry.length ≤ 32) {i : Nat}
    (inside : i < 16) (other : i ≠ 0) : sampleDisk fatByte entry (sampleFat.slotBase i) = 0 := by
  have base : sampleFat.slotBase i = 512 * 257 + 32 * i := rfl
  rw [sampleDisk, base, if_neg (by omega), if_neg (by omega), if_pos (by omega), Nat.add_sub_cancel_left]
  rw [List.getD_eq_getElem?_getD, List.getElem?_eq_none (by omega)]
  rfl

theorem sampleVolume {fatByte : UInt8} {entry : List UInt8} (short : entry.length ≤ 32)
    (name : sampleFat.InUse (sampleDisk fatByte entry) 0 → PaddedName (sampleFat.slotName (sampleDisk fatByte entry) 0))
    (chain : sampleFat.InUse (sampleDisk fatByte entry) 0 →
      ∃ cs, sampleFat.Chain (sampleDisk fatByte entry) (sampleFat.slotCluster (sampleDisk fatByte entry) 0) cs) :
    FatVolume (sampleDevice fatByte entry) sampleFat := by
  have slots : sampleFat.slots = 16 := rfl
  have first {i : Nat} (inside : i < sampleFat.slots) (use : sampleFat.InUse (sampleDisk fatByte entry) i) : i = 0 := by
    by_contra other
    exact use.1 (sampleDisk_slot short inside other)
  have boot : sectorAt (sampleDevice fatByte entry).disk 0 = fun i => sampleBoot.getD i 0 :=
    sampleDisk_boot fatByte entry
  have size : (sampleDevice fatByte entry).sectors = 5120258 := rfl
  refine ⟨by rw [boot]; rfl, rfl, rfl, by decide, by rw [boot]; decide, by rw [boot, size]; decide, by decide,
    fun i j order inside zero => ?_, fun i inside use => ?_,
    fun i j atI atJ useI useJ _ => (first atI useI).trans (first atJ useJ).symm, fun i inside use => ?_,
    fun i j _ _ atI atJ useI useJ differ => absurd ((first atI useI).trans (first atJ useJ).symm) differ⟩
  · by_cases zero' : j = 0
    · obtain rfl : i = j := by omega
      exact zero
    · exact sampleDisk_slot short inside zero'
  · cases first inside use.1
    exact name use.1
  · cases first inside use
    exact Or.inr (chain use)

end LearningOS
