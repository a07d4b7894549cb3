import LearningOS.Fat.Mount
import LearningOS.Storage.Requests

namespace LearningOS
open ByteStore

namespace FatFs
variable (fat : FatFs)

/-- The sector that holds a FAT16 entry, where sectors have 512 bytes. -/
def wordSector (c : Nat) : Nat := u32 (fat.firstFatSector + 2 * c / 512)

/-- Where the entry is on the disk. -/
def wordPlace (c : Nat) : Nat := 512 * fat.wordSector c + 2 * c % 512

end FatFs

section
variable {fat : FatFs} {dev : StorageDevice} {c d : Nat}

/-- Entries of different clusters do not meet, also where the numbers of the sectors wrap
around. -/
theorem FatFs.wordPlace_apart (fat : FatFs) (smallC : c < 2 ^ 16) (smallD : d < 2 ^ 16) (differ : d ≠ c) :
    fat.wordPlace d + 2 ≤ fat.wordPlace c ∨ fat.wordPlace c + 2 ≤ fat.wordPlace d := by
  unfold FatFs.wordPlace
  by_cases same : fat.wordSector d = fat.wordSector c
  · have quotient : 2 * d / 512 = 2 * c / 512 := by
      unfold FatFs.wordSector u32 at same
      omega
    rw [same]
    omega
  · omega

theorem StorageDevice.Works.readSector_cases (works : dev.Works) (lba : Nat) :
    readSector dev lba = (dev, if lba < dev.sectors then some (sectorAt dev.disk lba) else none) := by
  have read := StorageDevice.readSector_after works.present works.read 0 dev.disk lba
  rw [works.after, works.after, StorageDevice.withDisk_self] at read
  rw [read, StorageDevice.answers]
  simp [works.present, works.read, works.readFault]

variable (works : dev.Works) (type : fat.fatType = 16) (bytes : fat.bytesPerSector = 512)
include works type bytes

theorem fatReadFatEntry_place (small : c < 2 ^ 16) :
    fatReadFatEntry fat dev c =
      (dev, if fat.wordSector c < dev.sectors then load16 dev.disk (fat.wordPlace c) else 0) := by
  have offset : u32 (c * 2) = 2 * c := by
    rw [u32_of_lt (by omega), Nat.mul_comm]
  have sector : u32 (fat.firstFatSector + 2 * c / 512) = fat.wordSector c := rfl
  simp only [fatReadFatEntry, type, bytes, if_true, offset, sector, works.readSector_cases]
  by_cases inside : fat.wordSector c < dev.sectors
  · simp only [if_pos inside, FatFs.wordPlace]
    rw [load16_sectorAt (by omega)]
  · simp only [if_neg inside]

theorem fatWriteFatEntry_place (small : c < 2 ^ 16) (v : Nat) :
    fatWriteFatEntry fat dev c v =
      if fat.wordSector c < dev.sectors then (dev.withDisk (store16 dev.disk (fat.wordPlace c) v), true)
      else (dev, false) := by
  have offset : u32 (c * 2) = 2 * c := by
    rw [u32_of_lt (by omega), Nat.mul_comm]
  have sector : u32 (fat.firstFatSector + 2 * c / 512) = fat.wordSector c := rfl
  simp only [fatWriteFatEntry, type, bytes, ne_eq, not_true_eq_false, if_false, offset, sector, works.readSector_cases]
  by_cases inside : fat.wordSector c < dev.sectors
  · simp only [if_pos inside, works.writeSector_eq inside]
    rw [putSector_store16 (by omega), putSector_sectorAt]
    rfl
  · simp only [if_neg inside]

end

/-- The FAT16 entries of a working device are an array: a write sets its own entry, and changes
neither another one nor another sector. -/
theorem fat_entries_array {fat : FatFs} {dev : StorageDevice} {c v : Nat} (works : dev.Works)
    (bytes : fat.bytesPerSector = 512) (small : c < 2 ^ 16) (wrote : (fatWriteFatEntry fat dev c v).2 = true) :
    (fatReadFatEntry fat (fatWriteFatEntry fat dev c v).1 c).2 = v % 2 ^ 16 ∧
      (∀ d, d < 2 ^ 16 → d ≠ c →
        (fatReadFatEntry fat (fatWriteFatEntry fat dev c v).1 d).2 = (fatReadFatEntry fat dev d).2) ∧
      ∀ s, s ≠ u32 (fat.firstFatSector + 2 * c / 512) →
        sectorAt (fatWriteFatEntry fat dev c v).1.disk s = sectorAt dev.disk s := by
  have type : fat.fatType = 16 := by
    by_contra other
    rw [fatWriteFatEntry, if_pos other] at wrote
    cases wrote
  have write := fatWriteFatEntry_place works type bytes small v
  by_cases inside : fat.wordSector c < dev.sectors
  · rw [if_pos inside] at write
    have later := works.withDisk (store16 dev.disk (fat.wordPlace c) v)
    rw [write]
    refine ⟨?_, fun d smallD differ => ?_, fun s other => sectorAt_congr fun x lower upper => store16_outside ?_⟩
    · rw [fatReadFatEntry_place later type bytes small]
      exact (if_pos inside).trans (load16_store16_same dev.disk _ v)
    · have apart := fat.wordPlace_apart small smallD differ
      rw [fatReadFatEntry_place later type bytes smallD, fatReadFatEntry_place works type bytes smallD]
      simp only [StorageDevice.withDisk_disk, StorageDevice.withDisk_sectors, load16_store16_other apart]
    · have differ : s ≠ fat.wordSector c := other
      unfold FatFs.wordPlace
      omega
  · rw [write, if_neg inside] at wrote
    cases wrote

theorem fat_entries_array_sample :
    (fatReadFatEntry sampleFat (fatWriteFatEntry sampleFat (sampleDevice 0 []) 5 0x10007).1 5).2 = 0x10007 % 2 ^ 16 ∧
      (∀ d, d < 2 ^ 16 → d ≠ 5 →
        (fatReadFatEntry sampleFat (fatWriteFatEntry sampleFat (sampleDevice 0 []) 5 0x10007).1 d).2 =
          (fatReadFatEntry sampleFat (sampleDevice 0 []) d).2) ∧
      ∀ s, s ≠ u32 (sampleFat.firstFatSector + 2 * 5 / 512) →
        sectorAt (fatWriteFatEntry sampleFat (sampleDevice 0 []) 5 0x10007).1.disk s =
          sectorAt (sampleDevice 0 []).disk s :=
  fat_entries_array (sampleDevice_works 0 []) rfl (by decide) (by decide +kernel)

end LearningOS
