import LearningOS.Fat.Volume
import LearningOS.Storage.Requests

namespace LearningOS
open ByteStore Links

namespace FatFs
variable (fat : FatFs) (good : Nat → Bool) (m : Bytes)

/-- The sector of a FAT entry, in 32-bit arithmetic and by the size of a sector that the
volume states. -/
def entryLba (c : Nat) : Nat := u32 (fat.firstFatSector + u32 (c * fat.entryBytes) / fat.bytesPerSector)

def entryOffset (c : Nat) : Nat := u32 (c * fat.entryBytes) % fat.bytesPerSector

/-- The value of a FAT entry in the buffer that is read for it. -/
def entryValue (c : Nat) : Nat :=
  if fat.fatType = 16 then load16 (sectorAt m (fat.entryLba c)) (fat.entryOffset c)
  else load32 (sectorAt m (fat.entryLba c)) (fat.entryOffset c) % 2 ^ 28

/-- What a read of a FAT entry returns where only the good sectors can be read. -/
def seenEntry (c : Nat) : Nat := if good (fat.entryLba c) then fat.entryValue m c else 0

/-- A cluster number that the walks along a chain go on with. -/
abbrev Walkable (c : Nat) : Prop := c ≥ 2 ∧ c < 0x0FFFFFF8

/-- The cluster that a walk along the root directory goes on with. -/
def rootNext (c : Nat) : Option Nat :=
  if Walkable (fat.seenEntry good m c) then some (fat.seenEntry good m c) else none

/-- The clusters that the walk along a FAT32 root directory meets. -/
def RootMet (c : Nat) : Prop := Walkable fat.rootCluster ∧ Reach (fat.rootNext good m) fat.rootCluster c

end FatFs

namespace StorageDevice.Steady
variable {dev : StorageDevice} {good : Nat → Bool}

theorem fatReadFatEntry_after (steady : dev.Steady good) (fat : FatFs) (asked : Nat) (m : Bytes) (c : Nat) :
    fatReadFatEntry fat (dev.after asked m) c = (dev.after (asked + 1) m, fat.seenEntry good m c) := by
  have read := steady.readSector_after asked m (fat.entryLba c)
  unfold FatFs.entryLba FatFs.entryBytes at read
  unfold fatReadFatEntry FatFs.seenEntry FatFs.entryValue FatFs.entryOffset FatFs.entryLba FatFs.entryBytes
  simp only [read]
  split_ifs
  · rfl
  · rfl
  · rfl
  · rfl

/-- Scanning a cluster leaves the contents of the device. -/
theorem scanCluster_after (steady : dev.Steady good) (fat : FatFs) (c : Nat) (ts : List Nat) (asked : Nat) (m : Bytes)
    (files : List FatFileInfo) :
    ∃ later files', scanCluster fat c ts (dev.after asked m) files = (dev.after later m, files') := by
  induction ts generalizing asked files with
  | nil => exact ⟨asked, files, rfl⟩
  | cons t rest ih =>
    rw [scanCluster, fatReadClusterSector]
    split_ifs
    · exact ⟨asked, files, rfl⟩
    · rw [steady.readSector_after]
      split_ifs
      · exact ih (asked + 1) _
      · exact ⟨asked + 1, files, rfl⟩

theorem scanRoot32_step (steady : dev.Steady good) {fat : FatFs} {m : Bytes} {fuel asked later c : Nat}
    {files files' : List FatFileInfo} (walks : FatFs.Walkable c)
    (scan : scanCluster fat c (List.range fat.sectorsPerCluster) (dev.after asked m) files = (dev.after later m, files')) :
    scanRoot32 fat (fuel + 1) (dev.after asked m) c files =
      scanRoot32 fat fuel (dev.after (later + 1) m) (fat.seenEntry good m c) files' := by
  rw [scanRoot32, if_pos walks]
  simp only [scan, steady.fatReadFatEntry_after]

end StorageDevice.Steady

end LearningOS
