import LearningOS.Fat.Failure

namespace LearningOS
open ByteStore

/-- The functions that a `struct storage_device` can point to. -/
inductive DeviceFn
  | ataStorageRead
  | ataStorageWrite
deriving DecidableEq

/-- A `struct storage_device`; `driverData` says that the pointer is set. -/
structure DeviceRecord where
  sectorSize : Nat
  sectorCount : Nat
  read : Option DeviceFn
  write : Option DeviceFn
  driverData : Bool

/-- What `ata_init` prints. -/
inductive AtaMessage
  | primaryMaster (model : List UInt8)
  | notDetected

/-- The static `ata_dev` of `ata_init`, whether `default_dev` points to it, the globals
of `fat.c` and the medium behind the drive. -/
structure BootState where
  ataDev : DeviceRecord
  defaultDev : Bool
  fat : FatFs
  files : List FatFileInfo
  medium : StorageDevice
  printed : List AtaMessage

/-- The primary master: what its status port reads as from one read to the next
after IDENTIFY, and the words of its data port. -/
structure AtaDrive where
  status : Nat → UInt8
  data : Nat → UInt16

/-- `storage_register`, called with the address of `ata_dev`. -/
def storageRegister (s : BootState) : BootState × Int :=
  if s.ataDev.read = none then (s, -1)
  else if s.defaultDev = false then ({ s with defaultDev := true }, 0)
  else (s, 0)

def storageGetDefault (s : BootState) : Option DeviceRecord := if s.defaultDev then some s.ataDev else none

/-- `ata_wait_busy` from the `n`th read of the status port on. -/
def ataWaitBusy (drive : AtaDrive) : Nat → Nat → Nat × Bool
  | 0, n => (n, false)
  | timeout + 1, n => if drive.status n &&& 0x80 = 0 then (n + 1, true) else ataWaitBusy drive timeout (n + 1)

def ataWaitDrq (drive : AtaDrive) : Nat → Nat → Nat × Bool
  | 0, n => (n, false)
  | timeout + 1, n =>
    if drive.status n &&& 0x01 ≠ 0 then (n + 1, false)
    else if drive.status n &&& 0x08 ≠ 0 then (n + 1, true)
    else ataWaitDrq drive timeout (n + 1)

/-- The model text: the words 27 to 46, high byte first. -/
def ataModel (drive : AtaDrive) : List UInt8 :=
  (List.range 20).flatMap fun i => [(drive.data (27 + i) >>> 8).toUInt8, (drive.data (27 + i)).toUInt8]

/-- `ata_identify_primary`, called with the addresses of `adev` and `ata_dev`. -/
def ataIdentifyPrimary (drive : AtaDrive) (s : BootState) : BootState × Bool :=
  if drive.status 0 = 0 then (s, false)
  else
    let (n, ready) := ataWaitBusy drive 100000 1
    if ready = false then (s, false)
    else if (ataWaitDrq drive 100000 n).2 = false then (s, false)
    else
      let s := (storageRegister { s with ataDev := ⟨512, 0, none, none, true⟩ }).1
      ({ s with printed := s.printed ++ [.primaryMaster (ataModel drive)] }, true)

def ataInit (drive : AtaDrive) (s : BootState) : BootState :=
  match ataIdentifyPrimary drive s with
  | (s, false) => { s with printed := s.printed ++ [.notDetected] }
  | (s, true) => { s with ataDev.read := some .ataStorageRead, ataDev.write := some .ataStorageWrite }

/-- The default device as `fat.c` sees it. -/
def defaultDevice (s : BootState) : StorageDevice :=
  { s.medium with
    present := s.defaultDev
    read := s.ataDev.read.isSome
    write := s.ataDev.write.isSome }

def bootFatInit (s : BootState) : Except Trap BootState :=
  (fatInit ⟨defaultDevice s, s.fat, s.files⟩).map fun t =>
    { s with medium := t.dev, fat := t.fat, files := t.files }

/-- The zeroed globals of a boot. -/
def bootGlobals (medium : StorageDevice) : BootState where
  ataDev := ⟨0, 0, none, none, false⟩
  defaultDev := false
  fat := ⟨false, 0, 0, 0, 0, 0, 0, 0, 0, 0, 0, 0, 0, 0⟩
  files := []
  medium := medium
  printed := []

/-- The calls of `kernel_main` that touch the disk, in their order. -/
def kernelMainDisk (drive : AtaDrive) (s : BootState) : Except Trap BootState := do
  let s ← bootFatInit s
  return ataInit drive s

/-- `fat_list_root`: the entries it copies; their number is its result. -/
def fatListRoot (files : List FatFileInfo) (out : Bool) (max : Nat) : List FatFileInfo :=
  if out = false ∨ max = 0 then [] else files.take max

/-- The boot mounts the disk: `ata_init` leaves the ATA device as the default one with
both functions set, and `fat_list_root` returns the root entries of the volume once
`kernel_main` has made its calls. -/
def MountsDisk (drive : AtaDrive) (medium : StorageDevice) (fat : FatFs) : Prop :=
  (∃ dev, storageGetDefault (ataInit drive (bootGlobals medium)) = some dev ∧
    dev.read = some .ataStorageRead ∧ dev.write = some .ataStorageWrite) ∧
  ∃ s, kernelMainDisk drive (bootGlobals medium) = .ok s ∧
    ∀ max, 0 < max → fatListRoot s.files true max = (fat.rootFiles medium.disk).take max

/-- Registration is refused while the read function is missing, and
`ata_identify_primary` registers before `ata_init` sets it. -/
theorem ataIdentifyPrimary_default (drive : AtaDrive) (s : BootState) :
    (ataIdentifyPrimary drive s).1.defaultDev = s.defaultDev ∧ (ataIdentifyPrimary drive s).1.files = s.files := by
  unfold ataIdentifyPrimary
  split
  · exact ⟨rfl, rfl⟩
  · dsimp only
    split
    · exact ⟨rfl, rfl⟩
    · split
      · exact ⟨rfl, rfl⟩
      · exact ⟨rfl, rfl⟩

theorem ataInit_default (drive : AtaDrive) (s : BootState) :
    (ataInit drive s).defaultDev = s.defaultDev ∧ (ataInit drive s).files = s.files := by
  obtain ⟨default, files⟩ := ataIdentifyPrimary_default drive s
  unfold ataInit
  split
  · rename_i t run
    rw [run] at default files
    exact ⟨default, files⟩
  · rename_i t run
    rw [run] at default files
    exact ⟨default, files⟩

/-- Before `ata_init` there is no device, so `fat_init` returns at once. -/
theorem bootFatInit_globals (medium : StorageDevice) :
    ∃ s, bootFatInit (bootGlobals medium) = .ok s ∧ s.defaultDev = false ∧ s.files = [] := by
  refine ⟨{ bootGlobals medium with medium := defaultDevice (bootGlobals medium) }, ?_, rfl, rfl⟩
  rw [bootFatInit, fatInit, fatInitWithin, if_pos (Or.inl (by simp [defaultDevice, bootGlobals]))]
  rfl

/-- No boot mounts a disk: whatever the drive answers and the disk holds, there is no
default device after `ata_init` and the listing is empty. -/
theorem boot_never_mounts_disk (drive : AtaDrive) (medium : StorageDevice) (fat : FatFs) :
    ¬MountsDisk drive medium fat ∧ storageGetDefault (ataInit drive (bootGlobals medium)) = none ∧
      ∃ s, kernelMainDisk drive (bootGlobals medium) = .ok s ∧ ∀ out max, fatListRoot s.files out max = [] := by
  have none : storageGetDefault (ataInit drive (bootGlobals medium)) = Option.none :=
    if_neg (by rw [(ataInit_default drive _).1]; simp [bootGlobals])
  refine ⟨?_, none, ?_⟩
  · rintro ⟨⟨dev, found, _⟩, _⟩
    simp [none] at found
  · obtain ⟨s, init, _, files⟩ := bootFatInit_globals medium
    refine ⟨ataInit drive s, by rw [kernelMainDisk, init]; rfl, fun out max => ?_⟩
    rw [fatListRoot, (ataInit_default drive s).2, files]
    simp

/-- A drive that is ready at once. -/
def readyDrive : AtaDrive := ⟨fun _ => 0x58, fun _ => 0x2020⟩

theorem readyDrive_answers (s : BootState) : (ataIdentifyPrimary readyDrive s).2 = true := by
  have busy : ataWaitBusy readyDrive 100000 1 = (2, true) := by
    change ataWaitBusy readyDrive (99999 + 1) 1 = _
    rw [ataWaitBusy]
    decide
  have drq : ataWaitDrq readyDrive 100000 2 = (3, true) := by
    change ataWaitDrq readyDrive (99999 + 1) 2 = _
    rw [ataWaitDrq]
    decide
  rw [ataIdentifyPrimary, if_neg (by decide), busy]
  dsimp only
  rw [if_neg (by decide), drq, if_neg (by decide)]

/-- The drive answers IDENTIFY and its disk holds a volume with one file, and still
nothing is mounted. -/
theorem boot_loses_disk :
    (ataIdentifyPrimary readyDrive (bootGlobals fullDisk.dev)).2 = true ∧ FatVolume fullDisk.dev fullDisk.fat ∧
      (fullDisk.fat.rootFiles fullDisk.dev.disk).length = 1 ∧ ¬MountsDisk readyDrive fullDisk.dev fullDisk.fat := by
  refine ⟨readyDrive_answers _, fullDisk_volume, by decide, ?_⟩
  rintro ⟨⟨dev, found, _⟩, _⟩
  rw [storageGetDefault, (ataInit_default readyDrive _).1] at found
  simp [bootGlobals] at found

end LearningOS
