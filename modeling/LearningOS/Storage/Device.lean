import LearningOS.Store.Sector

namespace LearningOS
open ByteStore

/-- A `struct storage_device` with the medium behind its two functions: how many
sectors it answers for, their bytes, and which of its requests fail, counted from
the next one and by sector. -/
structure StorageDevice where
  present : Bool
  read : Bool
  write : Bool
  sectors : Nat
  disk : Bytes
  readFault : Nat → Nat → Bool
  writeFault : Nat → Nat → Bool

/-- One request later. -/
def StorageDevice.tick (dev : StorageDevice) : StorageDevice :=
  { dev with readFault := fun n => dev.readFault (n + 1), writeFault := fun n => dev.writeFault (n + 1) }

def readSector (dev : StorageDevice) (lba : Nat) : StorageDevice × Option Bytes :=
  if ¬ dev.present ∨ ¬ dev.read then (dev, none)
  else if dev.sectors ≤ lba ∨ dev.readFault 0 lba then (dev.tick, none)
  else (dev.tick, some (sectorAt dev.disk lba))

/-- A write that fails leaves the sector as it was. -/
def writeSector (dev : StorageDevice) (lba : Nat) (buffer : Bytes) : StorageDevice × Bool :=
  if ¬ dev.present ∨ ¬ dev.write then (dev, false)
  else if dev.sectors ≤ lba ∨ dev.writeFault 0 lba then (dev.tick, false)
  else ({ dev.tick with disk := putSector dev.disk lba buffer }, true)

/-- The same device with other contents. -/
def StorageDevice.withDisk (dev : StorageDevice) (m : Bytes) : StorageDevice := { dev with disk := m }

@[simp] theorem StorageDevice.withDisk_disk (dev : StorageDevice) (m : Bytes) : (dev.withDisk m).disk = m := rfl

@[simp] theorem StorageDevice.withDisk_sectors (dev : StorageDevice) (m : Bytes) :
    (dev.withDisk m).sectors = dev.sectors := rfl

@[simp] theorem StorageDevice.withDisk_self (dev : StorageDevice) : dev.withDisk dev.disk = dev := rfl

@[simp] theorem StorageDevice.withDisk_withDisk (dev : StorageDevice) (m m' : Bytes) :
    (dev.withDisk m).withDisk m' = dev.withDisk m' := rfl

/-- Reads and writes of the sectors a device has succeed. -/
structure StorageDevice.Works (dev : StorageDevice) : Prop where
  present : dev.present = true
  read : dev.read = true
  write : dev.write = true
  readFault : dev.readFault = fun _ _ => false
  writeFault : dev.writeFault = fun _ _ => false

namespace StorageDevice.Works
variable {dev : StorageDevice}

theorem tick_eq (works : dev.Works) : dev.tick = dev := by
  have reads : (fun n => dev.readFault (n + 1)) = dev.readFault := by rw [works.readFault]
  have writes : (fun n => dev.writeFault (n + 1)) = dev.writeFault := by rw [works.writeFault]
  simp only [tick, reads, writes]

theorem withDisk (works : dev.Works) (m : Bytes) : (dev.withDisk m).Works :=
  ⟨works.present, works.read, works.write, works.readFault, works.writeFault⟩

theorem readSector_eq (works : dev.Works) {lba : Nat} (inside : lba < dev.sectors) :
    readSector dev lba = (dev, some (sectorAt dev.disk lba)) := by
  have fault : ¬ (dev.sectors ≤ lba ∨ dev.readFault 0 lba = true) := by
    simp [works.readFault, Nat.not_le.mpr inside]
  rw [readSector, if_neg (by simp [works.present, works.read]), if_neg fault, works.tick_eq]

theorem writeSector_eq (works : dev.Works) {lba : Nat} (inside : lba < dev.sectors) (buffer : Bytes) :
    writeSector dev lba buffer = (dev.withDisk (putSector dev.disk lba buffer), true) := by
  have fault : ¬ (dev.sectors ≤ lba ∨ dev.writeFault 0 lba = true) := by
    simp [works.writeFault, Nat.not_le.mpr inside]
  rw [writeSector, if_neg (by simp [works.present, works.write]), if_neg fault, works.tick_eq]
  rfl

end StorageDevice.Works

/-- Reads of the sectors a device has succeed; writes may fail. -/
structure StorageDevice.Reads (dev : StorageDevice) : Prop where
  present : dev.present = true
  read : dev.read = true
  readFault : dev.readFault = fun _ _ => false

/-- A working device with the same contents. -/
def StorageDevice.calm (dev : StorageDevice) : StorageDevice :=
  ⟨true, true, true, dev.sectors, dev.disk, fun _ _ => false, fun _ _ => false⟩

theorem StorageDevice.calm_works (dev : StorageDevice) : dev.calm.Works := ⟨rfl, rfl, rfl, rfl, rfl⟩

/-- The same contents, some requests later. -/
structure StorageDevice.Rests (dev dev' : StorageDevice) : Prop where
  reads : dev'.Reads
  sectors : dev'.sectors = dev.sectors
  disk : dev'.disk = dev.disk

theorem StorageDevice.Rests.trans {dev dev' dev'' : StorageDevice} (rests : dev.Rests dev')
    (later : dev'.Rests dev'') : dev.Rests dev'' :=
  ⟨later.reads, later.sectors.trans rests.sectors, later.disk.trans rests.disk⟩

namespace StorageDevice.Reads
variable {dev : StorageDevice}

theorem rests (reads : dev.Reads) : dev.Rests dev := ⟨reads, rfl, rfl⟩

theorem tick (reads : dev.Reads) : dev.Rests dev.tick := by
  refine ⟨⟨reads.present, reads.read, ?_⟩, rfl, rfl⟩
  simp only [StorageDevice.tick, reads.readFault]

theorem readSector_eq (reads : dev.Reads) {lba : Nat} (inside : lba < dev.sectors) :
    readSector dev lba = (dev.tick, some (sectorAt dev.disk lba)) := by
  have fault : ¬ (dev.sectors ≤ lba ∨ dev.readFault 0 lba = true) := by
    simp [reads.readFault, Nat.not_le.mpr inside]
  simp only [readSector, reads.present, reads.read, not_true_eq_false, or_self, if_false, if_neg fault]

/-- A write takes place or leaves the contents as they were. -/
theorem writeSector_cases (reads : dev.Reads) (lba : Nat) (buffer : Bytes) :
    ∃ dev' done, writeSector dev lba buffer = (dev', done) ∧ dev'.Reads ∧ dev'.sectors = dev.sectors ∧
      dev'.disk = if done = true then putSector dev.disk lba buffer else dev.disk := by
  unfold writeSector
  split
  · exact ⟨dev, false, rfl, reads, rfl, rfl⟩
  · split
    · exact ⟨dev.tick, false, rfl, reads.tick.reads, rfl, rfl⟩
    · obtain ⟨present, read, fault⟩ := reads.tick.reads
      exact ⟨_, true, rfl, ⟨present, read, fault⟩, rfl, rfl⟩

end StorageDevice.Reads

/-- Whether a read of a sector succeeds, some requests later. -/
def StorageDevice.answers (dev : StorageDevice) (later lba : Nat) : Bool :=
  dev.present && dev.read && decide (lba < dev.sectors) && !dev.readFault later lba

/-- A device that holds `m`, and answers its requests from the `asked`-th on as `ok`
says. -/
structure StorageDevice.Serves (dev : StorageDevice) (m : Bytes) (ok : Nat → Nat → Bool) (asked : Nat) : Prop where
  disk : dev.disk = m
  answers : ∀ i lba, dev.answers i lba = ok (asked + i) lba

theorem StorageDevice.serves (dev : StorageDevice) : dev.Serves dev.disk dev.answers 0 :=
  ⟨rfl, fun i lba => by rw [Nat.zero_add]⟩

/-- A device answers the same requests whatever it holds. -/
theorem StorageDevice.serves_withDisk (dev : StorageDevice) (m : Bytes) :
    (dev.withDisk m).Serves m dev.answers 0 := (dev.withDisk m).serves

/-- A working device stays as it is when it is read. -/
def StorageDevice.Stays (dev dev' : StorageDevice) : Prop := dev.Works → dev' = dev

theorem StorageDevice.Stays.refl (dev : StorageDevice) : dev.Stays dev := fun _ => rfl

theorem StorageDevice.Stays.trans {dev dev' dev'' : StorageDevice} (stays : dev.Stays dev') (later : dev'.Stays dev'') :
    dev.Stays dev'' := by
  intro works
  obtain rfl := stays works
  exact later works

theorem StorageDevice.Serves.readSector {dev : StorageDevice} {m : Bytes} {ok : Nat → Nat → Bool} {asked : Nat}
    (serves : dev.Serves m ok asked) (lba : Nat) :
    ∃ dev', readSector dev lba = (dev', if ok asked lba then some (sectorAt m lba) else none) ∧
      dev'.Serves m ok (asked + 1) ∧ dev.Stays dev' := by
  obtain ⟨rfl, answers⟩ := serves
  have now := answers 0 lba
  have later (i l : Nat) : dev.answers (i + 1) l = ok (asked + 1 + i) l := by
    rw [answers, Nat.add_right_comm, Nat.add_assoc]
  rw [Nat.add_zero] at now
  rw [← now]
  unfold LearningOS.readSector
  by_cases off : ¬ dev.present ∨ ¬ dev.read
  · have silent (i l : Nat) : dev.answers i l = false := by
      rcases off with off | off
      · simp [StorageDevice.answers, off]
      · simp [StorageDevice.answers, off]
    refine ⟨dev, ?_, ⟨rfl, fun i l => ?_⟩, .refl dev⟩
    · rw [if_pos off, if_neg (by simp [silent])]
    · rw [← later, silent, silent]
  · refine ⟨dev.tick, ?_, ⟨rfl, later⟩, Works.tick_eq⟩
    rw [if_neg off]
    by_cases fails : dev.sectors ≤ lba ∨ dev.readFault 0 lba = true
    · rw [if_pos fails, if_neg]
      rcases fails with outside | fault
      · simp [StorageDevice.answers, Nat.not_lt.mpr outside]
      · simp [StorageDevice.answers, fault]
    · rw [if_neg fails, if_pos]
      simp only [not_or, Nat.not_le, Bool.not_eq_true] at off fails
      simp [StorageDevice.answers, off, fails]

theorem StorageDevice.Reads.answers {dev : StorageDevice} (reads : dev.Reads) {lba : Nat} (inside : lba < dev.sectors)
    (later : Nat) : dev.answers later lba = true := by
  simp [StorageDevice.answers, reads.present, reads.read, reads.readFault, inside]

theorem StorageDevice.Works.reads {dev : StorageDevice} (works : dev.Works) : dev.Reads :=
  ⟨works.present, works.read, works.readFault⟩

end LearningOS
