import LearningOS.Storage.Device

namespace LearningOS
open ByteStore

namespace StorageDevice

/-- The device some requests later, with contents `m`. -/
def after (dev : StorageDevice) (asked : Nat) (m : Bytes) : StorageDevice :=
  { dev with
    disk := m, readFault := fun n => dev.readFault (n + asked), writeFault := fun n => dev.writeFault (n + asked) }

/-- Whether a write of a sector takes place, some requests later. -/
def accepts (dev : StorageDevice) (later lba : Nat) : Bool :=
  dev.present && dev.write && decide (lba < dev.sectors) && !dev.writeFault later lba

variable {dev : StorageDevice}

@[simp] theorem after_disk (dev : StorageDevice) (asked : Nat) (m : Bytes) : (dev.after asked m).disk = m := rfl

@[simp] theorem after_sectors (dev : StorageDevice) (asked : Nat) (m : Bytes) :
    (dev.after asked m).sectors = dev.sectors := rfl

@[simp] theorem after_present (dev : StorageDevice) (asked : Nat) (m : Bytes) :
    (dev.after asked m).present = dev.present := rfl

@[simp] theorem after_write (dev : StorageDevice) (asked : Nat) (m : Bytes) :
    (dev.after asked m).write = dev.write := rfl

@[simp] theorem after_zero (dev : StorageDevice) : dev.after 0 dev.disk = dev := rfl

theorem after_tick (dev : StorageDevice) (asked : Nat) (m : Bytes) :
    (dev.after asked m).tick = dev.after (asked + 1) m := by
  simp only [tick, after, Nat.add_right_comm _ 1 asked, Nat.add_assoc]

theorem readSector_after (present : dev.present = true) (read : dev.read = true) (asked : Nat) (m : Bytes) (lba : Nat) :
    readSector (dev.after asked m) lba =
      (dev.after (asked + 1) m, if dev.answers asked lba then some (sectorAt m lba) else none) := by
  have off : ¬ (¬ (dev.after asked m).present ∨ ¬ (dev.after asked m).read) := by simp [after, present, read]
  have answers : dev.answers asked lba = true ↔
      ¬ ((dev.after asked m).sectors ≤ lba ∨ (dev.after asked m).readFault 0 lba) := by
    simp [StorageDevice.answers, after, present, read]
  rw [readSector, if_neg off, after_tick]
  by_cases answered : dev.answers asked lba = true
  · rw [if_neg (answers.mp answered), if_pos answered]
    rfl
  · rw [if_pos (not_not.mp fun fault => answered (answers.mpr fault)), if_neg answered]

theorem writeSector_after (present : dev.present = true) (write : dev.write = true) (asked : Nat) (m : Bytes)
    (lba : Nat)
    (buffer : Bytes) :
    writeSector (dev.after asked m) lba buffer =
      (dev.after (asked + 1) (if dev.accepts asked lba then putSector m lba buffer else m), dev.accepts asked lba) := by
  have off : ¬ (¬ (dev.after asked m).present ∨ ¬ (dev.after asked m).write) := by
    simp [after, present, write]
  have accepts : dev.accepts asked lba = true ↔
      ¬ ((dev.after asked m).sectors ≤ lba ∨ (dev.after asked m).writeFault 0 lba) := by
    simp [StorageDevice.accepts, after, present, write]
  rw [writeSector, if_neg off, after_tick]
  by_cases accepted : dev.accepts asked lba = true
  · rw [if_neg (accepts.mp accepted), if_pos accepted, accepted]
    rfl
  · rw [if_pos (not_not.mp fun fault => accepted (accepts.mpr fault)), if_neg accepted]
    exact Prod.ext rfl (Bool.not_eq_true _ ▸ accepted).symm

theorem Works.after (works : dev.Works) (asked : Nat) (m : Bytes) : dev.after asked m = dev.withDisk m := by
  simp only [StorageDevice.after, StorageDevice.withDisk, works.readFault, works.writeFault]

theorem Works.accepts (works : dev.Works) {lba : Nat} (inside : lba < dev.sectors) (later : Nat) :
    dev.accepts later lba = true := by
  simp [StorageDevice.accepts, works.present, works.write, works.writeFault, inside]

theorem Reads.after (reads : dev.Reads) (asked : Nat) : dev.Rests (dev.after asked dev.disk) :=
  ⟨⟨reads.present, reads.read, by simp only [StorageDevice.after, reads.readFault]⟩, rfl, rfl⟩

/-- A device that answers the same reads at any time: those of the good sectors. -/
structure Steady (dev : StorageDevice) (good : Nat → Bool) : Prop where
  present : dev.present = true
  read : dev.read = true
  answers : ∀ later lba, dev.answers later lba = good lba

theorem Steady.readSector_after {good : Nat → Bool} (steady : dev.Steady good) (asked : Nat) (m : Bytes) (lba : Nat) :
    readSector (dev.after asked m) lba = (dev.after (asked + 1) m, if good lba then some (sectorAt m lba) else none) := by
  rw [StorageDevice.readSector_after steady.present steady.read, steady.answers]

theorem Reads.steady (reads : dev.Reads) : dev.Steady fun lba => decide (lba < dev.sectors) := by
  refine ⟨reads.present, reads.read, fun later lba => ?_⟩
  simp [StorageDevice.answers, reads.present, reads.read, reads.readFault]

/-- A read returns the bytes of the sector, or nothing, and leaves them as they are. -/
theorem readSector_cases (dev : StorageDevice) (lba : Nat) :
    ∃ dev', dev'.disk = dev.disk ∧
      (readSector dev lba = (dev', none) ∨ readSector dev lba = (dev', some (sectorAt dev.disk lba))) := by
  unfold readSector
  split
  · exact ⟨dev, rfl, Or.inl rfl⟩
  · split
    · exact ⟨dev.tick, rfl, Or.inl rfl⟩
    · exact ⟨dev.tick, rfl, Or.inr rfl⟩

end StorageDevice

end LearningOS
