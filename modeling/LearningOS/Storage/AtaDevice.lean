import LearningOS.Storage.AtaTransfers

namespace LearningOS
open ByteStore

/-- Where in the statuses a request for one sector begins, counted from the next request. -/
def requestPolls (status : Nat → UInt8) : Nat → Nat → Nat
  | 0, polls => polls
  | n + 1, polls => requestPolls status n (attemptsReady status 3 polls).1

namespace AtaPorts

/-- Whether a request for one sector fails, counted from the next one. -/
def fails (d : AtaPorts) (n : Nat) : Bool := !(attemptsReady d.status 3 (requestPolls d.status n d.polls)).2

/-- The drive as the device that is registered for it. -/
def device (d : AtaPorts) : StorageDevice where
  present := true
  read := true
  write := true
  sectors := 2 ^ 28
  disk := d.disk
  readFault n _ := d.fails n
  writeFault n _ := d.fails n

/-- Behind a request the others are one nearer. -/
theorem device_tick {d d' : AtaPorts} (status : d'.status = d.status)
    (polls : d'.polls = (attemptsReady d.status 3 d.polls).1) : d'.device = d.device.tick.withDisk d'.disk := by
  have later (n : Nat) : d'.fails n = d.fails (n + 1) := by simp only [fails, requestPolls, status, polls]
  simp only [device, StorageDevice.tick, StorageDevice.withDisk, later]

end AtaPorts

section
variable (slave command : UInt8) {moveWord : Transfer → Transfer} {lba : Nat} {drive : AtaPorts} {bytes : Bytes}
  {after : Nat → Bytes × Bytes}

/-- A request for one sector: the sector is moved, or nothing is. -/
theorem ataTransfer28_one (moves : MovesWord moveWord) (sector : MovesSector moveWord lba after)
    (begins : after 0 = (drive.disk, bytes)) (exist : lba < 2 ^ 28) :
    ∃ t : Transfer, ataTransfer28 command moveWord (some slave) drive lba 1 (some bytes) =
        (t.drive, some t.buffer, if drive.fails 0 then 0 else 1) ∧
      t.drive.device = drive.device.tick.withDisk t.drive.disk ∧
      (t.drive.disk, t.buffer) = after (if drive.fails 0 then 0 else 1) := by
  obtain ⟨t, ready, attempts, polls, stage⟩ := (Stage.initial lba begins).attempt slave command moves sector exist
  have fails : drive.fails 0 = !ready := congrArg not (congrArg Prod.snd polls)
  have data : (t.drive.disk, t.buffer) = after (if drive.fails 0 then 0 else 1) := by
    rw [stage.data, fails]
    cases ready <;> rfl
  refine ⟨t, ?_, AtaPorts.device_tick stage.status (congrArg Prod.fst polls).symm, data⟩
  rw [ataTransfer28_some (by decide) exist, show (1 : UInt8).toNat = 0 + 1 from rfl, ataSectors, attempts, fails]
  cases ready <;> rfl

theorem readSector_device (exist : lba < 2 ^ 28) :
    readSector drive.device lba =
      (drive.device.tick, if drive.fails 0 then none else some (sectorAt drive.disk lba)) := by
  have fault : (drive.device.sectors ≤ lba ∨ drive.device.readFault 0 lba = true) ↔ drive.fails 0 = true :=
    or_iff_right (Nat.not_le.mpr exist)
  rw [readSector, if_neg (by simp [AtaPorts.device])]
  simp only [fault]
  split <;> rfl

theorem writeSector_device (exist : lba < 2 ^ 28) :
    writeSector drive.device lba bytes =
      if drive.fails 0 then (drive.device.tick, false)
      else (drive.device.tick.withDisk (putSector drive.disk lba bytes), true) := by
  have fault : (drive.device.sectors ≤ lba ∨ drive.device.writeFault 0 lba = true) ↔ drive.fails 0 = true :=
    or_iff_right (Nat.not_le.mpr exist)
  rw [writeSector, if_neg (by simp [AtaPorts.device])]
  simp only [fault]
  rfl

/-- A read of one sector is a read from the device. -/
theorem ataRead28_device (exist : lba < 2 ^ 28) :
    (ataRead28 (some slave) drive lba 1 (some bytes)).1.device = (readSector drive.device lba).1 ∧
      (ataRead28 (some slave) drive lba 1 (some bytes)).2 =
        match (readSector drive.device lba).2 with
        | none => (some bytes, 0)
        | some sector => (some fun i => if i < 512 then sector i else bytes i, 1) := by
  obtain ⟨t, result, later, data⟩ := ataTransfer28_one slave 0x20 readWord_moves
    (readWord_movesSector lba drive.disk bytes) (afterRead_zero lba drive.disk bytes) exist
  have disk : t.drive.disk = drive.disk := congrArg Prod.fst data
  rw [ataRead28, result, readSector_device exist]
  refine ⟨later.trans (by rw [disk]; rfl), ?_⟩
  have buffer := congrArg Prod.snd data
  cases failed : drive.fails 0 with
  | true =>
    rw [failed, if_pos rfl, afterRead_zero] at buffer
    exact congrArg (fun b => (some b, 0)) buffer
  | false =>
    rw [failed, if_neg Bool.false_ne_true] at buffer
    refine congrArg (fun b => (some b, 1)) (buffer.trans (funext fun i => ?_))
    by_cases inside : i < 512
    · simp only [afterRead, sectorAt_apply inside, inside, if_true, Nat.mul_one]
    · simp only [afterRead, inside, if_false, Nat.mul_one]

/-- A write of one sector is a write to the device. -/
theorem ataWrite28_device (exist : lba < 2 ^ 28) :
    (ataWrite28 (some slave) drive lba 1 (some bytes)).1.device = (writeSector drive.device lba bytes).1 ∧
      (ataWrite28 (some slave) drive lba 1 (some bytes)).2 =
        (some bytes, if (writeSector drive.device lba bytes).2 then 1 else 0) := by
  obtain ⟨t, result, later, data⟩ := ataTransfer28_one slave 0x30 writeWord_moves
    (writeWord_movesSector lba drive.disk bytes) (afterWrite_zero lba drive.disk bytes) exist
  have buffer : t.buffer = bytes := congrArg Prod.snd data
  have disk := congrArg Prod.fst data
  rw [ataWrite28, result, later, buffer, writeSector_device exist]
  cases failed : drive.fails 0 with
  | true =>
    rw [failed, if_pos rfl, afterWrite_zero] at disk
    exact ⟨congrArg drive.device.tick.withDisk disk, rfl⟩
  | false =>
    rw [failed, if_neg Bool.false_ne_true] at disk
    exact ⟨congrArg drive.device.tick.withDisk disk, rfl⟩

end

end LearningOS
