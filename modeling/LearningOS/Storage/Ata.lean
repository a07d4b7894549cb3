import LearningOS.Store.Sector

namespace LearningOS
open ByteStore

/-- The drive behind the ports of an `ata_device`: its registers, the sector its last command
selected and how many words of it were moved, the medium, what each read of the status port gives,
and how many there were. `commands` and `accessed` are the sectors of all commands and of all words
that were moved. -/
structure AtaPorts where
  seccnt : UInt8
  lba0 : UInt8
  lba1 : UInt8
  lba2 : UInt8
  hddevsel : UInt8
  selected : Nat
  word : Nat
  disk : Bytes
  status : Nat → UInt8
  polls : Nat
  commands : List Nat
  accessed : List Nat

namespace AtaPorts

/-- The 28-bit address in the registers. -/
def address (d : AtaPorts) : Nat :=
  (d.hddevsel &&& 0x0F).toNat * 2 ^ 24 + d.lba2.toNat * 2 ^ 16 + d.lba1.toNat * 2 ^ 8 + d.lba0.toNat

/-- `outb` to a register; a command selects the sector of the address. -/
def outb (d : AtaPorts) (reg : Nat) (value : UInt8) : AtaPorts :=
  match reg with
  | 2 => { d with seccnt := value }
  | 3 => { d with lba0 := value }
  | 4 => { d with lba1 := value }
  | 5 => { d with lba2 := value }
  | 6 => { d with hddevsel := value }
  | 7 => { d with selected := d.address, word := 0, commands := d.commands ++ [d.address] }
  | _ => d

/-- `inw` from the data register. -/
def inw (d : AtaPorts) : AtaPorts × Nat :=
  ({ d with word := d.word + 1, accessed := d.accessed ++ [d.selected] },
    load16 d.disk (512 * d.selected + 2 * d.word))

/-- `outw` to the data register. -/
def outw (d : AtaPorts) (value : Nat) : AtaPorts :=
  { d with
    disk := store16 d.disk (512 * d.selected + 2 * d.word) value
    word := d.word + 1
    accessed := d.accessed ++ [d.selected] }

end AtaPorts

/-- `ata_wait_ready`, by the statuses it reads: how many were read after it, and its result. -/
def ataWaitReady (status : Nat → UInt8) : Nat → Nat → Nat × Bool
  | 0, polls => (polls, false)
  | timeout + 1, polls =>
    if status polls &&& 0x80 = 0 ∧ status polls &&& 0x08 ≠ 0 then (polls + 1, true)
    else if status polls &&& 0x01 ≠ 0 then (polls + 1, false)
    else ataWaitReady status timeout (polls + 1)

/-- A transfer on its way: the drive, the bytes of the buffer, and where `buf` points into it. -/
structure Transfer where
  drive : AtaPorts
  buffer : Bytes
  buf : Nat

/-- `*buf++ = inw(..)`. -/
def readWord (t : Transfer) : Transfer :=
  { drive := t.drive.inw.1, buffer := store16 t.buffer t.buf t.drive.inw.2, buf := t.buf + 2 }

/-- `outw(.., *buf++)`. -/
def writeWord (t : Transfer) : Transfer :=
  { t with drive := t.drive.outw (load16 t.buffer t.buf), buf := t.buf + 2 }

/-- The registers and the command that select a sector. -/
def ataCommand (slave : UInt8) (command : UInt8) (cur : Nat) (d : AtaPorts) : AtaPorts :=
  let d := d.outb 6 ((0xE0 : UInt8) ||| (slave <<< 4) ||| UInt8.ofNat (cur / 2 ^ 24 % 16))
  let d := d.outb 2 1
  let d := d.outb 3 (UInt8.ofNat cur)
  let d := d.outb 4 (UInt8.ofNat (cur / 2 ^ 8))
  let d := d.outb 5 (UInt8.ofNat (cur / 2 ^ 16))
  d.outb 7 command

/-- The attempts at a sector, and whether one of them came to move it. -/
def ataAttempts (slave command : UInt8) (moveWord : Transfer → Transfer) (cur : Nat) : Nat → Transfer → Transfer × Bool
  | 0, t => (t, false)
  | attempts + 1, t =>
    let drive := ataCommand slave command cur t.drive
    let (polls, ready) := ataWaitReady drive.status 100000 drive.polls
    let t := { t with drive := { drive with polls } }
    if ready then (moveWord^[256] t, true) else ataAttempts slave command moveWord cur attempts t

/-- The loop over the sectors from the `c`-th on. -/
def ataSectors (slave command : UInt8) (moveWord : Transfer → Transfer) (lba : Nat) :
    Nat → Nat → Transfer → Transfer × Nat
  | 0, c, t => (t, c)
  | left + 1, c, t =>
    match ataAttempts slave command moveWord (u32 (lba + c)) 3 t with
    | (t, false) => (t, c)
    | (t, true) => ataSectors slave command moveWord lba left (c + 1) t

/-- What `ata_read28` and `ata_write28` do, by the command and by how a word is moved. A device or
a buffer that is none is a null pointer. -/
def ataTransfer28 (command : UInt8) (moveWord : Transfer → Transfer) (dev : Option UInt8) (drive : AtaPorts)
    (lba : Nat) (count : UInt8) (buffer : Option Bytes) : AtaPorts × Option Bytes × Nat :=
  match dev, buffer with
  | some slave, some bytes =>
    if count = 0 then (drive, buffer, 0)
    else if lba > 0x0FFFFFFF then (drive, buffer, 0)
    else
      let (t, r) := ataSectors slave command moveWord lba count.toNat 0 { drive := drive, buffer := bytes, buf := 0 }
      (t.drive, some t.buffer, r)
  | _, _ => (drive, buffer, 0)

def ataRead28 : Option UInt8 → AtaPorts → Nat → UInt8 → Option Bytes → AtaPorts × Option Bytes × Nat :=
  ataTransfer28 0x20 readWord

def ataWrite28 : Option UInt8 → AtaPorts → Nat → UInt8 → Option Bytes → AtaPorts × Option Bytes × Nat :=
  ataTransfer28 0x30 writeWord

/-- The attempts at a sector by the statuses alone: how many were read after them, and whether the
drive became ready. -/
def attemptsReady (status : Nat → UInt8) : Nat → Nat → Nat × Bool
  | 0, polls => (polls, false)
  | attempts + 1, polls =>
    match ataWaitReady status 100000 polls with
    | (polls, true) => (polls, true)
    | (polls, false) => attemptsReady status attempts polls

/-- The drive becomes ready for a number of sectors in a row, each within three attempts. -/
def SectorsReady (status : Nat → UInt8) : Nat → Nat → Prop
  | 0, _ => True
  | n + 1, polls => (attemptsReady status 3 polls).2 = true ∧ SectorsReady status n (attemptsReady status 3 polls).1

section
variable {slave command : UInt8} {moveWord : Transfer → Transfer} {t : Transfer} {cur n : Nat}

theorem selectBits (slave : UInt8) (high : Nat) :
    (((0xE0 : UInt8) ||| (slave <<< 4) ||| UInt8.ofNat (high % 16)) &&& 0x0F).toNat = high % 16 := by
  have all : ∀ s : Fin 256, ∀ h : Fin 16,
      (((0xE0 : UInt8) ||| (UInt8.ofFin s <<< 4) ||| UInt8.ofNat h.val) &&& 0x0F).toNat = h.val := by decide +kernel
  exact all slave.toFin ⟨high % 16, Nat.mod_lt _ (by decide)⟩

/-- The registers have room for the low 28 bits of a sector's number. -/
theorem ataCommand_selects (slave command : UInt8) (cur : Nat) (d : AtaPorts) :
    (ataCommand slave command cur d).selected = cur % 2 ^ 28 ∧
      (ataCommand slave command cur d).commands = d.commands ++ [cur % 2 ^ 28] := by
  have bits := selectBits slave (cur / 2 ^ 24)
  have value : cur / 2 ^ 24 % 16 * 2 ^ 24 + cur / 2 ^ 16 % 2 ^ 8 * 2 ^ 16 + cur / 2 ^ 8 % 2 ^ 8 * 2 ^ 8 + cur % 2 ^ 8 =
      cur % 2 ^ 28 := by omega
  simp only [ataCommand, AtaPorts.outb, AtaPorts.address, UInt8.toNat_ofNat', bits, value, and_self]

/-- A way to move a word: to or from the selected sector, one word further. -/
structure MovesWord (moveWord : Transfer → Transfer) : Prop where
  buf : ∀ t, (moveWord t).buf = t.buf + 2
  word : ∀ t, (moveWord t).drive.word = t.drive.word + 1
  selected : ∀ t, (moveWord t).drive.selected = t.drive.selected
  accessed : ∀ t, (moveWord t).drive.accessed = t.drive.accessed ++ [t.drive.selected]
  status : ∀ t, (moveWord t).drive.status = t.drive.status
  polls : ∀ t, (moveWord t).drive.polls = t.drive.polls
  commands : ∀ t, (moveWord t).drive.commands = t.drive.commands

theorem readWord_moves : MovesWord readWord :=
  ⟨fun _ => rfl, fun _ => rfl, fun _ => rfl, fun _ => rfl, fun _ => rfl, fun _ => rfl, fun _ => rfl⟩

theorem writeWord_moves : MovesWord writeWord :=
  ⟨fun _ => rfl, fun _ => rfl, fun _ => rfl, fun _ => rfl, fun _ => rfl, fun _ => rfl, fun _ => rfl⟩

/-- What a number of words leaves. -/
theorem MovesWord.words (moves : MovesWord moveWord) (n : Nat) (t : Transfer) :
    (moveWord^[n] t).buf = t.buf + 2 * n ∧ (moveWord^[n] t).drive.word = t.drive.word + n ∧
      (moveWord^[n] t).drive.selected = t.drive.selected ∧
      (moveWord^[n] t).drive.accessed = t.drive.accessed ++ List.replicate n t.drive.selected ∧
      (moveWord^[n] t).drive.status = t.drive.status ∧ (moveWord^[n] t).drive.polls = t.drive.polls ∧
      (moveWord^[n] t).drive.commands = t.drive.commands := by
  induction n with
  | zero => simp
  | succ n ih =>
    obtain ⟨buf, word, selected, accessed, status, polls, commands⟩ := ih
    simp only [Function.iterate_succ_apply', moves.buf, moves.word, moves.selected, moves.accessed, moves.status,
      moves.polls, moves.commands, buf, word, selected, accessed, status, polls, commands]
    refine ⟨by omega, by omega, trivial, ?_, trivial, trivial, trivial⟩
    rw [List.append_assoc, ← List.replicate_succ']

/-- A drive that was sent some commands for a sector. -/
structure Commanded (start : AtaPorts) (sector sent : Nat) (drive : AtaPorts) : Prop where
  disk : drive.disk = start.disk
  status : drive.status = start.status
  accessed : drive.accessed = start.accessed
  commands : drive.commands = start.commands ++ List.replicate sent sector

/-- The attempts at a sector send commands for it; only the last of them moves words. -/
theorem ataAttempts_eq (slave command : UInt8) (moveWord : Transfer → Transfer) (cur n : Nat) (t : Transfer) :
    ∃ drive sent, Commanded t.drive (cur % 2 ^ 28) sent drive ∧ (0 < n → 0 < sent) ∧
      drive.polls = (attemptsReady t.drive.status n t.drive.polls).1 ∧
      if (attemptsReady t.drive.status n t.drive.polls).2 then
        drive.selected = cur % 2 ^ 28 ∧ drive.word = 0 ∧
          ataAttempts slave command moveWord cur n t = (moveWord^[256] { t with drive }, true)
      else ataAttempts slave command moveWord cur n t = ({ t with drive }, false) := by
  induction n generalizing t with
  | zero => exact ⟨t.drive, 0, ⟨rfl, rfl, rfl, (List.append_nil _).symm⟩, id, rfl, rfl⟩
  | succ n ih =>
    obtain ⟨selected, commands⟩ := ataCommand_selects slave command cur t.drive
    have wait : ataWaitReady (ataCommand slave command cur t.drive).status 100000
        (ataCommand slave command cur t.drive).polls = ataWaitReady t.drive.status 100000 t.drive.polls := rfl
    simp only [ataAttempts, attemptsReady, wait]
    cases ataWaitReady t.drive.status 100000 t.drive.polls with
    | mk polls ready =>
      cases ready with
      | true =>
        exact ⟨{ ataCommand slave command cur t.drive with polls }, 1, ⟨rfl, rfl, rfl, commands⟩, fun _ => Nat.one_pos,
          rfl, selected, rfl, rfl⟩
      | false =>
        obtain ⟨drive, sent, same, _, rest⟩ :=
          ih { t with drive := { ataCommand slave command cur t.drive with polls } }
        refine ⟨drive, sent + 1, ⟨same.disk, same.status, same.accessed, ?_⟩, fun _ => Nat.succ_pos sent, rest⟩
        rw [same.commands, List.replicate_succ, ← List.singleton_append, ← List.append_assoc, ← commands]

end

end LearningOS
