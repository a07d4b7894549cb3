import LearningOS.Storage.Ata
import LearningOS.Storage.Device

namespace LearningOS
open ByteStore

/-- Sectors of a request that were moved one after the other: the medium and the buffer are what
`after` says, the pointer is behind them, and commands were sent for the request's sectors below
`top`. -/
structure Stage (lba : Nat) (start : AtaPorts) (after : Nat → Bytes × Bytes) (c top : Nat) (t : Transfer) : Prop where
  buf : t.buf = 512 * c
  data : (t.drive.disk, t.buffer) = after c
  status : t.drive.status = start.status
  accessed : t.drive.accessed = start.accessed ++ (List.range' lba c).flatMap (List.replicate 256)
  commands : ∃ more, t.drive.commands = start.commands ++ more ∧ ∀ s ∈ more, lba ≤ s ∧ s < top

/-- A transfer moves the first sectors of the request, as many as it returns, in order, and sends
commands for no sector but these and the one that failed. None of them is past the last address. -/
structure MovesOnly (lba count : Nat) (start : AtaPorts) (after : Nat → Bytes × Bytes)
    (result : AtaPorts × Option Bytes × Nat) : Prop where
  returned : result.2.2 ≤ count
  exist : result.2.2 = 0 ∨ lba + result.2.2 ≤ 2 ^ 28
  data : (result.1.disk, result.2.1) = ((after result.2.2).1, some (after result.2.2).2)
  accessed : result.1.accessed = start.accessed ++ (List.range' lba result.2.2).flatMap (List.replicate 256)
  commands : ∃ more, result.1.commands = start.commands ++ more ∧
    ∀ s ∈ more, lba ≤ s ∧ s ≤ lba + result.2.2 ∧ s < lba + count ∧ s < 2 ^ 28

/-- The medium and the buffer after some sectors were read. -/
def afterRead (lba : Nat) (disk buffer : Bytes) (r : Nat) : Bytes × Bytes :=
  (disk, fun i => if i < 512 * r then disk (512 * lba + i) else buffer i)

/-- The medium and the buffer after some sectors were written. -/
def afterWrite (lba : Nat) (disk buffer : Bytes) (r : Nat) : Bytes × Bytes :=
  (fun x => if 512 * lba ≤ x ∧ x < 512 * (lba + r) then buffer (x - 512 * lba) else disk x, buffer)

/-- A sector's words moved take the data from one stage to the next. -/
def MovesSector (moveWord : Transfer → Transfer) (lba : Nat) (after : Nat → Bytes × Bytes) : Prop :=
  ∀ c t, t.buf = 512 * c → t.drive.selected = lba + c → t.drive.word = 0 → (t.drive.disk, t.buffer) = after c →
    ((moveWord^[256] t).drive.disk, (moveWord^[256] t).buffer) = after (c + 1)

section
variable (slave command : UInt8) {moveWord : Transfer → Transfer} {lba c n top : Nat} {start : AtaPorts}
  {after : Nat → Bytes × Bytes} {t : Transfer} {disk buffer : Bytes}

theorem readWords_data (t : Transfer) (n : Nat) :
    (readWord^[n] t).drive.disk = t.drive.disk ∧ (readWord^[n] t).buffer =
      paste t.buffer t.buf (window t.drive.disk (512 * t.drive.selected + 2 * t.drive.word) (2 * n)) := by
  induction n with
  | zero => exact ⟨rfl, (paste_nil _ _).symm⟩
  | succ n ih =>
    obtain ⟨buf, word, selected, _⟩ := readWord_moves.words n t
    have step (u : Transfer) : (readWord u).buffer =
        store16 u.buffer u.buf (load16 u.drive.disk (512 * u.drive.selected + 2 * u.drive.word)) := rfl
    rw [Function.iterate_succ_apply', step, store16_load16_eq, ih.1, ih.2, buf, word, selected]
    exact ⟨ih.1, paste_window_add _ _ rfl (by omega) 2⟩

theorem writeWords_data (t : Transfer) (n : Nat) :
    (writeWord^[n] t).buffer = t.buffer ∧ (writeWord^[n] t).drive.disk =
      paste t.drive.disk (512 * t.drive.selected + 2 * t.drive.word) (window t.buffer t.buf (2 * n)) := by
  induction n with
  | zero => exact ⟨rfl, (paste_nil _ _).symm⟩
  | succ n ih =>
    obtain ⟨buf, word, selected, _⟩ := writeWord_moves.words n t
    have step (u : Transfer) : (writeWord u).drive.disk =
        store16 u.drive.disk (512 * u.drive.selected + 2 * u.drive.word) (load16 u.buffer u.buf) := rfl
    rw [Function.iterate_succ_apply', step, store16_load16_eq, ih.1, ih.2, buf, word, selected]
    exact ⟨ih.1, paste_window_add _ _ (by omega) rfl 2⟩

theorem afterRead_eq (lba : Nat) (disk buffer : Bytes) (r : Nat) :
    afterRead lba disk buffer r = (disk, paste buffer 0 (window disk (512 * lba) (512 * r))) := by
  refine Prod.ext rfl (funext fun i => ?_)
  simp only [afterRead, paste_window_apply, Nat.zero_le, true_and, Nat.zero_add, Nat.sub_zero]

theorem afterWrite_eq (lba : Nat) (disk buffer : Bytes) (r : Nat) :
    afterWrite lba disk buffer r = (paste disk (512 * lba) (window buffer 0 (512 * r)), buffer) := by
  refine Prod.ext (funext fun x => ?_) rfl
  simp only [afterWrite, paste_window_apply, Nat.mul_add, Nat.zero_add]

theorem afterRead_zero (lba : Nat) (disk buffer : Bytes) : afterRead lba disk buffer 0 = (disk, buffer) := by
  rw [afterRead_eq]
  exact congrArg (Prod.mk disk) (paste_nil buffer 0)

theorem afterWrite_zero (lba : Nat) (disk buffer : Bytes) : afterWrite lba disk buffer 0 = (disk, buffer) := by
  rw [afterWrite_eq]
  exact congrArg (·, buffer) (paste_nil disk (512 * lba))

theorem readWord_movesSector (lba : Nat) (disk buffer : Bytes) :
    MovesSector readWord lba (afterRead lba disk buffer) := by
  intro c t buf selected word data
  obtain ⟨same, bytes⟩ := readWords_data t 256
  rw [afterRead_eq] at data ⊢
  obtain ⟨atDisk, atBuffer⟩ := Prod.ext_iff.mp data
  dsimp only at atDisk atBuffer
  rw [same, bytes, atDisk, atBuffer, buf, selected, word, paste_window_add _ _ (by omega) (by omega)]
  rfl

theorem writeWord_movesSector (lba : Nat) (disk buffer : Bytes) :
    MovesSector writeWord lba (afterWrite lba disk buffer) := by
  intro c t buf selected word data
  obtain ⟨same, bytes⟩ := writeWords_data t 256
  rw [afterWrite_eq] at data ⊢
  obtain ⟨atDisk, atBuffer⟩ := Prod.ext_iff.mp data
  dsimp only at atDisk atBuffer
  rw [same, bytes, atDisk, atBuffer, buf, selected, word, paste_window_add _ _ (by omega) (by omega)]
  rfl

/-- Before the first sector. -/
theorem Stage.initial (lba : Nat) {bytes : Bytes} (begins : after 0 = (start.disk, bytes)) :
    Stage lba start after 0 (lba + 0) { drive := start, buffer := bytes, buf := 0 } :=
  ⟨rfl, begins.symm, rfl, (List.append_nil _).symm, [], (List.append_nil _).symm, by simp⟩

/-- The attempts at a sector that exists: it is moved, or the transfer stays where it is. -/
theorem Stage.attempt (stage : Stage lba start after c (lba + c) t) (moves : MovesWord moveWord)
    (sector : MovesSector moveWord lba after) (exist : lba + c < 2 ^ 28) :
    ∃ t' ready, ataAttempts slave command moveWord (u32 (lba + c)) 3 t = (t', ready) ∧
      attemptsReady start.status 3 t.drive.polls = (t'.drive.polls, ready) ∧
      Stage lba start after (if ready then c + 1 else c) (lba + c + 1) t' := by
  obtain ⟨drive, tries, sent, _, polls, result⟩ := ataAttempts_eq slave command moveWord (u32 (lba + c)) 3 t
  have here : u32 (lba + c) % 2 ^ 28 = lba + c := by
    unfold u32
    omega
  rw [here] at sent result
  rw [stage.status] at polls result
  obtain ⟨before, grown, within⟩ := stage.commands
  have commands : drive.commands = start.commands ++ (before ++ List.replicate tries (lba + c)) := by
    rw [sent.commands, grown, List.append_assoc]
  have inside : ∀ s ∈ before ++ List.replicate tries (lba + c), lba ≤ s ∧ s < lba + c + 1 := by
    intro s member
    rcases List.mem_append.mp member with early | late
    · have bounds := within s early
      omega
    · have same := List.eq_of_mem_replicate late
      omega
  cases ready : (attemptsReady start.status 3 t.drive.polls).2 with
  | true =>
    rw [ready, if_pos rfl] at result
    obtain ⟨selected, word, moved⟩ := result
    have words := moves.words 256 { t with drive }
    have data := sector c { t with drive } stage.buf selected word (by rw [← stage.data, ← sent.disk])
    obtain ⟨buf, _, _, accessed, status, polls', commands'⟩ := words
    refine ⟨_, true, moved, Prod.ext (polls'.trans polls).symm ready, ?_, data, ?_, ?_, _,
      commands'.trans commands, inside⟩
    · rw [if_pos rfl, buf, stage.buf]
      omega
    · rw [status, sent.status, stage.status]
    · rw [if_pos rfl, accessed, selected, sent.accessed, stage.accessed, List.range'_1_concat, List.flatMap_append,
        List.append_assoc, List.flatMap_singleton]
  | false =>
    rw [ready, if_neg Bool.false_ne_true] at result
    have kept : Stage lba start after c (lba + c + 1) { t with drive } :=
      ⟨stage.buf, by rw [← stage.data, ← sent.disk], sent.status.trans stage.status,
        sent.accessed.trans stage.accessed, _, commands, inside⟩
    exact ⟨_, false, result, Prod.ext polls.symm ready, kept⟩

/-- The sectors that exist: all of them are moved, or the transfer ends at the first for which the
drive does not become ready. -/
theorem Stage.sectors (stage : Stage lba start after c (lba + c) t) (moves : MovesWord moveWord)
    (sector : MovesSector moveWord lba after) (exist : lba + c + n ≤ 2 ^ 28) (left : Nat) (enough : n ≤ left) :
    (SectorsReady start.status n t.drive.polls ∧ ∃ t', Stage lba start after (c + n) (lba + (c + n)) t' ∧
        ataSectors slave command moveWord lba left c t = ataSectors slave command moveWord lba (left - n) (c + n) t') ∨
      ¬ SectorsReady start.status n t.drive.polls ∧ ∃ t' r, ataSectors slave command moveWord lba left c t = (t', r) ∧
        r < c + n ∧ Stage lba start after r (lba + r + 1) t' := by
  induction n generalizing c t left with
  | zero => exact Or.inl ⟨trivial, t, stage, rfl⟩
  | succ n ih =>
    obtain ⟨left, rfl⟩ : ∃ k, left = k + 1 := ⟨left - 1, by omega⟩
    obtain ⟨t', ready, attempts, polls, next⟩ := stage.attempt slave command moves sector (by omega)
    have shift : c + 1 + n = c + (n + 1) := by omega
    rw [ataSectors, attempts, SectorsReady, polls]
    cases ready with
    | false => exact Or.inr ⟨fun all => Bool.false_ne_true all.1, t', c, rfl, by omega, next⟩
    | true =>
      rw [if_pos rfl] at next
      rcases ih next (by omega) left (by omega) with ⟨all, u, stage', run⟩ | ⟨none, u, r, run, early, stage'⟩
      · rw [shift] at stage' run
        exact Or.inl ⟨⟨rfl, all⟩, u, stage', by rw [Nat.add_sub_add_right]; exact run⟩
      · exact Or.inr ⟨fun all => none all.2, u, r, run, by omega, stage'⟩

theorem ataSectors_commands (moves : MovesWord moveWord) (lba left c : Nat) (t : Transfer) :
    ∃ more, (ataSectors slave command moveWord lba left c t).1.drive.commands = t.drive.commands ++ more ∧
      (0 < left → u32 (lba + c) % 2 ^ 28 ∈ more) := by
  induction left generalizing c t with
  | zero => exact ⟨[], by simp [ataSectors], by simp⟩
  | succ left ih =>
    obtain ⟨drive, tries, sent, some, _, result⟩ := ataAttempts_eq slave command moveWord (u32 (lba + c)) 3 t
    have here : u32 (lba + c) % 2 ^ 28 ∈ List.replicate tries (u32 (lba + c) % 2 ^ 28) :=
      List.mem_replicate.mpr ⟨Nat.ne_of_gt (some (by decide)), rfl⟩
    rw [ataSectors]
    split at result
    · obtain ⟨_, _, moved⟩ := result
      have words := (moves.words 256 { t with drive }).2.2.2.2.2.2
      obtain ⟨later, grown, _⟩ := ih (c + 1) (moveWord^[256] { t with drive })
      rw [words] at grown
      rw [moved]
      refine ⟨_, ?_, fun _ => List.mem_append_left later here⟩
      rw [← List.append_assoc, ← sent.commands]
      exact grown
    · rw [result]
      exact ⟨_, sent.commands, fun _ => here⟩

/-- What a transfer from a device to a buffer that are there leaves. -/
theorem ataTransfer28_some {count : UInt8} (some' : count ≠ 0) (first : lba < 2 ^ 28) (slave command : UInt8)
    (moveWord : Transfer → Transfer) (drive : AtaPorts) (bytes : Bytes) :
    ataTransfer28 command moveWord (some slave) drive lba count (some bytes) =
      let result := ataSectors slave command moveWord lba count.toNat 0 { drive := drive, buffer := bytes, buf := 0 }
      (result.1.drive, some result.1.buffer, result.2) := by
  rw [ataTransfer28, if_neg some', if_neg (by omega)]

/-- A stage is all that was asked for, with the command for the sector that follows, if that is
still one of the request. -/
theorem Stage.movesOnly {count : Nat} (stage : Stage lba start after c top t) (within : c ≤ count)
    (exist : lba + c ≤ 2 ^ 28) (top' : top ≤ lba + c + 1) (asked : top ≤ lba + count) (last : top ≤ 2 ^ 28) :
    MovesOnly lba count start after (t.drive, some t.buffer, c) := by
  obtain ⟨more, grown, bounds⟩ := stage.commands
  refine ⟨within, Or.inr exist, ?_, stage.accessed, more, grown, fun s member => ?_⟩
  · rw [← stage.data]
  · obtain ⟨low, high⟩ := bounds s member
    exact ⟨low, Nat.lt_succ_iff.mp (Nat.lt_of_lt_of_le high top'), by omega, by omega⟩

/-- A transfer that does nothing. -/
theorem MovesOnly.nothing (count : Nat) {drive : AtaPorts} {bytes : Bytes} (begins : after 0 = (drive.disk, bytes)) :
    MovesOnly lba count drive after (drive, some bytes, 0) :=
  ⟨Nat.zero_le _, Or.inl rfl, by rw [begins], (List.append_nil _).symm, [], (List.append_nil _).symm, by simp⟩

/-- A transfer that goes on behind the last sector selects the first one. -/
theorem ataSectors_goesAround (moves : MovesWord moveWord) (stage : Stage lba start after c top t)
    (behind : lba + c = 2 ^ 28) {left : Nat} (rest : 0 < left) :
    ∃ more, (ataSectors slave command moveWord lba left c t).1.drive.commands = start.commands ++ more ∧ 0 ∈ more := by
  obtain ⟨before, first, _⟩ := stage.commands
  obtain ⟨later, second, selects⟩ := ataSectors_commands slave command moves lba left c t
  have zero := selects rest
  rw [behind] at zero
  refine ⟨before ++ later, ?_, List.mem_append_right _ zero⟩
  rw [second, first, List.append_assoc]

/-- A request that goes on behind the last sector, on a drive that becomes ready for all up to it,
goes on with the first. -/
theorem ataTransfer28_goesAround {count : UInt8} (moves : MovesWord moveWord) (sector : MovesSector moveWord lba after)
    (drive : AtaPorts) (bytes : Bytes) (begins : after 0 = (drive.disk, bytes)) (first : lba < 2 ^ 28)
    (behind : 2 ^ 28 < lba + count.toNat) (ready : SectorsReady drive.status (2 ^ 28 - lba) drive.polls) :
    ∃ more, (ataTransfer28 command moveWord (some slave) drive lba count (some bytes)).1.commands =
      drive.commands ++ more ∧ 0 ∈ more := by
  have some' : count ≠ 0 := by
    rintro rfl
    exact absurd behind (Nat.not_lt.mpr (Nat.le_of_lt first))
  rw [ataTransfer28_some some' first]
  rcases (Stage.initial lba begins).sectors (n := 2 ^ 28 - lba) slave command moves sector (by omega) count.toNat
    (by omega) with ⟨_, t, reached, run⟩ | ⟨none, _⟩
  · rw [run]
    exact ataSectors_goesAround slave command moves reached (by omega) (by omega)
  · exact absurd ready none

theorem movesOnly_iff {count : UInt8} (moves : MovesWord moveWord) (sector : MovesSector moveWord lba after)
    (drive : AtaPorts) (bytes : Bytes) (begins : after 0 = (drive.disk, bytes)) :
    MovesOnly lba count.toNat drive after (ataTransfer28 command moveWord (some slave) drive lba count (some bytes)) ↔
      2 ^ 28 ≤ lba ∨ lba + count.toNat ≤ 2 ^ 28 ∨ ¬ SectorsReady drive.status (2 ^ 28 - lba) drive.polls := by
  constructor
  · intro only
    by_contra none
    simp only [not_or, Nat.not_le, not_not] at none
    obtain ⟨first, behind, ready⟩ := none
    obtain ⟨more, grown, around⟩ := ataTransfer28_goesAround slave command moves sector drive bytes begins first
      behind ready
    obtain ⟨more', grown', within⟩ := only.commands
    have same : more = more' := List.append_cancel_left (grown.symm.trans grown')
    have least := (within 0 (same ▸ around)).1
    have byte := count.toNat_lt
    omega
  · intro ends
    by_cases refused : lba > 0x0FFFFFFF
    · rw [ataTransfer28, if_pos refused, ite_self]
      exact MovesOnly.nothing count.toNat begins
    by_cases none : count = 0
    · rw [ataTransfer28, if_pos none]
      exact MovesOnly.nothing count.toNat begins
    rw [ataTransfer28_some none (by omega)]
    -- the sectors of the request that exist
    obtain ⟨n, exist, enough, all⟩ : ∃ n, lba + n ≤ 2 ^ 28 ∧ n ≤ count.toNat ∧
        (n = count.toNat ∨ ¬ SectorsReady drive.status n drive.polls) := by
      rcases ends with behind | fits | notReady
      · omega
      · exact ⟨count.toNat, fits, Nat.le_refl _, Or.inl rfl⟩
      · by_cases fits : lba + count.toNat ≤ 2 ^ 28
        · exact ⟨count.toNat, fits, Nat.le_refl _, Or.inl rfl⟩
        · exact ⟨2 ^ 28 - lba, by omega, by omega, Or.inr notReady⟩
    rcases (Stage.initial lba begins).sectors slave command moves sector exist count.toNat enough with
      ⟨ready, t, reached, run⟩ | ⟨_, t, r, run, early, reached⟩
    · rcases all with rfl | notReady
      · rw [run, Nat.sub_self, ataSectors]
        rw [Nat.zero_add] at reached ⊢
        exact reached.movesOnly (Nat.le_refl _) exist (by omega) (Nat.le_refl _) exist
      · exact absurd ready notReady
    · rw [run]
      exact reached.movesOnly (by omega) (by omega) (Nat.le_refl _) (by omega) (by omega)

end

/-- A transfer moves only what was asked for exactly if the request ends with the last sector there
is, begins behind it, or comes to an end before it does because the drive does not become ready. -/
theorem ata_transfers_iff (slave : UInt8) (drive : AtaPorts) (lba : Nat) (count : UInt8) (bytes : Bytes) :
    (MovesOnly lba count.toNat drive (afterRead lba drive.disk bytes)
          (ataRead28 (some slave) drive lba count (some bytes)) ↔
        2 ^ 28 ≤ lba ∨ lba + count.toNat ≤ 2 ^ 28 ∨ ¬ SectorsReady drive.status (2 ^ 28 - lba) drive.polls) ∧
      (MovesOnly lba count.toNat drive (afterWrite lba drive.disk bytes)
          (ataWrite28 (some slave) drive lba count (some bytes)) ↔
        2 ^ 28 ≤ lba ∨ lba + count.toNat ≤ 2 ^ 28 ∨ ¬ SectorsReady drive.status (2 ^ 28 - lba) drive.polls) :=
  ⟨movesOnly_iff slave 0x20 readWord_moves (readWord_movesSector lba drive.disk bytes) drive bytes
      (afterRead_zero lba drive.disk bytes),
    movesOnly_iff slave 0x30 writeWord_moves (writeWord_movesSector lba drive.disk bytes) drive bytes
      (afterWrite_zero lba drive.disk bytes)⟩

/-- A drive that always is ready, with empty registers. -/
def readyPorts : AtaPorts := ⟨0, 0, 0, 0, 0, 0, 0, fun _ => 0, fun _ => 0x08, 0, [], []⟩

theorem readyPorts_ready : SectorsReady readyPorts.status 1 readyPorts.polls := by
  have wait : ataWaitReady readyPorts.status (99999 + 1) 0 = (1, true) := rfl
  refine ⟨?_, trivial⟩
  simp only [attemptsReady]
  rw [show readyPorts.polls = 0 from rfl, wait]

/-- Two sectors are written from the last one on: the drive is told to write its first. -/
theorem ata_write_overruns :
    0 ∈ (ataWrite28 (some 0) readyPorts 0x0FFFFFFF 2 (some fun _ => 1)).1.commands ∧
      ¬ MovesOnly 0x0FFFFFFF 2 readyPorts (afterWrite 0x0FFFFFFF readyPorts.disk fun _ => 1)
        (ataWrite28 (some 0) readyPorts 0x0FFFFFFF 2 (some fun _ => 1)) := by
  have behind : 2 ^ 28 < 0x0FFFFFFF + (2 : UInt8).toNat := by decide
  obtain ⟨more, grown, around⟩ := ataTransfer28_goesAround 0 0x30 writeWord_moves
    (writeWord_movesSector 0x0FFFFFFF readyPorts.disk fun _ => 1) readyPorts (fun _ => 1) (afterWrite_zero _ _ _)
    (by decide) behind readyPorts_ready
  refine ⟨by rw [ataWrite28, grown]; exact List.mem_append_right _ around, fun only => ?_⟩
  obtain ⟨more', grown', within⟩ := only.commands
  have same : more = more' := List.append_cancel_left (grown.symm.trans grown')
  exact absurd (within 0 (same ▸ around)).1 (by decide)

end LearningOS
