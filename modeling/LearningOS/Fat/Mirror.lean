import LearningOS.Fat.Effect
import LearningOS.Fat.RoundTrip

namespace LearningOS
open ByteStore History

/-- A sector of one of the FATs. -/
def FatFs.fatSector (fat : FatFs) (m : Bytes) (k i : Nat) : Bytes :=
  sectorAt m (fat.firstFatSector + k * fat.fatSize + i)

/-- All FATs are copies of the first one. -/
def FatFs.Mirrored (fat : FatFs) (m : Bytes) : Prop :=
  ∀ k, k < fat.numFats → ∀ i, i < fat.fatSize → fat.fatSector m k i = fat.fatSector m 0 i

/-- The clusters of the files. -/
def FatFs.FileCluster (fat : FatFs) (m : Bytes) (c : Nat) : Prop :=
  ∃ i cs, i < fat.slots ∧ fat.InUse m i ∧ fat.Chain m (fat.slotCluster m i) cs ∧ c ∈ cs

namespace FatVolume
variable {dev : StorageDevice} {fat : FatFs}

theorem rooted (volume : FatVolume dev fat) : fat.Rooted dev.disk (fat.FileCluster dev.disk) := by
  refine ⟨⟨?_, ?_⟩, fun i inside use low _ => ?_⟩
  · rintro c ⟨i, cs, _, _, chain, member⟩
    exact chain.inside c member
  · rintro c d ⟨i, cs, inside, use, chain, member⟩ link
    exact ⟨i, cs, inside, use, chain, chain.path.link_mem member link⟩
  · unfold FatFs.oldCluster at low ⊢
    rcases volume.chains i inside use with none | ⟨cs, chain⟩
    · unfold FatFs.slotCluster at none
      omega
    · rw [← volume.sound.slotCluster_eq (chain.inside _ chain.head_mem)]
      exact ⟨i, cs, inside, use, chain, chain.head_mem⟩

end FatVolume

/-- No call writes to a FAT other than the first. -/
theorem WriteEffect.fatSector {s s' : FatState} (effect : WriteEffect s s') (layout : FatLayout s.dev s.fat) {k i : Nat}
    (other : 1 ≤ k) (copy : k < s.fat.numFats) (inside : i < s.fat.fatSize) :
    s.fat.fatSector s'.dev.disk k i = s.fat.fatSector s.dev.disk k i := by
  obtain ⟨first, root, data⟩ := layout.order
  have table := layout.table
  have behind : s.fat.fatSize ≤ k * s.fat.fatSize := Nat.le_mul_of_pos_left _ other
  have before : (k + 1) * s.fat.fatSize ≤ s.fat.numFats * s.fat.fatSize := Nat.mul_le_mul_right _ copy
  rw [Nat.succ_mul] at before
  refine sectorAt_congr fun x lower upper => effect.same x ?_ (by omega)
  unfold FatFs.ClusterByte FatFs.tableBase
  omega

/-- After any calls of `fat_write_file` on a working device, the FATs of a mirrored
volume but the first are what they were: copies of the first FAT at the time of the
mount. All FATs are still the same exactly if the first one is unchanged. -/
theorem fat_copies_keep_mounted_fat {s₀ s s' : FatState} {fat : FatFs}
    {calls : List (FatState × Option (List UInt8) × Option (List UInt8))} (volume : FatVolume s₀.dev fat)
    (works : s₀.dev.Works) (two : 2 ≤ fat.numFats) (mirrored : fat.Mirrored s₀.dev.disk) (mounted : fatInit s₀ = .ok s)
    (path : Path WriteStep s calls s') :
    (∀ k, 1 ≤ k → k < fat.numFats → ∀ i, i < fat.fatSize →
      fat.fatSector s'.dev.disk k i = fat.fatSector s₀.dev.disk 0 i) ∧
    (fat.Mirrored s'.dev.disk ↔ ∀ i, i < fat.fatSize →
      fat.fatSector s'.dev.disk 0 i = fat.fatSector s₀.dev.disk 0 i) := by
  rw [volume.fatInit_eq works] at mounted
  cases Except.ok.inj mounted
  have effect := writes_effect (s := { s₀ with fat, files := fat.rootFiles s₀.dev.disk }) volume.sound works.reads
    volume.rooted path
  have kept (k : Nat) (other : 1 ≤ k) (copy : k < fat.numFats) (i : Nat) (inside : i < fat.fatSize) :
      fat.fatSector s'.dev.disk k i = fat.fatSector s₀.dev.disk 0 i :=
    (effect.fatSector volume.layout other copy inside).trans (mirrored k copy i inside)
  refine ⟨kept, fun same i inside => ?_, fun first k copy i inside => ?_⟩
  · exact (same 1 two i inside).symm.trans (kept 1 le_rfl two i inside)
  · rcases Nat.eq_zero_or_pos k with zero | other
    · rw [zero]
    · exact (kept k other copy i inside).trans (first i inside).symm

/-- The start of a boot sector with two FATs. -/
def twinBoot : List UInt8 :=
  [0xEB, 0x3C, 0x90, 0, 0, 0, 0, 0, 0, 0, 0, 0x00, 0x02, 0x80, 0x01, 0x00, 0x02, 0x10, 0x00, 0x00, 0x00, 0xF8, 0x00,
    0x01, 0, 0, 0, 0, 0, 0, 0, 0, 0x02, 0x22, 0x4E, 0x00]

/-- An empty volume with two FATs. -/
def twinDisk : Bytes := fun x => twinBoot.getD x 0

def twinFat : FatFs := ⟨true, 512, 128, 1, 2, 256, 16, 1, 1, 514, 513, 0, 16, 40000⟩

def twinState : FatState :=
  ⟨⟨true, true, true, 5120514, twinDisk, fun _ _ => false, fun _ _ => false⟩, twinFat, twinFat.rootFiles twinDisk⟩

theorem twinDisk_zero {x : Nat} (behind : 36 ≤ x) : twinDisk x = 0 := by
  have length : twinBoot.length = 36 := rfl
  rw [twinDisk, List.getD_eq_getElem?_getD, List.getElem?_eq_none (by omega)]
  rfl

theorem twinDisk_root (i : Nat) : twinDisk (twinFat.slotBase i) = 0 := by
  have base : twinFat.slotBase i = 512 * 513 + 32 * i := rfl
  exact twinDisk_zero (by omega)

theorem twinDisk_entry (c : Nat) : twinFat.entry twinDisk c = 0 := by
  have base : twinFat.tableBase = 512 := rfl
  rw [FatFs.entry, word, load16, base, twinDisk_zero (by omega), twinDisk_zero (by omega)]
  rfl

theorem twinDisk_mirrored : twinFat.Mirrored twinDisk := by
  have first : twinFat.firstFatSector = 1 := rfl
  intro k _ i _
  funext x
  simp only [FatFs.fatSector, sectorAt]
  split
  · rw [twinDisk_zero (by omega), twinDisk_zero (by omega)]
  · rfl

theorem twinState_works : twinState.dev.Works := ⟨rfl, rfl, rfl, rfl, rfl⟩

theorem twinState_layout : FatLayout twinState.dev twinFat :=
  ⟨by rfl, rfl, rfl, by decide, by decide, by decide, by decide⟩

theorem twinState_volume : FatVolume twinState.dev twinFat := twinState_layout.volume fun i _ => twinDisk_root i

theorem twinState_mounted : fatInit twinState = .ok twinState := twinState_volume.fatInit_eq twinState_works

theorem twinState_writes : ∃ s', fatWriteFile twinState (some [0x41]) (some [7]) = .ok (s', 0) := by
  have vacant : twinFat.Vacant twinDisk 0 := Or.inl (twinDisk_root 0)
  have free : twinFat.FreeRun twinDisk 2 (max (twinFat.clustersNeeded 1) 1) :=
    ⟨le_rfl, by decide, fun c _ _ => twinDisk_entry c⟩
  exact twinState_volume.write_succeeds twinState_works shortName_A.fatFormatName_eq (by decide) vacant free

theorem fat_copies_keep_mounted_fat_twinDisk :
    ∃ s', fatWriteFile twinState (some [0x41]) (some [7]) = .ok (s', 0) ∧
      ∀ i, i < 256 → twinFat.fatSector s'.dev.disk 1 i = twinFat.fatSector twinDisk 0 i := by
  obtain ⟨s', run⟩ := twinState_writes
  have path : Path WriteStep twinState [(twinState, some [0x41], some [7])] s' := .next (.done twinState) ⟨0, run⟩
  exact ⟨s', run, (fat_copies_keep_mounted_fat twinState_volume twinState_works le_rfl twinDisk_mirrored
    twinState_mounted path).1 1 le_rfl (by decide)⟩

/-- The entries of the first FAT, by its sectors. -/
theorem FatFs.Sound.entry_fatSector {fat : FatFs} {sectors c : Nat} (sound : fat.Sound sectors) (m : Bytes)
    (bound : c < fat.totalClusters + 2) :
    2 * c / 512 < fat.fatSize ∧ fat.entry m c = load16 (fat.fatSector m 0 (2 * c / 512)) (2 * c % 512) := by
  obtain ⟨_, _, address⟩ := sound.entry_sector bound
  have table := sound.table
  refine ⟨by omega, ?_⟩
  rw [FatFs.fatSector, load16_sectorAt (by omega), Nat.zero_mul, Nat.add_zero, address]
  rfl

theorem fat_copies_diverge :
    ¬ ∀ (s₀ s s' : FatState) (fat : FatFs) (calls : List (FatState × Option (List UInt8) × Option (List UInt8))),
      FatVolume s₀.dev fat → s₀.dev.Works → 2 ≤ fat.numFats → fat.Mirrored s₀.dev.disk → fatInit s₀ = .ok s →
      Path WriteStep s calls s' → fat.Mirrored s'.dev.disk := by
  intro claim
  obtain ⟨s', run⟩ := twinState_writes
  have path : Path WriteStep twinState [(twinState, some [0x41], some [7])] s' := .next (.done twinState) ⟨0, run⟩
  have mirrored := claim twinState twinState s' twinFat _ twinState_volume twinState_works le_rfl twinDisk_mirrored
    twinState_mounted path
  have sound := twinState_volume.sound
  have effect := writes_effect sound twinState_works.reads twinState_volume.rooted path
  obtain ⟨i, first, cs, file⟩ := twinState_volume.storedFile twinState_works shortName_A (by decide) run
  -- the first cluster of the file is marked in the first FAT
  have chain := (sound.stored_chain (by simp) file.placed (by decide)).1
  have bound := (chain.inside first chain.head_mem).2
  have marked := chain.marked first chain.head_mem
  have written : twinFat.entry s'.dev.disk first =
      twinFat.entry (twinFat.stored (twinFat.freed twinDisk cs) first [7]) first := file.written.entry first bound
  -- and free in the second
  obtain ⟨inside, entry⟩ := sound.entry_fatSector s'.dev.disk bound
  have second : twinFat.fatSector s'.dev.disk 0 (2 * first / 512) = twinFat.fatSector twinDisk 0 (2 * first / 512) :=
    calc twinFat.fatSector s'.dev.disk 0 (2 * first / 512)
      _ = twinFat.fatSector s'.dev.disk 1 (2 * first / 512) := (mirrored 1 (by decide) _ inside).symm
      _ = twinFat.fatSector twinDisk 1 (2 * first / 512) :=
        effect.fatSector twinState_layout le_rfl (by decide) inside
      _ = twinFat.fatSector twinDisk 0 (2 * first / 512) := twinDisk_mirrored 1 (by decide) _ inside
  have same : twinFat.entry s'.dev.disk first = twinFat.entry twinDisk first := by
    rw [entry, second, (sound.entry_fatSector twinDisk bound).2]
  have free := (same.trans (twinDisk_entry first)).symm.trans written
  change 2 ≤ twinFat.entry (twinFat.stored (twinFat.freed twinDisk cs) first [7]) first at marked
  omega

end LearningOS
