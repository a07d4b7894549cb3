import LearningOS.Fat.Replace

namespace LearningOS
open ByteStore

/-- A write under the name of a file that has clusters, with more bytes than the
free clusters and those of the file have a run for. -/
def WriteLoses (s : FatState) (name buffer : Option (List UInt8)) : Prop :=
  ∃ text bytes raw i cs, name = some text ∧ buffer = some bytes ∧ fatFormatName text = some raw ∧ bytes ≠ [] ∧
    i < s.fat.slots ∧ s.fat.InUse s.dev.disk i ∧ s.fat.slotName s.dev.disk i = raw ∧
    s.fat.Chain s.dev.disk (s.fat.slotCluster s.dev.disk i) cs ∧
    ¬ ∃ start, 2 ≤ start ∧ start + max (s.fat.clustersNeeded bytes.length) 1 ≤ s.fat.totalClusters ∧
      ∀ c, start ≤ c → c < start + max (s.fat.clustersNeeded bytes.length) 1 → s.fat.entry s.dev.disk c = 0 ∨ c ∈ cs

/-- Every file reads back as before, and the clusters of every root entry are
still marked as allocated. -/
structure FilesIntact (s s' : FatState) : Prop where
  reads : ∀ name buffer max,
    (fatReadFile s' name buffer max).map Prod.snd = (fatReadFile s name buffer max).map Prod.snd
  allocated : ∀ i cs, i < s.fat.slots → s.fat.InUse s.dev.disk i →
    s.fat.Chain s.dev.disk (s.fat.slotCluster s.dev.disk i) cs → ∀ c ∈ cs, s.fat.entry s'.dev.disk c ≠ 0

theorem FilesIntact.refl (s : FatState) : FilesIntact s s :=
  ⟨fun _ _ _ => rfl, fun _ _ _ _ chain c member zero => by have := chain.marked c member; omega⟩

/-- A free run behind the freed chain is one of free clusters and of its own. -/
theorem FatFs.freeRun_freed {fat : FatFs} {m : Bytes} {cs : List Nat} (once : cs.Nodup) {t n : Nat} :
    fat.FreeRun (fat.freed m cs) t n ↔ 2 ≤ t ∧ t + n ≤ fat.totalClusters ∧
      ∀ c, t ≤ c → c < t + n → fat.entry m c = 0 ∨ c ∈ cs := by
  simp only [FatFs.FreeRun, fat.entry_freed m cs once]
  refine and_congr_right fun _ => and_congr_right fun _ => forall_congr' fun c => imp_congr_right fun _ =>
    imp_congr_right fun _ => ?_
  by_cases member : c ∈ cs
  · simp [member]
  · simp [member]

namespace FatVolume
variable {s : FatState}

/-- Such a write frees the clusters of the file and fails. -/
theorem write_loses (volume : FatVolume s.dev s.fat) (works : s.dev.Works) {text buffer : Option (List UInt8)}
    (loses : WriteLoses s text buffer) : ∃ s', fatWriteFile s text buffer = .ok (s', -1) ∧ ¬ FilesIntact s s' := by
  obtain ⟨text, bytes, raw, j, ds, rfl, rfl, format, filled, bound, use, same, chain, noRoom⟩ := loses
  rcases volume.fatWriteFile_cases works format bytes with
    ⟨_, absent, _⟩ | ⟨i, cs, inside, target, ⟨_, _, run⟩ | ⟨first, m, placed, _, _⟩⟩
  · exact absurd same (absent j bound use)
  · obtain ⟨rfl, rfl⟩ := volume.target_eq inside bound target (.replace use same (Or.inr chain))
    refine ⟨_, run, fun intact => ?_⟩
    have kept := intact.allocated i cs bound use chain _ chain.head_mem
    exact kept ((s.fat.entry_freed _ cs target.nodup _).trans (if_pos chain.head_mem))
  · obtain ⟨rfl, rfl⟩ := volume.target_eq inside bound target (.replace use same (Or.inr chain))
    rcases placed with ⟨empty, _⟩ | ⟨_, free⟩
    · exact absurd empty filled
    · exact absurd ⟨first, (FatFs.freeRun_freed target.nodup).mp free⟩ noRoom

/-- Every other write returns, and if it fails it changes nothing. -/
theorem write_keeps (volume : FatVolume s.dev s.fat) (works : s.dev.Works) {text buffer : Option (List UInt8)}
    (keeps : ¬ WriteLoses s text buffer) :
    ∃ s' ret, fatWriteFile s text buffer = .ok (s', ret) ∧ (ret = -1 → FilesIntact s s') := by
  rcases volume.write_outcome works text buffer with
    run | ⟨raw, bytes, i, cs, encoded, rfl, inside, target, ⟨filled, none, run⟩ | ⟨first, m, _, _, run⟩⟩
  · exact ⟨s, -1, run, fun _ => .refl s⟩
  · -- nothing was freed, or else the write would be a losing one
    have empty : cs = [] := by
      cases target with
      | create _ _ _ empty => exact empty
      | replace use same holds =>
        rcases holds with ⟨_, empty⟩ | chain
        · exact empty
        · obtain ⟨text, rfl, format⟩ := Option.bind_eq_some_iff.mp encoded
          refine absurd ⟨text, bytes, raw, i, cs, rfl, rfl, format, filled, inside, use, same, chain, ?_⟩ keeps
          rintro ⟨start, room⟩
          exact none start ((FatFs.freeRun_freed chain.path.nodup).mpr room)
    subst empty
    exact ⟨s, -1, run, fun _ => .refl s⟩
  · obtain ⟨s', stored⟩ := fatRefreshRootCache_returns run volume.sound.type
    exact ⟨s', 0, stored, by simp⟩

end FatVolume

/-- On a well-formed volume a call of `fat_write_file` that fails leaves all files
as they were, exactly if it is not one under the name of a file with clusters and
with more bytes than there is a run for once these clusters are free. -/
theorem fat_write_failure_intact_iff {s₀ s : FatState} {fat : FatFs} (volume : FatVolume s₀.dev fat)
    (works : s₀.dev.Works) (mounted : fatInit s₀ = .ok s) (name buffer : Option (List UInt8)) :
    ∃ s' ret, fatWriteFile s name buffer = .ok (s', ret) ∧
      ((ret = -1 → FilesIntact s s') ↔ ¬ WriteLoses s name buffer) := by
  rw [volume.fatInit_eq works] at mounted
  cases Except.ok.inj mounted
  by_cases loses : WriteLoses { s₀ with fat, files := fat.rootFiles s₀.dev.disk } name buffer
  · obtain ⟨s', run, broken⟩ := FatVolume.write_loses (s := { s₀ with fat, files := fat.rootFiles s₀.dev.disk })
      volume works loses
    exact ⟨s', -1, run, iff_of_false (fun kept => broken (kept rfl)) (not_not.mpr loses)⟩
  · obtain ⟨s', ret, run, kept⟩ := FatVolume.write_keeps (s := { s₀ with fat, files := fat.rootFiles s₀.dev.disk })
      volume works loses
    exact ⟨s', ret, run, iff_of_true kept loses⟩

/-- The entry of a file `A` of five bytes in cluster 2. -/
def fileEntry : List UInt8 :=
  0x41 :: List.replicate 11 0x20 ++ List.replicate 14 0 ++ [2, 0, 5, 0, 0, 0]

/-- A full volume with one file. -/
def fullDisk : FatState := ⟨sampleDevice 0xFF fileEntry, sampleFat, []⟩

theorem sampleDisk_chain (entry : List UInt8) : sampleFat.Chain (sampleDisk 0xFF entry) 2 [2] := by
  have mark : sampleFat.entry (sampleDisk 0xFF entry) 2 = 0xFFFF := sampleDisk_entry (by decide)
  refine ⟨.stop ?_, fun c member => ?_, fun c member => ?_⟩
  · simp [FatFs.link, mark]
  · cases List.mem_singleton.mp member
    exact ⟨by decide, by decide⟩
  · cases List.mem_singleton.mp member
    omega

/-- A full volume with one entry, called `A`, of one cluster. -/
theorem fullVolume {entry : List UInt8} (short : entry.length ≤ 32)
    (named : sampleFat.slotName (sampleDisk 0xFF entry) 0 = 0x41 :: List.replicate 10 0x20)
    (cluster : sampleFat.slotCluster (sampleDisk 0xFF entry) 0 = 2) : FatVolume (sampleDevice 0xFF entry) sampleFat := by
  refine sampleVolume short (fun _ => ⟨[0x41], [], ⟨by decide, by decide, fun c member => ?_⟩, named⟩) fun _ => ⟨[2], ?_⟩
  · cases List.mem_singleton.mp member
    exact ⟨by decide, by decide, by decide⟩
  · rw [cluster]
    exact sampleDisk_chain entry

theorem fullDisk_volume : FatVolume fullDisk.dev sampleFat := fullVolume (by decide) (by decide) (by decide)

/-- A write of 65537 bytes under the name of the file on the full volume needs two
clusters, and frees one. -/
theorem fullDisk_loses (files : List FatFileInfo) :
    WriteLoses { fullDisk with files } (some [0x41]) (some (List.replicate 65537 0)) := by
  have filled : List.replicate 65537 (0 : UInt8) ≠ [] := fun empty => by
    have length := congrArg List.length empty
    rw [List.length_replicate] at length
    exact absurd length (by decide)
  have needed : max (sampleFat.clustersNeeded 65537) 1 = 2 := by decide
  have use : sampleFat.InUse (sampleDisk 0xFF fileEntry) 0 := by decide
  have cluster : sampleFat.slotCluster (sampleDisk 0xFF fileEntry) 0 = 2 := by decide
  have name : sampleFat.slotName (sampleDisk 0xFF fileEntry) 0 = 0x41 :: List.replicate 10 0x20 := by decide
  have slots : 0 < sampleFat.slots := by decide
  refine ⟨[0x41], List.replicate 65537 0, 0x41 :: List.replicate 10 0x20, 0, [2], rfl, rfl, by decide, filled,
    slots, use,
    name, ?_, ?_⟩
  · change sampleFat.Chain (sampleDisk 0xFF fileEntry) (sampleFat.slotCluster (sampleDisk 0xFF fileEntry) 0) [2]
    rw [cluster]
    exact sampleDisk_chain fileEntry
  · rintro ⟨start, two, upper, room⟩
    rw [List.length_replicate] at upper room
    change start + max (sampleFat.clustersNeeded 65537) 1 ≤ 40000 at upper
    change ∀ c, start ≤ c → c < start + max (sampleFat.clustersNeeded 65537) 1 →
      sampleFat.entry (sampleDisk 0xFF fileEntry) c = 0 ∨ c ∈ [2] at room
    rw [needed] at upper room
    have value : sampleFat.entry (sampleDisk 0xFF fileEntry) (start + 1) = 0xFFFF := sampleDisk_entry (by omega)
    rcases room (start + 1) (by omega) (by omega) with zero | member
    · omega
    · have same := List.mem_singleton.mp member
      omega

theorem fullDisk_works : fullDisk.dev.Works := sampleDevice_works _ _

theorem fullDisk_mounted :
    fatInit fullDisk = .ok { fullDisk with files := sampleFat.rootFiles fullDisk.dev.disk } :=
  fullDisk_volume.fatInit_eq fullDisk_works

theorem fat_write_failure_fullDisk :
    ∃ s s' ret, fatInit fullDisk = .ok s ∧
      fatWriteFile s (some [0x41]) (some (List.replicate 65537 0)) = .ok (s', ret) ∧
      ¬ (ret = -1 → FilesIntact s s') := by
  obtain ⟨s', ret, run, exact⟩ := fat_write_failure_intact_iff fullDisk_volume fullDisk_works fullDisk_mounted
    (some [0x41]) (some (List.replicate 65537 0))
  exact ⟨_, s', ret, fullDisk_mounted, run, fun intact => exact.mp intact (fullDisk_loses _)⟩

theorem fat_write_failure_loses_file :
    ¬ ∀ (s₀ s s' : FatState) (fat : FatFs) (name buffer : Option (List UInt8)), FatVolume s₀.dev fat → s₀.dev.Works →
      fatInit s₀ = .ok s → fatWriteFile s name buffer = .ok (s', -1) → FilesIntact s s' := by
  intro claim
  obtain ⟨s', run, broken⟩ := FatVolume.write_loses
    (s := { fullDisk with files := sampleFat.rootFiles fullDisk.dev.disk }) fullDisk_volume fullDisk_works
    (fullDisk_loses _)
  exact broken (claim fullDisk _ s' sampleFat _ _ fullDisk_volume fullDisk_works fullDisk_mounted run)

end LearningOS
