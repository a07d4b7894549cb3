import LearningOS.Fat.Effect
import LearningOS.Fat.RoundTrip

namespace LearningOS
open ByteStore History

/-- A value that is no link, a link to a data cluster, or an end mark. -/
def FatFs.InRange (fat : FatFs) (v : Nat) : Prop := v = 0 ∨ fat.IsCluster v ∨ 0xFFF8 ≤ v

/-- The links of the FAT and the first clusters of the root entries lead to data
clusters. -/
structure FatFs.LinksInRange (fat : FatFs) (m : Bytes) : Prop where
  links : ∀ c, fat.IsCluster c → fat.InRange (fat.entry m c)
  roots : ∀ i, i < fat.slots → fat.InUse m i → fat.InRange (fat.oldCluster m i)

theorem FatFs.InRange.cluster {fat : FatFs} {v : Nat} (range : fat.InRange v) (low : 2 ≤ v) (high : v < 0xFFF8) :
    fat.IsCluster v := by
  rcases range with zero | cluster | mark
  · omega
  · exact cluster
  · omega

theorem FatFs.LinksInRange.rooted {fat : FatFs} {m : Bytes} (range : fat.LinksInRange m) :
    fat.Rooted m fat.IsCluster := by
  refine ⟨⟨fun _ cluster => cluster, fun c d cluster link => ?_⟩, fun i inside use low high => ?_⟩
  · obtain ⟨rfl, low, high⟩ := FatFs.link_eq_some link
    exact (range.links c cluster).cluster low high
  · exact (range.roots i inside use).cluster low high

/-- A boot sector in front of the FAT is never written. -/
theorem WriteEffect.layout {s s' : FatState} (effect : WriteEffect s s') (layout : FatLayout s.dev s.fat)
    (reserved : 0 < s.fat.reservedSectors) : FatLayout s'.dev s.fat := by
  obtain ⟨first, root, data⟩ := layout.order
  have boot : sectorAt s'.dev.disk 0 = sectorAt s.dev.disk 0 := by
    refine sectorAt_congr fun x _ upper => effect.same x ?_ (by omega)
    unfold FatFs.ClusterByte FatFs.tableBase
    omega
  refine ⟨?_, layout.type, layout.bytes, layout.fats, ?_, ?_, layout.table⟩
  · rw [boot]
    exact layout.boot
  · rw [boot]
    exact layout.regions
  · rw [boot, effect.sectors]
    exact layout.device

/-- Whatever calls of `fat_write_file` return and whichever of their writes fail, the
listing in memory is the one that a mount of the same disk would make, on every
volume whose boot sector lies in front of its first FAT. -/
theorem fat_cache_coherent {s₀ s s' : FatState} {fat : FatFs}
    {calls : List (FatState × Option (List UInt8) × Option (List UInt8))} (layout : FatLayout s₀.dev fat)
    (reserved : 0 < fat.reservedSectors) (reads : s₀.dev.Reads) (range : fat.LinksInRange s₀.dev.disk)
    (mounted : fatInit s₀ = .ok s) (path : Path WriteStep s calls s') (fat' : FatFs) (files : List FatFileInfo) :
    ∃ t, fatInit ⟨s'.dev, fat', files⟩ = .ok t ∧ t.files = s'.files := by
  obtain ⟨dev, init, rests⟩ := layout.fatInit_reads reads
  cases Except.ok.inj (mounted.symm.trans init)
  have layout₁ : FatLayout dev fat := by
    obtain ⟨boot, type, bytes, fats, regions, device, table⟩ := layout
    rw [← rests.disk] at boot regions device
    rw [← rests.sectors] at device
    exact ⟨boot, type, bytes, fats, regions, device, table⟩
  have rooted := range.rooted
  rw [← rests.disk] at rooted
  have effect := writes_effect layout₁.sound rests.reads rooted path
  obtain ⟨dev', fresh, _⟩ :=
    (effect.layout layout₁ reserved).fatInit_reads (s := ⟨s'.dev, fat', files⟩) effect.reads
  refine ⟨_, fresh, ?_⟩
  rcases effect.listed with new | ⟨old, kept⟩
  · exact new.symm
  · change fat.listing s'.dev.disk = s'.files
    rw [old]
    refine kept.trans ?_
    change fat.listing dev.disk = fat.listing s₀.dev.disk
    rw [rests.disk]

theorem emptyDisk_range : sampleFat.LinksInRange emptyDisk.dev.disk := by
  refine ⟨fun c cluster => Or.inl ?_, fun i inside use => absurd (emptyDisk_vacant inside) use.1⟩
  exact sampleDisk_entry cluster.2

theorem fat_cache_coherent_emptyDisk :
    ∃ s' t, fatWriteFile emptyDisk (some [0x41]) (some [7]) = .ok (s', 0) ∧
      fatInit ⟨s'.dev, emptyDisk.fat, []⟩ = .ok t ∧ t.files = s'.files := by
  obtain ⟨s', run⟩ := emptyDisk_writes [7] (by decide)
  have path : Path WriteStep emptyDisk [(emptyDisk, some [0x41], some [7])] s' := .next (.done emptyDisk) ⟨0, run⟩
  obtain ⟨t, fresh, same⟩ := fat_cache_coherent emptyDisk_volume.layout (by decide) emptyDisk_works.reads
    emptyDisk_range emptyDisk_mounted path emptyDisk.fat []
  exact ⟨s', t, run, fresh, same⟩

/-- A boot sector that reserves no sector, so that it is also the start of the FAT:
the number of reserved sectors is the entry of cluster 7. -/
def lowBoot : List UInt8 :=
  List.replicate 11 0xFF ++ [0x00, 0x02, 0x01, 0x00, 0x00, 0x01, 0x10, 0x00, 0x01, 0xFF, 0xFF, 0x00, 0x01]

/-- Cluster 7 is the only free one. -/
def lowDisk : Bytes := fun x => if x < 24 then lowBoot.getD x 0 else if x < 131072 then 0xFF else 0

def lowFat : FatFs := ⟨true, 512, 1, 0, 1, 256, 16, 1, 0, 257, 256, 0xFFFFFFFF, 16, 65024⟩

def lowState : FatState :=
  ⟨⟨true, true, true, 65281, lowDisk, fun _ _ => false, fun _ _ => false⟩, lowFat, lowFat.rootFiles lowDisk⟩

theorem lowDisk_entry {c : Nat} (cluster : lowFat.IsCluster c) :
    lowFat.InRange (lowFat.entry lowDisk c) ∧ (lowFat.entry lowDisk c = 0 → c = 7) := by
  have upper : c < 65026 := cluster.2
  rcases Nat.lt_or_ge c 12 with low | high
  · have all : ∀ k, k < 12 → 2 ≤ k → (lowFat.entry lowDisk k = 0 ∨
        (2 ≤ lowFat.entry lowDisk k ∧ lowFat.entry lowDisk k < lowFat.totalClusters + 2) ∨
          0xFFF8 ≤ lowFat.entry lowDisk k) ∧ (lowFat.entry lowDisk k = 0 → k = 7) := by decide
    exact all c low cluster.1
  · have base : lowFat.tableBase = 0 := rfl
    have byte {x : Nat} (lower : 24 ≤ x) (less : x < 131072) : lowDisk x = 0xFF := by
      rw [lowDisk, if_neg (by omega), if_pos less]
    have value : lowFat.entry lowDisk c = 0xFFFF := by
      rw [FatFs.entry, word, load16, base, byte (by omega) (by omega), byte (by omega) (by omega)]
      rfl
    rw [value]
    exact ⟨Or.inr (Or.inr (by decide)), fun zero => absurd zero (by decide)⟩

theorem lowDisk_root (i : Nat) : lowDisk (lowFat.slotBase i) = 0 := by
  have base : lowFat.slotBase i = 512 * 256 + 32 * i := rfl
  rw [lowDisk, base, if_neg (by omega), if_neg (by omega)]

theorem lowState_works : lowState.dev.Works := ⟨rfl, rfl, rfl, rfl, rfl⟩

theorem lowState_layout : FatLayout lowState.dev lowFat :=
  ⟨by rfl, rfl, rfl, by decide, by decide, by decide, by decide⟩

theorem lowState_volume : FatVolume lowState.dev lowFat := lowState_layout.volume fun i _ => lowDisk_root i

theorem lowState_range : lowFat.LinksInRange lowDisk :=
  ⟨fun _ cluster => (lowDisk_entry cluster).1, fun i _ use => absurd (lowDisk_root i) use.1⟩

theorem lowState_mounted : fatInit lowState = .ok lowState := lowState_volume.fatInit_eq lowState_works

theorem lowState_writes : ∃ s', fatWriteFile lowState (some [0x41]) (some [7]) = .ok (s', 0) := by
  have vacant : lowFat.Vacant lowDisk 0 := Or.inl (lowDisk_root 0)
  have free : lowFat.FreeRun lowDisk 7 (max (lowFat.clustersNeeded 1) 1) := by
    refine ⟨by decide, by decide, fun c lower upper => ?_⟩
    have one : max (lowFat.clustersNeeded 1) 1 = 1 := by decide
    obtain rfl : c = 7 := by omega
    decide
  exact lowState_volume.write_succeeds lowState_works shortName_A.fatFormatName_eq (by decide) vacant free

/-- What the boot sector states after the write: 65535 reserved sectors, and therefore
a FAT32 volume without a root directory. -/
def lostFat : FatFs := ⟨true, 512, 1, 65535, 1, 256, 16, 1, 65535, 65792, 65791, 0xFFFFFFFF, 32, 4294966785⟩

theorem lowState_boot {s' : FatState} {i first : Nat} {cs : List Nat}
    (file : StoredFile lowState s' [0x41] [] [7] i first cs) :
    fatGeometry (sectorAt s'.dev.disk 0) = .ok lostFat := by
  have empty : cs = [] := by
    cases file.target with
    | create _ _ _ none => exact none
    | replace use _ _ => exact absurd (lowDisk_root i) use.1
  subst empty
  obtain ⟨_, two, upper, free⟩ := file.placed.resolve_left (by simp)
  have bound : first + max (lowState.fat.clustersNeeded 1) 1 ≤ 65024 := upper
  have cluster : lowFat.IsCluster first := ⟨two, show first < 65026 by omega⟩
  have seven : first = 7 := (lowDisk_entry cluster).2 (free first le_rfl (by omega))
  subst seven
  have entries (c : Nat) (bound : c < 256) :
      word s'.dev.disk 0 c = word (setWord lowDisk 0 7 0xFFFF) 0 c := by
    have table : word s'.dev.disk 0 c = word (lowFat.stored lowDisk 7 [7]) 0 c := file.written.entry c (by
      change c < 65026
      omega)
    rw [table]
    exact lowState_volume.sound.entry_paste (show c < 65026 by omega)
  have boot : sectorAt s'.dev.disk 0 = sectorAt (setWord lowDisk 0 7 0xFFFF) 0 :=
    sectorAt_congr fun x lower upper => word_injective entries (by omega) (by omega)
  rw [boot]
  rfl

/-- A FAT32 volume whose root directory has no cluster is listed as empty. -/
theorem fatRefreshRootCache_rootless {s : FatState} (type : s.fat.fatType = 32)
    (mark : ¬ (s.fat.rootCluster ≥ 2 ∧ s.fat.rootCluster < 0x0FFFFFF8)) :
    fatRefreshRootCache s = .ok { s with files := [] } := by
  obtain ⟨fuel, limit⟩ : ∃ n, chainLimit = n + 1 := ⟨2 ^ 33 - 1, rfl⟩
  have scan : scanRoot32 s.fat chainLimit s.dev s.fat.rootCluster [] = .ok (s.dev, []) := by
    rw [limit, scanRoot32, if_neg mark]
  rw [fatRefreshRootCache, fatRefreshRootCacheWithin, if_neg (by rw [type]; decide), if_pos type, scan]
  rfl

theorem fat_cache_stale :
    ¬ ∀ (s₀ s s' : FatState) (fat : FatFs) (calls : List (FatState × Option (List UInt8) × Option (List UInt8))),
      FatLayout s₀.dev fat → s₀.dev.Reads → fat.LinksInRange s₀.dev.disk → fatInit s₀ = .ok s →
      Path WriteStep s calls s' → ∀ (fat' : FatFs) (files : List FatFileInfo),
        ∃ t, fatInit ⟨s'.dev, fat', files⟩ = .ok t ∧ t.files = s'.files := by
  intro claim
  obtain ⟨s', run⟩ := lowState_writes
  have path : Path WriteStep lowState [(lowState, some [0x41], some [7])] s' := .next (.done lowState) ⟨0, run⟩
  obtain ⟨i, first, cs, file⟩ := lowState_volume.storedFile lowState_works shortName_A (by decide) run
  have listed : s'.files ≠ [] := by
    have none : ((List.range lowFat.slots).filter fun j => lowState.fat.Visible lowState.dev.disk j) = [] := by
      refine List.filter_eq_nil_iff.mpr fun j _ => ?_
      simp only [decide_eq_true_eq]
      exact fun visible => visible.1.1 (lowDisk_root j)
    have found := file.written.listed shortName_A file.target file.inside lowState_volume.names
      lowState_volume.distinct (by rw [show lowState.fat.slots = lowFat.slots from rfl, none]; decide)
    intro empty
    have files : lowState.fat.rootFiles s'.dev.disk = [] := (congrArg FatState.files file.state).symm.trans empty
    rw [files] at found
    simp at found
  obtain ⟨t, fresh, same⟩ := claim lowState lowState s' lowFat _ lowState_layout lowState_works.reads lowState_range
    lowState_mounted path lowFat []
  have works : s'.dev.Works := by
    rw [file.state]
    exact lowState_works.withDisk _
  have sectors : 0 < s'.dev.sectors := by
    rw [file.state]
    change 0 < 65281
    decide
  rw [fatInit, fatInitWithin, if_neg (by simp [works.present, works.read]), works.readSector_eq sectors] at fresh
  change (fatGeometry (sectorAt s'.dev.disk 0) >>= _) = _ at fresh
  rw [lowState_boot file] at fresh
  have rootless : ¬ (lostFat.rootCluster ≥ 2 ∧ lostFat.rootCluster < 0x0FFFFFF8) := by decide
  simp only [bind, Except.bind] at fresh
  rw [if_neg (by decide), ← fatRefreshRootCache, fatRefreshRootCache_rootless rfl rootless] at fresh
  cases Except.ok.inj fresh
  exact listed same.symm

end LearningOS
