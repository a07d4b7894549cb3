import LearningOS.Fat.Geometry
import LearningOS.Fat.RoundTrip
import Mathlib.Data.Finset.Card
import Mathlib.Data.Finset.Range

namespace LearningOS
open ByteStore Links

namespace FatFs
variable (fat : FatFs) (m : Bytes)

/-- The cluster that a FAT16 entry links to. -/
def tableLink (c : Nat) : Option Nat :=
  if 2 ≤ fat.tableEntry m c ∧ fat.tableEntry m c < 0xFFF8 then some (fat.tableEntry m c) else none

/-- The clusters met by following links from `start` on. -/
def Linked (start c : Nat) : Prop := 2 ≤ start ∧ start < 0xFFF8 ∧ Reach (fat.tableLink m) start c

/-- How many clusters have an entry other than 0. -/
def allocated : Nat := ((Finset.range 0xFFF8).filter fun c => fat.tableEntry m c ≠ 0).card

/-- The entries of some clusters are 0, and every byte outside them is as before. -/
structure Cleared (m m' : Bytes) (member : Nat → Prop) : Prop where
  zero : ∀ c, member c → fat.tableEntry m' c = 0
  same : ∀ x, (∀ c, member c → x < fat.tablePlace c ∨ fat.tablePlace c + 2 ≤ x) → m' x = m x

end FatFs

/-- The boot sector of a FAT16 volume leads to a table that is read inside its buffers. -/
theorem fatGeometry_table16 {bpb : Bytes} {fat : FatFs} (boot : fatGeometry bpb = .ok fat) (type : fat.fatType = 16)
    (bytes : fat.bytesPerSector ≤ 512) : fat.Table16 := by
  obtain ⟨_, _, first, _, _, _, kind⟩ := fatGeometry_ok boot
  obtain ⟨_, _, reserved, _⟩ := fatGeometry_fields boot
  have small := load16_lt bpb 14
  have positive : 0 < fat.bytesPerSector := by
    refine Nat.pos_of_ne_zero fun zero => ?_
    rw [(fatGeometry_fields boot).1] at zero
    simp [fatGeometry, zero] at boot
  have clusters : fat.totalClusters < 65525 := by
    rw [type] at kind
    split at kind
    · simp at kind
    · split at kind
      · assumption
      · simp at kind
  refine ⟨type, positive, bytes, ?_, clusters⟩
  have below : 2 * 0xFFFF / fat.bytesPerSector ≤ 2 * 0xFFFF := Nat.div_le_self _ _
  unfold FatFs.tableSector
  omega

namespace FatFs.Table16
variable {fat : FatFs} {dev : StorageDevice} {m m' : Bytes}

theorem cleared_entry (table : fat.Table16) {member : Nat → Prop} (cleared : fat.Cleared m m' member) {c : Nat}
    (absent : ¬ member c) : fat.tableEntry m' c = fat.tableEntry m c := by
  refine load16_congr fun x lower upper => cleared.same x fun d inside => ?_
  have differ : d ≠ c := fun same => absent (same ▸ inside)
  have apart := table.apart differ
  omega

theorem tableLink_store (table : fat.Table16) (m : Bytes) (c : Nat) :
    fat.tableLink (store16 m (fat.tablePlace c) 0) c = none ∧
      ∀ d, d ≠ c → fat.tableLink (store16 m (fat.tablePlace c) 0) d = fat.tableLink m d := by
  refine ⟨?_, fun d differ => ?_⟩
  · simp [FatFs.tableLink, entry_store_same]
  · simp only [FatFs.tableLink, table.entry_store_other differ]

/-- Clearing an entry that is not 0 leaves fewer of them. -/
theorem allocated_store (table : fat.Table16) {c : Nat} (inside : c < 0xFFF8) (nonzero : fat.tableEntry m c ≠ 0) :
    fat.allocated (store16 m (fat.tablePlace c) 0) < fat.allocated m := by
  refine Finset.card_lt_card (Finset.ssubset_iff_of_subset (fun d member => ?_) |>.mpr ⟨c, ?_, ?_⟩)
  · obtain ⟨range, entry⟩ := Finset.mem_filter.mp member
    refine Finset.mem_filter.mpr ⟨range, ?_⟩
    by_cases same : d = c
    · rwa [same]
    · rwa [table.entry_store_other same] at entry
  · exact Finset.mem_filter.mpr ⟨Finset.mem_range.mpr inside, nonzero⟩
  · intro member
    exact (Finset.mem_filter.mp member).2 (entry_store_same fat m c 0)

/-- The clusters met from the first on are it and those met behind its link, once this link
is cleared. -/
theorem linked_split (table : fat.Table16) {start : Nat} (two : 2 ≤ start) (upper : start < 0xFFF8) (c : Nat) :
    fat.Linked m start c ↔
      c = start ∨ fat.Linked (store16 m (fat.tablePlace start) 0) (fat.tableEntry m start) c := by
  obtain ⟨cut, others⟩ := table.tableLink_store m start
  simp only [FatFs.Linked, two, upper, true_and, reach_cut cut others, FatFs.tableLink]
  refine or_congr_right ⟨?_, fun ⟨low, high, reach⟩ => ⟨_, if_pos ⟨low, high⟩, reach⟩⟩
  rintro ⟨d, link, reach⟩
  split at link
  · rename_i range
    cases Option.some.inj link
    exact ⟨range.1, range.2, reach⟩
  · simp at link

/-- Nothing is met from a mark on. -/
theorem not_linked {start c : Nat} (mark : ¬ (start ≥ 2 ∧ start < 0xFFF8)) : ¬ fat.Linked m start c :=
  fun linked => mark ⟨linked.1, linked.2.1⟩

/-- Freeing clears the entries that it meets: each of them once, since a cleared entry
links nowhere. -/
theorem freeChainLoop_linked (table : fat.Table16) {asked fuel start : Nat} (enough : fat.allocated m + 2 ≤ fuel)
    (works : ∀ c, fat.Linked m start c → ∀ k, dev.answers k (fat.tableSector c) = true ∧
      dev.accepts k (fat.tableSector c) = true) :
    ∃ later m', freeChainLoop fat fuel (dev.after asked m) start = .ok (dev.after later m') ∧
      fat.Cleared m m' (fat.Linked m start) := by
  induction fuel generalizing asked m start with
  | zero => omega
  | succ fuel ih =>
    rw [freeChainLoop]
    by_cases more : start ≥ 2 ∧ start < 0xFFF8
    · have own : fat.Linked m start start := ⟨more.1, more.2, .refl _ start⟩
      obtain ⟨answers, accepts⟩ := works start own 0
      have present : dev.present = true := by
        simp only [StorageDevice.answers, Bool.and_eq_true] at answers
        exact answers.1.1.1
      have read : dev.read = true := by
        simp only [StorageDevice.answers, Bool.and_eq_true] at answers
        exact answers.1.1.2
      have write : dev.write = true := by
        simp only [StorageDevice.accepts, Bool.and_eq_true] at accepts
        exact accepts.1.1.2
      simp only [if_pos more, table.read_after present read (show start < 2 ^ 16 by omega),
        table.write_after present read write (show start < 2 ^ 16 by omega), (works start own _).1,
        (works start own _).2,
        if_true]
      have split := table.linked_split (m := m) more.1 more.2
      have next : ∃ later m', freeChainLoop fat fuel (dev.after (asked + 1 + 2) (store16 m (fat.tablePlace start) 0))
          (fat.tableEntry m start) = .ok (dev.after later m') ∧
            fat.Cleared (store16 m (fat.tablePlace start) 0) m'
              (fat.Linked (store16 m (fat.tablePlace start) 0) (fat.tableEntry m start)) := by
        by_cases zero : fat.tableEntry m start = 0
        · obtain ⟨fuel, rfl⟩ : ∃ n, fuel = n + 1 := ⟨fuel - 1, by omega⟩
          have mark : ¬ (fat.tableEntry m start ≥ 2 ∧ fat.tableEntry m start < 0xFFF8) := by omega
          rw [freeChainLoop, if_neg mark]
          exact ⟨_, _, rfl, fun c linked => absurd linked (not_linked mark), fun x _ => rfl⟩
        · have less := table.allocated_store more.2 zero
          exact ih (by omega) fun c linked => works c ((split c).mpr (Or.inr linked))
      obtain ⟨later, m', run, cleared⟩ := next
      refine ⟨later, m', run, fun c linked => ?_, fun x outside => ?_⟩
      · by_cases again : fat.Linked (store16 m (fat.tablePlace start) 0) (fat.tableEntry m start) c
        · exact cleared.zero c again
        · rw [table.cleared_entry cleared again, ((split c).mp linked).resolve_right again, entry_store_same,
            Nat.zero_mod]
      · rw [cleared.same x fun c linked => outside c ((split c).mpr (Or.inr linked))]
        have away := outside start ((split start).mpr (Or.inl rfl))
        exact store16_outside (by omega)
    · rw [if_neg more]
      exact ⟨asked, m, rfl, fun c linked => absurd linked (not_linked more), fun x _ => rfl⟩

theorem allocated_le (fat : FatFs) (m : Bytes) : fat.allocated m ≤ 0xFFF8 := by
  have subset := Finset.card_filter_le (Finset.range 0xFFF8) fun c => fat.tableEntry m c ≠ 0
  rwa [Finset.card_range] at subset

end FatFs.Table16

/-- `fat_free_chain` ends on every table, and clears the entries of exactly the clusters
that the links from its start lead to, on a device where requests for the sectors of these
entries succeed. -/
theorem fat_free_chain_exact {fat : FatFs} {dev : StorageDevice} {start : Nat} (table : fat.Table16)
    (works : ∀ c, fat.Linked dev.disk start c → ∀ k, dev.answers k (fat.tableSector c) = true ∧
      dev.accepts k (fat.tableSector c) = true) :
    ∃ dev', fatFreeChain fat dev start = .ok dev' ∧
      (∀ c, fat.Linked dev.disk start c → fat.tableEntry dev'.disk c = 0) ∧
      (∀ c, ¬ fat.Linked dev.disk start c → fat.tableEntry dev'.disk c = fat.tableEntry dev.disk c) ∧
      ∀ x, (∀ c, fat.Linked dev.disk start c → x < fat.tablePlace c ∨ fat.tablePlace c + 2 ≤ x) →
        dev'.disk x = dev.disk x := by
  have few := FatFs.Table16.allocated_le fat dev.disk
  have enough : fat.allocated dev.disk + 2 ≤ chainLimit := by
    unfold chainLimit
    omega
  obtain ⟨later, m', run, cleared⟩ : ∃ later m',
      freeChainLoop fat chainLimit (dev.after 0 dev.disk) start = .ok (dev.after later m') ∧
        fat.Cleared dev.disk m' (fat.Linked dev.disk start) := table.freeChainLoop_linked enough works
  exact ⟨dev.after later m', run, cleared.zero, fun c absent => table.cleared_entry cleared absent, cleared.same⟩

theorem FatFs.Linked.range {fat : FatFs} {m : Bytes} {start c : Nat} (linked : fat.Linked m start c) :
    2 ≤ c ∧ c < 0xFFF8 := by
  obtain ⟨two, upper, reach⟩ := linked
  induction reach with
  | refl => exact ⟨two, upper⟩
  | @tail d e _ link _ =>
    simp only [FatFs.tableLink] at link
    split at link
    · cases Option.some.inj link
      assumption
    · simp at link

/-- Clusters 2 and 3 link to each other. -/
def ringDisk : Bytes := store16 (store16 (sampleDisk 0 []) 516 3) 518 2

theorem fat_free_chain_exact_ringDisk :
    ∃ dev', fatFreeChain sampleFat ((sampleDevice 0 []).withDisk ringDisk) 2 = .ok dev' ∧
      sampleFat.tableEntry dev'.disk 3 = 0 := by
  have works : ((sampleDevice 0 []).withDisk ringDisk).Works := (sampleDevice_works 0 []).withDisk ringDisk
  have boot : fatGeometry (sectorAt ringDisk 0) = .ok sampleFat := rfl
  have table : sampleFat.Table16 := fatGeometry_table16 boot rfl (by decide)
  have answers (c : Nat) (linked : sampleFat.Linked ((sampleDevice 0 []).withDisk ringDisk).disk 2 c) (k : Nat) :
      ((sampleDevice 0 []).withDisk ringDisk).answers k (sampleFat.tableSector c) = true ∧
        ((sampleDevice 0 []).withDisk ringDisk).accepts k (sampleFat.tableSector c) = true := by
    have upper := linked.range.2
    have inside : sampleFat.tableSector c < 5120258 := by
      change 1 + 2 * c / 512 < 5120258
      omega
    exact ⟨works.reads.answers inside k, works.accepts inside k⟩
  obtain ⟨dev', run, zero, _⟩ := fat_free_chain_exact table answers
  have link : sampleFat.tableLink ringDisk 2 = some 3 := by decide
  exact ⟨dev', run, zero 3 ⟨by decide, by decide, (Reach.refl _ 2).tail link⟩⟩

/-- The search for a free run misses the last two clusters of the volume: its result is the
first run of free clusters exactly if there is one in front of these, or none at all. -/
theorem fat_find_free_run_exact_iff {fat : FatFs} {dev : StorageDevice} {count : Nat} (table : fat.Table16)
    (present : dev.present = true) (read : dev.read = true)
    (answered : ∀ c, 2 ≤ c → c < fat.totalClusters + 2 → ∀ k, dev.answers k (fat.tableSector c) = true)
    (some : 1 ≤ count) :
    ∃ dev' found, fatFindFreeRun fat dev count = (dev', found) ∧
      (FirstRun (fun c => fat.tableEntry dev.disk c = 0) (fat.totalClusters + 2) count found ↔
        ((∃ t, RunOf (fun c => fat.tableEntry dev.disk c = 0) (fat.totalClusters + 2) t count) →
          ∃ t, RunOf (fun c => fat.tableEntry dev.disk c = 0) fat.totalClusters t count)) := by
  obtain ⟨later, found, search, looks, _⟩ := table.fatFindFreeRun_after present read 0 dev.disk count
  have first : FirstRun (fun c => fat.tableEntry dev.disk c = 0) fat.totalClusters count found := by
    rw [Nat.max_eq_left some] at looks
    refine looks.congr fun c two less => ?_
    rw [FatFs.LooksFree, answered c two (by omega)]
    simp
  refine ⟨_, found, search, ?_⟩
  rcases first with ⟨rfl, none⟩ | ⟨run, least⟩
  · constructor
    · rintro (⟨_, all⟩ | ⟨run, _⟩) ⟨t, wide⟩
      · exact absurd wide (all t)
      · exact absurd run.1 (by omega)
    · intro inFront
      refine Or.inl ⟨rfl, fun t wide => ?_⟩
      obtain ⟨u, run⟩ := inFront ⟨t, wide⟩
      exact none u run
  · refine iff_of_true (Or.inr ⟨⟨run.1, by have := run.2.1; omega, run.2.2⟩, fun t wide => ?_⟩) fun _ => ⟨found, run⟩
    by_contra before
    have upper := run.2.1
    exact before (least t ⟨wide.1, by omega, wide.2.2⟩)

theorem fat_find_free_run_exact_emptyDisk :
    ∃ dev' found, fatFindFreeRun sampleFat (sampleDevice 0 []) 3 = (dev', found) ∧
      FirstRun (fun c => sampleFat.tableEntry (sampleDevice 0 []).disk c = 0) 40002 3 found := by
  have works := sampleDevice_works 0 []
  have sound := emptyDisk_volume.sound
  have table : sampleFat.Table16 := sound.table16
  obtain ⟨dev', found, search, exact⟩ := fat_find_free_run_exact_iff table works.present works.read
    (fun c _ less k => works.reads.answers (sound.tableSector_lt less) k) (show 1 ≤ 3 by decide)
  refine ⟨dev', found, search, exact.mpr fun _ => ⟨2, by decide, by decide, fun c lower less => ?_⟩⟩
  have bound : c < 40002 := by omega
  change emptyDisk.fat.tableEntry _ c = 0
  rw [sound.tableEntry_eq]
  exact sampleDisk_entry bound

/-- A volume whose last cluster is its only free one. -/
def lastDisk : Bytes := store16 (sampleDisk 0xFF []) (512 + 2 * 40001) 0

theorem fat_find_free_run_misses_last :
    ¬ ∀ (fat : FatFs) (dev dev' : StorageDevice) (count found : Nat), fat.Table16 → dev.Reads →
      (∀ c, 2 ≤ c → c < fat.totalClusters + 2 → fat.tableSector c < dev.sectors) → 1 ≤ count →
        fatFindFreeRun fat dev count = (dev', found) →
          FirstRun (fun c => fat.tableEntry dev.disk c = 0) (fat.totalClusters + 2) count found := by
  intro claim
  have works : ((sampleDevice 0xFF []).withDisk lastDisk).Works := (sampleDevice_works 0xFF []).withDisk lastDisk
  have boot : fatGeometry (sectorAt lastDisk 0) = .ok sampleFat := rfl
  have table : sampleFat.Table16 := fatGeometry_table16 boot rfl (by decide)
  have place (c : Nat) : sampleFat.tablePlace c = 512 + 2 * c := by
    unfold FatFs.tablePlace FatFs.tableSector
    change 512 * (1 + 2 * c / 512) + 2 * c % 512 = 512 + 2 * c
    omega
  have sectors (c : Nat) (less : c < sampleFat.totalClusters + 2) : sampleFat.tableSector c < 5120258 := by
    change c < 40002 at less
    change 1 + 2 * c / 512 < 5120258
    omega
  have used (c : Nat) (less : c < 40001) : sampleFat.tableEntry lastDisk c ≠ 0 := by
    have other : sampleFat.tableEntry lastDisk c = sampleFat.entry (sampleDisk 0xFF []) c := by
      rw [FatFs.tableEntry, place]
      exact load16_store16_other (by omega)
    rw [other, sampleDisk_entry (by omega)]
    decide
  obtain ⟨later, found, search, looks, _⟩ := table.fatFindFreeRun_after works.present works.read 0 lastDisk 1
  have first := claim sampleFat _ _ 1 found table works.reads (fun c _ less => sectors c less) le_rfl search
  have last : RunOf (fun c => sampleFat.tableEntry lastDisk c = 0) 40002 40001 1 := by
    refine ⟨by decide, by decide, fun c lower less => ?_⟩
    obtain rfl : c = 40001 := by omega
    have same := load16_store16_same (sampleDisk 0xFF []) (512 + 2 * 40001) 0
    rw [FatFs.tableEntry, place]
    exact same
  rcases first with ⟨_, none⟩ | ⟨run, _⟩
  · exact none 40001 last
  · -- the search itself finds no run in front of the last two clusters
    rcases looks with ⟨zero, _⟩ | ⟨early, _⟩
    · exact absurd run.1 (by omega)
    · have upper : found + max 1 1 ≤ 40000 := early.2.1
      exact used found (by omega) (run.2.2 found le_rfl (by omega))

end LearningOS
