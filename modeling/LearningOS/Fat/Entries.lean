import LearningOS.Fat.Model
import LearningOS.Storage.Requests

namespace LearningOS
open ByteStore

namespace FatFs
variable (fat : FatFs)

/-- The sector of a FAT16 entry, by the size of a sector that the volume states. -/
def tableSector (c : Nat) : Nat := fat.firstFatSector + 2 * c / fat.bytesPerSector

/-- Where a FAT16 entry is on the disk. -/
def tablePlace (c : Nat) : Nat := 512 * fat.tableSector c + 2 * c % fat.bytesPerSector

def tableEntry (m : Bytes) (c : Nat) : Nat := load16 m (fat.tablePlace c)

/-- A FAT16 volume whose FAT entries lie inside the sectors that are read for them. -/
structure Table16 : Prop where
  type : fat.fatType = 16
  positive : 0 < fat.bytesPerSector
  bytes : fat.bytesPerSector ≤ 512
  first : fat.tableSector 0xFFFF < 2 ^ 32
  clusters : fat.totalClusters < 65525

end FatFs

/-- Clusters in a row that are free by some account, in front of a bound. -/
def RunOf (free : Nat → Prop) (bound start count : Nat) : Prop :=
  2 ≤ start ∧ start + count ≤ bound ∧ ∀ c, start ≤ c → c < start + count → free c

/-- The first run of some length, or 0 if there is none. -/
def FirstRun (free : Nat → Prop) (bound count found : Nat) : Prop :=
  (found = 0 ∧ ∀ t, ¬ RunOf free bound t count) ∨
    RunOf free bound found count ∧ ∀ t, RunOf free bound t count → found ≤ t

/-- A cluster that a search takes for free: its entry is 0 or cannot be read. The search
asks for the entry of cluster 2 with its `asked`-th request. -/
def FatFs.LooksFree (fat : FatFs) (dev : StorageDevice) (asked : Nat) (m : Bytes) (c : Nat) : Prop :=
  dev.answers (asked + (c - 2)) (fat.tableSector c) = false ∨ fat.tableEntry m c = 0

namespace FatFs.Table16
variable {fat : FatFs} {dev : StorageDevice} {m : Bytes} {asked c : Nat}

/-- No entry ends behind the sector it starts in. -/
theorem inside (table : fat.Table16) (c : Nat) : 2 * c % fat.bytesPerSector + 1 < 512 := by
  have less := Nat.mod_lt (2 * c) table.positive
  have bytes := table.bytes
  rcases Nat.lt_or_ge fat.bytesPerSector 512 with small | large
  · omega
  · have exact : fat.bytesPerSector = 512 := by omega
    rw [exact]
    omega

/-- The entries of different clusters do not meet. -/
theorem apart (table : fat.Table16) {c d : Nat} (differ : c ≠ d) :
    fat.tablePlace c + 2 ≤ fat.tablePlace d ∨ fat.tablePlace d + 2 ≤ fat.tablePlace c := by
  have ordered {c d : Nat} (less : c < d) : fat.tablePlace c + 2 ≤ fat.tablePlace d := by
    have first := table.inside c
    have splitC := Nat.div_add_mod (2 * c) fat.bytesPerSector
    have splitD := Nat.div_add_mod (2 * d) fat.bytesPerSector
    have sectors : 2 * c / fat.bytesPerSector ≤ 2 * d / fat.bytesPerSector := Nat.div_le_div_right (by omega)
    unfold FatFs.tablePlace FatFs.tableSector
    rcases Nat.eq_or_lt_of_le sectors with same | next
    · rw [← same] at splitD ⊢
      omega
    · omega
  rcases Nat.lt_or_gt_of_ne differ with less | more
  · exact Or.inl (ordered less)
  · exact Or.inr (ordered more)

/-- The number of the sector of an entry does not wrap. -/
theorem sector_eq (table : fat.Table16) (small : c < 2 ^ 16) :
    u32 (c * 2) = 2 * c ∧ u32 (fat.firstFatSector + 2 * c / fat.bytesPerSector) = fat.tableSector c := by
  have first := table.first
  have below : 2 * c / fat.bytesPerSector ≤ 2 * 0xFFFF / fat.bytesPerSector := Nat.div_le_div_right (by omega)
  unfold FatFs.tableSector at first ⊢
  exact ⟨by rw [u32_of_lt (by omega), Nat.mul_comm], u32_of_lt (by omega)⟩

theorem read_after (table : fat.Table16) (present : dev.present = true) (read : dev.read = true) (small : c < 2 ^ 16) :
    fatReadFatEntry fat (dev.after asked m) c =
      (dev.after (asked + 1) m, if dev.answers asked (fat.tableSector c) then fat.tableEntry m c else 0) := by
  obtain ⟨offset, sector⟩ := table.sector_eq small
  simp only [fatReadFatEntry, table.type, if_true, offset, sector, StorageDevice.readSector_after present read]
  cases dev.answers asked (fat.tableSector c) with
  | false => rfl
  | true =>
    simp only [if_true]
    rw [load16_sectorAt (table.inside c)]
    rfl

theorem write_after (table : fat.Table16) (present : dev.present = true) (read : dev.read = true)
    (write : dev.write = true) (small : c < 2 ^ 16) (v : Nat) :
    fatWriteFatEntry fat (dev.after asked m) c v =
      if dev.answers asked (fat.tableSector c) then
        (dev.after (asked + 2) (if dev.accepts (asked + 1) (fat.tableSector c) then store16 m (fat.tablePlace c) v else m),
          dev.accepts (asked + 1) (fat.tableSector c))
      else (dev.after (asked + 1) m, false) := by
  obtain ⟨offset, sector⟩ := table.sector_eq small
  simp only [fatWriteFatEntry, table.type, ne_eq, not_true_eq_false, if_false, offset, sector,
    StorageDevice.readSector_after present read]
  cases dev.answers asked (fat.tableSector c) with
  | false => rfl
  | true =>
    simp only [if_true, StorageDevice.writeSector_after present write]
    rw [putSector_store16 (table.inside c), putSector_sectorAt]
    rfl

/-- One entry is read from a working device. -/
theorem read_works (table : fat.Table16) (works : dev.Works) (small : c < 2 ^ 16)
    (inside : fat.tableSector c < dev.sectors) : fatReadFatEntry fat dev c = (dev, fat.tableEntry dev.disk c) := by
  have read : fatReadFatEntry fat (dev.after 0 dev.disk) c =
      (dev.after 1 dev.disk, if dev.answers 0 (fat.tableSector c) then fat.tableEntry dev.disk c else 0) :=
    table.read_after works.present works.read small
  rw [works.after, works.after, works.reads.answers inside] at read
  exact read

/-- One entry is written to a working device. -/
theorem write_works (table : fat.Table16) (works : dev.Works) (small : c < 2 ^ 16)
    (inside : fat.tableSector c < dev.sectors) (v : Nat) :
    fatWriteFatEntry fat dev c v = (dev.withDisk (store16 dev.disk (fat.tablePlace c) v), true) := by
  have write : fatWriteFatEntry fat (dev.after 0 dev.disk) c v = _ :=
    table.write_after works.present works.read works.write small v
  simp only [works.after, works.reads.answers inside, works.accepts inside, if_true] at write
  exact write

theorem entry_store_same (fat : FatFs) (m : Bytes) (c v : Nat) :
    fat.tableEntry (store16 m (fat.tablePlace c) v) c = v % 2 ^ 16 := load16_store16_same m _ v

theorem entry_store_other (table : fat.Table16) {c d : Nat} (differ : d ≠ c) (v : Nat) :
    fat.tableEntry (store16 m (fat.tablePlace c) v) d = fat.tableEntry m d := by
  have apart := table.apart differ
  exact load16_store16_other (by omega)

/-- The loop of `fat_find_free_run`: the `run` clusters before `c` were taken for free, and
no run of the wanted length starts before them. -/
theorem findRunLoop_after (table : fat.Table16) (present : dev.present = true) (read : dev.read = true)
    {count more c run start : Nat} (ends : c + more = max fat.totalClusters 2) (behind : run + 2 ≤ c)
    (first : run ≠ 0 → start = c - run) (short : run < max count 1)
    (free : ∀ d, c - run ≤ d → d < c → fat.LooksFree dev asked m d)
    (least : ∀ t, RunOf (fat.LooksFree dev asked m) fat.totalClusters t (max count 1) → c - run ≤ t) :
    ∃ later found, findRunLoop fat count more (dev.after (asked + (c - 2)) m) c run start =
        (dev.after (asked + later) m, found) ∧
      FirstRun (fat.LooksFree dev asked m) fat.totalClusters (max count 1) found ∧
        (found ≠ 0 → later = found + max count 1 - 2) := by
  induction more generalizing c run start with
  | zero =>
    refine ⟨c - 2, 0, rfl, Or.inl ⟨rfl, fun t freeRun => ?_⟩, by simp⟩
    have after := least t freeRun
    have bound := freeRun.2.1
    omega
  | succ more ih =>
    have clusters := table.clusters
    have next : asked + (c - 2) + 1 = asked + (c + 1 - 2) := by omega
    simp only [findRunLoop, table.read_after present read (show c < 2 ^ 16 by omega), next]
    have looks : (if dev.answers (asked + (c - 2)) (fat.tableSector c) then fat.tableEntry m c else 0) = 0 ↔
        fat.LooksFree dev asked m c := by
      unfold FatFs.LooksFree
      cases dev.answers (asked + (c - 2)) (fat.tableSector c) with
      | false => simp
      | true => simp
    by_cases zero : fat.LooksFree dev asked m c
    · rw [if_pos (looks.mpr zero)]
      have longer : ∀ d, c - run ≤ d → d < c + 1 → fat.LooksFree dev asked m d := by
        intro d lower upper
        by_cases last : d = c
        · rw [last]
          exact zero
        · exact free d lower (by omega)
      have begin : (if run = 0 then c else start) = c - run := by
        split
        · omega
        · exact first (by assumption)
      by_cases done : run + 1 ≥ count
      · rw [if_pos done, begin]
        exact ⟨_, _, rfl, Or.inr ⟨⟨by omega, by omega, fun d lower upper => longer d lower (by omega)⟩, least⟩,
          fun _ => by omega⟩
      · rw [if_neg done, begin]
        have shift : c + 1 - (run + 1) = c - run := by omega
        exact ih (by omega) (by omega) (fun _ => shift.symm) (by omega)
          (fun d lower upper => longer d (by omega) upper) fun t freeRun => shift ▸ least t freeRun
    · rw [if_neg fun entry => zero (looks.mp entry)]
      refine ih (by omega) (by omega) (by simp) (by omega) (fun d _ _ => by omega) fun t freeRun => ?_
      -- a run that starts at or before `c` would contain it
      have after := least t freeRun
      by_contra early
      exact zero (freeRun.2.2 c (by omega) (by omega))

/-- `fat_find_free_run` finds the first run of clusters that look free, if there is one; a
run of no clusters is one of one cluster. -/
theorem fatFindFreeRun_after (table : fat.Table16) (present : dev.present = true) (read : dev.read = true)
    (asked : Nat) (m : Bytes) (count : Nat) :
    ∃ later found, fatFindFreeRun fat (dev.after asked m) count = (dev.after (asked + later) m, found) ∧
      FirstRun (fat.LooksFree dev asked m) fat.totalClusters (max count 1) found ∧
        (found ≠ 0 → later = found + max count 1 - 2) := by
  have loop := table.findRunLoop_after (m := m) (c := 2) present read
    (show 2 + (fat.totalClusters - 2) = _ by omega) (show 0 + 2 ≤ 2 from le_rfl) (show 0 ≠ 0 → 2 = 2 - 0 by simp)
    (show 0 < max count 1 by omega) (fun d _ _ => by omega)
    fun t (freeRun : RunOf (fat.LooksFree dev asked m) _ _ _) => freeRun.1
  exact loop

end FatFs.Table16

theorem RunOf.congr {free free' : Nat → Prop} {bound start count : Nat} (run : RunOf free bound start count)
    (same : ∀ c, 2 ≤ c → c < bound → free c → free' c) : RunOf free' bound start count := by
  obtain ⟨two, upper, all⟩ := run
  exact ⟨two, upper, fun c lower less => same c (by omega) (by omega) (all c lower less)⟩

theorem FirstRun.congr {free free' : Nat → Prop} {bound count found : Nat} (first : FirstRun free bound count found)
    (same : ∀ c, 2 ≤ c → c < bound → (free c ↔ free' c)) : FirstRun free' bound count found := by
  rcases first with ⟨zero, none⟩ | ⟨run, least⟩
  · exact Or.inl ⟨zero, fun t run => none t (run.congr fun c two less => (same c two less).mpr)⟩
  · exact Or.inr ⟨run.congr fun c two less => (same c two less).mp,
      fun t other => least t (other.congr fun c two less => (same c two less).mpr)⟩

end LearningOS
