import LearningOS.Fat.Allocation
import LearningOS.Fat.Marker
import LearningOS.Fat.WriteLog

namespace LearningOS
open ByteStore Links

namespace FatFs
variable (fat : FatFs) (m : Bytes)

/-- The entry of the root directory that a write chooses, and whether it has the name: if
none that is looked at has it, the first vacant one. -/
def chosen (name : List UInt8) : Option (Bool × Nat) :=
  match (fat.looked m 0 fat.rootDirSectors).find? fun i => fat.InUse m i ∧ fat.slotName m i = name with
  | some i => some (true, i)
  | none => ((fat.looked m 0 fat.rootDirSectors).find? fun i => fat.Vacant m i).map fun i => (false, i)

/-- The clusters whose data may be written: free ones, and those of the file that is
replaced. -/
def Spare (replaced : Nat → Prop) (c : Nat) : Prop := fat.IsCluster c ∧ (fat.tableEntry m c = 0 ∨ replaced c)

/-- A sector of the data of such clusters. -/
def SpareSector (replaced : Nat → Prop) (lba : Nat) : Prop :=
  ∃ c t, fat.Spare m replaced c ∧ t < fat.sectorsPerCluster ∧ lba = fat.clusterSector c + t

/-- A sector of the FATs. -/
def TableSector (lba : Nat) : Prop :=
  fat.firstFatSector ≤ lba ∧ lba < fat.firstFatSector + fat.numFats * fat.fatSize

/-- A byte of a sector of the directory that is none of an entry. -/
def Beside (i x : Nat) : Prop := x < 512 ∧ (x < (fat.slotPlace (some i)).2 ∨ (fat.slotPlace (some i)).2 + 32 ≤ x)

/-- A sector write in the regions of a volume, for the entry `i`: to the FATs, to the
sector of the entry with the other bytes of this sector as they were, or to spare data. -/
def MayWrite (i : Nat) (replaced : Nat → Prop) (w : Nat × Bytes) : Prop :=
  fat.TableSector w.1 ∨
    w.1 = (fat.slotPlace (some i)).1 ∧ (∀ x, fat.Beside i x → w.2 x = m (512 * w.1 + x)) ∨
    fat.SpareSector m replaced w.1

/-- A cluster whose FAT entry can be cleared inside these regions. -/
def EntryInRegions (i : Nat) (replaced : Nat → Prop) (c : Nat) : Prop :=
  fat.TableSector (fat.tableSector c) ∨
    fat.tableSector c = (fat.slotPlace (some i)).1 ∧
      (¬ fat.Beside i (2 * c % fat.bytesPerSector) ∨ fat.tableEntry m c = 0) ∨
    fat.SpareSector m replaced (fat.tableSector c)

/-- The clusters of the file that is replaced. -/
def Replaced (hit : Bool) (i c : Nat) : Prop := hit = true ∧ fat.Linked m (fat.oldCluster m i) c

/-- A disk on which only bytes of the entries of some clusters differ, and those are 0. -/
def Touched (m m' : Bytes) (member : Nat → Prop) : Prop :=
  ∀ x, m' x = m x ∨ m' x = 0 ∧ ∃ c, member c ∧ fat.tablePlace c ≤ x ∧ x < fat.tablePlace c + 2

/-- A write that clears the entry of a cluster while a chain is freed. -/
def Clearing (start c : Nat) (w : Nat × Bytes) : Prop :=
  ∃ m', w = (fat.tableSector c, sectorAt m' (fat.tableSector c)) ∧ fat.tableEntry m' c = 0 ∧
    fat.Touched m m' (fat.Linked m start)

end FatFs

/-- The writes of a call stay in the regions of the volume. -/
def WritesInRegions (s : FatState) (text buffer : Option (List UInt8)) : Prop :=
  ∀ w ∈ fileWrites s text buffer, ∃ name hit i, text.bind fatFormatName = some name ∧
    s.fat.chosen s.dev.disk name = some (hit, i) ∧
    s.fat.MayWrite s.dev.disk i (s.fat.Replaced s.dev.disk hit i) w

variable {fat : FatFs} {dev dev' : StorageDevice} {m m' : Bytes}

/-- The entry that is chosen is the one that the search finds. -/
theorem FatFs.searchRoot_chosen (fat : FatFs) (m : Bytes) (name : List UInt8) :
    fat.searchRoot m name (fat.looked m 0 fat.rootDirSectors) none =
      match fat.chosen m name with
      | some (true, i) => .found (fat.slotPlace (some i)).1 (fat.slotPlace (some i)).2
      | some (false, i) => .free (fat.slotPlace (some i)).1 (fat.slotPlace (some i)).2
      | none => .full := by
  unfold FatFs.searchRoot FatFs.chosen
  cases (fat.looked m 0 fat.rootDirSectors).find? fun i => fat.InUse m i ∧ fat.slotName m i = name with
  | some i => rfl
  | none =>
    rw [Option.none_or]
    cases (fat.looked m 0 fat.rootDirSectors).find? fun i => fat.Vacant m i with
    | some i => rfl
    | none => rfl

/-- The entry that is chosen has the name, or is vacant. -/
theorem FatFs.chosen_cases {name : List UInt8} {hit : Bool} {i : Nat} (choice : fat.chosen m name = some (hit, i)) :
    i < fat.slots ∧ (hit = true ∧ fat.InUse m i ∧ fat.slotName m i = name ∨ hit = false ∧ fat.Vacant m i) := by
  have inside (p : Nat → Bool) (found : (fat.looked m 0 fat.rootDirSectors).find? p = some i) : i < fat.slots := by
    have upper := ((fat.mem_looked m).mp (List.mem_of_find?_eq_some found)).2.1
    rwa [Nat.zero_add] at upper
  unfold FatFs.chosen at choice
  split at choice
  · rename_i j found
    cases Option.some.inj choice
    exact ⟨inside _ found, Or.inl ⟨rfl, by simpa using List.find?_some found⟩⟩
  · obtain ⟨j, found, same⟩ := Option.map_eq_some_iff.mp choice
    cases same
    exact ⟨inside _ found, Or.inr ⟨rfl, by simpa using List.find?_some found⟩⟩

theorem FatFs.chosen_lt {name : List UInt8} {hit : Bool} {i : Nat} (choice : fat.chosen m name = some (hit, i)) :
    i < fat.slots := (FatFs.chosen_cases choice).1

theorem FatFs.Touched.trans {m'' : Bytes} {member other : Nat → Prop} (touched : fat.Touched m m' member)
    (later : fat.Touched m' m'' other) (more : ∀ c, other c → member c) : fat.Touched m m'' member := by
  intro x
  rcases later x with same | ⟨zero, c, atC, place⟩
  · rw [same]
    exact touched x
  · exact Or.inr ⟨zero, c, more c atC, place⟩

/-- Clearing the entry of one cluster. -/
theorem FatFs.touched_store (fat : FatFs) (m : Bytes) {member : Nat → Prop} {c : Nat} (atC : member c) :
    fat.Touched m (store16 m (fat.tablePlace c) 0) member := by
  intro x
  by_cases outside : x < fat.tablePlace c ∨ fat.tablePlace c + 2 ≤ x
  · exact Or.inl (store16_outside outside)
  · refine Or.inr ⟨?_, c, atC, by omega, by omega⟩
    simp only [store16, store]
    split_ifs
    · rfl
    · rfl
    · omega

namespace FatFs.Table16

/-- The write that sets one entry. -/
theorem entryWrites_works (table : fat.Table16) (works : dev.Works) {c : Nat} (small : c < 2 ^ 16)
    (inside : fat.tableSector c < dev.sectors) (v : Nat) : entryWrites fat dev c v =
      [(fat.tableSector c, sectorAt (store16 dev.disk (fat.tablePlace c) v) (fat.tableSector c))] := by
  obtain ⟨offset, sector⟩ := table.sector_eq small
  simp only [entryWrites, table.type, ne_eq, not_true_eq_false, if_false, offset, sector, works.readSector_eq inside]
  rw [sectorAt_store16 (table.inside c)]
  rfl

/-- Freeing writes the entries of the clusters that it meets, and nothing else. -/
theorem freeWrites_linked (table : fat.Table16) {fuel start : Nat} (works : dev.Works)
    (inside : ∀ c, c < 0xFFF8 → fat.tableSector c < dev.sectors) (enough : fat.allocated dev.disk + 2 ≤ fuel) :
    (∀ w ∈ freeWrites fat fuel dev start, ∃ c, fat.Linked dev.disk start c ∧ fat.Clearing dev.disk start c w) ∧
      ∀ c, fat.Linked dev.disk start c → ∃ w ∈ freeWrites fat fuel dev start, fat.Clearing dev.disk start c w := by
  induction fuel generalizing dev start with
  | zero => omega
  | succ fuel ih =>
    rw [freeWrites]
    by_cases more : start ≥ 2 ∧ start < 0xFFF8
    · have onDisk := inside start more.2
      have word : start < 2 ^ 16 := by omega
      simp only [if_pos more, table.read_works works word onDisk, table.write_works works word onDisk 0,
        table.entryWrites_works works word onDisk 0]
      have split := table.linked_split (m := dev.disk) more.1 more.2
      have own : fat.Linked dev.disk start start := (split start).mpr (Or.inl rfl)
      have touched := fat.touched_store dev.disk own
      have first : fat.Clearing dev.disk start start
          (fat.tableSector start, sectorAt (store16 dev.disk (fat.tablePlace start) 0) (fat.tableSector start)) :=
        ⟨_, rfl, entry_store_same fat dev.disk start 0, touched⟩
      have rest : (∀ w ∈ freeWrites fat fuel (dev.withDisk (store16 dev.disk (fat.tablePlace start) 0))
            (fat.tableEntry dev.disk start), ∃ c, fat.Linked dev.disk start c ∧ fat.Clearing dev.disk start c w) ∧
          ∀ c, fat.Linked (store16 dev.disk (fat.tablePlace start) 0) (fat.tableEntry dev.disk start) c →
            ∃ w ∈ freeWrites fat fuel (dev.withDisk (store16 dev.disk (fat.tablePlace start) 0))
              (fat.tableEntry dev.disk start), fat.Clearing dev.disk start c w := by
        by_cases zero : fat.tableEntry dev.disk start = 0
        · have mark : ¬ (fat.tableEntry dev.disk start ≥ 2 ∧ fat.tableEntry dev.disk start < 0xFFF8) := by omega
          have none : freeWrites fat fuel (dev.withDisk (store16 dev.disk (fat.tablePlace start) 0))
              (fat.tableEntry dev.disk start) = [] := by
            cases fuel with
            | zero => rfl
            | succ fuel => rw [freeWrites, if_neg mark]
          rw [none]
          exact ⟨by simp, fun c linked => absurd linked (not_linked mark)⟩
        · have less := table.allocated_store (m := dev.disk) more.2 zero
          obtain ⟨only, all⟩ := ih (works.withDisk (store16 dev.disk (fat.tablePlace start) 0)) inside
            (by rw [StorageDevice.withDisk_disk]; omega)
          have lift {c : Nat} {w : Nat × Bytes}
              (clearing : fat.Clearing (store16 dev.disk (fat.tablePlace start) 0) (fat.tableEntry dev.disk start) c w) :
              fat.Clearing dev.disk start c w := by
            obtain ⟨m', same, cleared, later⟩ := clearing
            exact ⟨m', same, cleared, touched.trans later fun d linked => (split d).mpr (Or.inr linked)⟩
          refine ⟨fun w atW => ?_, fun c linked => ?_⟩
          · obtain ⟨c, linked, clearing⟩ := only w atW
            exact ⟨c, (split c).mpr (Or.inr linked), lift clearing⟩
          · obtain ⟨w, atW, clearing⟩ := all c linked
            exact ⟨w, atW, lift clearing⟩
      refine ⟨fun w atW => ?_, fun c linked => ?_⟩
      · rcases List.mem_cons.mp atW with rfl | later
        · exact ⟨start, own, first⟩
        · exact rest.1 w later
      · rcases (split c).mp linked with rfl | later
        · exact ⟨_, List.mem_cons_self, first⟩
        · obtain ⟨w, atW, clearing⟩ := rest.2 c later
          exact ⟨w, List.mem_cons_of_mem _ atW, clearing⟩
    · rw [if_neg more]
      exact ⟨by simp, fun c linked => absurd linked (not_linked more)⟩

end FatFs.Table16

theorem entryWrites_sector (table : fat.Table16) {c v : Nat} (small : c < 2 ^ 16) {w : Nat × Bytes}
    (atW : w ∈ entryWrites fat dev c v) : w.1 = fat.tableSector c := by
  obtain ⟨offset, sector⟩ := table.sector_eq small
  simp only [entryWrites, table.type, ne_eq, not_true_eq_false, if_false, offset, sector] at atW
  split at atW
  · simp at atW
  · rw [List.mem_singleton.mp atW]

theorem linkWrites_sector (table : fat.Table16) {first needed : Nat} {is : List Nat}
    (inside : first + needed ≤ fat.totalClusters) (bound : ∀ i ∈ is, i < needed) {w : Nat × Bytes}
    (atW : w ∈ linkWrites fat first needed is dev) : ∃ i, i < needed ∧ w.1 = fat.tableSector (first + i) := by
  induction is generalizing dev with
  | nil => simp [linkWrites] at atW
  | cons i rest ih =>
    have clusters := table.clusters
    have less := bound i List.mem_cons_self
    have cur : u32 (first + i) = first + i := u32_of_lt (by omega)
    simp only [linkWrites, cur] at atW
    rcases List.mem_append.mp atW with here | later
    · exact ⟨i, less, entryWrites_sector table (by omega) here⟩
    · split at later
      · simp at later
      · exact ih (fun j atJ => bound j (List.mem_cons_of_mem i atJ)) later

theorem clusterWrites_sector {c : Nat} {ss : List Nat} {buffer : List UInt8} {w : Nat × Bytes}
    (atW : w ∈ clusterWrites fat c ss dev buffer) : ∃ s ∈ ss, w.1 = u32 (fatClusterToLba fat c + s) := by
  induction ss generalizing dev buffer with
  | nil => simp [clusterWrites] at atW
  | cons s rest ih =>
    simp only [clusterWrites] at atW
    split at atW
    · simp only [List.mem_singleton] at atW
      exact ⟨s, List.mem_cons_self, by rw [atW]⟩
    · rcases List.mem_cons.mp atW with here | later
      · exact ⟨s, List.mem_cons_self, by rw [here]⟩
      · split at later
        · simp at later
        · split at later
          · simp at later
          · obtain ⟨t, atT, sector⟩ := ih later
            exact ⟨t, List.mem_cons_of_mem s atT, sector⟩

/-- The bytes of a file go to the clusters of a set that no link leaves. -/
theorem loopWrites_sector {member : Nat → Prop} {fuel c : Nat} {buffer : List UInt8} (sound : fat.Sound dev.sectors)
    (reads : dev.Reads) (closed : fat.Closed member dev.disk) (start : 2 ≤ c → c < 0xFFF8 → member c) {w : Nat × Bytes}
    (atW : w ∈ loopWrites fat fuel dev c buffer) :
    ∃ d s, member d ∧ s < fat.sectorsPerCluster ∧ w.1 = fat.clusterSector d + s := by
  induction fuel generalizing dev c buffer with
  | zero => simp [loopWrites] at atW
  | succ fuel ih =>
    rw [loopWrites] at atW
    by_cases more : buffer.length > 0 ∧ c ≥ 2 ∧ c < 0xFFF8
    · have atC := start more.2.1 more.2.2
      have cluster := closed.inside c atC
      obtain ⟨dev₁, left, stores, step⟩ := storeCluster_keeps sound reads closed cluster
        (fun s atS => List.mem_range.mp atS) buffer
      simp only [if_pos more, stores] at atW
      rcases List.mem_append.mp atW with here | later
      · obtain ⟨s, atS, sector⟩ := clusterWrites_sector here
        have inside := List.mem_range.mp atS
        exact ⟨c, s, atC, inside, sector.trans (sound.readable.lba_eq cluster inside).1⟩
      · cases left with
        | none => simp at later
        | some left =>
          simp only [fatReadFatEntry_reads (step.sound sound) step.reads cluster.2] at later
          have ticked := step.rests step.reads.tick
          exact ih (ticked.sound sound) ticked.reads ticked.closed
            (fun low high => step.closed.links c _ atC (if_pos ⟨low, high⟩)) later
    · rw [if_neg more] at atW
      simp at atW

/-- The bytes of a file and its links go to a run of free clusters. -/
theorem dataWrites_sector {buffer : List UInt8} (works : dev.Works) (sound : fat.Sound dev.sectors) {w : Nat × Bytes}
    (atW : w ∈ dataWrites fat dev buffer) :
    ∃ c, fat.IsCluster c ∧ fat.entry dev.disk c = 0 ∧
      (w.1 = fat.tableSector c ∨ ∃ s, s < fat.sectorsPerCluster ∧ w.1 = fat.clusterSector c + s) := by
  simp only [dataWrites] at atW
  split at atW
  · generalize u32 (buffer.length + u32 (fat.bytesPerSector * fat.sectorsPerCluster) - 1) /
      u32 (fat.bytesPerSector * fat.sectorsPerCluster) = needed at atW
    obtain ⟨first, search, found⟩ := fatFindFreeRun_spec works sound needed
    simp only [search] at atW
    by_cases zero : first = 0
    · simp [zero] at atW
    · rw [if_neg zero] at atW
      have free : fat.FreeRun dev.disk first (max needed 1) := (found.resolve_left fun none => zero none.1).1
      obtain ⟨two, upper, zeros⟩ := free
      rcases List.mem_append.mp atW with links | data
      · obtain ⟨i, less, sector⟩ := linkWrites_sector sound.table16 (show first + needed ≤ _ by omega)
          (fun i atI => List.mem_range.mp atI) links
        exact ⟨first + i, ⟨by omega, by omega⟩, zeros _ (by omega) (by omega), Or.inl sector⟩
      · have none : fat.Closed (fun _ => False) dev.disk := ⟨fun _ never => never.elim, fun _ _ never => never.elim⟩
        have closed := none.join ⟨two, upper, zeros⟩
        have joins (i : Nat) (less : i < needed) :
            False ∨ (first ≤ first + i ∧ first + i < first + max needed 1) := Or.inr ⟨by omega, by omega⟩
        obtain ⟨dev₁, done, linked, keeps⟩ := linkRun_keeps sound works.reads closed joins
          (fun i atI => List.mem_range.mp atI)
        simp only [linked] at data
        cases done with
        | false => simp at data
        | true =>
          obtain ⟨c, s, atC, less, sector⟩ := loopWrites_sector (keeps.sound sound) keeps.reads keeps.closed
            (fun _ _ => Or.inr ⟨le_rfl, by omega⟩) data
          obtain ⟨lower, above⟩ := atC.resolve_left not_false
          exact ⟨c, ⟨by omega, by omega⟩, zeros c lower above, Or.inr ⟨s, less, sector⟩⟩
  · simp at atW

theorem load16_eq_zero {a : Nat} : load16 m a = 0 ↔ m a = 0 ∧ m (a + 1) = 0 := by
  unfold load16
  rw [← UInt8.toNat_inj, ← UInt8.toNat_inj, UInt8.toNat_zero]
  omega

namespace FatLayout
variable {i : Nat} {replaced : Nat → Prop}

/-- The sectors of the root directory are in no other region. -/
theorem root_apart (layout : FatLayout dev fat) (inside : i < fat.slots) :
    ¬ fat.TableSector (fat.slotPlace (some i)).1 ∧ ¬ fat.SpareSector m replaced (fat.slotPlace (some i)).1 := by
  obtain ⟨first, root, data⟩ := layout.order
  unfold FatFs.slots at inside
  have lower : fat.rootDirSector ≤ (fat.slotPlace (some i)).1 := Nat.le_add_right _ _
  have upper : (fat.slotPlace (some i)).1 < fat.firstDataSector := by
    rw [data]
    exact Nat.add_lt_add_left (Nat.div_lt_of_lt_mul inside) _
  refine ⟨fun within => ?_, ?_⟩
  · unfold FatFs.TableSector at within
    omega
  · rintro ⟨c, t, _, _, same⟩
    unfold FatFs.clusterSector at same
    omega

/-- The entries of the clusters of the volume are in the FATs. -/
theorem table_inside (layout : FatLayout dev fat) {c : Nat} (cluster : fat.IsCluster c) :
    fat.TableSector (fat.tableSector c) := by
  have table := layout.table
  have upper := cluster.2
  have copy : fat.fatSize ≤ fat.numFats * fat.fatSize := Nat.le_mul_of_pos_left _ layout.fats
  unfold FatFs.TableSector FatFs.tableSector
  rw [layout.bytes]
  omega

/-- Every 16-bit link is looked up in a sector of the device. -/
theorem tableSector_lt (layout : FatLayout dev fat) {c : Nat} (link : c < 0xFFF8) :
    fat.tableSector c < dev.sectors := by
  have sound := layout.sound
  have fats := sound.fats
  have root := sound.root
  have data := sound.data
  have many := Nat.mul_le_mul sound.many sound.cluster
  unfold FatFs.tableSector
  rw [layout.bytes]
  omega

/-- A write that clears an entry is allowed where every such entry is. -/
theorem clearing_regions (layout : FatLayout dev fat) (inside : i < fat.slots) {start c : Nat} {w : Nat × Bytes}
    (clearing : fat.Clearing m start c w) (linked : fat.Linked m start c)
    (regions : ∀ c, fat.Linked m start c → fat.EntryInRegions m i replaced c) : fat.MayWrite m i replaced w := by
  obtain ⟨m', rfl, _, touched⟩ := clearing
  rcases regions c linked with table | ⟨root, _⟩ | data
  · exact Or.inl table
  · refine Or.inr (Or.inl ⟨root, fun x beside => ?_⟩)
    change sectorAt m' (fat.tableSector c) x = m (512 * fat.tableSector c + x)
    rw [sectorAt_apply beside.1]
    rcases touched (512 * fat.tableSector c + x) with same | ⟨zero, d, atD, lower, upper⟩
    · exact same
    · -- the byte is one of an entry that lies in this sector, beside the chosen one
      have place : fat.tablePlace d = 512 * fat.tableSector d + 2 * d % 512 := by
        rw [FatFs.tablePlace, layout.bytes]
      have sector : fat.tableSector d = (fat.slotPlace (some i)).1 := by
        have less := beside.1
        omega
      obtain ⟨notTable, notData⟩ := layout.root_apart (m := m) inside
      rw [← sector] at notTable notData
      rcases regions d atD with table' | ⟨_, within | unset⟩ | data'
      · exact absurd table' notTable
      · refine absurd ?_ within
        have less := beside.1
        have out := beside.2
        rw [layout.bytes]
        simp only [FatFs.Beside, FatFs.slotPlace] at out ⊢
        omega
      · obtain ⟨first, second⟩ := load16_eq_zero.mp unset
        rw [zero]
        rcases (show 512 * fat.tableSector c + x = fat.tablePlace d ∨ 512 * fat.tableSector c + x = fat.tablePlace d + 1 by
          omega) with low | high
        · rw [low, first]
        · rw [high, second]
      · exact absurd data' notData
  · exact Or.inr (Or.inr data)

/-- An entry whose clearing is allowed is in the regions. -/
theorem regions_clearing (layout : FatLayout dev fat) {start c : Nat} {w : Nat × Bytes}
    (clearing : fat.Clearing m start c w) (may : fat.MayWrite m i replaced w) : fat.EntryInRegions m i replaced c := by
  obtain ⟨m', rfl, zero, _⟩ := clearing
  rcases may with table | ⟨root, same⟩ | data
  · exact Or.inl table
  · refine Or.inr (Or.inl ⟨root, ?_⟩)
    rw [layout.bytes]
    by_cases beside : fat.Beside i (2 * c % 512)
    · have next : fat.Beside i (2 * c % 512 + 1) := by
        have less := beside.1
        have out := beside.2
        simp only [FatFs.Beside, FatFs.slotPlace] at out ⊢
        omega
      have place : fat.tablePlace c = 512 * fat.tableSector c + 2 * c % 512 := by
        rw [FatFs.tablePlace, layout.bytes]
      have low := same _ beside
      have high := same _ next
      simp only [sectorAt_apply beside.1, sectorAt_apply next.1] at low high
      obtain ⟨first, second⟩ := load16_eq_zero.mp zero
      refine Or.inr (load16_eq_zero.mpr ?_)
      rw [place] at first second ⊢
      exact ⟨low.symm.trans first, high.symm.trans second⟩
    · exact Or.inl beside
  · exact Or.inr (Or.inr data)

end FatLayout

section
variable {s : FatState} (layout : FatLayout s.dev s.fat) (works : s.dev.Works)
include layout works

/-- The writes that free the clusters of the replaced file stay in the regions exactly if
the entries of these clusters lie in them. -/
theorem freeWrites_regions (hit : Bool) {i : Nat} (inside : i < s.fat.slots) :
    (∀ w ∈ (if hit = true ∧ s.fat.oldCluster s.dev.disk i ≥ 2 then
        freeWrites s.fat chainLimit s.dev (s.fat.oldCluster s.dev.disk i) else []),
      s.fat.MayWrite s.dev.disk i (s.fat.Replaced s.dev.disk hit i) w) ↔
      ∀ c, s.fat.Replaced s.dev.disk hit i c →
        s.fat.EntryInRegions s.dev.disk i (s.fat.Replaced s.dev.disk hit i) c := by
  have table := layout.sound.table16
  have few := FatFs.Table16.allocated_le s.fat s.dev.disk
  obtain ⟨only, all⟩ := table.freeWrites_linked works (fun c link => layout.tableSector_lt link)
    (show s.fat.allocated s.dev.disk + 2 ≤ chainLimit by unfold chainLimit; omega)
  by_cases old : hit = true ∧ s.fat.oldCluster s.dev.disk i ≥ 2
  · have same (c : Nat) (linked : s.fat.Linked s.dev.disk (s.fat.oldCluster s.dev.disk i) c) :
        s.fat.Replaced s.dev.disk hit i c := ⟨old.1, linked⟩
    rw [if_pos old]
    constructor
    · intro may c replaced
      obtain ⟨w, atW, clearing⟩ := all c replaced.2
      exact layout.regions_clearing clearing (may w atW)
    · intro regions w atW
      obtain ⟨c, linked, clearing⟩ := only w atW
      exact layout.clearing_regions inside clearing linked fun d atD => regions d (same d atD)
  · rw [if_neg old]
    exact iff_of_true (by simp) fun c replaced => absurd ⟨replaced.1, replaced.2.1⟩ old

/-- Freeing clears the entries of the clusters of the replaced file only. -/
theorem freeOld_cleared (hit : Bool) (i : Nat) :
    ∃ m, freeOld s.fat s.dev hit (s.fat.oldCluster s.dev.disk i) = .ok (s.dev.withDisk m) ∧
      ∀ c, s.fat.tableEntry m c = 0 → s.fat.tableEntry s.dev.disk c = 0 ∨ s.fat.Replaced s.dev.disk hit i c := by
  have table := layout.sound.table16
  unfold freeOld
  split
  · rename_i old
    have few := FatFs.Table16.allocated_le s.fat s.dev.disk
    have inside {c : Nat} (linked : s.fat.Linked s.dev.disk (s.fat.oldCluster s.dev.disk i) c) :
        s.fat.tableSector c < s.dev.sectors := layout.tableSector_lt linked.range.2
    obtain ⟨later, m, run, cleared⟩ : ∃ later m, freeChainLoop s.fat chainLimit (s.dev.after 0 s.dev.disk) _ =
        .ok (s.dev.after later m) ∧ s.fat.Cleared s.dev.disk m _ :=
      table.freeChainLoop_linked (by unfold chainLimit; omega) fun c linked k =>
        ⟨works.reads.answers (inside linked) k, works.accepts (inside linked) k⟩
    rw [works.after, works.after] at run
    refine ⟨m, run, fun c zero => ?_⟩
    by_cases linked : s.fat.Linked s.dev.disk (s.fat.oldCluster s.dev.disk i) c
    · exact Or.inr ⟨old.1, linked⟩
    · rw [table.cleared_entry cleared linked] at zero
      exact Or.inl zero
  · exact ⟨s.dev.disk, rfl, fun c zero => Or.inl zero⟩

theorem replaceWrites_regions (hit : Bool) {i : Nat} {name : List UInt8} (inside : i < s.fat.slots)
    (eleven : name.length = 11) (buffer : List UInt8) :
    (∀ w ∈ replaceWrites s hit name (s.fat.slotPlace (some i)).1 (s.fat.slotPlace (some i)).2 buffer,
        s.fat.MayWrite s.dev.disk i (s.fat.Replaced s.dev.disk hit i) w) ↔
      ∀ c, s.fat.Replaced s.dev.disk hit i c →
        s.fat.EntryInRegions s.dev.disk i (s.fat.Replaced s.dev.disk hit i) c := by
  have sound := layout.sound
  have onDisk : (s.fat.slotPlace (some i)).1 < s.dev.sectors := (sound.root_sector (Nat.div_lt_of_lt_mul inside)).2.1
  obtain ⟨m, freeing, cleared⟩ := freeOld_cleared layout works hit i
  have frees := freeWrites_regions layout works hit inside
  have old : load16 (sectorAt s.dev.disk (s.fat.slotPlace (some i)).1) ((s.fat.slotPlace (some i)).2 + 26) =
      s.fat.oldCluster s.dev.disk i := load16_slot s.fat s.dev.disk i
  -- the data and the links go to spare clusters, whatever was freed
  have data (w : Nat × Bytes) (atW : w ∈ dataWrites s.fat (s.dev.withDisk m) buffer) :
      s.fat.MayWrite s.dev.disk i (s.fat.Replaced s.dev.disk hit i) w := by
    obtain ⟨c, cluster, zero, sector | ⟨t, less, sector⟩⟩ := dataWrites_sector (works.withDisk m) sound atW
    · left
      rw [sector]
      exact layout.table_inside cluster
    · rw [← sound.tableEntry_eq] at zero
      exact Or.inr (Or.inr ⟨c, t, ⟨cluster, cleared c zero⟩, less, sector⟩)
  have entry (first : Nat) : s.fat.MayWrite s.dev.disk i (s.fat.Replaced s.dev.disk hit i)
      ((s.fat.slotPlace (some i)).1, fillEntry (sectorAt s.dev.disk (s.fat.slotPlace (some i)).1)
        (s.fat.slotPlace (some i)).2 name first buffer.length) := by
    refine Or.inr (Or.inl ⟨rfl, fun x beside => ?_⟩)
    exact (fillEntry_outside eleven beside.2).trans (sectorAt_apply beside.1)
  simp only [replaceWrites, works.readSector_eq onDisk, old, freeing, List.mem_append]
  constructor
  · exact fun may => frees.mp fun w atW => may w (Or.inl atW)
  · intro regions w atW
    rcases atW with free | stored | last
    · exact frees.mpr regions w free
    · exact data w stored
    · split at last
      · rw [List.mem_singleton.mp last]
        exact entry _
      · simp at last

/-- The writes of a call under an encodable name are those for the entry it chooses. -/
theorem fileWrites_chosen {text name : List UInt8} (format : fatFormatName text = some name) (buffer : List UInt8) :
    fileWrites s (some text) (some buffer) =
      match s.fat.chosen s.dev.disk name with
      | some (hit, i) => replaceWrites s hit name (s.fat.slotPlace (some i)).1 (s.fat.slotPlace (some i)).2 buffer
      | none => [] := by
  have sound := layout.sound
  have enabled : ¬ (s.fat.attached = false ∨ s.dev.present = false ∨ s.dev.write = false) := by
    simp [sound.attached, works.present, works.write]
  obtain ⟨dev', search, _⟩ := fatFindRootEntry_reads works.reads sound.rootArea name
  have same := works.findRootLoop_fst s.fat name (List.range s.fat.rootDirSectors) (0xFFFFFFFF, 0xFFFFFFFF)
  change (fatFindRootEntry s.fat s.dev name).1 = s.dev at same
  rw [search] at same
  change dev' = s.dev at same
  subst same
  simp only [fileWrites, if_neg enabled, sound.type, ne_eq, not_true_eq_false, if_false, format, search,
    FatFs.searchRoot_chosen]
  rcases s.fat.chosen s.dev.disk name with _ | ⟨_ | _, i⟩
  · rfl
  · rfl
  · rfl

omit layout works in
/-- Without a name that can be encoded, or without a buffer, nothing is written. -/
theorem fileWrites_none {text buffer : Option (List UInt8)} (absent : text.bind fatFormatName = none ∨ buffer = none) :
    fileWrites s text buffer = [] := by
  unfold fileWrites
  split
  · rename_i text buffer
    rw [Option.bind_some] at absent
    simp only [absent.resolve_right (by simp), ite_self]
  · rfl

/-- Which writes of a call leave the regions of the volume: those that free clusters of the
replaced file whose FAT entries would lie outside. -/
theorem fileWrites_regions (text buffer : Option (List UInt8)) :
    WritesInRegions s text buffer ↔
      ∀ name hit i, text.bind fatFormatName = some name → buffer ≠ none → s.fat.chosen s.dev.disk name = some (hit, i) →
        ∀ c, s.fat.Replaced s.dev.disk hit i c →
          s.fat.EntryInRegions s.dev.disk i (s.fat.Replaced s.dev.disk hit i) c := by
  constructor
  · intro inside name hit i format some choice
    obtain ⟨text, rfl, format⟩ := Option.bind_eq_some_iff.mp format
    obtain ⟨buffer, rfl⟩ := Option.ne_none_iff_exists'.mp some
    have eleven := fatFormatName_length format
    refine (replaceWrites_regions layout works hit (FatFs.chosen_lt choice) eleven buffer).mp fun w atW => ?_
    obtain ⟨name', hit', i', format', choice', may⟩ := inside w (by
      rw [fileWrites_chosen layout works format, choice]
      exact atW)
    cases Option.some.inj (format.symm.trans format')
    cases Option.some.inj (choice.symm.trans choice')
    exact may
  · intro regions w atW
    by_cases absent : text.bind fatFormatName = none ∨ buffer = none
    · rw [fileWrites_none absent] at atW
      simp at atW
    · obtain ⟨encodable, filled⟩ := not_or.mp absent
      obtain ⟨name, bound⟩ := Option.ne_none_iff_exists'.mp encodable
      obtain ⟨text, rfl, format⟩ := Option.bind_eq_some_iff.mp bound
      obtain ⟨buffer, rfl⟩ := Option.ne_none_iff_exists'.mp filled
      rw [fileWrites_chosen layout works format] at atW
      cases choice : s.fat.chosen s.dev.disk name with
      | none => simp [choice] at atW
      | some entry =>
        obtain ⟨hit, i⟩ := entry
        rw [choice] at atW
        have inside := replaceWrites_regions layout works hit (FatFs.chosen_lt choice) (fatFormatName_length format)
          buffer
        exact ⟨name, hit, i, format, choice, inside.mpr (regions name hit i bound filled choice) w atW⟩

end

/-- A call on a working device makes the writes of its log, and these stay in the regions
of the volume exactly if the FAT entries of all clusters of the replaced file lie in them. -/
theorem fat_write_regions_iff {s : FatState} {text buffer : Option (List UInt8)} (layout : FatLayout s.dev s.fat)
    (works : s.dev.Works) :
    (∀ s' ret, fatWriteFile s text buffer = .ok (s', ret) →
      s'.dev = s.dev.withDisk (applyWrites s.dev.sectors s.dev.disk (fileWrites s text buffer))) ∧
    (WritesInRegions s text buffer ↔
      ∀ name hit i, text.bind fatFormatName = some name → buffer ≠ none → s.fat.chosen s.dev.disk name = some (hit, i) →
        ∀ c, s.fat.Replaced s.dev.disk hit i c →
          s.fat.EntryInRegions s.dev.disk i (s.fat.Replaced s.dev.disk hit i) c) :=
  ⟨fun _ _ run => fatWriteFile_log works run, fileWrites_regions layout works text buffer⟩

theorem fat_write_regions_emptyDisk : WritesInRegions emptyDisk (some [0x41]) (some [7]) := by
  refine (fat_write_regions_iff emptyDisk_volume.layout emptyDisk_works).2.mpr fun name hit i _ _ _ c replaced => ?_
  have link := replaced.2.range.2
  left
  change 1 ≤ 1 + 2 * c / 512 ∧ 1 + 2 * c / 512 < 1 + 1 * 256
  omega

/-- A volume of 4085 clusters whose file `A` starts at cluster 5000. -/
def strayDisk : Bytes := fun x =>
  if x < 512 then
    ([0xEB, 0x3C, 0x90, 0, 0, 0, 0, 0, 0, 0, 0, 0x00, 0x02, 0x01, 0x01, 0x00, 0x01, 0x10, 0x00, 0x07, 0x10, 0xF8,
      0x10] : List UInt8).getD x 0
  else if x = 512 + 8 ∨ x = 512 + 9 then 0xFF
  else if 512 * 17 ≤ x ∧ x < 512 * 18 then
    (0x41 :: List.replicate 11 0x20 ++ List.replicate 14 0 ++ [0x88, 0x13] : List UInt8).getD (x - 512 * 17) 0
  else 0

def strayFat : FatFs := ⟨true, 512, 1, 1, 1, 16, 16, 1, 1, 18, 17, 0, 16, 4085⟩

def strayState : FatState := ⟨⟨true, true, true, 4103, strayDisk, fun _ _ => false, fun _ _ => false⟩, strayFat, []⟩

theorem fat_write_leaves_regions :
    ¬ ∀ (s : FatState) (text buffer : Option (List UInt8)), FatLayout s.dev s.fat → s.dev.Works →
      WritesInRegions s text buffer := by
  intro claim
  have layout : FatLayout strayState.dev strayState.fat := ⟨by rfl, rfl, rfl, by decide, by decide, by decide,
    by decide⟩
  have works : strayState.dev.Works := ⟨rfl, rfl, rfl, rfl, rfl⟩
  have inside := (fileWrites_regions layout works _ _).mp (claim strayState (some [0x41]) (some []) layout works)
  have choice : strayFat.chosen strayDisk (0x41 :: List.replicate 10 0x20) = some (true, 0) := by decide
  have start : strayFat.oldCluster strayDisk 0 = 5000 := by decide
  have linked : strayFat.Linked strayDisk (strayFat.oldCluster strayDisk 0) 5000 := by
    rw [start]
    exact ⟨by decide, by decide, .refl _ 5000⟩
  -- the entry of cluster 5000 would lie in the data of cluster 4, which is not free
  rcases inside _ true 0 (by rfl) (by simp) choice 5000 ⟨rfl, linked⟩ with
    table | ⟨root, _⟩ | ⟨c, t, ⟨_, spare⟩, less, sector⟩
  · exact absurd table.2 (by decide)
  · exact absurd root (by decide)
  · have four : c = 4 := by
      change t < 1 at less
      change 20 = 18 + (c - 2) * 1 + t at sector
      omega
    subst four
    rcases spare with free | ⟨_, _, _, reach⟩
    · exact absurd free (by decide)
    · have cut : strayFat.tableLink strayDisk (strayFat.oldCluster strayDisk 0) = none := by decide
      rcases (reach_cut cut fun _ _ => rfl).mp reach with same | ⟨d, link, _⟩
      · exact absurd (same.trans start) (by decide)
      · exact absurd (cut.symm.trans link) (by simp)

end LearningOS
