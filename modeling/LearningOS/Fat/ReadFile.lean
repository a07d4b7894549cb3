import LearningOS.Fat.Mount
import LearningOS.Fat.Reading

namespace LearningOS
open ByteStore Links Prefixes

/-- A FAT16 or FAT32 volume by its boot sector: sectors of 512 bytes, at least one FAT,
large enough for every data cluster, no cluster with the number of a mark, and regions
inside the device. -/
structure FatMedium (dev : StorageDevice) (fat : FatFs) : Prop where
  boot : fatGeometry (sectorAt dev.disk 0) = .ok fat
  type : fat.fatType = 16 ∨ fat.fatType = 32
  bytes : fat.bytesPerSector = 512
  fats : 0 < fat.numFats
  regions : fat.reservedSectors + fat.numFats * fat.fatSize + fat.rootDirSectors ≤ totalSectors (sectorAt dev.disk 0)
  device : totalSectors (sectorAt dev.disk 0) ≤ dev.sectors
  table : fat.entryBytes * (fat.totalClusters + 2) ≤ 512 * fat.fatSize
  clusters : fat.totalClusters + 2 ≤ 0x0FFFFFF8

/-- The clusters of a listed file, enough for its size; a file of no bytes may have
none. -/
def FatFs.Holds (fat : FatFs) (m : Bytes) (fi : FatFileInfo) (cs : List Nat) : Prop :=
  fi.size = 0 ∧ cs = [] ∨ fat.FileChain m fi.firstCluster cs ∧ fi.size ≤ cs.length * fat.clusterBytes

/-- The bytes of a file. -/
def FatFs.content (fat : FatFs) (m : Bytes) (fi : FatFileInfo) (cs : List Nat) : List UInt8 :=
  (cs.flatMap (fat.clusterData m)).take fi.size

/-- Two disks that differ in the bytes of some clusters only. -/
def FatFs.SameOutside (fat : FatFs) (cs : List Nat) (m m' : Bytes) : Prop :=
  ∀ x, (∀ c ∈ cs, x < fat.clusterBase c ∨ fat.clusterBase c + fat.clusterBytes ≤ x) → m' x = m x

variable {fat : FatFs} {dev : StorageDevice} {m m' : Bytes} {ok : Nat → Nat → Bool} {asked : Nat}

theorem FatMedium.readable (medium : FatMedium dev fat) : fat.Readable dev.sectors := by
  obtain ⟨_, cluster, _, _, _, _, type⟩ := fatGeometry_ok medium.boot
  obtain ⟨first, root, data, inside⟩ := fatGeometry_regions medium.boot medium.regions
  have total := totalSectors_lt (sectorAt dev.disk 0)
  have device := medium.device
  have copy : fat.fatSize ≤ fat.numFats * fat.fatSize := Nat.le_mul_of_pos_left _ medium.fats
  have marks : fat.totalClusters + 2 ≤ fat.endMark := by
    have clusters := medium.clusters
    unfold FatFs.endMark
    split
    · rename_i sixteen
      rw [type] at sixteen
      split at sixteen
      · omega
      · split at sixteen
        · omega
        · omega
    · exact clusters
  exact ⟨medium.bytes, medium.type, cluster, medium.table, by omega, by omega, by omega, marks⟩

theorem FatMedium.sectors_pos (medium : FatMedium dev fat) : 0 < dev.sectors := by
  obtain ⟨_, cluster, _, _, _, _, type⟩ := fatGeometry_ok medium.boot
  have data := medium.readable.data
  have many : 0 < fat.totalClusters := by
    by_contra none
    have kind := medium.type
    rw [type, if_pos (by omega)] at kind
    omega
  have positive := Nat.mul_pos many cluster
  omega

theorem FatFs.Holds.inside {fi : FatFileInfo} {cs : List Nat} (holds : fat.Holds m fi cs) :
    ∀ c ∈ cs, fat.IsCluster c := by
  rcases holds with ⟨_, rfl⟩ | ⟨chain, _⟩
  · simp
  · exact chain.inside

theorem FatFs.Holds.nodup {fi : FatFileInfo} {cs : List Nat} (holds : fat.Holds m fi cs) : cs.Nodup := by
  rcases holds with ⟨_, rfl⟩ | ⟨chain, _⟩
  · exact List.nodup_nil
  · exact chain.path.nodup

/-! Mounting reads sectors and changes none. -/

section
variable (fat) (serves : dev.Serves m ok asked)
include serves

theorem fatReadFatEntry_later (c : Nat) : (fatReadFatEntry fat dev c).1.Serves m ok (asked + 1) := by
  obtain ⟨dev', read, served, _⟩ := serves.readSector
    (u32 (fat.firstFatSector + u32 (c * if fat.fatType = 16 then 2 else 4) / fat.bytesPerSector))
  simp only [fatReadFatEntry, read]
  split
  · rename_i same
    exact (Prod.mk.inj same).1 ▸ served
  · rename_i same
    exact (Prod.mk.inj same).1 ▸ served

theorem fatReadClusterSector_later (c s : Nat) :
    ∃ later, (fatReadClusterSector fat dev c s).1.Serves m ok later := by
  unfold fatReadClusterSector
  split
  · exact ⟨asked, serves⟩
  · obtain ⟨dev', read, served, _⟩ := serves.readSector (u32 (fatClusterToLba fat c + s))
    exact ⟨asked + 1, by rw [read]; exact served⟩

theorem scanRoot16_later (is : List Nat) (files : List FatFileInfo) :
    ∃ later, (scanRoot16 fat is dev files).1.Serves m ok later := by
  induction is generalizing dev asked files with
  | nil => exact ⟨asked, serves⟩
  | cons i rest ih =>
    obtain ⟨dev', read, served, _⟩ := serves.readSector (u32 (fat.rootDirSector + i))
    simp only [scanRoot16, read]
    split
    · rename_i same
      exact ⟨asked + 1, (Prod.mk.inj same).1 ▸ served⟩
    · rename_i same
      exact ih ((Prod.mk.inj same).1 ▸ served) _

theorem scanCluster_later (c : Nat) (is : List Nat) (files : List FatFileInfo) :
    ∃ later, (scanCluster fat c is dev files).1.Serves m ok later := by
  induction is generalizing dev asked files with
  | nil => exact ⟨asked, serves⟩
  | cons i rest ih =>
    obtain ⟨later, served⟩ := fatReadClusterSector_later fat serves c i
    unfold scanCluster
    split
    · rename_i same
      rw [same] at served
      exact ⟨later, served⟩
    · rename_i same
      rw [same] at served
      exact ih served _

theorem scanRoot32_later {fuel c : Nat} {files files' : List FatFileInfo} {dev' : StorageDevice}
    (run : scanRoot32 fat fuel dev c files = .ok (dev', files')) : ∃ later, dev'.Serves m ok later := by
  induction fuel generalizing dev asked c files with
  | zero => simp [scanRoot32] at run
  | succ fuel ih =>
    unfold scanRoot32 at run
    split at run
    · obtain ⟨later, served⟩ := scanCluster_later fat serves c (List.range fat.sectorsPerCluster) files
      exact ih (fatReadFatEntry_later fat served c) run
    · cases Except.ok.inj run
      exact ⟨asked, serves⟩

end

theorem fatRefreshRootCache_later {s s' : FatState} (serves : s.dev.Serves m ok asked)
    (run : fatRefreshRootCache s = .ok s') : s'.fat = s.fat ∧ ∃ later, s'.dev.Serves m ok later := by
  unfold fatRefreshRootCache fatRefreshRootCacheWithin at run
  split at run
  · cases Except.ok.inj run
    exact ⟨rfl, scanRoot16_later s.fat serves _ _⟩
  · split at run
    · cases scan : scanRoot32 s.fat chainLimit s.dev s.fat.rootCluster [] with
      | error trap => simp [scan, Except.map] at run
      | ok pair =>
        simp only [scan, Except.map, Except.ok.injEq] at run
        cases run
        exact ⟨rfl, scanRoot32_later s.fat serves scan⟩
    · cases Except.ok.inj run
      exact ⟨rfl, asked, serves⟩

/-- A mount that reads the boot sector finds the volume, and leaves the disk as it
is. -/
theorem FatMedium.mounted {s₀ s : FatState} (medium : FatMedium s₀.dev fat) (boot : s₀.dev.answers 0 0 = true)
    (run : fatInit s₀ = .ok s) : s.fat = fat ∧ ∃ later, s.dev.Serves s₀.dev.disk s₀.dev.answers later := by
  obtain ⟨dev', read, served, _⟩ := s₀.dev.serves.readSector 0
  rw [if_pos boot] at read
  have there : ¬ (¬ s₀.dev.present ∨ ¬ s₀.dev.read) := by
    simp only [StorageDevice.answers, Bool.and_eq_true] at boot
    simp [boot.1.1.1, boot.1.1.2]
  rw [fatInit, fatInitWithin, if_neg there, read] at run
  change (fatGeometry (sectorAt s₀.dev.disk 0) >>= _) = _ at run
  rw [medium.boot] at run
  change (if fat.fatType = 0 then _ else fatRefreshRootCache { s₀ with dev := dev', fat }) = _ at run
  rw [if_neg (by have type := medium.type; omega)] at run
  exact fatRefreshRootCache_later (s := { s₀ with dev := dev', fat }) served run

/-- The bytes of a file are there. -/
theorem FatFs.Holds.content_length {fi : FatFileInfo} {cs : List Nat} (holds : fat.Holds m fi cs) :
    fi.size ≤ (fat.places cs).length := by
  rw [FatFs.places_length]
  rcases holds with ⟨empty, _⟩ | ⟨_, fits⟩
  · rw [empty]
    exact Nat.zero_le _
  · exact fits

/-- A read of a listed file returns the bytes of the places, and their number. -/
theorem fatReadFile_serves {s : FatState} {sectors max : Nat} {name : List UInt8} {fi : FatFileInfo} {cs : List Nat}
    (readable : s.fat.Readable sectors) (serves : s.dev.Serves m ok asked)
    (cached : s.files.find? (fun fi => fi.name = name) = some fi) (holds : s.fat.Holds m fi cs) (positive : 0 < max)
    (room : min fi.size max + 512 ≤ 2 ^ 32) :
    ∃ s', fatReadFile s (some name) true max =
      .ok (s', toInt32 (s.fat.placesRead ok asked cs (min fi.size max)).length,
        (s.fat.placesRead ok asked cs (min fi.size max)).map m) := by
  have loop : ∃ dev', readLoop s.fat (min fi.size max) chainLimit s.dev fi.firstCluster [] =
      .ok (dev', (s.fat.placesRead ok asked cs (min fi.size max)).map m) := by
    rcases holds with ⟨empty, rfl⟩ | ⟨chain, _⟩
    · refine ⟨s.dev, readLoop_stop (Or.inr (Or.inr ?_))⟩
      rw [empty, Nat.zero_min]
      exact Nat.zero_le _
    · have length := chain.path.length_le fun c member => (chain.inside c member).2
      have clusters := readable.totalClusters_lt
      obtain ⟨dev', run, _⟩ := readLoop_serves [] readable serves chain room
        (show cs.length < chainLimit by unfold chainLimit; omega)
      exact ⟨dev', run⟩
  obtain ⟨dev', loop⟩ := loop
  refine ⟨{ s with dev := dev' }, ?_⟩
  rw [fatReadFile, fatReadFileWithin, if_neg (by simp; omega), cached]
  change (readLoop s.fat (min fi.size max) chainLimit s.dev fi.firstCluster [] >>= _) = _
  have count : ((s.fat.placesRead ok asked cs (min fi.size max)).map m).length =
      (s.fat.placesRead ok asked cs (min fi.size max)).length := List.length_map m
  rw [loop, ← count]
  rfl

/-- A file is read along its clusters, whatever their order: as many bytes as it has
and are asked for, and no more. -/
theorem fat_read_follows_chain {s₀ s : FatState} {max : Nat} {name : List UInt8} {fi : FatFileInfo} {cs : List Nat}
    (medium : FatMedium s₀.dev fat) (reads : s₀.dev.Reads) (mounted : fatInit s₀ = .ok s)
    (cached : s.files.find? (fun fi => fi.name = name) = some fi) (holds : fat.Holds s₀.dev.disk fi cs)
    (positive : 0 < max) (bound : max < 2 ^ 31) :
    ∃ s' out, fatReadFile s (some name) true max = .ok (s', (min fi.size max : Nat), out) ∧
      out.length = min fi.size max ∧ out = (cs.flatMap (fat.clusterData s₀.dev.disk)).take (min fi.size max) := by
  have readable := medium.readable
  have size := holds.content_length
  obtain ⟨rfl, later, serves⟩ := medium.mounted (reads.answers medium.sectors_pos 0) mounted
  obtain ⟨s', run⟩ := fatReadFile_serves readable serves cached holds positive (by omega)
  rw [FatFs.placesRead_answered readable (fun i lba less => reads.answers less i) holds.inside, List.length_take,
    Nat.min_eq_left (by omega), toInt32, if_pos (by omega), List.map_take, FatFs.places_map] at run
  refine ⟨s', _, run, ?_, rfl⟩
  rw [List.length_take, ← FatFs.places_map, List.length_map]
  omega

/-- The entry of a file `A` of 65537 bytes from cluster 3 on. -/
def longEntry : List UInt8 := 0x41 :: List.replicate 11 0x20 ++ List.replicate 14 0 ++ [3, 0, 1, 0, 1, 0]

/-- A volume with this file in the clusters 3 and 2. Its first byte is 1, that of
cluster 2 is 0. -/
def longDisk : Bytes :=
  store (store16 (sampleDisk 0xFF longEntry) (sampleFat.tableBase + 2 * 3) 2) (sampleFat.clusterBase 3) 1

/-- Some of the sectors cannot be read. -/
def longDevice (bad : Nat → Bool) : StorageDevice :=
  ⟨true, true, true, 5120258, longDisk, fun _ => bad, fun _ _ => false⟩

def longFile : FatFileInfo := ⟨[0x41], 65537, 3⟩

theorem longDevice_medium (bad : Nat → Bool) : FatMedium (longDevice bad) sampleFat := by
  have boot : fatGeometry (sectorAt longDisk 0) = .ok sampleFat := rfl
  have total : totalSectors (sectorAt longDisk 0) = 5120258 := by decide
  have regions : sampleFat.reservedSectors + sampleFat.numFats * sampleFat.fatSize + sampleFat.rootDirSectors ≤
      totalSectors (sectorAt longDisk 0) := by
    rw [total]
    decide
  exact ⟨boot, Or.inl rfl, rfl, by decide, regions, total.le, by decide, by decide⟩

theorem longDisk_holds : sampleFat.Holds longDisk longFile [3, 2] := by
  have first : sampleFat.next longDisk 3 = some 2 := by decide
  have last : sampleFat.next longDisk 2 = none := by decide
  refine Or.inr ⟨⟨.step first (.stop last), ?_⟩, by decide⟩
  intro c member
  simp only [List.mem_cons, List.not_mem_nil, or_false] at member
  rcases member with rfl | rfl
  · exact ⟨by decide, by decide⟩
  · exact ⟨by decide, by decide⟩

theorem longFile_cached : [longFile].find? (fun fi => fi.name = [0x41]) = some longFile := rfl

theorem longDevice_mounted {bad : Nat → Bool} (boot : bad 0 = false) (root : bad 257 = false) :
    fatInit ⟨longDevice bad, sampleFat, []⟩ = .ok ⟨longDevice bad, sampleFat, [longFile]⟩ := by
  have geometry : fatGeometry (sectorAt longDisk 0) = .ok sampleFat := rfl
  have listed : fatParseRootDir [] (sectorAt longDisk 257) 16 = [longFile] := by decide
  have read (lba : Nat) (inside : lba < 5120258) (good : bad lba = false) :
      readSector (longDevice bad) lba = (longDevice bad, some (sectorAt longDisk lba)) := by
    simp [readSector, longDevice, good, StorageDevice.tick, Nat.not_le.mpr inside]
  have scan : scanRoot16 sampleFat [0] (longDevice bad) [] = (longDevice bad, [longFile]) := by
    have lba : u32 (sampleFat.rootDirSector + 0) = 257 := by decide
    rw [scanRoot16, lba, read 257 (by decide) root]
    exact congrArg (Prod.mk (longDevice bad)) listed
  rw [fatInit, fatInitWithin, if_neg (by simp [longDevice])]
  simp only [read 0 (by decide) boot]
  change (fatGeometry (sectorAt longDisk 0) >>= _) = _
  rw [geometry]
  exact congrArg (fun scan : StorageDevice × List FatFileInfo => Except.ok (⟨scan.1, sampleFat, scan.2⟩ : FatState))
    scan

theorem fat_read_follows_longFile : ∃ s s' out, fatInit ⟨longDevice fun _ => false, sampleFat, []⟩ = .ok s ∧
    fatReadFile s (some [0x41]) true 100000 = .ok (s', 65537, out) ∧ out.length = 65537 ∧
      out = ([3, 2].flatMap (sampleFat.clusterData longDisk)).take 65537 := by
  obtain ⟨s', out, read, length, bytes⟩ := fat_read_follows_chain (longDevice_medium fun _ => false) ⟨rfl, rfl, rfl⟩
    (longDevice_mounted rfl rfl) longFile_cached longDisk_holds (show 0 < 100000 by decide) (by decide)
  exact ⟨_, s', out, longDevice_mounted rfl rfl, read, length, bytes⟩

/-- The entries of the FAT lie before the data. -/
theorem FatFs.Readable.fatEntry_congr {sectors c : Nat} (readable : fat.Readable sectors) (member : fat.IsCluster c)
    (same : ∀ x, x < 512 * fat.firstDataSector → m' x = m x) : fat.fatEntry m' c = fat.fatEntry m c := by
  have upper := member.2
  have table := readable.table
  have fats := readable.fats
  unfold FatFs.fatEntry
  unfold FatFs.entryBytes at table
  split
  · rename_i sixteen
    rw [if_pos sixteen] at table
    refine load16_congr fun x _ less => same x ?_
    unfold FatFs.tableBase at less
    omega
  · rename_i other
    rw [if_neg other] at table
    refine congrArg (· % 2 ^ 28) (load32_congr fun x _ less => same x ?_)
    unfold FatFs.tableBase at less
    omega

/-- A file keeps its clusters when their bytes change. -/
theorem FatFs.Holds.congr {sectors : Nat} {fi : FatFileInfo} {cs : List Nat} (readable : fat.Readable sectors)
    (holds : fat.Holds m fi cs) (same : fat.SameOutside cs m m') : fat.Holds m' fi cs := by
  rcases holds with empty | ⟨chain, fits⟩
  · exact Or.inl empty
  · refine Or.inr ⟨⟨chain.path.congr fun c member => ?_, chain.inside⟩, fits⟩
    have before (x : Nat) (less : x < 512 * fat.firstDataSector) : m' x = m x :=
      same x fun c _ => Or.inl (Nat.lt_of_lt_of_le less (Nat.le_add_right _ _))
    simp only [FatFs.next, readable.fatEntry_congr (chain.inside c member) before]

theorem FatFs.SameOutside.of_places {cs places : List Nat} (inside : places ⊆ fat.places cs)
    (same : ∀ x, x ∉ places → m' x = m x) : fat.SameOutside cs m m' := by
  intro x outside
  refine same x fun member => ?_
  obtain ⟨c, atC, within⟩ := List.mem_flatMap.mp (inside member)
  have range := List.mem_range'_1.mp within
  have apart := outside c atC
  omega

/-- A read that returns the number of its bytes has read the start of the file,
whatever that holds, exactly if no sector was skipped. -/
theorem fat_short_read_prefix_iff {s₀ s : FatState} {max : Nat} {name : List UInt8} {fi : FatFileInfo} {cs : List Nat}
    (medium : FatMedium s₀.dev fat) (boot : s₀.dev.answers 0 0 = true) (mounted : fatInit s₀ = .ok s)
    (cached : s.files.find? (fun fi => fi.name = name) = some fi) (holds : fat.Holds s₀.dev.disk fi cs)
    (room : min fi.size max + 512 ≤ 2 ^ 32) :
    ∃ s' n out, fatReadFile s (some name) true max = .ok (s', n, out) ∧ (0 ≤ n →
      ((∀ m', fat.SameOutside cs s.dev.disk m' →
          ∃ s'' out', fatReadFile { s with dev := s.dev.withDisk m' } (some name) true max = .ok (s'', n, out') ∧
            out'.take n.toNat = (fat.content m' fi cs).take n.toNat) ↔
        ¬ fat.Skips s.dev.answers 0 cs (min fi.size max))) := by
  have readable := medium.readable
  obtain ⟨rfl, later, serves⟩ := medium.mounted boot mounted
  rw [← serves.disk] at holds
  by_cases positive : 0 < max
  · have length := s.fat.placesRead_length_le s.dev.answers 0 cs (min fi.size max)
    have run (m' : Bytes) (same : s.fat.SameOutside cs s.dev.disk m') :
        ∃ s', fatReadFile { s with dev := s.dev.withDisk m' } (some name) true max =
          .ok (s', toInt32 (s.fat.placesRead s.dev.answers 0 cs (min fi.size max)).length,
            (s.fat.placesRead s.dev.answers 0 cs (min fi.size max)).map m') :=
      fatReadFile_serves (s := { s with dev := s.dev.withDisk m' }) readable (s.dev.serves_withDisk m') cached
        (holds.congr readable same) positive room
    have outside := s.fat.placesRead_subset s.dev.answers 0 cs (min fi.size max)
    rw [← FatFs.placesRead_prefix_iff readable.cluster holds.nodup fun c member => (holds.inside c member).1]
    generalize s.fat.placesRead s.dev.answers 0 cs (min fi.size max) = places at run length outside ⊢
    obtain ⟨s', read⟩ := run s.dev.disk fun _ _ => rfl
    refine ⟨s', _, _, read, fun nonneg => ?_⟩
    have short : places.length < 2 ^ 31 := by
      unfold toInt32 at nonneg
      split at nonneg
      · assumption
      · omega
    have count : (toInt32 places.length).toNat = places.length := by
      rw [toInt32, if_pos short, Int.toNat_natCast]
    have starts (m' : Bytes) : (places.map m').take places.length = (s.fat.content m' fi cs).take places.length ↔
        places.map m' <+: (s.fat.places cs).map m' := by
      rw [FatFs.content, List.take_take, Nat.min_eq_left (by omega), ← FatFs.places_map, List.prefix_iff_eq_take,
        List.length_map, List.take_of_length_le (by rw [List.length_map])]
    rw [count]
    constructor
    · intro always
      have : Nontrivial UInt8 := ⟨0, 1, by decide⟩
      refine prefix_of_contents s.dev.disk fun m' same => ?_
      have agree := FatFs.SameOutside.of_places outside same
      obtain ⟨_, out, read', equal⟩ := always m' agree
      obtain ⟨_, again⟩ := run m' agree
      cases Except.ok.inj (read'.symm.trans again)
      exact (starts m').mp equal
    · intro first m' same
      obtain ⟨s'', read'⟩ := run m' same
      exact ⟨s'', _, read', (starts m').mpr (first.map m')⟩
  · refine ⟨s, -1, [], ?_, fun nonneg => absurd nonneg (by decide)⟩
    simp [fatReadFile, fatReadFileWithin, Nat.eq_zero_of_not_pos positive]

/-- The first sector of cluster 3 cannot be read. -/
def badSector (lba : Nat) : Bool := lba = 386

theorem longDevice_skips {left : Nat} (positive : 0 < left) :
    sampleFat.Skips (longDevice badSector).answers 0 [3, 2] left := by
  refine .here (k := 0) (FatFs.wanted_pos (by decide) positive) (fun i less => absurd less (Nat.not_lt_zero i))
    ?_ ?_ (.here ?_)
  · decide
  · decide
  · decide

theorem fat_short_read_prefix_longFile : ∃ s s' n out,
    fatInit ⟨longDevice badSector, sampleFat, []⟩ = .ok s ∧
    fatReadFile s (some [0x41]) true 65537 = .ok (s', n, out) ∧ (0 ≤ n →
      ¬ ∀ m', sampleFat.SameOutside [3, 2] s.dev.disk m' →
        ∃ s'' out', fatReadFile { s with dev := s.dev.withDisk m' } (some [0x41]) true 65537 = .ok (s'', n, out') ∧
          out'.take n.toNat = (sampleFat.content m' longFile [3, 2]).take n.toNat) := by
  obtain ⟨s', n, out, read, exact⟩ := fat_short_read_prefix_iff (longDevice_medium badSector) (by decide)
    (longDevice_mounted (by decide) (by decide)) longFile_cached longDisk_holds (show min 65537 65537 + 512 ≤ 2 ^ 32 by decide)
  exact ⟨_, s', n, out, longDevice_mounted (by decide) (by decide), read, fun nonneg always =>
    (exact nonneg).mp always (longDevice_skips (by decide))⟩

theorem fat_short_read_not_prefix :
    ¬ ∀ (s₀ s s' : FatState) (fat : FatFs) (name : List UInt8) (fi : FatFileInfo) (cs : List Nat) (max : Nat) (n : Int)
      (out : List UInt8), FatMedium s₀.dev fat → s₀.dev.answers 0 0 = true → fatInit s₀ = .ok s →
      s.files.find? (fun fi => fi.name = name) = some fi → fat.Holds s₀.dev.disk fi cs → min fi.size max + 512 ≤ 2 ^ 32 →
      fatReadFile s (some name) true max = .ok (s', n, out) → 0 ≤ n →
        out.take n.toNat = (fat.content s₀.dev.disk fi cs).take n.toNat := by
  intro claim
  have readable := (longDevice_medium badSector).readable
  have places : sampleFat.placesRead (longDevice badSector).answers 0 [3, 2] (min longFile.size 1) =
      [sampleFat.clusterBase 2] := by decide
  obtain ⟨s', read⟩ := fatReadFile_serves (s := ⟨longDevice badSector, sampleFat, [longFile]⟩) readable
    (longDevice badSector).serves longFile_cached longDisk_holds (show 0 < 1 by decide) (by decide)
  simp only [places] at read
  have equal := claim ⟨longDevice badSector, sampleFat, []⟩ _ s' sampleFat [0x41] longFile [3, 2] 1 _ _
    (longDevice_medium badSector) (by decide) (longDevice_mounted (by decide) (by decide)) rfl longDisk_holds
    (by decide) read (by decide)
  have start : (sampleFat.content longDisk longFile [3, 2]).take 1 = [longDisk (sampleFat.clusterBase 3)] := by
    rw [FatFs.content, List.take_take, ← FatFs.places_map, ← List.map_take]
    rfl
  change [longDisk (sampleFat.clusterBase 2)] = (sampleFat.content longDisk longFile [3, 2]).take 1 at equal
  rw [start] at equal
  exact absurd equal (by decide)

end LearningOS
