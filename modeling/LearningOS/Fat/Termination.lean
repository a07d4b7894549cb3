import LearningOS.Fat.Geometry
import LearningOS.Fat.Steady
import LearningOS.Run.Faults
import LearningOS.Store.Prefixes
import LearningOS.Store.Walks

namespace LearningOS
open ByteStore Links Prefixes

namespace FatFs
variable (fat : FatFs) (good : Nat → Bool) (m : Bytes)

/-- The cluster that `fat_read_file` goes on with. -/
def fileNext (c : Nat) : Option Nat :=
  if fat.fatType = 16 ∧ fat.seenEntry good m c ≥ 0xFFF8 then none else fat.rootNext good m c

/-- No walk reads a FAT entry beyond the 512 bytes that a sector is read into. -/
def EntriesInside : Prop := ∀ c, Walkable c → fat.entryOffset c + fat.entryBytes ≤ 512

/-- The bytes that one visit of a cluster can yield: those in front of its first sector
that cannot be read. -/
def clusterGain (c : Nat) : Nat :=
  fat.bytesPerSector * leading (fun t => good (u32 (fatClusterToLba fat c + t))) fat.sectorsPerCluster

/-- No cluster of a FAT32 root directory is on a cycle of links. -/
def RootEnds : Prop := fat.fatType = 32 → ∀ c, fat.RootMet good m c → ¬ OnCycle (fat.rootNext good m) c

/-- The reading of a file meets no cycle of links, or one with a cluster whose first sector
can be read, or it has enough before any cluster is met again. -/
def FileEnds (toRead first : Nat) : Prop :=
  Walkable first → 0 < toRead →
    (∀ c, Reach (fat.fileNext good m) first c → ¬ OnCycle (fat.fileNext good m) c) ∨
    (∃ c, Reach (fat.fileNext good m) first c ∧ OnCycle (fat.fileNext good m) c ∧ 0 < fat.clusterGain good c) ∨
    ∃ cs, Stretch (fat.fileNext good m) first cs ∧ cs.Nodup ∧ toRead ≤ (cs.map (fat.clusterGain good)).sum

variable {fat good m}

theorem entriesInside_iff : fat.EntriesInside ↔
    0 < fat.bytesPerSector ∧ fat.bytesPerSector ≤ 512 ∧ (fat.fatType ≠ 16 → fat.bytesPerSector ≠ 511) := by
  unfold EntriesInside entryOffset entryBytes
  constructor
  · intro inside
    refine ⟨Nat.pos_of_ne_zero fun zero => ?_, Nat.le_of_not_lt fun large => ?_, fun type odd => ?_⟩
    · have behind := inside 512 (by decide)
      rw [zero, Nat.mod_zero] at behind
      split at behind
      · rw [u32_of_lt (by decide)] at behind
        omega
      · rw [u32_of_lt (by decide)] at behind
        omega
    · -- the entry whose offset in the table is 512
      by_cases type : fat.fatType = 16
      · have behind := inside 256 (by decide)
        rw [if_pos type, u32_of_lt (by decide), Nat.mod_eq_of_lt (by omega)] at behind
        omega
      · have behind := inside 128 (by decide)
        rw [if_neg type, u32_of_lt (by decide), Nat.mod_eq_of_lt (by omega)] at behind
        omega
    · have behind := inside 255 (by decide)
      rw [if_neg type, odd] at behind
      exact absurd behind (by decide)
  · rintro ⟨positive, small, whole⟩ c -
    by_cases type : fat.fatType = 16
    · rw [if_pos type]
      have wide : u32 (c * 2) % fat.bytesPerSector < fat.bytesPerSector := Nat.mod_lt _ positive
      rcases small.lt_or_eq with less | full
      · omega
      · rw [full] at wide ⊢
        unfold u32
        omega
    · rw [if_neg type]
      have wide : u32 (c * 4) % fat.bytesPerSector < fat.bytesPerSector := Nat.mod_lt _ positive
      have ne := whole type
      by_cases less : fat.bytesPerSector ≤ 509
      · omega
      · rcases (show fat.bytesPerSector = 510 ∨ fat.bytesPerSector = 512 by omega) with size | size
        · rw [size] at wide ⊢
          unfold u32
          omega
        · rw [size] at wide ⊢
          unfold u32
          omega

theorem rootNext_eq_some {c d : Nat} (link : fat.rootNext good m c = some d) :
    fat.seenEntry good m c = d ∧ Walkable d := by
  rw [rootNext] at link
  split at link
  · rename_i walks
    cases Option.some.inj link
    exact ⟨rfl, walks⟩
  · simp at link

theorem fileNext_eq_some {c d : Nat} (link : fat.fileNext good m c = some d) :
    ¬ (fat.fatType = 16 ∧ fat.seenEntry good m c ≥ 0xFFF8) ∧ fat.seenEntry good m c = d ∧ Walkable d := by
  rw [fileNext] at link
  split at link
  · simp at link
  · rename_i mark
    exact ⟨mark, rootNext_eq_some link⟩

theorem reach_lt {next : Nat → Option Nat} {first c : Nat} (links : ∀ c d, next c = some d → Walkable d)
    (walks : Walkable first) (reach : Reach next first c) : c < 0x0FFFFFF8 := by
  induction reach with
  | refl => exact walks.2
  | tail _ link _ => exact (links _ _ link).2

end FatFs

namespace StorageDevice.Steady
variable {dev : StorageDevice} {good : Nat → Bool} {fat : FatFs} {m : Bytes}

/-- The walk along a FAT32 root directory ends exactly if its links have an end. -/
theorem scanRoot32_ends (steady : dev.Steady good) {asked c : Nat} {files : List FatFileInfo} :
    (∃ fuel, scanRoot32 fat fuel (dev.after asked m) c files ≠ .error .endless) ↔
      (FatFs.Walkable c → ∃ cs, Path (fat.rootNext good m) c cs) := by
  constructor
  · rintro ⟨fuel, run⟩ walks
    induction fuel generalizing asked c files with
    | zero => exact absurd rfl run
    | succ fuel ih =>
      obtain ⟨later, files', scan⟩ := steady.scanCluster_after fat c (List.range fat.sectorsPerCluster) asked m files
      rw [steady.scanRoot32_step walks scan] at run
      by_cases next : FatFs.Walkable (fat.seenEntry good m c)
      · obtain ⟨cs, path⟩ := ih run next
        exact ⟨c :: cs, .step (if_pos next) path⟩
      · exact ⟨[c], .stop (if_neg next)⟩
  · intro ends
    by_cases walks : FatFs.Walkable c
    · obtain ⟨cs, path⟩ := ends walks
      clear ends
      induction path generalizing asked files with
      | @stop c none =>
        obtain ⟨later, files', scan⟩ := steady.scanCluster_after fat c (List.range fat.sectorsPerCluster) asked m files
        refine ⟨2, ?_⟩
        rw [steady.scanRoot32_step walks scan, scanRoot32, if_neg fun next => by simp [FatFs.rootNext, next] at none]
        simp
      | @step c d cs link _ ih =>
        obtain ⟨later, files', scan⟩ := steady.scanCluster_after fat c (List.range fat.sectorsPerCluster) asked m files
        obtain ⟨seen, next⟩ := FatFs.rootNext_eq_some link
        obtain ⟨fuel, run⟩ := ih next
        refine ⟨fuel + 1, ?_⟩
        rwa [steady.scanRoot32_step walks scan, seen]
    · refine ⟨1, ?_⟩
      rw [scanRoot32, if_neg walks]
      simp

/-- One visit of a cluster adds the bytes in front of its first sector that cannot be read,
up to the number wanted. -/
theorem readCluster_after (steady : dev.Steady good) (asked : Nat) {toRead c t n : Nat} {out : List UInt8}
    (small : toRead + fat.bytesPerSector ≤ 2 ^ 32) (inside : t + n ≤ fat.sectorsPerCluster)
    (some : out.length ≤ toRead) :
    ∃ later out', readCluster fat toRead c (List.range' t n) (dev.after asked m) out = (dev.after later m, out') ∧
      out'.length = min toRead (out.length +
        fat.bytesPerSector * leading (fun k => good (u32 (fatClusterToLba fat c + (t + k)))) n) := by
  induction n generalizing asked t out with
  | zero => exact ⟨asked, out, rfl, by simp [leading, some]⟩
  | succ n ih =>
    rw [List.range'_succ, readCluster, leading]
    by_cases more : out.length < toRead
    · have read : fatReadClusterSector fat (dev.after asked m) c t =
          readSector (dev.after asked m) (u32 (fatClusterToLba fat c + t)) := if_neg (by omega)
      simp only [if_pos more, read, steady.readSector_after]
      by_cases answered : good (u32 (fatClusterToLba fat c + t)) = true
      · simp only [answered, if_true, Nat.add_zero]
        rw [u32_of_lt (show out.length + fat.bytesPerSector < 2 ^ 32 by omega)]
        generalize chunk : (if out.length + fat.bytesPerSector > toRead then toRead - out.length else fat.bytesPerSector) = k
        have grown : (out ++ window (sectorAt m (u32 (fatClusterToLba fat c + t))) 0 k).length =
            min toRead (out.length + fat.bytesPerSector) := by
          rw [List.length_append, window_length]
          split at chunk
          · omega
          · omega
        obtain ⟨later, out', run, length⟩ := ih (asked + 1) (t := t + 1) (by omega)
          (show (out ++ window (sectorAt m (u32 (fatClusterToLba fat c + t))) 0 k).length ≤ toRead from
            grown ▸ Nat.min_le_left _ _)
        refine ⟨later, out', run, ?_⟩
        have shift (k : Nat) : t + (k + 1) = t + 1 + k := by omega
        have same : (fun k => good (u32 (fatClusterToLba fat c + (t + (k + 1))))) =
            fun k => good (u32 (fatClusterToLba fat c + (t + 1 + k))) := funext fun k => by rw [shift]
        rw [length, grown, same, Nat.mul_succ]
        omega
      · simp only [answered, Bool.false_eq_true, if_false, Nat.add_zero]
        exact ⟨asked + 1, out, rfl, by simp [some]⟩
    · rw [if_neg more]
      refine ⟨asked, out, rfl, ?_⟩
      omega

/-- One round of the loop of `fat_read_file`. -/
theorem readLoop_step (steady : dev.Steady good) {toRead c : Nat} {out : List UInt8}
    (small : toRead + fat.bytesPerSector ≤ 2 ^ 32) (walks : FatFs.Walkable c) (more : out.length < toRead)
    (asked : Nat) :
    ∃ later out', out'.length = min toRead (out.length + fat.clusterGain good c) ∧ ∀ fuel,
      readLoop fat toRead (fuel + 1) (dev.after asked m) c out =
        if fat.fatType = 16 ∧ fat.seenEntry good m c ≥ 0xFFF8 then .ok (dev.after later m, out')
        else readLoop fat toRead fuel (dev.after later m) (fat.seenEntry good m c) out' := by
  obtain ⟨later, out', run, length⟩ := steady.readCluster_after asked (m := m) (c := c) small
    (show 0 + fat.sectorsPerCluster ≤ fat.sectorsPerCluster by omega) more.le
  rw [← List.range_eq_range'] at run
  simp only [Nat.zero_add] at length
  refine ⟨later + 1, out', length, fun fuel => ?_⟩
  rw [readLoop, if_pos ⟨walks.1, walks.2, more⟩]
  simp only [run, steady.fatReadFatEntry_after]

/-- The loop of `fat_read_file` ends as the walk along the links ends that gains the bytes
of the clusters: after `n` bytes it has read these, but no more than it wants. -/
theorem readLoop_ends (steady : dev.Steady good) {toRead c asked n : Nat} {out : List UInt8}
    (small : toRead + fat.bytesPerSector ≤ 2 ^ 32) (walks : FatFs.Walkable c) (read : out.length = min toRead n) :
    (∃ fuel, readLoop fat toRead fuel (dev.after asked m) c out ≠ .error .endless) ↔
      Ends (fat.fileNext good m) (fat.clusterGain good) toRead c n := by
  constructor
  · rintro ⟨fuel, run⟩
    induction fuel generalizing asked c n out with
    | zero => exact absurd rfl run
    | succ fuel ih =>
      by_cases more : out.length < toRead
      · obtain ⟨later, out', length, step⟩ := steady.readLoop_step (m := m) small walks more asked
        rw [step] at run
        by_cases mark : fat.fatType = 16 ∧ fat.seenEntry good m c ≥ 0xFFF8
        · exact .stop (if_pos mark)
        · rw [if_neg mark] at run
          by_cases next : FatFs.Walkable (fat.seenEntry good m c)
          · refine .step (b := fat.seenEntry good m c) ?_ (ih next (by omega) run)
            rw [FatFs.fileNext, if_neg mark, FatFs.rootNext, if_pos next]
          · refine .stop ?_
            rw [FatFs.fileNext, if_neg mark, FatFs.rootNext, if_neg next]
      · exact .done (by omega)
  · intro ends
    induction ends generalizing asked out with
    | done enough =>
      refine ⟨1, ?_⟩
      rw [readLoop, if_neg (by omega)]
      simp
    | @stop c n none =>
      by_cases more : out.length < toRead
      · obtain ⟨later, out', length, step⟩ := steady.readLoop_step (m := m) small walks more asked
        refine ⟨2, ?_⟩
        rw [step]
        by_cases mark : fat.fatType = 16 ∧ fat.seenEntry good m c ≥ 0xFFF8
        · rw [if_pos mark]
          simp
        · have final : ¬ FatFs.Walkable (fat.seenEntry good m c) := fun next => by
            simp [FatFs.fileNext, FatFs.rootNext, if_neg mark, next] at none
          rw [if_neg mark, readLoop, if_neg fun both => final ⟨both.1, both.2.1⟩]
          simp
      · refine ⟨1, ?_⟩
        rw [readLoop, if_neg fun both => more both.2.2]
        simp
    | @step c d n link _ ih =>
      by_cases more : out.length < toRead
      · obtain ⟨later, out', length, step⟩ := steady.readLoop_step (m := m) small walks more asked
        obtain ⟨mark, seen, next⟩ := FatFs.fileNext_eq_some link
        obtain ⟨fuel, run⟩ := ih next (show out'.length = min toRead _ by omega)
        refine ⟨fuel + 1, ?_⟩
        rwa [step, if_neg mark, seen]
      · refine ⟨1, ?_⟩
        rw [readLoop, if_neg fun both => more both.2.2]
        simp

end StorageDevice.Steady

section
variable {dev : StorageDevice} {good : Nat → Bool} (steady : dev.Steady good)
include steady

/-- The reading of a file ends as its condition says. -/
theorem fileEnds_iff {fat : FatFs} {m : Bytes} (first asked : Nat) {toRead : Nat}
    (small : toRead + fat.bytesPerSector ≤ 2 ^ 32) :
    (∃ fuel, readLoop fat toRead fuel (dev.after asked m) first [] ≠ .error .endless) ↔
      fat.FileEnds good m toRead first := by
  unfold FatFs.FileEnds
  by_cases starts : FatFs.Walkable first ∧ 0 < toRead
  · have bounded (c : Nat) (reach : Reach (fat.fileNext good m) first c) : c < 0x0FFFFFF8 :=
      FatFs.reach_lt (fun _ _ link => (FatFs.fileNext_eq_some link).2.2) starts.1 reach
    simp only [steady.readLoop_ends (n := 0) small starts.1 (show [].length = min toRead 0 by simp), ends_iff,
      path_iff_no_cycle bounded, Nat.zero_add]
    exact ⟨fun ends _ _ => ends, fun ends => ends starts.1 starts.2⟩
  · refine iff_of_true ⟨1, ?_⟩ fun walks some => absurd ⟨walks, some⟩ starts
    rw [readLoop, if_neg fun both => starts ⟨⟨both.1, both.2.1⟩, both.2.2⟩]
    simp

theorem refresh_ends {fat : FatFs} {m : Bytes} {files : List FatFileInfo} (asked : Nat) :
    (∃ limit, fatRefreshRootCacheWithin limit ⟨dev.after asked m, fat, files⟩ ≠ .error .endless) ↔
      fat.RootEnds good m := by
  by_cases type : fat.fatType = 32
  · have scan (limit : Nat) : fatRefreshRootCacheWithin limit ⟨dev.after asked m, fat, files⟩ ≠ .error .endless ↔
        scanRoot32 fat limit (dev.after asked m) fat.rootCluster [] ≠ .error .endless := by
      rw [fatRefreshRootCacheWithin, if_neg (by rw [type]; decide), if_pos type]
      cases scanRoot32 fat limit (dev.after asked m) fat.rootCluster [] with
      | error trap => simp [Except.map]
      | ok result => simp [Except.map]
    simp only [scan, steady.scanRoot32_ends, FatFs.RootEnds, FatFs.RootMet, type, true_implies]
    by_cases walks : FatFs.Walkable fat.rootCluster
    · have bounded (c : Nat) (reach : Reach (fat.rootNext good m) fat.rootCluster c) : c < 0x0FFFFFF8 :=
        FatFs.reach_lt (fun _ _ link => (FatFs.rootNext_eq_some link).2) walks reach
      rw [path_iff_no_cycle bounded]
      exact ⟨fun ends c met => ends walks c met.2, fun acyclic _ c reach => acyclic c ⟨walks, reach⟩⟩
    · exact iff_of_true (fun walks' => absurd walks' walks) fun c met => absurd met.1 walks
  · refine iff_of_true ⟨0, ?_⟩ fun type' => absurd type' type
    unfold fatRefreshRootCacheWithin
    split_ifs
    · simp
    · simp

theorem fatInit_ends {s : FatState} (same : s.dev = dev) :
    (∃ limit, fatInitWithin limit s ≠ .error .endless) ↔
      (good 0 = true → ∀ fat, fatGeometry (sectorAt s.dev.disk 0) = .ok fat → fat.RootEnds good s.dev.disk) := by
  subst same
  have read := steady.readSector_after 0 s.dev.disk 0
  rw [StorageDevice.after_zero] at read
  have enabled : ¬ (¬ s.dev.present ∨ ¬ s.dev.read) := by simp [steady.present, steady.read]
  by_cases first : good 0 = true
  · rw [if_pos first] at read
    simp only [first, true_implies]
    cases boot : fatGeometry (sectorAt s.dev.disk 0) with
    | error trap =>
      refine iff_of_true ⟨0, ?_⟩ (by simp)
      simp only [fatInitWithin, if_neg enabled, read, boot, bind, Except.bind]
      rw [fatGeometry_trap boot]
      simp
    | ok fat =>
      simp only [fatInitWithin_boot read boot, Except.ok.injEq, forall_eq']
      by_cases kind : fat.fatType = 0
      · simp only [if_pos kind]
        exact iff_of_true ⟨0, by simp⟩ fun type => absurd (kind.symm.trans type) (by decide)
      · simp only [if_neg kind]
        exact refresh_ends steady 1
  · rw [if_neg first] at read
    refine iff_of_true ⟨0, ?_⟩ fun answered => absurd answered first
    simp only [fatInitWithin, if_neg enabled, read]
    simp

theorem fatReadFile_ends {s : FatState} (same : s.dev = dev) {name : Option (List UInt8)} {buffer : Bool} {max : Nat}
    (small : max + s.fat.bytesPerSector ≤ 2 ^ 32) :
    (∃ limit, fatReadFileWithin limit s name buffer max ≠ .error .endless) ↔
      ∀ text fi, name = some text → buffer = true → 0 < max → s.files.find? (fun fi => fi.name = text) = some fi →
        s.fat.FileEnds good s.dev.disk (min fi.size max) fi.firstCluster := by
  subst same
  cases name with
  | none => exact iff_of_true ⟨0, by simp [fatReadFileWithin]⟩ (by simp)
  | some text =>
    by_cases start : buffer = false ∨ max = 0
    · refine iff_of_true ⟨0, by simp [fatReadFileWithin, start]⟩ fun _ _ _ filled some => ?_
      rcases start with empty | zero
      · exact absurd (empty.symm.trans filled) (by decide)
      · omega
    · simp only [fatReadFileWithin, if_neg start]
      obtain ⟨filled, some⟩ := not_or.mp start
      cases found : s.files.find? fun fi => fi.name = text with
      | none =>
        refine iff_of_true ⟨0, by simp⟩ fun text' fi same _ _ hit => ?_
        cases Option.some.inj same
        exact absurd (found.symm.trans hit) (by simp)
      | some fi =>
        have ends := fileEnds_iff steady (m := s.dev.disk) fi.firstCluster 0
          (show min fi.size max + s.fat.bytesPerSector ≤ 2 ^ 32 by omega)
        rw [StorageDevice.after_zero] at ends
        refine (exists_congr fun limit => Faults.bind_ne_error fun result => ⟨_, rfl⟩).trans (ends.trans ?_)
        constructor
        · rintro file text' fi' same _ _ hit
          cases Option.some.inj same
          cases Option.some.inj (found.symm.trans hit)
          exact file
        · exact fun file => file text fi rfl (by simpa using filled) (Nat.pos_of_ne_zero some) found

end

/-- Which of the loops end on a device of which the same sectors can always be read: those
of mounting and of refreshing, if the links of a FAT32 root directory have no cycle, and
that of reading a file, if the links of the file have none or the cycle yields bytes. The
links are those of the disk where the entries are inside the sector that is read for them;
behind it the code takes what its stack holds. -/
theorem fat_walks_end_iff {s : FatState} {good : Nat → Bool} (steady : s.dev.Steady good) :
    ((∀ fat, fatGeometry (sectorAt s.dev.disk 0) = .ok fat → fat.fatType = 32 → fat.EntriesInside) →
      ((∃ limit, fatInitWithin limit s ≠ .error .endless) ↔
        (good 0 = true → ∀ fat, fatGeometry (sectorAt s.dev.disk 0) = .ok fat → fat.RootEnds good s.dev.disk))) ∧
    ((s.fat.fatType = 32 → s.fat.EntriesInside) →
      ((∃ limit, fatRefreshRootCacheWithin limit s ≠ .error .endless) ↔ s.fat.RootEnds good s.dev.disk)) ∧
    (s.fat.EntriesInside → ∀ name buffer max, max + s.fat.bytesPerSector ≤ 2 ^ 32 →
      ((∃ limit, fatReadFileWithin limit s name buffer max ≠ .error .endless) ↔
        ∀ text fi, name = some text → buffer = true → 0 < max → s.files.find? (fun fi => fi.name = text) = some fi →
          s.fat.FileEnds good s.dev.disk (min fi.size max) fi.firstCluster)) :=
  ⟨fun _ => fatInit_ends steady rfl, fun _ => refresh_ends steady 0,
    fun _ _ _ _ small => fatReadFile_ends steady rfl small⟩

/-- A FAT32 volume whose root directory starts at cluster 2, with the given link. -/
def rootDisk (link : UInt8) : Bytes := fun x =>
  if x < 512 then
    ([0xEB, 0x58, 0x90, 0, 0, 0, 0, 0, 0, 0, 0, 0x00, 0x02, 0x01, 0x20, 0x00, 0x01, 0, 0, 0, 0, 0xF8, 0, 0, 0, 0, 0, 0, 0, 0,
      0, 0, 0x15, 0x02, 0x01, 0x00, 0x00, 0x02, 0, 0, 0, 0, 0, 0, 0x02] : List UInt8).getD x 0
  else if x = 512 * 32 + 8 then link
  else 0

def rootFat : FatFs := ⟨true, 512, 1, 32, 1, 512, 0, 0, 32, 544, 544, 2, 32, 65525⟩

def rootState (link : UInt8) : FatState :=
  ⟨⟨true, true, true, 66069, rootDisk link, fun _ _ => false, fun _ _ => false⟩, rootFat, []⟩

theorem rootState_reads (link : UInt8) : (rootState link).dev.Reads := ⟨rfl, rfl, rfl⟩

theorem rootState_boot (link : UInt8) : fatGeometry (sectorAt (rootState link).dev.disk 0) = .ok rootFat := by
  have same : sectorAt (rootState link).dev.disk 0 = sectorAt (rootState 0).dev.disk 0 :=
    sectorAt_congr fun x _ front => by simp only [rootState, rootDisk, if_pos (show x < 512 by omega)]
  rw [same]
  rfl

theorem fat_walks_end_one_cluster : ∃ limit, fatInitWithin limit (rootState 0) ≠ .error .endless := by
  refine ((fat_walks_end_iff (rootState_reads 0).steady).1 fun fat same _ => ?_).mpr fun _ fat same => ?_
  · cases Except.ok.inj ((rootState_boot 0).symm.trans same)
    exact FatFs.entriesInside_iff.mpr (by decide)
  · cases Except.ok.inj ((rootState_boot 0).symm.trans same)
    have last : rootFat.rootNext (fun lba => decide (lba < (rootState 0).dev.sectors)) (rootState 0).dev.disk 2 = none := by
      decide
    exact fun _ c met => (Path.stop last).not_cycle met.2

theorem fat_init_never_ends :
    ¬ ∀ (s : FatState) (good : Nat → Bool), s.dev.Steady good →
      (∃ limit, fatInitWithin limit s ≠ .error .endless) ∧ (∃ limit, fatRefreshRootCacheWithin limit s ≠ .error .endless) ∧
        ∀ name buffer max, max + s.fat.bytesPerSector ≤ 2 ^ 32 →
          ∃ limit, fatReadFileWithin limit s name buffer max ≠ .error .endless := by
  intro claim
  have reads := (rootState_reads 2).steady
  have acyclic := (fatInit_ends reads rfl).mp (claim (rootState 2) _ reads).1 (by decide) rootFat (rootState_boot 2) rfl
  have link : rootFat.rootNext (fun lba => decide (lba < (rootState 2).dev.sectors)) (rootState 2).dev.disk 2 = some 2 := by
    decide
  exact acyclic 2 ⟨by decide, .refl _ 2⟩ ⟨2, link, .refl _ 2⟩

end LearningOS
