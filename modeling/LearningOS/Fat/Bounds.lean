import LearningOS.Fat.Geometry
import LearningOS.Fat.Steady
import LearningOS.Run.Faults
import LearningOS.Store.Prefixes

namespace LearningOS
open ByteStore Faults Links Prefixes

/-- What stops a run that watches its sector buffers: a trap, or an access beyond the end
of a buffer. -/
inductive Fault
  | trap (t : Trap)
  | outOfBounds
deriving DecidableEq, Repr

/-- A byte of a sector buffer. -/
def peek (sector : Bytes) (i : Nat) : Except Fault UInt8 := if i < 512 then .ok (sector i) else .error .outOfBounds

def peek16 (sector : Bytes) (i : Nat) : Except Fault Nat := do
  let low ← peek sector i
  let high ← peek sector (i + 1)
  .ok (low.toNat + 256 * high.toNat)

def peek32 (sector : Bytes) (i : Nat) : Except Fault Nat := do
  let low ← peek16 sector i
  let high ← peek16 sector (i + 2)
  .ok (low + 65536 * high)

/-- The bytes of a part of a name, up to a space. -/
def peekPart (sector : Bytes) : List Nat → Except Fault (List UInt8)
  | [] => .ok []
  | i :: rest => do
    let c ← peek sector i
    if c = 0x20 then .ok []
    else
      let part ← peekPart sector rest
      .ok (c :: part)

def peekName (sector : Bytes) (ent : Nat) : Except Fault (List UInt8) := do
  let base ← peekPart sector (List.range' ent 8)
  let suffix ← peekPart sector (List.range' (ent + 8) 3)
  .ok ((base ++ if suffix = [] then [] else 0x2E :: suffix).takeWhile (· ≠ 0))

/-- `fat_parse_root_dir`, with a watch on the buffer, over the entries of a list. -/
def parseEntriesChecked (sector : Bytes) : List Nat → List FatFileInfo → Except Fault (List FatFileInfo)
  | [], files => .ok files
  | i :: rest, files => do
    let ent := 32 * i
    let first ← peek sector ent
    if first = 0 then .ok files
    else if first = 0xE5 then parseEntriesChecked sector rest files
    else
      let attr ← peek sector (ent + 11)
      if attr = 0x0F then parseEntriesChecked sector rest files
      else if attr &&& 0x08 ≠ 0 then parseEntriesChecked sector rest files
      else
        let name ← peekName sector ent
        let low ← peek16 sector (ent + 26)
        let high ← peek16 sector (ent + 20)
        let size ← peek32 sector (ent + 28)
        parseEntriesChecked sector rest (fatAddFile files name size (high * 65536 + low))

def fatReadFatEntryChecked (fat : FatFs) (dev : StorageDevice) (cluster : Nat) : Except Fault (StorageDevice × Nat) :=
  match readSector dev (fat.entryLba cluster) with
  | (dev, none) => .ok (dev, 0)
  | (dev, some sector) =>
    if fat.fatType = 16 then do
      let value ← peek16 sector (fat.entryOffset cluster)
      .ok (dev, value)
    else do
      let value ← peek32 sector (fat.entryOffset cluster)
      .ok (dev, value % 2 ^ 28)

def scanRoot16Checked (fat : FatFs) :
    List Nat → StorageDevice → List FatFileInfo → Except Fault (StorageDevice × List FatFileInfo)
  | [], dev, files => .ok (dev, files)
  | i :: rest, dev, files =>
    match readSector dev (u32 (fat.rootDirSector + i)) with
    | (dev, none) => .ok (dev, files)
    | (dev, some sector) => do
      let files ← parseEntriesChecked sector (List.range (fat.bytesPerSector / 32)) files
      scanRoot16Checked fat rest dev files

def scanClusterChecked (fat : FatFs) (cluster : Nat) :
    List Nat → StorageDevice → List FatFileInfo → Except Fault (StorageDevice × List FatFileInfo)
  | [], dev, files => .ok (dev, files)
  | s :: rest, dev, files =>
    match fatReadClusterSector fat dev cluster s with
    | (dev, none) => .ok (dev, files)
    | (dev, some sector) => do
      let files ← parseEntriesChecked sector (List.range (fat.bytesPerSector / 32)) files
      scanClusterChecked fat cluster rest dev files

def scanRoot32Checked (fat : FatFs) :
    Nat → StorageDevice → Nat → List FatFileInfo → Except Fault (StorageDevice × List FatFileInfo)
  | 0, _, _, _ => .error (.trap .endless)
  | fuel + 1, dev, cluster, files =>
    if cluster ≥ 2 ∧ cluster < 0x0FFFFFF8 then do
      let (dev, files) ← scanClusterChecked fat cluster (List.range fat.sectorsPerCluster) dev files
      let (dev, next) ← fatReadFatEntryChecked fat dev cluster
      scanRoot32Checked fat fuel dev next files
    else .ok (dev, files)

def fatRefreshRootCacheChecked (limit : Nat) (s : FatState) : Except Fault FatState :=
  if s.fat.fatType = 16 then do
    let (dev, files) ← scanRoot16Checked s.fat (List.range s.fat.rootDirSectors) s.dev []
    .ok { s with dev, files }
  else if s.fat.fatType = 32 then do
    let (dev, files) ← scanRoot32Checked s.fat limit s.dev s.fat.rootCluster []
    .ok { s with dev, files }
  else .ok { s with files := [] }

/-- `fat_init` with a watch on its divisions and its sector buffers; the fields of the boot
sector lie in front of byte 48 of its buffer. -/
def fatInitChecked (limit : Nat) (s : FatState) : Except Fault FatState :=
  if ¬ s.dev.present ∨ ¬ s.dev.read then .ok s
  else
    match readSector s.dev 0 with
    | (dev, none) => .ok { s with dev }
    | (dev, some sector) => do
      let fat ← (fatGeometry sector).mapError .trap
      if fat.fatType = 0 then .ok { s with dev, fat } else fatRefreshRootCacheChecked limit { s with dev, fat }

/-- Mounting divides by no zero and stays inside its sector buffers, in any number of
steps. -/
def MountsInBounds (s : FatState) : Prop :=
  ∀ limit, fatInitChecked limit s ≠ .error (.trap .divideByZero) ∧ fatInitChecked limit s ≠ .error .outOfBounds

namespace FatFs
variable (fat : FatFs) (good : Nat → Bool) (m : Bytes)

/-- A directory sector whose entries are inside its buffer: at most 16 are looked at, or
one of the first 16 was never used. -/
def SectorFits (sector : Bytes) : Prop := fat.bytesPerSector / 32 ≤ 16 ∨ ∃ e, e < 16 ∧ sector (32 * e) = 0

/-- The sectors of a FAT16 root directory up to the first that cannot be read. -/
def Root16Fits : Prop :=
  ∀ i, i < fat.rootDirSectors → (∀ j, j ≤ i → good (u32 (fat.rootDirSector + j)) = true) →
    fat.SectorFits (sectorAt m (u32 (fat.rootDirSector + i)))

/-- The sectors of a cluster of a FAT32 root directory up to the first that cannot be
read. -/
def ClusterFits (c : Nat) : Prop :=
  ∀ t, t < fat.sectorsPerCluster → (∀ u, u ≤ t → good (u32 (fatClusterToLba fat c + u)) = true) →
    fat.SectorFits (sectorAt m (u32 (fatClusterToLba fat c + t)))

/-- A FAT entry that is inside the buffer read for it. -/
def EntryFits (c : Nat) : Prop := good (fat.entryLba c) = true → fat.entryOffset c + fat.entryBytes ≤ 512

end FatFs

section
variable {sector : Bytes} {i : Nat}

theorem peek_eq (inside : i < 512) : peek sector i = .ok (sector i) := if_pos inside

theorem peek16_guarded (sector : Bytes) (i : Nat) :
    Guarded .outOfBounds (i + 1 < 512) (peek16 sector i) (.ok (load16 sector i)) := by
  have low : Guarded Fault.outOfBounds (i < 512) (peek sector i) (.ok (sector i)) := guarded_ite _ _
  have high : Guarded Fault.outOfBounds (i + 1 < 512) (peek sector (i + 1)) (.ok (sector (i + 1))) := guarded_ite _ _
  have both := low.bind (f := fun low => do let high ← peek sector (i + 1); .ok (low.toNat + 256 * high.toNat))
    fun _ => high.bind fun _ => guarded_refl _ _
  exact both.congr ⟨fun h => h.2.1, fun h => ⟨by omega, h, trivial⟩⟩

theorem peek32_guarded (sector : Bytes) (i : Nat) :
    Guarded .outOfBounds (i + 3 < 512) (peek32 sector i) (.ok (load32 sector i)) := by
  have both := (peek16_guarded sector i).bind (f := fun low => do
    let high ← peek16 sector (i + 2); .ok (low + 65536 * high)) fun _ =>
      (peek16_guarded sector (i + 2)).bind fun _ => guarded_refl _ _
  exact both.congr ⟨fun h => h.2.1, fun h => ⟨by omega, h, trivial⟩⟩

theorem peekPart_eq {as : List Nat} (inside : ∀ a ∈ as, a < 512) :
    peekPart sector as = .ok ((as.map sector).takeWhile (· ≠ 0x20)) := by
  induction as with
  | nil => rfl
  | cons a rest ih =>
    rw [peekPart, peek_eq (inside a List.mem_cons_self), ih fun b atB => inside b (List.mem_cons_of_mem a atB),
      List.map_cons]
    by_cases space : sector a = 0x20
    · simp [space, bind, Except.bind]
    · simp [space, bind, Except.bind]

theorem peekName_eq (inside : i + 11 ≤ 512) : peekName sector i = .ok (decodeName (window sector i 11)) := by
  have part (a n : Nat) : (List.range' a n).map sector = window sector a n := by
    rw [List.range'_eq_map_range, List.map_map]
    rfl
  have whole : window sector i 11 = window sector i 8 ++ window sector (i + 8) 3 := window_add sector i 8 3
  have length : (window sector i 8).length = 8 := by simp [window]
  unfold peekName
  rw [peekPart_eq fun a atA => by have := List.mem_range'_1.mp atA; omega,
    peekPart_eq fun a atA => by have := List.mem_range'_1.mp atA; omega, part, part]
  simp only [bind, Except.bind, decodeName, whole]
  rw [List.take_left' length, List.drop_left' length]

/-- The entries of a sector are inside its buffer up to the 16th, and none is looked at
behind one that was never used. -/
theorem parseEntries_guarded (sector : Bytes) {e n : Nat} (files : List FatFileInfo) (low : e ≤ 16) :
    Guarded .outOfBounds (e + n ≤ 16 ∨ ∃ k, e ≤ k ∧ k < 16 ∧ sector (32 * k) = 0)
      (parseEntriesChecked sector (List.range' e n) files) (.ok (parseEntries sector (List.range' e n) files)) := by
  induction n generalizing e files with
  | zero => exact Or.inl ⟨Or.inl low, rfl⟩
  | succ n ih =>
    rw [List.range'_succ, parseEntriesChecked, parseEntries]
    rcases Nat.lt_or_ge e 16 with inside | last
    · have first : peek sector (32 * e) = .ok (sector (32 * e)) := peek_eq (by omega)
      have attr : peek sector (32 * e + 11) = .ok (sector (32 * e + 11)) := peek_eq (by omega)
      have name : peekName sector (32 * e) = .ok (decodeName (window sector (32 * e) 11)) := peekName_eq (by omega)
      have cluster := (peek16_guarded sector (32 * e + 26)).eq (by omega)
      have upper := (peek16_guarded sector (32 * e + 20)).eq (by omega)
      have size := (peek32_guarded sector (32 * e + 28)).eq (by omega)
      simp only [first, attr, name, cluster, upper, size, bind, Except.bind]
      by_cases zero : sector (32 * e) = 0
      · rw [if_pos zero, if_pos zero]
        exact Or.inl ⟨Or.inr ⟨e, le_rfl, inside, zero⟩, rfl⟩
      · have later : (e + 1 + n ≤ 16 ∨ ∃ k, e + 1 ≤ k ∧ k < 16 ∧ sector (32 * k) = 0) ↔
            (e + (n + 1) ≤ 16 ∨ ∃ k, e ≤ k ∧ k < 16 ∧ sector (32 * k) = 0) := by
          refine or_congr (by omega) ⟨?_, ?_⟩
          · rintro ⟨k, lower, less, unset⟩
            exact ⟨k, by omega, less, unset⟩
          · rintro ⟨k, lower, less, unset⟩
            have differ : k ≠ e := fun same => zero (same ▸ unset)
            exact ⟨k, by omega, less, unset⟩
        have rest (files : List FatFileInfo) := (ih files inside).congr later
        rw [if_neg zero, if_neg zero]
        split_ifs
        · exact rest _
        · exact rest _
        · exact rest _
        · exact rest _
    · have beyond : peek sector (32 * e) = .error .outOfBounds := if_neg (by omega)
      refine Or.inr ⟨?_, ?_⟩
      · rintro (short | ⟨k, lower, less, _⟩)
        · omega
        · omega
      · rw [beyond]
        rfl

end

theorem FatFs.sector_guarded (fat : FatFs) (sector : Bytes) (files : List FatFileInfo) :
    Guarded .outOfBounds (fat.SectorFits sector)
      (parseEntriesChecked sector (List.range (fat.bytesPerSector / 32)) files)
      (.ok (fatParseRootDir files sector (fat.bytesPerSector / 32))) := by
  have parse := parseEntries_guarded sector (e := 0) (n := fat.bytesPerSector / 32) files (by decide)
  rw [← List.range_eq_range', Nat.zero_add] at parse
  exact parse.congr (or_congr_right ⟨fun ⟨k, _, less, zero⟩ => ⟨k, less, zero⟩, fun ⟨k, less, zero⟩ =>
    ⟨k, Nat.zero_le k, less, zero⟩⟩)

namespace StorageDevice.Steady
variable {dev : StorageDevice} {good : Nat → Bool} {fat : FatFs} {m : Bytes} {asked : Nat}

theorem entry_guarded (steady : dev.Steady good) (fat : FatFs) (asked : Nat) (m : Bytes) (c : Nat) :
    Guarded .outOfBounds (fat.EntryFits good c) (fatReadFatEntryChecked fat (dev.after asked m) c)
      (.ok (dev.after (asked + 1) m, fat.seenEntry good m c)) := by
  unfold fatReadFatEntryChecked FatFs.EntryFits FatFs.seenEntry FatFs.entryValue FatFs.entryBytes
  rw [steady.readSector_after]
  by_cases answered : good (fat.entryLba c) = true
  · simp only [answered, if_true, true_implies]
    split_ifs
    · exact ((peek16_guarded _ _).bind fun _ => guarded_refl _ _).congr ⟨fun h => by have := h.1; omega, fun h =>
        ⟨by omega, trivial⟩⟩
    · exact ((peek32_guarded _ _).bind fun _ => guarded_refl _ _).congr ⟨fun h => by have := h.1; omega, fun h =>
        ⟨by omega, trivial⟩⟩
  · simp only [answered, Bool.false_eq_true, if_false, false_implies]
    exact guarded_refl _ _

/-- The scan of a FAT16 root directory stays in bounds exactly if its sectors fit. -/
theorem scanRoot16_guarded (steady : dev.Steady good) (fat : FatFs) (m : Bytes) (asked : Nat) {i n : Nat}
    (files : List FatFileInfo) :
    Guarded .outOfBounds
      (∀ k, k < n → (∀ j, j ≤ k → good (u32 (fat.rootDirSector + (i + j))) = true) →
        fat.SectorFits (sectorAt m (u32 (fat.rootDirSector + (i + k)))))
      (scanRoot16Checked fat (List.range' i n) (dev.after asked m) files)
      (.ok (scanRoot16 fat (List.range' i n) (dev.after asked m) files)) := by
  induction n generalizing asked i files with
  | zero => exact Or.inl ⟨fun k less => absurd less (Nat.not_lt_zero k), rfl⟩
  | succ n ih =>
    rw [List.range'_succ, scanRoot16Checked, scanRoot16]
    simp only [steady.readSector_after]
    by_cases answered : good (u32 (fat.rootDirSector + i)) = true
    · simp only [answered, if_true]
      exact ((fat.sector_guarded _ files).bind fun _ => ih (asked + 1) (i := i + 1) _).congr
        (forall_front_succ (g := fun i => good (u32 (fat.rootDirSector + i)) = true)
          (P := fun i => fat.SectorFits (sectorAt m (u32 (fat.rootDirSector + i)))) answered).symm
    · simp only [answered, Bool.false_eq_true, if_false]
      exact (guarded_refl _ _).congr ((iff_true _).mpr fun k _ before => absurd (before 0 (Nat.zero_le k)) answered).symm

theorem scanCluster_guarded (steady : dev.Steady good) (asked : Nat) {c t n : Nat} (files : List FatFileInfo)
    (inside : t + n ≤ fat.sectorsPerCluster) :
    Guarded .outOfBounds
      (∀ k, k < n → (∀ j, j ≤ k → good (u32 (fatClusterToLba fat c + (t + j))) = true) →
        fat.SectorFits (sectorAt m (u32 (fatClusterToLba fat c + (t + k)))))
      (scanClusterChecked fat c (List.range' t n) (dev.after asked m) files)
      (.ok (scanCluster fat c (List.range' t n) (dev.after asked m) files)) := by
  induction n generalizing asked t files with
  | zero => exact Or.inl ⟨fun k less => absurd less (Nat.not_lt_zero k), rfl⟩
  | succ n ih =>
    have read : fatReadClusterSector fat (dev.after asked m) c t =
        readSector (dev.after asked m) (u32 (fatClusterToLba fat c + t)) := if_neg (by omega)
    rw [List.range'_succ, scanClusterChecked, scanCluster]
    simp only [read, steady.readSector_after]
    by_cases answered : good (u32 (fatClusterToLba fat c + t)) = true
    · simp only [answered, if_true]
      exact ((fat.sector_guarded _ files).bind fun _ => ih (asked + 1) (t := t + 1) _ (by omega)).congr
        (forall_front_succ (g := fun t => good (u32 (fatClusterToLba fat c + t)) = true)
          (P := fun t => fat.SectorFits (sectorAt m (u32 (fatClusterToLba fat c + t)))) answered).symm
    · simp only [answered, Bool.false_eq_true, if_false]
      exact (guarded_refl _ _).congr ((iff_true _).mpr fun k _ before => absurd (before 0 (Nat.zero_le k)) answered).symm

/-- One cluster of the walk along a FAT32 root directory. -/
theorem scanRoot32_guarded (steady : dev.Steady good) {fuel c later : Nat} {files files' : List FatFileInfo}
    (walks : FatFs.Walkable c)
    (scan : scanCluster fat c (List.range fat.sectorsPerCluster) (dev.after asked m) files = (dev.after later m, files')) :
    Guarded .outOfBounds (fat.ClusterFits good m c ∧ fat.EntryFits good c)
      (scanRoot32Checked fat (fuel + 1) (dev.after asked m) c files)
      (scanRoot32Checked fat fuel (dev.after (later + 1) m) (fat.seenEntry good m c) files') := by
  have cluster := steady.scanCluster_guarded asked (m := m) (c := c) files
    (show 0 + fat.sectorsPerCluster ≤ fat.sectorsPerCluster by omega)
  rw [← List.range_eq_range', scan] at cluster
  simp only [Nat.zero_add] at cluster
  rw [scanRoot32Checked, if_pos walks]
  exact (cluster.bind fun _ => (steady.entry_guarded fat later m c).bind fun _ => guarded_refl _ _).congr
    (and_congr_right fun _ => iff_of_eq (and_true _))

/-- A walk whose clusters fit goes as without a watch. -/
theorem scanRoot32_eq (steady : dev.Steady good) {fuel c : Nat} {files : List FatFileInfo}
    (fits : ∀ d, FatFs.Walkable c → Reach (fat.rootNext good m) c d → fat.ClusterFits good m d ∧ fat.EntryFits good d) :
    scanRoot32Checked fat fuel (dev.after asked m) c files =
      (scanRoot32 fat fuel (dev.after asked m) c files).mapError .trap := by
  induction fuel generalizing asked c files with
  | zero => rfl
  | succ fuel ih =>
    by_cases walks : FatFs.Walkable c
    · obtain ⟨later, files', scan⟩ := steady.scanCluster_after fat c (List.range fat.sectorsPerCluster) asked m files
      rw [(steady.scanRoot32_guarded walks scan).eq (fits c walks (.refl _ c)), steady.scanRoot32_step walks scan]
      refine ih fun d next reach => fits d walks (.head ?_ reach)
      rw [FatFs.rootNext, if_pos next]
    · rw [scanRoot32Checked, scanRoot32, if_neg walks, if_neg walks]
      rfl

/-- A walk that stays in bounds, however far it is followed, meets fitting clusters only. -/
theorem scanRoot32_fits (steady : dev.Steady good) (asked : Nat) {c d : Nat} (files : List FatFileInfo)
    (walks : FatFs.Walkable c)
    (reach : Reach (fat.rootNext good m) c d)
    (bounds : ∀ fuel, scanRoot32Checked fat fuel (dev.after asked m) c files ≠ .error .outOfBounds) :
    fat.ClusterFits good m d ∧ fat.EntryFits good d := by
  induction reach using Relation.ReflTransGen.head_induction_on generalizing asked files with
  | refl =>
    obtain ⟨later, files', scan⟩ := steady.scanCluster_after fat d (List.range fat.sectorsPerCluster) asked m files
    exact ((steady.scanRoot32_guarded walks scan).ne_error (by simp [scanRoot32Checked])).mp (bounds 1)
  | @head c e link _ ih =>
    obtain ⟨later, files', scan⟩ := steady.scanCluster_after fat c (List.range fat.sectorsPerCluster) asked m files
    have fits := ((steady.scanRoot32_guarded walks scan).ne_error (by simp [scanRoot32Checked])).mp (bounds 1)
    rw [FatFs.rootNext] at link
    split at link
    · rename_i next
      cases Option.some.inj link
      refine ih (later + 1) files' next fun fuel => ?_
      rw [← (steady.scanRoot32_guarded walks scan).eq fits]
      exact bounds (fuel + 1)
    · simp at link

end StorageDevice.Steady

/-- The scan of the root directory stays in its buffers. -/
def FatFs.RootFits (fat : FatFs) (good : Nat → Bool) (m : Bytes) : Prop :=
  (fat.fatType = 16 → fat.Root16Fits good m) ∧
    (fat.fatType = 32 → ∀ c, fat.RootMet good m c → fat.ClusterFits good m c ∧ fat.EntryFits good c)

section
variable {dev : StorageDevice} {good : Nat → Bool} (steady : dev.Steady good)
include steady

theorem refresh_eq {limit asked : Nat} {fat : FatFs} {m : Bytes} {files : List FatFileInfo}
    (fits : fat.RootFits good m) :
    fatRefreshRootCacheChecked limit ⟨dev.after asked m, fat, files⟩ =
      (fatRefreshRootCacheWithin limit ⟨dev.after asked m, fat, files⟩).mapError .trap := by
  unfold fatRefreshRootCacheChecked fatRefreshRootCacheWithin
  split_ifs with type type'
  · have scan := steady.scanRoot16_guarded fat m asked (i := 0) (n := fat.rootDirSectors) []
    simp only [Nat.zero_add] at scan
    rw [← List.range_eq_range'] at scan
    rw [scan.eq (fits.1 type)]
    rfl
  · rw [steady.scanRoot32_eq fun d walks reach => fits.2 type' d ⟨walks, reach⟩]
    cases scanRoot32 fat limit (dev.after asked m) fat.rootCluster [] with
    | error trap => rfl
    | ok result => rfl
  · rfl

theorem refresh_fits (asked : Nat) {fat : FatFs} {m : Bytes} (files : List FatFileInfo)
    (bounds : ∀ limit, fatRefreshRootCacheChecked limit ⟨dev.after asked m, fat, files⟩ ≠ .error .outOfBounds) :
    fat.RootFits good m := by
  refine ⟨fun type => ?_, fun type c met => ?_⟩
  · have scan := steady.scanRoot16_guarded fat m asked (i := 0) (n := fat.rootDirSectors) []
    simp only [Nat.zero_add] at scan
    rw [← List.range_eq_range'] at scan
    refine (scan.ne_error (by simp)).mp fun fault => bounds 0 ?_
    rw [fatRefreshRootCacheChecked, if_pos type, fault]
    rfl
  · refine steady.scanRoot32_fits asked [] met.1 met.2 fun fuel fault => bounds fuel ?_
    rw [fatRefreshRootCacheChecked, if_neg (by rw [type]; decide), if_pos type, fault]
    rfl

end

theorem fatGeometry_divides {bpb : Bytes} (zero : load16 bpb 11 = 0 ∨ bpb 13 = 0) :
    fatGeometry bpb = .error .divideByZero := by
  simp only [fatGeometry]
  split_ifs with bytes cluster
  · rfl
  · rfl
  · refine absurd ?_ cluster
    rw [zero.resolve_left bytes, UInt8.toNat_zero]

theorem scanRoot32_trap {fat : FatFs} {fuel c : Nat} {dev : StorageDevice} {files : List FatFileInfo} {trap : Trap}
    (run : scanRoot32 fat fuel dev c files = .error trap) : trap = .endless := by
  induction fuel generalizing dev c files with
  | zero => exact (Except.error.inj run).symm
  | succ fuel ih =>
    rw [scanRoot32] at run
    split at run
    · exact ih run
    · simp at run

/-- A scan of the root directory divides by nothing. -/
theorem refresh_trap {limit : Nat} {s : FatState} {trap : Trap}
    (run : fatRefreshRootCacheWithin limit s = .error trap) : trap = .endless := by
  unfold fatRefreshRootCacheWithin at run
  split at run
  · simp at run
  · split at run
    · cases scan : scanRoot32 s.fat limit s.dev s.fat.rootCluster [] with
      | error trap' =>
        rw [scan] at run
        cases Except.error.inj run
        exact scanRoot32_trap scan
      | ok result =>
        rw [scan] at run
        simp [Except.map] at run
    · simp at run

/-- The watch on a run that stays in bounds changes nothing. -/
theorem fatInitChecked_eq {s : FatState} {good : Nat → Bool} {fat : FatFs} (steady : s.dev.Steady good)
    (boot : fatGeometry (sectorAt s.dev.disk 0) = .ok fat) (fits : fat.RootFits good s.dev.disk) (limit : Nat) :
    fatInitChecked limit s = (fatInitWithin limit s).mapError .trap := by
  have enabled : ¬ (¬ s.dev.present ∨ ¬ s.dev.read) := by simp [steady.present, steady.read]
  have read := steady.readSector_after 0 s.dev.disk 0
  rw [StorageDevice.after_zero] at read
  unfold fatInitChecked fatInitWithin
  rw [if_neg enabled, if_neg enabled, read]
  split_ifs
  · simp only [boot, bind, Except.bind, Except.mapError]
    split_ifs
    · rfl
    · exact refresh_eq steady fits
  · rfl

/-- Which boot sectors and disks are mounted in bounds: those without a zero divisor whose
root directory is scanned inside the sector buffers. -/
theorem fat_init_in_bounds_iff {s : FatState} {good : Nat → Bool} (steady : s.dev.Steady good) :
    MountsInBounds s ↔ (good 0 = true → load16 (sectorAt s.dev.disk 0) 11 ≠ 0 ∧ sectorAt s.dev.disk 0 13 ≠ 0 ∧
      ∀ fat, fatGeometry (sectorAt s.dev.disk 0) = .ok fat → fat.RootFits good s.dev.disk) := by
  have enabled : ¬ (¬ s.dev.present ∨ ¬ s.dev.read) := by simp [steady.present, steady.read]
  have read := steady.readSector_after 0 s.dev.disk 0
  rw [StorageDevice.after_zero] at read
  by_cases first : good 0 = true
  · rw [if_pos first] at read
    have start (limit : Nat) (fat : FatFs) (boot : fatGeometry (sectorAt s.dev.disk 0) = .ok fat) :
        fatInitChecked limit s = if fat.fatType = 0 then .ok ⟨s.dev.after 1 s.dev.disk, fat, s.files⟩
          else fatRefreshRootCacheChecked limit ⟨s.dev.after 1 s.dev.disk, fat, s.files⟩ := by
      simp only [fatInitChecked, if_neg enabled, read, boot, Except.mapError, bind, Except.bind]
    simp only [first, true_implies]
    constructor
    · intro bounds
      have divides : ¬ (load16 (sectorAt s.dev.disk 0) 11 = 0 ∨ sectorAt s.dev.disk 0 13 = 0) := by
        intro zero
        refine (bounds 0).1 ?_
        simp only [fatInitChecked, if_neg enabled, read, fatGeometry_divides zero, Except.mapError, bind, Except.bind]
      refine ⟨fun zero => divides (Or.inl zero), fun zero => divides (Or.inr zero), fun fat boot => ?_⟩
      by_cases kind : fat.fatType = 0
      · exact ⟨fun type => absurd (kind.symm.trans type) (by decide), fun type => absurd (kind.symm.trans type) (by decide)⟩
      · refine refresh_fits steady 1 s.files fun limit => ?_
        have inside := (bounds limit).2
        rwa [start limit fat boot, if_neg kind] at inside
    · rintro ⟨bytes, cluster, fits⟩ limit
      obtain ⟨fat, boot⟩ := fatGeometry_returns bytes cluster
      rw [fatInitChecked_eq steady boot (fits fat boot) limit]
      cases init : fatInitWithin limit s with
      | ok t => exact ⟨by simp [Except.mapError], by simp [Except.mapError]⟩
      | error trap =>
        rw [fatInitWithin_boot read boot] at init
        split at init
        · simp at init
        · cases refresh_trap init
          exact ⟨by simp [Except.mapError], by simp [Except.mapError]⟩
  · rw [if_neg first] at read
    refine iff_of_true (fun limit => ?_) fun answered => absurd answered first
    simp only [fatInitChecked, if_neg enabled, read]
    exact ⟨by simp, by simp⟩

theorem fat_init_in_bounds_sample : MountsInBounds ⟨sampleDevice 0 [], sampleFat, []⟩ := by
  have boot : fatGeometry (sectorAt (sampleDevice 0 []).disk 0) = .ok sampleFat := by
    rw [show (sampleDevice 0 []).disk = sampleDisk 0 [] from rfl, sampleDisk_boot]
    rfl
  refine (fat_init_in_bounds_iff (sampleDevice_works 0 []).reads.steady).mpr fun _ => ⟨by decide, by decide,
    fun fat same => ?_⟩
  cases Except.ok.inj (boot.symm.trans same)
  exact ⟨fun _ i _ _ => Or.inl (by decide), fun type => absurd type (by decide)⟩

/-- An unformatted disk. -/
def blankState : FatState :=
  ⟨⟨true, true, true, 4096, fun _ => 0, fun _ _ => false, fun _ _ => false⟩, sampleFat, []⟩

theorem fat_init_divides_by_zero :
    ¬ ∀ (s : FatState) (good : Nat → Bool), s.dev.Steady good → MountsInBounds s := by
  intro claim
  have reads : blankState.dev.Reads := ⟨rfl, rfl, rfl⟩
  exact (claim blankState _ reads.steady 0).1 rfl

end LearningOS
