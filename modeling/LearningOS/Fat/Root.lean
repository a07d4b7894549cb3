import LearningOS.Fat.Volume
import LearningOS.Storage.Requests
import LearningOS.Store.Prefixes

namespace LearningOS
open ByteStore Prefixes

namespace FatFs
variable (fat : FatFs) (m : Bytes) (i : Nat)

/-- An entry of the root directory that is neither free nor part of a long name. -/
def InUse : Prop := m (fat.slotBase i) ≠ 0 ∧ m (fat.slotBase i) ≠ 0xE5 ∧ m (fat.slotBase i + 11) ≠ 0x0F

/-- An entry that may be overwritten: never used, or deleted. -/
def Vacant : Prop := m (fat.slotBase i) = 0 ∨ m (fat.slotBase i) = 0xE5

/-- An entry that the listing shows. -/
def Visible : Prop := fat.InUse m i ∧ m (fat.slotBase i + 11) &&& 0x08 = 0

def slotName : List UInt8 := window m (fat.slotBase i) 11

def slotCluster : Nat := load16 m (fat.slotBase i + 20) * 65536 + load16 m (fat.slotBase i + 26)

/-- What the listing shows of an entry. -/
def slotInfo : FatFileInfo :=
  ⟨(decodeName (fat.slotName m i)).take 12, load32 m (fat.slotBase i + 28), fat.slotCluster m i⟩

/-- Behind the first entry that was never used there are only such. -/
def Ended : Prop := ∀ i j, i ≤ j → j < fat.slots → m (fat.slotBase i) = 0 → m (fat.slotBase j) = 0

instance : Decidable (fat.InUse m i) := inferInstanceAs (Decidable (_ ∧ _ ∧ _))

instance : Decidable (fat.Vacant m i) := inferInstanceAs (Decidable (_ ∨ _))

instance : Decidable (fat.Visible m i) := inferInstanceAs (Decidable (_ ∧ _))

/-- The listing of a root directory. -/
def rootFiles : List FatFileInfo :=
  (((List.range fat.slots).filter fun i => fat.Visible m i).map (fat.slotInfo m)).take 32

/-- Where the sector and the offset of an entry are; `none` is the mark that
`fat_find_root_entry` starts with. -/
def slotPlace : Option Nat → Nat × Nat
  | none => (0xFFFFFFFF, 0xFFFFFFFF)
  | some i => (fat.rootDirSector + i / 16, 32 * (i % 16))

/-- The search for a name: the entry that has it, or else the first vacant one. -/
def searchRoot (name : List UInt8) (slots : List Nat) (known : Option Nat) : RootSlot :=
  match slots.find? fun i => fat.InUse m i ∧ fat.slotName m i = name with
  | some i => .found (fat.slotPlace (some i)).1 (fat.slotPlace (some i)).2
  | none =>
    match known.or (slots.find? fun i => fat.Vacant m i) with
    | some i => .free (fat.slotPlace (some i)).1 (fat.slotPlace (some i)).2
    | none => .full

end FatFs

/-- The listing grows up to 32 files. -/
def addInfo (files : List FatFileInfo) (info : FatFileInfo) : List FatFileInfo :=
  if files.length ≥ 32 then files else files ++ [info]

theorem foldl_addInfo {infos files : List FatFileInfo} (few : files.length ≤ 32) :
    infos.foldl addInfo files = files ++ infos.take (32 - files.length) := by
  induction infos generalizing files with
  | nil => simp
  | cons info rest ih =>
    rw [List.foldl_cons]
    by_cases full : files.length ≥ 32
    · rw [addInfo, if_pos full, ih few, show 32 - files.length = 0 by omega]
      simp
    · have grown : (files ++ [info]).length = files.length + 1 := by simp
      rw [addInfo, if_neg full, ih (by omega), grown, show 32 - files.length = 32 - (files.length + 1) + 1 by omega]
      simp

/-- A root directory in sectors of 512 bytes that the device has. -/
structure FatFs.RootArea (fat : FatFs) (sectors : Nat) : Prop where
  bytes : fat.bytesPerSector = 512
  inside : fat.rootDirSector + fat.rootDirSectors ≤ sectors
  small : fat.rootDirSector + fat.rootDirSectors < 2 ^ 32

theorem FatFs.Sound.rootArea {fat : FatFs} {sectors : Nat} (sound : fat.Sound sectors) : fat.RootArea sectors := by
  have root := sound.root
  have data := sound.data
  have small := sound.small
  exact ⟨sound.bytes, by omega, by omega⟩

/-- The sectors of the root directory. -/
theorem FatFs.RootArea.sector {fat : FatFs} {sectors i : Nat} (area : fat.RootArea sectors)
    (inside : i < fat.rootDirSectors) :
    u32 (fat.rootDirSector + i) = fat.rootDirSector + i ∧ fat.rootDirSector + i < sectors ∧
      fat.rootDirSector + i ≠ 0xFFFFFFFF := by
  have onDisk := area.inside
  have small := area.small
  exact ⟨u32_of_lt (by omega), by omega, by omega⟩

namespace FatFs.Sound
variable {fat : FatFs} {sectors : Nat}

theorem root_sector (sound : fat.Sound sectors) {i : Nat} (inside : i < fat.rootDirSectors) :
    u32 (fat.rootDirSector + i) = fat.rootDirSector + i ∧ fat.rootDirSector + i < sectors ∧
      fat.rootDirSector + i ≠ 0xFFFFFFFF := sound.rootArea.sector inside

theorem slot_address (fat : FatFs) (i e : Nat) :
    512 * (fat.rootDirSector + i) + 32 * e = fat.slotBase (16 * i + e) := by
  unfold FatFs.slotBase
  omega

/-- The first cluster of a file is below 2^16, so its high word is 0. -/
theorem slotCluster_eq (sound : fat.Sound sectors) {m : Bytes} {i : Nat}
    (member : fat.IsCluster (fat.slotCluster m i)) :
    fat.slotCluster m i = load16 m (fat.slotBase i + 26) := by
  have clusters := sound.clusters
  have upper := member.2
  unfold FatFs.slotCluster at upper ⊢
  omega

end FatFs.Sound

/-- The bytes of an entry in the sector it lies in. -/
theorem sectorAt_slot (fat : FatFs) (m : Bytes) {i e k : Nat} (inside : e < 16) (less : k < 32) :
    sectorAt m (fat.rootDirSector + i) (32 * e + k) = m (fat.slotBase (16 * i + e) + k) := by
  rw [sectorAt_apply (by omega), ← FatFs.Sound.slot_address, Nat.add_assoc]

/-- The first cluster that an entry of a directory sector states. -/
theorem load16_slot (fat : FatFs) (m : Bytes) (i : Nat) :
    load16 (sectorAt m (fat.slotPlace (some i)).1) ((fat.slotPlace (some i)).2 + 26) =
      load16 m (fat.slotBase i + 26) := by
  have split := Nat.div_add_mod i 16
  simp only [FatFs.slotPlace]
  rw [load16_sectorAt (by omega), ← Nat.add_assoc, FatFs.Sound.slot_address, split]

namespace FatFs
variable (fat : FatFs) (m : Bytes)

/-- An entry that was never used. -/
def unused (i : Nat) : Bool := m (fat.slotBase i) = 0

/-- The entries that are looked at in some sectors of the directory: those of each sector
up to the first that was never used. -/
def looked (i n : Nat) : List Nat :=
  (List.range' i n).flatMap fun k => upTo (fat.unused m) (List.range' (16 * k) 16)

theorem looked_succ (i n : Nat) :
    fat.looked m i (n + 1) = upTo (fat.unused m) (List.range' (16 * i) 16) ++ fat.looked m (i + 1) n := by
  rw [looked, List.range'_succ, List.flatMap_cons]
  rfl

theorem mem_looked {i n j : Nat} : j ∈ fat.looked m i n ↔
    16 * i ≤ j ∧ j < 16 * (i + n) ∧ ∀ k, 16 * (j / 16) ≤ k → k < j → m (fat.slotBase k) ≠ 0 := by
  simp only [looked, List.mem_flatMap, mem_upTo_range', unused, decide_eq_false_iff_not, List.mem_range'_1]
  constructor
  · rintro ⟨k, range, lower, upper, before⟩
    obtain rfl : j / 16 = k := by omega
    exact ⟨by omega, by omega, before⟩
  · rintro ⟨lower, upper, before⟩
    exact ⟨j / 16, by omega, by omega, by omega, before⟩

theorem unused_iff {i : Nat} : fat.unused m i = true ↔ m (fat.slotBase i) = 0 := decide_eq_true_iff

end FatFs

/-- The entries of a sector from `e` on, added to the listing. -/
theorem parseEntries_eq (fat : FatFs) (m : Bytes) {i e n : Nat} (files : List FatFileInfo) (whole : e + n = 16) :
    parseEntries (sectorAt m (fat.rootDirSector + i)) (List.range' e n) files =
      (((upTo (fat.unused m) (List.range' (16 * i + e) n)).filter fun j => fat.Visible m j).map
        (fat.slotInfo m)).foldl addInfo files := by
  induction n generalizing e files with
  | zero => rfl
  | succ n ih =>
    have byte (k : Nat) (less : k < 32) := sectorAt_slot fat m (i := i) (show e < 16 by omega) less
    have first := byte 0 (by omega)
    rw [List.range'_succ, List.range'_succ, parseEntries, upTo]
    simp only [Nat.add_zero] at first
    simp only [first, byte 11 (by omega), fat.unused_iff]
    by_cases zero : m (fat.slotBase (16 * i + e)) = 0
    · have hidden : ¬ fat.Visible m (16 * i + e) := fun visible => visible.1.1 zero
      rw [if_pos zero, if_pos zero, List.filter_cons_of_neg (by simpa)]
      rfl
    · rw [if_neg zero, if_neg zero]
      by_cases visible : fat.Visible m (16 * i + e)
      · have info : fatAddFile files (decodeName (window (sectorAt m (fat.rootDirSector + i)) (32 * e) 11))
            (load32 (sectorAt m (fat.rootDirSector + i)) (32 * e + 28))
            (load16 (sectorAt m (fat.rootDirSector + i)) (32 * e + 20) * 65536 +
              load16 (sectorAt m (fat.rootDirSector + i)) (32 * e + 26)) =
            addInfo files (fat.slotInfo m (16 * i + e)) := by
          rw [window_sectorAt (by omega), load32_sectorAt (by omega), load16_sectorAt (by omega),
            load16_sectorAt (by omega),
            ← Nat.add_assoc, ← Nat.add_assoc, ← Nat.add_assoc, FatFs.Sound.slot_address]
          rfl
        rw [if_neg visible.1.2.1, if_neg visible.1.2.2, if_neg (not_not.mpr visible.2),
          List.filter_cons_of_pos (by simpa),
          List.map_cons, List.foldl_cons, info]
        exact ih _ (by omega)
      · rw [List.filter_cons_of_neg (by simpa)]
        have rest := ih files (show e + 1 + n = 16 by omega)
        by_cases deleted : m (fat.slotBase (16 * i + e)) = 0xE5
        · rw [if_pos deleted]
          exact rest
        · by_cases long : m (fat.slotBase (16 * i + e) + 11) = 0x0F
          · rw [if_neg deleted, if_pos long]
            exact rest
          · rw [if_neg deleted, if_neg long, if_pos fun label => visible ⟨⟨zero, deleted, long⟩, label⟩]
            exact rest

/-- The entries of the first sector and those behind it. -/
theorem range'_sector (i n : Nat) :
    List.range' (16 * i) (16 * (n + 1)) = List.range' (16 * i) 16 ++ List.range' (16 * (i + 1)) (16 * n) := by
  rw [show 16 * (n + 1) = 16 + 16 * n by omega, ← List.range'_append]
  congr 2

/-- The scan of sectors of the root directory that can be read. -/
theorem scanRoot16_after {fat : FatFs} {dev : StorageDevice} {m : Bytes} {asked i n : Nat} (files : List FatFileInfo)
    (present : dev.present = true) (read : dev.read = true) (area : fat.RootArea dev.sectors)
    (inside : i + n ≤ fat.rootDirSectors)
    (answered : ∀ k, k < n → dev.answers (asked + k) (fat.rootDirSector + (i + k)) = true) :
    scanRoot16 fat (List.range' i n) (dev.after asked m) files =
      (dev.after (asked + n) m,
        (((fat.looked m i n).filter fun j => fat.Visible m j).map (fat.slotInfo m)).foldl addInfo files) := by
  induction n generalizing asked i files with
  | zero => rfl
  | succ n ih =>
    obtain ⟨lba, onDisk, _⟩ := area.sector (show i < fat.rootDirSectors by omega)
    have first : dev.answers asked (fat.rootDirSector + i) = true := answered 0 (by omega)
    have later (k : Nat) (less : k < n) : dev.answers (asked + 1 + k) (fat.rootDirSector + (i + 1 + k)) = true := by
      have next := answered (k + 1) (by omega)
      rwa [show asked + (k + 1) = asked + 1 + k by omega, show i + (k + 1) = i + 1 + k by omega] at next
    have sector := parseEntries_eq fat m (i := i) files (show 0 + 16 = 16 from rfl)
    rw [← List.range_eq_range', Nat.add_zero] at sector
    rw [List.range'_succ, scanRoot16]
    simp only [lba, StorageDevice.readSector_after present read, first, if_true, fatParseRootDir, area.bytes,
      show 512 / 32 = 16 from rfl, sector]
    rw [ih _ (by omega) later, fat.looked_succ, List.filter_append, List.map_append, List.foldl_append,
      Nat.add_right_comm asked 1 n, Nat.add_assoc asked]


/-- Nothing in use lies behind the first unused entry of an ended directory. -/
theorem FatFs.Ended.looked_filter {fat : FatFs} {m : Bytes} (ended : fat.Ended m) {p : Nat → Bool}
    (none : ∀ j, fat.unused m j = true → p j = false) {i n : Nat} (inside : i + n ≤ fat.rootDirSectors) :
    (fat.looked m i n).filter p = (List.range' (16 * i) (16 * n)).filter p := by
  induction n generalizing i with
  | zero => rfl
  | succ n ih =>
    rw [fat.looked_succ, range'_sector, List.filter_append, List.filter_append, ih (by omega), filter_upTo _ none]
    refine (List.pairwise_lt_range' _).imp_of_mem fun {a b} _ atB less stop => ?_
    have bound := (List.mem_range'_1.mp atB).2
    exact fat.unused_iff m |>.mpr (ended a b less.le (by unfold FatFs.slots; omega) (fat.unused_iff m |>.mp stop))

/-- The listing grows up to 32 files. -/
theorem looked_files (fat : FatFs) (m : Bytes) (ended : fat.Ended m) :
    (((fat.looked m 0 fat.rootDirSectors).filter fun j => fat.Visible m j).map (fat.slotInfo m)).foldl addInfo [] =
      fat.rootFiles m := by
  have none (j : Nat) (stop : fat.unused m j = true) : decide (fat.Visible m j) = false :=
    decide_eq_false fun visible => visible.1.1 ((fat.unused_iff m).mp stop)
  rw [ended.looked_filter none (by omega), foldl_addInfo (by simp), Nat.mul_zero, ← List.range_eq_range']
  rfl

/-- `fat_refresh_root_cache` lists the root directory as it is. -/
theorem fatRefreshRootCache_eq {s : FatState} (works : s.dev.Works) (sound : s.fat.Sound s.dev.sectors)
    (ended : s.fat.Ended s.dev.disk) :
    fatRefreshRootCache s = .ok { s with files := s.fat.rootFiles s.dev.disk } := by
  have scan := scanRoot16_after (m := s.dev.disk) (n := s.fat.rootDirSectors) [] works.present works.read sound.rootArea
    (show 0 + s.fat.rootDirSectors ≤ _ by omega) fun k less =>
      works.reads.answers (by simpa using (sound.root_sector less).2.1) (0 + k)
  rw [looked_files s.fat s.dev.disk ended, works.after, works.after, StorageDevice.withDisk_self,
    ← List.range_eq_range'] at scan
  simp only [fatRefreshRootCache, fatRefreshRootCacheWithin, sound.type, if_true, scan]

theorem fatRefreshRootCache_returns {s : FatState} {result : Except Trap (FatState × Int)}
    (run : result = (fatRefreshRootCache s).map fun s => (s, 0)) (type : s.fat.fatType = 16) :
    ∃ s', result = .ok (s', 0) := by
  rw [run, fatRefreshRootCache, fatRefreshRootCacheWithin, if_pos type]
  exact ⟨_, rfl⟩

/-- The places of the entries differ from the mark of the search. -/
theorem FatFs.RootArea.slotPlace_ne {fat : FatFs} {sectors i : Nat} (area : fat.RootArea sectors)
    (inside : i < fat.slots) : (fat.slotPlace (some i)).1 ≠ 0xFFFFFFFF :=
  (area.sector (Nat.div_lt_of_lt_mul inside)).2.2

theorem slotPlace_some (fat : FatFs) {i e : Nat} (less : e < 16) :
    fat.slotPlace (some (16 * i + e)) = (fat.rootDirSector + i, 32 * e) := by
  simp only [FatFs.slotPlace, Nat.mul_add_div (show 16 > 0 by decide), Nat.div_eq_of_lt less, Nat.mul_add_mod,
    Nat.mod_eq_of_lt less, Nat.add_zero]

/-- The entries of a sector from `e` on, searched for a name. -/
theorem findInSector_eq {fat : FatFs} {m : Bytes} {sectors i e n : Nat} (name : List UInt8) (known : Option Nat)
    (area : fat.RootArea sectors) (inside : i < fat.rootDirSectors) (whole : e + n = 16)
    (placed : ∀ k, known = some k → k < fat.slots) :
    findInSector (sectorAt m (fat.rootDirSector + i)) name (fat.rootDirSector + i) (List.range' e n)
        (fat.slotPlace known) =
      match (upTo (fat.unused m) (List.range' (16 * i + e) n)).find? fun j =>
          fat.InUse m j ∧ fat.slotName m j = name with
      | some j => .inl (fat.slotPlace (some j)).2
      | none => .inr (fat.slotPlace (known.or ((List.range' (16 * i + e) n).find? fun j => fat.Vacant m j))) := by
  induction n generalizing e known with
  | zero => simp [findInSector, upTo]
  | succ n ih =>
    have byte (k : Nat) (less : k < 32) := sectorAt_slot fat m (i := i) (show e < 16 by omega) less
    have first := byte 0 (by omega)
    simp only [Nat.add_zero] at first
    have place := slotPlace_some fat (i := i) (show e < 16 by omega)
    have bound : 16 * i + e < fat.slots := by
      unfold FatFs.slots
      omega
    have raw : window (sectorAt m (fat.rootDirSector + i)) (32 * e) 11 = fat.slotName m (16 * i + e) := by
      rw [window_sectorAt (by omega), FatFs.Sound.slot_address]
      rfl
    rw [List.range'_succ, List.range'_succ, findInSector, upTo]
    simp only [first, byte 11 (by omega), raw, fat.unused_iff]
    by_cases vacant : fat.Vacant m (16 * i + e)
    · have free' : ¬ (fat.InUse m (16 * i + e) ∧ fat.slotName m (16 * i + e) = name) := fun both =>
        vacant.elim both.1.1 both.1.2.1
      have taken :
          (if (fat.slotPlace known).1 = 0xFFFFFFFF then (fat.rootDirSector + i, 32 * e) else fat.slotPlace known) =
          fat.slotPlace (known.or (some (16 * i + e))) := by
        cases known with
        | none => exact (if_pos rfl).trans place.symm
        | some k => exact if_neg (area.slotPlace_ne (placed k rfl))
      have free : m (fat.slotBase (16 * i + e)) = 0 ∨ m (fat.slotBase (16 * i + e)) = 0xE5 := vacant
      rw [if_pos free, taken, List.find?_cons_of_pos (p := fun j => decide (fat.Vacant m j)) (by simpa using vacant)]
      by_cases zero : m (fat.slotBase (16 * i + e)) = 0
      · rw [if_pos zero, if_pos zero, List.find?_cons_of_neg (by simpa using free')]
        rfl
      · have rest := ih (known.or (some (16 * i + e))) (show e + 1 + n = 16 by omega) fun k same => by
          cases known with
          | none => cases same; exact bound
          | some k' => exact placed k same
        rw [if_neg zero, if_neg zero, rest, List.find?_cons_of_neg (by simpa using free')]
        simp only [Option.or_assoc, Option.some_or]
        rfl
    · have rest := ih known (show e + 1 + n = 16 by omega) placed
      have nonzero : m (fat.slotBase (16 * i + e)) ≠ 0 := fun zero => vacant (Or.inl zero)
      have kept : m (fat.slotBase (16 * i + e)) ≠ 0xE5 := fun deleted => vacant (Or.inr deleted)
      rw [if_neg (not_or.mpr ⟨nonzero, kept⟩), if_neg nonzero,
        List.find?_cons_of_neg (p := fun j => decide (fat.Vacant m j)) (by simpa using vacant)]
      by_cases long : m (fat.slotBase (16 * i + e) + 11) = 0x0F
      · have hidden : ¬ fat.InUse m (16 * i + e) := fun use => use.2.2 long
        rw [if_pos long, List.find?_cons_of_neg (by simp [hidden])]
        exact rest
      · rw [if_neg long]
        by_cases same : fat.slotName m (16 * i + e) = name
        · rw [if_pos same, List.find?_cons_of_pos (by simpa using ⟨⟨nonzero, kept, long⟩, same⟩)]
          simp only [place]
        · rw [if_neg same, List.find?_cons_of_neg (by simpa using fun _ => same)]
          exact rest

/-- How many sectors of the directory a search reads or fails to read: `p` of the `n` from
`i` on can be read. -/
def FatFs.searched (fat : FatFs) (m : Bytes) (name : List UInt8) (i n p : Nat) : Nat :=
  match (fat.looked m i p).find? fun j => fat.InUse m j ∧ fat.slotName m j = name with
  | some j => j / 16 + 1 - i
  | none => min (p + 1) n

theorem FatFs.searchRoot_none (fat : FatFs) (m : Bytes) (name : List UInt8) {sectors : Nat} {known : Option Nat}
    (area : fat.RootArea sectors) (placed : ∀ k, known = some k → k < fat.slots) :
    (if (fat.slotPlace known).1 ≠ 0xFFFFFFFF then RootSlot.free (fat.slotPlace known).1 (fat.slotPlace known).2
      else .full) = fat.searchRoot m name [] known := by
  cases known with
  | none => rfl
  | some k =>
    rw [if_pos (area.slotPlace_ne (placed k rfl))]
    rfl

/-- The search reads the sectors of the directory up to the first that cannot be read. -/
theorem findRootLoop_after {fat : FatFs} {dev : StorageDevice} {m : Bytes} {asked i n : Nat} (name : List UInt8)
    (known : Option Nat) (present : dev.present = true) (read : dev.read = true) (area : fat.RootArea dev.sectors)
    (inside : i + n ≤ fat.rootDirSectors) (placed : ∀ k, known = some k → k < fat.slots) {p : Nat}
    (readable : p = leading (fun k => dev.answers (asked + k) (fat.rootDirSector + (i + k))) n) :
    findRootLoop fat name (List.range' i n) (dev.after asked m) (fat.slotPlace known) =
      (dev.after (asked + fat.searched m name i n p) m, fat.searchRoot m name (fat.looked m i p) known) := by
  induction n generalizing asked i known p with
  | zero =>
    rw [leading] at readable
    subst readable
    simp only [List.range'_zero, findRootLoop, fat.searchRoot_none m name area placed]
    rfl
  | succ n ih =>
    obtain ⟨lba, onDisk, _⟩ := area.sector (show i < fat.rootDirSectors by omega)
    rw [List.range'_succ, findRootLoop]
    simp only [lba, StorageDevice.readSector_after present read]
    rw [leading] at readable
    by_cases first : dev.answers asked (fat.rootDirSector + i) = true
    · obtain ⟨q, rfl⟩ : ∃ q, p = q + 1 := by
        rw [if_pos (by simpa using first)] at readable
        exact ⟨_, readable⟩
      have later : q = leading (fun k => dev.answers (asked + 1 + k) (fat.rootDirSector + (i + 1 + k))) n := by
        rw [if_pos (by simpa using first)] at readable
        have same := Nat.succ.inj readable
        simpa only [Nat.add_assoc, Nat.add_comm 1] using same
      have sector := findInSector_eq (m := m) name known area (show i < fat.rootDirSectors by omega)
        (show 0 + 16 = 16 from rfl) placed
      rw [← List.range_eq_range', Nat.add_zero] at sector
      simp only [first, if_true, area.bytes, show 512 / 32 = 16 from rfl, sector, FatFs.searchRoot, FatFs.searched,
        fat.looked_succ, List.find?_append]
      cases hit : (upTo (fat.unused m) (List.range' (16 * i) 16)).find? fun j =>
          fat.InUse m j ∧ fat.slotName m j = name with
      | some j =>
        obtain ⟨lower, upper, _⟩ := mem_upTo_range'.mp (List.mem_of_find?_eq_some hit)
        obtain ⟨e, rfl⟩ := Nat.exists_eq_add_of_le lower
        have count : (16 * i + e) / 16 + 1 - i = 1 := by omega
        simp only [Option.some_or, slotPlace_some fat (show e < 16 by omega), count]
      | none =>
        have vacancy : (upTo (fat.unused m) (List.range' (16 * i) 16)).find? (fun j => decide (fat.Vacant m j)) =
            (List.range' (16 * i) 16).find? fun j => decide (fat.Vacant m j) :=
          find?_upTo _ (fun j stop => decide_eq_true (Or.inl ((fat.unused_iff m).mp stop))) _
        have rest := ih (known.or ((List.range' (16 * i) 16).find? fun j => fat.Vacant m j))
          (show i + 1 + n ≤ _ by omega) (fun k same => by
            rcases Option.or_eq_some_iff.mp same with old | ⟨_, new⟩
            · exact placed k old
            · have range := List.mem_range'_1.mp (List.mem_of_find?_eq_some new)
              unfold FatFs.slots
              omega) later
        simp only [rest, FatFs.searchRoot, FatFs.searched, Option.none_or, vacancy, Option.or_assoc]
        congr 2
        cases found : (fat.looked m (i + 1) q).find? fun j => fat.InUse m j ∧ fat.slotName m j = name with
        | some j =>
          have lower := ((fat.mem_looked m).mp (List.mem_of_find?_eq_some found)).1
          simp only
          omega
        | none =>
          simp only
          omega
    · rw [if_neg (by simpa using first)] at readable
      subst readable
      simp only [first, Bool.false_eq_true, if_false, fat.searchRoot_none m name area placed]
      have none : fat.looked m i 0 = [] := rfl
      simp only [none, FatFs.searched, List.find?_nil]
      congr 2

/-- An entry that was never used is looked at if it is the first of its sector. -/
theorem FatFs.looked_find? (fat : FatFs) (m : Bytes) {p : Nat → Bool}
    (all : ∀ j, fat.unused m j = true → p j = true) (i n : Nat) :
    (fat.looked m i n).find? p = (List.range' (16 * i) (16 * n)).find? p := by
  induction n generalizing i with
  | zero => rfl
  | succ n ih => rw [fat.looked_succ, range'_sector, List.find?_append, List.find?_append, find?_upTo _ all, ih]

/-- How many sectors of the directory a search can read, from its first on. -/
def FatFs.readFront (fat : FatFs) (dev : StorageDevice) : Nat :=
  leading (fun k => dev.answers k (fat.rootDirSector + k)) fat.rootDirSectors

/-- `fat_find_root_entry` searches the sectors of the directory up to the first that cannot
be read. -/
theorem fatFindRootEntry_after {fat : FatFs} {dev : StorageDevice} (present : dev.present = true)
    (read : dev.read = true) (area : fat.RootArea dev.sectors) (ended : fat.Ended dev.disk) (name : List UInt8) :
    fatFindRootEntry fat dev name =
      (dev.after (fat.searched dev.disk name 0 fat.rootDirSectors (fat.readFront dev)) dev.disk,
        fat.searchRoot dev.disk name (List.range (16 * fat.readFront dev)) none) := by
  have front : fat.readFront dev = leading (fun k => dev.answers (0 + k) (fat.rootDirSector + (0 + k)))
      fat.rootDirSectors := by
    simp only [Nat.zero_add]
    rfl
  have within : 0 + fat.readFront dev ≤ fat.rootDirSectors := by
    rw [Nat.zero_add]
    exact leading_le _ _
  have loop := findRootLoop_after (m := dev.disk) name none present read area
    (show 0 + fat.rootDirSectors ≤ _ by omega) (by simp) front
  have hits : (fat.looked dev.disk 0 (fat.readFront dev)).find?
      (fun j => fat.InUse dev.disk j ∧ fat.slotName dev.disk j = name) =
        (List.range (16 * fat.readFront dev)).find? fun j => fat.InUse dev.disk j ∧ fat.slotName dev.disk j = name := by
    have lists := ended.looked_filter (p := fun j => fat.InUse dev.disk j ∧ fat.slotName dev.disk j = name)
      (fun j stop => decide_eq_false fun both => both.1.1 ((fat.unused_iff _).mp stop)) within
    rw [← List.head?_filter, lists, List.head?_filter, Nat.mul_zero, ← List.range_eq_range']
  have vacancies := fat.looked_find? dev.disk (p := fun j => fat.Vacant dev.disk j)
    (fun j stop => decide_eq_true (Or.inl ((fat.unused_iff _).mp stop))) 0 (fat.readFront dev)
  rw [Nat.mul_zero, ← List.range_eq_range'] at vacancies
  rw [Nat.zero_add, StorageDevice.after_zero, ← List.range_eq_range', FatFs.searchRoot, hits, vacancies] at loop
  exact loop

/-- On a working device it searches the whole directory. -/
theorem fatFindRootEntry_eq {fat : FatFs} {dev : StorageDevice} (works : dev.Works) (sound : fat.Sound dev.sectors)
    (ended : fat.Ended dev.disk) (name : List UInt8) :
    fatFindRootEntry fat dev name = (dev, fat.searchRoot dev.disk name (List.range fat.slots) none) := by
  have whole : fat.readFront dev = fat.rootDirSectors :=
    leading_all fun k less => works.reads.answers (sound.root_sector less).2.1 k
  have search := fatFindRootEntry_after works.present works.read sound.rootArea ended name
  rwa [works.after, StorageDevice.withDisk_self, whole] at search

/-- What the search of the first entries means. -/
theorem searchRoot_cases (fat : FatFs) (m : Bytes) (name : List UInt8) (n : Nat) :
    (∃ i, i < n ∧ fat.InUse m i ∧ fat.slotName m i = name ∧
      fat.searchRoot m name (List.range n) none = .found (fat.slotPlace (some i)).1 (fat.slotPlace (some i)).2) ∨
    (∀ j, j < n → fat.InUse m j → fat.slotName m j ≠ name) ∧
      ((∃ i, i < n ∧ fat.Vacant m i ∧ (∀ j, j < i → ¬ fat.Vacant m j) ∧
        fat.searchRoot m name (List.range n) none = .free (fat.slotPlace (some i)).1 (fat.slotPlace (some i)).2) ∨
      (∀ i, i < n → ¬ fat.Vacant m i) ∧ fat.searchRoot m name (List.range n) none = .full) := by
  unfold FatFs.searchRoot
  cases hit : (List.range n).find? fun i => fat.InUse m i ∧ fat.slotName m i = name with
  | some i =>
    have both : fat.InUse m i ∧ fat.slotName m i = name := by simpa using List.find?_some hit
    exact Or.inl ⟨i, List.mem_range.mp (List.mem_of_find?_eq_some hit), both.1, both.2, rfl⟩
  | none =>
    refine Or.inr ⟨fun j less use same => ?_, ?_⟩
    · have miss := List.find?_eq_none.mp hit j (List.mem_range.mpr less)
      exact miss (decide_eq_true ⟨use, same⟩)
    · cases vacancy : (List.range n).find? fun i => fat.Vacant m i with
      | some i =>
        obtain ⟨vacant, member, before⟩ := List.find?_range_eq_some.mp vacancy
        exact Or.inl ⟨i, List.mem_range.mp member, of_decide_eq_true vacant,
          fun j less vacantJ => by simpa [vacantJ] using before j less, rfl⟩
      | none =>
        refine Or.inr ⟨fun i less vacant => ?_, rfl⟩
        exact List.find?_eq_none.mp vacancy i (List.mem_range.mpr less) (decide_eq_true vacant)

end LearningOS
