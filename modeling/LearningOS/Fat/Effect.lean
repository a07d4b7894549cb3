import LearningOS.Fat.Mount
import LearningOS.Fat.Tame
import LearningOS.Run.History

namespace LearningOS
open ByteStore History

namespace FatFs
variable (fat : FatFs) (m : Bytes)

/-- The listing that a scan makes of a root directory, sector after sector. -/
def listing : List FatFileInfo :=
  (List.range fat.rootDirSectors).foldl
    (fun files i => fatParseRootDir files (sectorAt m (fat.rootDirSector + i)) 16) []

/-- The first cluster that `fat_write_file` takes from an entry. -/
def oldCluster (i : Nat) : Nat := load16 m (fat.slotBase i + 26)

/-- A closed set of clusters that the entries in use do not leave either. -/
structure Rooted (member : Nat → Prop) : Prop extends fat.Closed member m where
  roots : ∀ i, i < fat.slots → fat.InUse m i → 2 ≤ fat.oldCluster m i → fat.oldCluster m i < 0xFFF8 →
    member (fat.oldCluster m i)

/-- The places of the search: its mark, or an entry. -/
def Slotted (place : Nat × Nat) : Prop := place.1 = 0xFFFFFFFF ∨ ∃ i, i < fat.slots ∧ place = fat.slotPlace (some i)

/-- What a search of the root directory may return. -/
def SlotOf : RootSlot → Prop
  | .found sector offset => ∃ i, i < fat.slots ∧ fat.InUse m i ∧ (sector, offset) = fat.slotPlace (some i)
  | .free sector offset => ∃ i, i < fat.slots ∧ (sector, offset) = fat.slotPlace (some i)
  | .full => True

end FatFs

variable {fat : FatFs} {member joined : Nat → Prop} {dev dev' : StorageDevice} {m m' : Bytes}

namespace FatFs.Sound
variable {sectors : Nat}

/-- The root directory holds no byte of the clusters. -/
theorem root_apart (sound : fat.Sound sectors) {x : Nat} (lower : 512 * fat.rootDirSector ≤ x)
    (upper : x < 512 * fat.firstDataSector) : ¬ fat.ClusterByte x := by
  have table := sound.table
  have fats := sound.fats
  unfold FatFs.ClusterByte FatFs.tableBase
  omega

theorem slot_bounds (sound : fat.Sound sectors) {i : Nat} (inside : i < fat.slots) :
    512 * fat.rootDirSector ≤ fat.slotBase i ∧ fat.slotBase i + 32 ≤ 512 * fat.firstDataSector := by
  have root := sound.root
  unfold FatFs.slots at inside
  unfold FatFs.slotBase
  omega

/-- The listing depends on the root directory only. -/
theorem listing_congr (sound : fat.Sound sectors)
    (same : ∀ x, 512 * fat.rootDirSector ≤ x → x < 512 * fat.firstDataSector → m' x = m x) :
    fat.listing m' = fat.listing m := by
  have root := sound.root
  refine List.foldl_ext _ _ _ fun files i atI => ?_
  have less := List.mem_range.mp atI
  have sector : sectorAt m' (fat.rootDirSector + i) = sectorAt m (fat.rootDirSector + i) :=
    sectorAt_congr fun x lower upper => same x (by omega) (by omega)
  simp only [sector]

end FatFs.Sound

/-- The entries of a directory that two disks agree on. -/
theorem FatFs.slot_congr (fat : FatFs) {i : Nat}
    (same : ∀ k, k < 32 → m' (fat.slotBase i + k) = m (fat.slotBase i + k)) :
    (fat.InUse m' i ↔ fat.InUse m i) ∧ fat.oldCluster m' i = fat.oldCluster m i := by
  have first := same 0 (by decide)
  rw [Nat.add_zero] at first
  refine ⟨by simp only [FatFs.InUse, first, same 11 (by decide)], load16_congr fun x lower upper => ?_⟩
  obtain ⟨k, rfl⟩ := Nat.exists_eq_add_of_le lower
  rw [Nat.add_assoc]
  exact same (26 + k) (by omega)

namespace FatFs.Keeps

theorem root (keeps : fat.Keeps member dev dev') (sound : fat.Sound dev.sectors) {x : Nat}
    (lower : 512 * fat.rootDirSector ≤ x) (upper : x < 512 * fat.firstDataSector) : dev'.disk x = dev.disk x :=
  keeps.same x (sound.root_apart lower upper)

/-- The entries stay as they are, and a larger set holds their clusters too. -/
theorem rooted (keeps : fat.Keeps joined dev dev') (sound : fat.Sound dev.sectors)
    (rooted : fat.Rooted dev.disk member) (more : ∀ c, member c → joined c) : fat.Rooted dev'.disk joined := by
  refine ⟨keeps.closed, fun i inside => ?_⟩
  obtain ⟨lower, upper⟩ := sound.slot_bounds inside
  obtain ⟨use, old⟩ := fat.slot_congr fun k less =>
    keeps.root sound (show 512 * fat.rootDirSector ≤ fat.slotBase i + k by omega) (by omega)
  rw [use, old]
  exact fun used low high => more _ (rooted.roots i inside used low high)

end FatFs.Keeps

/-- The entries of a sector, searched for a name. -/
theorem findInSector_places {i : Nat} {es : List Nat} {known : Nat × Nat} (name : List UInt8)
    (inside : i < fat.rootDirSectors) (bound : ∀ e ∈ es, e < 16) (slotted : fat.Slotted known) :
    (∃ ent k, findInSector (sectorAt m (fat.rootDirSector + i)) name (fat.rootDirSector + i) es known = .inl ent ∧
      k < fat.slots ∧ fat.InUse m k ∧ (fat.rootDirSector + i, ent) = fat.slotPlace (some k)) ∨
    ∃ free, findInSector (sectorAt m (fat.rootDirSector + i)) name (fat.rootDirSector + i) es known = .inr free ∧
      fat.Slotted free := by
  induction es generalizing known with
  | nil => exact Or.inr ⟨known, rfl, slotted⟩
  | cons e rest ih =>
    have less := bound e List.mem_cons_self
    have later (known : Nat × Nat) (slotted : fat.Slotted known) :=
      ih (fun d atD => bound d (List.mem_cons_of_mem e atD)) slotted
    have byte (k : Nat) (small : k < 32) := sectorAt_slot fat m (i := i) less small
    have first := byte 0 (by decide)
    have place := slotPlace_some fat (i := i) less
    have slot : 16 * i + e < fat.slots := by
      unfold FatFs.slots
      omega
    simp only [Nat.add_zero] at first
    simp only [findInSector, first, byte 11 (by decide)]
    split
    · have taken : fat.Slotted
          (if known.1 = 0xFFFFFFFF then (fat.rootDirSector + i, 32 * e) else known) := by
        split
        · exact Or.inr ⟨16 * i + e, slot, place.symm⟩
        · exact slotted
      split
      · exact Or.inr ⟨_, rfl, taken⟩
      · exact later _ taken
    · rename_i used
      split
      · exact later known slotted
      · rename_i short
        split
        · exact Or.inl ⟨32 * e, 16 * i + e, rfl, slot,
            ⟨fun zero => used (Or.inl zero), fun deleted => used (Or.inr deleted),
            short⟩, place.symm⟩
        · exact later known slotted

section
variable (sound : fat.Sound dev.sectors) (reads : dev.Reads)
include sound reads

theorem findRootLoop_places {is : List Nat} {known : Nat × Nat} (name : List UInt8)
    (inside : ∀ i ∈ is, i < fat.rootDirSectors) (slotted : fat.Slotted known) :
    ∃ dev' slot, findRootLoop fat name is dev known = (dev', slot) ∧ dev.Rests dev' ∧ fat.SlotOf dev.disk slot := by
  induction is generalizing dev known with
  | nil =>
    refine ⟨dev, _, rfl, reads.rests, ?_⟩
    split
    · rename_i place
      exact slotted.resolve_left place
    · trivial
  | cons i rest ih =>
    have less := inside i List.mem_cons_self
    obtain ⟨lba, onDisk, _⟩ := sound.root_sector less
    simp only [findRootLoop, lba, reads.readSector_eq onDisk, sound.bytes]
    rcases findInSector_places name less (fun e atE => List.mem_range.mp atE) slotted with
      ⟨ent, k, hit, slot, use, place⟩ | ⟨free, miss, slotted'⟩
    · exact ⟨dev.tick, .found (fat.rootDirSector + i) ent, by simp only [hit], reads.tick, k, slot, use, place⟩
    · have ticked := reads.tick
      obtain ⟨dev', slot, loop, rests, slotOf⟩ := ih (ticked.sectors ▸ sound) ticked.reads
        (fun j atJ => inside j (List.mem_cons_of_mem i atJ)) slotted'
      exact ⟨dev', slot, by simp only [miss, loop], ticked.trans rests, slotOf⟩

end

/-- The listing shows entries that the scan has looked at. -/
theorem FatFs.listing_eq (fat : FatFs) (m : Bytes) : fat.listing m =
    (((fat.looked m 0 fat.rootDirSectors).filter fun j => fat.Visible m j).map (fat.slotInfo m)).take 32 := by
  have scan (i n : Nat) (files : List FatFileInfo) : (List.range' i n).foldl
      (fun files i => fatParseRootDir files (sectorAt m (fat.rootDirSector + i)) 16) files =
        (((fat.looked m i n).filter fun j => fat.Visible m j).map (fat.slotInfo m)).foldl addInfo files := by
    induction n generalizing i files with
    | zero => rfl
    | succ n ih =>
      have sector := parseEntries_eq fat m (i := i) files (show 0 + 16 = 16 from rfl)
      rw [← List.range_eq_range', Nat.add_zero] at sector
      rw [List.range'_succ, List.foldl_cons, fatParseRootDir, sector, ih, fat.looked_succ, List.filter_append,
        List.map_append, List.foldl_append]
  have whole := scan 0 fat.rootDirSectors []
  rw [foldl_addInfo (by simp), ← List.range_eq_range'] at whole
  exact whole

/-- `fat_refresh_root_cache` makes the listing of the disk as it is. -/
theorem fatRefreshRootCache_reads {s : FatState} (type : s.fat.fatType = 16) (area : s.fat.RootArea s.dev.sectors)
    (reads : s.dev.Reads) :
    ∃ dev', fatRefreshRootCache s = .ok ⟨dev', s.fat, s.fat.listing s.dev.disk⟩ ∧ s.dev.Rests dev' := by
  have scan := scanRoot16_after (m := s.dev.disk) (n := s.fat.rootDirSectors) [] reads.present reads.read area
    (show 0 + s.fat.rootDirSectors ≤ _ by omega) fun k less =>
      reads.answers (by simpa using (area.sector less).2.1) (0 + k)
  rw [foldl_addInfo (by simp), ← List.range_eq_range', StorageDevice.after_zero] at scan
  refine ⟨s.dev.after (0 + s.fat.rootDirSectors) s.dev.disk, ?_, reads.after _⟩
  simp only [fatRefreshRootCache, fatRefreshRootCacheWithin, type, if_true, scan, s.fat.listing_eq]
  rfl

/-- Mounting a volume lists its root directory, whatever was mounted before. -/
theorem fatInit_reads {s : FatState} (boot : fatGeometry (sectorAt s.dev.disk 0) = .ok fat) (type : fat.fatType = 16)
    (area : fat.RootArea s.dev.sectors) (first : 0 < s.dev.sectors) (reads : s.dev.Reads) :
    ∃ dev', fatInit s = .ok ⟨dev', fat, fat.listing s.dev.disk⟩ ∧ s.dev.Rests dev' := by
  have ticked := reads.tick
  obtain ⟨dev', refresh, rests⟩ :=
    fatRefreshRootCache_reads (s := { s with dev := s.dev.tick, fat }) type area ticked.reads
  refine ⟨dev', ?_, ticked.trans rests⟩
  rw [fatInit, fatInitWithin, if_neg (by simp [reads.present, reads.read]), reads.readSector_eq first]
  change (fatGeometry (sectorAt s.dev.disk 0) >>= _) = _
  rw [boot]
  change (if fat.fatType = 0 then _ else fatRefreshRootCache { s with dev := s.dev.tick, fat }) = _
  rw [if_neg (by rw [type]; decide)]
  exact refresh

theorem FatLayout.fatInit_reads {s : FatState} (layout : FatLayout s.dev fat) (reads : s.dev.Reads) :
    ∃ dev', fatInit s = .ok ⟨dev', fat, fat.listing s.dev.disk⟩ ∧ s.dev.Rests dev' := by
  have sound := layout.sound
  have data := sound.data
  have many := Nat.mul_le_mul sound.many sound.cluster
  exact LearningOS.fatInit_reads layout.boot layout.type sound.rootArea (by omega) reads

/-- What calls of `fat_write_file` do to a volume: whatever their results, they change
the clusters and the root directory only, and the listing is either made anew or was
made of a root directory that is still the same. -/
structure WriteEffect (s s' : FatState) : Prop where
  fat : s'.fat = s.fat
  reads : s'.dev.Reads
  sectors : s'.dev.sectors = s.dev.sectors
  same : ∀ x, ¬ s.fat.ClusterByte x → x < 512 * s.fat.rootDirSector → s'.dev.disk x = s.dev.disk x
  rooted : ∃ member, s.fat.Rooted s'.dev.disk member
  listed : s'.files = s.fat.listing s'.dev.disk ∨
    s'.files = s.files ∧ s.fat.listing s'.dev.disk = s.fat.listing s.dev.disk

namespace WriteEffect
variable {s s' s'' : FatState}

theorem trans (effect : WriteEffect s s') (later : WriteEffect s' s'') : WriteEffect s s'' := by
  obtain ⟨fat', reads', sectors', same', rooted', listed'⟩ := later
  rw [effect.fat] at fat' same' rooted' listed'
  refine ⟨fat', reads', sectors'.trans effect.sectors, fun x outside before => ?_, rooted', ?_⟩
  · exact (same' x outside before).trans (effect.same x outside before)
  · rcases listed' with new | ⟨files, kept⟩
    · exact Or.inl new
    · rw [files, kept]
      exact effect.listed

/-- A call that ends before the root directory is written. -/
theorem stops (sound : s.fat.Sound s.dev.sectors) (rooted : s.fat.Rooted s.dev.disk member)
    (more : ∀ c, member c → joined c) (keeps : s.fat.Keeps joined s.dev dev') :
    WriteEffect s { s with dev := dev' } := by
  refine ⟨rfl, keeps.reads, keeps.sectors, fun x outside _ => keeps.same x outside, ⟨joined, ?_⟩, Or.inr ⟨rfl, ?_⟩⟩
  · exact keeps.rooted sound rooted more
  · exact sound.listing_congr fun x lower upper => keeps.root sound lower upper

end WriteEffect

/-- A new entry links to a cluster of the set, or to none. -/
theorem FatFs.Rooted.fill {i first size sectors : Nat} {name : List UInt8} (rooted : fat.Rooted m member)
    (sound : fat.Sound sectors) (eleven : name.length = 11)
    (start : first = 0 ∨ member first) : fat.Rooted (fillEntry m (fat.slotBase i) name first size) member := by
  have clusters := sound.clusters
  refine ⟨rooted.toClosed.congr fun c cluster => ?_, fun j less => ?_⟩
  · have before := sound.entry_before_root cluster.2 i
    exact word_congr fun x _ _ => fillEntry_outside eleven (Or.inl (by omega))
  · by_cases same : j = i
    · intro _ low high
      rw [same, FatFs.oldCluster, (fillEntry_fields m (fat.slotBase i) first size eleven).2.2.2.1] at low high ⊢
      rcases start with zero | atFirst
      · rw [zero] at low
        omega
      · have upper := (rooted.inside first atFirst).2
        rw [Nat.mod_eq_of_lt (by omega)]
        exact atFirst
    · have apart (k : Nat) (small : k < 32) :
          fillEntry m (fat.slotBase i) name first size (fat.slotBase j + k) = m (fat.slotBase j + k) :=
        fillEntry_outside eleven (by unfold FatFs.slotBase; omega)
      obtain ⟨use, old⟩ := fat.slot_congr apart
      rw [use, old]
      exact rooted.roots j less

/-- Only an entry in use has its clusters freed. -/
theorem freeOld_keeps {found : Bool} {i : Nat} (sound : fat.Sound dev.sectors) (reads : dev.Reads)
    (rooted : fat.Rooted dev.disk member) (inside : i < fat.slots) (use : found = true → fat.InUse dev.disk i)
    (run : freeOld fat dev found (fat.oldCluster dev.disk i) = .ok dev') : fat.Keeps member dev dev' := by
  unfold freeOld at run
  split at run
  · rename_i both
    exact freeChainLoop_keeps sound reads rooted.toClosed (rooted.roots i inside (use both.1)) run
  · cases Except.ok.inj run
    exact rooted.toClosed.keeps reads.rests

section
variable {s s' : FatState} {ret : Int} (sound : s.fat.Sound s.dev.sectors) (reads : s.dev.Reads)
  (rooted : s.fat.Rooted s.dev.disk member)
include sound reads rooted

theorem replaceEntry_effect {found : Bool} {i : Nat} {name buffer : List UInt8} (inside : i < s.fat.slots)
    (use : found = true → s.fat.InUse s.dev.disk i) (eleven : name.length = 11)
    (run : replaceEntry s found name (s.fat.slotPlace (some i)).1 (s.fat.slotPlace (some i)).2 buffer = .ok (s', ret)) :
    WriteEffect s s' := by
  have onDisk : (s.fat.slotPlace (some i)).1 < s.dev.sectors := (sound.root_sector (Nat.div_lt_of_lt_mul inside)).2.1
  have old : load16 (sectorAt s.dev.disk (s.fat.slotPlace (some i)).1) ((s.fat.slotPlace (some i)).2 + 26) =
      s.fat.oldCluster s.dev.disk i := load16_slot s.fat s.dev.disk i
  have ticked := reads.tick
  simp only [replaceEntry, reads.readSector_eq onDisk, old] at run
  obtain ⟨dev₁, freeing, run⟩ := Faults.bind_ok run
  have freed := (rooted.toClosed.keeps ticked).trans (freeOld_keeps sound ticked.reads rooted inside use freeing)
  obtain ⟨⟨dev₂, result⟩, storing, run⟩ := Faults.bind_ok run
  obtain ⟨joined, more, placed, first⟩ := storeData_keeps (freed.sound sound) freed.reads freed.closed storing
  have keeps := freed.trans placed
  cases result with
  | none =>
    cases Except.ok.inj run
    exact .stops sound rooted more keeps
  | some f =>
    obtain ⟨dev₃, done, write, reads₃, sectors₃, disk₃⟩ := keeps.reads.writeSector_cases
      (s.fat.slotPlace (some i)).1 (fillEntry (sectorAt s.dev.disk (s.fat.slotPlace (some i)).1)
        (s.fat.slotPlace (some i)).2 name f buffer.length)
    simp only [write] at run
    cases done with
    | false =>
      cases Except.ok.inj run
      exact .stops sound rooted more (keeps.rests ⟨reads₃, sectors₃, disk₃⟩)
    | true =>
      obtain ⟨lower, upper⟩ := sound.slot_bounds inside
      have sector : sectorAt s.dev.disk (s.fat.slotPlace (some i)).1 =
          sectorAt dev₂.disk (s.fat.slotPlace (some i)).1 := by
        have root := sound.root
        have less : i / 16 < s.fat.rootDirSectors := Nat.div_lt_of_lt_mul inside
        refine (sectorAt_congr fun x low high => ?_).symm
        simp only [FatFs.slotPlace] at low high
        exact keeps.root sound (by omega) (by omega)
      rw [if_pos rfl, putSector_slot eleven sector] at disk₃
      have sound₃ : s.fat.Sound dev₃.sectors := by
        rw [sectors₃]
        exact keeps.sound sound
      obtain ⟨dev₄, refresh, rests⟩ := fatRefreshRootCache_reads (s := { s with dev := dev₃ }) sound.type
        sound₃.rootArea reads₃
      simp only [refresh, Except.map] at run
      cases Except.ok.inj run
      refine ⟨rfl, rests.reads, (rests.sectors.trans sectors₃).trans keeps.sectors, fun x outside before => ?_,
        ⟨joined, ?_⟩, Or.inl ?_⟩
      · change dev₄.disk x = s.dev.disk x
        rw [rests.disk]
        change dev₃.disk x = s.dev.disk x
        rw [disk₃, fillEntry_outside eleven (Or.inl (by omega))]
        exact keeps.same x outside
      · change s.fat.Rooted dev₄.disk joined
        rw [rests.disk]
        change s.fat.Rooted dev₃.disk joined
        rw [disk₃]
        exact (keeps.rooted sound rooted more).fill sound eleven (first f rfl)
      · change s.fat.listing dev₃.disk = s.fat.listing dev₄.disk
        rw [rests.disk]

/-- One call, whatever it returns. -/
theorem fatWriteFile_effect {name buffer : Option (List UInt8)}
    (run : fatWriteFile s name buffer = .ok (s', ret)) : WriteEffect s s' := by
  have unchanged : WriteEffect s s := .stops sound rooted (fun _ atC => atC) (rooted.toClosed.keeps reads.rests)
  unfold fatWriteFile at run
  split at run
  · split at run
    · cases Except.ok.inj run
      exact unchanged
    · split at run
      · cases Except.ok.inj run
        exact unchanged
      · split at run
        · cases Except.ok.inj run
          exact unchanged
        · rename_i raw format
          have eleven := fatFormatName_length format
          obtain ⟨dev₁, slot, search, rests, slotOf⟩ := findRootLoop_places sound reads raw
            (fun i atI => List.mem_range.mp atI) (Or.inl rfl : s.fat.Slotted (0xFFFFFFFF, 0xFFFFFFFF))
          have keeps := rooted.toClosed.keeps rests
          have sound₁ : s.fat.Sound dev₁.sectors := keeps.sound sound
          have rooted₁ := keeps.rooted sound rooted fun _ atC => atC
          have first : WriteEffect s { s with dev := dev₁ } := .stops sound rooted (fun _ atC => atC) keeps
          simp only [fatFindRootEntry, search] at run
          cases slot with
          | full =>
            cases Except.ok.inj run
            exact first
          | found sector offset =>
            obtain ⟨i, inside, use, place⟩ := slotOf
            rw [← rests.disk] at use
            cases place
            exact first.trans (replaceEntry_effect (s := { s with dev := dev₁ }) sound₁ rests.reads rooted₁ inside
              (fun _ => use) eleven run)
          | free sector offset =>
            obtain ⟨i, inside, place⟩ := slotOf
            cases place
            exact first.trans (replaceEntry_effect (s := { s with dev := dev₁ }) sound₁ rests.reads rooted₁ inside
              (by simp) eleven run)
  · cases Except.ok.inj run
    exact unchanged

end

/-- One call of `fat_write_file` that returns. -/
def WriteStep (s : FatState) (call : Option (List UInt8) × Option (List UInt8)) (s' : FatState) : Prop :=
  ∃ ret, fatWriteFile s call.1 call.2 = .ok (s', ret)

/-- Any sequence of calls. -/
theorem writes_effect {s s' : FatState} {calls : List (FatState × Option (List UInt8) × Option (List UInt8))}
    (sound : s.fat.Sound s.dev.sectors) (reads : s.dev.Reads) (rooted : s.fat.Rooted s.dev.disk member)
    (path : Path WriteStep s calls s') : WriteEffect s s' := by
  induction path with
  | done => exact .stops sound rooted (fun _ atC => atC) (rooted.toClosed.keeps reads.rests)
  | next _ step ih =>
    obtain ⟨ret, run⟩ := step
    obtain ⟨now, rooted'⟩ := ih.rooted
    have sound' := ih.sectors ▸ sound
    rw [← ih.fat] at rooted' sound'
    exact ih.trans (fatWriteFile_effect sound' ih.reads rooted' run)

end LearningOS
