import LearningOS.Fat.Replace

namespace LearningOS
open ByteStore Links

namespace FatFs.Sound
variable {fat : FatFs} {sectors : Nat} {m : Bytes} {first : Nat} {buffer : List UInt8} {cs : List Nat}

/-- Freeing clusters changes the FAT only. -/
theorem freed_behind (sound : fat.Sound sectors) (inside : ∀ c ∈ cs, fat.IsCluster c) {x : Nat}
    (root : fat.slotBase 0 ≤ x) : fat.freed m cs x = m x := by
  refine setWords_outside fun p member => ?_
  obtain ⟨c, atC, rfl⟩ := List.mem_map.mp member
  have before := sound.entry_before_root (inside c atC).2 0
  change x < fat.tableBase + 2 * c ∨ fat.tableBase + 2 * c + 2 ≤ x
  omega

/-- The clusters of a run end where the next one would start. -/
theorem clusterBase_add (fat : FatFs) {c : Nat} (two : 2 ≤ c) (n : Nat) :
    fat.clusterBase (c + n) = fat.clusterBase c + n * fat.clusterBytes := by
  induction n with
  | zero => simp
  | succ n ih => rw [← Nat.add_assoc, clusterBase_succ fat (by omega), ih, Nat.succ_mul, Nat.add_assoc]

/-- Storing a file changes the FAT and the clusters of its run only. -/
theorem stored_behind (sound : fat.Sound sectors) (placed : fat.Placed m buffer first)
    (noWrap : buffer.length + fat.clusterBytes ≤ 2 ^ 32) {x : Nat} (root : fat.slotBase 0 ≤ x)
    (outside : buffer ≠ [] → x < fat.clusterBase first ∨
      fat.clusterBase (first + fat.clustersNeeded buffer.length) ≤ x) : fat.stored m first buffer x = m x := by
  rcases placed with ⟨empty, _⟩ | ⟨filled, two, upper, _⟩
  · rw [FatFs.stored, if_pos empty]
  · obtain ⟨some, fits⟩ := sound.clustersNeeded_fits (List.length_pos_iff.mpr filled) noWrap
    have around := outside filled
    rw [clusterBase_add fat two] at around
    have padded : (padSector buffer).length ≤ fat.clustersNeeded buffer.length * fat.clusterBytes := by
      unfold FatFs.clusterBytes at fits ⊢
      rw [Nat.mul_left_comm] at fits ⊢
      rw [padSector_length]
      omega
    rw [FatFs.stored, if_neg filled, paste_outside (by omega)]
    refine setWords_outside fun p member => ?_
    obtain ⟨k, less, rfl⟩ := List.mem_map.mp member
    have bound := List.mem_range.mp less
    have before := sound.entry_before_root (show first + k < fat.totalClusters + 2 by omega) 0
    change x < fat.tableBase + 2 * (first + k) ∨ fat.tableBase + 2 * (first + k) + 2 ≤ x
    omega

/-- Storing a file changes no FAT entry outside its run. -/
theorem entry_stored (sound : fat.Sound sectors) {c : Nat} (bound : c < fat.totalClusters + 2)
    (outside : buffer ≠ [] → c < first ∨ first + fat.clustersNeeded buffer.length ≤ c) :
    fat.entry (fat.stored m first buffer) c = fat.entry m c := by
  unfold FatFs.stored
  split
  · rfl
  · rename_i filled
    rw [sound.entry_paste bound]
    refine word_setWords_other ?_
    rw [runLinks_fst]
    intro member
    obtain ⟨k, less, rfl⟩ := List.mem_range'.mp member
    have away := outside filled
    omega

/-- A stored file is a chain that holds its bytes. -/
theorem stored_chain (sound : fat.Sound sectors) (filled : buffer ≠ []) (placed : fat.Placed m buffer first)
    (noWrap : buffer.length + fat.clusterBytes ≤ 2 ^ 32) :
    fat.Chain (fat.stored m first buffer) first (List.range' first (fat.clustersNeeded buffer.length)) ∧
      window (fat.stored m first buffer) (fat.clusterBase first) buffer.length = buffer := by
  rcases placed with ⟨empty, _⟩ | ⟨_, two, upper, _⟩
  · exact absurd empty filled
  · obtain ⟨some, fits⟩ := sound.clustersNeeded_fits (List.length_pos_iff.mpr filled) noWrap
    rw [FatFs.stored, if_neg filled]
    refine ⟨(runLinks_chain m two some (by omega) sound.clusters).congr fun c member => ?_, ?_⟩
    · obtain ⟨k, less, rfl⟩ := List.mem_range'.mp member
      exact sound.entry_paste (by omega)
    · have whole := window_paste_same (setWords m fat.tableBase (runLinks first (fat.clustersNeeded buffer.length)))
        (fat.clusterBase first) (padSector buffer)
      have cut := congrArg (List.take buffer.length) whole
      rw [take_window, Nat.min_eq_left (by rw [padSector_length]; omega)] at cut
      rw [cut, padSector, List.take_left]

end FatFs.Sound

/-- The bytes of a run of clusters. -/
theorem clusterData_run (fat : FatFs) (m : Bytes) {first : Nat} (two : 2 ≤ first) (n : Nat) :
    (List.range' first n).flatMap (fat.clusterData m) = window m (fat.clusterBase first) (n * fat.clusterBytes) := by
  induction n generalizing first with
  | zero => simp [window]
  | succ n ih =>
    rw [List.range'_succ, List.flatMap_cons, ih (by omega), FatFs.Sound.clusterBase_succ fat two, Nat.succ_mul,
      Nat.add_comm (n * fat.clusterBytes), window_add]
    rfl

/-- Two disks whose root directories differ in one entry at most. -/
def FatFs.SameSlots (fat : FatFs) (m m' : Bytes) (i : Nat) : Prop :=
  ∀ j, j < fat.slots → j ≠ i → ∀ k, k < 32 → m' (fat.slotBase j + k) = m (fat.slotBase j + k)

namespace FatFs.SameSlots
variable {fat : FatFs} {m m' : Bytes} {i j : Nat}

theorem byte (same : fat.SameSlots m m' i) (inside : j < fat.slots) (other : j ≠ i) :
    m' (fat.slotBase j) = m (fat.slotBase j) := same j inside other 0 (by decide)

theorem inUse (same : fat.SameSlots m m' i) (inside : j < fat.slots) (other : j ≠ i) :
    fat.InUse m' j ↔ fat.InUse m j := by
  simp only [FatFs.InUse, same.byte inside other, same j inside other 11 (by decide)]

theorem visible (same : fat.SameSlots m m' i) (inside : j < fat.slots) (other : j ≠ i) :
    fat.Visible m' j ↔ fat.Visible m j := by
  simp only [FatFs.Visible, same.inUse inside other, same j inside other 11 (by decide)]

theorem slotName (same : fat.SameSlots m m' i) (inside : j < fat.slots) (other : j ≠ i) :
    fat.slotName m' j = fat.slotName m j := by
  refine window_congr fun x lower upper => ?_
  obtain ⟨k, rfl⟩ := Nat.exists_eq_add_of_le lower
  exact same j inside other k (by omega)

theorem slotInfo_name (same : fat.SameSlots m m' i) (inside : j < fat.slots) (other : j ≠ i) :
    (fat.slotInfo m' j).name = (decodeName (fat.slotName m j)).take 12 := by
  simp only [FatFs.slotInfo, same.slotName inside other]

end FatFs.SameSlots

theorem find?_unique {α : Type} {l : List α} {p : α → Bool} {a : α} (member : a ∈ l) (hit : p a = true)
    (only : ∀ b ∈ l, p b = true → b = a) : l.find? p = some a := by
  cases found : l.find? p with
  | none => exact absurd hit (List.find?_eq_none.mp found a member)
  | some b => rw [only b (List.mem_of_find?_eq_some found) (List.find?_some found)]

/-- The disk after a write that succeeded: a new entry over the old one, and
otherwise the disk on which the bytes were stored. -/
structure FileWritten (fat : FatFs) (m stored m' : Bytes) (name : List UInt8) (i first size : Nat) : Prop where
  others : fat.SameSlots m m' i
  name : fat.slotName m' i = name
  archive : m' (fat.slotBase i + 11) = 0x20
  cluster : fat.slotCluster m' i = first
  size : load32 m' (fat.slotBase i + 28) = size
  entry : ∀ c, c < fat.totalClusters + 2 → fat.entry m' c = fat.entry stored c
  data : ∀ c x, fat.clusterBase c ≤ x → m' x = stored x

/-- The directory sector was read before the bytes were stored, and written back
with the new entry after it. -/
theorem FatFs.Sound.written {fat : FatFs} {sectors : Nat} (sound : fat.Sound sectors) {m stored : Bytes}
    {name : List UInt8} {i first size : Nat} (inside : i < fat.slots) (eleven : name.length = 11)
    (word : first < 2 ^ 16) (small : size < 2 ^ 32)
    (kept : ∀ j, j < fat.slots → ∀ k, k < 32 → stored (fat.slotBase j + k) = m (fat.slotBase j + k)) :
    FileWritten fat m stored (putSector stored (fat.slotPlace (some i)).1
      (fillEntry (sectorAt m (fat.slotPlace (some i)).1) (fat.slotPlace (some i)).2 name first size))
      name i first size := by
  have split := Nat.div_add_mod i 16
  have sector : sectorAt stored (fat.rootDirSector + i / 16) = sectorAt m (fat.rootDirSector + i / 16) := by
    funext x
    by_cases less : x < 512
    · have parts := Nat.div_add_mod x 32
      have same := kept (16 * (i / 16) + x / 32) (by unfold FatFs.slots at inside ⊢; omega) (x % 32) (by omega)
      rw [← sectorAt_slot fat stored (by omega) (by omega), ← sectorAt_slot fat m (by omega) (by omega), parts] at same
      exact same
    · simp only [sectorAt, if_neg less]
  rw [putSector_slot eleven sector.symm]
  obtain ⟨atName, archive, atHigh, atLow, atSize⟩ := fillEntry_fields stored (fat.slotBase i) first size eleven
  refine ⟨fun j bound other k less => ?_, atName, archive, ?_, atSize.trans (Nat.mod_eq_of_lt small), fun c bound => ?_,
    fun c x lower => ?_⟩
  · rw [fillEntry_outside eleven (by unfold FatFs.slotBase; omega)]
    exact kept j bound k less
  · rw [FatFs.slotCluster, atHigh, atLow, Nat.mod_eq_of_lt word, Nat.zero_mul, Nat.zero_add]
  · have before := sound.entry_before_root bound i
    exact word_congr fun x _ _ => fillEntry_outside eleven (by omega)
  · have before := sound.slot_before_data inside c
    exact fillEntry_outside eleven (by omega)

namespace FileWritten
variable {fat : FatFs} {m stored m' : Bytes} {text name base suffix : List UInt8} {i first size : Nat} {cs : List Nat}

theorem first_byte (written : FileWritten fat m stored m' name i first size) :
    name.head? = some (m' (fat.slotBase i)) := by
  rw [← written.name]
  rfl

/-- The new entry is in use and shown, unless its name starts with a mark. -/
theorem shown_iff (written : FileWritten fat m stored m' name i first size) :
    fat.Visible m' i ↔ name.head? ≠ some 0 ∧ name.head? ≠ some 0xE5 := by
  simp only [FatFs.Visible, FatFs.InUse, written.archive, written.first_byte, ne_eq, Option.some.injEq]
  constructor
  · exact fun shown => ⟨shown.1.1, shown.1.2.1⟩
  · exact fun first => ⟨⟨first.1, first.2, by decide⟩, by decide⟩

/-- The new entry is in use and shown. -/
theorem visible (written : FileWritten fat m stored m' (entryName base suffix) i first size)
    (short : ShortName text base suffix) : fat.Visible m' i := by
  obtain ⟨c, head, nonzero, kept⟩ := short.first_byte
  refine written.shown_iff.mpr ?_
  rw [head]
  exact ⟨fun zero => nonzero (Option.some.inj zero), fun mark => kept (Option.some.inj mark)⟩

/-- The end of the directory stays behind all entries, whatever the name. -/
theorem keeps_end (written : FileWritten fat m stored m' name i first size) (nonzero : name.head? ≠ some 0)
    (target : fat.Target m name i cs) (inside : i < fat.slots) (ends : fat.Ended m) : fat.Ended m' := by
  intro a b order bound zero
  have different : a ≠ i := by
    rintro rfl
    rw [written.first_byte, zero] at nonzero
    exact nonzero rfl
  rw [written.others.byte (by omega) different] at zero
  by_cases last : b = i
  · subst last
    cases target with
    | create _ before _ _ => exact absurd (Or.inl zero) (before a (by omega))
    | replace use _ _ => exact absurd (ends a b order bound zero) use.1
  · rw [written.others.byte bound last]
    exact ends a b order bound zero

/-- The end of the directory stays behind all entries. -/
theorem ended (written : FileWritten fat m stored m' (entryName base suffix) i first size)
    (short : ShortName text base suffix) (target : fat.Target m (entryName base suffix) i cs)
    (inside : i < fat.slots) (ends : fat.Ended m) : fat.Ended m' :=
  written.keeps_end (written.shown_iff.mp (written.visible short)).1 target inside ends

/-- One more entry is shown at most. -/
theorem few (written : FileWritten fat m stored m' name i first size)
    (bound : ((List.range fat.slots).filter fun j => fat.Visible m j).length < 32) :
    ((List.range fat.slots).filter fun j => fat.Visible m' j).length ≤ 32 := by
  have sub : (List.range fat.slots).filter (fun j => fat.Visible m' j) ⊆
      i :: (List.range fat.slots).filter fun j => fat.Visible m j := by
    intro j member
    obtain ⟨range, shown⟩ := List.mem_filter.mp member
    by_cases same : j = i
    · exact List.mem_cons.mpr (Or.inl same)
    · refine List.mem_cons_of_mem i (List.mem_filter.mpr ⟨range, ?_⟩)
      simpa only [written.others.visible (List.mem_range.mp range) same] using shown
  have once : ((List.range fat.slots).filter fun j => fat.Visible m' j).Nodup := List.nodup_range.filter _
  have length := (List.subperm_of_subset once sub).length_le
  rw [List.length_cons] at length
  omega

/-- The listing finds the new entry under what its name is shown as, if no other name of
two parts is shown the same. -/
theorem listed_as (written : FileWritten fat m stored m' name i first size) (shown : fat.Visible m' i)
    (own : (decodeName name).take 12 = text)
    (only : ∀ base' suffix', NameParts base' suffix' → joinName base' suffix' = text → entryName base' suffix' = name)
    (target : fat.Target m name i cs) (inside : i < fat.slots)
    (names : ∀ j, j < fat.slots → fat.Visible m j → PaddedName (fat.slotName m j))
    (distinct : ∀ a b, a < fat.slots → b < fat.slots → fat.InUse m a → fat.InUse m b →
      fat.slotName m a = fat.slotName m b → a = b)
    (bound : ((List.range fat.slots).filter fun j => fat.Visible m j).length < 32) :
    (fat.rootFiles m').find? (fun fi => fi.name = text) = some (fat.slotInfo m' i) := by
  have named : (fat.slotInfo m' i).name = text := by rw [FatFs.slotInfo, written.name, own]
  rw [FatFs.rootFiles, List.take_of_length_le (by simpa using written.few bound), List.find?_map]
  refine congrArg (Option.map (fat.slotInfo m'))
    (find?_unique (List.mem_filter.mpr ⟨List.mem_range.mpr inside, ?_⟩) ?_ ?_)
  · simpa using shown
  · simpa using named
  · intro j member hit
    by_contra other
    obtain ⟨range, visible⟩ := List.mem_filter.mp member
    have less := List.mem_range.mp range
    have old : fat.Visible m j := by
      simpa only [written.others.visible less other, decide_eq_true_eq] using visible
    -- a name that decodes to the same text is the same eleven bytes
    obtain ⟨base', suffix', parts', raw⟩ := names j less old
    have equal : joinName base' suffix' = text := by
      have name : (fat.slotInfo m' j).name = text := by simpa using hit
      rwa [written.others.slotInfo_name less other, raw, parts'.decodeName_eq,
        List.take_of_length_le parts'.joinName_length] at name
    rw [only base' suffix' parts' equal] at raw
    cases target with
    | create _ _ absent _ => exact absent j less old.1 raw
    | replace use same _ => exact other (distinct j i less inside old.1 use (raw.trans same.symm))

/-- The listing finds the new entry under its name. -/
theorem listed (written : FileWritten fat m stored m' (entryName base suffix) i first size)
    (short : ShortName text base suffix)
    (target : fat.Target m (entryName base suffix) i cs) (inside : i < fat.slots)
    (names : ∀ j, j < fat.slots → fat.Visible m j → PaddedName (fat.slotName m j))
    (distinct : ∀ a b, a < fat.slots → b < fat.slots → fat.InUse m a → fat.InUse m b →
      fat.slotName m a = fat.slotName m b → a = b)
    (bound : ((List.range fat.slots).filter fun j => fat.Visible m j).length < 32) :
    (fat.rootFiles m').find? (fun fi => fi.name = text) = some (fat.slotInfo m' i) := by
  have parts := short.toNameParts
  refine written.listed_as (written.visible short) ?_ (fun base' suffix' parts' same => ?_) target inside names
    distinct bound
  · rw [parts.decodeName_eq, List.take_of_length_le parts.joinName_length, short.joined]
  · obtain ⟨rfl, rfl⟩ := parts'.joinName_injective parts (same.trans short.joined)
    rfl

/-- A listed file reads back as the bytes of its run of clusters. -/
theorem fatReadFile_listed {dev : StorageDevice} {n max : Nat} (works : dev.Works) (sound : fat.Sound dev.sectors)
    (written : FileWritten fat m stored dev.disk name i first size)
    (found : (fat.rootFiles dev.disk).find? (fun fi => fi.name = text) = some (fat.slotInfo dev.disk i))
    (run : size = 0 ∨ fat.Chain stored first (List.range' first n) ∧ size ≤ n * fat.clusterBytes)
    (small : size + 512 ≤ 2 ^ 32) (room : size ≤ max) (some : 0 < max) :
    fatReadFile ⟨dev, fat, fat.rootFiles dev.disk⟩ (Option.some text) true max =
      .ok (⟨dev, fat, fat.rootFiles dev.disk⟩, toInt32 size, window stored (fat.clusterBase first) size) := by
  have loop : readLoop fat size chainLimit dev first [] =
      .ok (dev, window stored (fat.clusterBase first) size) := by
    rcases run with rfl | ⟨chain, fits⟩
    · exact readLoop_stop (Or.inr (Or.inr le_rfl))
    · have two := (chain.inside first chain.head_mem).1
      have length := chain.length_le
      have clusters := sound.clusters
      have same : fat.Chain dev.disk first (List.range' first n) :=
        chain.congr fun c member => written.entry c (chain.inside c member).2
      rw [readLoop_eq works sound same small (by unfold chainLimit; omega), clusterData_run fat dev.disk two,
        take_window,
        List.length_nil, Nat.sub_zero, Nat.min_eq_left fits, List.nil_append,
        window_congr fun x lower _ => written.data first x lower]
  have info : fat.slotInfo dev.disk i = ⟨(fat.slotInfo dev.disk i).name, size, first⟩ := by
    rw [FatFs.slotInfo, written.size, written.cluster]
  rw [info] at found
  have start : ¬ (true = false ∨ max = 0) := by
    simp
    omega
  simp only [fatReadFile, fatReadFileWithin, if_neg start, found, Nat.min_eq_left room]
  rw [loop]
  simp [bind, Except.bind]

/-- The new file reads back as the bytes of its run of clusters. -/
theorem fatReadFile_eq {dev : StorageDevice} {n max : Nat} (works : dev.Works) (sound : fat.Sound dev.sectors)
    (written : FileWritten fat m stored dev.disk (entryName base suffix) i first size)
    (short : ShortName text base suffix) (target : fat.Target m (entryName base suffix) i cs) (inside : i < fat.slots)
    (names : ∀ j, j < fat.slots → fat.Visible m j → PaddedName (fat.slotName m j))
    (distinct : ∀ a b, a < fat.slots → b < fat.slots → fat.InUse m a → fat.InUse m b →
      fat.slotName m a = fat.slotName m b → a = b)
    (few : ((List.range fat.slots).filter fun j => fat.Visible m j).length < 32)
    (run : size = 0 ∨ fat.Chain stored first (List.range' first n) ∧ size ≤ n * fat.clusterBytes)
    (small : size + 512 ≤ 2 ^ 32) (room : size ≤ max) (some : 0 < max) :
    fatReadFile ⟨dev, fat, fat.rootFiles dev.disk⟩ (Option.some text) true max =
      .ok (⟨dev, fat, fat.rootFiles dev.disk⟩, toInt32 size, window stored (fat.clusterBase first) size) :=
  written.fatReadFile_listed works sound (written.listed short target inside names distinct few) run small room some

end FileWritten

/-- What a write under any name that returned 0 has left. -/
structure StoredAs (s s' : FatState) (name buffer : List UInt8) (i first : Nat) (cs : List Nat) : Prop where
  inside : i < s.fat.slots
  target : s.fat.Target s.dev.disk name i cs
  placed : s.fat.Placed (s.fat.freed s.dev.disk cs) buffer first
  written : FileWritten s.fat s.dev.disk (s.fat.stored (s.fat.freed s.dev.disk cs) first buffer) s'.dev.disk
    name i first buffer.length
  state : s' = { s with dev := s.dev.withDisk s'.dev.disk, files := s.fat.rootFiles s'.dev.disk }

/-- What a write that returned 0 has left. -/
structure StoredFile (s s' : FatState) (base suffix buffer : List UInt8) (i first : Nat) (cs : List Nat) : Prop where
  inside : i < s.fat.slots
  target : s.fat.Target s.dev.disk (entryName base suffix) i cs
  placed : s.fat.Placed (s.fat.freed s.dev.disk cs) buffer first
  written : FileWritten s.fat s.dev.disk (s.fat.stored (s.fat.freed s.dev.disk cs) first buffer) s'.dev.disk
    (entryName base suffix) i first buffer.length
  state : s' = { s with dev := s.dev.withDisk s'.dev.disk, files := s.fat.rootFiles s'.dev.disk }

theorem FatFs.Placed.first_lt {fat : FatFs} {m : Bytes} {buffer : List UInt8} {first : Nat}
    (placed : fat.Placed m buffer first) (clusters : fat.totalClusters < 65525) : first < 2 ^ 16 := by
  rcases placed with ⟨_, zero⟩ | ⟨_, _, upper, _⟩
  · omega
  · omega

namespace FatVolume
variable {s s' : FatState} {text base suffix buffer : List UInt8}

/-- The root directory is not touched by freeing clusters and storing bytes. -/
theorem root_kept (volume : FatVolume s.dev s.fat) {name : List UInt8} {i first : Nat} {cs : List Nat}
    (target : s.fat.Target s.dev.disk name i cs) (placed : s.fat.Placed (s.fat.freed s.dev.disk cs) buffer first)
    (noWrap : buffer.length + s.fat.clusterBytes ≤ 2 ^ 32) (j : Nat) (bound : j < s.fat.slots) (k : Nat)
    (less : k < 32) :
    s.fat.stored (s.fat.freed s.dev.disk cs) first buffer (s.fat.slotBase j + k) =
      s.dev.disk (s.fat.slotBase j + k) := by
  have root : s.fat.slotBase 0 ≤ s.fat.slotBase j + k := by
    unfold FatFs.slotBase
    omega
  have before := volume.sound.slot_before_data bound first
  rw [volume.sound.stored_behind placed noWrap root fun _ => Or.inl (by omega),
    volume.sound.freed_behind target.inside root]

/-- A write that returned 0 has left its entry, whatever the name. -/
theorem storedAs (volume : FatVolume s.dev s.fat) (works : s.dev.Works) {text name : List UInt8}
    (format : fatFormatName text = some name) (nonzero : name.head? ≠ some 0)
    (noWrap : buffer.length + s.fat.clusterBytes ≤ 2 ^ 32)
    (run : fatWriteFile s (some text) (some buffer) = .ok (s', 0)) :
    ∃ i first cs, StoredAs s s' name buffer i first cs := by
  have sound := volume.sound
  have positive := sound.clusterBytes_lt.1
  rcases volume.fatWriteFile_cases works format buffer with
    ⟨_, _, fails⟩ | ⟨i, cs, inside, target, ⟨_, _, fails⟩ | ⟨first, m₃, placed, exact, stores⟩⟩
  · rw [fails] at run
    simp at run
  · rw [fails] at run
    simp at run
  · rw [exact noWrap] at stores
    have written := sound.written inside (fatFormatName_length format) (placed.first_lt sound.clusters)
      (show buffer.length < 2 ^ 32 by omega) (volume.root_kept target placed noWrap)
    generalize putSector (s.fat.stored (s.fat.freed s.dev.disk cs) first buffer) (s.fat.slotPlace (some i)).1
      (fillEntry (sectorAt s.dev.disk (s.fat.slotPlace (some i)).1)
        (s.fat.slotPlace (some i)).2 name first
        buffer.length) = m' at stores written
    have ended := written.keeps_end nonzero target inside volume.ended
    rw [fatRefreshRootCache_eq (s := { s with dev := s.dev.withDisk m' }) (works.withDisk m') sound ended] at stores
    cases Except.ok.inj (run.symm.trans stores)
    exact ⟨i, first, cs, inside, target, placed, written, rfl⟩

theorem storedFile (volume : FatVolume s.dev s.fat) (works : s.dev.Works) (short : ShortName text base suffix)
    (noWrap : buffer.length + s.fat.clusterBytes ≤ 2 ^ 32)
    (run : fatWriteFile s (some text) (some buffer) = .ok (s', 0)) :
    ∃ i first cs, StoredFile s s' base suffix buffer i first cs := by
  obtain ⟨c, head, nonzero, _⟩ := short.first_byte
  obtain ⟨i, first, cs, inside, target, placed, written, state⟩ := volume.storedAs works short.fatFormatName_eq
    (by rw [head]; exact fun zero => nonzero (Option.some.inj zero)) noWrap run
  exact ⟨i, first, cs, inside, target, placed, written, state⟩

/-- A stored file that is listed reads back. -/
theorem reads_listed (volume : FatVolume s.dev s.fat) (works : s.dev.Works) {name : List UInt8}
    (noWrap : buffer.length + s.fat.clusterBytes ≤ 2 ^ 32) {i first : Nat} {cs : List Nat}
    (file : StoredAs s s' name buffer i first cs)
    (found : s'.files.find? (fun fi => fi.name = text) = some (s'.fat.slotInfo s'.dev.disk i)) {max : Nat}
    (room : buffer.length ≤ max) (some : 0 < max) :
    fatReadFile s' (Option.some text) true max = .ok (s', toInt32 buffer.length, buffer) := by
  have sound := volume.sound
  have sectors : 512 ≤ s.fat.clusterBytes := by
    have cluster := sound.cluster
    unfold FatFs.clusterBytes
    omega
  obtain ⟨inside, target, placed, written, state⟩ := file
  generalize s'.dev.disk = m' at written state found
  subst state
  have small : buffer.length + 512 ≤ 2 ^ 32 := by omega
  by_cases empty : buffer = []
  · have reads := FileWritten.fatReadFile_listed (n := 0) (works.withDisk m') sound written found
      (Or.inl (by rw [empty]; rfl)) small room some
    rw [empty] at reads ⊢
    exact reads
  · obtain ⟨chain, bytes⟩ := sound.stored_chain empty placed noWrap
    have fits := (sound.clustersNeeded_fits (List.length_pos_iff.mpr empty) noWrap).2
    have reads := FileWritten.fatReadFile_listed (works.withDisk m') sound written found (Or.inr ⟨chain, fits⟩) small
      room some
    rwa [bytes] at reads

/-- A stored file reads back. -/
theorem reads_back (volume : FatVolume s.dev s.fat) (works : s.dev.Works) (short : ShortName text base suffix)
    (few : ((List.range s.fat.slots).filter fun j => s.fat.Visible s.dev.disk j).length < 32)
    (noWrap : buffer.length + s.fat.clusterBytes ≤ 2 ^ 32) {i first : Nat} {cs : List Nat}
    (file : StoredFile s s' base suffix buffer i first cs) {max : Nat} (room : buffer.length ≤ max) (some : 0 < max) :
    fatReadFile s' (Option.some text) true max = .ok (s', toInt32 buffer.length, buffer) := by
  obtain ⟨inside, target, placed, written, state⟩ := file
  refine volume.reads_listed works noWrap ⟨inside, target, placed, written, state⟩ ?_ room some
  have listed := written.listed short target inside volume.names volume.distinct few
  rw [state]
  exact listed

/-- Clusters that were allocated and not freed keep their FAT entries and their
bytes. -/
theorem cluster_kept (volume : FatVolume s.dev s.fat) (noWrap : buffer.length + s.fat.clusterBytes ≤ 2 ^ 32)
    {i first : Nat} {cs : List Nat} (file : StoredFile s s' base suffix buffer i first cs) {c : Nat}
    (member : s.fat.IsCluster c)
    (allocated : s.fat.entry s.dev.disk c ≠ 0) (absent : c ∉ cs) :
    s.fat.entry s'.dev.disk c = s.fat.entry s.dev.disk c ∧
      s.fat.clusterData s'.dev.disk c = s.fat.clusterData s.dev.disk c := by
  have sound := volume.sound
  obtain ⟨_, target, placed, written, _⟩ := file
  have before : s.fat.entry (s.fat.freed s.dev.disk cs) c = s.fat.entry s.dev.disk c := by
    rw [s.fat.entry_freed _ cs target.nodup, if_neg absent]
  -- the run was free, so the cluster is not in it
  have away (filled : buffer ≠ []) : c < first ∨ first + s.fat.clustersNeeded buffer.length ≤ c := by
    rcases placed with ⟨empty, _⟩ | ⟨_, run⟩
    · exact absurd empty filled
    · by_contra within
      have free := run.2.2 c (by omega) (by omega)
      omega
  refine ⟨?_, window_congr fun x lower upper => ?_⟩
  · rw [written.entry c member.2, sound.entry_stored member.2 away, before]
  · have order : s.fat.slotBase 0 ≤ s.fat.clusterBase c := by
      have root := sound.root
      unfold FatFs.slotBase FatFs.clusterBase
      omega
    have root : s.fat.slotBase 0 ≤ x := by omega
    rw [written.data c x lower, sound.stored_behind placed noWrap root fun filled => ?_,
      sound.freed_behind target.inside root]
    rcases placed with ⟨empty, _⟩ | ⟨_, run⟩
    · exact absurd empty filled
    · rcases away filled with less | more
      · have apart := FatFs.Sound.clusterBase_mono s.fat member.1 less
        omega
      · right
        have two := run.1
        by_cases same : first + s.fat.clustersNeeded buffer.length = c
        · rw [same]
          exact lower
        · have apart := FatFs.Sound.clusterBase_mono s.fat
            (show 2 ≤ first + s.fat.clustersNeeded buffer.length by omega) (show _ < c by omega)
          omega

end FatVolume

/-- On a well-formed volume with fewer than 32 shown entries, a file that
`fat_write_file` has stored under a short name reads back with its bytes and with
its size as an `int`, and no allocated cluster outside the replaced file has
changed. -/
theorem fat_write_read_round_trip {s₀ s s' : FatState} {fat : FatFs} {text base suffix buffer : List UInt8}
    (volume : FatVolume s₀.dev fat) (works : s₀.dev.Works) (mounted : fatInit s₀ = .ok s)
    (few : ((List.range fat.slots).filter fun j => fat.Visible s₀.dev.disk j).length < 32)
    (short : ShortName text base suffix) (noWrap : buffer.length + fat.clusterBytes < 2 ^ 32)
    (run : fatWriteFile s (some text) (some buffer) = .ok (s', 0)) :
    (∀ max, buffer.length ≤ max → 0 < max →
      fatReadFile s' (some text) true max = .ok (s', toInt32 buffer.length, buffer)) ∧
    ∀ c, fat.IsCluster c → fat.entry s.dev.disk c ≠ 0 →
      (∀ i cs, i < fat.slots → fat.InUse s.dev.disk i → fat.slotName s.dev.disk i = entryName base suffix →
        fat.Chain s.dev.disk (fat.slotCluster s.dev.disk i) cs → c ∉ cs) →
      fat.entry s'.dev.disk c = fat.entry s.dev.disk c ∧
        fat.clusterData s'.dev.disk c = fat.clusterData s.dev.disk c := by
  rw [volume.fatInit_eq works] at mounted
  cases Except.ok.inj mounted
  have volume' : FatVolume (FatState.mk s₀.dev fat (fat.rootFiles s₀.dev.disk)).dev fat := volume
  obtain ⟨i, first, cs, file⟩ := FatVolume.storedFile volume' works short noWrap.le run
  refine ⟨fun max room some => FatVolume.reads_back volume' works short few noWrap.le file room some,
    fun c member allocated apart => FatVolume.cluster_kept volume' noWrap.le file member allocated fun inside => ?_⟩
  cases file.target with
  | create _ _ _ empty => simp [empty] at inside
  | replace use same holds =>
    rcases holds with ⟨_, empty⟩ | chain
    · simp [empty] at inside
    · exact apart i cs file.inside use same chain inside

/-- A mounted volume without files. -/
def emptyDisk : FatState := ⟨sampleDevice 0 [], sampleFat, sampleFat.rootFiles (sampleDisk 0 [])⟩

theorem emptyDisk_vacant {i : Nat} (inside : i < sampleFat.slots) : sampleDisk 0 [] (sampleFat.slotBase i) = 0 := by
  by_cases first : i = 0
  · rw [first]
    decide
  · exact sampleDisk_slot (by decide) inside first

theorem emptyDisk_volume : FatVolume emptyDisk.dev emptyDisk.fat :=
  sampleVolume (by decide) (fun use => absurd (emptyDisk_vacant (by decide)) use.1)
    fun use => absurd (emptyDisk_vacant (by decide)) use.1

theorem emptyDisk_works : emptyDisk.dev.Works := sampleDevice_works _ _

theorem emptyDisk_mounted : fatInit emptyDisk = .ok emptyDisk := emptyDisk_volume.fatInit_eq emptyDisk_works

theorem emptyDisk_few :
    ((List.range sampleFat.slots).filter fun j => sampleFat.Visible emptyDisk.dev.disk j).length < 32 := by
  have none : ((List.range sampleFat.slots).filter fun j => sampleFat.Visible emptyDisk.dev.disk j) = [] := by
    refine List.filter_eq_nil_iff.mpr fun j member => ?_
    simp only [decide_eq_true_eq]
    exact fun visible => visible.1.1 (emptyDisk_vacant (List.mem_range.mp member))
  rw [none]
  decide

theorem shortName_A : ShortName [0x41] [0x41] [] :=
  ⟨⟨by decide, by decide, fun c member => by
    cases List.mem_singleton.mp member
    exact ⟨by decide, by decide, by decide⟩⟩, rfl, by decide, fun c member => by
    cases List.mem_singleton.mp member
    decide, by decide⟩

/-- The empty volume has room for every file of less than 39998 clusters. -/
theorem emptyDisk_stores {text raw : List UInt8} (encoded : fatFormatName text = some raw) (buffer : List UInt8)
    (fits : max (sampleFat.clustersNeeded buffer.length) 1 ≤ 39998) :
    ∃ s', fatWriteFile emptyDisk (some text) (some buffer) = .ok (s', 0) := by
  have vacant : sampleFat.Vacant (sampleDisk 0 []) 0 := Or.inl (emptyDisk_vacant (by decide))
  have free : sampleFat.FreeRun (sampleDisk 0 []) 2 (max (sampleFat.clustersNeeded buffer.length) 1) := by
    refine ⟨le_rfl, ?_, fun c lower upper => sampleDisk_entry (by omega)⟩
    change 2 + max (sampleFat.clustersNeeded buffer.length) 1 ≤ 40000
    omega
  exact emptyDisk_volume.write_succeeds emptyDisk_works encoded (by decide) vacant free

theorem emptyDisk_writes (buffer : List UInt8) (fits : max (sampleFat.clustersNeeded buffer.length) 1 ≤ 39998) :
    ∃ s', fatWriteFile emptyDisk (some [0x41]) (some buffer) = .ok (s', 0) :=
  emptyDisk_stores shortName_A.fatFormatName_eq buffer fits

theorem fat_round_trip_emptyDisk :
    ∃ s', fatWriteFile emptyDisk (some [0x41]) (some [7]) = .ok (s', 0) ∧
      fatReadFile s' (some [0x41]) true 1 = .ok (s', 1, [7]) := by
  obtain ⟨s', run⟩ := emptyDisk_writes [7] (by decide)
  exact ⟨s', run, (fat_write_read_round_trip emptyDisk_volume emptyDisk_works emptyDisk_mounted emptyDisk_few
    shortName_A (by decide) run).1 1 (by decide) (by decide)⟩

/-- A file of 2^31 bytes is read back with a negative result. -/
theorem fat_read_result_negative :
    ¬ ∀ (s₀ s s' : FatState) (fat : FatFs) (text base suffix buffer : List UInt8), FatVolume s₀.dev fat → s₀.dev.Works →
      fatInit s₀ = .ok s → ((List.range fat.slots).filter fun j => fat.Visible s₀.dev.disk j).length < 32 →
      ShortName text base suffix → buffer.length + fat.clusterBytes < 2 ^ 32 →
      fatWriteFile s (some text) (some buffer) = .ok (s', 0) → ∀ max, buffer.length ≤ max → 0 < max →
      fatReadFile s' (some text) true max = .ok (s', (buffer.length : Int), buffer) := by
  intro claim
  obtain ⟨buffer, length⟩ : ∃ bytes : List UInt8, bytes.length = 0x80000000 :=
    ⟨List.replicate 0x80000000 0, List.length_replicate⟩
  have noWrap : buffer.length + sampleFat.clusterBytes < 2 ^ 32 := by
    rw [length]
    decide
  have positive : 0 < buffer.length := by
    rw [length]
    decide
  obtain ⟨s', run⟩ := emptyDisk_writes buffer (by rw [length]; decide)
  obtain ⟨i, first, cs, file⟩ := emptyDisk_volume.storedFile emptyDisk_works shortName_A noWrap.le run
  have reads := emptyDisk_volume.reads_back emptyDisk_works shortName_A emptyDisk_few noWrap.le file le_rfl positive
  have claimed := claim emptyDisk emptyDisk s' sampleFat [0x41] [0x41] [] buffer emptyDisk_volume emptyDisk_works
    emptyDisk_mounted emptyDisk_few shortName_A noWrap run buffer.length le_rfl positive
  have same := (Prod.mk.inj (Prod.mk.inj (Except.ok.inj (reads.symm.trans claimed))).2).1
  rw [length, toInt32] at same
  split at same
  · omega
  · omega

end LearningOS
