import LearningOS.Fat.Data
import LearningOS.Fat.Root

namespace LearningOS
open ByteStore Links

/-- How many clusters `fat_write_file` takes for a file; the sum wraps. -/
def FatFs.clustersNeeded (fat : FatFs) (size : Nat) : Nat := u32 (size + fat.clusterBytes - 1) / fat.clusterBytes

variable {fat : FatFs} {dev : StorageDevice}

/-- Filling a chain ends, whatever the length of the buffer. -/
theorem storeLoop_returns {first fuel : Nat} {cs : List Nat} (buffer : List UInt8) (works : dev.Works)
    (sound : fat.Sound dev.sectors) (path : Path (fat.link dev.disk) first cs) (inside : ∀ c ∈ cs, fat.IsCluster c)
    (enough : cs.length < fuel) : ∃ m, storeLoop fat fuel dev first buffer = .ok (dev.withDisk m, true) := by
  induction cs generalizing first fuel dev buffer with
  | nil => cases path
  | cons c rest ih =>
    obtain ⟨fuel, rfl⟩ : ∃ n, fuel = n + 1 := ⟨fuel - 1, by omega⟩
    obtain ⟨tail, split⟩ := path.head
    obtain rfl : c = first := (List.cons.inj split).1
    have member := inside c List.mem_cons_self
    rw [storeLoop]
    by_cases more : buffer.length > 0 ∧ c ≥ 2 ∧ c < 0xFFF8
    · have stored := storeCluster_eq works sound member (show 0 + fat.sectorsPerCluster ≤ _ by omega)
        (Or.inl (List.length_pos_iff.mp more.1))
      rw [← List.range_eq_range', Nat.mul_zero, Nat.add_zero] at stored
      simp only [if_pos more, stored]
      generalize padSector (buffer.take (512 * fat.sectorsPerCluster)) = bs
      generalize buffer.drop (512 * fat.sectorsPerCluster) = left
      simp only [fatReadFatEntry_eq (works.withDisk (paste dev.disk (fat.clusterBase c) bs)) sound member.2,
        StorageDevice.withDisk_disk, sound.entry_paste member.2]
      have same (d : Nat) (atD : fat.IsCluster d) :
          fat.link (paste dev.disk (fat.clusterBase c) bs) d = fat.link dev.disk d := by
        simp only [FatFs.link, sound.entry_paste atD.2]
      cases path with
      | stop ends =>
        have mark := FatFs.link_eq_none ends
        obtain ⟨fuel, rfl⟩ : ∃ n, fuel = n + 1 := ⟨fuel - 1, by simp at enough; omega⟩
        exact ⟨_, by rw [storeLoop, if_neg fun all => mark all.2]⟩
      | @step _ next _ link path =>
        rw [(FatFs.link_eq_some link).1]
        obtain ⟨m, run⟩ := ih left (works.withDisk (paste dev.disk (fat.clusterBase c) bs)) sound
          (path.congr fun d atD => same d (inside d (List.mem_cons_of_mem c atD)))
          (fun d atD => inside d (List.mem_cons_of_mem c atD)) (by simp at enough; omega)
        exact ⟨m, run⟩
    · exact ⟨dev.disk, by rw [if_neg more]; rfl⟩

/-- A file fits into the clusters it needs, unless their number wraps. -/
theorem FatFs.Sound.clustersNeeded_fits {sectors size : Nat} (sound : fat.Sound sectors) (some : 0 < size)
    (noWrap : size + fat.clusterBytes ≤ 2 ^ 32) :
    0 < fat.clustersNeeded size ∧ size ≤ fat.clustersNeeded size * fat.clusterBytes := by
  obtain ⟨positive, _⟩ := sound.clusterBytes_lt
  have exact : u32 (size + fat.clusterBytes - 1) = size + fat.clusterBytes - 1 := u32_of_lt (by omega)
  have split := Nat.div_add_mod (size + fat.clusterBytes - 1) fat.clusterBytes
  have rest := Nat.mod_lt (size + fat.clusterBytes - 1) positive
  unfold FatFs.clustersNeeded
  rw [exact, Nat.mul_comm]
  exact ⟨Nat.div_pos (by omega) positive, by omega⟩

/-- The last cluster of a file is not empty. -/
theorem FatFs.Sound.clustersNeeded_tight {sectors size : Nat} (sound : fat.Sound sectors) (some : 0 < size)
    (noWrap : size + fat.clusterBytes ≤ 2 ^ 32) : (fat.clustersNeeded size - 1) * fat.clusterBytes < size := by
  obtain ⟨positive, _⟩ := sound.clusterBytes_lt
  have exact : u32 (size + fat.clusterBytes - 1) = size + fat.clusterBytes - 1 := u32_of_lt (by omega)
  have whole := Nat.div_mul_le_self (size + fat.clusterBytes - 1) fat.clusterBytes
  unfold FatFs.clustersNeeded
  rw [exact, Nat.sub_mul, Nat.one_mul]
  omega

/-- The bytes of a file are placed unless there is no free run for them. -/
theorem storeData_spec {buffer : List UInt8} (works : dev.Works) (sound : fat.Sound dev.sectors) (some : buffer ≠ []) :
    ((∀ t, ¬ fat.FreeRun dev.disk t (max (fat.clustersNeeded buffer.length) 1)) ∧
      storeData fat dev buffer = .ok (dev, none)) ∨
    ∃ first m, fat.FreeRun dev.disk first (max (fat.clustersNeeded buffer.length) 1) ∧
      storeData fat dev buffer = .ok (dev.withDisk m, Option.some first) ∧
      (buffer.length + fat.clusterBytes ≤ 2 ^ 32 → m = paste (setWords dev.disk fat.tableBase
        (runLinks first (fat.clustersNeeded buffer.length))) (fat.clusterBase first) (padSector buffer)) := by
  obtain ⟨positive, small⟩ := sound.clusterBytes_lt
  have many := sound.many
  have clusters := sound.clusters
  have size : u32 (fat.bytesPerSector * fat.sectorsPerCluster) = fat.clusterBytes := by
    rw [sound.bytes]
    exact u32_of_lt small
  have filled := List.length_pos_iff.mpr some
  obtain ⟨first, search, found⟩ := fatFindFreeRun_spec works sound (fat.clustersNeeded buffer.length)
  have needed : u32 (buffer.length + fat.clusterBytes - 1) / fat.clusterBytes = fat.clustersNeeded buffer.length := rfl
  rcases found with ⟨zero, none⟩ | ⟨run, _⟩
  · exact Or.inl ⟨none, by simp only [storeData, gt_iff_lt, filled, if_true, size, needed, search, zero]⟩
  · have two := run.1
    have upper := run.2.1
    have linked : linkRun fat first (fat.clustersNeeded buffer.length)
        (List.range (fat.clustersNeeded buffer.length)) dev =
        (dev.withDisk (setWords dev.disk fat.tableBase (runLinks first (fat.clustersNeeded buffer.length))), true) :=
      linkRun_eq works sound (by omega) (by simp)
    have done {m : Bytes} (filling : storeLoop fat chainLimit (dev.withDisk (setWords dev.disk fat.tableBase
        (runLinks first (fat.clustersNeeded buffer.length)))) first buffer = .ok (dev.withDisk m, true)) :
        storeData fat dev buffer = .ok (dev.withDisk m, Option.some first) := by
      simp only [storeData, gt_iff_lt, filled, if_true, size, needed, search, if_neg (show ¬ first = 0 by omega),
        linked]
      rw [filling]
      rfl
    have linkedWorks := works.withDisk
      (setWords dev.disk fat.tableBase (runLinks first (fat.clustersNeeded buffer.length)))
    by_cases none : fat.clustersNeeded buffer.length = 0
    · -- the number of clusters has wrapped: the first free one is written and not linked
      have path :
          Path (fat.link (setWords dev.disk fat.tableBase (runLinks first (fat.clustersNeeded buffer.length)))) first
            [first] := by
        refine .stop ?_
        rw [none]
        exact if_neg fun both => by
          have zero : fat.entry dev.disk first = 0 := run.2.2 first (by omega) (by omega)
          have same : fat.entry (setWords dev.disk fat.tableBase (runLinks first 0)) first = 0 := zero
          omega
      obtain ⟨m, filling⟩ := storeLoop_returns buffer linkedWorks sound path
        (fun c member => by cases List.mem_singleton.mp member; exact ⟨two, by omega⟩) (show 1 < chainLimit by decide)
      refine Or.inr ⟨first, m, run, done filling, fun noWrap => ?_⟩
      have some := (sound.clustersNeeded_fits filled noWrap).1
      omega
    · have chain := runLinks_chain dev.disk two (Nat.pos_of_ne_zero none) (show first + _ ≤ fat.totalClusters by omega)
        clusters
      have enough : fat.clustersNeeded buffer.length < chainLimit := by
        unfold chainLimit
        omega
      by_cases noWrap : buffer.length + fat.clusterBytes ≤ 2 ^ 32
      · exact Or.inr ⟨first, _, run, done (storeLoop_eq linkedWorks sound two (by omega) chain.path some
          (sound.clustersNeeded_fits filled noWrap).2 enough), fun _ => rfl⟩
      · obtain ⟨m, filling⟩ := storeLoop_returns buffer linkedWorks sound chain.path chain.inside
          (by rw [List.length_range']; exact enough)
        exact Or.inr ⟨first, m, run, done filling, fun small => absurd small noWrap⟩

section
variable {m : Bytes} {ent first size : Nat} {name : List UInt8}

theorem fillEntry_outside (eleven : name.length = 11) {x : Nat} (outside : x < ent ∨ ent + 32 ≤ x) :
    fillEntry m ent name first size x = m x := by
  simp only [fillEntry]
  rw [store32_outside (by omega), store16_outside (by omega), store16_outside (by omega), store_of_ne (by omega),
    paste_outside (by omega)]

/-- The name, the attribute, the cluster and the size of a new entry. -/
theorem fillEntry_fields (m : Bytes) (ent first size : Nat) (eleven : name.length = 11) :
    window (fillEntry m ent name first size) ent 11 = name ∧ fillEntry m ent name first size (ent + 11) = 0x20 ∧
      load16 (fillEntry m ent name first size) (ent + 20) = 0 ∧
      load16 (fillEntry m ent name first size) (ent + 26) = first % 2 ^ 16 ∧
      load32 (fillEntry m ent name first size) (ent + 28) = size % 2 ^ 32 := by
  have word {a : Nat} (n : Bytes) (apart : a + 2 ≤ ent + 28) : load16 (store32 n (ent + 28) size) a = load16 n a :=
    load16_congr fun x _ _ => store32_outside (by omega)
  simp only [fillEntry, load32_store32_same]
  refine ⟨?_, ?_, ?_, ?_, trivial⟩
  · have pasted := window_paste_same m ent name
    rw [eleven] at pasted
    refine (window_congr fun x lower upper => ?_).trans pasted
    rw [store32_outside (by omega), store16_outside (by omega), store16_outside (by omega), store_of_ne (by omega)]
  · rw [store32_outside (by omega), store16_outside (by omega), store16_outside (by omega), store_same]
  · rw [word _ (by omega), load16_store16_other (by omega), load16_store16_same, Nat.zero_mod]
  · rw [word _ (by omega), load16_store16_same]

/-- An entry filled in a sector and written back. -/
theorem putSector_fillEntry (eleven : name.length = 11) {buffer : Bytes} {lba : Nat} (inside : ent + 32 ≤ 512) :
    putSector m lba (fillEntry buffer ent name first size) =
      fillEntry (putSector m lba buffer) (512 * lba + ent) name first size := by
  simp only [fillEntry]
  rw [putSector_store32 (by omega), putSector_store16 (by omega), putSector_store16 (by omega),
    putSector_store (by omega),
    putSector_paste (by omega)]
  simp only [Nat.add_assoc]

/-- The directory sector is written back over the same sector with the new entry. -/
theorem putSector_slot {m' : Bytes} {i : Nat} (eleven : name.length = 11)
    (same : sectorAt m (fat.slotPlace (some i)).1 = sectorAt m' (fat.slotPlace (some i)).1) :
    putSector m' (fat.slotPlace (some i)).1 (fillEntry (sectorAt m (fat.slotPlace (some i)).1)
      (fat.slotPlace (some i)).2 name first size) = fillEntry m' (fat.slotBase i) name first size := by
  have address : 512 * (fat.slotPlace (some i)).1 + (fat.slotPlace (some i)).2 = fat.slotBase i := by
    simp only [FatFs.slotPlace, FatFs.slotBase]
    omega
  rw [same, putSector_fillEntry eleven (by simp only [FatFs.slotPlace]; omega), putSector_sectorAt, address]

end

/-- A call that placed the bytes writes the entry and lists the directory anew. -/
theorem replaceEntry_stored {s : FatState} {found : Bool} {name buffer : List UInt8} {lba offset first : Nat}
    {m₁ m₃ : Bytes}
    (works : s.dev.Works) (inside : lba < s.dev.sectors)
    (freed : freeOld s.fat s.dev found (load16 (sectorAt s.dev.disk lba) (offset + 26)) = .ok (s.dev.withDisk m₁))
    (stored : storeData s.fat (s.dev.withDisk m₁) buffer = .ok (s.dev.withDisk m₃, some first)) :
    replaceEntry s found name lba offset buffer =
      (fatRefreshRootCache { s with dev := s.dev.withDisk (putSector m₃ lba
        (fillEntry (sectorAt s.dev.disk lba) offset name first buffer.length)) }).map fun s => (s, 0) := by
  simp only [replaceEntry, works.readSector_eq inside]
  rw [freed]
  change (storeData s.fat (s.dev.withDisk m₁) buffer >>= _) = _
  rw [stored]
  simp only [bind, Except.bind, (works.withDisk m₃).writeSector_eq inside]
  rfl

/-- A call that found no free run stops there. -/
theorem replaceEntry_failed {s : FatState} {found : Bool} {name buffer : List UInt8} {lba offset : Nat} {m₁ : Bytes}
    (works : s.dev.Works) (inside : lba < s.dev.sectors)
    (freed : freeOld s.fat s.dev found (load16 (sectorAt s.dev.disk lba) (offset + 26)) = .ok (s.dev.withDisk m₁))
    (stored : storeData s.fat (s.dev.withDisk m₁) buffer = .ok (s.dev.withDisk m₁, none)) :
    replaceEntry s found name lba offset buffer = .ok ({ s with dev := s.dev.withDisk m₁ }, -1) := by
  simp only [replaceEntry, works.readSector_eq inside]
  rw [freed]
  change (storeData s.fat (s.dev.withDisk m₁) buffer >>= _) = _
  rw [stored]
  rfl

end LearningOS
