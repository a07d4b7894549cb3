import LearningOS.Fat.Marker
import LearningOS.Fat.Unreliable

namespace LearningOS
open ByteStore Links Prefixes

namespace FatFs
variable (fat : FatFs) (dev : StorageDevice) (name : List UInt8)

/-- No entry of the name is behind the sectors of the directory that the search can read. -/
def NameSeen : Prop := ∀ j, j < fat.slots → fat.InUse dev.disk j → fat.slotName dev.disk j = name →
  j < 16 * fat.readFront dev

/-- How many requests a call has made once it has searched for a name and read the sector
of its entry. -/
def searchEnd : Nat := fat.searched dev.disk name 0 fat.rootDirSectors (fat.readFront dev) + 1

/-- The number of the next request, and the disk, once it has freed some clusters. -/
def freedOld (cs : List Nat) : Nat × Bytes := fat.freedBy dev (fat.searchEnd dev name) dev.disk cs

end FatFs

variable {fat : FatFs} {dev : StorageDevice} {m : Bytes} {asked first k : Nat} {buffer : List UInt8} {cs : List Nat}

namespace FatFs.Sound
variable {sectors : Nat}

/-- Freeing clusters changes the FAT only, whatever fails. -/
theorem freedBy_outside (sound : fat.Sound sectors) (inside : ∀ c ∈ cs, fat.IsCluster c) {x : Nat}
    (outside : x < fat.tableBase ∨ fat.slotBase 0 ≤ x) : (fat.freedBy dev asked m cs).2 x = m x := by
  induction cs generalizing asked m with
  | nil => rfl
  | cons c rest ih =>
    have before := sound.entry_before_root (inside c List.mem_cons_self).2 0
    have later (asked : Nat) (m : Bytes) : (fat.freedBy dev asked m rest).2 x = m x :=
      ih fun d atD => inside d (List.mem_cons_of_mem c atD)
    have cleared (p : Prop) [Decidable p] : (if p then setWord m fat.tableBase c 0 else m) x = m x := by
      split
      · exact setWord_outside (by omega)
      · rfl
    rw [FatFs.freedBy]
    split
    · rw [later, cleared]
    · exact cleared _

theorem linked_outside (sound : fat.Sound sectors) {n : Nat} (upper : first + n ≤ fat.totalClusters) {x : Nat}
    (outside : x < fat.tableBase ∨ fat.slotBase 0 ≤ x) : setWords m fat.tableBase (runLinks first n) x = m x := by
  refine setWords_outside fun p member => ?_
  obtain ⟨i, less, rfl⟩ := List.mem_map.mp member
  have bound := List.mem_range.mp less
  have before := sound.entry_before_root (show first + i < fat.totalClusters + 2 by omega) 0
  change x < fat.tableBase + 2 * (first + i) ∨ fat.tableBase + 2 * (first + i) + 2 ≤ x
  omega

/-- Storing bytes changes the FAT and what is behind the start of the run only. -/
theorem storedIn_outside (sound : fat.Sound sectors) (placed : fat.PlacedBy dev asked m buffer first) {x : Nat}
    (outside : x < fat.tableBase ∨ fat.slotBase 0 ≤ x) (front : x < 512 * fat.firstDataSector) :
    fat.storedIn m first buffer k x = m x := by
  cases placed with
  | empty empty => rw [FatFs.storedIn, if_pos empty]
  | run filled two upper _ =>
    have data : 512 * fat.firstDataSector ≤ fat.clusterBase first := Nat.le_add_right _ _
    rw [FatFs.storedIn, if_neg filled, paste_outside (by omega), sound.linked_outside upper outside]

/-- The run is linked, however many of its clusters are filled. -/
theorem storedIn_chain (sound : fat.Sound sectors) (filled : buffer ≠ []) (two : 2 ≤ first)
    (upper : first + fat.clustersNeeded buffer.length ≤ fat.totalClusters)
    (some : 0 < fat.clustersNeeded buffer.length) :
    fat.Chain (fat.storedIn m first buffer k) first (List.range' first (fat.clustersNeeded buffer.length)) := by
  rw [FatFs.storedIn, if_neg filled]
  refine (runLinks_chain m two some upper sound.clusters).congr fun c member => ?_
  obtain ⟨i, less, rfl⟩ := List.mem_range'.mp member
  exact sound.entry_paste (by omega)

end FatFs.Sound

/-- What a call that returned 0 has left, whatever its device refused: the new entry, in
place of that of the name if the search could see it. -/
structure Landed (s s' : FatState) (name buffer : List UInt8) (i first : Nat) (cs : List Nat) : Prop where
  inside : i < s.fat.slots
  placed : s.fat.PlacedBy s.dev (s.fat.freedOld s.dev name cs).1 (s.fat.freedOld s.dev name cs).2 buffer first
  written : FileWritten s.fat s.dev.disk (s.fat.storedIn (s.fat.freedOld s.dev name cs).2 first buffer
    (s.fat.filledAfter s.dev (s.fat.freedOld s.dev name cs).1 first (s.fat.clustersNeeded buffer.length)))
      s'.dev.disk name i first buffer.length
  clusters : ∀ c ∈ cs, s.fat.IsCluster c
  mounted : s'.fat = s.fat
  sectors : s'.dev.sectors = s.dev.sectors
  boot : sectorAt s'.dev.disk 0 = sectorAt s.dev.disk 0
  target : s.fat.NameSeen s.dev name → s.fat.Target s.dev.disk name i cs
  hidden : ¬ s.fat.NameSeen s.dev name → s.fat.Vacant s.dev.disk i

namespace FatVolume
variable {s s' : FatState} {text base suffix : List UInt8} {i : Nat} {name : List UInt8}

/-- The entry of a call that went on with a place of the directory and returned 0. -/
theorem landed (volume : FatVolume s.dev s.fat) (reserved : 0 < s.fat.reservedSectors) (present : s.dev.present = true)
    (read : s.dev.read = true) (write : s.dev.write = true) (noWrap : buffer.length + s.fat.clusterBytes ≤ 2 ^ 32)
    (eleven : name.length = 11) {found : Bool} (inside : i < s.fat.slots) (clusters : ∀ c ∈ cs, s.fat.IsCluster c)
    (freed : freeOld s.fat (s.dev.after (s.fat.searchEnd s.dev name) s.dev.disk) found
      (load16 s.dev.disk (s.fat.slotBase i + 26)) =
        .ok (s.dev.after (s.fat.freedOld s.dev name cs).1 (s.fat.freedOld s.dev name cs).2))
    (target : s.fat.NameSeen s.dev name → s.fat.Target s.dev.disk name i cs)
    (hidden : ¬ s.fat.NameSeen s.dev name → s.fat.Vacant s.dev.disk i) (next : s.fat.searchEnd s.dev name = asked + 1)
    (run : replaceEntry { s with dev := s.dev.after asked s.dev.disk } found name (s.fat.slotPlace (some i)).1
      (s.fat.slotPlace (some i)).2 buffer = .ok (s', 0)) :
    ∃ first, Landed s s' name buffer i first cs := by
  have sound := volume.sound
  have positive := sound.clusterBytes_lt.1
  have many := sound.clusters
  have fats := sound.fats
  have root := sound.root
  have table := sound.table
  have start := volume.layout.order.1
  rw [next, ← load16_slot] at freed
  obtain ⟨first, placed, mounted, later, moved⟩ :=
    replaceEntry_after present read write sound noWrap freed run
  have word : first < 2 ^ 16 := by
    cases placed with
    | empty _ => omega
    | run _ _ upper _ => omega
  have untouched {k x : Nat} (outside : x < s.fat.tableBase ∨ s.fat.slotBase 0 ≤ x)
      (front : x < 512 * s.fat.firstDataSector) :
      s.fat.storedIn (s.fat.freedOld s.dev name cs).2 first buffer k x = s.dev.disk x := by
    rw [sound.storedIn_outside placed outside front]
    exact sound.freedBy_outside clusters outside
  have kept (j : Nat) (bound : j < s.fat.slots) (k : Nat) (less : k < 32) :
      s.fat.storedIn (s.fat.freedOld s.dev name cs).2 first buffer
        (s.fat.filledAfter s.dev (s.fat.freedOld s.dev name cs).1 first (s.fat.clustersNeeded buffer.length))
          (s.fat.slotBase j + k) = s.dev.disk (s.fat.slotBase j + k) := by
    have front := sound.slot_before_data bound 2
    have data : s.fat.clusterBase 2 = 512 * s.fat.firstDataSector := by
      simp [FatFs.clusterBase]
    refine untouched (Or.inr ?_) (by omega)
    unfold FatFs.slotBase
    omega
  have written := sound.written inside eleven word (show buffer.length < 2 ^ 32 by omega) kept
  refine ⟨first, inside, placed, by rw [moved]; exact written, clusters, mounted, by rw [moved]; rfl, ?_, target,
    hidden⟩
  rw [moved]
  refine sectorAt_congr fun x _ upper => ?_
  have front : x < s.fat.tableBase := by
    unfold FatFs.tableBase
    omega
  rw [StorageDevice.after_disk, putSector_outside (Or.inl (by simp only [FatFs.slotPlace]; omega))]
  exact untouched (Or.inl front) (by omega)

end FatVolume

namespace Landed
variable {s s' : FatState} {text base suffix : List UInt8} {i : Nat}

/-- The file reads back as the bytes of its run. -/
theorem reads (landed : Landed s s' (entryName base suffix) buffer i first cs) (volume : FatVolume s.dev s.fat)
    (short : ShortName text base suffix) (seen : s.fat.NameSeen s.dev (entryName base suffix))
    (few : ((List.range s.fat.slots).filter fun j => s.fat.Visible s.dev.disk j).length < 32)
    (noWrap : buffer.length + s.fat.clusterBytes ≤ 2 ^ 32) {max : Nat} (room : buffer.length ≤ max) (some : 0 < max) :
    ∃ t, fatInit { s' with dev := s'.dev.calm } = .ok t ∧
      fatReadFile t (Option.some text) true max = .ok (t, toInt32 buffer.length,
        window (s.fat.storedIn (s.fat.freedOld s.dev (entryName base suffix) cs).2 first buffer
          (s.fat.filledAfter s.dev (s.fat.freedOld s.dev (entryName base suffix) cs).1 first
            (s.fat.clustersNeeded buffer.length))) (s.fat.clusterBase first) buffer.length) := by
  have sound := volume.sound
  have target := landed.target seen
  have written := landed.written
  have ended := written.ended short target landed.inside volume.ended
  have layout : FatLayout s'.dev.calm s.fat := volume.layout.congr landed.sectors landed.boot
  have works := s'.dev.calm_works
  have sectors : 512 ≤ s.fat.clusterBytes := by
    have cluster := sound.cluster
    unfold FatFs.clusterBytes
    omega
  refine ⟨_, layout.fatInit_eq (s := { s' with dev := s'.dev.calm }) works ended, ?_⟩
  refine FileWritten.fatReadFile_eq (n := s.fat.clustersNeeded buffer.length) works layout.sound
    written short target landed.inside volume.names volume.distinct few ?_ (by omega) room some
  cases landed.placed with
  | empty empty => exact Or.inl (by rw [empty]; rfl)
  | run filled two upper _ =>
    obtain ⟨positive, fits⟩ := sound.clustersNeeded_fits (List.length_pos_iff.mpr filled) noWrap
    exact Or.inr ⟨sound.storedIn_chain filled two upper positive, fits⟩

end Landed

/-- A read returns an error, or the number of its bytes as an `int`. -/
theorem fatReadFile_result {s t : FatState} {text out : List UInt8} {max : Nat} {n : Int}
    (run : fatReadFile s (some text) true max = .ok (t, n, out)) : n = -1 ∨ 0 < max ∧ n = toInt32 out.length := by
  simp only [fatReadFile, fatReadFileWithin] at run
  split at run
  · cases Except.ok.inj run
    exact Or.inl rfl
  · rename_i some
    split at run
    · cases Except.ok.inj run
      exact Or.inl rfl
    · obtain ⟨⟨dev, bytes⟩, _, result⟩ := Faults.bind_ok run
      cases Except.ok.inj result
      exact Or.inr ⟨by omega, rfl⟩

theorem FatFs.PlacedBy.unique {other : Nat} (placed : fat.PlacedBy dev asked m buffer first)
    (again : fat.PlacedBy dev asked m buffer other) : first = other := by
  cases placed with
  | empty empty =>
    cases again with
    | empty _ => rfl
    | run filled _ _ _ => exact absurd empty filled
  | run filled two _ looks =>
    cases again with
    | empty empty => exact absurd empty filled
    | run _ two' _ looks' =>
      obtain ⟨run, least⟩ := looks.resolve_left fun none => by omega
      obtain ⟨run', least'⟩ := looks'.resolve_left fun none => by omega
      exact Nat.le_antisymm (least other run') (least' first run)

end LearningOS
