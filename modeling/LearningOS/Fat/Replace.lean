import LearningOS.Fat.Mount

namespace LearningOS
open ByteStore

/-- The entry a write goes to, with the clusters of the file it replaces. -/
inductive FatFs.Target (fat : FatFs) (m : Bytes) (name : List UInt8) (i : Nat) (cs : List Nat) : Prop
  | replace : fat.InUse m i → fat.slotName m i = name →
      fat.slotCluster m i < 2 ∧ cs = [] ∨ fat.Chain m (fat.slotCluster m i) cs → Target fat m name i cs
  | create : fat.Vacant m i → (∀ j, j < i → ¬ fat.Vacant m j) →
      (∀ j, j < fat.slots → fat.InUse m j → fat.slotName m j ≠ name) → cs = [] → Target fat m name i cs

namespace FatFs.Target
variable {fat : FatFs} {m : Bytes} {name : List UInt8} {i : Nat} {cs : List Nat}

theorem nodup (target : fat.Target m name i cs) : cs.Nodup := by
  cases target with
  | create _ _ _ empty =>
    rw [empty]
    exact List.nodup_nil
  | replace _ _ holds =>
    rcases holds with ⟨_, empty⟩ | chain
    · rw [empty]
      exact List.nodup_nil
    · exact chain.path.nodup

theorem inside (target : fat.Target m name i cs) : ∀ c ∈ cs, fat.IsCluster c := by
  cases target with
  | create _ _ _ empty => simp [empty]
  | replace _ _ holds =>
    rcases holds with ⟨_, empty⟩ | chain
    · simp [empty]
    · exact chain.inside

end FatFs.Target

/-- The disk with the clusters of a chain freed. -/
def FatFs.freed (fat : FatFs) (m : Bytes) (cs : List Nat) : Bytes := setWords m fat.tableBase (cs.map fun c => (c, 0))

/-- The disk once a run of clusters holds the bytes of a file. -/
def FatFs.stored (fat : FatFs) (m : Bytes) (first : Nat) (buffer : List UInt8) : Bytes :=
  if buffer = [] then m
  else paste (setWords m fat.tableBase (runLinks first (fat.clustersNeeded buffer.length))) (fat.clusterBase first)
    (padSector buffer)

/-- Where a file of some size can be placed: nowhere in particular if it is
empty. -/
def FatFs.Placed (fat : FatFs) (m : Bytes) (buffer : List UInt8) (first : Nat) : Prop :=
  buffer = [] ∧ first = 0 ∨ buffer ≠ [] ∧ fat.FreeRun m first (max (fat.clustersNeeded buffer.length) 1)

theorem FatFs.entry_freed (fat : FatFs) (m : Bytes) (cs : List Nat) (once : cs.Nodup) (c : Nat) :
    fat.entry (fat.freed m cs) c = if c ∈ cs then 0 else fat.entry m c := by
  have keys : (cs.map fun c => ((c, 0) : Nat × Nat)).map Prod.fst = cs := by
    rw [List.map_map]
    exact List.map_id cs
  split
  · rename_i member
    have change : (c, 0) ∈ cs.map fun c => (c, 0) := List.mem_map.mpr ⟨c, member, rfl⟩
    exact word_setWords (by rwa [keys]) change
  · rename_i absent
    exact word_setWords_other (by rwa [keys])

/-- Without a name that can be encoded, or without a buffer, a write fails at once. -/
theorem fatWriteFile_refused (s : FatState) {name buffer : Option (List UInt8)}
    (refused : name.bind fatFormatName = none ∨ buffer = none) : fatWriteFile s name buffer = .ok (s, -1) := by
  unfold fatWriteFile
  split
  · rename_i text bytes
    rw [Option.bind_some] at refused
    simp only [refused.resolve_right (by simp), ite_self]
  · rfl

namespace FatVolume
variable {s : FatState}

/-- The clusters of an entry in use, if it has some. -/
theorem clusters_of {dev : StorageDevice} {fat : FatFs} {i : Nat} (volume : FatVolume dev fat) (inside : i < fat.slots)
    (use : fat.InUse dev.disk i) :
    ∃ cs, fat.slotCluster dev.disk i < 2 ∧ cs = [] ∨ fat.Chain dev.disk (fat.slotCluster dev.disk i) cs := by
  rcases volume.chains i inside use with low | ⟨cs, chain⟩
  · exact ⟨[], Or.inl ⟨low, rfl⟩⟩
  · exact ⟨cs, Or.inr chain⟩

/-- The entry and the clusters that a write replaces are fixed by the name. -/
theorem target_eq {dev : StorageDevice} {fat : FatFs} {name : List UInt8} {i j : Nat} {cs ds : List Nat}
    (volume : FatVolume dev fat) (inside : i < fat.slots) (inside' : j < fat.slots)
    (target : fat.Target dev.disk name i cs) (again : fat.Target dev.disk name j ds) :
    i = j ∧ cs = ds := by
  cases target with
  | create vacant before absent empty =>
    cases again with
    | create vacant' before' _ empty' =>
      refine ⟨?_, empty.trans empty'.symm⟩
      rcases Nat.lt_trichotomy i j with less | same | more
      · exact absurd vacant (before' i less)
      · exact same
      · exact absurd vacant' (before j more)
    | replace use same _ => exact absurd same (absent j inside' use)
  | replace use same holds =>
    cases again with
    | create _ _ absent _ => exact absurd same (absent i inside use)
    | replace use' same' holds' =>
      obtain rfl := volume.distinct i j inside inside' use use' (same.trans same'.symm)
      refine ⟨rfl, ?_⟩
      rcases holds with ⟨low, empty⟩ | chain
      · rcases holds' with ⟨_, empty'⟩ | chain'
        · exact empty.trans empty'.symm
        · have member := chain'.inside _ chain'.head_mem
          exact absurd member.1 (by omega)
      · rcases holds' with ⟨low, _⟩ | chain'
        · have member := chain.inside _ chain.head_mem
          exact absurd member.1 (by omega)
        · exact chain.unique chain'

/-- Freeing the clusters of the target. -/
theorem freeOld_eq (volume : FatVolume s.dev s.fat) (works : s.dev.Works) {name : List UInt8} {i : Nat} {cs : List Nat}
    {found : Bool} (target : s.fat.Target s.dev.disk name i cs) (used : found = true ↔ s.fat.InUse s.dev.disk i) :
    freeOld s.fat s.dev found (load16 s.dev.disk (s.fat.slotBase i + 26)) =
      .ok (s.dev.withDisk (s.fat.freed s.dev.disk cs)) := by
  cases target with
  | create vacant _ _ empty =>
    have unused : ¬ found = true := fun hit => vacant.elim (used.mp hit).1 (used.mp hit).2.1
    rw [freeOld, if_neg fun both => unused both.1, empty]
    rfl
  | replace use _ holds =>
    rcases holds with ⟨low, empty⟩ | chain
    · unfold FatFs.slotCluster at low
      rw [freeOld, if_neg (by omega), empty]
      rfl
    · have member := chain.inside _ chain.head_mem
      have clusters := volume.sound.clusters
      have length := chain.length_le
      rw [volume.sound.slotCluster_eq member] at chain member
      rw [freeOld, if_pos ⟨used.mpr use, member.1⟩]
      exact freeChainLoop_eq works volume.sound chain (by unfold chainLimit; omega)

/-- The storing of a file on the disk that was left by the freeing. -/
theorem storeData_cases {fat : FatFs} {dev : StorageDevice} (works : dev.Works) (sound : fat.Sound dev.sectors)
    (buffer : List UInt8) :
    (buffer ≠ [] ∧ (∀ t, ¬ fat.FreeRun dev.disk t (max (fat.clustersNeeded buffer.length) 1)) ∧
      storeData fat dev buffer = .ok (dev, none)) ∨
    ∃ first m, fat.Placed dev.disk buffer first ∧ storeData fat dev buffer = .ok (dev.withDisk m, some first) ∧
      (buffer.length + fat.clusterBytes ≤ 2 ^ 32 → m = fat.stored dev.disk first buffer) := by
  by_cases empty : buffer = []
  · refine Or.inr ⟨0, dev.disk, Or.inl ⟨empty, rfl⟩, ?_, fun _ => (if_pos empty).symm⟩
    simp [storeData, empty]
  · rcases storeData_spec works sound empty with ⟨none, run⟩ | ⟨first, m, free, run, exact⟩
    · exact Or.inl ⟨empty, none, run⟩
    · exact Or.inr ⟨first, m, Or.inr ⟨empty, free⟩, run, fun noWrap => (exact noWrap).trans (if_neg empty).symm⟩

/-- The disk and the result of a write that has chosen its entry. -/
def WriteOutcome (s : FatState) (name buffer : List UInt8) (i : Nat) (cs : List Nat)
    (result : Except Trap (FatState × Int)) : Prop :=
  (buffer ≠ [] ∧
    (∀ t, ¬ s.fat.FreeRun (s.fat.freed s.dev.disk cs) t (max (s.fat.clustersNeeded buffer.length) 1)) ∧
    result = .ok ({ s with dev := s.dev.withDisk (s.fat.freed s.dev.disk cs) }, -1)) ∨
  ∃ first m, s.fat.Placed (s.fat.freed s.dev.disk cs) buffer first ∧
    (buffer.length + s.fat.clusterBytes ≤ 2 ^ 32 → m = s.fat.stored (s.fat.freed s.dev.disk cs) first buffer) ∧
    result = (fatRefreshRootCache { s with dev := s.dev.withDisk (putSector m (s.fat.slotPlace (some i)).1
      (fillEntry (sectorAt s.dev.disk (s.fat.slotPlace (some i)).1) (s.fat.slotPlace (some i)).2 name first
        buffer.length)) }).map fun s => (s, 0)

theorem replaceEntry_cases (volume : FatVolume s.dev s.fat) (works : s.dev.Works) {name : List UInt8} {i : Nat}
    {cs : List Nat} {found : Bool} (inside : i < s.fat.slots) (target : s.fat.Target s.dev.disk name i cs)
    (used : found = true ↔ s.fat.InUse s.dev.disk i) (buffer : List UInt8) :
    WriteOutcome s name buffer i cs
      (replaceEntry s found name (s.fat.slotPlace (some i)).1 (s.fat.slotPlace (some i)).2 buffer) := by
  have sound := volume.sound
  have onDisk : (s.fat.slotPlace (some i)).1 < s.dev.sectors := (sound.root_sector (Nat.div_lt_of_lt_mul inside)).2.1
  have freeing := volume.freeOld_eq works target used
  rw [← load16_slot] at freeing
  rcases storeData_cases (works.withDisk (s.fat.freed s.dev.disk cs)) sound buffer with
    ⟨filled, none, run⟩ | ⟨first, m, placed, run, exact⟩
  · exact Or.inl ⟨filled, none, replaceEntry_failed works onDisk freeing run⟩
  · exact Or.inr ⟨first, m, placed, exact, replaceEntry_stored works onDisk freeing run⟩

/-- What a write under an encodable name does on a well-formed volume: nothing if
the directory is full; otherwise it frees the clusters of the file of that name
and then fails for want of a free run, or stores the bytes and writes the entry. -/
theorem fatWriteFile_cases (volume : FatVolume s.dev s.fat) (works : s.dev.Works) {text name : List UInt8}
    (format : fatFormatName text = some name) (buffer : List UInt8) :
    ((∀ i, i < s.fat.slots → ¬ s.fat.Vacant s.dev.disk i) ∧
      (∀ j, j < s.fat.slots → s.fat.InUse s.dev.disk j → s.fat.slotName s.dev.disk j ≠ name) ∧
      fatWriteFile s (some text) (some buffer) = .ok (s, -1)) ∨
    ∃ i cs, i < s.fat.slots ∧ s.fat.Target s.dev.disk name i cs ∧
      WriteOutcome s name buffer i cs (fatWriteFile s (some text) (some buffer)) := by
  have sound := volume.sound
  have enabled : ¬ (s.fat.attached = false ∨ s.dev.present = false ∨ s.dev.write = false) := by
    simp [sound.attached, works.present, works.write]
  have search := fatFindRootEntry_eq works sound volume.ended name
  rcases searchRoot_cases s.fat s.dev.disk name s.fat.slots with
    ⟨i, inside, use, same, hit⟩ | ⟨absent, ⟨i, inside, vacant, before, hit⟩ | ⟨none, hit⟩⟩
  · rw [hit] at search
    have start : fatWriteFile s (some text) (some buffer) =
        replaceEntry s true name (s.fat.slotPlace (some i)).1 (s.fat.slotPlace (some i)).2 buffer := by
      simp only [fatWriteFile, if_neg enabled, sound.type, format, search]
      rfl
    obtain ⟨cs, holds⟩ := volume.clusters_of inside use
    have target : s.fat.Target s.dev.disk name i cs := .replace use same holds
    rw [start]
    exact Or.inr ⟨i, cs, inside, target, volume.replaceEntry_cases works inside target (by simp [use]) buffer⟩
  · rw [hit] at search
    have start : fatWriteFile s (some text) (some buffer) =
        replaceEntry s false name (s.fat.slotPlace (some i)).1 (s.fat.slotPlace (some i)).2 buffer := by
      simp only [fatWriteFile, if_neg enabled, sound.type, format, search]
      rfl
    have unused : ¬ s.fat.InUse s.dev.disk i := fun use => vacant.elim use.1 use.2.1
    have target : s.fat.Target s.dev.disk name i [] := .create vacant before absent rfl
    rw [start]
    exact Or.inr ⟨i, [], inside, target, volume.replaceEntry_cases works inside target (by simp [unused]) buffer⟩
  · rw [hit] at search
    refine Or.inl ⟨none, absent, ?_⟩
    simp only [fatWriteFile, if_neg enabled, sound.type, format, search]
    rfl

/-- Every write on a well-formed volume fails at once, or goes to an entry. -/
theorem write_outcome (volume : FatVolume s.dev s.fat) (works : s.dev.Works) (text buffer : Option (List UInt8)) :
    fatWriteFile s text buffer = .ok (s, -1) ∨
    ∃ name bytes i cs, text.bind fatFormatName = some name ∧ buffer = some bytes ∧ i < s.fat.slots ∧
      s.fat.Target s.dev.disk name i cs ∧ WriteOutcome s name bytes i cs (fatWriteFile s text buffer) := by
  by_cases refused : text.bind fatFormatName = none ∨ buffer = none
  · exact Or.inl (fatWriteFile_refused s refused)
  · obtain ⟨encodable, given⟩ := not_or.mp refused
    obtain ⟨name, encoded⟩ := Option.ne_none_iff_exists'.mp encodable
    obtain ⟨bytes, rfl⟩ := Option.ne_none_iff_exists'.mp given
    obtain ⟨text, rfl, format⟩ := Option.bind_eq_some_iff.mp encoded
    rcases volume.fatWriteFile_cases works format bytes with ⟨_, _, run⟩ | ⟨i, cs, inside, target, outcome⟩
    · exact Or.inl run
    · exact Or.inr ⟨name, bytes, i, cs, encoded, rfl, inside, target, outcome⟩

/-- A write succeeds where there is a vacant entry and a free run. -/
theorem write_succeeds (volume : FatVolume s.dev s.fat) (works : s.dev.Works) {text name buffer : List UInt8}
    (format : fatFormatName text = some name) {i t : Nat} (inside : i < s.fat.slots)
    (vacant : s.fat.Vacant s.dev.disk i)
    (free : s.fat.FreeRun s.dev.disk t (max (s.fat.clustersNeeded buffer.length) 1)) :
    ∃ s', fatWriteFile s (some text) (some buffer) = .ok (s', 0) := by
  rcases volume.fatWriteFile_cases works format buffer with
    ⟨full, _, _⟩ | ⟨i, cs, _, target, ⟨_, none, _⟩ | ⟨first, m, _, _, stores⟩⟩
  · exact absurd vacant (full i inside)
  · refine absurd ⟨free.1, free.2.1, fun c lower upper => ?_⟩ (none t)
    rw [s.fat.entry_freed _ cs target.nodup]
    split
    · rfl
    · exact free.2.2 c lower upper
  · exact fatRefreshRootCache_returns stores volume.type

end FatVolume

end LearningOS
