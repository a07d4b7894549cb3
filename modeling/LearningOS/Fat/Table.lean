import LearningOS.Fat.Entries
import LearningOS.Fat.Volume

namespace LearningOS
open ByteStore Links

namespace FatFs.Chain
variable {fat : FatFs} {m m' : Bytes} {first : Nat} {cs : List Nat}

/-- A chain depends on the FAT entries of its clusters only. -/
theorem congr (chain : fat.Chain m first cs) (same : ∀ c ∈ cs, fat.entry m' c = fat.entry m c) :
    fat.Chain m' first cs := by
  refine ⟨chain.path.congr fun c member => ?_, chain.inside, fun c member => ?_⟩
  · simp only [FatFs.link, same c member]
  · rw [same c member]
    exact chain.marked c member

theorem unique (chain : fat.Chain m first cs) {ds : List Nat} (again : fat.Chain m first ds) : cs = ds :=
  chain.path.unique again.path

theorem head_mem (chain : fat.Chain m first cs) : first ∈ cs := by
  obtain ⟨tail, rfl⟩ := chain.path.head
  exact List.mem_cons_self

/-- A chain ends at its first cluster, or goes on at the cluster that links to. -/
theorem cons {c : Nat} (chain : fat.Chain m first (c :: cs)) : c = first ∧ fat.IsCluster c ∧
    (cs = [] ∧ 0xFFF8 ≤ fat.entry m c ∨
      2 ≤ fat.entry m c ∧ fat.entry m c < 0xFFF8 ∧ fat.Chain m (fat.entry m c) cs) := by
  have inside := chain.inside c List.mem_cons_self
  have marked := chain.marked c List.mem_cons_self
  cases chain.path with
  | stop ends =>
    have mark := FatFs.link_eq_none ends
    exact ⟨rfl, inside, Or.inl ⟨rfl, by omega⟩⟩
  | step link path =>
    obtain ⟨rfl, low, high⟩ := FatFs.link_eq_some link
    exact ⟨rfl, inside, Or.inr ⟨low, high, path, fun d atD => chain.inside d (List.mem_cons_of_mem first atD),
      fun d atD => chain.marked d (List.mem_cons_of_mem first atD)⟩⟩

theorem length_le (chain : fat.Chain m first cs) : cs.length ≤ fat.totalClusters + 2 :=
  chain.path.length_le fun c member => (chain.inside c member).2

end FatFs.Chain

/-- A run of free clusters that `fat_find_free_run` looks at. -/
def FatFs.FreeRun (fat : FatFs) (m : Bytes) (start count : Nat) : Prop :=
  2 ≤ start ∧ start + count ≤ fat.totalClusters ∧ ∀ c, start ≤ c → c < start + count → fat.entry m c = 0

/-- The FAT entry of the `i`-th cluster of a run. -/
def runLink (first needed i : Nat) : Nat × Nat := (first + i, if i + 1 = needed then 0xFFFF else first + i + 1)

/-- The FAT entries that make a file of a run of clusters. -/
def runLinks (first needed : Nat) : List (Nat × Nat) := (List.range needed).map (runLink first needed)

/-- The FAT of a sound volume is a table of words. -/
theorem FatFs.Sound.table16 {fat : FatFs} {sectors : Nat} (sound : fat.Sound sectors) : fat.Table16 := by
  have cluster := sound.cluster
  have small := sound.small
  have many := Nat.mul_le_mul sound.many cluster
  have fats := sound.fats
  have root := sound.root
  refine ⟨sound.type, by rw [sound.bytes]; decide, by rw [sound.bytes], ?_, sound.clusters⟩
  unfold FatFs.tableSector
  rw [sound.bytes]
  omega

theorem FatFs.Sound.tablePlace_eq {fat : FatFs} {sectors : Nat} (sound : fat.Sound sectors) (c : Nat) :
    fat.tablePlace c = fat.tableBase + 2 * c := by
  unfold FatFs.tablePlace FatFs.tableSector FatFs.tableBase
  rw [sound.bytes]
  omega

theorem FatFs.Sound.tableEntry_eq {fat : FatFs} {sectors : Nat} (sound : fat.Sound sectors) :
    fat.tableEntry = fat.entry := by
  funext m c
  rw [FatFs.tableEntry, sound.tablePlace_eq]
  rfl

theorem FatFs.Sound.tableSector_lt {fat : FatFs} {sectors : Nat} (sound : fat.Sound sectors) {c : Nat}
    (bound : c < fat.totalClusters + 2) : fat.tableSector c < sectors := by
  have inside := (sound.entry_sector bound).2.1
  rwa [FatFs.tableSector, sound.bytes]

section
variable {fat : FatFs} {dev : StorageDevice} (works : dev.Works) (sound : fat.Sound dev.sectors)
include works sound

theorem fatReadFatEntry_eq {c : Nat} (bound : c < fat.totalClusters + 2) :
    fatReadFatEntry fat dev c = (dev, fat.entry dev.disk c) := by
  have clusters := sound.clusters
  rw [sound.table16.read_works works (by omega) (sound.tableSector_lt bound), sound.tableEntry_eq]

theorem fatWriteFatEntry_eq {c : Nat} (v : Nat) (bound : c < fat.totalClusters + 2) :
    fatWriteFatEntry fat dev c v = (dev.withDisk (setWord dev.disk fat.tableBase c v), true) := by
  have clusters := sound.clusters
  rw [sound.table16.write_works works (by omega) (sound.tableSector_lt bound), sound.tablePlace_eq]
  rfl

end

/-- Freeing a chain clears the FAT entries of its clusters and nothing else. -/
theorem freeChainLoop_eq {fat : FatFs} {cs : List Nat} {fuel first : Nat} {dev : StorageDevice}
    (works : dev.Works) (sound : fat.Sound dev.sectors) (chain : fat.Chain dev.disk first cs)
    (enough : cs.length < fuel) :
    freeChainLoop fat fuel dev first =
      .ok (dev.withDisk (setWords dev.disk fat.tableBase (cs.map fun c => (c, 0)))) := by
  induction cs generalizing fuel first dev with
  | nil => exact absurd chain.head_mem (by simp)
  | cons c rest ih =>
    obtain ⟨fuel, rfl⟩ : ∃ n, fuel = n + 1 := ⟨fuel - 1, by simp at enough; omega⟩
    obtain ⟨rfl, member, ends⟩ := chain.cons
    have clusters := sound.clusters
    have range := member.2
    have fresh := (List.nodup_cons.mp chain.path.nodup).1
    rw [freeChainLoop, if_pos ⟨member.1, by omega⟩]
    simp only [fatReadFatEntry_eq works sound range, fatWriteFatEntry_eq works sound 0 range]
    rcases ends with ⟨rfl, mark⟩ | ⟨_, _, rest⟩
    · obtain ⟨fuel, rfl⟩ : ∃ n, fuel = n + 1 := ⟨fuel - 1, by simp at enough; omega⟩
      rw [freeChainLoop, if_neg (by omega)]
      rfl
    · exact ih (works.withDisk (setWord dev.disk fat.tableBase c 0)) sound
        (rest.congr fun d atD => word_setWord_other fun same => fresh (same ▸ atD)) (by simp at enough; omega)

/-- A search on a device that can be read finds the first free run. -/
theorem fatFindFreeRun_reads {fat : FatFs} {dev : StorageDevice} (sound : fat.Sound dev.sectors) (reads : dev.Reads)
    (count : Nat) :
    ∃ later found, fatFindFreeRun fat dev count = (dev.after later dev.disk, found) ∧
      FirstRun (fun c => fat.entry dev.disk c = 0) fat.totalClusters (max count 1) found := by
  obtain ⟨later, found, search, first, _⟩ :=
    sound.table16.fatFindFreeRun_after reads.present reads.read 0 dev.disk count
  rw [Nat.zero_add] at search
  refine ⟨later, found, search, first.congr fun c _ less => ?_⟩
  rw [FatFs.LooksFree, reads.answers (sound.tableSector_lt (by omega)), sound.tableEntry_eq]
  simp

/-- `fat_find_free_run` finds the first free run, if there is one; a run of no
clusters is one of one cluster. -/
theorem fatFindFreeRun_spec {fat : FatFs} {dev : StorageDevice} (works : dev.Works) (sound : fat.Sound dev.sectors)
    (count : Nat) :
    ∃ found, fatFindFreeRun fat dev count = (dev, found) ∧
      ((found = 0 ∧ ∀ t, ¬ fat.FreeRun dev.disk t (max count 1)) ∨
        fat.FreeRun dev.disk found (max count 1) ∧ ∀ t, fat.FreeRun dev.disk t (max count 1) → found ≤ t) := by
  obtain ⟨later, found, search, first⟩ := fatFindFreeRun_reads sound works.reads count
  rw [works.after, StorageDevice.withDisk_self] at search
  exact ⟨found, search, first⟩

/-- Linking a run sets the FAT entries of its clusters. -/
theorem linkRun_eq {fat : FatFs} {first needed : Nat} {is : List Nat} {dev : StorageDevice}
    (works : dev.Works) (sound : fat.Sound dev.sectors) (inside : first + needed ≤ fat.totalClusters)
    (bound : ∀ i ∈ is, i < needed) :
    linkRun fat first needed is dev =
      (dev.withDisk (setWords dev.disk fat.tableBase (is.map (runLink first needed))), true) := by
  induction is generalizing dev with
  | nil => rfl
  | cons i rest ih =>
    have clusters := sound.clusters
    have less := bound i List.mem_cons_self
    have cur : u32 (first + i) = first + i := u32_of_lt (by omega)
    have next : u32 (first + i + 1) = first + i + 1 := u32_of_lt (by omega)
    simp only [linkRun, cur, next, fatWriteFatEntry_eq works sound _ (show first + i < fat.totalClusters + 2 by omega)]
    exact ih (works.withDisk _) sound fun j member => bound j (List.mem_cons_of_mem i member)

theorem runLinks_fst (first needed : Nat) : (runLinks first needed).map Prod.fst = List.range' first needed := by
  rw [runLinks, List.map_map, List.range'_eq_map_range]
  rfl

/-- A linked run is a chain. -/
theorem runLinks_chain {fat : FatFs} {first needed : Nat} (m : Bytes) (two : 2 ≤ first) (some : 0 < needed)
    (inside : first + needed ≤ fat.totalClusters) (clusters : fat.totalClusters < 65525) :
    fat.Chain (setWords m fat.tableBase (runLinks first needed)) first (List.range' first needed) := by
  have once : ((runLinks first needed).map Prod.fst).Nodup := by
    rw [runLinks_fst]
    exact List.nodup_range'
  have value {i : Nat} (less : i < needed) :
      fat.entry (setWords m fat.tableBase (runLinks first needed)) (first + i) =
        if i + 1 = needed then 0xFFFF else first + i + 1 := by
    have member : runLink first needed i ∈ runLinks first needed :=
      List.mem_map.mpr ⟨i, List.mem_range.mpr less, rfl⟩
    rw [FatFs.entry, word_setWords once member]
    split
    · rfl
    · exact Nat.mod_eq_of_lt (by omega)
  generalize setWords m fat.tableBase (runLinks first needed) = linked at value
  have path (n i : Nat) (split : i + n + 1 = needed) :
      Path (fat.link linked) (first + i) (List.range' (first + i) (n + 1)) := by
    induction n generalizing i with
    | zero =>
      refine .stop ?_
      simp [FatFs.link, value (show i < needed by omega), show i + 1 = needed by omega]
    | succ n ih =>
      have link : fat.link linked (first + i) = Option.some (first + (i + 1)) := by
        simp only [FatFs.link, value (show i < needed by omega), if_neg (show ¬ i + 1 = needed by omega)]
        exact if_pos ⟨by omega, by omega⟩
      exact .step link (ih (i + 1) (by omega))
  refine ⟨?_, fun c member => ?_, fun c member => ?_⟩
  · obtain ⟨n, rfl⟩ : ∃ n, needed = n + 1 := ⟨needed - 1, by omega⟩
    exact path n 0 (by omega)
  · obtain ⟨i, less, rfl⟩ := List.mem_range'.mp member
    exact ⟨by omega, by omega⟩
  · obtain ⟨i, less, rfl⟩ := List.mem_range'.mp member
    rw [Nat.one_mul, value less]
    split
    · omega
    · omega

end LearningOS
