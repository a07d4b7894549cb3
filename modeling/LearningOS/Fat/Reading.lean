import LearningOS.Fat.Volume
import LearningOS.Store.Prefixes

namespace LearningOS
open ByteStore Links Prefixes

namespace FatFs

/-- The FAT entry of a cluster, in a table of either type. -/
def fatEntry (fat : FatFs) (m : Bytes) (c : Nat) : Nat :=
  if fat.fatType = 16 then load16 m (fat.tableBase + 2 * c) else load32 m (fat.tableBase + 4 * c) % 2 ^ 28

/-- The cluster after a cluster, if its entry is no mark. -/
def next (fat : FatFs) (m : Bytes) (c : Nat) : Option Nat :=
  if 2 ≤ fat.fatEntry m c ∧ fat.fatEntry m c < fat.endMark then some (fat.fatEntry m c) else none

/-- The clusters of a file, in the order of their links. -/
structure FileChain (fat : FatFs) (m : Bytes) (first : Nat) (cs : List Nat) : Prop where
  path : Path (fat.next m) first cs
  inside : ∀ c ∈ cs, fat.IsCluster c

/-- Where the bytes of some clusters lie on the disk. -/
def places (fat : FatFs) (cs : List Nat) : List Nat :=
  cs.flatMap fun c => List.range' (fat.clusterBase c) fat.clusterBytes

/-- How many sectors of a cluster are asked for when `left` bytes are missing. -/
def wanted (fat : FatFs) (left : Nat) : Nat := min fat.sectorsPerCluster ((left + 511) / 512)

/-- Where the bytes lie that `fat_read_file` reads from the clusters of a file, if its
requests are answered as `ok` says: a sector that cannot be read ends its cluster, a
FAT entry that cannot be read ends the file. -/
def placesRead (fat : FatFs) (ok : Nat → Nat → Bool) : Nat → List Nat → Nat → List Nat
  | _, [], _ => []
  | asked, c :: rest, left =>
    let read := leading (fun i => ok (asked + i) (fat.clusterSector c + i)) (fat.wanted left)
    let later := asked + if read = fat.wanted left then read else read + 1
    List.range' (fat.clusterBase c) (min left (512 * read)) ++
      if ok later (fat.entrySector c) then placesRead fat ok (later + 1) rest (left - 512 * read) else []

/-- After a failed read: clusters whose first sector cannot be read either, then one
whose first sector can. -/
inductive Resumes (fat : FatFs) (ok : Nat → Nat → Bool) : Nat → List Nat → Prop
  | here {asked c rest} : ok asked (fat.clusterSector c) = true → Resumes fat ok asked (c :: rest)
  | later {asked c rest} : ok asked (fat.clusterSector c) = false → ok (asked + 1) (fat.entrySector c) = true →
      Resumes fat ok (asked + 2) rest → Resumes fat ok asked (c :: rest)

/-- A sector that is asked for cannot be read, and a sector of a later cluster is read
after it. -/
inductive Skips (fat : FatFs) (ok : Nat → Nat → Bool) : Nat → List Nat → Nat → Prop
  | here {asked c rest left k} : k < fat.wanted left →
      (∀ i, i < k → ok (asked + i) (fat.clusterSector c + i) = true) →
      ok (asked + k) (fat.clusterSector c + k) = false → ok (asked + k + 1) (fat.entrySector c) = true →
      Resumes fat ok (asked + k + 2) rest → Skips fat ok asked (c :: rest) left
  | later {asked c rest left} :
      (∀ i, i < fat.sectorsPerCluster → ok (asked + i) (fat.clusterSector c + i) = true) →
      ok (asked + fat.sectorsPerCluster) (fat.entrySector c) = true →
      Skips fat ok (asked + fat.sectorsPerCluster + 1) rest (left - fat.clusterBytes) →
      Skips fat ok asked (c :: rest) left

end FatFs

variable {fat : FatFs} {dev : StorageDevice} {m : Bytes} {ok : Nat → Nat → Bool} {asked : Nat}

theorem FatFs.next_eq_some {c d : Nat} (link : fat.next m c = some d) :
    fat.fatEntry m c = d ∧ 2 ≤ d ∧ d < fat.endMark := by
  unfold FatFs.next at link
  split at link
  · rename_i both
    cases Option.some.inj link
    exact ⟨rfl, both⟩
  · simp at link

theorem FatFs.next_eq_none {c : Nat} (ends : fat.next m c = none) :
    fat.fatEntry m c < 2 ∨ fat.endMark ≤ fat.fatEntry m c := by
  unfold FatFs.next at ends
  split at ends
  · simp at ends
  · omega

/-- A file ends at its first cluster, or goes on at the cluster its entry names. -/
theorem FatFs.FileChain.cons {first c : Nat} {cs : List Nat} (chain : fat.FileChain m first (c :: cs)) :
    c = first ∧ fat.IsCluster c ∧
      (cs = [] ∧ (fat.fatEntry m c < 2 ∨ fat.endMark ≤ fat.fatEntry m c) ∨
        fat.fatEntry m c < fat.endMark ∧ fat.FileChain m (fat.fatEntry m c) cs) := by
  have inside := chain.inside c List.mem_cons_self
  cases chain.path with
  | stop ends => exact ⟨rfl, inside, Or.inl ⟨rfl, FatFs.next_eq_none ends⟩⟩
  | step link path =>
    obtain ⟨rfl, _, high⟩ := FatFs.next_eq_some link
    exact ⟨rfl, inside, Or.inr ⟨high, path, fun d atD => chain.inside d (List.mem_cons_of_mem first atD)⟩⟩

theorem FatFs.FileChain.head_mem {first : Nat} {cs : List Nat} (chain : fat.FileChain m first cs) : first ∈ cs := by
  obtain ⟨tail, rfl⟩ := chain.path.head
  exact List.mem_cons_self

section
variable {sectors : Nat} (readable : fat.Readable sectors) (serves : dev.Serves m ok asked)
include readable serves

/-- A FAT entry that cannot be read is taken for that of a free cluster. -/
theorem fatReadFatEntry_serves {c : Nat} (member : fat.IsCluster c) :
    ∃ dev', fatReadFatEntry fat dev c = (dev', if ok asked (fat.entrySector c) then fat.fatEntry m c else 0) ∧
      dev'.Serves m ok (asked + 1) ∧ dev.Stays dev' := by
  have upper := member.2
  have clusters := readable.totalClusters_lt
  have table := readable.table
  have fats := readable.fats
  have small := readable.small
  obtain ⟨dev', read, later⟩ := serves.readSector (fat.entrySector c)
  have width : (if fat.fatType = 16 then 2 else 4) = fat.entryBytes := rfl
  have four : fat.entryBytes ≤ 4 := by
    unfold FatFs.entryBytes
    split
    · omega
    · exact le_rfl
  have inside : fat.entryBytes * c < fat.entryBytes * (fat.totalClusters + 2) :=
    Nat.mul_lt_mul_of_pos_left upper (by unfold FatFs.entryBytes; split <;> omega)
  have offset : u32 (c * fat.entryBytes) = fat.entryBytes * c := by
    rw [Nat.mul_comm]
    exact u32_of_lt (lt_of_le_of_lt (Nat.mul_le_mul_right c four) (by omega))
  have sector : u32 (fat.firstFatSector + fat.entryBytes * c / 512) = fat.entrySector c := u32_of_lt (by omega)
  refine ⟨dev', ?_, later⟩
  simp only [fatReadFatEntry, width, offset, readable.bytes, sector, read]
  by_cases answered : ok asked (fat.entrySector c) = true
  · simp only [if_pos answered]
    congr 1
    -- an entry lies in one sector
    unfold FatFs.fatEntry FatFs.entrySector FatFs.tableBase FatFs.entryBytes
    split
    · rw [load16_sectorAt (by omega)]
      congr 1
      omega
    · rw [load32_sectorAt (by omega)]
      congr 2
      omega
  · simp only [if_neg answered]

/-- The sectors of a cluster from `s` on, as far as they are answered, appended to
what was read before. -/
theorem readCluster_serves {toRead c s n : Nat} (out : List UInt8) (member : fat.IsCluster c)
    (inside : s + n ≤ fat.sectorsPerCluster) (small : toRead + 512 ≤ 2 ^ 32) :
    let want := min n ((toRead - out.length + 511) / 512)
    let read := leading (fun i => ok (asked + i) (fat.clusterSector c + s + i)) want
    ∃ dev', readCluster fat toRead c (List.range' s n) dev out =
        (dev', out ++ window m (fat.clusterBase c + 512 * s) (min (toRead - out.length) (512 * read))) ∧
      dev'.Serves m ok (asked + if read = want then read else read + 1) ∧ dev.Stays dev' := by
  induction n generalizing s dev asked out with
  | zero => exact ⟨dev, by simp [readCluster, leading, window], by simpa [leading] using serves, .refl dev⟩
  | succ n ih =>
    by_cases more : out.length < toRead
    · obtain ⟨address, _⟩ := readable.lba_eq member (show s < fat.sectorsPerCluster by omega)
      obtain ⟨next, sector, later, stays⟩ := serves.readSector (fat.clusterSector c + s)
      have want : min (n + 1) ((toRead - out.length + 511) / 512) =
          min n ((toRead - out.length - 512 + 511) / 512) + 1 := by omega
      simp only [want, leading, Nat.add_zero]
      have read : fatReadClusterSector fat dev c s = (next,
          if ok asked (fat.clusterSector c + s) = true then some (sectorAt m (fat.clusterSector c + s)) else none) := by
        rw [fatReadClusterSector, if_neg (by omega), address, sector]
      by_cases answered : ok asked (fat.clusterSector c + s) = true
      · rw [if_pos answered] at read
        have chunk : (if u32 (out.length + 512) > toRead then toRead - out.length else 512) =
            min (toRead - out.length) 512 := by
          rw [u32_of_lt (by omega)]
          split
          · omega
          · omega
        have within : 0 + min (toRead - out.length) 512 ≤ 512 := by omega
        have place : 512 * (fat.clusterSector c + s) = fat.clusterBase c + 512 * s := by
          rw [fat.clusterBase_eq, Nat.mul_add]
        have length : toRead - (out ++ window m (fat.clusterBase c + 512 * s) (min (toRead - out.length) 512)).length =
            toRead - out.length - 512 := by
          rw [List.length_append, window_length]
          omega
        have shift : (fun i => ok (asked + 1 + i) (fat.clusterSector c + (s + 1) + i)) =
            fun i => ok (asked + (i + 1)) (fat.clusterSector c + s + (i + 1)) := by
          simp only [Nat.add_assoc, Nat.add_comm 1]
        obtain ⟨dev', rest, served, after⟩ := ih later (s := s + 1) _ (by omega)
        rw [length, shift] at rest served
        rw [show fat.clusterBase c + 512 * (s + 1) = fat.clusterBase c + 512 * s + 512 by omega] at rest
        refine ⟨dev', ?_, ?_, stays.trans after⟩
        · simp only [List.range'_succ, readCluster, if_pos more, read, readable.bytes, chunk, window_sectorAt within,
            Nat.add_zero, place, rest, answered, if_true, List.append_assoc, window_sectors]
        · have count (k w : Nat) : asked + 1 + (if k = w then k else k + 1) =
              asked + if k + 1 = w + 1 then k + 1 else k + 1 + 1 := by
            simp only [Nat.add_right_cancel_iff]
            split
            · omega
            · omega
          simpa only [answered, if_true, count] using served
      · rw [if_neg answered] at read
        refine ⟨next, ?_, by simpa [answered] using later, stays⟩
        simp [List.range'_succ, readCluster, more, read, answered, window]
    · have done : toRead - out.length = 0 := by omega
      refine ⟨dev, ?_, ?_, .refl dev⟩
      · simp [List.range'_succ, readCluster, more, done, window]
      · simpa [done, leading] using serves

/-- One round of the loop: a cluster as far as its sectors are answered, then its FAT
entry. -/
theorem readLoop_step {toRead c : Nat} {out : List UInt8} (fuel : Nat) (member : fat.IsCluster c)
    (small : toRead + 512 ≤ 2 ^ 32) (more : out.length < toRead) :
    let want := fat.wanted (toRead - out.length)
    let read := leading (fun i => ok (asked + i) (fat.clusterSector c + i)) want
    let later := asked + if read = want then read else read + 1
    let out' := out ++ window m (fat.clusterBase c) (min (toRead - out.length) (512 * read))
    let next := if ok later (fat.entrySector c) then fat.fatEntry m c else 0
    ∃ dev', dev'.Serves m ok (later + 1) ∧ dev.Stays dev' ∧ readLoop fat toRead (fuel + 1) dev c out =
      if fat.fatType = 16 ∧ next ≥ 0xFFF8 then .ok (dev', out') else readLoop fat toRead fuel dev' next out' := by
  intro want read later out' next
  have upper := member.2
  have clusters := readable.totalClusters_lt
  obtain ⟨between, cluster, served, stays⟩ := readCluster_serves readable serves out member
    (show 0 + fat.sectorsPerCluster ≤ _ by omega) small
  rw [← List.range_eq_range'] at cluster
  obtain ⟨dev', entry, after, stays'⟩ := fatReadFatEntry_serves readable served member
  refine ⟨dev', after, stays.trans stays', ?_⟩
  rw [readLoop, if_pos ⟨member.1, by omega, more⟩, cluster]
  simp only [entry]
  rfl

end

theorem readLoop_stop {toRead c fuel : Nat} {out : List UInt8}
    (ends : c < 2 ∨ 0x0FFFFFF8 ≤ c ∨ toRead ≤ out.length) :
    readLoop fat toRead (fuel + 1) dev c out = .ok (dev, out) := by
  rw [readLoop, if_neg (by omega)]

theorem FatFs.placesRead_zero (cs : List Nat) : fat.placesRead ok asked cs 0 = [] := by
  induction cs generalizing asked with
  | nil => rfl
  | cons c rest ih => simp [FatFs.placesRead, ih]

/-- The bytes read along the clusters of a file are those of the places. -/
theorem readLoop_serves {toRead first fuel sectors : Nat} {cs : List Nat} (out : List UInt8)
    (readable : fat.Readable sectors) (serves : dev.Serves m ok asked) (chain : fat.FileChain m first cs)
    (small : toRead + 512 ≤ 2 ^ 32) (enough : cs.length < fuel) :
    ∃ dev', readLoop fat toRead fuel dev first out =
        .ok (dev', out ++ (fat.placesRead ok asked cs (toRead - out.length)).map m) ∧ dev.Stays dev' := by
  induction cs generalizing dev asked first fuel out with
  | nil => exact absurd chain.head_mem (by simp)
  | cons c rest ih =>
    obtain ⟨fuel, rfl⟩ : ∃ n, fuel = n + 1 := ⟨fuel - 1, by omega⟩
    obtain ⟨rfl, member, ends⟩ := chain.cons
    by_cases more : out.length < toRead
    · obtain ⟨fuel, rfl⟩ : ∃ n, fuel = n + 1 := ⟨fuel - 1, by simp at enough; omega⟩
      obtain ⟨dev', served, stays, step⟩ := readLoop_step readable serves (fuel + 1) member small more
      simp only [FatFs.placesRead, List.map_append, ← window_eq_map]
      generalize leading (fun i => ok (asked + i) (fat.clusterSector c + i)) (fat.wanted (toRead - out.length)) =
        read at served step ⊢
      generalize asked + (if read = fat.wanted (toRead - out.length) then read else read + 1) = later
        at served step ⊢
      rw [step]
      by_cases answered : ok later (fat.entrySector c) = true
      · simp only [if_pos answered]
        rcases ends with ⟨rfl, mark⟩ | ⟨high, goesOn⟩
        · refine ⟨dev', ?_, stays⟩
          rw [FatFs.placesRead, List.map_nil, List.append_nil]
          split
          · rfl
          · rename_i unmarked
            refine readLoop_stop ?_
            have type := readable.type
            unfold FatFs.endMark at mark
            split at mark
            · omega
            · omega
        · obtain ⟨dev'', run, after⟩ := ih
            (out ++ window m (fat.clusterBase c) (min (toRead - out.length) (512 * read))) served goesOn
            (show rest.length < fuel + 1 by simp at enough; omega)
          have left : toRead - (out.length + min (toRead - out.length) (512 * read)) =
              toRead - out.length - 512 * read := by omega
          refine ⟨dev'', ?_, stays.trans after⟩
          rw [List.length_append, window_length, left, List.append_assoc] at run
          rw [if_neg, run]
          unfold FatFs.endMark at high
          split at high
          · omega
          · exact fun sixteen => by omega
      · -- an entry that cannot be read ends the file
        refine ⟨dev', ?_, stays⟩
        simp only [if_neg answered]
        rw [if_neg (by omega), readLoop_stop (Or.inl (by decide)), List.map_nil, List.append_nil]
    · refine ⟨dev, ?_, .refl dev⟩
      rw [readLoop_stop (Or.inr (Or.inr (Nat.not_lt.mp more))), Nat.sub_eq_zero_of_le (Nat.not_lt.mp more),
        FatFs.placesRead_zero]
      simp

namespace FatFs
variable {c left : Nat} {rest cs : List Nat}

theorem places_cons (fat : FatFs) (c : Nat) (rest : List Nat) :
    fat.places (c :: rest) = List.range' (fat.clusterBase c) fat.clusterBytes ++ fat.places rest := List.flatMap_cons

theorem places_length (fat : FatFs) (cs : List Nat) : (fat.places cs).length = cs.length * fat.clusterBytes := by
  simp [places, List.length_flatMap]

theorem places_map (fat : FatFs) (m : Bytes) (cs : List Nat) :
    (fat.places cs).map m = cs.flatMap (fat.clusterData m) := by
  rw [places, List.map_flatMap]
  exact congrArg (List.flatMap · cs) (funext fun c => (window_eq_map m _ _).symm)

theorem take_rangeFrom (a n k : Nat) : (List.range' a n).take k = List.range' a (min k n) := by
  rcases Nat.le_total k n with within | beyond
  · rw [List.take_range'_of_length_ge within, Nat.min_eq_left within]
  · rw [List.take_range'_of_length_le beyond, Nat.min_eq_right beyond]

theorem range_begins (a : Nat) {k n : Nat} (within : k ≤ n) (l : List Nat) :
    List.range' a k <+: List.range' a n ++ l := by
  rw [← Nat.min_eq_left within, ← take_rangeFrom]
  exact (List.take_prefix k _).trans (List.prefix_append _ l)

theorem wanted_bytes (fat : FatFs) (left : Nat) :
    min left (512 * fat.wanted left) = min left fat.clusterBytes ∧
      left - 512 * fat.wanted left = left - fat.clusterBytes := by
  unfold wanted clusterBytes
  omega

/-- A cluster is read as far as it is wanted, or up to a sector that cannot be read. -/
theorem cluster_cases (fat : FatFs) (ok : Nat → Nat → Bool) (asked c left : Nat) :
    (∀ i, i < fat.wanted left → ok (asked + i) (fat.clusterSector c + i) = true) ∨
    ∃ k, k < fat.wanted left ∧ (∀ i, i < k → ok (asked + i) (fat.clusterSector c + i) = true) ∧
      ok (asked + k) (fat.clusterSector c + k) = false := by
  by_cases cut : leading (fun i => ok (asked + i) (fat.clusterSector c + i)) (fat.wanted left) < fat.wanted left
  · exact Or.inr ⟨_, cut, fun i less =>
      leading_answered (fun i => ok (asked + i) (fat.clusterSector c + i)) less, leading_refused _ cut⟩
  · exact Or.inl fun i less => leading_answered (fun i => ok (asked + i) (fat.clusterSector c + i))
      (Nat.lt_of_lt_of_le less (Nat.not_lt.mp cut))

theorem placesRead_whole (rest : List Nat)
    (answered : ∀ i, i < fat.wanted left → ok (asked + i) (fat.clusterSector c + i) = true) :
    fat.placesRead ok asked (c :: rest) left = List.range' (fat.clusterBase c) (min left fat.clusterBytes) ++
      if ok (asked + fat.wanted left) (fat.entrySector c) then
        fat.placesRead ok (asked + fat.wanted left + 1) rest (left - fat.clusterBytes) else [] := by
  simp only [placesRead, leading_all answered, if_true, (fat.wanted_bytes left).1, (fat.wanted_bytes left).2]

theorem placesRead_cut {k : Nat} (rest : List Nat) (less : k < fat.wanted left)
    (answered : ∀ i, i < k → ok (asked + i) (fat.clusterSector c + i) = true)
    (refused : ok (asked + k) (fat.clusterSector c + k) = false) :
    fat.placesRead ok asked (c :: rest) left = List.range' (fat.clusterBase c) (512 * k) ++
      if ok (asked + k + 1) (fat.entrySector c) then
        fat.placesRead ok (asked + k + 2) rest (left - 512 * k) else [] := by
  have bytes : min left (512 * k) = 512 * k := by
    unfold wanted at less
    omega
  simp only [placesRead, leading_unique answered less.le fun _ => refused, if_neg less.ne, bytes]
  rfl

theorem placesRead_length_le (fat : FatFs) (ok : Nat → Nat → Bool) (asked : Nat) (cs : List Nat) (left : Nat) :
    (fat.placesRead ok asked cs left).length ≤ left := by
  induction cs generalizing asked left with
  | nil => exact Nat.zero_le _
  | cons c rest ih =>
    rcases fat.cluster_cases ok asked c left with answered | ⟨k, less, answered, refused⟩
    · rw [placesRead_whole rest answered, List.length_append, List.length_range']
      split
      · have later := ih (asked + fat.wanted left + 1) (left - fat.clusterBytes)
        omega
      · simp
    · rw [placesRead_cut rest less answered refused, List.length_append, List.length_range']
      have within : 512 * k ≤ left := by
        unfold wanted at less
        omega
      split
      · have later := ih (asked + k + 2) (left - 512 * k)
        omega
      · simpa using within

/-- Only bytes of the clusters are read. -/
theorem placesRead_subset (fat : FatFs) (ok : Nat → Nat → Bool) (asked : Nat) (cs : List Nat) (left : Nat) :
    fat.placesRead ok asked cs left ⊆ fat.places cs := by
  induction cs generalizing asked left with
  | nil => exact List.nil_subset _
  | cons c rest ih =>
    have part {k n : Nat} (within : n ≤ fat.clusterBytes) (later left : Nat) :
        (List.range' (fat.clusterBase c) n ++
            if ok k (fat.entrySector c) then fat.placesRead ok later rest left else []) ⊆
          fat.places (c :: rest) := by
      rw [places_cons]
      refine List.append_subset.mpr ⟨(range_begins _ within _).subset, ?_⟩
      split
      · exact List.Subset.trans (ih _ _) (List.subset_append_right _ _)
      · exact List.nil_subset _
    rcases fat.cluster_cases ok asked c left with answered | ⟨k, less, answered, refused⟩
    · rw [placesRead_whole rest answered]
      exact part (Nat.min_le_right _ _) _ _
    · rw [placesRead_cut rest less answered refused]
      exact part (Nat.mul_le_mul_left 512 (less.le.trans (Nat.min_le_left _ _))) _ _

/-- On a device that answers, the bytes of the clusters are read in their order. -/
theorem placesRead_answered {sectors : Nat} (readable : fat.Readable sectors)
    (answers : ∀ i lba, lba < sectors → ok i lba = true) (inside : ∀ c ∈ cs, fat.IsCluster c) :
    fat.placesRead ok asked cs left = (fat.places cs).take left := by
  induction cs generalizing asked left with
  | nil => simp [placesRead, places]
  | cons c rest ih =>
    have member := inside c List.mem_cons_self
    have answered (i : Nat) (less : i < fat.wanted left) : ok (asked + i) (fat.clusterSector c + i) = true :=
      answers _ _ (readable.lba_eq member (Nat.lt_of_lt_of_le less (Nat.min_le_left _ _))).2
    rw [placesRead_whole rest answered, if_pos (answers _ _ (readable.entrySector_lt member)),
      ih fun d atD => inside d (List.mem_cons_of_mem c atD), places_cons, List.take_append]
    simp only [take_rangeFrom, List.length_range']

section
variable (cluster : 0 < fat.sectorsPerCluster)
include cluster

theorem wanted_pos (positive : 0 < left) : 0 < fat.wanted left := by
  unfold wanted
  omega

/-- Nothing more is read if no later cluster starts with a sector that can be read. -/
theorem placesRead_silent (silent : ¬ fat.Resumes ok asked cs) : fat.placesRead ok asked cs left = [] := by
  induction cs generalizing asked left with
  | nil => rfl
  | cons c rest ih =>
    by_cases positive : 0 < left
    · have refused : ok asked (fat.clusterSector c) = false := by
        by_contra answered
        exact silent (.here (Bool.not_eq_false _ ▸ answered))
      rw [placesRead_cut rest (wanted_pos cluster positive) (fun i less => absurd less (Nat.not_lt_zero i)) refused]
      simp only [Nat.mul_zero, List.range'_zero, List.nil_append, Nat.add_zero, ite_eq_right_iff]
      exact fun entry => ih fun resumes => silent (.later refused entry resumes)
    · rw [Nat.eq_zero_of_not_pos positive, placesRead_zero]

/-- Else the next byte is the first of a later cluster. -/
theorem placesRead_resumes (resumes : fat.Resumes ok asked cs) (positive : 0 < left) :
    ∃ d ∈ cs, ∃ tail, fat.placesRead ok asked cs left = fat.clusterBase d :: tail := by
  induction resumes with
  | @here asked c rest answered =>
    refine ⟨c, List.mem_cons_self, ?_⟩
    have wanted := wanted_pos cluster positive
    rcases fat.cluster_cases ok asked c left with whole | ⟨k, less, whole, refused⟩
    · have bytes : 0 < min left fat.clusterBytes := by
        unfold clusterBytes
        omega
      obtain ⟨n, size⟩ := Nat.exists_eq_succ_of_ne_zero bytes.ne'
      rw [placesRead_whole rest whole, size, List.range'_succ]
      exact ⟨_, rfl⟩
    · have some : k ≠ 0 := by
        rintro rfl
        simp [answered] at refused
      obtain ⟨n, size⟩ := Nat.exists_eq_succ_of_ne_zero (show 512 * k ≠ 0 by omega)
      rw [placesRead_cut rest less whole refused, size, List.range'_succ]
      exact ⟨_, rfl⟩
  | @later asked c rest refused entry resumes ih =>
    obtain ⟨d, atD, tail, read⟩ := ih
    refine ⟨d, List.mem_cons_of_mem c atD, tail, ?_⟩
    rw [placesRead_cut rest (wanted_pos cluster positive) (fun i less => absurd less (Nat.not_lt_zero i)) refused,
      if_pos entry]
    exact read

end

theorem Skips.positive (skips : fat.Skips ok asked cs left) : 0 < left := by
  induction skips with
  | here less =>
    unfold wanted at less
    omega
  | later _ _ _ ih => omega

/-- A sector is skipped behind a cluster only if all of that cluster is wanted. -/
theorem Skips.wanted_eq {later : Nat} (skips : fat.Skips ok later cs (left - fat.clusterBytes)) :
    fat.wanted left = fat.sectorsPerCluster := by
  have positive := skips.positive
  unfold clusterBytes at positive
  unfold wanted
  omega

theorem skips_whole (whole : ∀ i, i < fat.wanted left → ok (asked + i) (fat.clusterSector c + i) = true) :
    fat.Skips ok asked (c :: rest) left ↔ ok (asked + fat.wanted left) (fat.entrySector c) = true ∧
      fat.Skips ok (asked + fat.wanted left + 1) rest (left - fat.clusterBytes) := by
  constructor
  · intro skips
    cases skips with
    | here less _ refused => simp [whole _ less] at refused
    | later _ entry skips =>
      rw [skips.wanted_eq]
      exact ⟨entry, skips⟩
  · rintro ⟨entry, skips⟩
    rw [skips.wanted_eq] at whole entry skips
    exact .later whole entry skips

theorem skips_cut {k : Nat} (less : k < fat.wanted left)
    (answered : ∀ i, i < k → ok (asked + i) (fat.clusterSector c + i) = true)
    (refused : ok (asked + k) (fat.clusterSector c + k) = false) :
    fat.Skips ok asked (c :: rest) left ↔
      ok (asked + k + 1) (fat.entrySector c) = true ∧ fat.Resumes ok (asked + k + 2) rest := by
  refine ⟨fun skips => ?_, fun both => .here less answered refused both.1 both.2⟩
  cases skips with
  | @here _ _ _ _ j _ before failed entry resumes =>
    have same : j = k := by
      rcases Nat.lt_trichotomy j k with earlier | same | later
      · simp [answered j earlier] at failed
      · exact same
      · simp [before k later] at refused
    exact same ▸ ⟨entry, resumes⟩
  | later whole => simp [whole k (Nat.lt_of_lt_of_le less (Nat.min_le_left _ _))] at refused

/-- The first byte of a cluster is no byte of another one. -/
theorem clusterBase_apart {d i : Nat} (two : 2 ≤ c) (two' : 2 ≤ d) (other : d ≠ c) (inside : i < fat.clusterBytes) :
    fat.clusterBase d ≠ fat.clusterBase c + i := by
  rcases Nat.lt_or_gt_of_ne other with before | after
  · have ordered := Sound.clusterBase_mono fat two' before
    omega
  · have ordered := Sound.clusterBase_mono fat two after
    omega

/-- What is read is the start of the file exactly if no sector is skipped. -/
theorem placesRead_prefix_iff (cluster : 0 < fat.sectorsPerCluster) (once : cs.Nodup) (two : ∀ c ∈ cs, 2 ≤ c) :
    fat.placesRead ok asked cs left <+: fat.places cs ↔ ¬ fat.Skips ok asked cs left := by
  induction cs generalizing asked left with
  | nil => exact iff_of_true List.nil_prefix nofun
  | cons c rest ih =>
    obtain ⟨absent, once⟩ := List.nodup_cons.mp once
    have twoC := two c List.mem_cons_self
    have later (asked left : Nat) :
        fat.placesRead ok asked rest left <+: fat.places rest ↔ ¬ fat.Skips ok asked rest left :=
      ih once fun d atD => two d (List.mem_cons_of_mem c atD)
    rw [places_cons]
    rcases fat.cluster_cases ok asked c left with whole | ⟨k, less, answered, refused⟩
    · rw [placesRead_whole rest whole, skips_whole whole]
      by_cases more : fat.clusterBytes < left
      · rw [Nat.min_eq_right more.le, List.prefix_append_right_inj]
        split
        · rename_i entry
          rw [later]
          simp [entry]
        · rename_i entry
          exact iff_of_true List.nil_prefix fun both => entry both.1
      · -- the rest of the file is in this cluster
        rw [Nat.min_eq_left (Nat.not_lt.mp more), Nat.sub_eq_zero_of_le (Nat.not_lt.mp more), placesRead_zero,
          ite_self, List.append_nil]
        exact iff_of_true (range_begins _ (Nat.not_lt.mp more) _) fun both => absurd both.2.positive (Nat.lt_irrefl 0)
    · have inside : 512 * k < fat.clusterBytes ∧ 512 * k < left := by
        unfold wanted at less
        unfold clusterBytes
        omega
      rw [placesRead_cut rest less answered refused, skips_cut less answered refused]
      by_cases resumes : ok (asked + k + 1) (fat.entrySector c) = true ∧ fat.Resumes ok (asked + k + 2) rest
      · obtain ⟨d, atD, tail, read⟩ := placesRead_resumes cluster resumes.2 (Nat.sub_pos_of_lt inside.2)
        refine iff_of_false (fun starts => ?_) (not_not.mpr resumes)
        obtain ⟨n, parts⟩ := Nat.exists_eq_add_of_lt inside.1
        rw [if_pos resumes.1, read, show fat.clusterBytes = 512 * k + (n + 1) from parts, ← List.range'_append_1,
          List.append_assoc, List.prefix_append_right_inj, List.range'_succ, List.cons_append] at starts
        exact clusterBase_apart twoC (two d (List.mem_cons_of_mem c atD)) (fun same => absent (same ▸ atD)) inside.1
          (List.cons_prefix_cons.mp starts).1
      · refine iff_of_true ?_ resumes
        have nothing : (if ok (asked + k + 1) (fat.entrySector c) = true then
            fat.placesRead ok (asked + k + 2) rest (left - 512 * k) else []) = [] := by
          split
          · rename_i entry
            exact placesRead_silent cluster fun again => resumes ⟨entry, again⟩
          · rfl
        rw [nothing, List.append_nil]
        exact range_begins _ inside.1.le _

end FatFs

end LearningOS
