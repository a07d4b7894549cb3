import LearningOS.Fat.Write
import LearningOS.Run.Faults

namespace LearningOS
open ByteStore Links Prefixes

namespace FatFs

/-- Freeing the clusters of a chain on a device that may fail, from the `asked`-th request
on: the number of the next request, and the disk. Where a link cannot be read the rest of
the chain is left as it is. -/
def freedBy (fat : FatFs) (dev : StorageDevice) : Nat → Bytes → List Nat → Nat × Bytes
  | asked, m, [] => (asked, m)
  | asked, m, c :: rest =>
    let reached := dev.answers (asked + 1) (fat.tableSector c)
    let later := if reached then asked + 3 else asked + 2
    let cleared := if reached ∧ dev.accepts (asked + 2) (fat.tableSector c) then setWord m fat.tableBase c 0 else m
    if dev.answers asked (fat.tableSector c) then freedBy fat dev later cleared rest else (later, cleared)

/-- How many of the `n` clusters of a run are filled, the first of them from the `asked`-th
request on: up to the first whose link cannot be read. -/
def filled (fat : FatFs) (dev : StorageDevice) (asked first n : Nat) : Nat :=
  leading (fun l => dev.answers (asked + l * (fat.sectorsPerCluster + 1) + fat.sectorsPerCluster)
    (fat.tableSector (first + l))) (n - 1) + 1

/-- The same for a call that starts to search for the run with its `asked`-th request: the
search reads the FAT up to the end of the run, and a link takes two requests. -/
def filledAfter (fat : FatFs) (dev : StorageDevice) (asked first n : Nat) : Nat :=
  fat.filled dev (asked + (first + n - 2) + 2 * n) first n

/-- The disk once a run of clusters is linked and `k` of them hold the bytes of a file. -/
def storedIn (fat : FatFs) (m : Bytes) (first : Nat) (buffer : List UInt8) (k : Nat) : Bytes :=
  if buffer = [] then m
  else paste (setWords m fat.tableBase (runLinks first (fat.clustersNeeded buffer.length))) (fat.clusterBase first)
    (padSector (buffer.take (k * fat.clusterBytes)))

/-- Where a device that may fail places a file: in the first run of clusters that look
free. -/
inductive PlacedBy (fat : FatFs) (dev : StorageDevice) (asked : Nat) (m : Bytes) (buffer : List UInt8) :
    Nat → Prop
  | empty : buffer = [] → PlacedBy fat dev asked m buffer 0
  | run {first : Nat} : buffer ≠ [] → 2 ≤ first → first + fat.clustersNeeded buffer.length ≤ fat.totalClusters →
      FirstRun (fat.LooksFree dev asked m) fat.totalClusters (fat.clustersNeeded buffer.length) first →
        PlacedBy fat dev asked m buffer first

end FatFs

variable {fat : FatFs} {dev dev' : StorageDevice} {m : Bytes} {asked : Nat}

theorem FatFs.filled_succ (fat : FatFs) (dev : StorageDevice) (asked first n : Nat) :
    fat.filled dev asked first (n + 2) =
      if dev.answers (asked + fat.sectorsPerCluster) (fat.tableSector first) then
        fat.filled dev (asked + fat.sectorsPerCluster + 1) (first + 1) (n + 1) + 1
      else 1 := by
  have later : (fun l => dev.answers (asked + (l + 1) * (fat.sectorsPerCluster + 1) + fat.sectorsPerCluster)
      (fat.tableSector (first + (l + 1)))) = fun l =>
        dev.answers (asked + fat.sectorsPerCluster + 1 + l * (fat.sectorsPerCluster + 1) + fat.sectorsPerCluster)
          (fat.tableSector (first + 1 + l)) := by
    funext l
    rw [Nat.succ_mul, Nat.add_assoc first, Nat.add_comm 1 l]
    congr 1
    omega
  rw [FatFs.filled, show n + 2 - 1 = n + 1 from rfl, leading, later]
  simp only [Nat.zero_mul, Nat.add_zero]
  by_cases answered : dev.answers (asked + fat.sectorsPerCluster) (fat.tableSector first) = true
  · rw [if_pos answered, if_pos answered]
    rfl
  · rw [if_neg answered, if_neg answered]

/-- The storing loop stops at once without bytes, or at a mark. -/
theorem storeLoop_stops {fuel c : Nat} {buffer : List UInt8} (stop : ¬ (buffer.length > 0 ∧ c ≥ 2 ∧ c < 0xFFF8))
    (run : storeLoop fat fuel dev c buffer = .ok (dev', true)) : dev' = dev := by
  cases fuel with
  | zero => simp [storeLoop] at run
  | succ fuel =>
    rw [storeLoop, if_neg stop] at run
    exact (Prod.mk.inj (Except.ok.inj run)).1.symm

section
variable (present : dev.present = true) (read : dev.read = true) (write : dev.write = true)
  (sound : fat.Sound dev.sectors)
include present read sound

theorem fatReadFatEntry_after {c : Nat} (bound : c < fat.totalClusters + 2) :
    fatReadFatEntry fat (dev.after asked m) c =
      (dev.after (asked + 1) m, if dev.answers asked (fat.tableSector c) then fat.entry m c else 0) := by
  have clusters := sound.clusters
  rw [sound.table16.read_after present read (by omega), sound.tableEntry_eq]

include write

theorem fatWriteFatEntry_after {c : Nat} (v : Nat) (bound : c < fat.totalClusters + 2) :
    fatWriteFatEntry fat (dev.after asked m) c v =
      if dev.answers asked (fat.tableSector c) then
        (dev.after (asked + 2) (if dev.accepts (asked + 1) (fat.tableSector c) then setWord m fat.tableBase c v else m),
          dev.accepts (asked + 1) (fat.tableSector c))
      else (dev.after (asked + 1) m, false) := by
  have clusters := sound.clusters
  rw [sound.table16.write_after present read write (by omega), sound.tablePlace_eq]
  rfl

/-- A run whose linking succeeds. -/
theorem linkRun_after {first needed : Nat} {is : List Nat} (inside : first + needed ≤ fat.totalClusters)
    (bound : ∀ i ∈ is, i < needed) (run : linkRun fat first needed is (dev.after asked m) = (dev', true)) :
    dev' = dev.after (asked + 2 * is.length) (setWords m fat.tableBase (is.map (runLink first needed))) := by
  induction is generalizing asked m with
  | nil => exact (Prod.mk.inj run).1.symm
  | cons i rest ih =>
    have clusters := sound.clusters
    have less := bound i List.mem_cons_self
    have cur : u32 (first + i) = first + i := u32_of_lt (by omega)
    have next : u32 (first + i + 1) = first + i + 1 := u32_of_lt (by omega)
    simp only [linkRun, cur, next,
      fatWriteFatEntry_after present read write sound _ (show first + i < fat.totalClusters + 2 by omega)] at run
    by_cases reached : dev.answers asked (fat.tableSector (first + i)) = true
    · by_cases accepted : dev.accepts (asked + 1) (fat.tableSector (first + i)) = true
      · simp only [reached, accepted, if_true] at run
        have linked := ih (fun j member => bound j (List.mem_cons_of_mem i member)) run
        rw [linked, List.length_cons, show asked + 2 + 2 * rest.length = asked + 2 * (rest.length + 1) by omega]
        rfl
      · simp [reached, accepted] at run
    · simp [reached] at run

omit read in
/-- The sectors of a cluster from `s` on, where their writes succeed. -/
theorem storeCluster_after {c s n : Nat} {buffer left : List UInt8} (member : fat.IsCluster c)
    (inside : s + n ≤ fat.sectorsPerCluster) (more : buffer ≠ [] ∨ n = 0)
    (run : storeCluster fat c (List.range' s n) (dev.after asked m) buffer = (dev', some left)) :
    left = buffer.drop (512 * n) ∧ ∃ later,
      dev' = dev.after later (paste m (fat.clusterBase c + 512 * s) (padSector (buffer.take (512 * n)))) ∧
        (512 * n ≤ buffer.length → later = asked + n) := by
  induction n generalizing s asked m buffer with
  | zero =>
    obtain ⟨rfl, same⟩ := Prod.mk.inj run
    cases Option.some.inj same
    exact ⟨by simp, asked, by simp [padSector], fun _ => rfl⟩
  | succ n ih =>
    obtain ⟨address, onDisk⟩ := sound.lba_eq member (show s < fat.sectorsPerCluster by omega)
    have filled : buffer ≠ [] := by simpa using more
    rw [List.range'_succ] at run
    simp only [storeCluster, sound.bytes, StorageDevice.writeSector_after present write] at run
    by_cases accepted : dev.accepts asked (u32 (fatClusterToLba fat c + s)) = true
    · simp only [accepted, if_true] at run
      by_cases short : buffer.length < 512
      · rw [if_pos short, putSector_zeroed filled short.le, address] at run
        obtain ⟨rfl, same⟩ := Prod.mk.inj run
        cases Option.some.inj same
        rw [List.take_of_length_le (by omega), List.drop_eq_nil_of_le (by omega)]
        exact ⟨rfl, asked + 1, rfl, by omega⟩
      · have front : buffer.take 512 ≠ [] := by simpa using filled
        rw [if_neg short, putSector_zeroed front (List.length_take_le _ _), address] at run
        by_cases done : buffer.drop 512 = []
        · have length := List.drop_eq_nil_iff.mp done
          rw [if_pos done] at run
          obtain ⟨rfl, same⟩ := Prod.mk.inj run
          cases Option.some.inj same
          rw [List.take_of_length_le length, List.take_of_length_le (by omega), List.drop_eq_nil_of_le (by omega)]
          exact ⟨rfl, asked + 1, rfl, by omega⟩
        · rw [if_neg done] at run
          obtain ⟨rest, later, same, count⟩ := ih (by omega) (Or.inl done) run
          refine ⟨by rw [rest, List.drop_drop]; congr 1; omega, later, ?_, fun long => ?_⟩
          · rw [same, Nat.mul_succ, ← Nat.add_assoc, paste_padSector_take rfl (Nat.not_lt.mp short), Nat.mul_succ,
              Nat.add_comm 512]
          · rw [count (by rw [List.length_drop]; omega)]
            omega
    · simp only [accepted, Bool.false_eq_true, if_false] at run
      split at run
      · simp at run
      · simp at run

/-- A run of linked clusters whose writes succeed is filled up to the first cluster whose
link cannot be read. -/
theorem storeLoop_after {first n fuel : Nat} {buffer : List UInt8} (two : 2 ≤ first)
    (inside : first + n ≤ fat.totalClusters) (path : Path (fat.link m) first (List.range' first n))
    (more : (n - 1) * fat.clusterBytes < buffer.length) (fits : buffer.length ≤ n * fat.clusterBytes)
    (run : storeLoop fat fuel (dev.after asked m) first buffer = .ok (dev', true)) :
    ∃ later, dev' = dev.after later (paste m (fat.clusterBase first)
      (padSector (buffer.take (fat.filled dev asked first n * fat.clusterBytes)))) := by
  induction n generalizing first fuel asked m buffer with
  | zero => omega
  | succ n ih =>
    have filled : buffer ≠ [] := List.length_pos_iff.mp (by omega)
    have member : fat.IsCluster first := ⟨two, by omega⟩
    have clusters := sound.clusters
    obtain ⟨fuel, rfl⟩ : ∃ k, fuel = k + 1 := by
      cases fuel with
      | zero => simp [storeLoop] at run
      | succ fuel => exact ⟨fuel, rfl⟩
    rw [storeLoop, if_pos ⟨List.length_pos_iff.mpr filled, two, by omega⟩] at run
    rcases stores : storeCluster fat first (List.range fat.sectorsPerCluster) (dev.after asked m) buffer with
      ⟨dev₁, left⟩
    cases left with
    | none => simp [stores] at run
    | some left =>
      simp only [stores] at run
      rw [List.range_eq_range'] at stores
      obtain ⟨rfl, later, rfl, count⟩ := storeCluster_after present write sound member
        (show 0 + fat.sectorsPerCluster ≤ _ by omega) (Or.inl filled) stores
      rw [Nat.mul_zero, Nat.add_zero, fatReadFatEntry_after present read sound member.2,
        sound.entry_paste member.2] at run
      change fat.clusterBytes ≤ buffer.length → later = asked + fat.sectorsPerCluster at count
      change storeLoop fat fuel (dev.after (later + 1) (paste m (fat.clusterBase first)
        (padSector (buffer.take fat.clusterBytes)))) _ (buffer.drop fat.clusterBytes) = _ at run
      cases n with
      | zero =>
        rw [Nat.zero_add, Nat.one_mul] at fits
        rw [List.drop_eq_nil_of_le fits] at run
        have done := storeLoop_stops (by simp) run
        exact ⟨later + 1, by rw [done, show fat.filled dev asked first (0 + 1) = 1 from rfl, Nat.one_mul]⟩
      | succ n =>
        rw [Nat.add_sub_cancel, Nat.succ_mul] at more
        rw [Nat.succ_mul, Nat.succ_mul] at fits
        rw [count (by omega)] at run
        rw [fat.filled_succ]
        by_cases answered : dev.answers (asked + fat.sectorsPerCluster) (fat.tableSector first) = true
        · obtain ⟨link, rest⟩ := path.tail
          have sectors : fat.clusterBytes % 512 = 0 := Nat.mul_mod_right 512 _
          rw [if_pos answered, (FatFs.link_eq_some link).1] at run
          rw [if_pos answered]
          have path' : Path (fat.link (paste m (fat.clusterBase first) (padSector (buffer.take fat.clusterBytes))))
              (first + 1) (List.range' (first + 1) (n + 1)) := by
            refine rest.congr fun c atC => ?_
            obtain ⟨i, less, rfl⟩ := List.mem_range'.mp (show c ∈ List.range' (first + 1) (n + 1) from atC)
            simp only [FatFs.link, sound.entry_paste (show first + 1 + 1 * i < _ by omega)]
          obtain ⟨later, same⟩ := ih (by omega) (by omega) path' (by rw [List.length_drop, Nat.add_sub_cancel]; omega)
            (by rw [List.length_drop, Nat.succ_mul]; omega) run
          refine ⟨later, ?_⟩
          rw [same, FatFs.Sound.clusterBase_succ fat two, paste_padSector_take sectors (by omega), Nat.succ_mul,
            Nat.add_comm]
        · -- the link counts as 0
          rw [if_neg answered] at run
          rw [if_neg answered, Nat.one_mul]
          exact ⟨_, storeLoop_stops (by omega) run⟩

/-- The bytes of a file are placed, as far as the links of their clusters can be read. -/
theorem storeData_after {buffer : List UInt8} {first : Nat} (noWrap : buffer.length + fat.clusterBytes ≤ 2 ^ 32)
    (run : storeData fat (dev.after asked m) buffer = .ok (dev', some first)) :
    fat.PlacedBy dev asked m buffer first ∧
      ∃ later, dev' = dev.after later (fat.storedIn m first buffer
        (fat.filledAfter dev asked first (fat.clustersNeeded buffer.length))) := by
  by_cases empty : buffer = []
  · rw [storeData, if_neg (by simp [empty])] at run
    obtain ⟨rfl, same⟩ := Prod.mk.inj (Except.ok.inj run)
    cases Option.some.inj same
    exact ⟨.empty empty, asked, by rw [FatFs.storedIn, if_pos empty]⟩
  · have filled := List.length_pos_iff.mpr empty
    have size : u32 (fat.bytesPerSector * fat.sectorsPerCluster) = fat.clusterBytes := by
      rw [sound.bytes]
      exact u32_of_lt sound.clusterBytes_lt.2
    have needed : u32 (buffer.length + fat.clusterBytes - 1) / fat.clusterBytes =
        fat.clustersNeeded buffer.length := rfl
    obtain ⟨positive, fits⟩ := sound.clustersNeeded_fits filled noWrap
    have tight := sound.clustersNeeded_tight filled noWrap
    obtain ⟨later, found, search, looks, count⟩ :=
      sound.table16.fatFindFreeRun_after present read asked m (fat.clustersNeeded buffer.length)
    rw [Nat.max_eq_left (show 1 ≤ _ from positive)] at looks count
    simp only [storeData, gt_iff_lt, filled, if_true, size, needed, search] at run
    by_cases zero : found = 0
    · simp [zero] at run
    · rw [if_neg zero] at run
      rcases linking : linkRun fat found (fat.clustersNeeded buffer.length)
        (List.range (fat.clustersNeeded buffer.length)) (dev.after (asked + later) m) with ⟨dev₁, done⟩
      cases done with
      | false => simp [linking] at run
      | true =>
        obtain ⟨two, upper, _⟩ := (looks.resolve_left fun none => zero none.1).1
        obtain rfl := linkRun_after present read write sound upper (by simp) linking
        simp only [linking] at run
        rw [List.length_range, count zero] at run
        obtain ⟨⟨dev₂, stored⟩, loop, result⟩ := Faults.bind_ok run
        obtain ⟨rfl, same⟩ := Prod.mk.inj (Except.ok.inj result)
        cases stored with
        | false => simp at same
        | true =>
          cases Option.some.inj same
          obtain ⟨later, stored⟩ := storeLoop_after present read write sound two upper
            (runLinks_chain m two positive upper sound.clusters).path tight fits loop
          exact ⟨.run empty two upper looks, later, by rw [stored, FatFs.storedIn, if_neg empty]; rfl⟩

omit write sound in
theorem scanRoot16_moves (is : List Nat) (files : List FatFileInfo) :
    ∃ later files', scanRoot16 fat is (dev.after asked m) files = (dev.after later m, files') := by
  induction is generalizing asked files with
  | nil => exact ⟨asked, files, rfl⟩
  | cons i rest ih =>
    simp only [scanRoot16, StorageDevice.readSector_after present read]
    split
    · rename_i dev₁ none
      split at none
      · simp at none
      · exact ⟨asked + 1, files, by rw [(Prod.mk.inj none).1]⟩
    · rename_i dev₁ sector some
      split at some
      · obtain ⟨rfl, _⟩ := Prod.mk.inj some
        exact ih _
      · simp at some

end

/-- A call whose device answered the read of the directory sector, after the old clusters
were freed: if it returns 0, the bytes were placed and the entry written. -/
theorem replaceEntry_after {s s' : FatState} {found : Bool} {name buffer : List UInt8} {lba offset asked₁ : Nat}
    {m₁ : Bytes} (present : s.dev.present = true) (read : s.dev.read = true) (write : s.dev.write = true)
    (sound : s.fat.Sound s.dev.sectors) (noWrap : buffer.length + s.fat.clusterBytes ≤ 2 ^ 32)
    (freed : freeOld s.fat (s.dev.after (asked + 1) m) found (load16 (sectorAt m lba) (offset + 26)) =
      .ok (s.dev.after asked₁ m₁))
    (run : replaceEntry { s with dev := s.dev.after asked m } found name lba offset buffer = .ok (s', 0)) :
    ∃ first, s.fat.PlacedBy s.dev asked₁ m₁ buffer first ∧ s'.fat = s.fat ∧
      ∃ later, s'.dev = s.dev.after later (putSector (s.fat.storedIn m₁ first buffer
        (s.fat.filledAfter s.dev asked₁ first (s.fat.clustersNeeded buffer.length))) lba
          (fillEntry (sectorAt m lba) offset name first buffer.length)) := by
  simp only [replaceEntry, StorageDevice.readSector_after present read] at run
  by_cases answered : s.dev.answers asked lba = true
  · simp only [if_pos answered] at run
    obtain ⟨dev₁, freeing, run⟩ := Faults.bind_ok run
    cases Except.ok.inj (freed.symm.trans freeing)
    obtain ⟨⟨dev₂, result⟩, storing, run⟩ := Faults.bind_ok run
    cases result with
    | none => simp at run
    | some first =>
      obtain ⟨placed, later, rfl⟩ := storeData_after present read write sound noWrap storing
      refine ⟨first, placed, ?_⟩
      simp only [StorageDevice.writeSector_after present write] at run
      by_cases accepted : s.dev.accepts later lba = true
      · simp only [accepted, if_true, fatRefreshRootCache, fatRefreshRootCacheWithin, sound.type] at run
        obtain ⟨last, files, scan⟩ := scanRoot16_moves present read
          (m := putSector (s.fat.storedIn m₁ first buffer
            (s.fat.filledAfter s.dev asked₁ first (s.fat.clustersNeeded buffer.length))) lba
              (fillEntry (sectorAt m lba) offset name first buffer.length)) (List.range s.fat.rootDirSectors) []
        rw [scan] at run
        cases Except.ok.inj run
        exact ⟨rfl, last, rfl⟩
      · simp [accepted] at run
  · simp [answered] at run

end LearningOS
