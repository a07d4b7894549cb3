import LearningOS.Fat.Model
import LearningOS.Run.Faults

namespace LearningOS
open ByteStore

/-- The disk after some sector writes, each of them of a sector with its new bytes. -/
def applyWrites (sectors : Nat) (m : Bytes) (log : List (Nat × Bytes)) : Bytes :=
  log.foldl (fun m w => if w.1 < sectors then putSector m w.1 w.2 else m) m

/-- The write that `fat_write_fat_entry` asks for. -/
def entryWrites (fat : FatFs) (dev : StorageDevice) (cluster value : Nat) : List (Nat × Bytes) :=
  if fat.fatType ≠ 16 then []
  else
    let offset := u32 (cluster * 2)
    let sectorNum := u32 (fat.firstFatSector + offset / fat.bytesPerSector)
    match readSector dev sectorNum with
    | (_, none) => []
    | (_, some sector) => [(sectorNum, store16 sector (offset % fat.bytesPerSector) value)]

/-- The writes of `fat_free_chain`. -/
def freeWrites (fat : FatFs) : Nat → StorageDevice → Nat → List (Nat × Bytes)
  | 0, _, _ => []
  | fuel + 1, dev, cluster =>
    if cluster ≥ 2 ∧ cluster < 0xFFF8 then
      let (dev, next) := fatReadFatEntry fat dev cluster
      entryWrites fat dev cluster 0 ++ freeWrites fat fuel (fatWriteFatEntry fat dev cluster 0).1 next
    else []

/-- The writes that link a run. -/
def linkWrites (fat : FatFs) (first needed : Nat) : List Nat → StorageDevice → List (Nat × Bytes)
  | [], _ => []
  | i :: rest, dev =>
    let cur := u32 (first + i)
    let value := if i + 1 = needed then 0xFFFF else u32 (cur + 1)
    entryWrites fat dev cur value ++
      match fatWriteFatEntry fat dev cur value with
      | (_, false) => []
      | (dev, true) => linkWrites fat first needed rest dev

/-- The writes of one cluster of data. -/
def clusterWrites (fat : FatFs) (cluster : Nat) : List Nat → StorageDevice → List UInt8 → List (Nat × Bytes)
  | [], _, _ => []
  | s :: rest, dev, buffer =>
    let lba := u32 (fatClusterToLba fat cluster + s)
    let chunk := fat.bytesPerSector
    if buffer.length < chunk then [(lba, paste (fun _ => 0) 0 buffer)]
    else
      (lba, paste (fun _ => 0) 0 (buffer.take 512)) ::
        match writeSector dev lba (paste (fun _ => 0) 0 (buffer.take 512)) with
        | (_, false) => []
        | (dev, true) =>
          if buffer.drop chunk = [] then [] else clusterWrites fat cluster rest dev (buffer.drop chunk)

def loopWrites (fat : FatFs) : Nat → StorageDevice → Nat → List UInt8 → List (Nat × Bytes)
  | 0, _, _, _ => []
  | fuel + 1, dev, cluster, buffer =>
    if buffer.length > 0 ∧ cluster ≥ 2 ∧ cluster < 0xFFF8 then
      clusterWrites fat cluster (List.range fat.sectorsPerCluster) dev buffer ++
        match storeCluster fat cluster (List.range fat.sectorsPerCluster) dev buffer with
        | (_, none) => []
        | (dev, some buffer) =>
          let (dev, next) := fatReadFatEntry fat dev cluster
          loopWrites fat fuel dev next buffer
    else []

/-- The writes that place the bytes of a file. -/
def dataWrites (fat : FatFs) (dev : StorageDevice) (buffer : List UInt8) : List (Nat × Bytes) :=
  if buffer.length > 0 then
    let clusterSize := u32 (fat.bytesPerSector * fat.sectorsPerCluster)
    let clustersNeeded := u32 (buffer.length + clusterSize - 1) / clusterSize
    let (dev, first) := fatFindFreeRun fat dev clustersNeeded
    if first = 0 then []
    else
      linkWrites fat first clustersNeeded (List.range clustersNeeded) dev ++
        match linkRun fat first clustersNeeded (List.range clustersNeeded) dev with
        | (_, false) => []
        | (dev, true) => loopWrites fat chainLimit dev first buffer
  else []

/-- The writes of `fat_write_file` from the read of the directory sector on. -/
def replaceWrites (s : FatState) (found : Bool) (name : List UInt8) (sector offset : Nat) (buffer : List UInt8) :
    List (Nat × Bytes) :=
  match readSector s.dev sector with
  | (_, none) => []
  | (dev, some dirSector) =>
    let oldCluster := load16 dirSector (offset + 26)
    (if found = true ∧ oldCluster ≥ 2 then freeWrites s.fat chainLimit dev oldCluster else []) ++
      match freeOld s.fat dev found oldCluster with
      | .error _ => []
      | .ok dev =>
        dataWrites s.fat dev buffer ++
          match storeData s.fat dev buffer with
          | .ok (_, some first) => [(sector, fillEntry dirSector offset name first buffer.length)]
          | _ => []

/-- The sector writes that `fat_write_file` asks the device for, in order. -/
def fileWrites (s : FatState) (name buffer : Option (List UInt8)) : List (Nat × Bytes) :=
  match name, buffer with
  | some name, some buffer =>
    if s.fat.attached = false ∨ s.dev.present = false ∨ s.dev.write = false then []
    else if s.fat.fatType ≠ 16 then []
    else
      match fatFormatName name with
      | none => []
      | some fatName =>
        match fatFindRootEntry s.fat s.dev fatName with
        | (_, .full) => []
        | (dev, .found sector offset) => replaceWrites { s with dev } true fatName sector offset buffer
        | (dev, .free sector offset) => replaceWrites { s with dev } false fatName sector offset buffer
  | _, _ => []

theorem applyWrites_append (sectors : Nat) (m : Bytes) (log log' : List (Nat × Bytes)) :
    applyWrites sectors m (log ++ log') = applyWrites sectors (applyWrites sectors m log) log' :=
  List.foldl_append

theorem applyWrites_cons (sectors : Nat) (m : Bytes) (w : Nat × Bytes) (log : List (Nat × Bytes)) :
    applyWrites sectors m (w :: log) = applyWrites sectors (applyWrites sectors m [w]) log := rfl

/-- Writes that leave a byte as it is. -/
theorem applyWrites_kept {sectors x : Nat} {m m' : Bytes} {log : List (Nat × Bytes)}
    (kept : ∀ w ∈ log, 512 * w.1 ≤ x → x < 512 * w.1 + 512 → w.2 (x - 512 * w.1) = m x) (same : m' x = m x) :
    applyWrites sectors m' log x = m x := by
  induction log generalizing m' with
  | nil => exact same
  | cons w rest ih =>
    refine ih (fun v atV => kept v (List.mem_cons_of_mem w atV)) ?_
    change (if w.1 < sectors then putSector m' w.1 w.2 else m') x = m x
    split
    · unfold putSector
      split
      · rename_i within
        exact kept w List.mem_cons_self within.1 within.2
      · exact same
    · exact same

namespace StorageDevice.Works
variable {dev : StorageDevice} {fat : FatFs}

/-- Whether it can be read or not, a sector leaves a working device as it is. -/
theorem readSector_fst (works : dev.Works) (lba : Nat) :
    readSector dev lba = (dev, none) ∨ readSector dev lba = (dev, some (sectorAt dev.disk lba)) := by
  by_cases inside : lba < dev.sectors
  · exact Or.inr (works.readSector_eq inside)
  · rw [readSector, if_neg (by simp [works.present, works.read]), if_pos (Or.inl (Nat.not_lt.mp inside)), works.tick_eq]
    exact Or.inl rfl

theorem writeSector_apply (works : dev.Works) (lba : Nat) (buffer : Bytes) :
    ∃ done, writeSector dev lba buffer = (dev.withDisk (applyWrites dev.sectors dev.disk [(lba, buffer)]), done) := by
  by_cases inside : lba < dev.sectors
  · exact ⟨true, by
      simp only [works.writeSector_eq inside, applyWrites, List.foldl_cons, List.foldl_nil, if_pos inside]⟩
  · refine ⟨false, ?_⟩
    rw [writeSector, if_neg (by simp [works.present, works.write]), if_pos (Or.inl (Nat.not_lt.mp inside)),
      works.tick_eq]
    simp only [applyWrites, List.foldl_cons, List.foldl_nil, if_neg inside, StorageDevice.withDisk_self]

theorem fatReadFatEntry_fst (works : dev.Works) (fat : FatFs) (c : Nat) : (fatReadFatEntry fat dev c).1 = dev := by
  unfold fatReadFatEntry
  rcases works.readSector_fst (u32 (fat.firstFatSector + u32 (c * if fat.fatType = 16 then 2 else 4) /
    fat.bytesPerSector)) with read | read
  · simp only [read]
  · simp only [read]

theorem findRunLoop_fst (works : dev.Works) (fat : FatFs) (count more c run start : Nat) :
    (findRunLoop fat count more dev c run start).1 = dev := by
  induction more generalizing c run start with
  | zero => rfl
  | succ more ih =>
    rw [findRunLoop]
    have same := works.fatReadFatEntry_fst fat c
    cases read : fatReadFatEntry fat dev c with
    | mk dev' entry =>
      rw [read] at same
      cases same
      simp only
      split
      · split
        · rfl
        · exact ih _ _ _
      · exact ih _ _ _

theorem findRootLoop_fst (works : dev.Works) (fat : FatFs) (name : List UInt8) (is : List Nat) (known : Nat × Nat) :
    (findRootLoop fat name is dev known).1 = dev := by
  induction is generalizing known with
  | nil => rfl
  | cons i rest ih =>
    rcases works.readSector_fst (u32 (fat.rootDirSector + i)) with read | read
    · simp only [findRootLoop, read]
    · simp only [findRootLoop, read]
      split
      · rfl
      · exact ih _

theorem scanRoot16_fst (works : dev.Works) (fat : FatFs) (is : List Nat) (files : List FatFileInfo) :
    (scanRoot16 fat is dev files).1 = dev := by
  induction is generalizing files with
  | nil => rfl
  | cons i rest ih =>
    rcases works.readSector_fst (u32 (fat.rootDirSector + i)) with read | read
    · simp only [scanRoot16, read]
    · simp only [scanRoot16, read]
      exact ih _

theorem fatWriteFatEntry_log (works : dev.Works) (fat : FatFs) (c v : Nat) :
    (fatWriteFatEntry fat dev c v).1 = dev.withDisk (applyWrites dev.sectors dev.disk (entryWrites fat dev c v)) := by
  unfold fatWriteFatEntry entryWrites
  split
  · rfl
  · rcases works.readSector_fst (u32 (fat.firstFatSector + u32 (c * 2) / fat.bytesPerSector)) with read | read
    · simp only [read]
      rfl
    · simp only [read]
      obtain ⟨done, write⟩ := works.writeSector_apply (u32 (fat.firstFatSector + u32 (c * 2) / fat.bytesPerSector))
        (store16 (sectorAt dev.disk (u32 (fat.firstFatSector + u32 (c * 2) / fat.bytesPerSector)))
          (u32 (c * 2) % fat.bytesPerSector) v)
      rw [write]

theorem freeChainLoop_log {dev dev' : StorageDevice} {fuel c : Nat} (works : dev.Works)
    (run : freeChainLoop fat fuel dev c = .ok dev') :
    dev' = dev.withDisk (applyWrites dev.sectors dev.disk (freeWrites fat fuel dev c)) := by
  induction fuel generalizing dev c with
  | zero => simp [freeChainLoop] at run
  | succ fuel ih =>
    rw [freeChainLoop] at run
    rw [freeWrites]
    split at run
    · rename_i more
      rw [if_pos more]
      have same := works.fatReadFatEntry_fst fat c
      rcases read : fatReadFatEntry fat dev c with ⟨dev₁, next⟩
      obtain rfl : dev₁ = dev := by rwa [read] at same
      have write := works.fatWriteFatEntry_log fat c 0
      simp only [read] at run ⊢
      generalize (fatWriteFatEntry fat dev₁ c 0).1 = dev₂ at run write
      subst write
      have rest := ih (works.withDisk _) run
      simpa only [applyWrites_append, StorageDevice.withDisk_withDisk, StorageDevice.withDisk_sectors,
        StorageDevice.withDisk_disk] using rest
    · rename_i none
      rw [if_neg none]
      cases Except.ok.inj run
      rfl

theorem linkRun_log {dev : StorageDevice} (works : dev.Works) (fat : FatFs) (first needed : Nat) (is : List Nat) :
    (linkRun fat first needed is dev).1 =
      dev.withDisk (applyWrites dev.sectors dev.disk (linkWrites fat first needed is dev)) := by
  induction is generalizing dev with
  | nil => rfl
  | cons i rest ih =>
    simp only [linkRun, linkWrites]
    generalize (if i + 1 = needed then 0xFFFF else u32 (u32 (first + i) + 1)) = value
    have write := works.fatWriteFatEntry_log fat (u32 (first + i)) value
    rcases entry : fatWriteFatEntry fat dev (u32 (first + i)) value with ⟨dev₁, done⟩
    rw [entry] at write
    change dev₁ = _ at write
    subst write
    cases done with
    | false => simp only [List.append_nil]
    | true =>
      have rest := ih (works.withDisk (applyWrites dev.sectors dev.disk (entryWrites fat dev (u32 (first + i)) value)))
      simpa only [applyWrites_append, StorageDevice.withDisk_withDisk, StorageDevice.withDisk_sectors,
        StorageDevice.withDisk_disk] using rest

theorem storeCluster_log {dev : StorageDevice} (works : dev.Works) (fat : FatFs) (c : Nat) (ss : List Nat)
    (buffer : List UInt8) :
    (storeCluster fat c ss dev buffer).1 =
      dev.withDisk (applyWrites dev.sectors dev.disk (clusterWrites fat c ss dev buffer)) := by
  induction ss generalizing dev buffer with
  | nil => rfl
  | cons s rest ih =>
    rw [storeCluster, clusterWrites]
    generalize u32 (fatClusterToLba fat c + s) = lba
    split
    · obtain ⟨done, write⟩ := works.writeSector_apply lba (paste (fun _ => 0) 0 buffer)
      rw [write]
      cases done with
      | false => rfl
      | true => rfl
    · obtain ⟨done, write⟩ := works.writeSector_apply lba (paste (fun _ => 0) 0 (buffer.take 512))
      rw [write]
      cases done with
      | false => rfl
      | true =>
        dsimp only
        split
        · rfl
        · rw [ih (works.withDisk _), StorageDevice.withDisk_withDisk, StorageDevice.withDisk_sectors,
            StorageDevice.withDisk_disk, ← applyWrites_cons]

theorem storeLoop_log {dev dev' : StorageDevice} {fuel c : Nat} {buffer : List UInt8} {stored : Bool}
    (works : dev.Works)
    (run : storeLoop fat fuel dev c buffer = .ok (dev', stored)) :
    dev' = dev.withDisk (applyWrites dev.sectors dev.disk (loopWrites fat fuel dev c buffer)) := by
  induction fuel generalizing dev c buffer with
  | zero => simp [storeLoop] at run
  | succ fuel ih =>
    rw [storeLoop] at run
    rw [loopWrites]
    split at run
    · rename_i more
      rw [if_pos more]
      have write := works.storeCluster_log fat c (List.range fat.sectorsPerCluster) buffer
      generalize clusterWrites fat c (List.range fat.sectorsPerCluster) dev buffer = log at write ⊢
      rcases stores : storeCluster fat c (List.range fat.sectorsPerCluster) dev buffer with ⟨dev₁, left⟩
      rw [stores] at write
      change dev₁ = _ at write
      subst write
      simp only [stores] at run ⊢
      cases left with
      | none =>
        cases Except.ok.inj run
        simp only [List.append_nil]
      | some left =>
        have works₁ := works.withDisk (applyWrites dev.sectors dev.disk log)
        have same := works₁.fatReadFatEntry_fst fat c
        rcases read : fatReadFatEntry fat (dev.withDisk (applyWrites dev.sectors dev.disk log)) c with ⟨dev₂, next⟩
        rw [read] at same
        change dev₂ = _ at same
        subst same
        simp only [read] at run ⊢
        have rest := ih works₁ run
        simpa only [applyWrites_append, StorageDevice.withDisk_withDisk, StorageDevice.withDisk_sectors,
          StorageDevice.withDisk_disk] using rest
    · rename_i none
      rw [if_neg none]
      cases Except.ok.inj run
      rfl

theorem storeData_log {dev dev' : StorageDevice} {buffer : List UInt8} {result : Option Nat} (works : dev.Works)
    (run : storeData fat dev buffer = .ok (dev', result)) :
    dev' = dev.withDisk (applyWrites dev.sectors dev.disk (dataWrites fat dev buffer)) := by
  simp only [storeData] at run
  simp only [dataWrites]
  split at run
  · rename_i filled
    rw [if_pos filled]
    generalize u32 (buffer.length + u32 (fat.bytesPerSector * fat.sectorsPerCluster) - 1) /
      u32 (fat.bytesPerSector * fat.sectorsPerCluster) = needed at run ⊢
    have same := works.findRunLoop_fst fat needed (fat.totalClusters - 2) 2 0 2
    change (fatFindFreeRun fat dev needed).1 = dev at same
    rcases search : fatFindFreeRun fat dev needed with ⟨dev₁, first⟩
    obtain rfl : dev₁ = dev := by rwa [search] at same
    simp only [search] at run ⊢
    split at run
    · rename_i zero
      rw [if_pos zero]
      cases Except.ok.inj run
      rfl
    · rename_i some
      rw [if_neg some]
      have links := works.linkRun_log fat first needed (List.range needed)
      generalize linkWrites fat first needed (List.range needed) dev₁ = log at links ⊢
      rcases linking : linkRun fat first needed (List.range needed) dev₁ with ⟨dev₂, done⟩
      rw [linking] at links
      change dev₂ = _ at links
      subst links
      simp only [linking] at run ⊢
      cases done with
      | false =>
        cases Except.ok.inj run
        simp only [List.append_nil]
      | true =>
        obtain ⟨⟨dev₃, stored⟩, filling, run⟩ := Faults.bind_ok run
        cases Except.ok.inj run
        have rest := (works.withDisk _).storeLoop_log filling
        simpa only [applyWrites_append, StorageDevice.withDisk_withDisk, StorageDevice.withDisk_sectors,
          StorageDevice.withDisk_disk] using rest
  · rename_i empty
    rw [if_neg empty]
    cases Except.ok.inj run
    rfl

theorem replaceEntry_log {s s' : FatState} {found : Bool} {name buffer : List UInt8} {sector offset : Nat} {ret : Int}
    (works : s.dev.Works) (type : s.fat.fatType = 16)
    (run : replaceEntry s found name sector offset buffer = .ok (s', ret)) :
    s'.dev = s.dev.withDisk (applyWrites s.dev.sectors s.dev.disk (replaceWrites s found name sector offset buffer)) := by
  simp only [replaceEntry] at run
  simp only [replaceWrites]
  rcases works.readSector_fst sector with read | read
  · simp only [read] at run ⊢
    cases Except.ok.inj run
    rfl
  · simp only [read] at run ⊢
    generalize sectorAt s.dev.disk sector = dirSector at run ⊢
    have frees (dev₁ : StorageDevice) (freed : freeOld s.fat s.dev found (load16 dirSector (offset + 26)) = .ok dev₁) :
        dev₁ = s.dev.withDisk (applyWrites s.dev.sectors s.dev.disk
          (if found = true ∧ load16 dirSector (offset + 26) ≥ 2 then
            freeWrites s.fat chainLimit s.dev (load16 dirSector (offset + 26)) else [])) := by
      unfold freeOld at freed
      split at freed
      · rename_i old
        rw [if_pos old]
        exact works.freeChainLoop_log freed
      · rename_i none
        rw [if_neg none]
        cases Except.ok.inj freed
        rfl
    generalize (if found = true ∧ load16 dirSector (offset + 26) ≥ 2 then
      freeWrites s.fat chainLimit s.dev (load16 dirSector (offset + 26)) else []) = log at frees ⊢
    obtain ⟨dev₁, freed, run⟩ := Faults.bind_ok run
    have first := frees dev₁ freed
    subst first
    obtain ⟨⟨dev₂, result⟩, stores, run⟩ := Faults.bind_ok run
    have second := (works.withDisk _).storeData_log stores
    simp only [StorageDevice.withDisk_withDisk, StorageDevice.withDisk_sectors, StorageDevice.withDisk_disk,
      ← applyWrites_append] at second
    simp only [freed, stores]
    generalize dataWrites s.fat (s.dev.withDisk (applyWrites s.dev.sectors s.dev.disk log)) buffer = data
      at second ⊢
    rw [← List.append_assoc]
    generalize log ++ data = all at second ⊢
    subst second
    cases result with
    | none =>
      cases Except.ok.inj run
      simp only [List.append_nil]
    | some first =>
      simp only at run ⊢
      generalize fillEntry dirSector offset name first buffer.length = entry at run ⊢
      have works₂ := works.withDisk (applyWrites s.dev.sectors s.dev.disk all)
      obtain ⟨done, write⟩ := works₂.writeSector_apply sector entry
      simp only [StorageDevice.withDisk_withDisk, StorageDevice.withDisk_sectors, StorageDevice.withDisk_disk,
        ← applyWrites_append] at write
      simp only [write] at run
      cases done with
      | false =>
        cases Except.ok.inj run
        rfl
      | true =>
        simp only [fatRefreshRootCache, fatRefreshRootCacheWithin, type, if_true, Except.map] at run
        cases Except.ok.inj run
        exact (works.withDisk _).scanRoot16_fst _ _ _

end StorageDevice.Works

/-- On a working device a call leaves the disk that its writes make. -/
theorem fatWriteFile_log {s s' : FatState} {name buffer : Option (List UInt8)} {ret : Int} (works : s.dev.Works)
    (run : fatWriteFile s name buffer = .ok (s', ret)) :
    s'.dev = s.dev.withDisk (applyWrites s.dev.sectors s.dev.disk (fileWrites s name buffer)) := by
  have refused (off : fatWriteFile s name buffer = .ok (s, -1)) (silent : fileWrites s name buffer = []) :
      s'.dev = s.dev.withDisk (applyWrites s.dev.sectors s.dev.disk (fileWrites s name buffer)) := by
    cases Except.ok.inj (run.symm.trans off)
    rw [silent]
    rfl
  cases name with
  | none => exact refused rfl rfl
  | some text =>
    cases buffer with
    | none => exact refused rfl rfl
    | some bytes =>
      unfold fatWriteFile at run
      unfold fileWrites
      dsimp only at run ⊢
      split at run
      · rename_i off
        rw [if_pos off]
        cases Except.ok.inj run
        rfl
      · rename_i enabled
        rw [if_neg enabled]
        split at run
        · rename_i other
          rw [if_pos other]
          cases Except.ok.inj run
          rfl
        · rename_i kind
          rw [if_neg kind]
          cases format : fatFormatName text with
          | none =>
            simp only [format] at run
            cases Except.ok.inj run
            rfl
          | some raw =>
            dsimp only
            have same := works.findRootLoop_fst s.fat raw (List.range s.fat.rootDirSectors) (0xFFFFFFFF, 0xFFFFFFFF)
            change (fatFindRootEntry s.fat s.dev raw).1 = s.dev at same
            rcases search : fatFindRootEntry s.fat s.dev raw with ⟨dev₁, slot⟩
            obtain rfl : dev₁ = s.dev := by rwa [search] at same
            simp only [format, search] at run
            cases slot with
            | full =>
              cases Except.ok.inj run
              rfl
            | found sector offset => exact works.replaceEntry_log (not_not.mp kind) run
            | free sector offset => exact works.replaceEntry_log (not_not.mp kind) run

end LearningOS
