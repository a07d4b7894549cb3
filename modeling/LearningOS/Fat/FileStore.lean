import LearningOS.Fat.Contents
import LearningOS.Run.Faults
import Mathlib.Logic.Function.Basic

namespace LearningOS
open ByteStore History

variable {s s' : FatState} {text base suffix raw : List UInt8} {i : Nat}

/-- A listing within what its entries can hold. -/
def FatListed (files : List FatFileInfo) : Prop := ∀ fi ∈ files, fi.name.length ≤ 12 ∧ fi.size < 2 ^ 32

section
variable {sector : Bytes} {fat : FatFs} {dev dev' : StorageDevice} {files files' : List FatFileInfo} {is : List Nat}

theorem parseEntries_listed (listed : FatListed files) : FatListed (parseEntries sector is files) := by
  induction is generalizing files with
  | nil => exact listed
  | cons i is ih =>
    unfold parseEntries
    dsimp only
    split
    · exact listed
    split
    · exact ih listed
    split
    · exact ih listed
    split
    · exact ih listed
    refine ih ?_
    unfold fatAddFile
    split
    · exact listed
    · refine List.forall_mem_append.mpr ⟨listed, List.forall_mem_singleton.mpr ⟨?_, load32_lt _ _⟩⟩
      exact List.length_take_le 12 _

theorem scanRoot16_listed (listed : FatListed files) : FatListed (scanRoot16 fat is dev files).2 := by
  induction is generalizing dev files with
  | nil => exact listed
  | cons i is ih =>
    unfold scanRoot16
    split
    · exact listed
    · exact ih (parseEntries_listed listed)

theorem scanCluster_listed {c : Nat} (listed : FatListed files) : FatListed (scanCluster fat c is dev files).2 := by
  induction is generalizing dev files with
  | nil => exact listed
  | cons i is ih =>
    unfold scanCluster
    split
    · exact listed
    · exact ih (parseEntries_listed listed)

theorem scanRoot32_listed {fuel c : Nat} (listed : FatListed files)
    (run : scanRoot32 fat fuel dev c files = .ok (dev', files')) : FatListed files' := by
  induction fuel generalizing dev c files with
  | zero => cases run
  | succ fuel ih =>
    unfold scanRoot32 at run
    split at run
    · exact ih (scanCluster_listed listed) run
    · cases run
      exact listed

theorem fatRefreshRootCache_listed (run : fatRefreshRootCache s = .ok s') : FatListed s'.files := by
  have empty : FatListed [] := fun fi member => absurd member List.not_mem_nil
  unfold fatRefreshRootCache fatRefreshRootCacheWithin at run
  split at run
  · cases run
    exact scanRoot16_listed empty
  · split at run
    · cases scan : scanRoot32 s.fat chainLimit s.dev s.fat.rootCluster [] with
      | error trap =>
        rw [scan] at run
        cases run
      | ok result =>
        rw [scan] at run
        cases run
        exact scanRoot32_listed empty scan
    · cases run
      exact empty

theorem replaceEntry_listed {found : Bool} {name buffer : List UInt8} {lba offset : Nat} {ret : Int}
    (listed : FatListed s.files) (run : replaceEntry s found name lba offset buffer = .ok (s', ret)) :
    FatListed s'.files := by
  unfold replaceEntry at run
  split at run
  · cases run
    exact listed
  · obtain ⟨dev₁, _, run⟩ := Faults.bind_ok run
    obtain ⟨⟨dev₂, result⟩, _, run⟩ := Faults.bind_ok run
    cases result with
    | none =>
      cases run
      exact listed
    | some first =>
      dsimp only at run
      split at run
      · cases run
        exact listed
      · rename_i dev₃ _
        cases refreshed : fatRefreshRootCache { s with dev := dev₃ } with
        | error trap =>
          rw [refreshed] at run
          cases run
        | ok t =>
          rw [refreshed] at run
          cases run
          exact fatRefreshRootCache_listed refreshed

/-- A write leaves such a listing. -/
theorem fatWriteFile_listed {name buffer : Option (List UInt8)} {ret : Int} (listed : FatListed s.files)
    (run : fatWriteFile s name buffer = .ok (s', ret)) : FatListed s'.files := by
  unfold fatWriteFile at run
  split at run
  · split at run
    · cases run
      exact listed
    split at run
    · cases run
      exact listed
    split at run
    · cases run
      exact listed
    split at run
    · cases run
      exact listed
    · exact replaceEntry_listed (by exact listed) run
    · exact replaceEntry_listed (by exact listed) run
  · cases run
    exact listed

/-- A read leaves the listing. -/
theorem fatReadFile_files {name : Option (List UInt8)} {buffer : Bool} {max : Nat} {n : Int} {out : List UInt8}
    (run : fatReadFile s name buffer max = .ok (s', n, out)) : s'.files = s.files := by
  unfold fatReadFile fatReadFileWithin at run
  split at run
  · cases run
    rfl
  split at run
  · cases run
    rfl
  split at run
  · cases run
    rfl
  · obtain ⟨⟨dev, bytes⟩, _, run⟩ := Faults.bind_ok run
    cases run
    rfl

end

/-- The listing shows an entry under a short name exactly if it has this name. -/
theorem FatVolume.slotInfo_name_iff {dev : StorageDevice} {fat : FatFs} (volume : FatVolume dev fat)
    (short : ShortName text base suffix) (inside : i < fat.slots) (shown : fat.Visible dev.disk i) :
    (fat.slotInfo dev.disk i).name = text ↔ fat.slotName dev.disk i = entryName base suffix := by
  obtain ⟨base', suffix', parts, name⟩ := volume.names i inside shown
  have decoded : (fat.slotInfo dev.disk i).name = joinName base' suffix' := by
    rw [FatFs.slotInfo, name, parts.decodeName_eq, List.take_of_length_le parts.joinName_length]
  rw [decoded, name]
  constructor
  · intro same
    obtain ⟨rfl, rfl⟩ := parts.joinName_injective short.toNameParts (same.trans short.joined)
    rfl
  · intro same
    have back := congrArg decodeName same
    rw [parts.decodeName_eq, short.toNameParts.decodeName_eq] at back
    exact back.trans short.joined.symm

namespace FatMounted

/-- Where the listing has room for all entries, it finds one under its short name. -/
theorem find_shown (mounted : FatMounted s) (few : s.fat.shown s.dev.disk ≤ 32) (short : ShortName text base suffix)
    (inside : i < s.fat.slots) (shown : s.fat.Visible s.dev.disk i)
    (name : s.fat.slotName s.dev.disk i = entryName base suffix) :
    s.files.find? (fun fi => fi.name = text) = some (s.fat.slotInfo s.dev.disk i) := by
  have volume := mounted.volume
  rw [mounted.listed, FatFs.rootFiles, List.take_of_length_le (by simpa [FatFs.shown] using few), List.find?_map]
  refine congrArg (Option.map (s.fat.slotInfo s.dev.disk))
    (find?_unique (List.mem_filter.mpr ⟨List.mem_range.mpr inside, ?_⟩) ?_ ?_)
  · simpa using shown
  · simpa using (volume.slotInfo_name_iff short inside shown).mpr name
  · intro j member hit
    obtain ⟨range, visible⟩ := List.mem_filter.mp member
    have less := List.mem_range.mp range
    have shown' : s.fat.Visible s.dev.disk j := by simpa using visible
    have name' := (volume.slotInfo_name_iff short less shown').mp (by simpa using hit)
    exact volume.distinct j i less inside shown'.1 shown.1 (name'.trans name.symm)

/-- Without such an entry it finds none. -/
theorem find_none (mounted : FatMounted s) (short : ShortName text base suffix)
    (absent : ∀ i, i < s.fat.slots → s.fat.Visible s.dev.disk i → s.fat.slotName s.dev.disk i ≠ entryName base suffix) :
    s.files.find? (fun fi => fi.name = text) = none := by
  refine List.find?_eq_none.mpr fun fi member hit => ?_
  rw [mounted.listed, FatFs.rootFiles] at member
  obtain ⟨i, listed, rfl⟩ := List.mem_map.mp (List.mem_of_mem_take member)
  obtain ⟨range, visible⟩ := List.mem_filter.mp listed
  have inside := List.mem_range.mp range
  have shown : s.fat.Visible s.dev.disk i := by simpa using visible
  exact absent i inside shown ((mounted.volume.slotInfo_name_iff short inside shown).mp (by simpa using hit))

/-- The loop of a read follows the clusters of an entry. -/
theorem readLoop_content (mounted : FatMounted s) {bytes : List UInt8} (content : s.fat.Content s.dev.disk i bytes)
    {max : Nat} (small : max + 512 ≤ 2 ^ 32) :
    readLoop s.fat (min (load32 s.dev.disk (s.fat.slotBase i + 28)) max) chainLimit s.dev
      (s.fat.slotCluster s.dev.disk i) [] = .ok (s.dev, bytes.take max) := by
  have sound := mounted.volume.sound
  obtain ⟨cs, clusters, rfl⟩ := content
  rcases clusters with ⟨low, rfl⟩ | chain
  · rw [List.flatMap_nil, List.take_nil, List.take_nil]
    exact readLoop_stop (Or.inl low)
  · have length := chain.length_le
    have many := sound.clusters
    rw [readLoop_eq mounted.works sound chain (by omega) (by unfold chainLimit; omega), List.length_nil, Nat.sub_zero,
      List.nil_append, List.take_take, Nat.min_comm]

/-- Reading under a short name returns the bytes of its file, or fails if there is none. -/
theorem fatReadFile_eq (mounted : FatMounted s) {files : FileMap} (rep : s.Represents files)
    (few : s.fat.shown s.dev.disk ≤ 32) (short : ShortName text base suffix) {max : Nat} (positive : 0 < max)
    (small : max + 512 ≤ 2 ^ 32) :
    fatReadFile s (some text) true max =
      match files (entryName base suffix) with
      | some bytes => .ok (s, toInt32 (min max bytes.length), bytes.take max)
      | none => .ok (s, -1, []) := by
  have start : ¬ (true = false ∨ max = 0) := by
    simp
    omega
  cases held : files (entryName base suffix) with
  | some bytes =>
    obtain ⟨i, inside, shown, name, content⟩ := (rep _ _).mp held
    simp only [fatReadFile, fatReadFileWithin, if_neg start, mounted.find_shown few short inside shown name,
      FatFs.slotInfo, mounted.readLoop_content content small]
    simp [bind, Except.bind]
  | none =>
    have absent (i : Nat) (inside : i < s.fat.slots) (shown : s.fat.Visible s.dev.disk i) :
        s.fat.slotName s.dev.disk i ≠ entryName base suffix := by
      intro name
      obtain ⟨cs, clusters⟩ := mounted.volume.clusters_of inside shown.1
      have file := (rep (entryName base suffix) _).mpr ⟨i, inside, shown, name, cs, clusters, rfl⟩
      rw [held] at file
      cases file
    simp only [fatReadFile, fatReadFileWithin, if_neg start, mounted.find_none short absent]

end FatMounted

/-- Every volume has some files. -/
theorem FatVolume.represents (volume : FatVolume s.dev s.fat) : ∃ files, s.Represents files := by
  classical
  refine ⟨fun raw => if held : ∃ bytes, s.fat.HasFile s.dev.disk raw bytes then some held.choose else none,
    fun raw bytes => ?_⟩
  have unique {bytes bytes' : List UInt8} (left : s.fat.HasFile s.dev.disk raw bytes)
      (right : s.fat.HasFile s.dev.disk raw bytes') : bytes = bytes' := by
    obtain ⟨i, inside, shown, name, content⟩ := left
    obtain ⟨j, inside', shown', name', content'⟩ := right
    obtain rfl := volume.distinct i j inside inside' shown.1 shown'.1 (name.trans name'.symm)
    exact content.unique content'
  beta_reduce
  by_cases held : ∃ bytes, s.fat.HasFile s.dev.disk raw bytes
  · rw [dif_pos held, Option.some.injEq]
    exact ⟨fun same => same ▸ held.choose_spec, fun file => unique held.choose_spec file⟩
  · rw [dif_neg held]
    exact iff_of_false (by simp) fun file => held ⟨bytes, file⟩

/-- The calls that change a volume or read its listing anew. -/
inductive FatCall
  | write (name buffer : Option (List UInt8)) (ret : Int)
  | remount

/-- A call that returned. The globals of `fat.c` do not survive until the next mount. -/
def FatCall.Step (s : FatState) : FatCall → FatState → Prop
  | .write name buffer ret, s' => fatWriteFile s name buffer = .ok (s', ret)
  | .remount, s' => ∃ fat files, fatInit ⟨s.dev, fat, files⟩ = .ok s'

/-- A write that does not lose the file it replaces, under a name that is found again, of
a size that does not wrap. -/
def FatCall.Safe (s : FatState) : FatCall → Prop
  | .write name buffer _ => ¬ WriteLoses s name buffer ∧
      (∀ raw, name.bind fatFormatName = some raw → FoundName raw) ∧
      ∀ bytes, buffer = some bytes → bytes.length + s.fat.clusterBytes ≤ 2 ^ 32
  | .remount => True

/-- What the files are to be after a call: a write that returned 0 has put its bytes under
its name. -/
def FileMap.after (files : FileMap) : FatCall → FileMap
  | .write name buffer ret =>
    match name.bind fatFormatName, buffer with
    | some raw, some bytes => if ret = 0 then Function.update files raw (some bytes) else files
    | _, _ => files
  | .remount => files

/-- A write that does not lose a file either changes nothing or stores its bytes. -/
theorem FatVolume.write_cases (volume : FatVolume s.dev s.fat) (works : s.dev.Works) {name buffer : Option (List UInt8)}
    {ret : Int} (keeps : ¬ WriteLoses s name buffer) (run : fatWriteFile s name buffer = .ok (s', ret)) :
    s' = s ∧ ret = -1 ∨ ret = 0 ∧ ∃ text raw bytes, name = some text ∧ buffer = some bytes ∧
      fatFormatName text = some raw := by
  rcases volume.write_outcome works name buffer with
    refused | ⟨raw, bytes, i, cs, encoded, rfl, inside, target, ⟨filled, none, failed⟩ | ⟨first, m, _, _, stored⟩⟩
  · cases Except.ok.inj (run.symm.trans refused)
    exact Or.inl ⟨rfl, rfl⟩
  · cases Except.ok.inj (run.symm.trans failed)
    obtain ⟨text, rfl, format⟩ := Option.bind_eq_some_iff.mp encoded
    rcases target.clusters with rfl | ⟨use, chain⟩
    · exact Or.inl ⟨rfl, rfl⟩
    · cases target with
      | create vacant _ _ _ => exact absurd use fun use => vacant.elim use.1 use.2.1
      | replace _ same _ =>
        refine absurd ⟨text, bytes, raw, i, cs, rfl, rfl, format, filled, inside, use, same, chain, ?_⟩ keeps
        rintro ⟨start, room⟩
        exact none start ((FatFs.freeRun_freed chain.path.nodup).mpr room)
  · obtain ⟨text, rfl, format⟩ := Option.bind_eq_some_iff.mp encoded
    obtain ⟨s'', again⟩ := fatRefreshRootCache_returns stored volume.sound.type
    cases Except.ok.inj (run.symm.trans again)
    exact Or.inr ⟨rfl, text, raw, bytes, rfl, rfl, format⟩

namespace FatMounted

/-- A write that stored its bytes. -/
theorem stores (mounted : FatMounted s) {buffer : List UInt8} (format : fatFormatName text = some raw)
    (plain : FoundName raw) (noWrap : buffer.length + s.fat.clusterBytes ≤ 2 ^ 32)
    (run : fatWriteFile s (some text) (some buffer) = .ok (s', 0)) :
    FatMounted s' ∧ s'.fat = s.fat ∧ ∀ raw' bytes, s'.fat.HasFile s'.dev.disk raw' bytes ↔
      if raw' = raw then bytes = buffer else s.fat.HasFile s.dev.disk raw' bytes := by
  have volume := mounted.volume
  obtain ⟨i, first, cs, file⟩ := volume.storedAs mounted.works format plain.padded.head_ne noWrap run
  have effect := fatWriteFile_effect volume.sound mounted.works.reads volume.rooted run
  have fat : s'.fat = s.fat := by rw [file.state]
  have works : s'.dev.Works := by
    rw [file.state]
    exact mounted.works.withDisk _
  refine ⟨⟨?_, works, fat ▸ mounted.reserved, ?_⟩, fat, ?_⟩
  · rw [fat]
    exact file.fatVolume noWrap volume plain (effect.layout volume.layout mounted.reserved)
  · rw [fat]
    exact congrArg FatState.files file.state
  · rw [fat]
    exact file.hasFile_iff noWrap volume plain

/-- Mounting again lists the same files. -/
theorem remounts (mounted : FatMounted s) {fat : FatFs} {files : List FatFileInfo}
    (run : fatInit ⟨s.dev, fat, files⟩ = .ok s') : s' = s := by
  obtain ⟨dev, fat', files'⟩ := s
  have listed : files' = fat'.rootFiles dev.disk := mounted.listed
  have init := FatVolume.fatInit_eq (s := ⟨dev, fat, files⟩) mounted.volume mounted.works
  rw [listed]
  exact Except.ok.inj (run.symm.trans init)

/-- A safe call does to the files on the disk what it is to do. -/
theorem step (mounted : FatMounted s) {files : FileMap} (rep : s.Represents files) {call : FatCall}
    (safe : call.Safe s) (step : call.Step s s') : FatMounted s' ∧ s'.Represents (files.after call) := by
  cases call with
  | write name buffer ret =>
    obtain ⟨keeps, plain, noWrap⟩ := safe
    rcases mounted.volume.write_cases mounted.works keeps step with
      ⟨rfl, rfl⟩ | ⟨rfl, text, raw, bytes, rfl, rfl, format⟩
    · have same : files.after (.write name buffer (-1)) = files := by
        simp only [FileMap.after]
        split
        · exact if_neg (by decide)
        · rfl
      rw [same]
      exact ⟨mounted, rep⟩
    · obtain ⟨mounted', _, files'⟩ := mounted.stores format (plain raw format) (noWrap bytes rfl) step
      refine ⟨mounted', fun raw' bytes' => ?_⟩
      rw [files' raw' bytes']
      simp only [FileMap.after, Option.bind_some, format, if_pos, Function.update_apply]
      by_cases same : raw' = raw
      · rw [if_pos same, if_pos same, Option.some.injEq]
        exact eq_comm
      · rw [if_neg same, if_neg same]
        exact rep raw' bytes'
  | remount =>
    obtain ⟨fat, listing, run⟩ := step
    rw [mounted.remounts run]
    exact ⟨mounted, rep⟩

end FatMounted

/-- Whatever writes and mounts follow, as long as no write is one that loses the file it
replaces, a read under a short name returns what was last stored under this name, or what
the volume held before. -/
theorem fat_files_refine {s₀ s : FatState} {fat : FatFs} (volume : FatVolume s₀.dev fat) (works : s₀.dev.Works)
    (reserved : 0 < fat.reservedSectors) (mounted : fatInit s₀ = .ok s) :
    ∃ files : FileMap, ∀ s' calls, Path FatCall.Step s calls s' → (∀ e ∈ calls, e.2.Safe e.1) →
      s'.fat.shown s'.dev.disk ≤ 32 → ∀ text base suffix max, ShortName text base suffix → 0 < max →
        max + 512 ≤ 2 ^ 32 → fatReadFile s' (some text) true max =
          match calls.foldr (fun e files => FileMap.after files e.2) files (entryName base suffix) with
          | some bytes => .ok (s', toInt32 (min max bytes.length), bytes.take max)
          | none => .ok (s', -1, []) := by
  rw [volume.fatInit_eq works] at mounted
  cases Except.ok.inj mounted
  have start : FatMounted ⟨s₀.dev, fat, fat.rootFiles s₀.dev.disk⟩ := ⟨volume, works, reserved, rfl⟩
  obtain ⟨files, rep⟩ := start.volume.represents
  refine ⟨files, fun s' calls path safe few text base suffix max short positive small => ?_⟩
  obtain ⟨mounted', rep'⟩ := path.simulates (R := fun s files => FatMounted s ∧ s.Represents files)
    (Q := fun e => FatCall.Safe e.1 e.2) (fun _ _ _ _ held safe step => held.1.step held.2 safe step) safe
    ⟨start, rep⟩
  exact mounted'.fatReadFile_eq rep' few short positive small

theorem fat_files_refine_emptyDisk :
    ∃ (files : FileMap) (s' : FatState), Path FatCall.Step emptyDisk
        [(s', .remount), (emptyDisk, .write (some [0x41]) (some [7]) 0)] s' ∧
      fatReadFile s' (some [0x41]) true 4 = .ok (s', 1, [7]) ∧ files (entryName [0x41] []) = none := by
  obtain ⟨files, refines⟩ := fat_files_refine emptyDisk_volume emptyDisk_works (by decide) emptyDisk_mounted
  obtain ⟨s', run⟩ := emptyDisk_writes [7] (by decide)
  have start : FatMounted emptyDisk := ⟨emptyDisk_volume, emptyDisk_works, by decide, rfl⟩
  obtain ⟨mounted, fat, _⟩ := start.stores shortName_A.fatFormatName_eq shortName_A.foundName (by decide) run
  have again : fatInit ⟨s'.dev, s'.fat, s'.files⟩ = .ok s' := by
    have init := mounted.volume.fatInit_eq mounted.works
    rw [← mounted.listed] at init
    exact init
  have path : Path FatCall.Step emptyDisk [(s', .remount), (emptyDisk, .write (some [0x41]) (some [7]) 0)] s' :=
    .next (.next (.done emptyDisk) run) ⟨s'.fat, s'.files, again⟩
  have few (s : FatState) (fat : s.fat = sampleFat) : s.fat.shown s.dev.disk ≤ 32 := by
    rw [fat]
    exact (List.length_filter_le _ _).trans (by decide)
  have safe : FatCall.Safe emptyDisk (.write (some [0x41]) (some [7]) 0) := by
    refine ⟨?_, fun raw format => ?_, fun bytes given => ?_⟩
    · rintro ⟨_, _, _, i, _, _, _, _, _, inside, use, _⟩
      exact use.1 (emptyDisk_vacant inside)
    · cases Option.some.inj (shortName_A.fatFormatName_eq.symm.trans format)
      exact shortName_A.foundName
    · cases Option.some.inj given
      decide
  refine ⟨files, s', path, ?_, ?_⟩
  · have read := refines s' _ path (by simpa using ⟨trivial, safe⟩) (few s' fat) [0x41] [0x41] [] 4 shortName_A
      (by decide) (by decide)
    have held : List.foldr (fun (e : FatState × FatCall) files => FileMap.after files e.2) files
        [(s', .remount), (emptyDisk, .write (some [0x41]) (some [7]) 0)] (entryName [0x41] []) = some [7] := by
      simp only [List.foldr_cons, List.foldr_nil, FileMap.after, Option.bind_some, shortName_A.fatFormatName_eq, if_pos,
        Function.update_self]
    rw [held] at read
    exact read
  · have read := refines emptyDisk [] (.done emptyDisk) (by simp) (few emptyDisk rfl) [0x41] [0x41] [] 4 shortName_A
      (by decide) (by decide)
    have none : fatReadFile emptyDisk (some [0x41]) true 4 = .ok (emptyDisk, -1, []) := by
      simp only [fatReadFile, fatReadFileWithin]
      rw [if_neg (by decide), start.find_none shortName_A fun i inside shown =>
        absurd shown.1.1 (fun use => use (emptyDisk_vacant inside))]
    rw [none] at read
    cases held : files (entryName [0x41] []) with
    | none => rfl
    | some bytes =>
      simp only [List.foldr_nil, held] at read
      have result := (Prod.mk.inj (Prod.mk.inj (Except.ok.inj read)).2).1
      unfold toInt32 at result
      split at result
      · omega
      · omega

end LearningOS
