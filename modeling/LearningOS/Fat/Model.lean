import LearningOS.Storage.Device

namespace LearningOS
open ByteStore

/-- What keeps a call from returning. -/
inductive Trap
  | divideByZero
  | endless
deriving DecidableEq, Repr

/-- The fields of `struct fat_fs`; `attached` says that `dev` is set. -/
structure FatFs where
  attached : Bool
  bytesPerSector : Nat
  sectorsPerCluster : Nat
  reservedSectors : Nat
  numFats : Nat
  fatSize : Nat
  rootEntries : Nat
  rootDirSectors : Nat
  firstFatSector : Nat
  firstDataSector : Nat
  rootDirSector : Nat
  rootCluster : Nat
  fatType : Nat
  totalClusters : Nat

/-- A `struct fat_file_info`; the name is a C string without its terminator. -/
structure FatFileInfo where
  name : List UInt8
  size : Nat
  firstCluster : Nat
deriving DecidableEq, Repr

/-- The default storage device and the globals of `fat.c`: `files` are the
`fat_file_count` entries of `fat_files`. -/
structure FatState where
  dev : StorageDevice
  fat : FatFs
  files : List FatFileInfo

/-- Every loop over a chain of clusters carries a bound on its steps; `endless` is
one that has not ended within it. -/
def chainLimit : Nat := 2 ^ 33

def fatClusterToLba (fat : FatFs) (cluster : Nat) : Nat :=
  u32 (fat.firstDataSector + sub32 cluster 2 * fat.sectorsPerCluster)

/-- An entry that cannot be read is 0. -/
def fatReadFatEntry (fat : FatFs) (dev : StorageDevice) (cluster : Nat) : StorageDevice × Nat :=
  let offset := u32 (cluster * if fat.fatType = 16 then 2 else 4)
  match readSector dev (u32 (fat.firstFatSector + offset / fat.bytesPerSector)) with
  | (dev, none) => (dev, 0)
  | (dev, some sector) =>
    let entryOffset := offset % fat.bytesPerSector
    (dev, if fat.fatType = 16 then load16 sector entryOffset else load32 sector entryOffset % 2 ^ 28)

def fatWriteFatEntry (fat : FatFs) (dev : StorageDevice) (cluster value : Nat) : StorageDevice × Bool :=
  if fat.fatType ≠ 16 then (dev, false)
  else
    let offset := u32 (cluster * 2)
    let sectorNum := u32 (fat.firstFatSector + offset / fat.bytesPerSector)
    match readSector dev sectorNum with
    | (dev, none) => (dev, false)
    | (dev, some sector) => writeSector dev sectorNum (store16 sector (offset % fat.bytesPerSector) value)

def fatReadClusterSector (fat : FatFs) (dev : StorageDevice) (cluster sectorIndex : Nat) :
    StorageDevice × Option Bytes :=
  if sectorIndex ≥ fat.sectorsPerCluster then (dev, none)
  else readSector dev (u32 (fatClusterToLba fat cluster + sectorIndex))

def fatAddFile (files : List FatFileInfo) (name : List UInt8) (size cluster : Nat) : List FatFileInfo :=
  if files.length ≥ 32 then files else files ++ [⟨name.take 12, size, cluster⟩]

/-- The C string `fat_parse_root_dir` makes of the 11 bytes of a name. -/
def decodeName (raw : List UInt8) : List UInt8 :=
  let base := (raw.take 8).takeWhile (· ≠ 0x20)
  let suffix := (raw.drop 8).takeWhile (· ≠ 0x20)
  (base ++ if suffix = [] then [] else 0x2E :: suffix).takeWhile (· ≠ 0)

/-- The loop of `fat_parse_root_dir` over the entries of a sector. -/
def parseEntries (sector : Bytes) : List Nat → List FatFileInfo → List FatFileInfo
  | [], files => files
  | i :: rest, files =>
    let ent := 32 * i
    if sector ent = 0 then files
    else if sector ent = 0xE5 then parseEntries sector rest files
    else if sector (ent + 11) = 0x0F then parseEntries sector rest files
    else if sector (ent + 11) &&& 0x08 ≠ 0 then parseEntries sector rest files
    else
      let cluster := load16 sector (ent + 20) * 65536 + load16 sector (ent + 26)
      parseEntries sector rest
        (fatAddFile files (decodeName (window sector ent 11)) (load32 sector (ent + 28)) cluster)

def fatParseRootDir (files : List FatFileInfo) (sector : Bytes) (entriesPerSector : Nat) : List FatFileInfo :=
  parseEntries sector (List.range entriesPerSector) files

/-- The scan of a FAT16 root directory. -/
def scanRoot16 (fat : FatFs) : List Nat → StorageDevice → List FatFileInfo → StorageDevice × List FatFileInfo
  | [], dev, files => (dev, files)
  | i :: rest, dev, files =>
    match readSector dev (u32 (fat.rootDirSector + i)) with
    | (dev, none) => (dev, files)
    | (dev, some sector) => scanRoot16 fat rest dev (fatParseRootDir files sector (fat.bytesPerSector / 32))

/-- The sectors of one cluster of a FAT32 root directory. -/
def scanCluster (fat : FatFs) (cluster : Nat) :
    List Nat → StorageDevice → List FatFileInfo → StorageDevice × List FatFileInfo
  | [], dev, files => (dev, files)
  | s :: rest, dev, files =>
    match fatReadClusterSector fat dev cluster s with
    | (dev, none) => (dev, files)
    | (dev, some sector) => scanCluster fat cluster rest dev (fatParseRootDir files sector (fat.bytesPerSector / 32))

def scanRoot32 (fat : FatFs) :
    Nat → StorageDevice → Nat → List FatFileInfo → Except Trap (StorageDevice × List FatFileInfo)
  | 0, _, _, _ => .error .endless
  | fuel + 1, dev, cluster, files =>
    if cluster ≥ 2 ∧ cluster < 0x0FFFFFF8 then
      let (dev, files) := scanCluster fat cluster (List.range fat.sectorsPerCluster) dev files
      let (dev, next) := fatReadFatEntry fat dev cluster
      scanRoot32 fat fuel dev next files
    else .ok (dev, files)

/-- `fat_refresh_root_cache`, which is also the end of `fat_init`, with a bound on the
steps of its loop. -/
def fatRefreshRootCacheWithin (limit : Nat) (s : FatState) : Except Trap FatState :=
  if s.fat.fatType = 16 then
    let (dev, files) := scanRoot16 s.fat (List.range s.fat.rootDirSectors) s.dev []
    .ok { s with dev, files }
  else if s.fat.fatType = 32 then
    (scanRoot32 s.fat limit s.dev s.fat.rootCluster []).map fun (dev, files) => { s with dev, files }
  else .ok { s with files := [] }

def fatRefreshRootCache (s : FatState) : Except Trap FatState := fatRefreshRootCacheWithin chainLimit s

/-- The number of sectors a boot sector states. -/
def totalSectors (bpb : Bytes) : Nat := if load16 bpb 19 ≠ 0 then load16 bpb 19 else load32 bpb 32

/-- What `fat_init` computes from the boot sector. -/
def fatGeometry (bpb : Bytes) : Except Trap FatFs :=
  let bytesPerSector := load16 bpb 11
  let sectorsPerCluster := (bpb 13).toNat
  let reservedSectors := load16 bpb 14
  let numFats := (bpb 16).toNat
  let rootEntries := load16 bpb 17
  let fatSize := if load16 bpb 22 ≠ 0 then load16 bpb 22 else load32 bpb 36
  if bytesPerSector = 0 then .error .divideByZero
  else
    let rootDirSectors := (rootEntries * 32 + (bytesPerSector - 1)) / bytesPerSector
    let firstDataSector := u32 (reservedSectors + numFats * fatSize + rootDirSectors)
    if sectorsPerCluster = 0 then .error .divideByZero
    else
      let totalClusters := sub32 (totalSectors bpb) firstDataSector / sectorsPerCluster
      .ok {
        attached := true
        bytesPerSector, sectorsPerCluster, reservedSectors, numFats, fatSize, rootEntries, rootDirSectors
        firstFatSector := reservedSectors
        firstDataSector
        rootDirSector := u32 (reservedSectors + numFats * fatSize)
        rootCluster := load32 bpb 44
        fatType := if totalClusters < 4085 then 0 else if totalClusters < 65525 then 16 else 32
        totalClusters }

/-- A volume with too few clusters is left without a type and the listing as it
was. -/
def fatInitWithin (limit : Nat) (s : FatState) : Except Trap FatState :=
  if ¬ s.dev.present ∨ ¬ s.dev.read then .ok s
  else
    match readSector s.dev 0 with
    | (dev, none) => .ok { s with dev }
    | (dev, some sector) => do
      let fat ← fatGeometry sector
      if fat.fatType = 0 then .ok { s with dev, fat } else fatRefreshRootCacheWithin limit { s with dev, fat }

def fatInit (s : FatState) : Except Trap FatState := fatInitWithin chainLimit s

/-- The value of a 32-bit word as an `int`. -/
def toInt32 (n : Nat) : Int := if n < 2 ^ 31 then n else (n : Int) - 2 ^ 32

/-- The sectors of one cluster in `fat_read_file`: `out` are the bytes read so
far. -/
def readCluster (fat : FatFs) (toRead cluster : Nat) :
    List Nat → StorageDevice → List UInt8 → StorageDevice × List UInt8
  | [], dev, out => (dev, out)
  | s :: rest, dev, out =>
    if out.length < toRead then
      match fatReadClusterSector fat dev cluster s with
      | (dev, none) => (dev, out)
      | (dev, some sector) =>
        let chunk :=
          if u32 (out.length + fat.bytesPerSector) > toRead then toRead - out.length else fat.bytesPerSector
        readCluster fat toRead cluster rest dev (out ++ window sector 0 chunk)
    else (dev, out)

def readLoop (fat : FatFs) (toRead : Nat) :
    Nat → StorageDevice → Nat → List UInt8 → Except Trap (StorageDevice × List UInt8)
  | 0, _, _, _ => .error .endless
  | fuel + 1, dev, cluster, out =>
    if cluster ≥ 2 ∧ cluster < 0x0FFFFFF8 ∧ out.length < toRead then
      let (dev, out) := readCluster fat toRead cluster (List.range fat.sectorsPerCluster) dev out
      let (dev, next) := fatReadFatEntry fat dev cluster
      if fat.fatType = 16 ∧ next ≥ 0xFFF8 then .ok (dev, out) else readLoop fat toRead fuel dev next out
    else .ok (dev, out)

/-- `fat_read_file`: the result and the bytes put into the caller's buffer, if
there is one. -/
def fatReadFileWithin (limit : Nat) (s : FatState) (name : Option (List UInt8)) (buffer : Bool) (max : Nat) :
    Except Trap (FatState × Int × List UInt8) :=
  match name with
  | none => .ok (s, -1, [])
  | some name =>
    if buffer = false ∨ max = 0 then .ok (s, -1, [])
    else
      match s.files.find? fun fi => fi.name = name with
      | none => .ok (s, -1, [])
      | some fi => do
        let (dev, out) ← readLoop s.fat (min fi.size max) limit s.dev fi.firstCluster []
        .ok ({ s with dev }, toInt32 out.length, out)

def fatReadFile (s : FatState) (name : Option (List UInt8)) (buffer : Bool) (max : Nat) :
    Except Trap (FatState × Int × List UInt8) := fatReadFileWithin chainLimit s name buffer max

def upper (c : UInt8) : UInt8 := if 0x61 ≤ c ∧ c ≤ 0x7A then c - 0x61 + 0x41 else c

/-- A part of a name, padded with spaces. -/
def padded (n : Nat) (part : List UInt8) : List UInt8 := part ++ List.replicate (n - part.length) 0x20

/-- The 11 bytes of a name; `none` stands for the result 0. -/
def fatFormatName (name : List UInt8) : Option (List UInt8) :=
  if name = [] then none
  else
    let base := (name.takeWhile (· ≠ 0x2E)).take 8
    let rest := name.drop base.length
    let suffix := (if rest.head? = some 0x2E then rest.tail else rest).take 3
    some (padded 8 (base.map upper) ++ padded 3 (suffix.map upper))

/-- The results of `fat_find_root_entry`: 1, 0 and -1. -/
inductive RootSlot
  | found (sector offset : Nat)
  | free (sector offset : Nat)
  | full
deriving DecidableEq, Repr

/-- The inner loop of `fat_find_root_entry`: the offset of the name, or the free
slot known so far. -/
def findInSector (sector : Bytes) (name : List UInt8) (lba : Nat) : List Nat → Nat × Nat → Nat ⊕ Nat × Nat
  | [], free => .inr free
  | e :: rest, free =>
    let ent := 32 * e
    if sector ent = 0 ∨ sector ent = 0xE5 then
      let free := if free.1 = 0xFFFFFFFF then (lba, ent) else free
      if sector ent = 0 then .inr free else findInSector sector name lba rest free
    else if sector (ent + 11) = 0x0F then findInSector sector name lba rest free
    else if window sector ent 11 = name then .inl ent
    else findInSector sector name lba rest free

def findRootLoop (fat : FatFs) (name : List UInt8) : List Nat → StorageDevice → Nat × Nat → StorageDevice × RootSlot
  | [], dev, free => (dev, if free.1 ≠ 0xFFFFFFFF then .free free.1 free.2 else .full)
  | i :: rest, dev, free =>
    let lba := u32 (fat.rootDirSector + i)
    match readSector dev lba with
    | (dev, none) => (dev, if free.1 ≠ 0xFFFFFFFF then .free free.1 free.2 else .full)
    | (dev, some sector) =>
      match findInSector sector name lba (List.range (fat.bytesPerSector / 32)) free with
      | .inl ent => (dev, .found lba ent)
      | .inr free => findRootLoop fat name rest dev free

def fatFindRootEntry (fat : FatFs) (dev : StorageDevice) (name : List UInt8) : StorageDevice × RootSlot :=
  findRootLoop fat name (List.range fat.rootDirSectors) dev (0xFFFFFFFF, 0xFFFFFFFF)

def freeChainLoop (fat : FatFs) : Nat → StorageDevice → Nat → Except Trap StorageDevice
  | 0, _, _ => .error .endless
  | fuel + 1, dev, cluster =>
    if cluster ≥ 2 ∧ cluster < 0xFFF8 then
      let (dev, next) := fatReadFatEntry fat dev cluster
      let (dev, _) := fatWriteFatEntry fat dev cluster 0
      freeChainLoop fat fuel dev next
    else .ok dev

def fatFreeChain (fat : FatFs) (dev : StorageDevice) (startCluster : Nat) : Except Trap StorageDevice :=
  freeChainLoop fat chainLimit dev startCluster

/-- The loop of `fat_find_free_run` over the next clusters from `c` on. -/
def findRunLoop (fat : FatFs) (count : Nat) : Nat → StorageDevice → Nat → Nat → Nat → StorageDevice × Nat
  | 0, dev, _, _, _ => (dev, 0)
  | more + 1, dev, c, run, start =>
    let (dev, entry) := fatReadFatEntry fat dev c
    if entry = 0 then
      let start := if run = 0 then c else start
      if run + 1 ≥ count then (dev, start) else findRunLoop fat count more dev (c + 1) (run + 1) start
    else findRunLoop fat count more dev (c + 1) 0 start

def fatFindFreeRun (fat : FatFs) (dev : StorageDevice) (count : Nat) : StorageDevice × Nat :=
  findRunLoop fat count (fat.totalClusters - 2) dev 2 0 2

/-- The loop of `fat_write_file` that links a run. -/
def linkRun (fat : FatFs) (first needed : Nat) : List Nat → StorageDevice → StorageDevice × Bool
  | [], dev => (dev, true)
  | i :: rest, dev =>
    let cur := u32 (first + i)
    match fatWriteFatEntry fat dev cur (if i + 1 = needed then 0xFFFF else u32 (cur + 1)) with
    | (dev, false) => (dev, false)
    | (dev, true) => linkRun fat first needed rest dev

/-- The sectors of one cluster in `fat_write_file`: the bytes still to write, or
`none` after a failed write. -/
def storeCluster (fat : FatFs) (cluster : Nat) :
    List Nat → StorageDevice → List UInt8 → StorageDevice × Option (List UInt8)
  | [], dev, buffer => (dev, some buffer)
  | s :: rest, dev, buffer =>
    let lba := u32 (fatClusterToLba fat cluster + s)
    let chunk := fat.bytesPerSector
    if buffer.length < chunk then
      match writeSector dev lba (paste (fun _ => 0) 0 buffer) with
      | (dev, false) => (dev, none)
      | (dev, true) => (dev, some [])
    else
      match writeSector dev lba (paste (fun _ => 0) 0 (buffer.take 512)) with
      | (dev, false) => (dev, none)
      | (dev, true) =>
        if buffer.drop chunk = [] then (dev, some []) else storeCluster fat cluster rest dev (buffer.drop chunk)

def storeLoop (fat : FatFs) : Nat → StorageDevice → Nat → List UInt8 → Except Trap (StorageDevice × Bool)
  | 0, _, _, _ => .error .endless
  | fuel + 1, dev, cluster, buffer =>
    if buffer.length > 0 ∧ cluster ≥ 2 ∧ cluster < 0xFFF8 then
      match storeCluster fat cluster (List.range fat.sectorsPerCluster) dev buffer with
      | (dev, none) => .ok (dev, false)
      | (dev, some buffer) =>
        let (dev, next) := fatReadFatEntry fat dev cluster
        storeLoop fat fuel dev next buffer
    else .ok (dev, true)

/-- The part of `fat_write_file` that places the bytes: the first cluster, or
`none` where it returns -1. -/
def storeData (fat : FatFs) (dev : StorageDevice) (buffer : List UInt8) :
    Except Trap (StorageDevice × Option Nat) :=
  if buffer.length > 0 then
    let clusterSize := u32 (fat.bytesPerSector * fat.sectorsPerCluster)
    let clustersNeeded := u32 (buffer.length + clusterSize - 1) / clusterSize
    let (dev, first) := fatFindFreeRun fat dev clustersNeeded
    if first = 0 then .ok (dev, none)
    else
      match linkRun fat first clustersNeeded (List.range clustersNeeded) dev with
      | (dev, false) => .ok (dev, none)
      | (dev, true) => do
        let (dev, stored) ← storeLoop fat chainLimit dev first buffer
        .ok (dev, if stored then some first else none)
  else .ok (dev, some 0)

/-- The clusters of the file that is replaced, if there is one, become free. -/
def freeOld (fat : FatFs) (dev : StorageDevice) (found : Bool) (oldCluster : Nat) : Except Trap StorageDevice :=
  if found = true ∧ oldCluster ≥ 2 then fatFreeChain fat dev oldCluster else .ok dev

/-- The new directory entry, over the old one in its sector. -/
def fillEntry (sector : Bytes) (ent : Nat) (name : List UInt8) (first size : Nat) : Bytes :=
  let sector := store (paste sector ent name) (ent + 11) 0x20
  store32 (store16 (store16 sector (ent + 20) 0) (ent + 26) first) (ent + 28) size

/-- `fat_write_file` from the read of the directory sector on. -/
def replaceEntry (s : FatState) (found : Bool) (name : List UInt8) (sector offset : Nat) (buffer : List UInt8) :
    Except Trap (FatState × Int) :=
  match readSector s.dev sector with
  | (dev, none) => .ok ({ s with dev }, -1)
  | (dev, some dirSector) => do
    let dev ← freeOld s.fat dev found (load16 dirSector (offset + 26))
    match ← storeData s.fat dev buffer with
    | (dev, none) => .ok ({ s with dev }, -1)
    | (dev, some first) =>
      match writeSector dev sector (fillEntry dirSector offset name first buffer.length) with
      | (dev, false) => .ok ({ s with dev }, -1)
      | (dev, true) => (fatRefreshRootCache { s with dev }).map fun s => (s, 0)

/-- `fat_write_file`; `none` is a null pointer. -/
def fatWriteFile (s : FatState) (name buffer : Option (List UInt8)) : Except Trap (FatState × Int) :=
  match name, buffer with
  | some name, some buffer =>
    if s.fat.attached = false ∨ s.dev.present = false ∨ s.dev.write = false then .ok (s, -1)
    else if s.fat.fatType ≠ 16 then .ok (s, -1)
    else
      match fatFormatName name with
      | none => .ok (s, -1)
      | some fatName =>
        match fatFindRootEntry s.fat s.dev fatName with
        | (dev, .full) => .ok ({ s with dev }, -1)
        | (dev, .found sector offset) => replaceEntry { s with dev } true fatName sector offset buffer
        | (dev, .free sector offset) => replaceEntry { s with dev } false fatName sector offset buffer
  | _, _ => .ok (s, -1)

end LearningOS
