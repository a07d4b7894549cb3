import LearningOS.Fat.FileStore
import LearningOS.Frames.FirstFit
import LearningOS.Io.SignedFields
import LearningOS.User.Shell

namespace LearningOS
open ByteStore Pieces History Kprintf Tiling Runs

namespace Listing

/-- What a path leads to: the root, or an entry of it. -/
def resolve (l : Listing) (path : List UInt8) : Option (Option Entry) :=
  match pieces slash path with
  | [] => some none
  | [component] => (l.find (component.take 127)).map some
  | _ => none

def ls (l : Listing) (path : List UInt8) : List UInt8 :=
  match if path = [] then some none else l.resolve path with
  | none => shellLine "not found"
  | some none => l.entries.flatMap fun e => e.name ++ [10]
  | some (some e) => if e.kind = .dir then [] else shellLine "not a directory"

def cat (l : Listing) (path : List UInt8) : List UInt8 :=
  if path = [] then shellLine "usage: cat <path>"
  else
    match l.resolve path with
    | none => shellLine "not found"
    | some none => [10]
    | some (some e) => e.bytes ++ [10]

/-- What the shell says of a change that was made or refused; there is none under an empty name. -/
def change (l : Listing) (name : List UInt8) (changed : Listing × FsResult) (failed : String) : Listing × List UInt8 :=
  if name = [] then (l, shellLine failed)
  else (changed.1, if changed.2 = .code 0 then shellLine "ok" else shellLine failed)

/-- The commands that list, read or change the files, and those that do nothing. -/
def answer (l : Listing) : List (List UInt8) → Option (Listing × List UInt8)
  | [] => some (l, [])
  | cmd :: args =>
    if cmd = ascii "help" then some (l, shellHelpCmd (args.headD []))
    else if cmd = ascii "ls" then some (l, l.ls (args.headD []))
    else if cmd = ascii "cat" then some (l, args.head?.elim (shellLine "usage: cat <path>") l.cat)
    else if cmd = ascii "mkdir" then
      some (args.head?.elim (l, shellLine "usage: mkdir <name>") fun name =>
        l.change name (l.make name .dir) "mkdir failed")
    else if cmd = ascii "touch" then
      some (args.head?.elim (l, shellLine "usage: touch <name>") fun name =>
        l.change name (l.make name .file) "touch failed")
    else if cmd = ascii "rm" then
      some (args.head?.elim (l, shellLine "usage: rm <name>") fun name => l.change name (l.remove name) "rm failed")
    else if cmd ∈ [ascii "fatls", ascii "fatcat", ascii "fatwrite", ascii "heap", ascii "mem"] then none
    else some (l, shellLine "unknown command")

end Listing

/-- The file system under the shell: its tree is in order, and its root is a directory. -/
structure ShellFiles (hello : Nat) (others : List Nat) (h : Heap) (fs : Ramfs) (kids : List (Fin 9)) : Prop where
  inv : FsInv kernelHeap hello others h fs kids
  root : (fs.nodes 0).flags = .dir

variable {hello : Nat} {others : List Nat} {h : Heap} {fs : Ramfs} {kids : List (Fin 9)} {path name : List UInt8}

namespace ShellFiles

/-- A path leads to the root, to a linked node or nowhere, and in the listing likewise. -/
theorem resolve_cases (files : ShellFiles hello others h fs kids) (nonempty : path ≠ []) :
    (vfsResolvePath fs path = none ∧ (listing h.mem fs).resolve path = none) ∨
      (vfsResolvePath fs path = some 0 ∧ (listing h.mem fs).resolve path = some none) ∨
      ∃ c ∈ kids, vfsResolvePath fs path = some c ∧
        (listing h.mem fs).resolve path = some (some (entryOf h.mem (fs.nodes c))) := by
  obtain ⟨inv, _⟩ := files
  rw [vfsResolvePath_eq inv.tree.vfsRoot nonempty, Listing.resolve]
  rcases pieces slash path with _ | ⟨first, _ | ⟨second, rest⟩⟩
  · exact .inr (.inl ⟨rfl, rfl⟩)
  · rw [List.foldlM_cons, inv.tree.enter_root]
    change _ ∨ _ ∨ ∃ c ∈ kids, _ ∧ ((listing h.mem fs).find (first.take 127)).map some = _
    rw [inv.find_eq]
    cases found : kids.find? fun c => (fs.nodes c).name = first.take 127 with
    | none => exact .inl ⟨rfl, by simp [inv.find_eq, found]⟩
    | some c => exact .inr (.inr ⟨c, List.mem_of_find?_eq_some found, rfl, rfl⟩)
  · refine .inl ⟨?_, rfl⟩
    rw [List.foldlM_cons, inv.tree.enter_root]
    cases found : kids.find? fun d => (fs.nodes d).name = first.take 127 with
    | none => rfl
    | some d =>
      have stuck := inv.tree.enter_kid (List.mem_of_find?_eq_some found) second
      simp [stuck]

theorem entry_readdir (files : ShellFiles hello others h fs kids) (i : Nat) :
    vfsReaddir fs (some 0) i = (listing h.mem fs).entries[i]?.map fun e => ⟨e.name, 0⟩ := by
  have refines := (files.inv.readdir none i).refines trivial
  have root : nodeOf fs none = some 0 := files.inv.tree.vfsRoot
  rw [root] at refines
  exact (FsResult.dirent.inj (Prod.mk.inj refines).2).symm

theorem entry_name (files : ShellFiles hello others h fs kids) {e : Entry} (member : e ∈ (listing h.mem fs).entries) :
    e.name.length ≤ 127 := by
  rw [files.inv.listing_eq] at member
  obtain ⟨c, inside, rfl⟩ := List.mem_map.mp member
  exact (files.inv.tree.kid c inside).name

end ShellFiles

theorem shownString_eq {s : List UInt8} (short : s.length < 2 ^ 31) : shownString s = s := by
  have wide : ¬ (0 : Int) > toInt32 s.length := by
    unfold toInt32
    split
    · omega
    · omega
  rw [shownString, Kprintf.printString, if_neg wide, List.nil_append]

namespace ShellFiles

/-- The loop puts out the names from its index on. -/
theorem lsLoop_eq (files : ShellFiles hello others h fs kids) {rounds i : Nat}
    (inside : i ≤ (listing h.mem fs).entries.length) (enough : (listing h.mem fs).entries.length - i < rounds) :
    lsLoop fs 0 rounds i = some (((listing h.mem fs).entries.drop i).flatMap fun e => e.name ++ [10]) := by
  have few : (listing h.mem fs).entries.length < 9 := by
    rw [files.inv.listing_eq, List.length_map]
    have kids := files.inv.tree.kids_length
    have count := files.inv.tree.count
    omega
  induction rounds generalizing i with
  | zero => omega
  | succ rounds ih =>
    rw [lsLoop, files.entry_readdir]
    by_cases more : i < (listing h.mem fs).entries.length
    · have short := files.entry_name (List.getElem_mem more)
      rw [List.getElem?_eq_getElem more, List.drop_eq_getElem_cons more, u32_of_lt (by omega), List.flatMap_cons]
      change (lsLoop fs 0 rounds (i + 1)).map _ = _
      rw [ih (by omega) (by omega), Option.map_some]
      have name : shownString _ = (listing h.mem fs).entries[i].name := shownString_eq (by omega)
      exact congrArg (fun n => some (n ++ [10] ++ _)) name
    · rw [List.getElem?_eq_none (by omega), List.drop_eq_nil_of_le (by omega)]
      rfl

theorem ls_eq (files : ShellFiles hello others h fs kids) (path : List UInt8) :
    shellLsPath fs path = some ((listing h.mem fs).ls path) := by
  have whole : lsLoop fs 0 walkLimit 0 = some ((listing h.mem fs).entries.flatMap fun e => e.name ++ [10]) := by
    refine files.lsLoop_eq (Nat.zero_le _) ?_
    rw [files.inv.listing_eq, List.length_map]
    have kids := files.inv.tree.kids_length
    have count := files.inv.tree.count
    unfold walkLimit
    omega
  rw [shellLsPath, Listing.ls]
  by_cases empty : path = []
  · rw [if_pos empty, if_pos empty, files.inv.tree.vfsRoot]
    exact (if_pos files.root).trans whole
  · rw [if_neg empty, if_neg empty]
    rcases files.resolve_cases empty with ⟨missing, view⟩ | ⟨root, view⟩ | ⟨c, member, found, view⟩
    · rw [missing, view]
    · rw [root, view]
      exact (if_pos files.root).trans whole
    · rw [found, view]
      dsimp only
      rcases files.inv.tree.kid c member with dir | file
      · have first : vfsReaddir fs (some c) 0 = none := by
          simp [vfsReaddir, ramfsReaddir, dir.readdir, dir.impl, dir.childCount]
        have kind : (entryOf h.mem (fs.nodes c)).kind = .dir := by simp [entryOf, kindOf, dir.flags]
        rw [if_pos dir.flags, if_pos kind]
        change lsLoop fs c (2 ^ 32 - 1 + 1) 0 = some []
        rw [lsLoop, first]
      · have kind : (entryOf h.mem (fs.nodes c)).kind ≠ .dir := by
          simp only [entryOf, kindOf, file.flags]
          split
          · rename_i other
            cases other
          · split <;> simp
        rw [if_neg (by simp [file.flags]), if_neg kind]

/-- A node that is no file yields nothing. -/
theorem shellCat_none {node : Fin 9} (unread : (fs.nodes node).read = false) :
    shellCat h.mem fs (some node) walkLimit = some [] := by
  have read : vfsRead h.mem fs (some node) 0 512 = (0, []) := if_neg (by simp [unread])
  change readAll h.mem fs (some node) (fun _ => 512) (2 ^ 32 - 1 + 1) 0 0 = some []
  exact readAll_done read

theorem shellCat_file (files : ShellFiles hello others h fs kids) {c : Fin 9} (member : c ∈ kids)
    (file : IsFile hello c (fs.nodes c)) :
    shellCat h.mem fs (some c) walkLimit = some (entryOf h.mem (fs.nodes c)).bytes := by
  obtain ⟨inv, _⟩ := files
  have stop : kernelHeap.stop = 0xC1100000 := rfl
  have bounds := inv.data_bounds member file
  have sized : (fs.nodes c).data = 0 → (fs.nodes c).size = 0 := by
    intro null
    rcases file.data with ⟨_, _, iff⟩ | ⟨_, static, _⟩
    · exact iff.mp null
    · exact absurd (static.symm.trans null) inv.nonnull
  have data : (fs.nodes c).data + (fs.nodes c).size ≤ 0xC1100000 := by
    by_cases null : (fs.nodes c).data = 0
    · rw [null, sized null]
      exact Nat.zero_le _
    · exact bounds null
  have is : FileNode fs c c := ⟨file.impl, file.read, by omega, by omega⟩
  have content : fileContent h.mem (fs.nodes c) = (entryOf h.mem (fs.nodes c)).bytes := by
    unfold fileContent
    split
    · rename_i null
      rw [entryOf, sized null]
      rfl
    · exact copyOut_eq_window (by omega)
  have length := is.content_lt h.mem
  have short : (fileContent h.mem (fs.nodes c)).length ≤ 0xC1100000 := by
    rw [fileContent_length]
    split
    · exact Nat.zero_le _
    · omega
  rw [← content]
  refine is.readAll_eq (fun _ => by decide) (fun _ => by decide) (fun k inside => ?_) (by simp [chunkStart]) ?_
  · omega
  · rw [Nat.sub_zero]
    exact length

theorem cat_eq (files : ShellFiles hello others h fs kids) (path : List UInt8) :
    shellCatPath h fs path = some ((listing h.mem fs).cat path) := by
  rw [shellCatPath, Listing.cat]
  by_cases empty : path = []
  · rw [if_pos empty, if_pos empty]
  · rw [if_neg empty, if_neg empty]
    rcases files.resolve_cases empty with ⟨missing, view⟩ | ⟨root, view⟩ | ⟨c, member, found, view⟩
    · rw [missing, view]
    · rw [root, view]
      dsimp only
      rw [shellCat_none files.inv.tree.read]
      rfl
    · rw [found, view]
      dsimp only
      rcases files.inv.tree.kid c member with dir | file
      · rw [shellCat_none dir.read, entryOf, dir.size]
        rfl
      · rw [files.shellCat_file member file]
        rfl

end ShellFiles

theorem ramfsAddChild_flags (fs : Ramfs) (parent child i : Fin 9) :
    ((ramfsAddChild fs parent child).1.nodes i).flags = (fs.nodes i).flags := by
  unfold ramfsAddChild
  dsimp only
  split
  · rfl
  · rw [setNode_nodes, Function.update_apply]
    split
    · rename_i here
      rw [here]
    · rfl

/-- What is made is linked in the root, which stays a directory. -/
theorem ramfsMake_root (tree : TreeInv hello fs kids) (flags : NodeType) (fill : Fin 9 → RamfsNode → RamfsNode)
    (name : List UInt8) : ((ramfsMake flags fill fs name).1.nodes 0).flags = (fs.nodes 0).flags := by
  rw [ramfsMake, tree.ramfsRoot]
  dsimp only
  by_cases empty : name = []
  · rw [if_pos empty]
  rw [if_neg empty]
  by_cases taken : (ramfsFinddir fs 0 name).isSome
  · rw [if_pos taken]
  rw [if_neg taken, ramfsAllocNode]
  by_cases room : fs.nodeCount < 9
  · have other : (0 : Fin 9) ≠ ⟨fs.nodeCount, room⟩ := by
      intro same
      have first := congrArg Fin.val same
      have count := tree.count
      change 0 = fs.nodeCount at first
      omega
    rw [dif_pos room]
    dsimp only
    rw [ramfsAddChild_flags, setNode_nodes, Function.update_of_ne other]
    exact congrArg RamfsNode.flags (Function.update_of_ne other _ _)
  · rw [dif_neg room]

theorem ramfsUnlink_root (tree : TreeInv hello fs kids) {h' : Heap} {fs' : Ramfs} {ret : Int} {frees : List FreeCall}
    (run : ramfsUnlink h fs name = some (h', fs', ret, frees)) : (fs'.nodes 0).flags = (fs.nodes 0).flags := by
  have gap (fs : Ramfs) (i : Nat) : ((fs.setNode 0 (closeGap (fs.nodes 0) i)).nodes 0).flags = (fs.nodes 0).flags := by
    rw [setNode_nodes, Function.update_self]
    rfl
  rw [ramfsUnlink, tree.ramfsRoot] at run
  dsimp only at run
  by_cases empty : name = []
  · rw [if_pos empty] at run
    cases run
    rfl
  rw [if_neg empty] at run
  cases found : findChild fs 0 name with
  | none =>
    rw [found] at run
    cases run
    rfl
  | some place =>
    obtain ⟨i, child⟩ := place
    rw [found] at run
    dsimp only at run
    split at run
    · cases run
      rfl
    · split at run
      · obtain ⟨freed, _, same⟩ := Option.map_eq_some_iff.mp run
        cases same
        refine (gap _ i).trans ?_
        rw [setNode_nodes, Function.update_apply]
        split
        · rename_i here
          rw [here]
        · rfl
      · cases run
        exact gap fs i

/-- The heap changes by the one call of `kfree` alone. -/
theorem ramfsUnlink_heap {h' : Heap} {fs' : Ramfs} {ret : Int} {frees : List FreeCall}
    (run : ramfsUnlink h fs name = some (h', fs', ret, frees)) :
    h' = h ∨ ∃ p, ⟨h, p⟩ ∈ frees ∧ kfree h p = some h' := by
  unfold ramfsUnlink at run
  split at run
  · cases run
    exact .inl rfl
  split at run
  · cases run
    exact .inl rfl
  split at run
  · cases run
    exact .inl rfl
  dsimp only at run
  split at run
  · cases run
    exact .inl rfl
  split at run
  · obtain ⟨freed, call, same⟩ := Option.map_eq_some_iff.mp run
    cases same
    exact .inr ⟨_, List.mem_singleton.mpr rfl, call⟩
  · cases run
    exact .inl rfl

/-- What a command leaves of the blocks of the heap: `rm` may give one back, the others change none. -/
inductive LeavesBlocks (bs : List Block) : List (List UInt8) → List Block → Prop
  | same {args} : LeavesBlocks bs args bs
  | rm {rest b} (inside : b ∈ bs) (used : b.free = false) :
      LeavesBlocks bs (ascii "rm" :: rest) (giveBack 12 b.addr bs)

namespace ShellFiles

/-- A new entry, for both kinds, under a name that fits. -/
theorem make_eq (files : ShellFiles hello others h fs kids) {flags : NodeType} {fill : Fin 9 → RamfsNode → RamfsNode}
    {kind : EntryKind} {op : FsOp} (short : name.length ≤ 127) (failed : String)
    (done : FsDone kernelHeap hello others h fs op h (ramfsMake flags fill fs name).1
      (.code (ramfsMake flags fill fs name).2) [])
    (domain : name ≠ [] → name.length ≤ 127 → op.InDomain (listing h.mem fs))
    (step : (listing h.mem fs).step (op.granted h) op = (listing h.mem fs).make name kind) :
    (∃ kids', ShellFiles hello others h (ramfsMake flags fill fs name).1 kids') ∧
      (listing h.mem fs).change name ((listing h.mem fs).make name kind) failed =
        (listing h.mem (ramfsMake flags fill fs name).1, shellOk (ramfsMake flags fill fs name).2 failed) := by
  obtain ⟨kids', inv⟩ := done.inv
  refine ⟨⟨kids', inv, (ramfsMake_root files.inv.tree ..).trans files.root⟩, ?_⟩
  by_cases empty : name = []
  · have refused : ramfsMake flags fill fs name = (fs, -1) := by
      rw [ramfsMake, files.inv.tree.ramfsRoot]
      exact if_pos empty
    rw [refused, Listing.change, if_pos empty]
    rfl
  · have refines := done.refines (domain empty short)
    rw [step] at refines
    rw [refines, Listing.change, if_neg empty, shellOk]
    by_cases zero : (ramfsMake flags fill fs name).2 = 0
    · rw [if_pos (congrArg FsResult.code zero), if_pos zero]
    · rw [if_neg fun same => zero (FsResult.code.inj same), if_neg zero]

theorem rm_eq (files : ShellFiles hello others h fs kids) (short : name.length ≤ 127) :
    ∃ h' fs' ret frees, ramfsUnlink h fs name = some (h', fs', ret, frees) ∧
      (∃ kids', ShellFiles hello others h' fs' kids') ∧
      (∀ rest, LeavesBlocks h.blocks (ascii "rm" :: rest) h'.blocks) ∧
      (listing h.mem fs).change name ((listing h.mem fs).remove name) "rm failed" =
        (listing h'.mem fs', shellOk ret "rm failed") := by
  obtain ⟨h', fs', ret, frees, run, done⟩ := files.inv.unlink name
  obtain ⟨kids', inv⟩ := done.inv
  have blocks (rest : List (List UInt8)) : LeavesBlocks h.blocks (ascii "rm" :: rest) h'.blocks := by
    rcases ramfsUnlink_heap run with rfl | ⟨p, call, freed⟩
    · exact .same
    · obtain ⟨ptrs, held, member⟩ := done.frees _ call
      obtain ⟨b, inside, used, given⟩ := held.kfree_blocks member freed
      rw [given]
      exact .rm inside used
  refine ⟨h', fs', ret, frees, run, ⟨kids', inv, (ramfsUnlink_root files.inv.tree run).trans files.root⟩, blocks, ?_⟩
  by_cases empty : name = []
  · have refused : ramfsUnlink h fs name = some (h, fs, -1, []) := by
      rw [ramfsUnlink, files.inv.tree.ramfsRoot]
      exact if_pos empty
    cases Option.some.inj (refused.symm.trans run)
    rw [Listing.change, if_pos empty]
    rfl
  · have refines : (listing h.mem fs).remove name = (listing h'.mem fs', .code ret) := done.refines ⟨empty, short⟩
    rw [refines, Listing.change, if_neg empty, shellOk]
    by_cases zero : ret = 0
    · rw [if_pos (congrArg FsResult.code zero), if_pos zero]
    · rw [if_neg fun same => zero (FsResult.code.inj same), if_neg zero]

end ShellFiles

/-- The shell as its user sees it. -/
structure ShellView where
  listing : Listing
  fat : FatState
  frames : Frames
  blocks : List Block

def Shell.view (s : Shell) : ShellView := ⟨listing s.heap.mem s.fs, s.fat, s.frames, s.heap.blocks⟩

/-- The first 16 files of the volume with their sizes. -/
def fatListing (files : List FatFileInfo) : List UInt8 :=
  if files = [] then shellLine "fat: no entries"
  else (files.take 16).flatMap fun fi => fi.name ++ ascii " (" ++ decimal fi.size ++ ascii ")" ++ [10]

/-- `fatcat` puts out what the volume returns under a name; where the volume is mounted and the
listing has room for its files, that is the beginning of the file, if it has bytes. -/
structure ShowsFile (s : FatState) (name : List UInt8) (s' : FatState) (out : List UInt8) : Prop where
  returned : ∃ n bytes, fatReadFile s (some name) true 1024 = .ok (s', n, bytes) ∧
    out = if n ≤ 0 then shellLine "fat: not found or read failed" else bytes.take n.toNat ++ [10]
  content : ∀ files base suffix, FatMounted s → s.Represents files → s.fat.shown s.dev.disk ≤ 32 →
    ShortName name base suffix → s' = s ∧
      out = if (files (entryName base suffix)).getD [] = [] then shellLine "fat: not found or read failed"
        else ((files (entryName base suffix)).getD []).take 1024 ++ [10]

/-- `fatwrite` puts out whether the volume took the text; a mounted volume that is not to lose the
file it replaces has it under its name then, and its files as before otherwise. -/
structure StoresFile (s : FatState) (name text : List UInt8) (s' : FatState) (out : List UInt8) : Prop where
  returned : ∃ ret, fatWriteFile s (some name) (some text) = .ok (s', ret) ∧
    out = if ret = 0 then shellLine "ok" else shellLine "fatwrite failed"
  content : ∀ files raw, FatMounted s → s.Represents files → fatFormatName name = some raw → FoundName raw →
    ¬ WriteLoses s (some name) (some text) → text.length + s.fat.clusterBytes ≤ 2 ^ 32 → FatMounted s' ∧
      s'.Represents (if out = shellLine "ok" then Function.update files raw (some text) else files)

/-- The report on a heap in blocks. -/
def blocksReport (bs : List Block) : List UInt8 :=
  ascii "heap: used=" ++ decimal (payload (fun b => !b.free) bs) ++ ascii " free=" ++ decimal (payload Block.free bs) ++
    ascii " blocks=" ++ decimal bs.length ++ ascii " free_blocks=" ++ decimal (bs.filter Block.free).length ++ [10]

/-- The report on frames of which so many are together free. -/
def framesReport (s : Frames) (largest : Nat) : List UInt8 :=
  ascii "frames: total=" ++ decimal s.totalFrames ++ ascii " used=" ++ decimal s.usedFrames ++ ascii " free=" ++
    decimal (s.totalFrames - s.usedFrames) ++ ascii " largest_run=" ++ decimal largest ++ [10]

/-- So many frames can be had together, and not more. -/
def LargestRun (s : Frames) (largest : Nat) : Prop :=
  ∀ count, 1 ≤ count → (count ≤ largest ↔ ∃ a, a + count ≤ s.totalFrames ∧ RunAt (Clear s) a count)

/-- What a command may do and put out: the files answer it, the volume does, or it reports on
memory. -/
inductive ShellDoes (v : ShellView) : List (List UInt8) → ShellView → List UInt8 → Prop
  | files {args l out blocks} (done : v.listing.answer args = some (l, out)) (leaves : LeavesBlocks v.blocks args blocks) :
      ShellDoes v args { v with listing := l, blocks } out
  | fatls {rest} : ShellDoes v (ascii "fatls" :: rest) v (fatListing v.fat.files)
  | fatcat {name rest fat out} (named : name ≠ []) (shows : ShowsFile v.fat name fat out) :
      ShellDoes v (ascii "fatcat" :: name :: rest) { v with fat } out
  | fatcatUsage {rest} (unnamed : rest.headD [] = []) :
      ShellDoes v (ascii "fatcat" :: rest) v (shellLine "usage: fatcat <file>")
  | fatwrite {name text rest fat out} (named : name ≠ []) (stores : StoresFile v.fat name text fat out) :
      ShellDoes v (ascii "fatwrite" :: name :: text :: rest) { v with fat } out
  | fatwriteUsage {rest} (few : rest.length < 2 ∨ rest.headD [] = []) :
      ShellDoes v (ascii "fatwrite" :: rest) v (shellLine "usage: fatwrite <file> <text>")
  | heap {rest} : ShellDoes v (ascii "heap" :: rest) v (blocksReport v.blocks)
  | mem {rest largest} (run : LargestRun v.frames largest) :
      ShellDoes v (ascii "mem" :: rest) v (framesReport v.frames largest)

/-- The commands that may never return. -/
inductive ShellStuck (v : ShellView) : List (List UInt8) → Prop
  | fatcat {name rest trap} (stuck : fatReadFile v.fat (some name) true 1024 = .error trap) :
      ShellStuck v (ascii "fatcat" :: name :: rest)
  | fatwrite {name text rest trap} (stuck : fatWriteFile v.fat (some name) (some text) = .error trap) :
      ShellStuck v (ascii "fatwrite" :: name :: text :: rest)

/-- The files are in order, and the other globals within what their types can hold. -/
structure ShellInv (hello : Nat) (others : List Nat) (s : Shell) (kids : List (Fin 9)) : Prop where
  files : ShellFiles hello others s.heap s.fs kids
  listed : FatListed s.fat.files
  total : s.frames.totalFrames < 2 ^ 32
  used : s.frames.usedFrames < 2 ^ 32

theorem shownNumber_eq {n : Nat} (word : n < 2 ^ 64) : shownNumber n = decimal n := by
  rw [shownNumber, printUintBase_decimal word, Int.toNat_of_nonpos (by omega)]
  rfl

theorem shellFatls_eq {s : FatState} (listed : FatListed s.files) : shellFatls s = fatListing s.files := by
  rw [shellFatls, fatListing]
  by_cases none : s.files = []
  · rw [if_pos (List.length_eq_zero_iff.mpr none), if_pos none]
  · rw [if_neg fun zero => none (List.length_eq_zero_iff.mp zero), if_neg none]
    refine List.flatMap_congr fun fi member => ?_
    obtain ⟨short, small⟩ := listed fi (List.mem_of_mem_take member)
    rw [shownString_eq (by omega), shownNumber_eq (by omega), shellLine, ← List.append_assoc]

theorem shellFatcat_shows {s s' : FatState} {out : List UInt8} (named : name ≠ [])
    (run : shellFatcat s name = some (s', out)) : ShowsFile s name s' out := by
  rw [shellFatcat, if_neg named] at run
  cases read : fatReadFile s (some name) true 1024 with
  | error trap =>
    rw [read] at run
    cases run
  | ok result =>
    obtain ⟨t, n, bytes⟩ := result
    rw [read] at run
    cases run
    refine ⟨⟨n, bytes, read, rfl⟩, fun files base suffix mounted rep few short => ?_⟩
    have result := mounted.fatReadFile_eq rep few short (by decide : 0 < 1024) (by decide)
    rw [read] at result
    cases held : files (entryName base suffix) with
    | none =>
      rw [held] at result
      cases result
      exact ⟨rfl, rfl⟩
    | some content =>
      rw [held] at result
      cases result
      refine ⟨rfl, ?_⟩
      have length : toInt32 (min 1024 content.length) = (min 1024 content.length : Nat) := if_pos (by omega)
      rw [length, Option.getD_some]
      by_cases empty : content = []
      · rw [if_pos empty, if_pos (by simp [empty])]
      · have some := List.length_pos_iff.mpr empty
        rw [if_neg empty, if_neg (by omega), Int.toNat_natCast, List.take_of_length_le (by rw [List.length_take])]

theorem shellFatwrite_stores {s s' : FatState} {text out : List UInt8} (named : name ≠ [])
    (run : shellFatwrite s name text = some (s', out)) : StoresFile s name text s' out := by
  rw [shellFatwrite, if_neg named] at run
  cases write : fatWriteFile s (some name) (some text) with
  | error trap =>
    rw [write] at run
    cases run
  | ok result =>
    obtain ⟨t, ret⟩ := result
    rw [write] at run
    cases run
    refine ⟨⟨ret, write, rfl⟩, fun files raw mounted rep format plain keeps noWrap => ?_⟩
    have safe : FatCall.Safe s (.write (some name) (some text) ret) := by
      refine ⟨keeps, fun raw' format' => ?_, fun bytes given => ?_⟩
      · cases Option.some.inj (format.symm.trans format')
        exact plain
      · cases Option.some.inj given
        exact noWrap
    obtain ⟨mounted', rep'⟩ := mounted.step rep safe write
    refine ⟨mounted', ?_⟩
    have after : FileMap.after files (.write (some name) (some text) ret) =
        if ret = 0 then Function.update files raw (some text) else files := by
      simp only [FileMap.after, Option.bind_some, format]
    rw [after] at rep'
    by_cases zero : ret = 0
    · rw [if_pos zero] at rep' ⊢
      rwa [if_pos rfl]
    · rw [if_neg zero] at rep' ⊢
      rwa [if_neg (by decide)]

theorem heapReport_eq {bs : List Block} (inv : HeapInv kernelHeap h bs) : shellHeap h = some (blocksReport bs) := by
  have balance := payload_balance inv.tiles
  have stop : kernelHeap.stop = 0xC1100000 := rfl
  have few := List.length_filter_le Block.free bs
  rw [shellHeap, inv.heapStats_eq, Option.map_some, heapReport]
  dsimp only
  rw [shownNumber_eq (by omega), shownNumber_eq (by omega), shownNumber_eq (by omega), shownNumber_eq (by omega)]
  rfl

theorem shellMem_eq {s : Frames} (total : s.totalFrames < 2 ^ 32) (used : s.usedFrames < 2 ^ 32) :
    ∃ largest, LargestRun s largest ∧ shellMem s = framesReport s largest := by
  have largest : LargestRun s (frameLargestFreeRun s) := fun _ some => le_largestRun_iff total some
  have bound : frameLargestFreeRun s ≤ s.totalFrames := by
    rcases Nat.eq_zero_or_pos (frameLargestFreeRun s) with zero | some
    · omega
    · obtain ⟨a, inside, _⟩ := (largest _ some).mp (Nat.le_refl _)
      omega
  have free : frameFreeCount s = s.totalFrames - s.usedFrames := by
    unfold frameFreeCount
    split
    · omega
    · rfl
  refine ⟨_, largest, ?_⟩
  rw [shellMem, framesReport, free, shownNumber_eq (by omega), shownNumber_eq (by omega), shownNumber_eq (by omega),
    shownNumber_eq (by omega)]

/-- A command that leaves the shell in order and does what it may, or that never returns. -/
def CommandDone (hello : Nat) (others : List Nat) (s : Shell) (args : List (List UInt8)) : Option ShellSaid → Prop
  | none => ShellStuck s.view args
  | some said => (∃ kids, ShellInv hello others said.shell kids) ∧ ShellDoes s.view args said.shell.view said.out

section
variable {s : Shell} {args : List (List UInt8)} {out : List UInt8}

theorem CommandDone.answered (inv : ShellInv hello others s kids)
    (answer : (listing s.heap.mem s.fs).answer args = some (listing s.heap.mem s.fs, out)) :
    CommandDone hello others s args (some ⟨s, out⟩) := ⟨⟨kids, inv⟩, .files answer .same⟩

theorem CommandDone.changed {h' : Heap} {fs' : Ramfs} (inv : ShellInv hello others s kids)
    (files : ∃ kids', ShellFiles hello others h' fs' kids') (leaves : LeavesBlocks s.heap.blocks args h'.blocks)
    (answer : (listing s.heap.mem s.fs).answer args = some (listing h'.mem fs', out)) :
    CommandDone hello others s args (some ⟨{ s with heap := h', fs := fs' }, out⟩) := by
  obtain ⟨kids', files⟩ := files
  exact ⟨⟨kids', files, inv.listed, inv.total, inv.used⟩, .files answer leaves⟩

theorem catCommand_done (inv : ShellInv hello others s kids) (args : List (List UInt8)) :
    CommandDone hello others s (ascii "cat" :: args) (withArgument s args "usage: cat <path>" fun path =>
      (shellCatPath s.heap s.fs path).map (⟨s, ·⟩)) := by
  cases args with
  | nil => exact .answered inv rfl
  | cons path rest =>
    rw [withArgument, inv.files.cat_eq]
    exact .answered inv rfl

theorem mkdirCommand_done (inv : ShellInv hello others s kids) (short : ∀ a ∈ args, a.length ≤ 127) :
    CommandDone hello others s (ascii "mkdir" :: args) (withArgument s args "usage: mkdir <name>" fun name =>
      some (mkdirCommand s name)) := by
  cases args with
  | nil => exact .answered inv rfl
  | cons name rest =>
    obtain ⟨after, answer⟩ := inv.files.make_eq (short name List.mem_cons_self) "mkdir failed"
      (inv.files.inv.mkdir name) (fun some small => ⟨some, small⟩) rfl
    exact .changed inv after .same (congrArg some answer)

theorem touchCommand_done (inv : ShellInv hello others s kids) (short : ∀ a ∈ args, a.length ≤ 127) :
    CommandDone hello others s (ascii "touch" :: args) (withArgument s args "usage: touch <name>" fun name =>
      some (touchCommand s name)) := by
  cases args with
  | nil => exact .answered inv rfl
  | cons name rest =>
    obtain ⟨after, answer⟩ := inv.files.make_eq (short name List.mem_cons_self) "touch failed"
      (inv.files.inv.create name) (fun some small => ⟨some, small⟩) rfl
    exact .changed inv after .same (congrArg some answer)

theorem rmCommand_done (inv : ShellInv hello others s kids) (short : ∀ a ∈ args, a.length ≤ 127) :
    CommandDone hello others s (ascii "rm" :: args) (withArgument s args "usage: rm <name>" (rmCommand s)) := by
  cases args with
  | nil => exact .answered inv rfl
  | cons name rest =>
    obtain ⟨h', fs', ret, frees, run, after, leaves, answer⟩ := inv.files.rm_eq (short name List.mem_cons_self)
    rw [withArgument, rmCommand, run]
    exact .changed inv after (leaves _) (congrArg some answer)

theorem fatcatCommand_done (inv : ShellInv hello others s kids) (args : List (List UInt8)) :
    CommandDone hello others s (ascii "fatcat" :: args) (withArgument s args "usage: fatcat <file>" fun name =>
      (shellFatcat s.fat name).map fun (fat, out) => ⟨{ s with fat }, out⟩) := by
  cases args with
  | nil => exact ⟨⟨kids, inv⟩, .fatcatUsage rfl⟩
  | cons name rest =>
    rw [withArgument]
    by_cases unnamed : name = []
    · rw [shellFatcat, if_pos unnamed]
      exact ⟨⟨kids, inv⟩, .fatcatUsage unnamed⟩
    cases done : shellFatcat s.fat name with
    | none =>
      rw [shellFatcat, if_neg unnamed] at done
      cases read : fatReadFile s.fat (some name) true 1024 with
      | error trap => exact .fatcat read
      | ok result =>
        rw [read] at done
        cases done
    | some said =>
      obtain ⟨fat, out⟩ := said
      have shows := shellFatcat_shows unnamed done
      obtain ⟨n, bytes, read, _⟩ := shows.returned
      have listed : FatListed fat.files := fatReadFile_files read ▸ inv.listed
      exact ⟨⟨kids, inv.files, listed, inv.total, inv.used⟩, .fatcat unnamed shows⟩

theorem fatwriteCommand_done (inv : ShellInv hello others s kids) (args : List (List UInt8)) :
    CommandDone hello others s (ascii "fatwrite" :: args) (fatwriteCommand s args) := by
  rcases args with _ | ⟨name, _ | ⟨text, rest⟩⟩
  · exact ⟨⟨kids, inv⟩, .fatwriteUsage (.inl (by decide))⟩
  · exact ⟨⟨kids, inv⟩, .fatwriteUsage (.inl Nat.one_lt_two)⟩
  · rw [fatwriteCommand]
    by_cases unnamed : name = []
    · rw [shellFatwrite, if_pos unnamed]
      exact ⟨⟨kids, inv⟩, .fatwriteUsage (.inr unnamed)⟩
    cases done : shellFatwrite s.fat name text with
    | none =>
      rw [shellFatwrite, if_neg unnamed] at done
      cases write : fatWriteFile s.fat (some name) (some text) with
      | error trap => exact .fatwrite write
      | ok result =>
        rw [write] at done
        cases done
    | some said =>
      obtain ⟨fat, out⟩ := said
      have stores := shellFatwrite_stores unnamed done
      obtain ⟨ret, write, _⟩ := stores.returned
      exact ⟨⟨kids, inv.files, fatWriteFile_listed inv.listed write, inv.total, inv.used⟩, .fatwrite unnamed stores⟩

theorem heapCommand_done (inv : ShellInv hello others s kids) (args : List (List UInt8)) :
    CommandDone hello others s (ascii "heap" :: args) ((shellHeap s.heap).map (⟨s, ·⟩)) := by
  obtain ⟨bs, heap, _⟩ := inv.files.inv.held
  rw [heapReport_eq heap, ← heap.blocks_listed]
  exact ⟨⟨kids, inv⟩, .heap⟩

theorem memCommand_done (inv : ShellInv hello others s kids) (args : List (List UInt8)) :
    CommandDone hello others s (ascii "mem" :: args) (some ⟨s, shellMem s.frames⟩) := by
  obtain ⟨largest, run, report⟩ := shellMem_eq inv.total inv.used
  rw [report]
  exact ⟨⟨kids, inv⟩, .mem run⟩

/-- Every command does what it may, and the ones that are not about the volume return. -/
theorem shellCommand_done (inv : ShellInv hello others s kids) (short : ∀ a ∈ args, a.length ≤ 127) :
    CommandDone hello others s args (shellCommand s args) := by
  cases args with
  | nil => exact .answered inv rfl
  | cons cmd args =>
    have shortArgs := fun a member => short a (List.mem_cons_of_mem cmd member)
    rw [shellCommand]
    by_cases help : cmd = ascii "help"
    · rw [if_pos help]
      exact help ▸ .answered inv rfl
    rw [if_neg help]
    by_cases ls : cmd = ascii "ls"
    · rw [if_pos ls, ls, inv.files.ls_eq]
      exact .answered inv rfl
    rw [if_neg ls]
    by_cases cat : cmd = ascii "cat"
    · rw [if_pos cat]
      exact cat ▸ catCommand_done inv args
    rw [if_neg cat]
    by_cases fatls : cmd = ascii "fatls"
    · rw [if_pos fatls]
      rw [shellFatls_eq inv.listed]
      exact fatls ▸ ⟨⟨kids, inv⟩, .fatls⟩
    rw [if_neg fatls]
    by_cases fatcat : cmd = ascii "fatcat"
    · rw [if_pos fatcat]
      exact fatcat ▸ fatcatCommand_done inv args
    rw [if_neg fatcat]
    by_cases fatwrite : cmd = ascii "fatwrite"
    · rw [if_pos fatwrite]
      exact fatwrite ▸ fatwriteCommand_done inv args
    rw [if_neg fatwrite]
    by_cases mkdir : cmd = ascii "mkdir"
    · rw [if_pos mkdir]
      exact mkdir ▸ mkdirCommand_done inv shortArgs
    rw [if_neg mkdir]
    by_cases touch : cmd = ascii "touch"
    · rw [if_pos touch]
      exact touch ▸ touchCommand_done inv shortArgs
    rw [if_neg touch]
    by_cases rm : cmd = ascii "rm"
    · rw [if_pos rm]
      exact rm ▸ rmCommand_done inv shortArgs
    rw [if_neg rm]
    by_cases heap : cmd = ascii "heap"
    · rw [if_pos heap]
      exact heap ▸ heapCommand_done inv args
    rw [if_neg heap]
    by_cases mem : cmd = ascii "mem"
    · rw [if_pos mem]
      exact mem ▸ memCommand_done inv args
    · rw [if_neg mem]
      refine .answered inv ?_
      rw [Listing.answer, if_neg help, if_neg ls, if_neg cat, if_neg mkdir, if_neg touch, if_neg rm, if_neg]
      simp [fatls, fatcat, fatwrite, heap, mem]

end

end LearningOS
