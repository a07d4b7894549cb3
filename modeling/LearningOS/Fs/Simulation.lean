import LearningOS.Fs.Refinement

namespace LearningOS
open ByteStore

/-- A call that returned: the tree and its heap are in order, blocks of other
clients are as before, only allocated pointers were freed, and inside its domain
the call did what the abstract file system does. -/
structure FsDone (r : HeapRegion) (hello : Nat) (others : List Nat) (h : Heap) (fs : Ramfs) (op : FsOp)
    (h' : Heap) (fs' : Ramfs) (result : FsResult) (frees : List FreeCall) : Prop where
  inv : ∃ kids', FsInv r hello others h' fs' kids'
  others : ∀ q ∈ others, SamePayload h h' q
  frees : FreesLive r frees
  refines : op.InDomain (listing h.mem fs) →
    (listing h.mem fs).step (op.granted h) op = (listing h'.mem fs', result)

theorem Listing.rewrite_append {pre rest : List Entry} {e : Entry} {name : List UInt8} (bytes : List UInt8)
    (before : ∀ d ∈ pre, d.name ≠ name) (hit : e.name = name) :
    Listing.rewrite name bytes (pre ++ e :: rest) = pre ++ { e with bytes } :: rest := by
  induction pre with
  | nil => simp only [List.nil_append, Listing.rewrite, if_pos hit]
  | cons d pre ih =>
    have other := before d (by simp)
    simp only [List.cons_append, Listing.rewrite, if_neg other, ih fun x member => before x (by simp [member])]

theorem Listing.rewrite_rewrite (name first second : List UInt8) (es : List Entry) :
    Listing.rewrite name second (Listing.rewrite name first es) = Listing.rewrite name second es := by
  induction es with
  | nil => rfl
  | cons e es ih =>
    by_cases hit : e.name = name
    · simp only [Listing.rewrite, if_pos hit]
    · simp only [Listing.rewrite, if_neg hit, ih]

/-- Erasing the first entry of a name. -/
theorem Listing.eraseP_append {pre rest : List Entry} {e : Entry} {name : List UInt8}
    (before : ∀ d ∈ pre, d.name ≠ name) (hit : e.name = name) :
    (pre ++ e :: rest).eraseP (fun d => decide (d.name = name)) = pre ++ rest := by
  induction pre with
  | nil => simp [hit]
  | cons d pre ih =>
    have other := before d (by simp)
    simp only [List.cons_append, List.eraseP_cons, other, decide_false, cond_false]
    rw [ih fun x member => before x (by simp [member])]

/-- A file rewritten with its own bytes. -/
theorem Listing.rewrite_self {l : Listing} {name : List UInt8} {e : Entry} (found : l.find name = some e) :
    Listing.rewrite name e.bytes l.entries = l.entries := by
  obtain ⟨hit, pre, rest, split, before⟩ := List.find?_eq_some_iff_append.mp found
  rw [split, Listing.rewrite_append e.bytes (fun d member => by simpa using before d member) (by simpa using hit)]

namespace FsInv
variable {r : HeapRegion} {hello : Nat} {others : List Nat} {h h' : Heap} {fs fs' : Ramfs} {kids : List (Fin 9)}

/-- A call that changes nothing. -/
theorem idle (inv : FsInv r hello others h fs kids) {op : FsOp} {result : FsResult}
    (refines : op.InDomain (listing h.mem fs) →
      (listing h.mem fs).step (op.granted h) op = (listing h.mem fs, result)) :
    FsDone r hello others h fs op h fs result [] :=
  ⟨⟨kids, inv⟩, fun q _ => .refl h q, by simp [FreesLive], refines⟩

theorem find_eq (inv : FsInv r hello others h fs kids) (name : List UInt8) :
    (listing h.mem fs).find name =
      (kids.find? fun c => (fs.nodes c).name = name).map fun c => entryOf h.mem (fs.nodes c) := by
  simp only [Listing.find, inv.listing_eq, List.find?_map]
  rfl

theorem taken_iff (inv : FsInv r hello others h fs kids) (name : List UInt8) :
    ((listing h.mem fs).find name).isSome = true ↔ ∃ c ∈ kids, (fs.nodes c).name = name := by
  simp [inv.find_eq, List.find?_isSome]

/-- Making an entry, for both kinds. -/
theorem make (inv : FsInv r hello others h fs kids) {flags : NodeType} {fill : Fin 9 → RamfsNode → RamfsNode}
    {kind : EntryKind} {name : List UInt8} (ok : ∀ c, KidOk hello c (fill c (blankNode name flags)))
    (noOwner : ∀ c, dataOwner (fill c (blankNode name flags)) = none)
    (entry : ∀ c m, entryOf m (fill c (blankNode name flags)) = ⟨name.take 127, kind, []⟩) {op : FsOp}
    (domain : op.InDomain (listing h.mem fs) → name ≠ [] ∧ name.length ≤ 127)
    (step : ∀ l : Listing, ∀ granted, l.step granted op = l.make name kind) :
    FsDone r hello others h fs op h (ramfsMake flags fill fs name).1 (.code (ramfsMake flags fill fs name).2) [] := by
  rcases inv.tree.make ok with ⟨result, reason⟩ | ⟨new, fs', fresh, room, result, tree, count, atNew, same, notIn⟩
  · rw [result]
    refine inv.idle fun inDomain => ?_
    have refused : ((listing h.mem fs).find name).isSome = true ∨ (listing h.mem fs).slots = 0 := by
      rcases reason with empty | taken | full
      · exact absurd empty (domain inDomain).1
      · exact Or.inl ((inv.taken_iff name).mpr taken)
      · exact Or.inr (by simp [listing, full])
    rw [step, Listing.make, if_pos refused]
  · rw [result]
    have owners : (kids ++ [new]).filterMap (fun c => dataOwner (fs'.nodes c)) =
        kids.filterMap fun c => dataOwner (fs.nodes c) := by
      have old : kids.filterMap (fun c => dataOwner (fs'.nodes c)) = kids.filterMap fun c => dataOwner (fs.nodes c) :=
        List.filterMap_congr fun c member => by rw [same c member]
      simp [List.filterMap_append, old, atNew, noOwner]
    have inv' : FsInv r hello others h fs' (kids ++ [new]) := by
      refine ⟨tree, by rw [owners]; exact inv.held, fun c member p owner => ?_, inv.nonnull, inv.below⟩
      rcases List.mem_append.mp member with old | last
      · rw [same c old] at owner ⊢
        exact inv.room c old p owner
      · rw [List.mem_singleton.mp last, atNew, noOwner] at owner
        simp at owner
    refine ⟨⟨_, inv'⟩, fun q _ => .refl h q, by simp [FreesLive], fun inDomain => ?_⟩
    have allowed : ¬(((listing h.mem fs).find name).isSome = true ∨ (listing h.mem fs).slots = 0) := by
      rintro (taken | full)
      · obtain ⟨c, member, hit⟩ := (inv.taken_iff name).mp taken
        exact fresh c member hit
      · simp only [listing] at full
        omega
    have entries : (kids ++ [new]).map (fun c => entryOf h.mem (fs'.nodes c)) =
        (kids.map fun c => entryOf h.mem (fs.nodes c)) ++ [⟨name, kind, []⟩] := by
      have old : kids.map (fun c => entryOf h.mem (fs'.nodes c)) = kids.map fun c => entryOf h.mem (fs.nodes c) :=
        List.map_congr_left fun c member => by rw [same c member]
      simp [old, atNew, entry, List.take_of_length_le (domain inDomain).2]
    have fewer : 9 - fs.nodeCount - 1 = 9 - fs'.nodeCount := by omega
    rw [step, Listing.make, if_neg allowed, inv'.listing_eq, entries, inv.listing_eq]
    simp only [fewer]

theorem create (inv : FsInv r hello others h fs kids) (name : List UInt8) :
    FsDone r hello others h fs (.create name) h (ramfsCreate fs name).1 (.code (ramfsCreate fs name).2) [] :=
  inv.make (fillFile_ok hello name) (fun _ => rfl) (fun _ _ => rfl) id fun _ _ => rfl

theorem mkdir (inv : FsInv r hello others h fs kids) (name : List UInt8) :
    FsDone r hello others h fs (.mkdir name) h (ramfsMkdir fs name).1 (.code (ramfsMkdir fs name).2) [] :=
  inv.make (fillDir_ok hello name) (fun _ => rfl) (fun _ _ => rfl) id fun _ _ => rfl

/-- A linked node taken out of the tree, in a heap that keeps exactly the blocks
of the others. -/
theorem unlinked {pre post : List (Fin 9)} {c : Fin 9} (inv : FsInv r hello others h fs (pre ++ c :: post))
    (n : RamfsNode) (h' : Heap) (held : Held r h' (others ++ (pre ++ post).filterMap fun d => dataOwner (fs.nodes d)))
    (kept : ∀ d ∈ pre ++ post, ∀ p, dataOwner (fs.nodes d) = some p → SamePayload h h' p)
    (outside : SameOutside r h h') {name : List UInt8} (hit : (fs.nodes c).name = name)
    (before : ∀ b ∈ pre, (fs.nodes b).name ≠ name) :
    FsInv r hello others h' ((fs.setNode 0 (closeGap (fs.nodes 0) pre.length)).setNode c n) (pre ++ post) ∧
      (listing h.mem fs).remove name =
        (listing h'.mem ((fs.setNode 0 (closeGap (fs.nodes 0) pre.length)).setNode c n), .code 0) := by
  have member : c ∈ pre ++ c :: post := by simp
  have stray : c ∉ pre ++ post := (List.nodup_cons.mp (List.nodup_middle.mp inv.tree.nodup)).1
  have wide {d : Fin 9} (inside : d ∈ pre ++ post) : d ∈ pre ++ c :: post := by
    simp only [List.mem_append, List.mem_cons] at inside ⊢
    tauto
  have nodes {d : Fin 9} (inside : d ∈ pre ++ post) :
      ((fs.setNode 0 (closeGap (fs.nodes 0) pre.length)).setNode c n).nodes d = fs.nodes d := by
    have notC : d ≠ c := fun same => stray (same ▸ inside)
    simp only [setNode_nodes, Function.update_of_ne notC, Function.update_of_ne (inv.tree.ne_root (wide inside))]
  have owners : (pre ++ post).filterMap (fun d =>
      dataOwner (((fs.setNode 0 (closeGap (fs.nodes 0) pre.length)).setNode c n).nodes d)) =
      (pre ++ post).filterMap fun d => dataOwner (fs.nodes d) :=
    List.filterMap_congr fun d inside => congrArg dataOwner (nodes inside)
  have inv' : FsInv r hello others h' ((fs.setNode 0 (closeGap (fs.nodes 0) pre.length)).setNode c n)
      (pre ++ post) := by
    refine ⟨inv.tree.unlink.setStray n (inv.tree.ne_root member) stray, by rw [owners]; exact held,
      fun d inside p owner => ?_, inv.nonnull, inv.below⟩
    rw [nodes inside] at owner ⊢
    rw [(kept d inside p owner).room]
    exact inv.room d (wide inside) p owner
  have below := inv.below
  have entries : (pre ++ post).map (fun d =>
      entryOf h'.mem (((fs.setNode 0 (closeGap (fs.nodes 0) pre.length)).setNode c n).nodes d)) =
      (pre ++ post).map fun d => entryOf h.mem (fs.nodes d) :=
    List.map_congr_left fun d inside => by
      rw [nodes inside]
      exact inv.entry_same h' (wide inside) (kept d inside) fun _ x _ upper => outside x (by omega)
  have taken : ((listing h.mem fs).find name).isSome = true := (inv.taken_iff name).mpr ⟨c, member, hit⟩
  refine ⟨inv', ?_⟩
  rw [Listing.remove, if_pos taken, inv.listing_eq, inv'.listing_eq, entries]
  simp only [List.map_append, List.map_cons]
  rw [Listing.eraseP_append (fun e inPre => ?_) hit]
  · rfl
  · obtain ⟨d, inside, rfl⟩ := List.mem_map.mp inPre
    exact before d inside

theorem unlink (inv : FsInv r hello others h fs kids) (name : List UInt8) :
    ∃ h' fs' ret frees, ramfsUnlink h fs name = some (h', fs', ret, frees) ∧
      FsDone r hello others h fs (.unlink name) h' fs' (.code ret) frees := by
  unfold ramfsUnlink
  simp only [inv.tree.ramfsRoot]
  by_cases empty : name = []
  · exact ⟨h, fs, -1, [], if_pos empty, inv.idle fun inDomain => absurd empty inDomain.1⟩
  rw [if_neg empty]
  rcases inv.tree.findChild_spec name with ⟨pre, c, post, rfl, hit, before, found⟩ | ⟨before, missing⟩
  · have member : c ∈ pre ++ c :: post := by simp
    have notDir : ¬((fs.nodes c).flags = .dir ∧ (fs.nodes c).childCount > 0) := by
      rintro ⟨isDir, some_child⟩
      rcases inv.tree.kid c member with dir | file
      · have none := dir.childCount
        omega
      · simp [file.flags] at isDir
    have notRoot := inv.tree.ne_root member
    have stray : c ∉ pre ++ post := (List.nodup_cons.mp (List.nodup_middle.mp inv.tree.nodup)).1
    have wide {d : Fin 9} (inside : d ∈ pre ++ post) : d ∈ pre ++ c :: post ∧ d ≠ c := by
      refine ⟨?_, fun same => stray (same ▸ inside)⟩
      simp only [List.mem_append, List.mem_cons] at inside ⊢
      tauto
    simp only [found, if_neg notDir]
    by_cases owned : (fs.nodes c).ownsData = true ∧ (fs.nodes c).data ≠ 0
    · have owner := dataOwner_eq_some.mpr ⟨owned.1, owned.2, rfl⟩
      have atOwner : (fs.nodes c).data ∈ others ++ (pre ++ c :: post).filterMap fun d => dataOwner (fs.nodes d) :=
        owner_mem member owner
      obtain ⟨h', freed, held, kept, outside⟩ := inv.held.free atOwner
      have owners : ((others ++ (pre ++ c :: post).filterMap fun d => dataOwner (fs.nodes d)).erase
          (fs.nodes c).data).Perm (others ++ (pre ++ post).filterMap fun d => dataOwner (fs.nodes d)) := by
        have front : (others ++ (pre ++ c :: post).filterMap fun d => dataOwner (fs.nodes d)).Perm
            ((fs.nodes c).data :: (others ++ (pre ++ post).filterMap fun d => dataOwner (fs.nodes d))) := by
          simp only [List.filterMap_append, List.filterMap_cons, owner, ← List.append_assoc]
          exact List.perm_middle
        simpa only [List.erase_cons_head] using front.erase (fs.nodes c).data
      obtain ⟨inv', removed⟩ := inv.unlinked { fs.nodes c with data := 0 } h' (held.perm owners)
        (fun d inside p ownerD => kept p (owner_mem (wide inside).1 ownerD)
          (inv.owner_ne (wide inside).1 member (wide inside).2 ownerD owner)) outside hit before
      have swapped : (fs.setNode c { fs.nodes c with data := 0 }).setNode 0
          (closeGap ((fs.setNode c { fs.nodes c with data := 0 }).nodes 0) pre.length) =
          (fs.setNode 0 (closeGap (fs.nodes 0) pre.length)).setNode c { fs.nodes c with data := 0 } := by
        simp only [Ramfs.setNode, Function.update_of_ne notRoot.symm, Function.update_comm notRoot]
      refine ⟨h', _, 0, _, by rw [if_pos owned, freed]; rfl, ?_⟩
      rw [swapped]
      refine ⟨⟨_, inv'⟩, fun q atQ => kept q (List.mem_append_left _ atQ)
        fun same => inv.owner_not_other member owner (same ▸ atQ), ?_, fun _ => removed⟩
      intro call inside
      cases List.mem_singleton.mp inside
      exact ⟨_, inv.held, atOwner⟩
    · have noOwner : dataOwner (fs.nodes c) = none := if_neg owned
      have held := inv.held
      simp only [List.filterMap_append, List.filterMap_cons, noOwner] at held
      rw [← List.filterMap_append] at held
      obtain ⟨inv', removed⟩ := inv.unlinked (fs.nodes c) h held (fun _ _ p _ => .refl h p) (fun _ _ => rfl) hit before
      have kept : (fs.setNode 0 (closeGap (fs.nodes 0) pre.length)).setNode c (fs.nodes c) =
          fs.setNode 0 (closeGap (fs.nodes 0) pre.length) := by
        have atC : fs.nodes c = (fs.setNode 0 (closeGap (fs.nodes 0) pre.length)).nodes c :=
          (Function.update_of_ne notRoot _ _).symm
        rw [atC, Ramfs.setNode, Function.update_eq_self]
      rw [kept] at inv' removed
      exact ⟨h, _, 0, [], if_neg owned, ⟨_, inv'⟩, fun q _ => .refl h q, by simp [FreesLive], fun _ => removed⟩
  · simp only [missing]
    refine ⟨h, fs, -1, [], rfl, inv.idle fun _ => ?_⟩
    have absent : ¬((listing h.mem fs).find name).isSome = true := by
      rw [inv.taken_iff]
      rintro ⟨c, member, hit⟩
      exact before c member hit
    exact if_neg absent

/-- What a lookup in the root gives: nothing, or the first linked node of that
name. -/
theorem lookup (inv : FsInv r hello others h fs kids) (name : List UInt8) :
    (nodeOf fs (some name) = none ∧ (listing h.mem fs).find name = none) ∨
      ∃ pre c post, kids = pre ++ c :: post ∧ (fs.nodes c).name = name ∧ (∀ b ∈ pre, (fs.nodes b).name ≠ name) ∧
        nodeOf fs (some name) = some c ∧ (listing h.mem fs).find name = some (entryOf h.mem (fs.nodes c)) := by
  have same : nodeOf fs (some name) = kids.find? fun c => (fs.nodes c).name = name := inv.tree.finddir_root name
  have view := inv.find_eq name
  rw [same, view]
  cases found : kids.find? fun c => (fs.nodes c).name = name with
  | none => exact Or.inl ⟨rfl, rfl⟩
  | some c =>
    obtain ⟨hit, pre, post, split, before⟩ := List.find?_eq_some_iff_append.mp found
    exact Or.inr ⟨pre, c, post, split, by simpa using hit, fun b inside => by simpa using before b inside, rfl, rfl⟩

theorem finddir (inv : FsInv r hello others h fs kids) (node : Option (List UInt8)) (name : List UInt8) :
    FsDone r hello others h fs (.finddir node name) h fs (.node ((vfsFinddir fs (nodeOf fs node) name).map fun c =>
      ((fs.nodes c).flags, (fs.nodes c).length, (fs.nodes c).name))) [] := by
  refine inv.idle fun _ => ?_
  cases node with
  | none =>
    have root : vfsFinddir fs (nodeOf fs none) name = nodeOf fs (some name) := rfl
    rw [root]
    simp only [Listing.step, Listing.lookup]
    rcases inv.lookup name with ⟨missing, view⟩ | ⟨pre, c, post, split, _, _, found, view⟩
    · rw [missing, view]
      rfl
    · have kid := inv.tree.kid c (by simp [split])
      rw [found, view]
      rcases kid with dir | file
      · simp [Listing.flagsOf, entryOf, kindOf, dir.flags, dir.length, dir.size]
      · rcases file.data with ⟨owns, _⟩ | ⟨fixed, _⟩
        · simp [Listing.flagsOf, entryOf, kindOf, file.flags, file.length, owns]
        · simp [Listing.flagsOf, entryOf, kindOf, file.flags, file.length, fixed]
  | some dirName =>
    simp only [Listing.step]
    rcases inv.lookup dirName with ⟨missing, _⟩ | ⟨pre, c, post, split, _, _, found, _⟩
    · rw [missing]
      rfl
    · rw [found]
      rcases inv.tree.kid c (by simp [split]) with dir | file
      · simp [vfsFinddir, ramfsFinddir, dir.finddir, dir.impl, findChild, dir.childCount]
      · simp [vfsFinddir, file.finddir]

theorem readdir (inv : FsInv r hello others h fs kids) (node : Option (List UInt8)) (index : Nat) :
    FsDone r hello others h fs (.readdir node index) h fs (.dirent (vfsReaddir fs (nodeOf fs node) index)) [] := by
  refine inv.idle fun _ => ?_
  cases node with
  | none =>
    have root : nodeOf fs none = some 0 := inv.tree.vfsRoot
    rw [root, inv.listing_eq]
    simp only [Listing.step, vfsReaddir, Option.bind_some, inv.tree.readdir, if_true, ramfsReaddir, inv.tree.impl,
      inv.tree.childCount, List.getElem?_map, Option.map_map]
    by_cases inside : index < kids.length
    · have atIndex := List.getElem?_eq_getElem inside
      have member := List.getElem_mem inside
      rw [if_neg (by omega), inv.tree.children index inside, atIndex]
      simp [entryOf, List.take_of_length_le (inv.tree.kid _ member).name, (inv.tree.kid _ member).inode]
    · rw [if_pos (by omega), List.getElem?_eq_none (by omega)]
      rfl
  | some dirName =>
    simp only [Listing.step]
    rcases inv.lookup dirName with ⟨missing, _⟩ | ⟨pre, c, post, split, _, _, found, _⟩
    · rw [missing]
      rfl
    · rw [found]
      rcases inv.tree.kid c (by simp [split]) with dir | file
      · simp [vfsReaddir, ramfsReaddir, dir.readdir, dir.impl, dir.childCount]
      · simp [vfsReaddir, file.readdir]

theorem read (inv : FsInv r hello others h fs kids) (node : Option (List UInt8)) (offset size : Nat) :
    FsDone r hello others h fs (.read node offset size) h fs
      (.bytes (vfsRead h.mem fs (nodeOf fs node) offset size).1 (vfsRead h.mem fs (nodeOf fs node) offset size).2)
      [] := by
  refine inv.idle fun inDomain => ?_
  have noWrap : offset + size < 2 ^ 32 := inDomain
  cases node with
  | none =>
    have root : nodeOf fs none = some 0 := inv.tree.vfsRoot
    simp [root, Listing.step, vfsRead, inv.tree.read]
  | some name =>
    simp only [Listing.step, Listing.readEntry]
    rcases inv.lookup name with ⟨missing, view⟩ | ⟨pre, c, post, split, _, _, found, view⟩
    · rw [missing, view]
      rfl
    · have member : c ∈ kids := by simp [split]
      rw [found, view]
      rcases inv.tree.kid c member with dir | file
      · simp [vfsRead, dir.read, entryOf, dir.size, window]
      · simp only [vfsRead, file.read, if_true, ramfsRead, file.impl, entryOf, window_drop]
        by_cases nothing : (fs.nodes c).data = 0 ∨ offset ≥ (fs.nodes c).size
        · have short : (fs.nodes c).size - offset = 0 := by
            rcases nothing with null | past
            · rcases file.data with ⟨_, _, iff⟩ | ⟨_, static, _⟩
              · rw [iff.mp null, Nat.zero_sub]
              · exact absurd (static.symm.trans null) inv.nonnull
            · omega
          simp [nothing, short, window]
        · have pointer := (not_or.mp nothing).1
          have bounds := inv.data_bounds member file pointer
          have stop := r.stop_lt
          rw [if_neg nothing, u32_of_lt noWrap]
          split
          · rename_i long
            rw [List.take_of_length_le (by rw [window_length]; omega), copyOut_eq_window (by omega), window_length]
          · rename_i short
            rw [window_take _ _ (by omega), copyOut_eq_window (by omega), window_length]

/-- The view after one file got new bytes and the others are kept. -/
theorem listing_rewritten {pre post : List (Fin 9)} {c : Fin 9} (inv : FsInv r hello others h fs (pre ++ c :: post))
    (inv' : FsInv r hello others h' fs' (pre ++ c :: post)) {name : List UInt8} (hit : (fs.nodes c).name = name)
    (before : ∀ b ∈ pre, (fs.nodes b).name ≠ name) {bytes : List UInt8}
    (same : ∀ d ∈ pre ++ c :: post, d ≠ c → entryOf h'.mem (fs'.nodes d) = entryOf h.mem (fs.nodes d))
    (own : entryOf h'.mem (fs'.nodes c) = { entryOf h.mem (fs.nodes c) with bytes })
    (count : fs'.nodeCount = fs.nodeCount) :
    listing h'.mem fs' =
      { listing h.mem fs with entries := Listing.rewrite name bytes (listing h.mem fs).entries } := by
  have stray : c ∉ pre ++ post := (List.nodup_cons.mp (List.nodup_middle.mp inv.tree.nodup)).1
  have part (l : List (Fin 9)) (inside : ∀ d ∈ l, d ∈ pre ++ post) :
      (l.map fun d => entryOf h'.mem (fs'.nodes d)) = l.map fun d => entryOf h.mem (fs.nodes d) :=
    List.map_congr_left fun d member => by
      have wide := inside d member
      refine same d ?_ fun equal => stray (equal ▸ wide)
      simp only [List.mem_append, List.mem_cons] at wide ⊢
      tauto
  have clear : ∀ e ∈ pre.map fun d => entryOf h.mem (fs.nodes d), e.name ≠ name := by
    intro e inPre
    obtain ⟨d, inside, rfl⟩ := List.mem_map.mp inPre
    exact before d inside
  rw [inv.listing_eq, inv'.listing_eq, count]
  simp only [List.map_append, List.map_cons]
  rw [Listing.rewrite_append bytes clear hit, part pre (by simp +contextual), part post (by simp +contextual), own]

/-- A store inside the data of a found file. -/
theorem stored {pre post : List (Fin 9)} {c : Fin 9} (inv : FsInv r hello others h fs (pre ++ c :: post))
    {name : List UInt8} (hit : (fs.nodes c).name = name) (before : ∀ b ∈ pre, (fs.nodes b).name ≠ name)
    (file : IsFile hello c (fs.nodes c)) (offset : Nat) (buffer : List UInt8)
    (fits : offset + buffer.length ≤ (fs.nodes c).size) :
    ∃ h', ramfsStore h fs c offset buffer = (h', fs, buffer.length) ∧
      FsInv r hello others h' fs (pre ++ c :: post) ∧ (∀ q ∈ others, SamePayload h h' q) ∧
      listing h'.mem fs = { listing h.mem fs with
        entries := Listing.rewrite name (splice (entryOf h.mem (fs.nodes c)).bytes offset buffer)
          (listing h.mem fs).entries } := by
  have member : c ∈ pre ++ c :: post := by simp
  by_cases null : (fs.nodes c).data = 0
  · have empty : (fs.nodes c).size = 0 := by
      rcases file.data with ⟨_, _, iff⟩ | ⟨_, static, _⟩
      · exact iff.mp null
      · exact absurd (static.symm.trans null) inv.nonnull
    have none : buffer = [] := List.eq_nil_of_length_eq_zero (by omega)
    have start : offset = 0 := by omega
    subst none start
    refine ⟨h, by simp [ramfsStore, null], inv, fun q _ => .refl h q, ?_⟩
    refine inv.listing_rewritten inv hit before (fun _ _ _ => rfl) ?_ rfl
    simp [entryOf, splice]
  · obtain ⟨pasted, inv', kept, same, own⟩ := inv.store member file null fits
    refine ⟨_, by rw [ramfsStore, if_neg null, pasted], inv', kept, ?_⟩
    exact inv.listing_rewritten inv' hit before same own rfl

/-- A write that grows an owned file: nothing happens, or the file holds the
bytes afterwards. -/
theorem grown {pre post : List (Fin 9)} {c : Fin 9} (inv : FsInv r hello others h fs (pre ++ c :: post))
    {name : List UInt8} (hit : (fs.nodes c).name = name) (before : ∀ b ∈ pre, (fs.nodes b).name ≠ name)
    (file : IsFile hello c (fs.nodes c)) (owns : (fs.nodes c).ownsData = true) {offset : Nat} {buffer : List UInt8}
    (larger : (fs.nodes c).size < offset + buffer.length) (small : offset + buffer.length ≤ 0xFFFFFFF8) :
    (memoryGranted h (offset + buffer.length) = false ∧
      ramfsGrow h fs c (offset + buffer.length) = some (h, none, [])) ∨
      ∃ h₁ fs₁ h₂ frees, memoryGranted h (offset + buffer.length) = true ∧
        ramfsGrow h fs c (offset + buffer.length) = some (h₁, some fs₁, frees) ∧
        ramfsStore h₁ fs₁ c offset buffer = (h₂, fs₁, buffer.length) ∧
        FsInv r hello others h₂ fs₁ (pre ++ c :: post) ∧ (∀ q ∈ others, SamePayload h h₂ q) ∧ FreesLive r frees ∧
        (offset ≤ (fs.nodes c).size → listing h₂.mem fs₁ = { listing h.mem fs with
          entries := Listing.rewrite name (splice (entryOf h.mem (fs.nodes c)).bytes offset buffer)
            (listing h.mem fs).entries }) := by
  have member : c ∈ pre ++ c :: post := by simp
  have stray : c ∉ pre ++ post := (List.nodup_cons.mp (List.nodup_middle.mp inv.tree.nodup)).1
  rcases inv.grow member file owns larger small with failed | ⟨h₁, p, frees, granted, run, pointer, inv₁, kept₁,
    live, same, bytes⟩
  · exact Or.inl failed
  have atC : (fs.setNode c ((fs.nodes c).movedTo p (offset + buffer.length))).nodes c =
      (fs.nodes c).movedTo p (offset + buffer.length) := Function.update_self _ _ _
  have own : entryOf h₁.mem ((fs.setNode c ((fs.nodes c).movedTo p (offset + buffer.length))).nodes c) =
      { entryOf h.mem (fs.nodes c) with bytes := window h₁.mem p (offset + buffer.length) } := by
    rw [atC]
    rfl
  have names : ∀ b ∈ pre, ((fs.setNode c ((fs.nodes c).movedTo p (offset + buffer.length))).nodes b).name ≠ name := by
    intro b inside
    have other : b ≠ c := fun equal => stray (by simp [← equal, inside])
    simp only [setNode_nodes, Function.update_of_ne other]
    exact before b inside
  have fileC := file.movedTo owns pointer (by omega : offset + buffer.length ≠ 0) (by omega)
  rw [← atC] at fileC
  obtain ⟨h₂, store, inv₂, kept₂, after⟩ := inv₁.stored (by rw [atC]; exact hit) names fileC offset buffer
    (by rw [atC]; exact le_rfl)
  refine Or.inr ⟨h₁, _, h₂, frees, granted, run, store, inv₂, fun q atQ => (kept₁ q atQ).trans (kept₂ q atQ), live, ?_⟩
  intro inside
  have moved := inv.listing_rewritten inv₁ hit before same own rfl
  have whole : window h₁.mem p (offset + buffer.length) = window h.mem (fs.nodes c).data (fs.nodes c).size ++
      window h₁.mem (p + (fs.nodes c).size) (offset + buffer.length - (fs.nodes c).size) := by
    rw [← bytes, ← window_add]
    congr 1
    omega
  have spliced : splice (window h₁.mem p (offset + buffer.length)) offset buffer =
      splice (window h.mem (fs.nodes c).data (fs.nodes c).size) offset buffer := by
    rw [whole]
    exact splice_append (by rw [window_length]; exact inside) (by rw [window_length, window_length]; omega)
  rw [after, moved, own]
  simp only [Listing.rewrite_rewrite, spliced, entryOf]

theorem write (inv : FsInv r hello others h fs kids) (node : Option (List UInt8)) (offset : Nat)
    (buffer : List UInt8) (noWrap : offset + buffer.length < 2 ^ 32)
    (fits : (FsOp.write node offset buffer).Fits (listing h.mem fs)) :
    ∃ h' fs' n frees, vfsWrite h fs (nodeOf fs node) offset buffer = some (h', fs', n, frees) ∧
      FsDone r hello others h fs (.write node offset buffer) h' fs' (.count n) frees := by
  cases node with
  | none =>
    have root : nodeOf fs none = some 0 := inv.tree.vfsRoot
    refine ⟨h, fs, 0, [], by simp [root, vfsWrite, inv.tree.write], inv.idle fun _ => rfl⟩
  | some name =>
    rcases inv.lookup name with ⟨missing, view⟩ | ⟨pre, c, post, rfl, hit, before, found, view⟩
    · refine ⟨h, fs, 0, [], by simp [missing, vfsWrite], inv.idle fun _ => ?_⟩
      simp only [Listing.step, Listing.writeEntry, view]
    have member : c ∈ pre ++ c :: post := by simp
    rcases inv.tree.kid c member with dir | file
    · refine ⟨h, fs, 0, [], by simp [found, vfsWrite, dir.write], inv.idle fun _ => ?_⟩
      simp [Listing.step, Listing.writeEntry, view, entryOf, kindOf, dir.flags]
    have bytes : (entryOf h.mem (fs.nodes c)).bytes.length = (fs.nodes c).size := window_length _ _ _
    simp only [found, vfsWrite, file.write, if_true, ramfsWrite, file.impl, u32_of_lt noWrap]
    by_cases grows : offset + buffer.length > (fs.nodes c).size
    · rw [if_pos grows]
      rcases file.data with ⟨owns, _⟩ | ⟨fixed, _, size, _⟩
      · have kind : (entryOf h.mem (fs.nodes c)).kind = .file := by simp [entryOf, kindOf, file.flags, owns]
        have small := fits _ view kind (by omega)
        simp only [owns, if_true]
        rcases inv.grown hit before file owns grows small with
          ⟨refused, failed⟩ | ⟨h₁, fs₁, h₂, frees, granted, run, store, inv₂, kept, live, after⟩
        · refine ⟨h, fs, 0, [], by simp [failed], inv.idle fun _ => ?_⟩
          simp only [Listing.step, Listing.writeEntry, view, kind, FsOp.granted, refused]
          rw [if_neg (by simp; omega)]
        · refine ⟨h₂, fs₁, buffer.length, frees, by simp [run, store], ⟨_, inv₂⟩, kept, live, fun inDomain => ?_⟩
          have inside := inDomain.2 name rfl _ view
          simp only [Listing.step, Listing.writeEntry, view, kind, FsOp.granted, granted, or_true, if_true]
          rw [after (by omega)]
      · have kind : (entryOf h.mem (fs.nodes c)).kind = .fixed := by simp [entryOf, kindOf, file.flags, fixed]
        simp only [fixed, Bool.false_eq_true, if_false]
        by_cases past : offset ≥ (fs.nodes c).size
        · refine ⟨h, fs, 0, [], if_pos past, inv.idle fun inDomain => ?_⟩
          have inside := inDomain.2 name rfl _ view
          have nothing : buffer.take ((entryOf h.mem (fs.nodes c)).bytes.length - offset) = [] := by
            rw [bytes, Nat.sub_eq_zero_of_le past, List.take_zero]
          have unchanged :
              splice (entryOf h.mem (fs.nodes c)).bytes offset [] = (entryOf h.mem (fs.nodes c)).bytes := by
            simp [splice]
          simp only [Listing.step, Listing.writeEntry, view, kind, nothing, unchanged, Listing.rewrite_self view,
            List.length_nil]
        · rw [if_neg past]
          have part : (buffer.take ((fs.nodes c).size - offset)).length ≤ (fs.nodes c).size - offset :=
            List.length_take_le _ _
          obtain ⟨h', store, inv', kept, after⟩ := inv.stored hit before file offset
            (buffer.take ((fs.nodes c).size - offset)) (by omega)
          refine ⟨h', fs, _, [], by rw [store], ⟨_, inv'⟩, kept, by simp [FreesLive], fun _ => ?_⟩
          simp only [Listing.step, Listing.writeEntry, view, kind, bytes]
          rw [after]
    · rw [if_neg grows]
      obtain ⟨h', store, inv', kept, after⟩ := inv.stored hit before file offset buffer (by omega)
      refine ⟨h', fs, buffer.length, [], by rw [store], ⟨_, inv'⟩, kept, by simp [FreesLive], fun _ => ?_⟩
      rw [after]
      rcases file.data with ⟨owns, _⟩ | ⟨fixed, _⟩
      · have kind : (entryOf h.mem (fs.nodes c)).kind = .file := by simp [entryOf, kindOf, file.flags, owns]
        simp only [Listing.step, Listing.writeEntry, view, kind]
        rw [if_pos (Or.inl (by omega))]
      · have kind : (entryOf h.mem (fs.nodes c)).kind = .fixed := by simp [entryOf, kindOf, file.flags, fixed]
        simp only [Listing.step, Listing.writeEntry, view, kind, bytes]
        rw [List.take_of_length_le (by omega)]

/-- Every call returns, keeps the tree in order and refines the abstract one. -/
theorem step (inv : FsInv r hello others h fs kids) (op : FsOp) (noWrap : op.NoWrap)
    (fits : op.Fits (listing h.mem fs)) :
    ∃ h' fs' result frees, fsStep h fs op = some (h', fs', result, frees) ∧
      FsDone r hello others h fs op h' fs' result frees := by
  cases op with
  | create name => exact ⟨_, _, _, _, rfl, inv.create name⟩
  | mkdir name => exact ⟨_, _, _, _, rfl, inv.mkdir name⟩
  | unlink name =>
    obtain ⟨h', fs', ret, frees, run, done⟩ := inv.unlink name
    exact ⟨h', fs', _, frees, by simp only [fsStep, run, Option.map_some], done⟩
  | finddir node name => exact ⟨_, _, _, _, rfl, inv.finddir node name⟩
  | readdir node index => exact ⟨_, _, _, _, rfl, inv.readdir node index⟩
  | read node offset size => exact ⟨_, _, _, _, rfl, inv.read node offset size⟩
  | write node offset buffer =>
    obtain ⟨h', fs', n, frees, run, done⟩ := inv.write node offset buffer noWrap fits
    exact ⟨h', fs', _, frees, by simp only [fsStep, run, Option.map_some], done⟩

end FsInv

end LearningOS
