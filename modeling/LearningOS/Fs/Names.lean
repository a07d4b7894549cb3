import LearningOS.Fs.Refinement
import LearningOS.Run.History

namespace LearningOS
open ByteStore History

/-- One call with its result. The heap it finds may be in any state. -/
def TreeStep (fs : Ramfs) (call : FsOp × FsResult) (fs' : Ramfs) : Prop :=
  ∃ h h' frees, fsStep h fs call.1 = some (h', fs', call.2, frees)

/-- The runs of ramfs since `ramfs_init`. -/
abbrev FsRun (hello : Nat) : Ramfs → List (Ramfs × FsOp × FsResult) → Prop :=
  Run (fun fs => ∃ before, fs = ramfsInit before hello) TreeStep

/-- The name a call wants to give to a new node. -/
def FsOp.newName : FsOp → Option (List UInt8)
  | .create name | .mkdir name => some name
  | _ => none

/-- What a call does to the children of the root: nothing, one more behind the
others, or one taken out. A new node is refused for one of three reasons. -/
inductive TreeChange (hello : Nat) (fs : Ramfs) (kids : List (Fin 9)) (op : FsOp) (fs' : Ramfs) :
    FsResult → List (Fin 9) → Prop
  | kept {result} : TreeInv hello fs' kids → fs'.nodeCount = fs.nodeCount →
      (∀ c ∈ kids, (fs'.nodes c).name = (fs.nodes c).name) →
      (∀ name, op.newName = some name → result = .code (-1) ∧
        (name = [] ∨ (∃ c ∈ kids, (fs.nodes c).name = name) ∨ fs.nodeCount = 9)) →
      TreeChange hello fs kids op fs' result kids
  | made {new name} : op.newName = some name → name ≠ [] → (∀ c ∈ kids, (fs.nodes c).name ≠ name) → fs.nodeCount < 9 →
      TreeInv hello fs' (kids ++ [new]) → fs'.nodeCount = fs.nodeCount + 1 →
      (fs'.nodes new).name = name.take 127 → (fs'.nodes new).data = 0 →
      (∀ c ∈ kids, (fs'.nodes c).name = (fs.nodes c).name) →
      TreeChange hello fs kids op fs' (.code 0) (kids ++ [new])
  | removed {pre c post name} : op = .unlink name → kids = pre ++ c :: post → (fs.nodes c).name = name →
      TreeInv hello fs' (pre ++ post) → fs'.nodeCount = fs.nodeCount →
      (∀ d ∈ pre ++ post, (fs'.nodes d).name = (fs.nodes d).name) →
      TreeChange hello fs kids op fs' (.code 0) (pre ++ post)

/-- Whatever the heap answers, a write leaves the tree or moves the file it is
made on. -/
theorem ramfsWrite_cases {h h' : Heap} {fs fs' : Ramfs} {c : Fin 9} {offset n : Nat} {buffer : List UInt8}
    {frees : List FreeCall} (impl : (fs.nodes c).impl = some c)
    (run : ramfsWrite h fs c offset buffer = some (h', fs', n, frees)) :
    fs' = fs ∨ ∃ p size, (fs.nodes c).ownsData = true ∧ p ≠ 0 ∧ size ≠ 0 ∧ size < 2 ^ 32 ∧
      fs' = fs.setNode c ((fs.nodes c).movedTo p size) := by
  have store (h : Heap) (fs : Ramfs) (buffer : List UInt8) : (ramfsStore h fs c offset buffer).2.1 = fs := by
    unfold ramfsStore
    simp only
    split
    · rfl
    · rfl
  unfold ramfsWrite at run
  simp only [impl] at run
  split at run
  · rename_i longer
    split at run
    · rename_i owns
      obtain ⟨⟨h₁, grown, frees₁⟩, grow, rest⟩ := Option.map_eq_some_iff.mp run
      unfold ramfsGrow at grow
      obtain ⟨⟨h₂, p⟩, _, moved⟩ := Option.bind_eq_some_iff.mp grow
      simp only at moved
      by_cases null : p = 0
      · rw [if_pos null] at moved
        cases Option.some.inj moved
        cases rest
        exact Or.inl rfl
      have small := Nat.mod_lt (offset + buffer.length) (Nat.two_pow_pos 32)
      have move : grown = some (fs.setNode c ((fs.nodes c).movedTo p (u32 (offset + buffer.length)))) := by
        rw [if_neg null] at moved
        split at moved
        · obtain ⟨_, _, same⟩ := Option.map_eq_some_iff.mp moved
          cases same
          rfl
        · cases Option.some.inj moved
          rfl
      subst move
      cases rest
      exact Or.inr ⟨p, u32 (offset + buffer.length), owns, null, by omega, small, store _ _ _⟩
    · split at run
      · cases Option.some.inj run
        exact Or.inl rfl
      · cases Option.some.inj run
        exact Or.inl (store _ _ _)
  · cases Option.some.inj run
    exact Or.inl (store _ _ _)

namespace TreeInv
variable {hello : Nat} {fs fs' : Ramfs} {kids : List (Fin 9)}

/-- The node a call is made on is the root or a child of it. -/
theorem node_cases (inv : TreeInv hello fs kids) (node : Option (List UInt8)) :
    nodeOf fs node = none ∨ nodeOf fs node = some 0 ∨ ∃ c ∈ kids, nodeOf fs node = some c := by
  cases node with
  | none => exact Or.inr (Or.inl inv.vfsRoot)
  | some name =>
    have found : nodeOf fs (some name) = kids.find? fun c => (fs.nodes c).name = name := inv.finddir_root name
    rw [found]
    cases hit : kids.find? fun c => (fs.nodes c).name = name with
    | none => exact Or.inl rfl
    | some c => exact Or.inr (Or.inr ⟨c, List.mem_of_find?_eq_some hit, rfl⟩)

/-- A write keeps the shape of the tree and all names. -/
theorem write_keeps (inv : TreeInv hello fs kids) {h h' : Heap} {node : Option (List UInt8)} {offset n : Nat}
    {buffer : List UInt8} {frees : List FreeCall}
    (run : vfsWrite h fs (nodeOf fs node) offset buffer = some (h', fs', n, frees)) :
    TreeInv hello fs' kids ∧ fs'.nodeCount = fs.nodeCount ∧ ∀ c ∈ kids, (fs'.nodes c).name = (fs.nodes c).name := by
  have same (stays : fs' = fs) :
      TreeInv hello fs' kids ∧ fs'.nodeCount = fs.nodeCount ∧
        ∀ c ∈ kids, (fs'.nodes c).name = (fs.nodes c).name := by
    subst stays
    exact ⟨inv, rfl, fun _ _ => rfl⟩
  rcases inv.node_cases node with missing | root | ⟨c, member, found⟩
  · rw [missing] at run
    cases Option.some.inj run
    exact same rfl
  · simp only [root, vfsWrite, inv.write, Bool.false_eq_true, if_false] at run
    cases Option.some.inj run
    exact same rfl
  · simp only [found, vfsWrite] at run
    rcases inv.kid c member with dir | file
    · simp only [dir.write, Bool.false_eq_true, if_false] at run
      cases Option.some.inj run
      exact same rfl
    · simp only [file.write, if_true] at run
      rcases ramfsWrite_cases file.impl run with stays | ⟨p, size, owns, pointer, positive, small, rfl⟩
      · exact same stays
      · refine ⟨inv.setKid member (Or.inr (file.movedTo owns pointer positive small)), rfl, fun d _ => ?_⟩
        rw [setNode_nodes, Function.update_apply]
        split
        · rename_i here
          rw [here]
          rfl
        · rfl

/-- An unlink fails without an effect or takes out the first child of that name. -/
theorem unlink_cases (inv : TreeInv hello fs kids) {h h' : Heap} {name : List UInt8} {ret : Int}
    {frees : List FreeCall} (run : ramfsUnlink h fs name = some (h', fs', ret, frees)) :
    (fs' = fs ∧ ret = -1) ∨ ∃ pre c post, kids = pre ++ c :: post ∧ (fs.nodes c).name = name ∧ ret = 0 ∧
      TreeInv hello fs' (pre ++ post) ∧ fs'.nodeCount = fs.nodeCount ∧
      (∀ d ∈ pre ++ post, (fs'.nodes d).name = (fs.nodes d).name) ∧ ∀ b ∈ pre, (fs.nodes b).name ≠ name := by
  unfold ramfsUnlink at run
  simp only [inv.ramfsRoot] at run
  split at run
  · cases Option.some.inj run
    exact Or.inl ⟨rfl, rfl⟩
  rcases inv.findChild_spec name with ⟨pre, c, post, rfl, hit, before, found⟩ | ⟨_, missing⟩
  · have member : c ∈ pre ++ c :: post := by simp
    have notRoot := inv.ne_root member
    have stray : c ∉ pre ++ post := (List.nodup_cons.mp (List.nodup_middle.mp inv.nodup)).1
    have unlinked := inv.unlink
    have nodes {d : Fin 9} (inside : d ∈ pre ++ post) (n : RamfsNode) :
        ((fs.setNode 0 (closeGap (fs.nodes 0) pre.length)).setNode c n).nodes d = fs.nodes d := by
      have notC : d ≠ c := fun same => stray (same ▸ inside)
      simp only [setNode_nodes, Function.update_of_ne notC, Function.update_of_ne (unlinked.ne_root inside)]
    simp only [found] at run
    split at run
    · cases Option.some.inj run
      exact Or.inl ⟨rfl, rfl⟩
    split at run
    · obtain ⟨_, _, result⟩ := Option.map_eq_some_iff.mp run
      cases result
      have swapped : (fs.setNode c { fs.nodes c with data := 0 }).setNode 0
          (closeGap ((fs.setNode c { fs.nodes c with data := 0 }).nodes 0) pre.length) =
          (fs.setNode 0 (closeGap (fs.nodes 0) pre.length)).setNode c { fs.nodes c with data := 0 } := by
        simp only [Ramfs.setNode, Function.update_of_ne notRoot.symm, Function.update_comm notRoot]
      rw [swapped]
      exact Or.inr ⟨pre, c, post, rfl, hit, rfl, unlinked.setStray _ notRoot stray, rfl,
        fun d inside => by rw [nodes inside], before⟩
    · cases Option.some.inj run
      refine Or.inr ⟨pre, c, post, rfl, hit, rfl, unlinked, rfl, fun d inside => ?_, before⟩
      rw [setNode_nodes, Function.update_of_ne (unlinked.ne_root inside)]
  · simp only [missing] at run
    cases Option.some.inj run
    exact Or.inl ⟨rfl, rfl⟩

theorem make_change (inv : TreeInv hello fs kids) {flags : NodeType} {fill : Fin 9 → RamfsNode → RamfsNode}
    {name : List UInt8} {op : FsOp} (asks : op.newName = some name)
    (ok : ∀ c, KidOk hello c (fill c (blankNode name flags)))
    (filled : ∀ c, (fill c (blankNode name flags)).name = name.take 127 ∧ (fill c (blankNode name flags)).data = 0) :
    ∃ kids', TreeChange hello fs kids op (ramfsMake flags fill fs name).1 (.code (ramfsMake flags fill fs name).2)
      kids' := by
  rcases inv.make ok with ⟨result, reason⟩ | ⟨new, fs', fresh, room, result, tree, count, atNew, same, _⟩
  · rw [result]
    refine ⟨kids, .kept inv rfl (fun _ _ => rfl) fun other wanted => ?_⟩
    cases Option.some.inj (asks.symm.trans wanted)
    exact ⟨rfl, reason⟩
  · have nonempty : name ≠ [] := by
      rintro rfl
      simp [ramfsMake, inv.ramfsRoot] at result
    rw [result]
    exact ⟨kids ++ [new], .made asks nonempty fresh room tree count (by rw [atNew, (filled new).1])
      (by rw [atNew, (filled new).2]) fun c member => by rw [same c member]⟩

/-- Every call does one of the three things to the children of the root. -/
theorem change (inv : TreeInv hello fs kids) {op : FsOp} {result : FsResult} (call : TreeStep fs (op, result) fs') :
    ∃ kids', TreeChange hello fs kids op fs' result kids' := by
  obtain ⟨h, h', frees, run⟩ := call
  have idle (none : op.newName = none) (stays : fs' = fs) : ∃ kids', TreeChange hello fs kids op fs' result kids' := by
    subst stays
    exact ⟨kids, .kept inv rfl (fun _ _ => rfl) fun name asks => by simp [none] at asks⟩
  cases op with
  | create name =>
    cases Option.some.inj run
    exact inv.make_change rfl (fillFile_ok hello name) fun _ => ⟨rfl, rfl⟩
  | mkdir name =>
    cases Option.some.inj run
    exact inv.make_change rfl (fillDir_ok hello name) fun _ => ⟨rfl, rfl⟩
  | unlink name =>
    obtain ⟨⟨_, after, ret, _⟩, unlinked, equal⟩ := Option.map_eq_some_iff.mp run
    cases equal
    rcases inv.unlink_cases unlinked with ⟨stays, _⟩ | ⟨pre, c, post, split, hit, rfl, tree, count, same, _⟩
    · exact idle rfl stays
    · exact ⟨pre ++ post, .removed rfl split hit tree count same⟩
  | finddir node name =>
    cases Option.some.inj run
    exact idle rfl rfl
  | readdir node index =>
    cases Option.some.inj run
    exact idle rfl rfl
  | read node offset size =>
    cases Option.some.inj run
    exact idle rfl rfl
  | write node offset buffer =>
    obtain ⟨⟨_, after, _, _⟩, written, equal⟩ := Option.map_eq_some_iff.mp run
    cases equal
    obtain ⟨tree, count, same⟩ := inv.write_keeps written
    exact ⟨kids, .kept tree count same fun _ asks => by simp [FsOp.newName] at asks⟩

end TreeInv

theorem TreeChange.tree {hello : Nat} {fs fs' : Ramfs} {kids kids' : List (Fin 9)} {op : FsOp} {result : FsResult}
    (change : TreeChange hello fs kids op fs' result kids') : TreeInv hello fs' kids' := by
  cases change with
  | kept tree _ _ _ => exact tree
  | made _ _ _ _ tree _ _ _ _ => exact tree
  | removed _ _ _ tree _ _ => exact tree

theorem FsRun.tree {hello : Nat} {fs : Ramfs} {past : List (Ramfs × FsOp × FsResult)} (run : FsRun hello fs past) :
    ∃ kids, TreeInv hello fs kids := by
  refine Run.holds (P := fun fs => ∃ kids, TreeInv hello fs kids) ?_ ?_ run
  · rintro _ ⟨before, rfl⟩
    exact ⟨[1], ramfsInit_tree before hello⟩
  · rintro fs ⟨op, result⟩ fs' ⟨kids, inv⟩ call
    obtain ⟨kids', change⟩ := inv.change call
    exact ⟨kids', change.tree⟩

/-- A name that a node can be made with: it is neither empty nor taken, and a node is
left. -/
structure CanMake (fs : Ramfs) (kids : List (Fin 9)) (name : List UInt8) : Prop where
  nonempty : name ≠ []
  fresh : ∀ c ∈ kids, (fs.nodes c).name ≠ name
  room : fs.nodeCount < 9

namespace TreeInv
variable {hello : Nat} {fs : Ramfs} {kids : List (Fin 9)}

/-- The codes of a call that makes a node. -/
theorem make_ret (inv : TreeInv hello fs kids) {flags : NodeType} {fill : Fin 9 → RamfsNode → RamfsNode}
    {name : List UInt8} (ok : ∀ c, KidOk hello c (fill c (blankNode name flags))) :
    ((ramfsMake flags fill fs name).2 = 0 ↔ CanMake fs kids name) ∧
      ((ramfsMake flags fill fs name).2 = -1 ↔ ¬CanMake fs kids name) := by
  rcases inv.make ok with ⟨result, reason⟩ | ⟨new, fs', fresh, room, result, _⟩
  · have refused : ¬CanMake fs kids name := by
      rintro ⟨some, fresh, room⟩
      rcases reason with empty | ⟨c, member, taken⟩ | full
      · exact some empty
      · exact fresh c member taken
      · omega
    simp [result, refused]
  · have some : name ≠ [] := by
      rintro rfl
      simp [ramfsMake, inv.ramfsRoot] at result
    have made : CanMake fs kids name := ⟨some, fresh, room⟩
    simp [result, made]

theorem create_ret (inv : TreeInv hello fs kids) (name : List UInt8) :
    ((ramfsCreate fs name).2 = 0 ↔ CanMake fs kids name) ∧
      ((ramfsCreate fs name).2 = -1 ↔ ¬CanMake fs kids name) := inv.make_ret (fillFile_ok hello name)

theorem mkdir_ret (inv : TreeInv hello fs kids) (name : List UInt8) :
    ((ramfsMkdir fs name).2 = 0 ↔ CanMake fs kids name) ∧
      ((ramfsMkdir fs name).2 = -1 ↔ ¬CanMake fs kids name) := inv.make_ret (fillDir_ok hello name)

end TreeInv

/-- No two children of the root have the same stored name. -/
def NamesUnique (fs : Ramfs) : Prop := ((linkedNodes fs).map fun c => (fs.nodes c).name).Nodup

instance (fs : Ramfs) : Decidable (NamesUnique fs) := inferInstanceAs (Decidable (List.Nodup _))

/-- A second node of a name is refused, and the name can be unlinked. -/
def NameTaken (fs : Ramfs) (name : List UInt8) : Prop :=
  (ramfsCreate fs name).2 = -1 ∧ (ramfsMkdir fs name).2 = -1 ∧
    ∀ h, ∃ h' fs' frees, ramfsUnlink h fs name = some (h', fs', 0, frees)

/-- What names promise of a state and of the call that led to it. -/
def NamesInOrder (fs : Ramfs) (last : Option (Ramfs × FsOp × FsResult)) : Prop :=
  NamesUnique fs ∧ ∀ e name, last = some e → e.2.1.newName = some name → e.2.2 = .code 0 → NameTaken fs name

/-- A wanted name fits in a node, or no node is left. -/
def NameFits (e : Ramfs × FsOp × FsResult) : Prop :=
  ∀ name, e.2.1.newName = some name → name.length ≤ 127 ∨ e.1.nodeCount = 9

namespace TreeInv
variable {hello : Nat} {fs fs' : Ramfs} {kids : List (Fin 9)}

theorem unique_iff (inv : TreeInv hello fs kids) :
    NamesUnique fs ↔ (kids.map fun c => (fs.nodes c).name).Nodup := by
  rw [NamesUnique, inv.linked]

/-- A linked name without data behind it is taken. -/
theorem taken (inv : TreeInv hello fs kids) {c : Fin 9} {name : List UInt8} (some : name ≠ []) (member : c ∈ kids)
    (hit : (fs.nodes c).name = name) (unique : NamesUnique fs) (data : (fs.nodes c).data = 0) :
    NameTaken fs name := by
  have present : ¬CanMake fs kids name := fun allowed => allowed.fresh c member hit
  refine ⟨(inv.create_ret name).2.mpr present, (inv.mkdir_ret name).2.mpr present, fun h => ?_⟩
  rcases inv.findChild_spec name with ⟨pre, d, post, split, hitD, _, found⟩ | ⟨absent, _⟩
  · have same : d = c :=
      List.inj_on_of_nodup_map (inv.unique_iff.mp unique) (by simp [split]) member (hitD.trans hit.symm)
    subst same
    have notDir : ¬((fs.nodes d).flags = .dir ∧ (fs.nodes d).childCount > 0) := by
      rintro ⟨isDir, children⟩
      rcases inv.kid d member with dir | file
      · have none := dir.childCount
        omega
      · simp [file.flags] at isDir
    have noData : ¬((fs.nodes d).ownsData = true ∧ (fs.nodes d).data ≠ 0) := fun owned => owned.2 data
    unfold ramfsUnlink
    simp only [inv.ramfsRoot, if_neg some, found, if_neg notDir, if_neg noData]
    exact ⟨_, _, _, rfl⟩
  · exact absurd hit (absent c member)

/-- No stored name is longer than 127 characters, so a longer one is not found. -/
theorem long_absent (inv : TreeInv hello fs kids) {name : List UInt8} (long : ¬name.length ≤ 127) :
    ∀ c ∈ kids, (fs.nodes c).name ≠ name := fun c member same => long (same ▸ (inv.kid c member).name)

/-- After a call from a state with unique names all is in order again exactly if
the wanted name fits. -/
theorem inOrder_step (inv : TreeInv hello fs kids) (unique : NamesUnique fs) {call : FsOp × FsResult}
    (step : TreeStep fs call fs') : NamesInOrder fs' (some (fs, call)) ↔ NameFits (fs, call) := by
  obtain ⟨op, result⟩ := call
  obtain ⟨kids', change⟩ := inv.change step
  have before := inv.unique_iff.mp unique
  have keeps {l : List (Fin 9)} (sub : l.Sublist kids) (same : ∀ d ∈ l, (fs'.nodes d).name = (fs.nodes d).name) :
      (l.map fun c => (fs'.nodes c).name).Nodup := by
    rw [List.map_congr_left same]
    exact before.sublist (sub.map _)
  cases change with
  | kept tree count same reason =>
    have unique' : NamesUnique fs' := tree.unique_iff.mpr (keeps (List.Sublist.refl kids) same)
    refine iff_of_true ⟨unique', fun e name here asks done => ?_⟩ fun name asks => ?_
    · cases Option.some.inj here
      simp [(reason name asks).1] at done
    · by_cases short : name.length ≤ 127
      · exact Or.inl short
      · rcases (reason name asks).2 with empty | ⟨c, member, hit⟩ | full
        · exact Or.inl (by simp [empty])
        · exact absurd hit (inv.long_absent short c member)
        · exact Or.inr full
  | @made new name asks nonempty fresh room tree count stored data same =>
    have inside : new ∈ kids ++ [new] := by simp
    constructor
    · rintro ⟨_, promise⟩ other wanted
      cases Option.some.inj (asks.symm.trans wanted)
      by_cases short : name.length ≤ 127
      · exact Or.inl short
      · obtain ⟨_, _, unlinks⟩ := promise _ name rfl asks rfl
        obtain ⟨_, _, _, run⟩ := unlinks ⟨fun _ => 0, 0, 0, 0⟩
        rcases tree.unlink_cases run with ⟨_, failed⟩ | ⟨pre, c, post, split, hit, _⟩
        · simp at failed
        · exact absurd hit (tree.long_absent short c (by simp [split]))
    · intro fits
      rcases fits name asks with short | full
      · rw [List.take_of_length_le short] at stored
        have unique' : NamesUnique fs' := by
          rw [tree.unique_iff, List.map_append, List.nodup_append']
          refine ⟨keeps (List.Sublist.refl kids) same, by simp, ?_⟩
          rintro other inKids last
          obtain ⟨c, member, rfl⟩ := List.mem_map.mp inKids
          rw [List.map_singleton, List.mem_singleton, stored, same c member] at last
          exact fresh c member last
        refine ⟨unique', fun e other here wanted _ => ?_⟩
        cases Option.some.inj here
        cases Option.some.inj (asks.symm.trans wanted)
        exact tree.taken nonempty inside stored unique' data
      · exact absurd full (by simp; omega)
  | @removed pre c post name unlink split hit tree count same =>
    subst split
    have unique' : NamesUnique fs' :=
      tree.unique_iff.mpr (keeps (List.Sublist.append_left (List.sublist_cons_self c post) pre) same)
    refine iff_of_true ⟨unique', fun e other here wanted _ => ?_⟩ fun other wanted => ?_
    · cases Option.some.inj here
      simp [unlink, FsOp.newName] at wanted
    · simp [unlink, FsOp.newName] at wanted

end TreeInv

/-- In every run of ramfs, names are in order in all states exactly if every name
wanted by a call fits in a node, as long as nodes are left. -/
theorem ramfs_names_in_order_iff {hello : Nat} {fs : Ramfs} {past : List (Ramfs × FsOp × FsResult)}
    (run : FsRun hello fs past) : Run.Throughout NamesInOrder fs past ↔ ∀ e ∈ past, NameFits e := by
  refine Run.throughout_iff ?_ (fun s call s' past last before held step => ?_) run
  · rintro _ ⟨before, rfl⟩
    have inv := ramfsInit_tree before hello
    exact ⟨inv.unique_iff.mpr (by simp), fun e name none => by simp at none⟩
  · obtain ⟨kids, inv⟩ := FsRun.tree before
    exact inv.inOrder_step held.1 step

/-- A call that has to give the result it is listed with; in a heap without a
block it makes no difference to names. -/
def playCall (fs : Ramfs) (call : FsOp × FsResult) : Option Ramfs :=
  match fsStep ⟨fun _ => 0, 0, 0, 0⟩ fs call.1 with
  | some (_, fs', result, _) => if result = call.2 then some fs' else none
  | none => none

theorem playCall_step {fs fs' : Ramfs} {call : FsOp × FsResult} (found : playCall fs call = some fs') :
    TreeStep fs call fs' := by
  unfold playCall at found
  split at found
  · rename_i h after result frees run
    split at found
    · rename_i same
      cases Option.some.inj found
      exact ⟨_, h, frees, by rw [run, same]⟩
    · simp at found
  · simp at found

/-- A property that can be decided of the state after given calls, as one of a run. -/
theorem FsRun.of_calls (calls : List (FsOp × FsResult)) {P : Ramfs → Prop} [DecidablePred P]
    (played : (calls.foldlM playCall (ramfsInit blankFs 0)).any (fun fs => decide (P fs)) = true) :
    ∃ fs past, FsRun 0 fs past ∧ past.map Prod.snd = calls.reverse ∧ P fs := by
  obtain ⟨fs, found, holds⟩ := (Option.any_eq_true _ _).mp played
  have booted : FsRun 0 (ramfsInit blankFs 0) [] := .start ⟨blankFs, rfl⟩
  obtain ⟨past, run, same⟩ := Run.replay (fun _ _ _ => playCall_step) booted found
  exact ⟨fs, past, run, by simpa using same, by simpa using holds⟩

theorem ramfs_names_in_order_iff_of_hello :
    ∃ fs past, FsRun 0 fs past ∧ past.map Prod.snd = [(.create (ascii "a"), .code 0)] ∧
      (Run.Throughout NamesInOrder fs past ↔ ∀ e ∈ past, NameFits e) := by
  obtain ⟨fs, past, run, calls, _⟩ :=
    FsRun.of_calls [(.create (ascii "a"), .code 0)] (P := fun _ => True) (by decide +kernel)
  exact ⟨fs, past, run, calls, ramfs_names_in_order_iff run⟩

/-- A name of 128 characters is made twice, and cannot be unlinked. -/
theorem ramfs_names_not_unique :
    ∃ fs past, FsRun 0 fs past ∧ past.map Prod.snd =
        [(.create (List.replicate 128 97), .code 0), (.create (List.replicate 128 97), .code 0)] ∧
      ¬NamesUnique fs ∧ (ramfsMkdir fs (List.replicate 128 97)).2 = 0 ∧
      (ramfsUnlink ⟨fun _ => 0, 0, 0, 0⟩ fs (List.replicate 128 97)).map (fun r => r.2.2.1) = some (-1) :=
  FsRun.of_calls [(.create (List.replicate 128 97), .code 0), (.create (List.replicate 128 97), .code 0)]
    (by decide +kernel)

/-- How many calls of a run have made a node. -/
def nodesMade (past : List (Ramfs × FsOp × FsResult)) : Nat :=
  past.countP fun e => e.2.1.newName.isSome ∧ e.2.2 = .code 0

theorem FsRun.nodeCount {hello : Nat} {fs : Ramfs} {past : List (Ramfs × FsOp × FsResult)}
    (run : FsRun hello fs past) : fs.nodeCount = 2 + nodesMade past := by
  induction run with
  | start begins =>
    obtain ⟨before, rfl⟩ := begins
    rfl
  | @next fs fs' call past before step ih =>
    obtain ⟨kids, inv⟩ := FsRun.tree before
    obtain ⟨op, result⟩ := call
    obtain ⟨kids', change⟩ := inv.change step
    simp only [nodesMade, List.countP_cons, decide_eq_true_eq] at ih ⊢
    cases change with
    | kept tree count same reason =>
      rw [if_neg, count, ih, Nat.add_zero]
      rintro ⟨asks, done⟩
      obtain ⟨name, wanted⟩ := Option.isSome_iff_exists.mp asks
      simp [(reason name wanted).1] at done
    | made asks nonempty fresh room tree count stored data same =>
      rw [if_pos ⟨by simp [asks], rfl⟩, count, ih, Nat.add_assoc]
    | removed unlink split hit tree count same =>
      rw [if_neg, count, ih, Nat.add_zero]
      simp [unlink, FsOp.newName]

/-- In every run, a name that is not present can be made exactly if one of the nine
nodes has never been used, however many children the root has: an unlinked node is
not used again. -/
theorem ramfs_capacity_iff {hello : Nat} {fs : Ramfs} {past : List (Ramfs × FsOp × FsResult)} {name : List UInt8}
    (run : FsRun hello fs past) (nonempty : name ≠ [])
    (absent : ∀ c ∈ linkedNodes fs, (fs.nodes c).name ≠ name) :
    ((ramfsCreate fs name).2 = 0 ∧ (ramfsMkdir fs name).2 = 0 ↔ fs.nodeCount < 9) ∧
      fs.nodeCount = 2 + nodesMade past := by
  obtain ⟨kids, inv⟩ := FsRun.tree run
  rw [inv.linked] at absent
  refine ⟨?_, FsRun.nodeCount run⟩
  rw [(inv.create_ret name).1, (inv.mkdir_ret name).1, and_self]
  exact ⟨fun allowed => allowed.room, fun room => ⟨nonempty, absent, room⟩⟩

/-- The calls that make and unlink a file seven times. -/
def churn : List (FsOp × FsResult) :=
  (List.replicate 7 [(.create (ascii "a"), .code 0), (.unlink (ascii "a"), .code 0)]).flatten

theorem ramfs_capacity_iff_after_unlink :
    ∃ fs past, FsRun 0 fs past ∧
      past.map Prod.snd = [(.unlink (ascii "a"), .code 0), (.mkdir (ascii "b"), .code 0), (.create (ascii "a"), .code 0)] ∧
      ((ramfsCreate fs (ascii "a")).2 = 0 ∧ (ramfsMkdir fs (ascii "a")).2 = 0 ↔ fs.nodeCount < 9) ∧
        fs.nodeCount = 2 + nodesMade past := by
  obtain ⟨fs, past, run, calls, absent⟩ := FsRun.of_calls
    [(.create (ascii "a"), .code 0), (.mkdir (ascii "b"), .code 0), (.unlink (ascii "a"), .code 0)]
    (P := fun fs => ∀ c ∈ linkedNodes fs, (fs.nodes c).name ≠ ascii "a") (by decide +kernel)
  exact ⟨fs, past, run, calls, ramfs_capacity_iff run (by decide) absent⟩

/-- Nothing can be made any more once one file has come and gone seven times. -/
theorem ramfs_capacity_lost :
    ∃ fs past, FsRun 0 fs past ∧ past.map Prod.snd = churn.reverse ∧ (linkedNodes fs).length = 1 ∧
      (∀ c ∈ linkedNodes fs, (fs.nodes c).name ≠ ascii "a") ∧ (ramfsCreate fs (ascii "a")).2 = -1 ∧
      (ramfsMkdir fs (ascii "a")).2 = -1 :=
  FsRun.of_calls churn (by decide +kernel)

end LearningOS
