import LearningOS.Fs.Ramfs
import Mathlib.Data.List.Nodup
import Mathlib.Data.List.Induction
import Mathlib.Data.List.Perm.Subperm
import Mathlib.Data.Fin.Basic

namespace LearningOS
open ByteStore

/-- A directory below the root: it never gets children. -/
structure IsDir (c : Fin 9) (n : RamfsNode) : Prop where
  name : n.name.length ≤ 127
  flags : n.flags = .dir
  impl : n.impl = some c
  read : n.read = false
  write : n.write = false
  readdir : n.readdir = true
  finddir : n.finddir = true
  childCount : n.childCount = 0
  inode : n.inode = 0
  length : n.length = 0
  size : n.size = 0
  ownsData : n.ownsData = false

/-- A file: its data is a block of its own, empty for a null pointer, or the
static text. -/
structure IsFile (hello : Nat) (c : Fin 9) (n : RamfsNode) : Prop where
  name : n.name.length ≤ 127
  flags : n.flags = .file
  impl : n.impl = some c
  read : n.read = true
  write : n.write = true
  readdir : n.readdir = false
  finddir : n.finddir = false
  inode : n.inode = 0
  length : n.length = n.size
  data : (n.ownsData = true ∧ n.size < 2 ^ 32 ∧ (n.data = 0 ↔ n.size = 0)) ∨
    (n.ownsData = false ∧ n.data = hello ∧ n.size = 17 ∧ c = 1)

def KidOk (hello : Nat) (c : Fin 9) (n : RamfsNode) : Prop := IsDir c n ∨ IsFile hello c n

theorem KidOk.name {hello : Nat} {c : Fin 9} {n : RamfsNode} (ok : KidOk hello c n) : n.name.length ≤ 127 := by
  rcases ok with dir | file
  · exact dir.name
  · exact file.name

theorem KidOk.inode {hello : Nat} {c : Fin 9} {n : RamfsNode} (ok : KidOk hello c n) : n.inode = 0 := by
  rcases ok with dir | file
  · exact dir.inode
  · exact file.inode

/-- The shape of the tree: node 0 is the root, its child array lists `kids`. -/
structure TreeInv (hello : Nat) (fs : Ramfs) (kids : List (Fin 9)) : Prop where
  ramfsRoot : fs.ramfsRoot = some 0
  vfsRoot : fs.vfsRoot = some 0
  impl : (fs.nodes 0).impl = some 0
  read : (fs.nodes 0).read = false
  write : (fs.nodes 0).write = false
  readdir : (fs.nodes 0).readdir = true
  finddir : (fs.nodes 0).finddir = true
  count : 0 < fs.nodeCount ∧ fs.nodeCount ≤ 9
  childCount : (fs.nodes 0).childCount = kids.length
  children : ∀ i, i < kids.length → (fs.nodes 0).children i = kids[i]?
  nodup : kids.Nodup
  range : ∀ c ∈ kids, 0 < c.val ∧ c.val < fs.nodeCount
  kid : ∀ c ∈ kids, KidOk hello c (fs.nodes c)

/-- The nodes linked in the root, in order. -/
def linkedNodes (fs : Ramfs) : List (Fin 9) :=
  match fs.ramfsRoot with
  | none => []
  | some root => (List.range (fs.nodes root).childCount).filterMap (fs.nodes root).children

@[simp] theorem setNode_nodes (fs : Ramfs) (i : Fin 9) (n : RamfsNode) :
    (fs.setNode i n).nodes = Function.update fs.nodes i n := rfl

/-- An array that holds a list and one element more. -/
theorem array_concat {α : Type} {c : Nat → Option α} {l : List α} {a : α}
    (same : ∀ i, i < (l ++ [a]).length → c i = (l ++ [a])[i]?) :
    (∀ i, i < l.length → c i = l[i]?) ∧ c l.length = some a := by
  refine ⟨fun i inside => ?_, ?_⟩
  · rw [same i (by simp; omega), List.getElem?_append_left inside]
  · rw [same l.length (by simp)]
    simp

/-- An array that holds a list is read back as that list. -/
theorem filterMap_range_getElem? {α : Type} {c : Nat → Option α} {l : List α}
    (same : ∀ i, i < l.length → c i = l[i]?) : (List.range l.length).filterMap c = l := by
  induction l using List.reverseRecOn with
  | nil => rfl
  | append_singleton l a ih =>
    obtain ⟨front, last⟩ := array_concat same
    rw [List.length_append, List.length_singleton, List.range_succ, List.filterMap_append, ih front]
    simp [last]

/-- Searching such an array finds the first element with a property and its
index. -/
theorem findSome?_range_getElem? {α : Type} {c : Nat → Option α} {l : List α} {P : α → Prop} [DecidablePred P]
    (same : ∀ i, i < l.length → c i = l[i]?) :
    (∃ pre a post, l = pre ++ a :: post ∧ P a ∧ (∀ b ∈ pre, ¬P b) ∧
      ((List.range l.length).findSome? fun i => (c i).bind fun x => if P x then some (i, x) else none) =
        some (pre.length, a)) ∨
      ((∀ b ∈ l, ¬P b) ∧
        ((List.range l.length).findSome? fun i => (c i).bind fun x => if P x then some (i, x) else none) = none) := by
  induction l using List.reverseRecOn with
  | nil => exact Or.inr ⟨by simp, rfl⟩
  | append_singleton l a ih =>
    obtain ⟨front, last⟩ := array_concat same
    rw [List.length_append, List.length_singleton, List.range_succ, List.findSome?_append]
    rcases ih front with ⟨pre, b, post, split, hit, before, found⟩ | ⟨before, none⟩
    · exact Or.inl ⟨pre, b, post ++ [a], by simp [split], hit, before, by rw [found]; rfl⟩
    · rw [none, Option.none_or, List.findSome?_singleton, last, Option.bind_some]
      by_cases hit : P a
      · exact Or.inl ⟨l, a, [], rfl, hit, before, if_pos hit⟩
      · refine Or.inr ⟨fun b member => ?_, if_neg hit⟩
        rcases List.mem_append.mp member with old | new
        · exact before b old
        · rwa [List.mem_singleton.mp new]

/-- The shifting loop moves the entries behind the gap one place down. -/
theorem foldl_shift {α : Type} (c : Nat → α) (i k j : Nat) :
    (List.range' i k).foldl (fun c j => Function.update c j (c (j + 1))) c j =
      if i ≤ j ∧ j < i + k then c (j + 1) else c j := by
  induction k generalizing j with
  | zero => rw [if_neg (by omega)]; rfl
  | succ k ih =>
    rw [List.range'_concat, List.foldl_append, List.foldl_cons, List.foldl_nil, Nat.one_mul]
    by_cases last : j = i + k
    · subst last
      rw [Function.update_self, ih, if_neg (by omega), if_pos (by omega)]
    · rw [Function.update_of_ne last, ih]
      exact if_congr (by omega) rfl rfl

theorem closeGap_children {p : RamfsNode} {pre post : List (Fin 9)} {c : Fin 9}
    (count : p.childCount = (pre ++ c :: post).length)
    (children : ∀ i, i < (pre ++ c :: post).length → p.children i = (pre ++ c :: post)[i]?) {i : Nat}
    (inside : i < (pre ++ post).length) : (closeGap p pre.length).children i = (pre ++ post)[i]? := by
  rw [List.length_append, List.length_cons] at count children
  rw [List.length_append] at inside
  simp only [closeGap, count]
  rw [Function.update_of_ne (by omega), foldl_shift]
  split
  · rename_i shifted
    rw [children (i + 1) (by omega), List.getElem?_append_right (by omega), List.getElem?_append_right (by omega),
      show i + 1 - pre.length = i - pre.length + 1 by omega, List.getElem?_cons_succ]
  · rename_i kept
    rw [children i (by omega), List.getElem?_append_left (by omega), List.getElem?_append_left (by omega)]

namespace TreeInv
variable {hello : Nat} {fs : Ramfs} {kids : List (Fin 9)}

theorem linked (inv : TreeInv hello fs kids) : linkedNodes fs = kids := by
  simp only [linkedNodes, inv.ramfsRoot, inv.childCount]
  exact filterMap_range_getElem? inv.children

theorem findChild_spec (inv : TreeInv hello fs kids) (name : List UInt8) :
    (∃ pre c post, kids = pre ++ c :: post ∧ (fs.nodes c).name = name ∧ (∀ b ∈ pre, (fs.nodes b).name ≠ name) ∧
      findChild fs 0 name = some (pre.length, c)) ∨
      ((∀ b ∈ kids, (fs.nodes b).name ≠ name) ∧ findChild fs 0 name = none) := by
  unfold findChild
  rw [inv.childCount]
  exact findSome?_range_getElem? (P := fun c => (fs.nodes c).name = name) inv.children

/-- `vfs_finddir` on the root is the first linked node of that name. -/
theorem finddir_root (inv : TreeInv hello fs kids) (name : List UInt8) :
    vfsFinddir fs fs.vfsRoot name = kids.find? fun c => (fs.nodes c).name = name := by
  rw [inv.vfsRoot]
  simp only [vfsFinddir, Option.bind_some, inv.finddir, if_true, ramfsFinddir, inv.impl]
  rcases inv.findChild_spec name with ⟨pre, c, post, split, hit, before, found⟩ | ⟨before, none⟩
  · have miss : pre.find? (fun c => decide ((fs.nodes c).name = name)) = none :=
      List.find?_eq_none.mpr fun b member => by simpa using before b member
    rw [found, split, List.find?_append, miss, Option.none_or, List.find?_cons_of_pos (by simpa using hit)]
    rfl
  · rw [none]
    exact (List.find?_eq_none.mpr fun b member => by simpa using before b member).symm

theorem ne_root (inv : TreeInv hello fs kids) {c : Fin 9} (member : c ∈ kids) : c ≠ 0 := by
  rintro rfl
  exact absurd (inv.range 0 member).1 (by decide)

/-- Replacing a linked node by a good one keeps the shape. -/
theorem setKid (inv : TreeInv hello fs kids) {c : Fin 9} {n : RamfsNode} (member : c ∈ kids) (ok : KidOk hello c n) :
    TreeInv hello (fs.setNode c n) kids := by
  have root : (fs.setNode c n).nodes 0 = fs.nodes 0 := Function.update_of_ne (inv.ne_root member).symm _ _
  refine ⟨inv.ramfsRoot, inv.vfsRoot, by rw [root]; exact inv.impl, by rw [root]; exact inv.read,
    by rw [root]; exact inv.write, by rw [root]; exact inv.readdir, by rw [root]; exact inv.finddir, inv.count,
    by rw [root]; exact inv.childCount, by rw [root]; exact inv.children, inv.nodup, inv.range, fun d inside => ?_⟩
  rw [setNode_nodes, Function.update_apply]
  split
  · rename_i same
    rw [same]
    exact ok
  · exact inv.kid d inside

/-- A node that is not linked may change at will. -/
theorem setStray (inv : TreeInv hello fs kids) {c : Fin 9} (n : RamfsNode) (notRoot : c ≠ 0) (stray : c ∉ kids) :
    TreeInv hello (fs.setNode c n) kids := by
  have root : (fs.setNode c n).nodes 0 = fs.nodes 0 := Function.update_of_ne notRoot.symm _ _
  refine ⟨inv.ramfsRoot, inv.vfsRoot, by rw [root]; exact inv.impl, by rw [root]; exact inv.read,
    by rw [root]; exact inv.write, by rw [root]; exact inv.readdir, by rw [root]; exact inv.finddir, inv.count,
    by rw [root]; exact inv.childCount, by rw [root]; exact inv.children, inv.nodup, inv.range, fun d inside => ?_⟩
  have other : d ≠ c := fun same => stray (same ▸ inside)
  rw [setNode_nodes, Function.update_of_ne other]
  exact inv.kid d inside

theorem kids_length (inv : TreeInv hello fs kids) : kids.length < fs.nodeCount := by
  have below : ∀ n ∈ kids.map Fin.val, n ∈ List.range' 1 (fs.nodeCount - 1) := fun n member => by
    obtain ⟨c, inside, rfl⟩ := List.mem_map.mp member
    have bounds := inv.range c inside
    rw [List.mem_range'_1]
    omega
  have nodup : (kids.map Fin.val).Nodup := inv.nodup.map Fin.val_injective
  have length := (List.subperm_of_subset nodup below).length_le
  have count := inv.count
  rw [List.length_map, List.length_range'] at length
  omega

end TreeInv

theorem ramfsInit_tree (fs : Ramfs) (hello : Nat) : TreeInv hello (ramfsInit fs hello) [1] := by
  refine ⟨rfl, rfl, rfl, rfl, rfl, rfl, rfl, by simp [ramfsInit], rfl, ?_, by simp, by simp [ramfsInit], ?_⟩
  · intro i inside
    have zero : i = 0 := by simpa using inside
    subst zero
    rfl
  · intro c member
    rw [List.mem_singleton.mp member]
    exact Or.inr ⟨show (ascii "hello.txt").length ≤ 127 by decide, rfl, rfl, rfl, rfl, rfl, rfl, rfl, rfl,
      Or.inr ⟨rfl, rfl, rfl, rfl⟩⟩

theorem fillDir_ok (hello : Nat) (name : List UInt8) (c : Fin 9) : KidOk hello c (fillDir c (blankNode name .dir)) :=
  Or.inl ⟨List.length_take_le _ _, rfl, rfl, rfl, rfl, rfl, rfl, rfl, rfl, rfl, rfl, rfl⟩

theorem fillFile_ok (hello : Nat) (name : List UInt8) (c : Fin 9) : KidOk hello c (fillFile c (blankNode name .file)) :=
  Or.inr ⟨List.length_take_le _ _, rfl, rfl, rfl, rfl, rfl, rfl, rfl, rfl, Or.inl ⟨rfl, Nat.two_pow_pos 32, Iff.rfl⟩⟩

namespace TreeInv
variable {hello : Nat} {fs : Ramfs} {kids : List (Fin 9)}

/-- Linking the next free node, filled in, behind the others. -/
theorem link (inv : TreeInv hello fs kids) {c : Fin 9} (next : c.val = fs.nodeCount) {n : RamfsNode}
    (ok : KidOk hello c n) :
    ∃ fs', ramfsAddChild { fs.setNode c n with nodeCount := fs.nodeCount + 1 } 0 c = (fs', 0) ∧
      TreeInv hello fs' (kids ++ [c]) ∧ fs'.nodeCount = fs.nodeCount + 1 ∧ fs'.nodes c = n ∧
      (∀ d ∈ kids, fs'.nodes d = fs.nodes d) ∧ c ∉ kids := by
  have count := inv.count
  have length := inv.kids_length
  have fresh : c ∉ kids := fun member => by
    have bounds := inv.range c member
    omega
  have notRoot : (0 : Fin 9) ≠ c := fun same => by
    rw [← same] at next
    simp at next
    omega
  have root : (fs.setNode c n).nodes 0 = fs.nodes 0 := Function.update_of_ne notRoot _ _
  have few : ¬(fs.nodes 0).childCount ≥ 16 := by
    rw [inv.childCount]
    omega
  unfold ramfsAddChild
  simp only [root]
  rw [if_neg few]
  refine ⟨_, rfl, ?_, rfl, ?_, fun d member => ?_, fresh⟩
  · refine ⟨inv.ramfsRoot, inv.vfsRoot, ?_, ?_, ?_, ?_, ?_, ⟨by simp [Ramfs.setNode], ?_⟩, ?_, ?_, ?_, ?_, ?_⟩
    · simpa using inv.impl
    · simpa using inv.read
    · simpa using inv.write
    · simpa using inv.readdir
    · simpa using inv.finddir
    · show fs.nodeCount + 1 ≤ 9
      omega
    · simp [inv.childCount]
    · intro i inside
      rw [List.length_append, List.length_singleton] at inside
      rw [setNode_nodes, Function.update_self]
      simp only [inv.childCount]
      by_cases last : i = kids.length
      · subst last
        simp
      · rw [Function.update_of_ne last, inv.children i (by omega), List.getElem?_append_left (by omega)]
    · rw [List.nodup_append']
      exact ⟨inv.nodup, List.nodup_singleton c, by simpa using fresh⟩
    · intro d member
      show 0 < d.val ∧ d.val < fs.nodeCount + 1
      rcases List.mem_append.mp member with old | last
      · have bounds := inv.range d old
        omega
      · rw [List.mem_singleton.mp last]
        omega
    · intro d member
      rcases List.mem_append.mp member with old | last
      · have notNew : d ≠ c := fun same => fresh (same ▸ old)
        rw [setNode_nodes, Function.update_of_ne (inv.ne_root old), setNode_nodes, Function.update_of_ne notNew]
        exact inv.kid d old
      · rw [List.mem_singleton.mp last, setNode_nodes, Function.update_of_ne notRoot.symm, setNode_nodes,
          Function.update_self]
        exact ok
  · rw [setNode_nodes, Function.update_of_ne notRoot.symm, setNode_nodes, Function.update_self]
  · have notNew : d ≠ c := fun same => fresh (same ▸ member)
    rw [setNode_nodes, Function.update_of_ne (inv.ne_root member), setNode_nodes, Function.update_of_ne notNew]

theorem finddir_isSome (inv : TreeInv hello fs kids) (name : List UInt8) :
    (ramfsFinddir fs 0 name).isSome = true ↔ ∃ c ∈ kids, (fs.nodes c).name = name := by
  simp only [ramfsFinddir, inv.impl, Option.bind_some]
  rcases inv.findChild_spec name with ⟨pre, c, post, split, hit, _, found⟩ | ⟨before, none⟩
  · rw [found]
    exact iff_of_true rfl ⟨c, by simp [split], hit⟩
  · rw [none]
    exact iff_of_false (by simp) fun ⟨c, member, hit⟩ => before c member hit

/-- `ramfs_mkdir` and `ramfs_create` fail without an effect, exactly if the name
is empty or taken or no node is left, or link one new node. -/
theorem make (inv : TreeInv hello fs kids) {flags : NodeType} {fill : Fin 9 → RamfsNode → RamfsNode}
    {name : List UInt8} (ok : ∀ c, KidOk hello c (fill c (blankNode name flags))) :
    (ramfsMake flags fill fs name = (fs, -1) ∧
      (name = [] ∨ (∃ c ∈ kids, (fs.nodes c).name = name) ∨ fs.nodeCount = 9)) ∨
      ∃ new fs', (∀ c ∈ kids, (fs.nodes c).name ≠ name) ∧ fs.nodeCount < 9 ∧
        ramfsMake flags fill fs name = (fs', 0) ∧ TreeInv hello fs' (kids ++ [new]) ∧
        fs'.nodeCount = fs.nodeCount + 1 ∧ fs'.nodes new = fill new (blankNode name flags) ∧
        (∀ c ∈ kids, fs'.nodes c = fs.nodes c) ∧ new ∉ kids := by
  have count := inv.count
  unfold ramfsMake
  simp only [inv.ramfsRoot]
  by_cases empty : name = []
  · exact Or.inl ⟨if_pos empty, Or.inl empty⟩
  rw [if_neg empty]
  by_cases taken : ∃ c ∈ kids, (fs.nodes c).name = name
  · exact Or.inl ⟨if_pos ((inv.finddir_isSome name).mpr taken), Or.inr (Or.inl taken)⟩
  rw [if_neg (by rw [inv.finddir_isSome]; exact taken)]
  unfold ramfsAllocNode
  by_cases room : fs.nodeCount < 9
  · rw [dif_pos room]
    obtain ⟨fs', result, rest⟩ := inv.link (c := ⟨fs.nodeCount, room⟩) rfl (ok _)
    refine Or.inr ⟨_, fs', fun c member same => taken ⟨c, member, same⟩, room, ?_, rest⟩
    rw [← result]
    simp [Ramfs.setNode]
  · rw [dif_neg room]
    exact Or.inl ⟨rfl, Or.inr (Or.inr (by omega))⟩

/-- Closing the gap of a linked node unlinks it. -/
theorem unlink {pre post : List (Fin 9)} {c : Fin 9} (inv : TreeInv hello fs (pre ++ c :: post)) :
    TreeInv hello (fs.setNode 0 (closeGap (fs.nodes 0) pre.length)) (pre ++ post) := by
  have nodup := inv.nodup
  have sub : (pre ++ post).Sublist (pre ++ c :: post) := List.Sublist.append_left (List.sublist_cons_self c post) pre
  refine ⟨inv.ramfsRoot, inv.vfsRoot, ?_, ?_, ?_, ?_, ?_, inv.count, ?_, ?_, nodup.sublist sub, ?_, ?_⟩
  · simpa [closeGap] using inv.impl
  · simpa [closeGap] using inv.read
  · simpa [closeGap] using inv.write
  · simpa [closeGap] using inv.readdir
  · simpa [closeGap] using inv.finddir
  · simp [closeGap, inv.childCount]
  · intro i inside
    rw [setNode_nodes, Function.update_self]
    exact closeGap_children inv.childCount inv.children inside
  · intro d member
    exact inv.range d (sub.subset member)
  · intro d member
    have inside := sub.subset member
    rw [setNode_nodes, Function.update_of_ne (inv.ne_root inside)]
    exact inv.kid d inside

end TreeInv

end LearningOS
