import LearningOS.Fs.Listing
import LearningOS.Heap.Client

namespace LearningOS
open ByteStore

/-- The heap block a node owns. -/
def dataOwner (n : RamfsNode) : Option Nat := if n.ownsData = true ∧ n.data ≠ 0 then some n.data else none

/-- The tree over its heap: the blocks its files own and those of other clients
are exactly the allocated ones, every owned block has room for its file, and the
static text lies below the heap. -/
structure FsInv (r : HeapRegion) (hello : Nat) (others : List Nat) (h : Heap) (fs : Ramfs) (kids : List (Fin 9)) :
    Prop where
  tree : TreeInv hello fs kids
  held : Held r h (others ++ kids.filterMap fun c => dataOwner (fs.nodes c))
  room : ∀ c ∈ kids, ∀ p, dataOwner (fs.nodes c) = some p → (fs.nodes c).size ≤ roomAt h p
  nonnull : hello ≠ 0
  below : hello + 18 ≤ r.start

theorem dataOwner_eq_some {n : RamfsNode} {p : Nat} :
    dataOwner n = some p ↔ n.ownsData = true ∧ n.data ≠ 0 ∧ p = n.data := by
  unfold dataOwner
  split
  · rename_i owns
    simp only [Option.some.injEq, owns, ne_eq, not_false_eq_true, true_and]
    exact eq_comm
  · rename_i owns
    simp only [reduceCtorEq, false_iff]
    exact fun ⟨own, data, _⟩ => owns ⟨own, data⟩

/-- Every one of these calls frees an allocated pointer. -/
def FreesLive (r : HeapRegion) (frees : List FreeCall) : Prop :=
  ∀ call ∈ frees, ∃ ptrs, Held r call.heap ptrs ∧ call.ptr ∈ ptrs

/-- A file of `n` bytes at `p`. -/
def RamfsNode.movedTo (node : RamfsNode) (p n : Nat) : RamfsNode := { node with data := p, size := n, length := n }

theorem IsFile.movedTo {hello : Nat} {c : Fin 9} {node : RamfsNode} (file : IsFile hello c node)
    (owns : node.ownsData = true) {p n : Nat} (pointer : p ≠ 0) (positive : n ≠ 0) (small : n < 2 ^ 32) :
    IsFile hello c (node.movedTo p n) :=
  ⟨file.name, file.flags, file.impl, file.read, file.write, file.readdir, file.finddir, file.inode, rfl,
    Or.inl ⟨owns, small, iff_of_false pointer positive⟩⟩

namespace FsInv
variable {r : HeapRegion} {hello : Nat} {others : List Nat} {h h' : Heap} {fs : Ramfs} {kids : List (Fin 9)}

theorem owner_mem {c : Fin 9} {p : Nat} (member : c ∈ kids) (owner : dataOwner (fs.nodes c) = some p) :
    p ∈ others ++ kids.filterMap fun c => dataOwner (fs.nodes c) :=
  List.mem_append_right _ (List.mem_filterMap.mpr ⟨c, member, owner⟩)

/-- Different nodes own different blocks, and none of another client. -/
theorem owner_ne (inv : FsInv r hello others h fs kids) {c d : Fin 9} {p q : Nat} (atC : c ∈ kids) (atD : d ∈ kids)
    (differ : c ≠ d) (ownerC : dataOwner (fs.nodes c) = some p) (ownerD : dataOwner (fs.nodes d) = some q) : p ≠ q :=
  owners_ne (f := fun c => dataOwner (fs.nodes c)) (List.nodup_append'.mp inv.held.nodup).2.1 atC atD differ
    ownerC ownerD

theorem owner_not_other (inv : FsInv r hello others h fs kids) {c : Fin 9} {p : Nat} (member : c ∈ kids)
    (owner : dataOwner (fs.nodes c) = some p) : p ∉ others := fun inside =>
  (List.nodup_append'.mp inv.held.nodup).2.2 inside (List.mem_filterMap.mpr ⟨c, member, owner⟩)

/-- Where the bytes of a file with a data pointer are. -/
theorem data_bounds (inv : FsInv r hello others h fs kids) {c : Fin 9} (member : c ∈ kids)
    (file : IsFile hello c (fs.nodes c)) (data : (fs.nodes c).data ≠ 0) :
    (fs.nodes c).data + (fs.nodes c).size ≤ r.stop := by
  rcases file.data with ⟨owns, _⟩ | ⟨_, static, size, _⟩
  · have owner := dataOwner_eq_some.mpr ⟨owns, data, rfl⟩
    have bounds := inv.held.bounds (owner_mem member owner)
    have room := inv.room c member _ owner
    omega
  · have below := inv.below
    have stop : r.start ≤ r.stop := Nat.le_add_right _ _
    omega

/-- A change of memory that spares the block of a node and the static text
spares its entry. -/
theorem entry_same (inv : FsInv r hello others h fs kids) (h' : Heap) {c : Fin 9} (member : c ∈ kids)
    (owned : ∀ p, dataOwner (fs.nodes c) = some p → SamePayload h h' p)
    (static : kindOf (fs.nodes c) = .fixed → ∀ x, hello ≤ x → x < hello + 17 → h'.mem x = h.mem x) :
    entryOf h'.mem (fs.nodes c) = entryOf h.mem (fs.nodes c) := by
  have bytes :
      window h'.mem (fs.nodes c).data (fs.nodes c).size = window h.mem (fs.nodes c).data (fs.nodes c).size := by
    rcases inv.tree.kid c member with dir | file
    · simp only [dir.size]
      rfl
    · rcases file.data with ⟨owns, _, null⟩ | ⟨fixed, data, size, _⟩
      · by_cases zero : (fs.nodes c).data = 0
        · simp only [null.mp zero]
          rfl
        · have owner := dataOwner_eq_some.mpr ⟨owns, zero, rfl⟩
          exact (owned _ owner).window_eq (inv.room c member _ owner)
      · rw [data, size]
        exact window_congr (static (by simp [kindOf, file.flags, fixed]))
  simp only [entryOf, bytes]

/-- The view of a tree whose linked nodes are known. -/
theorem listing_eq (inv : FsInv r hello others h fs kids) :
    listing h.mem fs = ⟨kids.map fun c => entryOf h.mem (fs.nodes c), 9 - fs.nodeCount⟩ := by
  simp only [listing, inv.tree.linked]

/-- A heap that keeps all blocks of the tree. -/
theorem keep (inv : FsInv r hello others h fs kids) {others' : List Nat}
    (held : Held r h' (others' ++ kids.filterMap fun c => dataOwner (fs.nodes c)))
    (same : ∀ c ∈ kids, ∀ p, dataOwner (fs.nodes c) = some p → SamePayload h h' p) :
    FsInv r hello others' h' fs kids :=
  ⟨inv.tree, held, fun c member p owner => by
    rw [(same c member p owner).room]
    exact inv.room c member p owner, inv.nonnull, inv.below⟩

/-- Bytes stored inside the data of one file change its entry and no other. -/
theorem store (inv : FsInv r hello others h fs kids) {c : Fin 9} (member : c ∈ kids)
    (file : IsFile hello c (fs.nodes c)) (data : (fs.nodes c).data ≠ 0) {offset : Nat} {buffer : List UInt8}
    (fits : offset + buffer.length ≤ (fs.nodes c).size) :
    copyIn h.mem ((fs.nodes c).data + offset) buffer = paste h.mem ((fs.nodes c).data + offset) buffer ∧
      FsInv r hello others { h with mem := paste h.mem ((fs.nodes c).data + offset) buffer } fs kids ∧
      (∀ q ∈ others, SamePayload h { h with mem := paste h.mem ((fs.nodes c).data + offset) buffer } q) ∧
      (∀ d ∈ kids, d ≠ c → entryOf (paste h.mem ((fs.nodes c).data + offset) buffer) (fs.nodes d) =
        entryOf h.mem (fs.nodes d)) ∧
      entryOf (paste h.mem ((fs.nodes c).data + offset) buffer) (fs.nodes c) =
        { entryOf h.mem (fs.nodes c) with bytes := splice (entryOf h.mem (fs.nodes c)).bytes offset buffer } := by
  have bounds := inv.data_bounds member file data
  have stop := r.stop_lt
  have own : entryOf (paste h.mem ((fs.nodes c).data + offset) buffer) (fs.nodes c) =
      { entryOf h.mem (fs.nodes c) with bytes := splice (entryOf h.mem (fs.nodes c)).bytes offset buffer } := by
    simp only [entryOf, window_paste fits]
  refine ⟨copyIn_eq_paste (by omega), ?_⟩
  rcases file.data with ⟨owns, _⟩ | ⟨fixed, static, size, first⟩
  · have owner := dataOwner_eq_some.mpr ⟨owns, data, rfl⟩
    have room := inv.room c member _ owner
    have start := (inv.held.bounds (owner_mem member owner)).1
    have below := inv.below
    obtain ⟨held, roomSame, kept⟩ := inv.held.poke (owner_mem member owner)
      (paste h.mem ((fs.nodes c).data + offset) buffer) fun x _ _ outside => paste_outside (by omega)
    have keptKid {d : Fin 9} (atD : d ∈ kids) (differ : d ≠ c) {p : Nat} (ownerD : dataOwner (fs.nodes d) = some p) :=
      kept p (owner_mem atD ownerD) (inv.owner_ne atD member differ ownerD owner)
    refine ⟨⟨inv.tree, held, fun d atD p ownerD => ?_, inv.nonnull, below⟩, fun q atQ => ?_,
      fun d atD differ => ?_, own⟩
    · by_cases same : d = c
      · subst same
        cases Option.some.inj (owner.symm.trans ownerD)
        rw [roomSame]
        exact room
      · rw [(keptKid atD same ownerD).room]
        exact inv.room d atD p ownerD
    · exact kept q (List.mem_append_left _ atQ) fun same => inv.owner_not_other member owner (same ▸ atQ)
    · exact inv.entry_same { h with mem := paste h.mem ((fs.nodes c).data + offset) buffer } atD
        (fun p ownerD => keptKid atD differ ownerD) fun _ x _ upper => paste_outside (by omega)
  · have below := inv.below
    obtain ⟨held, kept⟩ := inv.held.pokeOutside (paste h.mem ((fs.nodes c).data + offset) buffer)
      fun x lower _ => paste_outside (by omega)
    refine ⟨inv.keep held fun d atD p ownerD => kept p (owner_mem atD ownerD),
      fun q atQ => kept q (List.mem_append_left _ atQ), fun d atD differ => ?_, own⟩
    refine inv.entry_same { h with mem := paste h.mem ((fs.nodes c).data + offset) buffer } atD
      (fun p ownerD => kept p (owner_mem atD ownerD)) fun fixedD => ?_
    exact absurd ((inv.tree.fixed_first atD fixedD).trans first.symm) differ

/-- A file moved to a new block `p` of enough room, in a heap that holds `p`
instead of its old block and keeps all others. -/
theorem moved (inv : FsInv r hello others h fs kids) {c : Fin 9} (member : c ∈ kids)
    (file : IsFile hello c (fs.nodes c)) (owns : (fs.nodes c).ownsData = true) {p n : Nat} (pointer : p ≠ 0)
    (positive : n ≠ 0) (small : n < 2 ^ 32) (h' : Heap)
    (held : Held r h' (others ++ kids.filterMap fun d => dataOwner ((fs.setNode c ((fs.nodes c).movedTo p n)).nodes d)))
    (room : n ≤ roomAt h' p)
    (kept : ∀ d ∈ kids, d ≠ c → ∀ q, dataOwner (fs.nodes d) = some q → SamePayload h h' q)
    (outside : SameOutside r h h') :
    FsInv r hello others h' (fs.setNode c ((fs.nodes c).movedTo p n)) kids ∧
      ∀ d ∈ kids, d ≠ c → entryOf h'.mem ((fs.setNode c ((fs.nodes c).movedTo p n)).nodes d) =
        entryOf h.mem (fs.nodes d) := by
  have tree := inv.tree.setKid member (Or.inr (file.movedTo owns pointer positive small))
  have below := inv.below
  refine ⟨⟨tree, held, fun d atD q owner => ?_, inv.nonnull, below⟩, fun d atD differ => ?_⟩
  · by_cases same : d = c
    · subst same
      simp only [setNode_nodes, Function.update_self] at owner ⊢
      obtain ⟨_, _, rfl⟩ := dataOwner_eq_some.mp owner
      exact room
    · simp only [setNode_nodes, Function.update_of_ne same] at owner ⊢
      rw [(kept d atD same q owner).room]
      exact inv.room d atD q owner
  · simp only [setNode_nodes, Function.update_of_ne differ]
    exact inv.entry_same h' atD (kept d atD differ) fun _ x _ upper => outside x (by omega)

/-- Growing an owned file that has moved it to a new block `p` with its bytes. -/
structure Grown (r : HeapRegion) (hello : Nat) (others : List Nat) (h : Heap) (fs : Ramfs) (kids : List (Fin 9))
    (c : Fin 9) (n : Nat) (h' : Heap) (p : Nat) (frees : List FreeCall) : Prop where
  run : ramfsGrow h fs c n = some (h', some (fs.setNode c ((fs.nodes c).movedTo p n)), frees)
  pointer : p ≠ 0
  inv : FsInv r hello others h' (fs.setNode c ((fs.nodes c).movedTo p n)) kids
  others : ∀ q ∈ others, SamePayload h h' q
  live : FreesLive r frees
  entries : ∀ d ∈ kids, d ≠ c → entryOf h'.mem ((fs.setNode c ((fs.nodes c).movedTo p n)).nodes d) =
    entryOf h.mem (fs.nodes d)
  bytes : window h'.mem p (fs.nodes c).size = window h.mem (fs.nodes c).data (fs.nodes c).size

/-- The owners before and after a file has moved differ by its old block, if it
had one, and its new one. -/
theorem moved_owners (inv : FsInv r hello others h fs kids) {c : Fin 9} (member : c ∈ kids)
    (owns : (fs.nodes c).ownsData = true) {p n : Nat} (pointer : p ≠ 0) :
    (p :: kids.filterMap fun d => dataOwner (fs.nodes d)).Perm ((dataOwner (fs.nodes c)).toList ++
      kids.filterMap fun d => dataOwner ((fs.setNode c ((fs.nodes c).movedTo p n)).nodes d)) := by
  have newOwner : dataOwner ((fs.setNode c ((fs.nodes c).movedTo p n)).nodes c) = some p := by
    simp only [setNode_nodes, Function.update_self]
    exact dataOwner_eq_some.mpr ⟨owns, pointer, rfl⟩
  have exchange := owners_exchange (g := fun d => dataOwner ((fs.setNode c ((fs.nodes c).movedTo p n)).nodes d))
    (f := fun d => dataOwner (fs.nodes d)) inv.tree.nodup member fun d _ differ => by
      simp only [setNode_nodes, Function.update_of_ne differ]
  simpa only [newOwner, Option.toList_some, List.singleton_append] using exchange.symm

/-- A file without data gets its first block. -/
theorem grow_first (inv : FsInv r hello others h fs kids) {c : Fin 9} (member : c ∈ kids)
    (file : IsFile hello c (fs.nodes c)) (owns : (fs.nodes c).ownsData = true) {n : Nat}
    (larger : (fs.nodes c).size < n) (small : n ≤ 0xFFFFFFF8) (null : (fs.nodes c).data = 0) {h₁ : Heap} {p : Nat}
    (call : kmalloc h n = some (h₁, p)) (pointer : p ≠ 0)
    (held₁ : Held r h₁ (p :: (others ++ kids.filterMap fun d => dataOwner (fs.nodes d)))) (room₁ : n ≤ roomAt h₁ p)
    (kept₁ : ∀ q ∈ others ++ kids.filterMap fun d => dataOwner (fs.nodes d), SamePayload h h₁ q)
    (outside₁ : SameOutside r h h₁) : Grown r hello others h fs kids c n h₁ p [] := by
  have owners := inv.moved_owners member owns (n := n) pointer
  have noOwner : dataOwner (fs.nodes c) = none := by simp [dataOwner, null]
  simp only [noOwner, Option.toList_none, List.nil_append] at owners
  have held := held₁.perm (List.perm_middle.symm.trans (owners.append_left others))
  have empty : (fs.nodes c).size = 0 := by
    rcases file.data with ⟨_, _, iff⟩ | ⟨fixed, _⟩
    · exact iff.mp null
    · simp [fixed] at owns
  obtain ⟨inv', entries⟩ := inv.moved member file owns pointer (by omega) (by omega) h₁ held room₁
    (fun d atD _ q owner => kept₁ q (owner_mem atD owner)) outside₁
  refine ⟨?_, pointer, inv', fun q atQ => kept₁ q (List.mem_append_left _ atQ), by simp [FreesLive], entries,
    by simp only [empty]; rfl⟩
  simp only [ramfsGrow, call, Option.bind_some, if_neg pointer, null, ne_eq, not_true_eq_false, false_and, if_false]
  rfl

/-- A file with data is copied to a new block, and its old one is freed. -/
theorem grow_again (inv : FsInv r hello others h fs kids) {c : Fin 9} (member : c ∈ kids)
    (file : IsFile hello c (fs.nodes c)) (owns : (fs.nodes c).ownsData = true) {n : Nat}
    (larger : (fs.nodes c).size < n) (small : n ≤ 0xFFFFFFF8) (data : (fs.nodes c).data ≠ 0) {h₁ : Heap} {p : Nat}
    (call : kmalloc h n = some (h₁, p)) (pointer : p ≠ 0)
    (held₁ : Held r h₁ (p :: (others ++ kids.filterMap fun d => dataOwner (fs.nodes d)))) (room₁ : n ≤ roomAt h₁ p)
    (kept₁ : ∀ q ∈ others ++ kids.filterMap fun d => dataOwner (fs.nodes d), SamePayload h h₁ q)
    (outside₁ : SameOutside r h h₁) : ∃ h' frees, Grown r hello others h fs kids c n h' p frees := by
  have exchange := inv.moved_owners member owns (n := n) pointer
  have owner := dataOwner_eq_some.mpr ⟨owns, data, rfl⟩
  simp only [owner, Option.toList_some, List.singleton_append] at exchange
  have atOld : (fs.nodes c).data ∈ others ++ kids.filterMap fun d => dataOwner (fs.nodes d) := owner_mem member owner
  have oldRoom := inv.room c member _ owner
  have oldKept := kept₁ _ atOld
  have differ : p ≠ (fs.nodes c).data := fun same => (List.nodup_cons.mp held₁.nodup).1 (same ▸ atOld)
  have boundsOld := held₁.bounds (List.mem_cons_of_mem p atOld)
  have boundsNew := held₁.bounds List.mem_cons_self
  have apart := held₁.apart List.mem_cons_self (List.mem_cons_of_mem p atOld) differ
  have stop := r.stop_lt
  have sameRoom := oldKept.room
  have copied : memcpy h₁.mem p (fs.nodes c).data (fs.nodes c).size =
      paste h₁.mem p (window h₁.mem (fs.nodes c).data (fs.nodes c).size) :=
    memcpy_eq_paste (by omega) (by omega) (by omega)
  obtain ⟨held₂, room₂, kept₂⟩ := held₁.poke List.mem_cons_self
    (paste h₁.mem p (window h₁.mem (fs.nodes c).data (fs.nodes c).size)) fun x _ _ outside =>
      paste_outside (by rw [window_length]; omega)
  obtain ⟨h₃, freed, held₃, kept₃, outside₃⟩ := held₂.free (List.mem_cons_of_mem p atOld)
  have kept {q : Nat} (atQ : q ∈ others ++ kids.filterMap fun d => dataOwner (fs.nodes d))
      (other : q ≠ (fs.nodes c).data) : SamePayload h h₃ q := by
    have notNew : q ≠ p := fun same => (List.nodup_cons.mp held₁.nodup).1 (same ▸ atQ)
    exact ((kept₁ q atQ).trans (kept₂ q (List.mem_cons_of_mem p atQ) notNew)).trans
      (kept₃ q (List.mem_cons_of_mem p atQ) other)
  have keptNew := kept₃ p List.mem_cons_self differ
  have owners : ((p :: (others ++ kids.filterMap fun d => dataOwner (fs.nodes d))).erase (fs.nodes c).data).Perm
      (others ++ kids.filterMap fun d => dataOwner ((fs.setNode c ((fs.nodes c).movedTo p n)).nodes d)) := by
    have swap := List.perm_middle.symm.trans ((exchange.append_left others).trans List.perm_middle)
    simpa only [List.erase_cons_head] using swap.erase (fs.nodes c).data
  have outside : SameOutside r h h₃ := fun x away => by
    have pasted : paste h₁.mem p (window h₁.mem (fs.nodes c).data (fs.nodes c).size) x = h₁.mem x :=
      paste_outside (by rw [window_length]; omega)
    exact (outside₃ x away).trans (pasted.trans (outside₁ x away))
  have newRoom : roomAt h₃ p = roomAt h₁ p := keptNew.room.trans room₂
  obtain ⟨inv', entries⟩ := inv.moved member file owns pointer (by omega) (by omega) h₃ (held₃.perm owners)
    (by omega) (fun d atD other q ownerD => kept (owner_mem atD ownerD) (inv.owner_ne atD member other ownerD owner))
    outside
  refine ⟨h₃,
    [⟨{ h₁ with mem := paste h₁.mem p (window h₁.mem (fs.nodes c).data (fs.nodes c).size) }, (fs.nodes c).data⟩],
    ?_, pointer, inv', fun q atQ => kept (List.mem_append_left _ atQ) fun same =>
      inv.owner_not_other member owner (same ▸ atQ), ?_, entries, ?_⟩
  · have used : (fs.nodes c).data ≠ 0 ∧ (fs.nodes c).size > 0 := by
      rcases file.data with ⟨_, _, iff⟩ | ⟨fixed, _⟩
      · exact ⟨data, Nat.pos_of_ne_zero fun zero => data (iff.mpr zero)⟩
      · simp [fixed] at owns
    simp only [ramfsGrow, call, Option.bind_some, if_neg pointer, if_pos used, copied, freed, Option.map_some]
    rfl
  · intro free inside
    cases List.mem_singleton.mp inside
    exact ⟨_, held₂, List.mem_cons_of_mem p atOld⟩
  · have copiedBytes := window_paste_same h₁.mem p (window h₁.mem (fs.nodes c).data (fs.nodes c).size)
    rw [window_length] at copiedBytes
    exact (keptNew.window_eq (by omega)).trans (copiedBytes.trans (oldKept.window_eq oldRoom))

/-- Growing an owned file fails without an effect, or moves it to a new block
with its bytes and frees the old one. -/
theorem grow (inv : FsInv r hello others h fs kids) {c : Fin 9} (member : c ∈ kids)
    (file : IsFile hello c (fs.nodes c)) (owns : (fs.nodes c).ownsData = true) {n : Nat}
    (larger : (fs.nodes c).size < n) (small : n ≤ 0xFFFFFFF8) :
    (memoryGranted h n = false ∧ ramfsGrow h fs c n = some (h, none, [])) ∨
      ∃ h' p frees, memoryGranted h n = true ∧ Grown r hello others h fs kids c n h' p frees := by
  rcases inv.held.malloc n with failed | ⟨h₁, p, call, pointer, held₁, room₁, kept₁, outside₁⟩
  · refine Or.inl ⟨by simp [memoryGranted, failed], ?_⟩
    simp only [ramfsGrow, failed, Option.bind_some, if_true]
  have rounded := (align8_of_le small).1
  have granted : memoryGranted h n = true := by simp [memoryGranted, call, pointer]
  by_cases null : (fs.nodes c).data = 0
  · have grown := inv.grow_first member file owns larger small null call pointer held₁ (by omega) kept₁ outside₁
    exact Or.inr ⟨h₁, p, [], granted, grown⟩
  · obtain ⟨h', frees, grown⟩ :=
      inv.grow_again member file owns larger small null call pointer held₁ (by omega) kept₁ outside₁
    exact Or.inr ⟨h', p, frees, granted, grown⟩

end FsInv

end LearningOS
