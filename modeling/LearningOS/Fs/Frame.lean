import LearningOS.Fs.Names
import LearningOS.Fs.Simulation

namespace LearningOS
open ByteStore

namespace FsInv
variable {r : HeapRegion} {hello : Nat} {others : List Nat} {h h' : Heap} {fs fs' : Ramfs} {kids : List (Fin 9)}
  {c d : Fin 9}

/-- Equal lists of entries are equal entry by entry. -/
theorem entry_of_map_eq {m m' : Bytes} {l : List (Fin 9)} {f g : Fin 9 → RamfsNode}
    (same : (l.map fun c => entryOf m' (g c)) = l.map fun c => entryOf m (f c)) (member : c ∈ l) :
    entryOf m' (g c) = entryOf m (f c) := List.map_inj_left.mp same c member

theorem entry_of_listing_eq (same : listing h'.mem fs = listing h.mem fs) (member : c ∈ linkedNodes fs) :
    entryOf h'.mem (fs.nodes c) = entryOf h.mem (fs.nodes c) :=
  entry_of_map_eq (f := fs.nodes) (g := fs.nodes) (congrArg Listing.entries same) member

/-- Making an entry leaves those that are there. -/
theorem make_entry (inv : FsInv r hello others h fs kids) {flags : NodeType} {fill : Fin 9 → RamfsNode → RamfsNode}
    {name : List UInt8} (ok : ∀ c, KidOk hello c (fill c (blankNode name flags))) (member : c ∈ linkedNodes fs) :
    c ∈ linkedNodes (ramfsMake flags fill fs name).1 ∧ (ramfsMake flags fill fs name).1.nodes c = fs.nodes c := by
  rw [inv.tree.linked] at member
  rcases inv.tree.make ok with ⟨result, _⟩ | ⟨new, fs', _, _, result, tree, _, _, same, _⟩
  · rw [result, inv.tree.linked]
    exact ⟨member, rfl⟩
  · rw [result, tree.linked]
    exact ⟨List.mem_append_left _ member, same c member⟩

theorem ramfsUnlink_failed {name : List UInt8} {frees : List FreeCall}
    (run : ramfsUnlink h fs name = some (h', fs', -1, frees)) : h' = h := by
  unfold ramfsUnlink at run
  cases root : fs.ramfsRoot with
  | none =>
    rw [root] at run
    cases run
    rfl
  | some root' =>
    simp only [root] at run
    split at run
    · cases run
      rfl
    cases found : findChild fs root' name with
    | none =>
      rw [found] at run
      cases run
      rfl
    | some hit =>
      obtain ⟨i, child⟩ := hit
      simp only [found] at run
      split at run
      · cases run
        rfl
      · split at run
        · obtain ⟨_, _, freed⟩ := Option.map_eq_some_iff.mp run
          cases freed
        · cases run

/-- An unlink leaves the entries that stay linked. -/
theorem unlink_entry (inv : FsInv r hello others h fs kids) {name : List UInt8} {ret : Int} {frees : List FreeCall}
    (run : ramfsUnlink h fs name = some (h', fs', ret, frees)) (stays : c ∈ linkedNodes fs') :
    entryOf h'.mem (fs'.nodes c) = entryOf h.mem (fs.nodes c) := by
  rcases inv.tree.unlink_cases run with ⟨rfl, rfl⟩ | ⟨pre, d, post, rfl, hit, rfl, tree, _, _, before⟩
  · rw [ramfsUnlink_failed run]
  · have named : name ≠ [] := by
      rintro rfl
      simp [ramfsUnlink, inv.tree.ramfsRoot] at run
    have short : name.length ≤ 127 := hit ▸ (inv.tree.kid d (by simp)).name
    obtain ⟨_, _, _, _, run', done⟩ := inv.unlink name
    cases Option.some.inj (run.symm.trans run')
    have removed : (listing h.mem fs).remove name = (listing h'.mem fs', .code 0) := done.refines ⟨named, short⟩
    have taken : ((listing h.mem fs).find name).isSome = true := (inv.taken_iff name).mpr ⟨d, by simp, hit⟩
    rw [Listing.remove, if_pos taken] at removed
    have clear : ∀ e ∈ pre.map fun d => entryOf h.mem (fs.nodes d), e.name ≠ name := by
      intro e inPre
      obtain ⟨b, inside, rfl⟩ := List.mem_map.mp inPre
      exact before b inside
    have entries : (listing h'.mem fs').entries =
        ((pre ++ d :: post).map fun d => entryOf h.mem (fs.nodes d)).eraseP fun e => decide (e.name = name) := by
      rw [← congrArg (fun l => l.1.entries) removed, inv.listing_eq]
    rw [List.map_append, List.map_cons, Listing.eraseP_append clear hit, ← List.map_append] at entries
    rw [tree.linked] at stays
    simp only [listing, tree.linked] at entries
    exact entry_of_map_eq entries stays

theorem splice_nil (old : List UInt8) (offset : Nat) : splice old offset [] = old := by
  simp [splice]

/-- A store inside the data of a file changes its entry and no other. -/
theorem store_entries (inv : FsInv r hello others h fs kids) (member : d ∈ kids) (file : IsFile hello d (fs.nodes d))
    {offset n : Nat} {buffer : List UInt8} (fits : offset + buffer.length ≤ (fs.nodes d).size)
    (call : ramfsStore h fs d offset buffer = (h', fs', n)) :
    fs' = fs ∧ n = buffer.length ∧
      (∀ c ∈ kids, c ≠ d → entryOf h'.mem (fs.nodes c) = entryOf h.mem (fs.nodes c)) ∧
      entryOf h'.mem (fs.nodes d) =
        { entryOf h.mem (fs.nodes d) with bytes := splice (entryOf h.mem (fs.nodes d)).bytes offset buffer } := by
  unfold ramfsStore at call
  by_cases null : (fs.nodes d).data = 0
  · rw [if_pos null] at call
    cases call
    have empty : (fs.nodes d).size = 0 := by
      rcases file.data with ⟨_, _, iff⟩ | ⟨_, static, _⟩
      · exact iff.mp null
      · exact absurd (static.symm.trans null) inv.nonnull
    obtain rfl : buffer = [] := List.eq_nil_of_length_eq_zero (by omega)
    exact ⟨rfl, rfl, fun _ _ _ => rfl, by rw [splice_nil]⟩
  · rw [if_neg null] at call
    obtain ⟨pasted, _, _, same, own⟩ := inv.store member file null fits
    rw [pasted] at call
    cases call
    exact ⟨rfl, rfl, same, own⟩

/-- What a write does to the entries: those of other files stay, and one that is not past
the end of an owned file, or finds no memory, stores its bytes or nothing. -/
structure WriteEntries (h : Heap) (fs : Ramfs) (kids : List (Fin 9)) (d : Fin 9) (offset : Nat) (buffer : List UInt8)
    (h' : Heap) (fs' : Ramfs) (n : Nat) : Prop where
  others : ∀ c ∈ kids, c ≠ d → entryOf h'.mem (fs'.nodes c) = entryOf h.mem (fs.nodes c)
  own : (entryOf h.mem (fs.nodes d)).kind = .file →
    offset ≤ (fs.nodes d).size ∨ memoryGranted h (offset + buffer.length) = false →
      (n = 0 ∧ entryOf h'.mem (fs'.nodes d) = entryOf h.mem (fs.nodes d)) ∨
        (n ≠ 0 ∧ offset ≤ (fs.nodes d).size ∧ entryOf h'.mem (fs'.nodes d) =
          { entryOf h.mem (fs.nodes d) with bytes := splice (entryOf h.mem (fs.nodes d)).bytes offset buffer })

theorem write_idle {offset : Nat} {buffer : List UInt8} : WriteEntries h fs kids d offset buffer h fs 0 :=
  ⟨fun _ _ _ => rfl, fun _ _ => Or.inl ⟨rfl, rfl⟩⟩

/-- A store into a file as large as it has to be, after a step that only made it so. -/
theorem WriteEntries.of_store {h₁ : Heap} {fs₁ : Ramfs} (inv₁ : FsInv r hello others h₁ fs₁ kids) (member : d ∈ kids)
    (file₁ : IsFile hello d (fs₁.nodes d)) {n offset : Nat} {buffer : List UInt8}
    (fits : offset + buffer.length ≤ (fs₁.nodes d).size) (call : ramfsStore h₁ fs₁ d offset buffer = (h', fs', n))
    (same : ∀ c ∈ kids, c ≠ d → entryOf h₁.mem (fs₁.nodes c) = entryOf h.mem (fs.nodes c))
    (own : offset ≤ (fs.nodes d).size → ({ entryOf h₁.mem (fs₁.nodes d) with
        bytes := splice (entryOf h₁.mem (fs₁.nodes d)).bytes offset buffer } : Entry) =
      { entryOf h.mem (fs.nodes d) with bytes := splice (entryOf h.mem (fs.nodes d)).bytes offset buffer })
    (granted : memoryGranted h (offset + buffer.length) = false → offset ≤ (fs.nodes d).size) :
    WriteEntries h fs kids d offset buffer h' fs' n := by
  obtain ⟨rfl, rfl, others, mine⟩ := inv₁.store_entries member file₁ fits call
  refine ⟨fun c atC differ => (others c atC differ).trans (same c atC differ), fun _ fine => ?_⟩
  have inside := fine.elim id granted
  rw [own inside] at mine
  by_cases none : buffer.length = 0
  · rw [List.eq_nil_of_length_eq_zero none, splice_nil] at mine
    exact Or.inl ⟨none, mine⟩
  · exact Or.inr ⟨none, inside, mine⟩

/-- A write that begins inside the old bytes or right behind them covers what the file has
grown by. -/
theorem Grown.spliced {offset p : Nat} {buffer : List UInt8} {frees : List FreeCall}
    (grown : Grown r hello others h fs kids d (offset + buffer.length) h' p frees)
    (grows : offset + buffer.length > (fs.nodes d).size) (inside : offset ≤ (fs.nodes d).size) :
    splice (window h'.mem p (offset + buffer.length)) offset buffer =
      splice (window h.mem (fs.nodes d).data (fs.nodes d).size) offset buffer := by
  have whole : window h'.mem p (offset + buffer.length) = window h.mem (fs.nodes d).data (fs.nodes d).size ++
      window h'.mem (p + (fs.nodes d).size) (offset + buffer.length - (fs.nodes d).size) := by
    rw [← grown.bytes, ← window_add]
    congr 1
    omega
  rw [whole]
  exact splice_append (by rw [window_length]; exact inside) (by rw [window_length, window_length]; omega)

theorem write_entries (inv : FsInv r hello others h fs kids) (member : d ∈ kids) {offset n : Nat}
    {buffer : List UInt8} {frees : List FreeCall} (noWrap : offset + buffer.length < 2 ^ 32)
    (small : (fs.nodes d).ownsData = true → (fs.nodes d).size < offset + buffer.length →
      offset + buffer.length ≤ 0xFFFFFFF8)
    (run : vfsWrite h fs (some d) offset buffer = some (h', fs', n, frees)) :
    WriteEntries h fs kids d offset buffer h' fs' n := by
  rcases inv.tree.kid d member with dir | file
  · simp only [vfsWrite, dir.write, Bool.false_eq_true, if_false] at run
    cases run
    exact write_idle
  simp only [vfsWrite, file.write, if_true, ramfsWrite, file.impl, u32_of_lt noWrap] at run
  by_cases grows : offset + buffer.length > (fs.nodes d).size
  · rw [if_pos grows] at run
    rcases file.data with ⟨owns, _⟩ | ⟨fixed, _⟩
    · rw [if_pos owns] at run
      rcases inv.grow member file owns grows (small owns grows) with
        ⟨_, failed⟩ | ⟨h₁, p, frees₁, granted, grown⟩
      · rw [failed] at run
        cases run
        exact write_idle
      have atD : (fs.setNode d ((fs.nodes d).movedTo p (offset + buffer.length))).nodes d =
          (fs.nodes d).movedTo p (offset + buffer.length) := Function.update_self _ _ _
      have file₁ := file.movedTo owns grown.pointer (by omega : offset + buffer.length ≠ 0) noWrap
      rw [← atD] at file₁
      rw [grown.run] at run
      cases run
      refine .of_store grown.inv member file₁ (by rw [atD]; exact Nat.le_refl _) rfl grown.entries (fun inside => ?_)
        fun refused => absurd (granted.symm.trans refused) (by decide)
      rw [atD]
      exact congrArg (Entry.mk _ _) (grown.spliced grows inside)
    · have kind : (entryOf h.mem (fs.nodes d)).kind = .fixed := by simp [entryOf, kindOf, file.flags, fixed]
      rw [if_neg (by simp [fixed])] at run
      by_cases past : offset ≥ (fs.nodes d).size
      · rw [if_pos past] at run
        cases run
        exact write_idle
      rw [if_neg past] at run
      obtain ⟨⟨h₁, fs₁, n₁⟩, call⟩ : ∃ s, ramfsStore h fs d offset (buffer.take ((fs.nodes d).size - offset)) = s :=
        ⟨_, rfl⟩
      rw [call] at run
      cases run
      have part : (buffer.take ((fs.nodes d).size - offset)).length ≤ (fs.nodes d).size - offset :=
        List.length_take_le _ _
      obtain ⟨rfl, _, others, _⟩ := inv.store_entries member file (by omega) call
      exact ⟨others, fun file => absurd (kind.symm.trans file) (by decide)⟩
  · rw [if_neg grows] at run
    cases run
    exact .of_store inv member file (by omega) rfl (fun _ _ _ => rfl) (fun _ => rfl) fun _ => by omega

end FsInv

end LearningOS
