import LearningOS.Heap.Reach
import LearningOS.Store.Copy
import Mathlib.Data.List.Nodup

namespace LearningOS
open ByteStore Tiling

/-- The heap as its clients see it: exactly the pointers `ptrs` are allocated. -/
def Held (r : HeapRegion) (h : Heap) (ptrs : List Nat) : Prop :=
  ∃ bs, HeapInv r h bs ∧ Outstanding bs ptrs

/-- The size of the block behind a payload pointer. -/
def roomAt (h : Heap) (p : Nat) : Nat := blockSize h.mem (p - 12)

/-- Owners listed by index: if only the index `i` changes its pointer, the two
lists differ by its old and its new one. -/
theorem owners_exchange {ι : Type} {l : List ι} {f g : ι → Option Nat} {i : ι} (nodup : l.Nodup) (member : i ∈ l)
    (same : ∀ j ∈ l, j ≠ i → g j = f j) : ((f i).toList ++ l.filterMap g).Perm ((g i).toList ++ l.filterMap f) := by
  obtain ⟨pre, post, rfl⟩ := List.append_of_mem member
  rw [List.nodup_middle, List.nodup_cons] at nodup
  have agree (part : List ι) (inside : ∀ j ∈ part, j ∈ pre ++ post) : part.filterMap g = part.filterMap f :=
    List.filterMap_congr fun j atJ => same j (by have := inside j atJ; simp at this ⊢; tauto)
      fun equal => nodup.1 (equal ▸ inside j atJ)
  rw [List.filterMap_append, List.filterMap_append, List.filterMap_cons, List.filterMap_cons,
    agree pre (by simp +contextual), agree post (by simp +contextual)]
  cases f i with
  | none =>
    cases g i with
    | none => exact .refl _
    | some q => exact List.perm_middle
  | some p =>
    cases g i with
    | none => exact (@List.perm_middle _ p (pre.filterMap f) (post.filterMap f)).symm
    | some q =>
      refine (List.perm_middle.cons p).trans ((List.Perm.swap q p _).trans ?_)
      exact (@List.perm_middle _ p (pre.filterMap f) (post.filterMap f)).symm.cons q

/-- Different indices own different pointers if no pointer is listed twice. -/
theorem owners_ne {ι : Type} {l : List ι} {f : ι → Option Nat} {i j : ι} {p q : Nat} (nodup : (l.filterMap f).Nodup)
    (atI : i ∈ l) (atJ : j ∈ l) (differ : i ≠ j) (ownerI : f i = some p) (ownerJ : f j = some q) : p ≠ q := by
  rintro rfl
  obtain ⟨pre, post, rfl⟩ := List.append_of_mem atI
  have inRest : j ∈ pre ++ post := by
    simp only [List.mem_append, List.mem_cons] at atJ ⊢
    rcases atJ with left | same | right
    · exact Or.inl left
    · exact absurd same.symm differ
    · exact Or.inr right
  simp only [List.filterMap_append, List.filterMap_cons, ownerI] at nodup
  rw [List.nodup_middle, List.nodup_cons, ← List.filterMap_append] at nodup
  exact nodup.1 (List.mem_filterMap.mpr ⟨j, inRest, ownerJ⟩)

/-- Block and payload of a pointer are the same in two heaps. -/
structure SamePayload (h h' : Heap) (p : Nat) : Prop where
  room : roomAt h' p = roomAt h p
  bytes : ∀ x, p ≤ x → x < p + roomAt h p → h'.mem x = h.mem x

namespace SamePayload
variable {h h' h'' : Heap} {p : Nat}

theorem refl (h : Heap) (p : Nat) : SamePayload h h p := ⟨rfl, fun _ _ _ => rfl⟩

theorem trans (first : SamePayload h h' p) (second : SamePayload h' h'' p) : SamePayload h h'' p :=
  ⟨second.room.trans first.room, fun x lower upper =>
    (second.bytes x lower (by rw [first.room]; exact upper)).trans (first.bytes x lower upper)⟩

theorem window_eq (same : SamePayload h h' p) {n : Nat} (fits : n ≤ roomAt h p) :
    window h'.mem p n = window h.mem p n :=
  window_congr fun x lower upper => same.bytes x lower (by omega)

end SamePayload

/-- Bytes outside the region are the same in two heaps. -/
def SameOutside (r : HeapRegion) (h h' : Heap) : Prop := ∀ x, x < r.start ∨ r.stop ≤ x → h'.mem x = h.mem x

theorem HeapInv.roomAt_eq {r : HeapRegion} {h : Heap} {bs : List Block} (inv : HeapInv r h bs) {b : Block}
    (member : b ∈ bs) : roomAt h (b.addr + 12) = b.size := by
  rw [roomAt, Nat.add_sub_cancel]
  exact inv.chain.blockSize_eq member

namespace Held
variable {r : HeapRegion} {h : Heap} {ptrs : List Nat}

theorem init (m : Bytes) (nonzero : r.start ≠ 0) : Held r (heapInit m r.start r.size) [] :=
  ⟨_, HeapInv.heapInit m nonzero, fun p => by simp [live], List.nodup_nil⟩

theorem nodup (held : Held r h ptrs) : ptrs.Nodup := by
  obtain ⟨bs, _, out⟩ := held
  exact out.nodup

theorem perm (held : Held r h ptrs) {ptrs' : List Nat} (perm : ptrs.Perm ptrs') : Held r h ptrs' := by
  obtain ⟨bs, inv, out⟩ := held
  exact ⟨bs, inv, fun p => by rw [← perm.mem_iff, out.mem_iff], perm.nodup_iff.mp out.nodup⟩

/-- A held payload lies in the region behind a header. -/
theorem bounds (held : Held r h ptrs) {p : Nat} (member : p ∈ ptrs) :
    r.start + 12 ≤ p ∧ p + roomAt h p ≤ r.stop := by
  obtain ⟨bs, inv, out⟩ := held
  obtain ⟨b, used, rfl⟩ := (out.mem_iff p).mp member
  have inBs := (mem_live.mp used).1
  have bounds := inv.tiles.bounds inBs
  rw [inv.roomAt_eq inBs]
  omega

/-- Payloads of different held pointers do not meet. -/
theorem apart (held : Held r h ptrs) {p q : Nat} (atP : p ∈ ptrs) (atQ : q ∈ ptrs) (differ : p ≠ q) :
    p + roomAt h p ≤ q ∨ q + roomAt h q ≤ p := by
  obtain ⟨bs, inv, out⟩ := held
  obtain ⟨b, usedB, rfl⟩ := (out.mem_iff p).mp atP
  obtain ⟨c, usedC, rfl⟩ := (out.mem_iff q).mp atQ
  have inB := (mem_live.mp usedB).1
  have inC := (mem_live.mp usedC).1
  rw [inv.roomAt_eq inB, inv.roomAt_eq inC]
  rcases inv.tiles.apart inB inC with rfl | _ | _
  · exact absurd rfl differ
  · omega
  · omega

/-- Memory may change in the payload of one held pointer and outside the region. -/
theorem poke (held : Held r h ptrs) {p : Nat} (member : p ∈ ptrs) (m' : Bytes)
    (same : ∀ x, r.start ≤ x → x < r.stop → x < p ∨ p + roomAt h p ≤ x → m' x = h.mem x) :
    Held r { h with mem := m' } ptrs ∧ roomAt { h with mem := m' } p = roomAt h p ∧
      ∀ q ∈ ptrs, q ≠ p → SamePayload h { h with mem := m' } q := by
  obtain ⟨bs, inv, out⟩ := held
  obtain ⟨b, used, rfl⟩ := (out.mem_iff p).mp member
  have inBs := (mem_live.mp used).1
  have room := inv.roomAt_eq inBs
  have header (c : Block) (atC : c ∈ bs) (x : Nat) (low : c.addr ≤ x) (high : x < c.addr + 12) : m' x = h.mem x := by
    have bounds := inv.tiles.bounds atC
    refine same x (by omega) (by omega) ?_
    rw [room]
    rcases inv.tiles.apart inBs atC with rfl | _ | _ <;> omega
  have inv' := inv.frame header
  refine ⟨⟨bs, inv', out⟩, ?_, fun q atQ differ => ?_⟩
  · rw [inv'.roomAt_eq inBs, room]
  · obtain ⟨c, usedC, rfl⟩ := (out.mem_iff q).mp atQ
    have inC := (mem_live.mp usedC).1
    have boundsC := inv.tiles.bounds inC
    refine ⟨by rw [inv'.roomAt_eq inC, inv.roomAt_eq inC], fun x low high => ?_⟩
    rw [inv.roomAt_eq inC] at high
    refine same x (by omega) (by omega) ?_
    rw [room]
    rcases inv.tiles.apart inBs inC with rfl | _ | _
    · exact absurd rfl differ
    · omega
    · omega

/-- Memory outside the region is of no concern. -/
theorem pokeOutside (held : Held r h ptrs) (m' : Bytes) (same : ∀ x, r.start ≤ x → x < r.stop → m' x = h.mem x) :
    Held r { h with mem := m' } ptrs ∧ ∀ q ∈ ptrs, SamePayload h { h with mem := m' } q := by
  obtain ⟨bs, inv, out⟩ := held
  have inv' : HeapInv r { h with mem := m' } bs := inv.frame fun c atC x low high => by
    have bounds := inv.tiles.bounds atC
    exact same x (by omega) (by omega)
  refine ⟨⟨bs, inv', out⟩, fun q atQ => ?_⟩
  obtain ⟨c, used, rfl⟩ := (out.mem_iff q).mp atQ
  have inC := (mem_live.mp used).1
  have bounds := inv.tiles.bounds inC
  refine ⟨by rw [inv'.roomAt_eq inC, inv.roomAt_eq inC], fun x low high => ?_⟩
  rw [inv.roomAt_eq inC] at high
  exact same x (by omega) (by omega)

/-- `kmalloc` fails without an effect, or hands out a new pointer with room for
the rounded size and leaves every held payload alone. -/
theorem malloc (held : Held r h ptrs) (n : Nat) :
    kmalloc h n = some (h, 0) ∨ ∃ h' p, kmalloc h n = some (h', p) ∧ p ≠ 0 ∧ Held r h' (p :: ptrs) ∧
      align8 n ≤ roomAt h' p ∧ (∀ q ∈ ptrs, SamePayload h h' q) ∧ SameOutside r h h' := by
  obtain ⟨bs, inv, out⟩ := held
  rcases inv.kmalloc_spec n with ⟨same, _⟩ | ⟨m', a, bs', _, taking, result, inv', b, inBs, free, rfl, frame⟩
  · exact Or.inl same
  have bounds := inv.tiles.bounds inBs
  have out' := out.push inv taking
  obtain ⟨c, _, _, fits, atC, new, lives⟩ := live_take inv.tiles taking
  have newRoom := inv'.roomAt_eq new
  refine Or.inr ⟨_, _, result, by omega, ⟨bs', inv', out'⟩, ?_, fun q atQ => ?_, fun x outside => frame x (by omega)⟩
  · have addr : (taken 20 (align8 n) c).addr = b.addr := atC.symm
    rw [addr] at newRoom
    rw [newRoom]
    unfold taken
    split
    · exact le_rfl
    · exact fits
  · obtain ⟨d, used, rfl⟩ := (out.mem_iff q).mp atQ
    have inD := (mem_live.mp used).1
    have inD' : d ∈ bs' := (mem_live.mp ((lives d).mpr (Or.inr used))).1
    refine ⟨by rw [inv'.roomAt_eq inD', inv.roomAt_eq inD], fun x low high => ?_⟩
    rw [inv.roomAt_eq inD] at high
    refine frame x ?_
    rcases inv.tiles.apart inD inBs with rfl | _ | _
    · rw [mem_live, free] at used
      simp at used
    · omega
    · omega

/-- `kfree` of a held pointer releases it and leaves the others alone. -/
theorem free (held : Held r h ptrs) {p : Nat} (member : p ∈ ptrs) :
    ∃ h', kfree h p = some h' ∧ Held r h' (ptrs.erase p) ∧ (∀ q ∈ ptrs, q ≠ p → SamePayload h h' q) ∧
      SameOutside r h h' := by
  obtain ⟨bs, inv, out⟩ := held
  obtain ⟨b, used, rfl⟩ := (out.mem_iff p).mp member
  have inBs := (mem_live.mp used).1
  obtain ⟨m', result, inv', frame⟩ := inv.kfree_live inBs
  refine ⟨_, result, ⟨_, inv', out.drop⟩, fun q atQ differ => ?_, fun x outside => frame x fun c atC => ?_⟩
  · obtain ⟨c, usedC, rfl⟩ := (out.mem_iff q).mp atQ
    have inC := (mem_live.mp usedC).1
    have inC' := (mem_live.mp (live_giveBack.mpr ⟨usedC, by omega⟩ : c ∈ live (giveBack 12 b.addr bs))).1
    refine ⟨by rw [inv'.roomAt_eq inC', inv.roomAt_eq inC], fun x low high => frame x fun d atD => ?_⟩
    rw [inv.roomAt_eq inC] at high
    exact inv.payload_not_header inC atD low high
  · have bounds := inv.tiles.bounds atC
    omega

/-- In the list of blocks that is one block given back. -/
theorem kfree_blocks (held : Held r h ptrs) {p : Nat} (member : p ∈ ptrs) {h' : Heap} (run : kfree h p = some h') :
    ∃ b ∈ h.blocks, b.free = false ∧ h'.blocks = giveBack 12 b.addr h.blocks := by
  obtain ⟨bs, inv, out⟩ := held
  obtain ⟨b, used, rfl⟩ := (out.mem_iff p).mp member
  obtain ⟨inBs, notFree⟩ := mem_live.mp used
  obtain ⟨m', freed, inv', _⟩ := inv.kfree_live inBs
  cases Option.some.inj (run.symm.trans freed)
  rw [inv.blocks_listed, inv'.blocks_listed]
  exact ⟨b, inBs, notFree, rfl⟩

end Held

end LearningOS
