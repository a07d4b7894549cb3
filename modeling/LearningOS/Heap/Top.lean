import LearningOS.Heap.Client

namespace LearningOS
open ByteStore Tiling

/-- The topmost block of a heap is free and has room for `d` bytes. -/
def TopFreeBy (r : HeapRegion) (d : Nat) (bs : List Block) : Prop :=
  ∃ b ∈ bs, b.free = true ∧ b.addr + 12 + b.size = r.stop ∧ d ≤ b.size

/-- A request that leaves a header and `d` bytes of the topmost block alone: either an
earlier block serves it, or no block does, or the top block is that much larger. -/
def KeepsTopBy (d : Nat) (bs : List Block) (n : Nat) : Prop :=
  n ≠ 0 → ∀ pre b, bs = pre ++ [b] → b.free = true → align8 n ≤ b.size →
    (∀ c ∈ pre, ¬(c.free = true ∧ align8 n ≤ c.size)) → align8 n + (d + 12) ≤ b.size

variable {r : HeapRegion} {h : Heap} {d n : Nat} {bs bs' : List Block}

theorem HeapInv.last (inv : HeapInv r h bs) : ∃ pre b, bs = pre ++ [b] ∧ b.addr + 12 + b.size = r.stop := by
  have nonempty : bs ≠ [] := by
    rintro rfl
    exact inv.nonzero inv.chain
  obtain ⟨b, last, stop⟩ := inv.tiles.getLast nonempty
  obtain ⟨pre, shape⟩ := List.getLast?_eq_some_iff.mp last
  exact ⟨pre, b, shape, stop⟩

/-- A request that only the topmost block can serve. -/
theorem keepsTopBy_last_iff (pre : List Block) {b : Block} (positive : n ≠ 0) (free : b.free = true)
    (fits : align8 n ≤ b.size) (before : ∀ c ∈ pre, ¬(c.free = true ∧ align8 n ≤ c.size)) :
    KeepsTopBy d (pre ++ [b]) n ↔ align8 n + (d + 12) ≤ b.size := by
  constructor
  · intro keep
    exact keep positive pre b rfl free fits before
  · intro room _ pre' b' split _ _ _
    have parts := List.append_inj' split rfl
    rw [← (List.cons.inj parts.2).1]
    exact room

namespace TopFreeBy

/-- What is left of a topmost block that was carved is a free block at the top if
it is large enough. -/
theorem carve_iff {pre : List Block} {b : Block} (inv : HeapInv r h (pre ++ [b]))
    (stop : b.addr + 12 + b.size = r.stop) (large : 8 < d) (fits : align8 n ≤ b.size) (absent : b ∉ pre) :
    TopFreeBy r d (pre ++ carve 12 20 (align8 n) b) ↔ align8 n + (d + 12) ≤ b.size := by
  constructor
  · rintro ⟨c, inNew, freeC, stopC, sizeC⟩
    rcases List.mem_append.mp inNew with old | new
    · have same := inv.eq_of_stop (by simp [old]) (by simp : b ∈ pre ++ [b]) stopC stop
      exact absurd (same ▸ old) absent
    · unfold carve at new
      split at new
      · simp only [List.mem_cons, List.not_mem_nil, or_false] at new
        rcases new with rfl | rfl
        · simp at freeC
        · simp only at sizeC
          omega
      · simp only [List.mem_cons, List.not_mem_nil, or_false] at new
        subst c
        simp at freeC
  · intro room
    refine ⟨⟨b.addr + 12 + align8 n, b.size - align8 n - 12, true⟩, ?_, rfl, ?_, ?_⟩
    · simp [carve, show 20 < b.size - align8 n by omega]
    · simp only
      omega
    · simp only
      omega

/-- A step of `kmalloc` keeps the top free exactly when the request allows it. -/
theorem take_iff {a : Nat} (inv : HeapInv r h bs) (top : TopFreeBy r d bs) (large : 8 < d) (positive : n ≠ 0)
    (run : take 12 20 (align8 n) bs = some (a, bs')) : TopFreeBy r d bs' ↔ KeepsTopBy d bs n := by
  obtain ⟨pre, b, post, rfl, free, fits, _, rfl, before⟩ := take_split run
  obtain ⟨t, inBs, freeT, stop, size⟩ := top
  obtain ⟨mid, _, tilesRest⟩ := tiles_append.mp inv.tiles
  by_cases last : post = []
  · -- The request is served from the topmost block.
    subst last
    obtain ⟨_, _, shape, stopLast⟩ := inv.last
    have shape' := List.append_inj' shape rfl
    have sameLast : b = _ := (List.cons.inj shape'.2).1
    subst sameLast
    rw [keepsTopBy_last_iff pre positive free fits before, List.append_nil]
    exact carve_iff inv stopLast large fits fun old => before b old ⟨free, fits⟩
  · -- The topmost block is behind the served one and stays as it is.
    obtain ⟨c, atLast, stopC⟩ := tilesRest.2.getLast last
    have inPost : c ∈ post := List.mem_of_getLast? atLast
    have sameTop : t = c := inv.eq_of_stop inBs (by simp [inPost]) stop stopC
    subst sameTop
    refine iff_of_true ⟨t, by simp [inPost], freeT, stop, size⟩ ?_
    intro _ pre' b' split _ _ misfit
    have inPre : b ∈ pre' := by
      have front : pre ++ b :: post = (pre ++ b :: post.dropLast) ++ [post.getLast last] := by
        rw [List.append_assoc, List.cons_append, List.dropLast_append_getLast]
      rw [front] at split
      rw [← (List.append_inj' split rfl).1]
      simp
    exact absurd ⟨free, fits⟩ (misfit b inPre)

/-- A request that fits into the free top with room to spare. -/
theorem keeps (inv : HeapInv r h bs) (top : TopFreeBy r (align8 n + (d + 12)) bs) : KeepsTopBy d bs n := by
  obtain ⟨t, inBs, _, stop, size⟩ := top
  intro _ pre b split _ _ _
  subst split
  obtain ⟨pre', b', shape, atTop⟩ := inv.last
  have last : b = b' := (List.cons.inj (List.append_inj' shape rfl).2).1
  subst last
  rw [← inv.eq_of_stop inBs (by simp) stop atTop]
  exact size

theorem giveBack {a : Nat} (inv : HeapInv r h bs) (top : TopFreeBy r d bs) : TopFreeBy r d (giveBack 12 a bs) := by
  obtain ⟨t, inBs, free, stop, size⟩ := top
  obtain ⟨c, inside, freeC, lower, upper⟩ := giveBack_covers (a := a) inv.tiles inBs free
  have bound := ((giveBack_tiles (a := a) inv.tiles).bounds inside).2
  exact ⟨c, inside, freeC, by omega, by omega⟩

/-- The free bytes at the top hold no header. -/
theorem not_header (inv : HeapInv r h bs) (top : TopFreeBy r d bs) {c : Block} (member : c ∈ bs) {x : Nat}
    (above : r.stop - d ≤ x) : x < c.addr ∨ c.addr + 12 ≤ x := by
  obtain ⟨t, inBs, _, stop, size⟩ := top
  have bound := (inv.tiles.bounds member).2
  rcases inv.tiles.apart member inBs with rfl | _ | _
  · omega
  · omega
  · omega

end TopFreeBy

/-- Exactly the pointers `ptrs` are allocated, and the last `d` bytes are free. -/
structure HeldBelow (r : HeapRegion) (d : Nat) (h : Heap) (ptrs : List Nat) : Prop where
  held : Held r h ptrs
  top : ∀ bs, HeapInv r h bs → TopFreeBy r d bs

namespace HeldBelow
variable {ptrs : List Nat} {h' : Heap}

theorem perm (below : HeldBelow r d h ptrs) {ptrs' : List Nat} (perm : ptrs.Perm ptrs') : HeldBelow r d h ptrs' :=
  ⟨below.held.perm perm, below.top⟩

/-- A held payload ends before the header of the topmost block. -/
theorem ends (below : HeldBelow r d h ptrs) {p : Nat} (member : p ∈ ptrs) : p + roomAt h p + 12 + d ≤ r.stop := by
  obtain ⟨bs, inv, out⟩ := below.held
  obtain ⟨b, used, rfl⟩ := (out.mem_iff p).mp member
  obtain ⟨inBs, notFree⟩ := mem_live.mp used
  obtain ⟨t, inT, free, stop, size⟩ := below.top bs inv
  have bound := (inv.tiles.bounds inBs).2
  rw [inv.roomAt_eq inBs]
  rcases inv.tiles.apart inBs inT with rfl | _ | _
  · simp [free] at notFree
  · omega
  · omega

/-- Memory may change outside the region, in held payloads and in the free bytes at
the top. -/
theorem poke (below : HeldBelow r d h ptrs) (m' : Bytes)
    (spare : ∀ x, m' x ≠ h.mem x → x < r.start ∨ r.stop - d ≤ x ∨ ∃ p ∈ ptrs, p ≤ x ∧ x < p + roomAt h p) :
    HeldBelow r d { h with mem := m' } ptrs ∧ ∀ p ∈ ptrs, roomAt { h with mem := m' } p = roomAt h p := by
  obtain ⟨bs, inv, out⟩ := below.held
  have top := below.top bs inv
  have inv' : HeapInv r { h with mem := m' } bs := by
    refine inv.frame fun c atC x low high => ?_
    have bounds := inv.tiles.bounds atC
    by_contra changed
    rcases spare x changed with before | above | ⟨p, held, lower, upper⟩
    · omega
    · rcases top.not_header inv atC above with _ | _
      · omega
      · omega
    · obtain ⟨b, used, rfl⟩ := (out.mem_iff p).mp held
      have inBs := (mem_live.mp used).1
      rw [inv.roomAt_eq inBs] at upper
      rcases inv.payload_not_header inBs atC lower upper with _ | _
      · omega
      · omega
  refine ⟨⟨⟨bs, inv', out⟩, fun cs again => ?_⟩, fun p held => ?_⟩
  · rw [← inv'.linked.unique again.linked]
    exact top
  · obtain ⟨b, used, rfl⟩ := (out.mem_iff p).mp held
    have inBs := (mem_live.mp used).1
    rw [inv'.roomAt_eq inBs, inv.roomAt_eq inBs]

/-- `kmalloc` of a request that keeps the top free does not touch it. -/
theorem malloc (below : HeldBelow r d h ptrs) (large : 8 < d) (keeps : ∀ bs, HeapInv r h bs → KeepsTopBy d bs n) :
    kmalloc h n = some (h, 0) ∨ ∃ h' p, kmalloc h n = some (h', p) ∧ p ≠ 0 ∧ HeldBelow r d h' (p :: ptrs) ∧
      align8 n ≤ roomAt h' p ∧ (∀ q ∈ ptrs, SamePayload h h' q) ∧ SameOutside r h h' ∧
      ∀ x, r.stop - d ≤ x → h'.mem x = h.mem x := by
  rcases below.held.malloc n with failed | ⟨h', p, run, pointer, held', room, kept, outside⟩
  · exact Or.inl failed
  obtain ⟨bs, inv, out⟩ := below.held
  have top := below.top bs inv
  rcases inv.kmalloc_spec n with ⟨failed, _⟩ | ⟨m', a, bs', positive, taking, result, inv', _⟩
  · exact Or.inl failed
  cases Option.some.inj (run.symm.trans result)
  have top' : TopFreeBy r d bs' := (top.take_iff inv large positive taking).mpr (keeps bs inv)
  refine Or.inr ⟨_, _, run, pointer, ⟨held', fun cs again => ?_⟩, room, kept, outside, fun x above => ?_⟩
  · rw [← inv'.linked.unique again.linked]
    exact top'
  · exact inv.kmalloc_headers run taking fun c atC => top'.not_header inv' atC above

/-- `kfree` of a held pointer does not touch the free bytes at the top. -/
theorem free (below : HeldBelow r d h ptrs) {p : Nat} (member : p ∈ ptrs) :
    ∃ h', kfree h p = some h' ∧ HeldBelow r d h' (ptrs.erase p) ∧ (∀ q ∈ ptrs, q ≠ p → SamePayload h h' q) ∧
      SameOutside r h h' ∧ ∀ x, r.stop - d ≤ x → h'.mem x = h.mem x := by
  obtain ⟨h', run, held', kept, outside⟩ := below.held.free member
  obtain ⟨bs, inv, out⟩ := below.held
  obtain ⟨b, used, rfl⟩ := (out.mem_iff p).mp member
  obtain ⟨m', result, inv', frame⟩ := inv.kfree_live (mem_live.mp used).1
  have top := below.top bs inv
  cases Option.some.inj (run.symm.trans result)
  refine ⟨_, run, ⟨held', fun cs again => ?_⟩, kept, outside, fun x above => ?_⟩
  · rw [← inv'.linked.unique again.linked]
    exact top.giveBack inv
  · exact frame x fun c atC => top.not_header inv atC above

theorem init (m : Bytes) (nonzero : r.start ≠ 0) (fits : d + 12 ≤ r.size) :
    HeldBelow r d (heapInit m r.start r.size) [] := by
  refine ⟨Held.init m nonzero, fun bs inv => ?_⟩
  have first := HeapInv.heapInit m nonzero
  rw [← first.linked.unique inv.linked]
  refine ⟨_, List.mem_singleton_self _, rfl, ?_, ?_⟩
  · simp only [HeapRegion.stop]
    omega
  · simp only
    omega

end HeldBelow

end LearningOS
