import LearningOS.Heap.Invariant

namespace LearningOS
open ByteStore Tiling

/-- The runs of the allocator, with the pointers handed out and not yet freed.
Callers free only null, addresses outside the heap or pointers they hold, and
they write only into payloads they hold. -/
inductive HeapReach (r : HeapRegion) : Heap → List Nat → Prop
  | init (m : Bytes) : HeapReach r (heapInit m r.start r.size) []
  | malloc {h h' ptrs n p} : HeapReach r h ptrs → kmalloc h n = some (h', p) →
      HeapReach r h' (if p = 0 then ptrs else p :: ptrs)
  | free {h h' ptrs p} : HeapReach r h ptrs → p = 0 ∨ p < r.start ∨ r.stop ≤ p ∨ p ∈ ptrs →
      kfree h p = some h' → HeapReach r h' (ptrs.erase p)
  | write {h ptrs p x} (v : UInt8) : HeapReach r h ptrs → p ∈ ptrs → p ≤ x →
      x < p + blockSize h.mem (p - 12) → HeapReach r { h with mem := store h.mem x v } ptrs

/-- The outstanding pointers are the payload addresses of the used blocks. -/
structure Outstanding (bs : List Block) (ptrs : List Nat) : Prop where
  mem_iff : ∀ p, p ∈ ptrs ↔ ∃ b ∈ live bs, p = b.addr + 12
  nodup : ptrs.Nodup

namespace Outstanding
variable {r : HeapRegion} {h : Heap} {bs bs' : List Block} {ptrs : List Nat}

theorem push (out : Outstanding bs ptrs) (inv : HeapInv r h bs) {n a : Nat}
    (run : take 12 20 n bs = some (a, bs')) : Outstanding bs' ((a + 12) :: ptrs) := by
  obtain ⟨b, member, free, _, atB, _, lives⟩ := live_take inv.tiles run
  refine ⟨fun p => ?_, List.nodup_cons.mpr ⟨?_, out.nodup⟩⟩
  · rw [List.mem_cons, out.mem_iff]
    constructor
    · rintro (rfl | ⟨c, used, rfl⟩)
      · exact ⟨taken 20 n b, (lives _).mpr (Or.inl rfl), by rw [atB]; rfl⟩
      · exact ⟨c, (lives c).mpr (Or.inr used), rfl⟩
    · rintro ⟨c, used, rfl⟩
      rcases (lives c).mp used with rfl | old
      · exact Or.inl (by rw [atB]; rfl)
      · exact Or.inr ⟨c, old, rfl⟩
  · intro inside
    obtain ⟨c, used, same⟩ := (out.mem_iff _).mp inside
    have equal := inv.tiles.eq_of_addr (by decide) member (mem_live.mp used).1 (by omega)
    rw [← equal, mem_live, free] at used
    simp at used

theorem drop (out : Outstanding bs ptrs) {a : Nat} :
    Outstanding (giveBack 12 a bs) (ptrs.erase (a + 12)) := by
  refine ⟨fun p => ?_, out.nodup.erase _⟩
  rw [out.nodup.mem_erase_iff, out.mem_iff]
  constructor
  · rintro ⟨differ, b, used, rfl⟩
    exact ⟨b, live_giveBack.mpr ⟨used, by omega⟩, rfl⟩
  · rintro ⟨b, used, rfl⟩
    obtain ⟨old, differ⟩ := live_giveBack.mp used
    exact ⟨by omega, b, old, rfl⟩

end Outstanding

/-- Bytes of one block's payload are in no header. -/
theorem HeapInv.payload_not_header {r : HeapRegion} {h : Heap} {bs : List Block} (inv : HeapInv r h bs)
    {b c : Block} {x : Nat} (atB : b ∈ bs) (atC : c ∈ bs) (lower : b.addr + 12 ≤ x)
    (upper : x < b.addr + 12 + b.size) : x < c.addr ∨ c.addr + 12 ≤ x := by
  rcases inv.tiles.apart atB atC with rfl | _ | _ <;> omega

/-- A write into a held payload leaves the block list alone. -/
theorem HeapInv.write {r : HeapRegion} {h : Heap} {bs : List Block} {ptrs : List Nat} (inv : HeapInv r h bs)
    (out : Outstanding bs ptrs) {p x : Nat} (v : UInt8) (held : p ∈ ptrs) (lower : p ≤ x)
    (upper : x < p + blockSize h.mem (p - 12)) : HeapInv r { h with mem := store h.mem x v } bs := by
  obtain ⟨b, used, rfl⟩ := (out.mem_iff p).mp held
  have inBs := (mem_live.mp used).1
  rw [Nat.add_sub_cancel, inv.chain.blockSize_eq inBs] at upper
  refine inv.frame fun c atC y low high => store_of_ne ?_
  have away := inv.payload_not_header inBs atC lower upper
  omega

theorem HeapReach.inv {r : HeapRegion} {h : Heap} {ptrs : List Nat} (reach : HeapReach r h ptrs)
    (nonzero : r.start ≠ 0) : ∃ bs, HeapInv r h bs ∧ Outstanding bs ptrs := by
  induction reach with
  | init m =>
    refine ⟨_, HeapInv.heapInit m nonzero, fun p => ?_, List.nodup_nil⟩
    simp [live]
  | @malloc h h' ptrs n p _ run ih =>
    obtain ⟨bs, inv, out⟩ := ih
    rcases inv.kmalloc_spec n with ⟨same, _⟩ | ⟨m', a, bs', _, taking, result, inv', _⟩
    · rw [same] at run
      cases Option.some.inj run
      exact ⟨bs, inv, by simpa using out⟩
    · rw [result] at run
      cases Option.some.inj run
      rw [if_neg (by omega)]
      exact ⟨bs', inv', out.push inv taking⟩
  | @free h h' ptrs p _ legal run ih =>
    obtain ⟨bs, inv, out⟩ := ih
    by_cases held : p ∈ ptrs
    · obtain ⟨b, used, rfl⟩ := (out.mem_iff p).mp held
      obtain ⟨m', result, inv', _⟩ := inv.kfree_live (mem_live.mp used).1
      rw [result] at run
      cases Option.some.inj run
      exact ⟨_, inv', out.drop⟩
    · rw [inv.kfree_outside (by tauto)] at run
      cases Option.some.inj run
      rw [List.erase_of_not_mem held]
      exact ⟨bs, inv, out⟩
  | @write h ptrs p x v _ held lower upper ih =>
    obtain ⟨bs, inv, out⟩ := ih
    exact ⟨bs, inv.write out v held lower upper, out⟩

/-- The pointers a run holds are those of the used blocks of its heap. -/
theorem HeapReach.outstanding {r : HeapRegion} {h : Heap} {ptrs : List Nat} {bs : List Block}
    (reach : HeapReach r h ptrs) (inv : HeapInv r h bs) : Outstanding bs ptrs := by
  obtain ⟨cs, inv', out⟩ := reach.inv inv.nonzero
  have same := inv.chain.unique inv'.chain
  subst same
  exact out

/-- In every state a run reaches from `heap_init` on a region that does not
start at the null address, the list from `heap_head` tiles the region with word
aligned headers, the outstanding pointers are exactly the payloads of the used
blocks, these overlap nothing, `heap_stats` accounts for every byte, and each
permitted call returns. -/
theorem heap_tiling_and_ownership {r : HeapRegion} {h : Heap} {ptrs : List Nat} (nonzero : r.start ≠ 0)
    (reach : HeapReach r h ptrs) :
    ∃ bs, Chain h.mem 0 h.heapHead bs ∧ bs.Pairwise (fun b c => b.addr < c.addr) ∧
      (∀ b ∈ bs, b.addr % 4 = 0) ∧ bs.IsChain (fun b c => b.addr + 12 + b.size = c.addr) ∧
      (∃ b, bs.getLast? = some b ∧ b.addr + 12 + b.size = h.heapEnd) ∧
      (∀ p, p ∈ ptrs ↔ ∃ b ∈ bs, b.free = false ∧ p = b.addr + 12) ∧ ptrs.Nodup ∧
      (∀ b ∈ bs, b.free = false → ∀ c ∈ bs, ∀ x, b.addr + 12 ≤ x → x < b.addr + 12 + b.size →
        (x < c.addr ∨ c.addr + 12 ≤ x) ∧ (c ≠ b → x < c.addr + 12 ∨ c.addr + 12 + c.size ≤ x)) ∧
      (∃ st, heapStats h = some st ∧ st.used + st.free + 12 * st.blocks = r.size) ∧
      (∀ n, ∃ h' p, kmalloc h n = some (h', p)) ∧
      (∀ p, p = 0 ∨ p < r.start ∨ r.stop ≤ p ∨ p ∈ ptrs → ∃ h', kfree h p = some h') := by
  obtain ⟨bs, inv, out⟩ := reach.inv nonzero
  have nonempty : bs ≠ [] := by
    rintro rfl
    exact nonzero inv.chain
  obtain ⟨last, atLast, stop⟩ := inv.tiles.getLast nonempty
  refine ⟨bs, inv.linked, inv.tiles.pairwise.imp fun order => by omega,
    inv.aligned, inv.tiles.links, ⟨last, atLast, by rw [inv.endEq]; exact stop⟩, ?_, out.nodup, ?_,
    inv.heapStats_spec, ?_, ?_⟩
  · intro p
    simp only [out.mem_iff, mem_live, and_assoc]
  · intro b atB _ c atC x lower upper
    refine ⟨inv.payload_not_header atB atC lower upper, fun differ => ?_⟩
    rcases inv.tiles.apart atB atC with equal | _ | _
    · exact absurd equal.symm differ
    · omega
    · omega
  · intro n
    rcases inv.kmalloc_spec n with ⟨same, _⟩ | ⟨_, _, _, _, _, result, _⟩
    · exact ⟨_, _, same⟩
    · exact ⟨_, _, result⟩
  · intro p legal
    by_cases held : p ∈ ptrs
    · obtain ⟨b, used, rfl⟩ := (out.mem_iff p).mp held
      obtain ⟨m', result, _⟩ := inv.kfree_live (mem_live.mp used).1
      exact ⟨_, result⟩
    · exact ⟨h, inv.kfree_outside (by tauto)⟩

/-- The region `kernel_main` passes to `heap_init`. -/
def kernelHeap : HeapRegion := ⟨0xC1000000, 1024 * 1024, by decide, by decide, by decide, by decide⟩

theorem HeapInv.kmalloc_takes {r : HeapRegion} {h : Heap} {bs bs' : List Block} {n a : Nat} (inv : HeapInv r h bs)
    (positive : n ≠ 0) (taking : take 12 20 (align8 n) bs = some (a, bs')) :
    ∃ h', kmalloc h n = some (h', a + 12) ∧ HeapInv r h' bs' := by
  rcases inv.kmalloc_spec n with ⟨_, zero | none⟩ | ⟨_, _, _, _, again, run, inv', _⟩
  · exact absurd zero positive
  · rw [none] at taking
    simp at taking
  · cases Option.some.inj (taking.symm.trans again)
    exact ⟨_, run, inv'⟩

/-- The heap after three requests, the second of which is freed again: a gap between two used
blocks, and the rest. -/
def gapBlocks : List Block :=
  [⟨0xC1000000, 104, false⟩, ⟨0xC1000074, 200, true⟩, ⟨0xC1000148, 56, false⟩, ⟨0xC100018C, 1048168, true⟩]

theorem kernelHeap_calls (m : Bytes) : ∃ h₁ h₂ h₃ h₄,
    kmalloc (heapInit m kernelHeap.start kernelHeap.size) 100 = some (h₁, 0xC100000C) ∧
      kmalloc h₁ 200 = some (h₂, 0xC1000080) ∧ kmalloc h₂ 50 = some (h₃, 0xC1000154) ∧
      kfree h₃ 0xC1000080 = some h₄ ∧
      HeapInv kernelHeap h₁ [⟨0xC1000000, 104, false⟩, ⟨0xC1000074, 1048448, true⟩] ∧
      HeapInv kernelHeap h₂ [⟨0xC1000000, 104, false⟩, ⟨0xC1000074, 200, false⟩, ⟨0xC1000148, 1048236, true⟩] ∧
      HeapInv kernelHeap h₄ gapBlocks := by
  have start := HeapInv.heapInit (r := kernelHeap) m (by decide)
  obtain ⟨h₁, first, inv₁⟩ := start.kmalloc_takes (n := 100) (by decide) (show take 12 20 (align8 100) _ =
    some (0xC1000000, [⟨0xC1000000, 104, false⟩, ⟨0xC1000074, 1048448, true⟩]) by decide)
  obtain ⟨h₂, second, inv₂⟩ := inv₁.kmalloc_takes (n := 200) (by decide) (show take 12 20 (align8 200) _ =
    some (0xC1000074, [⟨0xC1000000, 104, false⟩, ⟨0xC1000074, 200, false⟩, ⟨0xC1000148, 1048236, true⟩]) by decide)
  obtain ⟨h₃, third, inv₃⟩ := inv₂.kmalloc_takes (n := 50) (by decide) (show take 12 20 (align8 50) _ =
    some (0xC1000148, [⟨0xC1000000, 104, false⟩, ⟨0xC1000074, 200, false⟩, ⟨0xC1000148, 56, false⟩,
      ⟨0xC100018C, 1048168, true⟩]) by decide)
  obtain ⟨m', freed, inv₄, _⟩ := inv₃.kfree_live (b := ⟨0xC1000074, 200, false⟩) (by simp)
  exact ⟨h₁, h₂, h₃, _, first, second, third, freed, inv₁, inv₂, inv₄⟩

theorem kernelHeap_run : ∃ h, HeapReach kernelHeap h [0xC1000154, 0xC100000C] ∧ HeapInv kernelHeap h gapBlocks := by
  obtain ⟨_, _, _, h, first, second, third, freed, _, _, inv⟩ := kernelHeap_calls fun _ => 0
  have held := (((HeapReach.init fun _ => 0).malloc first).malloc second).malloc third
  exact ⟨h, held.free (by decide) freed, inv⟩

/-- After three calls of `kmalloc` and one of `kfree`. -/
theorem heap_tiling_kernelHeap :
    ∃ h, HeapReach kernelHeap h [0xC1000154, 0xC100000C] ∧ Chain h.mem 0 h.heapHead gapBlocks ∧
      gapBlocks.Pairwise (fun b c => b.addr < c.addr) ∧
      (∀ p, p ∈ [0xC1000154, 0xC100000C] ↔ ∃ b ∈ gapBlocks, b.free = false ∧ p = b.addr + 12) ∧
      ∃ st, heapStats h = some st ∧ st.used + st.free + 12 * st.blocks = 1024 * 1024 := by
  obtain ⟨h, run, inv⟩ := kernelHeap_run
  obtain ⟨bs, chain, ascending, _, _, _, owned, _, _, stats, _⟩ :=
    heap_tiling_and_ownership (r := kernelHeap) (by decide) run
  cases inv.linked.unique chain
  exact ⟨h, run, chain, ascending, owned, stats⟩

/-- At the null address `heap_head` itself reads as "no heap": the single block
`heap_init` wrote is never walked, and `heap_stats` reports nothing. -/
theorem heap_tiling_null_region :
    ∃ r : HeapRegion, HeapReach r (heapInit (fun _ => 0) r.start r.size) [] ∧
      ¬∃ st, heapStats (heapInit (fun _ => 0) r.start r.size) = some st ∧
        st.used + st.free + 12 * st.blocks = r.size := by
  refine ⟨⟨0, 24, by decide, by decide, by decide, by decide⟩, .init _, ?_⟩
  rintro ⟨st, run, total⟩
  have none : st = ⟨0, 0, 0, 0⟩ := (Option.some.inj run).symm
  subst none
  simp at total

end LearningOS
