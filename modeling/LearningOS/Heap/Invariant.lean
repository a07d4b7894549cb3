import LearningOS.Heap.Chain

namespace LearningOS
open ByteStore Tiling

/-- The arguments `heap_init` is meant for: word aligned, room for two headers,
and an end address that fits in 32 bits. -/
structure HeapRegion where
  start : Nat
  size : Nat
  startAligned : start % 4 = 0
  sizeAligned : size % 4 = 0
  large : 24 ≤ size
  fits : start + size < 2 ^ 32

namespace HeapRegion

def stop (r : HeapRegion) : Nat := r.start + r.size

theorem stop_lt (r : HeapRegion) : r.stop < 2 ^ 32 := r.fits

end HeapRegion

/-- The state of an initialised heap over a region: the linked headers are the
blocks `bs`, they tile the region and no two neighbours are free. -/
structure HeapInv (r : HeapRegion) (h : Heap) (bs : List Block) : Prop where
  startEq : h.heapStart = r.start
  endEq : h.heapEnd = r.stop
  headEq : h.heapHead = r.start
  nonzero : r.start ≠ 0
  chain : Chain h.mem 0 r.start bs
  tiles : Tiles 12 r.start r.stop bs
  aligned : ∀ b ∈ bs, b.addr % 4 = 0
  room : ∀ b ∈ bs, b.addr + 12 < r.stop
  canonical : Canonical bs

namespace HeapInv
variable {r : HeapRegion} {h : Heap} {bs : List Block}

/-- The list from `heap_head` is the list of blocks. -/
theorem linked (inv : HeapInv r h bs) : Chain h.mem 0 h.heapHead bs := by
  rw [inv.headEq]
  exact inv.chain

/-- Only one block ends where the heap ends. -/
theorem eq_of_stop (inv : HeapInv r h bs) {b c : Block} (atB : b ∈ bs) (atC : c ∈ bs)
    (stopB : b.addr + 12 + b.size = r.stop) (stopC : c.addr + 12 + c.size = r.stop) : b = c := by
  have roomB := inv.room b atB
  have roomC := inv.room c atC
  rcases inv.tiles.apart atB atC with equal | _ | _
  · exact equal
  · omega
  · omega

theorem length_lt (inv : HeapInv r h bs) : bs.length < walkLimit := by
  have bound := inv.tiles.length_le
  have small := r.stop_lt
  unfold walkLimit
  omega

theorem blocks_listed (inv : HeapInv r h bs) : h.blocks = bs := inv.linked.linkedBlocks_eq inv.length_lt

theorem heapInit (m : Bytes) (nonzero : r.start ≠ 0) :
    HeapInv r (heapInit m r.start r.size) [⟨r.start, r.size - 12, true⟩] := by
  have large := r.large
  have fits := r.fits
  have size : sub32 r.size 12 = r.size - 12 := sub32_of_le (by omega) (by omega)
  refine ⟨rfl, u32_of_lt fits, rfl, nonzero, ?_, ?_, ?_, ?_, List.isChain_singleton _⟩
  · simp only [LearningOS.heapInit, Chain, blockSize, blockNext, blockFree, size]
    simp (disch := omega) only [load32_store32_same, load32_store32_other, Nat.mod_eq_of_lt]
    simp [nonzero]
  · refine ⟨rfl, ?_⟩
    show r.start + 12 + (r.size - 12) = r.stop
    unfold HeapRegion.stop
    omega
  · simpa using r.startAligned
  · simp only [List.mem_singleton, forall_eq, HeapRegion.stop]
    omega

/-- Memory outside the headers is of no concern to the allocator. -/
theorem frame (inv : HeapInv r h bs) {m' : Bytes}
    (same : ∀ b ∈ bs, ∀ x, b.addr ≤ x → x < b.addr + 12 → m' x = h.mem x) :
    HeapInv r { h with mem := m' } bs :=
  { inv with chain := inv.chain.frame same }

/-- The carved list is linked in memory after the fitting branch. -/
theorem takeBlock_links (inv : HeapInv r h bs) {pre post : List Block} {b : Block} {n : Nat}
    (split : bs = pre ++ b :: post) (fits : n ≤ b.size) :
    Chain (takeBlock h.mem b.addr n) 0 r.start (pre ++ (carve 12 20 n b ++ post)) := by
  have member : b ∈ bs := by simp [split]
  have bound := (inv.tiles.bounds member).2
  have small := r.stop_lt
  have chain := inv.chain
  have tiles := inv.tiles
  rw [split] at chain tiles
  obtain ⟨y, before, rest⟩ := chain_append.mp chain
  obtain ⟨mid, tilesPre, tilesRest⟩ := tiles_append.mp tiles
  have atY : y = b.addr := rest.start_eq
  subst y
  have sizeAt : blockSize h.mem b.addr = b.size := rest.2.2.1
  have outside {x : Nat} := takeBlock_outside (x := x) sizeAt (by omega) fits
  obtain ⟨z, single, after⟩ := chain_append.mp (show Chain h.mem 0 b.addr ([b] ++ post) from rest)
  refine chain_append.mpr ⟨b.addr, ?_, chain_append.mpr ⟨z, takeBlock_chain single (by omega) fits, ?_⟩⟩
  · refine before.frame fun c inPre x _ upper => outside (Or.inl ?_)
    have stop := (tilesPre.bounds inPre).2
    have atMid := tilesRest.1
    omega
  · refine after.frame fun c inPost x lower _ => outside (Or.inr ?_)
    have start := (tilesRest.2.bounds inPost).1
    have atMid := tilesRest.1
    omega

/-- `kmalloc` finds no block and changes nothing, or takes the first that fits. -/
theorem kmalloc_cases (inv : HeapInv r h bs) (n : Nat) :
    (kmalloc h n = some (h, 0) ∧ (n = 0 ∨ take 12 20 (align8 n) bs = none)) ∨
      ∃ pre b post, n ≠ 0 ∧ bs = pre ++ b :: post ∧ b.free = true ∧ align8 n ≤ b.size ∧
        blockSize h.mem b.addr = b.size ∧
        take 12 20 (align8 n) bs = some (b.addr, pre ++ (carve 12 20 (align8 n) b ++ post)) ∧
        kmalloc h n = some ({ h with mem := takeBlock h.mem b.addr (align8 n) }, b.addr + 12) := by
  by_cases zero : n = 0
  · exact Or.inl ⟨by simp [kmalloc, zero], Or.inl zero⟩
  have unfolded : kmalloc h n = (kmallocLoop (align8 n) walkLimit h.mem r.start).map
      fun p => ({ h with mem := p.1 }, p.2) := by
    rw [kmalloc, inv.headEq, if_neg (by simp [zero, inv.nonzero])]
  rcases kmallocLoop_spec (n := align8 n) inv.chain inv.tiles r.stop_lt inv.length_lt with
    ⟨none, run⟩ | ⟨pre, b, post, split, free, fits, before, run⟩
  · refine Or.inl ⟨?_, Or.inr (take_eq_none.mpr none)⟩
    rw [unfolded, run]
    rfl
  · have taking : take 12 20 (align8 n) bs = some (b.addr, pre ++ (carve 12 20 (align8 n) b ++ post)) := by
      rw [split]
      exact take_append before free fits
    have member : b ∈ bs := by simp [split]
    exact Or.inr ⟨pre, b, post, zero, split, free, fits, inv.chain.blockSize_eq member, taking,
      by rw [unfolded, run]; rfl⟩

/-- `kmalloc` either finds no block and changes nothing, or is first fit; then
only bytes of the block it hands out change. -/
theorem kmalloc_spec (inv : HeapInv r h bs) (n : Nat) :
    (kmalloc h n = some (h, 0) ∧ (n = 0 ∨ take 12 20 (align8 n) bs = none)) ∨
      ∃ m' a bs', n ≠ 0 ∧ take 12 20 (align8 n) bs = some (a, bs') ∧
        kmalloc h n = some ({ h with mem := m' }, a + 12) ∧ HeapInv r { h with mem := m' } bs' ∧
        ∃ b ∈ bs, b.free = true ∧ b.addr = a ∧ ∀ x, x < a ∨ a + 12 + b.size ≤ x → m' x = h.mem x := by
  rcases inv.kmalloc_cases n with none | ⟨pre, b, post, positive, split, free, fits, size, taking, run⟩
  · exact Or.inl none
  · have member : b ∈ bs := by simp [split]
    have bound := (inv.tiles.bounds member).2
    have small := r.stop_lt
    refine Or.inr ⟨_, _, _, positive, taking, run, ?_, b, member, free, rfl, fun x outside => ?_⟩
    · refine ⟨inv.startEq, inv.endEq, inv.headEq, inv.nonzero, inv.takeBlock_links split fits,
        take_tiles (by decide) inv.tiles taking, ?_, ?_, take_canonical inv.canonical taking⟩
      · refine take_addr (P := fun a => a % 4 = 0) inv.aligned (fun c inBs _ => ?_) taking
        have old := inv.aligned c inBs
        have eight := align8_mod n
        omega
      · refine take_addr (P := fun a => a + 12 < r.stop) inv.room (fun c inBs large => ?_) taking
        have stop := (inv.tiles.bounds inBs).2
        omega
    · exact takeBlock_outside size (by omega) fits outside

/-- Only headers of the new block list change in `kmalloc`. -/
theorem kmalloc_headers (inv : HeapInv r h bs) {h' : Heap} {bs' : List Block} {n p a x : Nat}
    (run : kmalloc h n = some (h', p)) (taking : take 12 20 (align8 n) bs = some (a, bs'))
    (outside : ∀ c ∈ bs', x < c.addr ∨ c.addr + 12 ≤ x) : h'.mem x = h.mem x := by
  rcases inv.kmalloc_cases n with ⟨none, _⟩ | ⟨pre, b, post, _, split, _, fits, size, taking', run'⟩
  · cases Option.some.inj (run.symm.trans none)
    rfl
  · cases Option.some.inj (run.symm.trans run')
    cases Option.some.inj (taking.symm.trans taking')
    have bound := (inv.tiles.bounds (show b ∈ bs by simp [split])).2
    have small := r.stop_lt
    exact takeBlock_headers size (by omega) fits fun c atC => outside c (by simp [atC])

/-- `kfree` of a used block gives it back and merges; only headers change. -/
theorem kfree_live (inv : HeapInv r h bs) {b : Block} (member : b ∈ bs) :
    ∃ m', kfree h (b.addr + 12) = some { h with mem := m' } ∧
      HeapInv r { h with mem := m' } (giveBack 12 b.addr bs) ∧
      ∀ x, (∀ c ∈ bs, x < c.addr ∨ c.addr + 12 ≤ x) → m' x = h.mem x := by
  have bounds := inv.tiles.bounds member
  have room := inv.room b member
  have small := r.stop_lt
  have marked := markFree_chain inv.chain inv.tiles (fun _ inBs => inBs) member
  have tiled := markFree_tiles (a := b.addr) inv.tiles
  have length : (markFree b.addr bs).length = bs.length := by simp [markFree]
  have short := inv.length_lt
  obtain ⟨c, cs, shape⟩ : ∃ c cs, markFree b.addr bs = c :: cs := by
    cases bs with
    | nil => simp at member
    | cons d ds => exact ⟨_, _, rfl⟩
  rw [shape] at marked tiled length
  have startC : r.start = c.addr := tiled.1.symm
  obtain ⟨m', run, result, frame⟩ := coalesceLoop_spec marked tiled small
    (show cs.length < walkLimit by simp only [List.length_cons] at length; omega)
  refine ⟨m', ?_, ?_, ?_⟩
  · rw [kfree, if_neg (by rw [inv.headEq]; have := inv.nonzero; omega),
      if_neg (by rw [inv.startEq, inv.endEq, u32_of_lt (by omega)]; omega), coalesce]
    have atFree : b.addr + 12 - 12 + 8 = b.addr + 8 := by omega
    simp only [atFree, inv.headEq, run]
    rfl
  · have given : giveBack 12 b.addr bs = mergeFrom 12 c cs := by rw [giveBack, shape]; rfl
    refine ⟨inv.startEq, inv.endEq, inv.headEq, inv.nonzero, by rw [given]; exact result,
      giveBack_tiles inv.tiles, ?_, ?_, giveBack_canonical⟩
    · intro d inGiven
      obtain ⟨f, inBs, same⟩ := giveBack_addr inGiven
      rw [← same]
      exact inv.aligned f inBs
    · intro d inGiven
      obtain ⟨f, inBs, same⟩ := giveBack_addr inGiven
      rw [← same]
      exact inv.room f inBs
  · intro x outside
    rw [frame x, store32_outside]
    · have atB := outside b member
      omega
    · intro d inMarked
      rw [← shape] at inMarked
      obtain ⟨f, inBs, same⟩ := List.mem_map.mp inMarked
      have away := outside f inBs
      have addr : d.addr = f.addr := by
        rw [← same]
        split <;> rfl
      omega

theorem kfree_outside (inv : HeapInv r h bs) {p : Nat} (outside : p = 0 ∨ p < r.start ∨ r.stop ≤ p) :
    kfree h p = some h := by
  have fits := r.fits
  have large := r.large
  unfold kfree
  split
  · rfl
  · rw [if_pos]
    rw [inv.startEq, inv.endEq, u32_of_lt (by omega)]
    omega

/-- The statistics count the blocks and their bytes. -/
theorem heapStats_eq (inv : HeapInv r h bs) : heapStats h =
    some ⟨payload (fun b => !b.free) bs, payload Block.free bs, bs.length, (bs.filter Block.free).length⟩ := by
  have run := heapStatsLoop_spec ⟨0, 0, 0, 0⟩ inv.chain inv.tiles r.stop_lt inv.length_lt (by simp) (by simp)
  simp only [Nat.zero_add] at run
  rw [heapStats, inv.headEq]
  exact run

theorem heapStats_spec (inv : HeapInv r h bs) :
    ∃ st, heapStats h = some st ∧ st.used + st.free + 12 * st.blocks = r.size := by
  have balance := payload_balance inv.tiles
  refine ⟨_, inv.heapStats_eq, ?_⟩
  simp only [HeapRegion.stop] at balance
  simp only
  omega

end HeapInv

end LearningOS
