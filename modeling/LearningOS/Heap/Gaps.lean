import LearningOS.Heap.Canonical
import LearningOS.Store.Runs

namespace LearningOS
open ByteStore Tiling Runs

/-- A byte of the heap, if there is one: a null `heap_head` stands for none. -/
def HeapByte (h : Heap) (x : Nat) : Prop := h.heapHead ≠ 0 ∧ h.heapStart ≤ x ∧ x < h.heapEnd

/-- A byte of the header or the payload of a pointer that is handed out. -/
def HeldByte (h : Heap) (ptrs : List Nat) (x : Nat) : Prop :=
  ∃ p ∈ ptrs, p - 12 ≤ x ∧ x < p + blockSize h.mem (p - 12)

/-- A range of heap bytes that belong to no live block, as long as possible. -/
def FreeRange (h : Heap) (ptrs : List Nat) (a z : Nat) : Prop :=
  MaxRun (fun x => HeapByte h x ∧ ¬ HeldByte h ptrs x) a z

/-- The pointer is the payload of a used block with at least `n` bytes, and these are
inside the heap and in no other block. -/
def RoomFor (h : Heap) (p n : Nat) : Prop :=
  ∃ bs b, Chain h.mem 0 h.heapHead bs ∧ b ∈ bs ∧ b.free = false ∧ p = b.addr + 12 ∧ n ≤ b.size ∧
    ∀ x, p ≤ x → x < p + n → HeapByte h x ∧ ∀ c ∈ bs, c ≠ b → x < c.addr ∨ c.addr + 12 + c.size ≤ x

/-- No block of the list is free. -/
def NothingFree (h : Heap) : Prop := ∀ bs, Chain h.mem 0 h.heapHead bs → ∀ b ∈ bs, b.free = false

theorem align8_eq {n : Nat} (bound : n ≤ 0xFFFFFFF8) : align8 n = (n + 7) / 8 * 8 := by
  unfold align8
  rw [u32_of_lt (by omega)]

theorem align8_wraps {n : Nat} (word : n < 2 ^ 32) (large : 0xFFFFFFF8 < n) : align8 n = 0 := by
  unfold align8 u32
  omega

namespace HeapInv
variable {r : HeapRegion} {h : Heap} {bs : List Block} {ptrs : List Nat} {a z x n : Nat}

theorem heapByte_iff (inv : HeapInv r h bs) : HeapByte h x ↔ r.start ≤ x ∧ x < r.stop := by
  unfold HeapByte
  rw [inv.headEq, inv.startEq, inv.endEq]
  exact and_iff_right inv.nonzero

theorem heldByte_iff (inv : HeapInv r h bs) (out : Outstanding bs ptrs) : HeldByte h ptrs x ↔ InUse 12 bs x := by
  constructor
  · rintro ⟨p, held, lower, upper⟩
    obtain ⟨b, used, rfl⟩ := (out.mem_iff p).mp held
    rw [Nat.add_sub_cancel, inv.chain.blockSize_eq (mem_live.mp used).1] at upper
    exact ⟨b, used, by omega, upper⟩
  · rintro ⟨b, used, lower, upper⟩
    refine ⟨b.addr + 12, (out.mem_iff _).mpr ⟨b, used, rfl⟩, by omega, ?_⟩
    rwa [Nat.add_sub_cancel, inv.chain.blockSize_eq (mem_live.mp used).1]

/-- The ranges outside the live blocks are the free blocks of the list. -/
theorem freeRange_iff (inv : HeapInv r h bs) (out : Outstanding bs ptrs) :
    FreeRange h ptrs a z ↔ ∃ b ∈ bs, b.free = true ∧ b.addr = a ∧ b.addr + 12 + b.size = z := by
  have same : (fun x => HeapByte h x ∧ ¬ HeldByte h ptrs x) =
      fun x => r.start ≤ x ∧ x < r.stop ∧ ¬ InUse 12 bs x := by
    funext x
    rw [inv.heapByte_iff, inv.heldByte_iff out, and_assoc]
  unfold FreeRange
  rw [same]
  exact inv.tiles.maxRun_iff (by decide) inv.canonical

/-- A block that `kmalloc` hands out has the room that its rounded size says. -/
theorem roomFor (inv : HeapInv r h bs) {b : Block} (member : b ∈ bs) (used : b.free = false) (room : n ≤ b.size) :
    RoomFor h (b.addr + 12) n := by
  have bounds := inv.tiles.bounds member
  refine ⟨bs, b, inv.linked, member, used, rfl, room, fun x lower upper => ⟨?_, fun c inBs differ => ?_⟩⟩
  · exact inv.heapByte_iff.mpr ⟨by omega, by omega⟩
  · rcases inv.tiles.apart inBs member with same | _ | _
    · exact absurd same differ
    · omega
    · omega

/-- No block is as large as a request that wraps. -/
theorem not_roomFor (inv : HeapInv r h bs) {p : Nat} (large : 0xFFFFFFF8 < n) : ¬ RoomFor h p n := by
  rintro ⟨cs, b, chain, member, _, _, room, _⟩
  cases chain.unique inv.linked
  have bounds := inv.tiles.bounds member
  have small := r.stop_lt
  omega

end HeapInv

/-- `kmalloc` gives at least what was asked, exactly if the rounding of the size does not
wrap or the heap has no free block that it could hand out. -/
theorem kmalloc_gives_asked_iff {r : HeapRegion} {h : Heap} {ptrs : List Nat} {n : Nat} (reach : HeapReach r h ptrs)
    (positive : 1 ≤ n) (word : n < 2 ^ 32) :
    ∃ h' p, kmalloc h n = some (h', p) ∧ ((p ≠ 0 → RoomFor h' p n) ↔ n ≤ 0xFFFFFFF8 ∨ NothingFree h) := by
  by_cases zero : r.start = 0
  · obtain ⟨_, m, rfl⟩ := reach.null zero
    refine ⟨heapInit m r.start r.size, 0, by simp [kmalloc, heapInit, zero],
      iff_of_true (absurd rfl) (Or.inr fun bs chain b member => ?_)⟩
    have none := chain.unique (show Chain _ 0 (heapInit m r.start r.size).heapHead [] from zero)
    simp [none] at member
  · obtain ⟨bs, inv, out⟩ := reach.inv zero
    rcases inv.kmalloc_spec n with ⟨run, none⟩ | ⟨m', a, bs', _, taking, run, inv', b, member, free, rfl, _⟩
    · refine ⟨h, 0, run, iff_of_true (absurd rfl) ?_⟩
      have misfit := take_eq_none.mp (none.resolve_left (by omega))
      rcases Nat.lt_or_ge 0xFFFFFFF8 n with large | small
      · refine Or.inr fun cs chain c inCs => ?_
        cases chain.unique inv.linked
        have short := misfit c inCs
        rw [align8_wraps word large] at short
        simpa using short
      · exact Or.inl small
    · refine ⟨_, b.addr + 12, run, ?_⟩
      rcases Nat.lt_or_ge 0xFFFFFFF8 n with large | small
      · refine iff_of_false (fun given => inv'.not_roomFor large (given (by omega))) ?_
        rintro (le | none)
        · omega
        · have used := none bs inv.linked b member
          simp [free] at used
      · refine iff_of_true (fun _ => ?_) (Or.inl small)
        obtain ⟨c, inBs, _, fits, same, inTaken, _⟩ := live_take inv.tiles taking
        have enough := (align8_of_le small).1
        have room : n ≤ (taken 20 (align8 n) c).size := by
          unfold taken
          split
          · exact enough
          · exact enough.trans fits
        have given := inv'.roomFor inTaken rfl room
        rwa [show (taken 20 (align8 n) c).addr = b.addr from same.symm] at given

theorem kmalloc_gives_asked_kernelHeap :
    ∃ h' p, kmalloc (heapInit (fun _ => 0) 0xC1000000 (1024 * 1024)) 4096 = some (h', p) ∧
      ((p ≠ 0 → RoomFor h' p 4096) ↔
        4096 ≤ 0xFFFFFFF8 ∨ NothingFree (heapInit (fun _ => 0) 0xC1000000 (1024 * 1024))) :=
  kmalloc_gives_asked_iff (HeapReach.init (r := kernelHeap) fun _ => 0) (by decide) (by decide)

/-- A request of 2^32 - 1 bytes is rounded to 0 and served. -/
theorem kmalloc_gives_nothing :
    ∃ h h' p, HeapReach kernelHeap h [] ∧ kmalloc h 0xFFFFFFFF = some (h', p) ∧ p ≠ 0 ∧ ¬ RoomFor h' p 0xFFFFFFFF := by
  have inv := HeapInv.heapInit (r := kernelHeap) (fun _ => 0) (by decide)
  rcases inv.kmalloc_spec 0xFFFFFFFF with ⟨_, zero | none⟩ | ⟨m', a, bs', _, _, run, inv', _⟩
  · exact absurd zero (by decide)
  · exact absurd (take_eq_none.mp none _ List.mem_cons_self) (by decide)
  · exact ⟨_, _, a + 12, .init _, run, by omega, inv'.not_roomFor (by decide)⟩

/-- `kmalloc` reports no false out-of-memory: it fails exactly if every range of heap bytes
outside the live blocks is too short for a header and the rounded size, and otherwise it
places the block at the start of the lowest range that is long enough. -/
theorem kmalloc_lowest_range {r : HeapRegion} {h : Heap} {ptrs : List Nat} {n : Nat} (reach : HeapReach r h ptrs)
    (positive : 1 ≤ n) (bound : n ≤ 0xFFFFFFF8) :
    ∃ h' p, kmalloc h n = some (h', p) ∧
      (p = 0 ↔ ∀ a z, FreeRange h ptrs a z → z - a < 12 + (n + 7) / 8 * 8) ∧
      (p ≠ 0 → ∃ a z, FreeRange h ptrs a z ∧ 12 + (n + 7) / 8 * 8 ≤ z - a ∧ p = a + 12 ∧
        ∀ a' z', FreeRange h ptrs a' z' → 12 + (n + 7) / 8 * 8 ≤ z' - a' → a ≤ a') := by
  rw [← align8_eq bound]
  by_cases zero : r.start = 0
  · obtain ⟨_, m, rfl⟩ := reach.null zero
    refine ⟨heapInit m r.start r.size, 0, by simp [kmalloc, heapInit, zero],
      iff_of_true rfl fun a z range => ?_, absurd rfl⟩
    exact absurd zero (range.inside a le_rfl range.nonempty).1.1
  · obtain ⟨bs, inv, out⟩ := reach.inv zero
    rcases inv.kmalloc_cases n with ⟨run, none⟩ | ⟨pre, b, post, _, split, free, fits, _, taking, run⟩
    · refine ⟨h, 0, run, iff_of_true rfl fun a z range => ?_, absurd rfl⟩
      obtain ⟨b, member, free, rfl, rfl⟩ := (inv.freeRange_iff out).mp range
      have misfit := take_eq_none.mp (none.resolve_left (by omega)) b member
      simp only [free, true_and] at misfit
      omega
    · have member : b ∈ bs := by simp [split]
      have range := (inv.freeRange_iff out).mpr ⟨b, member, free, rfl, rfl⟩
      refine ⟨_, b.addr + 12, run, iff_of_false (by omega) fun short => ?_, fun _ => ?_⟩
      · have less := short _ _ range
        omega
      · refine ⟨_, _, range, by omega, rfl, fun a' z' range' long => ?_⟩
        obtain ⟨c, inBs, freeC, rfl, rfl⟩ := (inv.freeRange_iff out).mp range'
        obtain ⟨pre', b', post', split', _, _, same, _, before⟩ := take_split taking
        have first := inv.tiles.pairwise
        have equal := inv.tiles.eq_of_addr (by decide) member (by simp [split']) same
        subst equal
        rw [split'] at inBs first
        rcases List.mem_append.mp inBs with inPre | inRest
        · exact absurd ⟨freeC, by omega⟩ (before c inPre)
        · rcases List.mem_cons.mp inRest with rfl | later
          · exact le_rfl
          · have order := (List.pairwise_cons.mp (List.pairwise_append.mp first).2.1).1 c later
            omega

/-- In a heap with two free ranges, one of which is too short for the request. -/
theorem kmalloc_lowest_range_kernelHeap :
    ∃ h h' p, HeapReach kernelHeap h [0xC1000154, 0xC100000C] ∧ FreeRange h [0xC1000154, 0xC100000C] 0xC1000074 0xC1000148 ∧
      FreeRange h [0xC1000154, 0xC100000C] 0xC100018C 0xC1100000 ∧ kmalloc h 208 = some (h', p) ∧ p = 0xC1000198 := by
  obtain ⟨h, run, inv⟩ := kernelHeap_run
  have out := run.outstanding inv
  have gap : FreeRange h [0xC1000154, 0xC100000C] 0xC1000074 0xC1000148 :=
    (inv.freeRange_iff out).mpr ⟨⟨0xC1000074, 200, true⟩, by decide, rfl, rfl, rfl⟩
  have rest : FreeRange h [0xC1000154, 0xC100000C] 0xC100018C 0xC1100000 :=
    (inv.freeRange_iff out).mpr ⟨⟨0xC100018C, 1048168, true⟩, by decide, rfl, rfl, rfl⟩
  obtain ⟨h', p, call, none, lowest⟩ := kmalloc_lowest_range run (show 1 ≤ 208 by decide) (by decide)
  refine ⟨h, h', p, run, gap, rest, call, ?_⟩
  obtain ⟨a, z, range, long, start, _⟩ := lowest fun zero => absurd (none.mp zero _ _ rest) (by decide)
  obtain ⟨b, member, free, rfl, rfl⟩ := (inv.freeRange_iff out).mp range
  simp only [gapBlocks, List.mem_cons, List.not_mem_nil, or_false] at member
  rcases member with rfl | rfl | rfl | rfl
  · simp at free
  · exact absurd long (by decide)
  · simp at free
  · exact start

end LearningOS
