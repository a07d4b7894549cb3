import LearningOS.Heap.Model
import LearningOS.Store.FirstFit

namespace LearningOS
open ByteStore Tiling

/-- The headers linked in memory from the pointer `a` up to the pointer `z`
are exactly the listed blocks. -/
def Chain (m : Bytes) (z : Nat) : Nat → List Block → Prop
  | a, [] => a = z
  | a, b :: bs => a ≠ 0 ∧ b.addr = a ∧ blockSize m a = b.size ∧ (blockFree m a ≠ 0 ↔ b.free = true) ∧
      Chain m z (blockNext m a) bs

theorem chain_append {m : Bytes} {a z : Nat} {xs ys : List Block} :
    Chain m z a (xs ++ ys) ↔ ∃ y, Chain m y a xs ∧ Chain m z y ys := by
  induction xs generalizing a with
  | nil => simp [Chain]
  | cons b bs ih => simp only [List.cons_append, Chain, ih, and_assoc, exists_and_left]

/-- Two block lists read from the same pointer are the same list. -/
theorem Chain.unique {m : Bytes} {a : Nat} {bs cs : List Block} (left : Chain m 0 a bs) (right : Chain m 0 a cs) :
    bs = cs := by
  induction bs generalizing a cs with
  | nil =>
    cases cs with
    | nil => rfl
    | cons c cs => exact absurd left right.1
  | cons b bs ih =>
    cases cs with
    | nil => exact absurd right left.1
    | cons c cs =>
      obtain ⟨_, addr, size, free, rest⟩ := left
      obtain ⟨_, addrC, sizeC, freeC, restC⟩ := right
      have heads : b = c := by
        cases b
        cases c
        simp only [Block.mk.injEq]
        refine ⟨addr.trans addrC.symm, size.symm.trans sizeC, ?_⟩
        rw [Bool.eq_iff_iff, ← free, ← freeC]
      rw [heads, ih rest restC]

/-- The blocks that are linked from a pointer on, so many of them at most. -/
def linkedBlocks (m : Bytes) : Nat → Nat → List Block
  | 0, _ => []
  | count + 1, a =>
    if a = 0 then [] else ⟨a, blockSize m a, blockFree m a ≠ 0⟩ :: linkedBlocks m count (blockNext m a)

theorem Chain.linkedBlocks_eq {m : Bytes} {a count : Nat} {bs : List Block} (chain : Chain m 0 a bs)
    (enough : bs.length < count) : linkedBlocks m count a = bs := by
  induction count generalizing a bs with
  | zero => omega
  | succ count ih =>
    cases bs with
    | nil => exact if_pos chain
    | cons b bs =>
      obtain ⟨nonzero, rfl, size, free, rest⟩ := chain
      have flag : decide (blockFree m b.addr ≠ 0) = b.free := by
        rw [Bool.eq_iff_iff, decide_eq_true_iff]
        exact free
      rw [linkedBlocks, if_neg nonzero, ih rest (by simpa using enough), size, flag]

/-- The blocks of a heap, as its list has them. -/
def Heap.blocks (h : Heap) : List Block := linkedBlocks h.mem walkLimit h.heapHead

/-- Only the twelve header bytes of each block matter. -/
theorem Chain.frame {m m' : Bytes} {a z : Nat} {bs : List Block} (chain : Chain m z a bs)
    (same : ∀ b ∈ bs, ∀ x, b.addr ≤ x → x < b.addr + 12 → m' x = m x) : Chain m' z a bs := by
  induction bs generalizing a with
  | nil => exact chain
  | cons b bs ih =>
    obtain ⟨nonzero, rfl, size, free, rest⟩ := chain
    have header : ∀ x, b.addr ≤ x → x < b.addr + 12 → m' x = m x := same b (List.mem_cons_self ..)
    have sizeSame : blockSize m' b.addr = blockSize m b.addr :=
      load32_congr fun x _ _ => header x (by omega) (by omega)
    have nextSame : blockNext m' b.addr = blockNext m b.addr :=
      load32_congr fun x _ _ => header x (by omega) (by omega)
    have freeSame : blockFree m' b.addr = blockFree m b.addr :=
      load32_congr fun x _ _ => header x (by omega) (by omega)
    refine ⟨nonzero, rfl, sizeSame.trans size, by rw [freeSame]; exact free, ?_⟩
    rw [nextSame]
    exact ih rest fun c member => same c (List.mem_cons_of_mem _ member)

theorem Chain.blockSize_eq {m : Bytes} {a z : Nat} {b : Block} {bs : List Block} (chain : Chain m z a bs)
    (member : b ∈ bs) : blockSize m b.addr = b.size := by
  induction bs generalizing a with
  | nil => simp at member
  | cons c cs ih =>
    obtain ⟨_, rfl, size, _, rest⟩ := chain
    rcases List.mem_cons.mp member with rfl | later
    · exact size
    · exact ih rest later

theorem Chain.start_eq {m : Bytes} {a z : Nat} {b : Block} {bs : List Block} (chain : Chain m z a (b :: bs)) :
    a = b.addr := chain.2.1.symm

theorem blockNext_lt (m : Bytes) (a : Nat) : blockNext m a < 2 ^ 32 := load32_lt m (a + 4)

section Take
variable {m : Bytes} {s e z n : Nat} {b : Block}

/-- Taking a block writes only inside that block. -/
theorem takeBlock_outside {x : Nat} (size : blockSize m b.addr = b.size)
    (bound : b.addr + 12 + b.size < 2 ^ 32) (fits : n ≤ b.size)
    (outside : x < b.addr ∨ b.addr + 12 + b.size ≤ x) : takeBlock m b.addr n x = m x := by
  unfold takeBlock
  rw [size]
  simp only
  split
  · rw [u32_of_lt (by omega)]
    rw [store32_outside (by omega), store32_outside (by omega), store32_outside (by omega),
      store32_outside (by omega), store32_outside (by omega), store32_outside (by omega)]
  · rw [store32_outside (by omega)]

/-- Taking a block writes only headers of the carved list. -/
theorem takeBlock_headers {x : Nat} (size : blockSize m b.addr = b.size) (bound : b.addr + 12 + b.size < 2 ^ 32)
    (fits : n ≤ b.size) (outside : ∀ c ∈ carve 12 20 n b, x < c.addr ∨ c.addr + 12 ≤ x) :
    takeBlock m b.addr n x = m x := by
  unfold takeBlock
  unfold carve at outside
  rw [size]
  simp only
  by_cases large : 20 < b.size - n
  · rw [if_pos large] at outside
    have first := outside _ List.mem_cons_self
    have second := outside _ (List.mem_cons_of_mem _ List.mem_cons_self)
    simp only at first second
    rw [if_pos large, u32_of_lt (by omega)]
    rw [store32_outside (by omega), store32_outside (by omega), store32_outside (by omega),
      store32_outside (by omega), store32_outside (by omega), store32_outside (by omega)]
  · rw [if_neg large] at outside
    have first := outside _ List.mem_cons_self
    simp only at first
    rw [if_neg large, store32_outside (by omega)]

/-- The headers of a taken block are those of the carved list. -/
theorem takeBlock_chain (chain : Chain m z b.addr [b]) (bound : b.addr + 12 + b.size < 2 ^ 32)
    (fits : n ≤ b.size) : Chain (takeBlock m b.addr n) z b.addr (carve 12 20 n b) := by
  obtain ⟨nonzero, _, size, free, rest⟩ := chain
  have next : blockNext m b.addr = z := rest
  have small : n < 2 ^ 32 := by omega
  have smallZ : z < 2 ^ 32 := by rw [← next]; exact blockNext_lt m b.addr
  unfold takeBlock carve
  rw [size]
  simp only [blockNext] at next
  by_cases large : 20 < b.size - n
  · simp only [if_pos large, u32_of_lt (by omega : b.addr + 12 + n < 2 ^ 32), Chain,
      blockSize, blockNext, blockFree]
    simp (disch := omega) only [load32_store32_same, load32_store32_other, Nat.mod_eq_of_lt, next]
    simp [nonzero]
  · simp only [if_neg large, Chain, blockSize, blockNext, blockFree]
    simp (disch := omega) only [load32_store32_same, load32_store32_other, Nat.mod_eq_of_lt, next]
    exact ⟨nonzero, trivial, size, by simp⟩

end Take

/-- The walk of `kmalloc` is first fit on the listed blocks. -/
theorem kmallocLoop_spec {m : Bytes} {s e a n fuel : Nat} {bs : List Block} (chain : Chain m 0 a bs)
    (tiles : Tiles 12 s e bs) (bound : e < 2 ^ 32) (enough : bs.length < fuel) :
    ((∀ b ∈ bs, ¬(b.free = true ∧ n ≤ b.size)) ∧ kmallocLoop n fuel m a = some (m, 0)) ∨
      ∃ pre b post, bs = pre ++ b :: post ∧ b.free = true ∧ n ≤ b.size ∧
        (∀ c ∈ pre, ¬(c.free = true ∧ n ≤ c.size)) ∧
        kmallocLoop n fuel m a = some (takeBlock m b.addr n, b.addr + 12) := by
  induction bs generalizing a s fuel with
  | nil =>
    have atEnd : a = 0 := chain
    cases fuel with
    | zero => simp at enough
    | succ fuel => exact Or.inl ⟨by simp, by simp [kmallocLoop, atEnd]⟩
  | cons b bs ih =>
    obtain ⟨nonzero, addr, size, free, rest⟩ := chain
    have stop := (tiles.bounds (List.mem_cons_self ..)).2
    cases fuel with
    | zero => simp at enough
    | succ fuel =>
      simp only [List.length_cons, Nat.add_lt_add_iff_right] at enough
      by_cases fits : b.free = true ∧ n ≤ b.size
      · refine Or.inr ⟨[], b, bs, rfl, fits.1, fits.2, by simp, ?_⟩
        unfold kmallocLoop
        rw [if_neg nonzero, if_pos ⟨free.mpr fits.1, by rw [size]; exact fits.2⟩, ← addr,
          u32_of_lt (by omega)]
      · have step : kmallocLoop n (fuel + 1) m a = kmallocLoop n fuel m (blockNext m a) := by
          rw [kmallocLoop, if_neg nonzero, if_neg (by rw [size, free]; exact fits)]
        rw [step]
        rcases ih rest tiles.2 enough with ⟨none, run⟩ | ⟨pre, c, post, split, freeC, room, before, run⟩
        · exact Or.inl ⟨List.forall_mem_cons.mpr ⟨fits, none⟩, run⟩
        · refine Or.inr ⟨b :: pre, c, post, by rw [split]; rfl, freeC, room, ?_, run⟩
          intro d member
          rcases List.mem_cons.mp member with rfl | later
          · exact fits
          · exact before d later

/-- Setting the `free` word of one block marks exactly that block. -/
theorem markFree_chain {m : Bytes} {s e a z : Nat} {b : Block} {bs all : List Block} (chain : Chain m z a bs)
    (tiles : Tiles 12 s e all) (subset : ∀ c ∈ bs, c ∈ all) (member : b ∈ all) :
    Chain (store32 m (b.addr + 8) 1) z a (markFree b.addr bs) := by
  induction bs generalizing a with
  | nil => exact chain
  | cons c cs ih =>
    obtain ⟨nonzero, rfl, size, free, rest⟩ := chain
    have tail := ih rest fun d later => subset d (List.mem_cons_of_mem _ later)
    have inAll := subset c (List.mem_cons_self ..)
    have next : blockNext (store32 m (b.addr + 8) 1) c.addr = blockNext m c.addr := by
      refine load32_store32_other ?_
      rcases tiles.apart inAll member with rfl | _ | _ <;> omega
    have sizeSame : blockSize (store32 m (b.addr + 8) 1) c.addr = blockSize m c.addr := by
      refine load32_store32_other ?_
      rcases tiles.apart inAll member with rfl | _ | _ <;> omega
    unfold markFree at tail ⊢
    rw [List.map_cons]
    by_cases same : c.addr = b.addr
    · rw [if_pos same]
      refine ⟨nonzero, rfl, by rw [sizeSame, size], ?_, by rw [next]; exact tail⟩
      rw [same, blockFree, load32_store32_same]
      simp
    · rw [if_neg same]
      refine ⟨nonzero, rfl, by rw [sizeSame, size], ?_, by rw [next]; exact tail⟩
      have apart : blockFree (store32 m (b.addr + 8) 1) c.addr = blockFree m c.addr := by
        refine load32_store32_other ?_
        rcases tiles.apart inAll member with rfl | _ | _
        · exact absurd rfl same
        · omega
        · omega
      rw [apart]
      exact free

/-- The effect of one merge on the headers. -/
theorem merge_chain {m : Bytes} {a e : Nat} {b c : Block} {cs : List Block} (chain : Chain m 0 a (b :: c :: cs))
    (tiles : Tiles 12 a e (b :: c :: cs)) (bound : e < 2 ^ 32) :
    Chain (store32 (store32 m a (b.size + 12 + c.size)) (a + 4)
      (blockNext (store32 m a (b.size + 12 + c.size)) c.addr)) 0 a
      ({ b with size := b.size + 12 + c.size } :: cs) := by
  obtain ⟨nonzero, addr, size, free, _, addrC, _, _, rest⟩ := chain
  have order : c.addr = a + 12 + b.size := tiles.2.1
  have stop := (tiles.bounds (by simp : c ∈ b :: c :: cs)).2
  have nextC : blockNext (store32 m a (b.size + 12 + c.size)) c.addr = blockNext m c.addr :=
    load32_store32_other (by omega)
  have small := blockNext_lt m c.addr
  rw [nextC]
  refine ⟨nonzero, addr, ?_, ?_, ?_⟩
  · unfold blockSize
    rw [load32_store32_other (by omega), load32_store32_same, Nat.mod_eq_of_lt (by omega)]
  · unfold blockFree
    rw [load32_store32_other (by omega), load32_store32_other (by omega)]
    exact free
  · have after : blockNext (store32 (store32 m a (b.size + 12 + c.size)) (a + 4) (blockNext m c.addr)) a =
        blockNext m c.addr := by
      rw [blockNext, load32_store32_same, Nat.mod_eq_of_lt small]
    rw [after, addrC]
    refine rest.frame fun d member x lower _ => ?_
    have later := (tiles.2.2.bounds member).1
    rw [store32_outside (by omega), store32_outside (by omega)]

/-- One turn of the loop of `coalesce` at a block with a neighbour. -/
theorem coalesceLoop_succ {m : Bytes} {a e fuel : Nat} {b c : Block} {cs : List Block}
    (chain : Chain m 0 a (b :: c :: cs)) (tiles : Tiles 12 a e (b :: c :: cs)) (bound : e < 2 ^ 32) :
    coalesceLoop (fuel + 1) m a =
      if b.free = true ∧ c.free = true then
        coalesceLoop fuel (store32 (store32 m a (b.size + 12 + c.size)) (a + 4)
          (blockNext (store32 m a (b.size + 12 + c.size)) c.addr)) a
      else coalesceLoop fuel m c.addr := by
  obtain ⟨nonzero, _, size, free, nextNonzero, addrC, sizeC, freeC, _⟩ := chain
  have order : c.addr = a + 12 + b.size := tiles.2.1
  have stop := (tiles.bounds (by simp : c ∈ b :: c :: cs)).2
  have atNext : u32 (a + 12 + blockSize m a) = blockNext m a := by
    rw [size, ← addrC, order, u32_of_lt (by omega)]
  have joined : u32 (blockSize m a + 12 + blockSize m (blockNext m a)) = b.size + 12 + c.size := by
    rw [size, sizeC, u32_of_lt (by omega)]
  rw [coalesceLoop, if_neg (by simp [nonzero, nextNonzero])]
  simp only [free, freeC, atNext, and_true, joined, addrC]

/-- `coalesce` is one left-to-right merging pass over the listed blocks, and it
writes only into their headers. -/
theorem coalesceLoop_spec {m : Bytes} {a e fuel : Nat} {b : Block} {bs : List Block}
    (chain : Chain m 0 a (b :: bs)) (tiles : Tiles 12 a e (b :: bs)) (bound : e < 2 ^ 32)
    (enough : bs.length < fuel) :
    ∃ m', coalesceLoop fuel m a = some m' ∧ Chain m' 0 a (mergeFrom 12 b bs) ∧
      ∀ x, (∀ c ∈ b :: bs, x < c.addr ∨ c.addr + 12 ≤ x) → m' x = m x := by
  induction bs generalizing m a b fuel with
  | nil =>
    have last : blockNext m a = 0 := chain.2.2.2.2
    cases fuel with
    | zero => simp at enough
    | succ fuel => exact ⟨m, by simp [coalesceLoop, last], chain, fun _ _ => rfl⟩
  | cons c cs ih =>
    cases fuel with
    | zero => simp at enough
    | succ fuel =>
      simp only [List.length_cons, Nat.add_lt_add_iff_right] at enough
      rw [coalesceLoop_succ chain tiles bound]
      by_cases both : b.free = true ∧ c.free = true
      · rw [if_pos both]
        have grown := merge_chain chain tiles bound
        have addr := chain.2.1
        have covers : Tiles 12 a e ({ b with size := b.size + 12 + c.size } :: cs) := by
          refine ⟨tiles.1, ?_⟩
          have same : a + 12 + (b.size + 12 + c.size) = a + 12 + b.size + 12 + c.size := by omega
          simp only [same]
          exact tiles.2.2
        obtain ⟨m', run, result, frame⟩ := ih grown covers enough
        refine ⟨m', run, ?_, ?_⟩
        · simpa [mergeFrom, both.1, both.2] using result
        · intro x outside
          have atB := outside b (by simp)
          rw [frame x, store32_outside (by omega), store32_outside (by omega)]
          intro d member
          rcases List.mem_cons.mp member with rfl | later
          · exact atB
          · exact outside d (by simp [later])
      · rw [if_neg both]
        obtain ⟨nonzero, addr, size, free, nextNonzero, addrC, sizeC, freeC, rest⟩ := chain
        have order : c.addr = a + 12 + b.size := tiles.2.1
        have below : Chain m 0 c.addr (c :: cs) := by
          rw [addrC]
          exact ⟨nextNonzero, addrC, sizeC, freeC, rest⟩
        have tilesC : Tiles 12 c.addr e (c :: cs) := by
          rw [order]
          exact tiles.2
        obtain ⟨m', run, result, frame⟩ := ih below tilesC enough
        refine ⟨m', run, ?_, ?_⟩
        · have header : Chain m' c.addr a [b] := by
            have old : Chain m c.addr a [b] := ⟨nonzero, addr, size, free, addrC.symm⟩
            refine old.frame fun d member x lower upper => frame x fun d' member' => ?_
            have later := (tilesC.bounds member').1
            have same : d = b := by simpa using member
            subst d
            omega
          have kept : mergeFrom 12 b (c :: cs) = [b] ++ mergeFrom 12 c cs := by
            rw [mergeFrom, if_neg (by simpa using both)]
            rfl
          rw [kept]
          exact chain_append.mpr ⟨c.addr, header, result⟩
        · intro x outside
          exact frame x fun d member => outside d (by simp only [List.mem_cons] at member ⊢; tauto)

/-- What `heap_stats` adds up: the payload bytes of the blocks selected by `p`. -/
def payload (p : Block → Bool) (bs : List Block) : Nat := ((bs.filter p).map Block.size).sum

theorem payload_cons (p : Block → Bool) (b : Block) (bs : List Block) :
    payload p (b :: bs) = (if p b then b.size else 0) + payload p bs := by
  unfold payload
  rw [List.filter_cons]
  split <;> simp

/-- Headers and payloads of a tiling add up to the length of the region. -/
theorem payload_balance {s e : Nat} {bs : List Block} (tiles : Tiles 12 s e bs) :
    s + payload (fun b => !b.free) bs + payload Block.free bs + 12 * bs.length = e := by
  induction bs generalizing s with
  | nil =>
    have stop : s = e := tiles
    simpa [payload] using stop
  | cons b bs ih =>
    have rest := ih tiles.2
    rw [payload_cons, payload_cons, List.length_cons]
    cases b.free <;> simp <;> omega

theorem heapStatsLoop_spec {m : Bytes} {s e a fuel : Nat} {bs : List Block} (st : HeapStats)
    (chain : Chain m 0 a bs) (tiles : Tiles 12 s e bs) (bound : e < 2 ^ 32) (enough : bs.length < fuel)
    (room : st.used + st.free + 12 * st.blocks ≤ s) (fewer : st.freeBlocks ≤ st.blocks) :
    heapStatsLoop fuel m a st = some ⟨st.used + payload (fun b => !b.free) bs,
      st.free + payload Block.free bs, st.blocks + bs.length, st.freeBlocks + (bs.filter Block.free).length⟩ := by
  induction bs generalizing a s fuel st with
  | nil =>
    have atEnd : a = 0 := chain
    cases fuel with
    | zero => simp at enough
    | succ fuel => simp [heapStatsLoop, atEnd, payload]
  | cons b bs ih =>
    obtain ⟨nonzero, addr, size, free, rest⟩ := chain
    have stop := (tiles.bounds (List.mem_cons_self ..)).2
    have start := tiles.1
    cases fuel with
    | zero => simp at enough
    | succ fuel =>
      simp only [List.length_cons, Nat.add_lt_add_iff_right] at enough
      rw [heapStatsLoop, if_neg nonzero, payload_cons, payload_cons, List.filter_cons, size, List.length_cons]
      simp only
      cases marked : b.free with
      | true =>
        rw [if_pos (free.mpr marked), u32_of_lt (by omega), u32_of_lt (by omega), u32_of_lt (by omega),
          ih _ rest tiles.2 enough (by simp only; omega) (by simp only; omega)]
        simp only [Option.some.injEq, HeapStats.mk.injEq, Bool.not_true, Bool.false_eq_true, if_false, if_true,
          List.length_cons]
        refine ⟨by omega, by omega, by omega, by omega⟩
      | false =>
        rw [if_neg (by rw [free, marked]; simp), u32_of_lt (by omega), u32_of_lt (by omega),
          ih _ rest tiles.2 enough (by simp only; omega) (by simp only; omega)]
        simp only [Option.some.injEq, HeapStats.mk.injEq, Bool.not_false, Bool.false_eq_true, if_false, if_true]
        refine ⟨by omega, by omega, by omega, trivial⟩

end LearningOS
