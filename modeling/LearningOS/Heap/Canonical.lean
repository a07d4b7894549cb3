import LearningOS.Heap.Reach

namespace LearningOS
open ByteStore Tiling

section
variable {r : HeapRegion} {h h' : Heap} {bs bs' : List Block} {ptrs : List Nat}

/-- The used blocks determine the whole list. -/
theorem HeapInv.blocks_eq (inv : HeapInv r h bs) (inv' : HeapInv r h' bs')
    (same : ∀ d, d ∈ live bs ↔ d ∈ live bs') : bs = bs' :=
  canonical_unique (by decide) inv.tiles inv'.tiles inv.canonical inv'.canonical same

/-- A heap placed at the null address never hands anything out. -/
theorem HeapReach.null (reach : HeapReach r h ptrs) (zero : r.start = 0) :
    ptrs = [] ∧ ∃ m, h = heapInit m r.start r.size := by
  induction reach with
  | init m => exact ⟨rfl, m, rfl⟩
  | @malloc h h' ptrs n p _ run ih =>
    obtain ⟨none, m, rfl⟩ := ih
    have same : kmalloc (heapInit m r.start r.size) n = some (heapInit m r.start r.size, 0) := by
      simp [kmalloc, heapInit, zero]
    rw [same] at run
    cases Option.some.inj run
    exact ⟨by simpa using none, m, rfl⟩
  | @free h h' ptrs p _ _ run ih =>
    obtain ⟨none, m, rfl⟩ := ih
    have same : kfree (heapInit m r.start r.size) p = some (heapInit m r.start r.size) := by
      simp [kfree, heapInit, zero]
    rw [same] at run
    cases Option.some.inj run
    exact ⟨by simp [none], m, rfl⟩
  | write _ _ held _ _ ih => simp [ih.1] at held

/-- Freeing what `kmalloc` just returned leaves the used blocks as they were. -/
theorem HeapInv.kfree_kmalloc (inv : HeapInv r h bs) {n p : Nat} {h₁ : Heap}
    (run : kmalloc h n = some (h₁, p)) (success : p ≠ 0) :
    ∃ h₂, kfree h₁ p = some h₂ ∧ HeapInv r h₂ bs := by
  rcases inv.kmalloc_spec n with ⟨same, _⟩ | ⟨m', a, bs₁, _, taking, result, inv₁, _⟩
  · rw [same] at run
    cases Option.some.inj run
    exact absurd rfl success
  · rw [result] at run
    cases Option.some.inj run
    obtain ⟨b, member, free, _, atB, inTaken, lives⟩ := live_take inv.tiles taking
    have atTaken : (taken 20 (align8 n) b).addr = a := atB.symm
    obtain ⟨m₂, freed, inv₂, _⟩ := inv₁.kfree_live inTaken
    rw [atTaken] at freed inv₂
    have restored : giveBack 12 a bs₁ = bs := by
      refine (inv₂.blocks_eq inv fun d => ?_)
      rw [live_giveBack, lives]
      constructor
      · rintro ⟨rfl | old, differ⟩
        · exact absurd atTaken differ
        · exact old
      · intro old
        refine ⟨Or.inr old, fun same => ?_⟩
        have equal := inv.tiles.eq_of_addr (by decide) (mem_live.mp old).1 member (same.trans atB)
        rw [equal, mem_live, free] at old
        simp at old
    rw [restored] at inv₂
    exact ⟨_, freed, inv₂⟩

theorem HeapInv.kfree_twice (inv : HeapInv r h bs) (out : Outstanding bs ptrs) {p q : Nat}
    (heldP : p ∈ ptrs) (heldQ : q ∈ ptrs) (differ : p ≠ q) :
    ∃ h₁ h₂ bs₂, kfree h p = some h₁ ∧ kfree h₁ q = some h₂ ∧ HeapInv r h₂ bs₂ ∧
      ∀ d, d ∈ live bs₂ ↔ d ∈ live bs ∧ d.addr + 12 ≠ p ∧ d.addr + 12 ≠ q := by
  obtain ⟨b, usedB, rfl⟩ := (out.mem_iff p).mp heldP
  obtain ⟨c, usedC, rfl⟩ := (out.mem_iff q).mp heldQ
  obtain ⟨m₁, first, inv₁, _⟩ := inv.kfree_live (mem_live.mp usedB).1
  have still : c ∈ live (giveBack 12 b.addr bs) := live_giveBack.mpr ⟨usedC, by omega⟩
  obtain ⟨m₂, second, inv₂, _⟩ := inv₁.kfree_live (mem_live.mp still).1
  refine ⟨_, _, _, first, second, inv₂, fun d => ?_⟩
  rw [live_giveBack, live_giveBack, and_assoc]
  exact and_congr_right fun _ => and_congr (by omega) (by omega)

/-- Freeing every outstanding pointer, in any order, leaves no used block. -/
theorem HeapInv.free_all (inv : HeapInv r h bs) (out : Outstanding bs ptrs) {order : List Nat}
    (perm : order.Perm ptrs) :
    ∃ h' bs', order.foldlM kfree h = some h' ∧ HeapInv r h' bs' ∧ live bs' = [] := by
  induction order generalizing h bs ptrs with
  | nil =>
    refine ⟨h, bs, rfl, inv, List.eq_nil_iff_forall_not_mem.mpr fun b used => ?_⟩
    have held := (out.mem_iff _).mpr ⟨b, used, rfl⟩
    rw [← perm.mem_iff] at held
    simp at held
  | cons p rest ih =>
    have held : p ∈ ptrs := perm.mem_iff.mp (List.mem_cons_self ..)
    obtain ⟨b, used, rfl⟩ := (out.mem_iff p).mp held
    obtain ⟨m₁, first, inv₁, _⟩ := inv.kfree_live (mem_live.mp used).1
    obtain ⟨h', bs', run, inv', none⟩ := ih inv₁ out.drop (List.cons_perm_iff_perm_erase.mp perm).2
    exact ⟨h', bs', by rw [List.foldlM_cons, first]; exact run, inv', none⟩

end

/-- In every reachable state no two adjacent blocks are free, and the block list
is a function of the used blocks. So `kfree` undoes `kmalloc`, frees of distinct
outstanding pointers commute, and freeing all of them in any order leaves the
one free block `heap_init` wrote. -/
theorem heap_canonical_form {r : HeapRegion} {h : Heap} {ptrs : List Nat} (reach : HeapReach r h ptrs) :
    ∃ bs, Chain h.mem 0 h.heapHead bs ∧ Canonical bs ∧
      (∀ h' ptrs', HeapReach r h' ptrs' → ∀ bs', Chain h'.mem 0 h'.heapHead bs' →
        (∀ d, d ∈ live bs ↔ d ∈ live bs') → bs = bs') ∧
      (∀ n h₁ p, kmalloc h n = some (h₁, p) → p ≠ 0 →
        ∃ h₂, kfree h₁ p = some h₂ ∧ Chain h₂.mem 0 h₂.heapHead bs) ∧
      (∀ p q, p ∈ ptrs → q ∈ ptrs → p ≠ q → ∃ h₁ h₂ h₃ h₄ bs', kfree h p = some h₁ ∧ kfree h₁ q = some h₂ ∧
        kfree h q = some h₃ ∧ kfree h₃ p = some h₄ ∧
        Chain h₂.mem 0 h₂.heapHead bs' ∧ Chain h₄.mem 0 h₄.heapHead bs') ∧
      (∀ order : List Nat, order.Perm ptrs → ∃ h', order.foldlM kfree h = some h' ∧ h'.heapHead = r.start ∧
        blockSize h'.mem r.start = r.size - 12 ∧ blockNext h'.mem r.start = 0 ∧
        blockFree h'.mem r.start ≠ 0) := by
  by_cases zero : r.start = 0
  · obtain ⟨rfl, m, rfl⟩ := reach.null zero
    have headZero : (heapInit m r.start r.size).heapHead = 0 := zero
    refine ⟨[], headZero, List.isChain_nil, ?_, ?_, by simp, ?_⟩
    · intro h' ptrs' reach' bs' chain' _
      obtain ⟨_, m', rfl⟩ := reach'.null zero
      exact (show Chain _ 0 (heapInit m' r.start r.size).heapHead [] from zero).unique chain'
    · intro n h₁ p run success
      simp only [kmalloc, headZero, or_true, if_true, Option.some.injEq, Prod.mk.injEq] at run
      exact absurd run.2.symm success
    · intro order perm
      rw [List.perm_nil.mp perm]
      refine ⟨_, rfl, rfl, ?_⟩
      have large := r.large
      have fits := r.fits
      have size : sub32 r.size 12 = r.size - 12 := sub32_of_le (by omega) (by omega)
      simp only [heapInit, blockSize, blockNext, blockFree, size]
      simp (disch := omega) [load32_store32_other, Nat.mod_eq_of_lt]
  · obtain ⟨bs, inv, out⟩ := reach.inv zero
    refine ⟨bs, inv.linked, inv.canonical, ?_, ?_, ?_, ?_⟩
    · intro h' ptrs' reach' bs' chain' same
      obtain ⟨cs, inv', _⟩ := reach'.inv zero
      have equal := chain'.unique inv'.linked
      subst equal
      exact inv.blocks_eq inv' same
    · intro n h₁ p run success
      obtain ⟨h₂, freed, inv₂⟩ := inv.kfree_kmalloc run success
      exact ⟨h₂, freed, inv₂.linked⟩
    · intro p q heldP heldQ differ
      obtain ⟨h₁, h₂, bs₂, first, second, inv₂, lives₂⟩ := inv.kfree_twice out heldP heldQ differ
      obtain ⟨h₃, h₄, bs₄, third, fourth, inv₄, lives₄⟩ := inv.kfree_twice out heldQ heldP differ.symm
      have equal : bs₂ = bs₄ := inv₂.blocks_eq inv₄ fun d => by
        rw [lives₂, lives₄]
        tauto
      subst equal
      exact ⟨h₁, h₂, h₃, h₄, bs₂, first, second, third, fourth, inv₂.linked, inv₄.linked⟩
    · intro order perm
      obtain ⟨h', bs', run, inv', none⟩ := inv.free_all out perm
      have single := inv'.blocks_eq (HeapInv.heapInit (fun _ => 0) zero) fun d => by
        rw [none]
        simp [live]
      have chain := inv'.chain
      rw [single] at chain
      obtain ⟨_, _, size, free, last⟩ := chain
      exact ⟨h', run, inv'.headEq, size, last, free.mpr rfl⟩

/-- With two pointers outstanding, over a heap with a gap. -/
theorem heap_canonical_kernelHeap :
    ∃ h, HeapReach kernelHeap h [0xC1000154, 0xC100000C] ∧ Chain h.mem 0 h.heapHead gapBlocks ∧ Canonical gapBlocks ∧
      (∃ h₁ h₂ h₃ h₄ bs, kfree h 0xC1000154 = some h₁ ∧ kfree h₁ 0xC100000C = some h₂ ∧
        kfree h 0xC100000C = some h₃ ∧ kfree h₃ 0xC1000154 = some h₄ ∧
        Chain h₂.mem 0 h₂.heapHead bs ∧ Chain h₄.mem 0 h₄.heapHead bs) ∧
      ∃ h', [0xC100000C, 0xC1000154].foldlM kfree h = some h' ∧ blockSize h'.mem 0xC1000000 = 1024 * 1024 - 12 := by
  obtain ⟨h, run, inv⟩ := kernelHeap_run
  obtain ⟨bs, chain, canonical, _, _, commute, all⟩ := heap_canonical_form run
  cases inv.linked.unique chain
  obtain ⟨h', freed, _, size, _⟩ := all [0xC100000C, 0xC1000154] (.swap ..)
  exact ⟨h, run, chain, canonical, commute _ _ (by decide) (by decide) (by decide), h', freed, size⟩

end LearningOS
