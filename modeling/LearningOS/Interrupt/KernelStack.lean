import LearningOS.Heap.Top

namespace LearningOS
open ByteStore Tiling

/-- The words that are on the stack when `common_stub` calls `irq_handler` for
an interrupt taken in ring 3, named as in `struct registers`. -/
structure TrapFrame where
  ss : Nat
  useresp : Nat
  eflags : Nat
  cs : Nat
  eip : Nat
  errCode : Nat
  intNo : Nat
  eax : Nat
  ecx : Nat
  edx : Nat
  ebx : Nat
  esp : Nat
  ebp : Nat
  esi : Nat
  edi : Nat
  ds : Nat

/-- Five words from the CPU, the error code and vector from the stub, then
`pusha` and the saved data segment from `common_stub`, in push order. -/
def TrapFrame.words (f : TrapFrame) : List Nat :=
  [f.ss, f.useresp, f.eflags, f.cs, f.eip] ++ [f.errCode, f.intNo] ++
    [f.eax, f.ecx, f.edx, f.ebx, f.esp, f.ebp, f.esi, f.edi] ++ [f.ds]

/-- The stack a ring change loads from the task state segment. -/
structure Tss where
  ss0 : Nat
  esp0 : Nat

def setKernelStack (tss : Tss) (stack : Nat) : Tss := { tss with esp0 := stack }

/-- Memory and stack pointer once the frame of an interrupt from ring 3 is saved. -/
def enterFromRing3 (tss : Tss) (m : Bytes) (f : TrapFrame) : Bytes × Nat := f.words.foldl push (m, tss.esp0)

/-- The bytes below `esp0` that the sixteen pushes write. -/
def interruptBytes (tss : Tss) (x : Nat) : Prop := tss.esp0 - 64 ≤ x ∧ x < tss.esp0

/-- `interruptBytes` is exactly what the pushes touch: nothing else changes, and
the sixteen words there are those of the frame. -/
theorem enterFromRing3_footprint (tss : Tss) (m : Bytes) (f : TrapFrame) (room : 64 ≤ tss.esp0)
    (small : tss.esp0 < 2 ^ 32) :
    (∀ x, ¬interruptBytes tss x → (enterFromRing3 tss m f).1 x = m x) ∧
      ∀ i w, f.words[i]? = some w → load32 (enterFromRing3 tss m f).1 (tss.esp0 - 4 * (i + 1)) = w % 2 ^ 32 := by
  have length : f.words.length = 16 := rfl
  refine ⟨fun x outside => ?_, fun i w atI => foldl_push_written (by omega) small atI⟩
  unfold interruptBytes at outside
  exact foldl_push_outside (by omega) small (by omega)

/-- No byte an interrupt from ring 3 writes belongs to a header or to a payload
in use. -/
def StackClear (tss : Tss) (h : Heap) : Prop :=
  ∀ bs, Chain h.mem 0 h.heapHead bs → ∀ b ∈ bs, ∀ x, interruptBytes tss x →
    ¬(b.addr ≤ x ∧ x < b.addr + 12) ∧ (b.free = false → ¬(b.addr + 12 ≤ x ∧ x < b.addr + 12 + b.size))

/-- What `kernel_main` passes to `set_kernel_stack`: the end of its heap. -/
def kernelTss : Tss := setKernelStack ⟨0x10, 0⟩ 0xC1100000

/-- The request leaves at least 76 bytes of the topmost block alone: either an
earlier block serves it, or no block does, or the top block is that much larger. -/
def KeepsTop (bs : List Block) (n : Nat) : Prop :=
  n ≠ 0 → ∀ pre b, bs = pre ++ [b] → b.free = true → align8 n ≤ b.size →
    (∀ c ∈ pre, ¬(c.free = true ∧ align8 n ≤ c.size)) → align8 n + 76 ≤ b.size

/-- The topmost block is free and covers the interrupt bytes with its payload. -/
def TopFree (bs : List Block) : Prop :=
  ∃ b ∈ bs, b.free = true ∧ b.addr + 12 + b.size = kernelHeap.stop ∧ 64 ≤ b.size

theorem kernelHeap_stop : kernelHeap.stop = kernelTss.esp0 := by decide

theorem interruptBytes_iff {x : Nat} :
    interruptBytes kernelTss x ↔ kernelHeap.stop - 64 ≤ x ∧ x < kernelHeap.stop := by
  rw [kernelHeap_stop]
  rfl

theorem HeapInv.stackClear_iff {h : Heap} {bs : List Block} (inv : HeapInv kernelHeap h bs) :
    StackClear kernelTss h ↔ TopFree bs := by
  have large : 64 ≤ kernelHeap.stop := by decide
  constructor
  · intro clear
    obtain ⟨pre, b, rfl, stop⟩ := inv.last
    have member : b ∈ pre ++ [b] := by simp
    have room := inv.room b member
    have atTop := clear _ inv.linked b member
    refine ⟨b, member, ?_, stop, ?_⟩
    · by_contra used
      have hit := (atTop (kernelHeap.stop - 1) (interruptBytes_iff.mpr (by omega))).2 (by simpa using used)
      omega
    · by_contra short
      have hit := (atTop (b.addr + 11) (interruptBytes_iff.mpr (by omega))).1
      omega
  · rintro ⟨t, inBs, free, stop, size⟩ cs chain b member x hit
    have same := inv.linked.unique chain
    subst same
    rw [interruptBytes_iff] at hit
    rcases inv.tiles.apart inBs member with rfl | before | after
    · exact ⟨by omega, fun used => by simp [free] at used⟩
    · have bound := (inv.tiles.bounds member).2
      omega
    · exact ⟨by omega, fun _ => by omega⟩

/-- A step of `kmalloc` keeps the top free exactly when the request allows it. -/
theorem TopFree.take_iff {h : Heap} {bs bs' : List Block} {n a : Nat} (inv : HeapInv kernelHeap h bs)
    (top : TopFree bs) (positive : n ≠ 0) (run : take 12 20 (align8 n) bs = some (a, bs')) :
    TopFree bs' ↔ KeepsTop bs n :=
  TopFreeBy.take_iff (d := 64) inv top (by decide) positive run

/-- The runs of the kernel heap in which every request keeps the top free. -/
inductive TopKeptReach : Heap → List Nat → Prop
  | init (m : Bytes) : TopKeptReach (heapInit m kernelHeap.start kernelHeap.size) []
  | malloc {h h' ptrs n p bs} : TopKeptReach h ptrs → Chain h.mem 0 h.heapHead bs → KeepsTop bs n →
      kmalloc h n = some (h', p) → TopKeptReach h' (if p = 0 then ptrs else p :: ptrs)
  | free {h h' ptrs p} : TopKeptReach h ptrs → p = 0 ∨ p < kernelHeap.start ∨ kernelHeap.stop ≤ p ∨ p ∈ ptrs →
      kfree h p = some h' → TopKeptReach h' (ptrs.erase p)
  | write {h ptrs p x} (v : UInt8) : TopKeptReach h ptrs → p ∈ ptrs → p ≤ x →
      x < p + blockSize h.mem (p - 12) → TopKeptReach { h with mem := store h.mem x v } ptrs

theorem TopKeptReach.reach {h : Heap} {ptrs : List Nat} (run : TopKeptReach h ptrs) :
    HeapReach kernelHeap h ptrs := by
  induction run with
  | init m => exact .init m
  | malloc _ _ _ call ih => exact .malloc ih call
  | free _ legal call ih => exact .free ih legal call
  | write v _ held lower upper ih => exact .write v ih held lower upper

theorem TopKeptReach.top {h : Heap} {ptrs : List Nat} (run : TopKeptReach h ptrs) :
    ∃ bs, HeapInv kernelHeap h bs ∧ TopFree bs := by
  induction run with
  | init m =>
    refine ⟨_, HeapInv.heapInit m (by decide), _, List.mem_singleton_self _, rfl, by decide, by decide⟩
  | @malloc h h' ptrs n p cs _ chain keeps call ih =>
    obtain ⟨bs, inv, top⟩ := ih
    have same := inv.linked.unique chain
    subst same
    rcases inv.kmalloc_spec n with ⟨unchanged, _⟩ | ⟨m', a, bs', positive, taking, result, inv', _⟩
    · rw [unchanged] at call
      cases Option.some.inj call
      exact ⟨bs, inv, top⟩
    · rw [result] at call
      cases Option.some.inj call
      exact ⟨bs', inv', (top.take_iff inv positive taking).mpr keeps⟩
  | @free h h' ptrs p before legal call ih =>
    obtain ⟨bs, inv, top⟩ := ih
    by_cases held : p ∈ ptrs
    · obtain ⟨b, used, rfl⟩ := ((before.reach.outstanding inv).mem_iff p).mp held
      obtain ⟨m', result, inv', _⟩ := inv.kfree_live (mem_live.mp used).1
      rw [result] at call
      cases Option.some.inj call
      exact ⟨_, inv', TopFreeBy.giveBack (d := 64) inv top⟩
    · rw [inv.kfree_outside (by tauto)] at call
      cases Option.some.inj call
      exact ⟨bs, inv, top⟩
  | @write h ptrs p x v before held lower upper ih =>
    obtain ⟨bs, inv, top⟩ := ih
    exact ⟨bs, inv.write (before.reach.outstanding inv) v held lower upper, top⟩

/-- In every run of the kernel heap whose requests all keep 76 bytes of the
topmost block free, an interrupt from ring 3 touches no header and no payload in
use; and a request that does not keep them breaks this at once. -/
theorem interrupt_stack_clear_of_top_kept {h : Heap} {ptrs : List Nat} (run : TopKeptReach h ptrs) :
    StackClear kernelTss h ∧ ∀ bs n h' p, Chain h.mem 0 h.heapHead bs → kmalloc h n = some (h', p) →
      (StackClear kernelTss h' ↔ KeepsTop bs n) := by
  obtain ⟨bs, inv, top⟩ := run.top
  refine ⟨inv.stackClear_iff.mpr top, ?_⟩
  intro cs n h' p chain call
  have same := inv.linked.unique chain
  subst same
  rcases inv.kmalloc_spec n with ⟨unchanged, nothing⟩ | ⟨m', a, bs', positive, taking, result, inv', _⟩
  · rw [unchanged] at call
    cases Option.some.inj call
    refine iff_of_true (inv.stackClear_iff.mpr top) ?_
    intro positive pre b shape free fits _
    rcases nothing with zero | none
    · exact absurd zero positive
    · exact absurd ⟨free, fits⟩ (take_eq_none.mp none b (by simp [shape]))
  · rw [result] at call
    cases Option.some.inj call
    rw [inv'.stackClear_iff]
    exact top.take_iff inv positive taking

/-- After two calls of `kmalloc`. -/
theorem interrupt_stack_clear_after_requests :
    ∃ h, TopKeptReach h [0xC1000080, 0xC100000C] ∧ StackClear kernelTss h ∧
      ∀ h' p, kmalloc h 1048200 = some (h', p) → ¬ StackClear kernelTss h' := by
  obtain ⟨_, h, _, _, first, second, _, _, inv₁, inv, _⟩ := kernelHeap_calls fun _ => 0
  have start := HeapInv.heapInit (r := kernelHeap) (fun _ => 0) (by decide)
  have run₁ := (TopKeptReach.init fun _ => 0).malloc start.linked
    ((keepsTopBy_last_iff [] (d := 64) (by decide) rfl (by decide) (by simp)).mpr (by decide)) first
  have run := run₁.malloc inv₁.linked ((keepsTopBy_last_iff [⟨0xC1000000, 104, false⟩] (d := 64)
    (by decide) rfl (by decide) (by simp)).mpr (by decide)) second
  obtain ⟨clear, exact⟩ := interrupt_stack_clear_of_top_kept run
  refine ⟨h, run, clear, fun h' p call kept => ?_⟩
  have keeps := (exact _ _ _ _ inv.linked call).mp kept (by decide)
    [⟨0xC1000000, 104, false⟩, ⟨0xC1000074, 200, false⟩] _ rfl rfl (by decide) (by simp)
  exact absurd keeps (by decide)

/-- One request for 1048560 bytes takes the whole heap: its payload ends at
`esp0`, under the frames of every later interrupt. -/
theorem interrupt_stack_overlaps_heap :
    ∃ h, HeapReach kernelHeap h [0xC100000C] ∧ ¬StackClear kernelTss h := by
  have inv := HeapInv.heapInit (r := kernelHeap) (fun _ => 0) (by decide)
  rcases inv.kmalloc_spec 1048560 with ⟨_, zero | none⟩ | ⟨m', a, bs', _, taking, result, inv', _⟩
  · exact absurd zero (by decide)
  · exact absurd none (by decide)
  · have whole : take 12 20 (align8 1048560) [⟨kernelHeap.start, kernelHeap.size - 12, true⟩] =
        some (0xC1000000, [⟨0xC1000000, 1048564, false⟩]) := by decide
    rw [whole] at taking
    cases Option.some.inj taking
    refine ⟨_, HeapReach.malloc (.init fun _ => 0) result, ?_⟩
    rw [inv'.stackClear_iff]
    rintro ⟨b, member, free, _⟩
    rw [List.mem_singleton.mp member] at free
    simp at free

end LearningOS
