import LearningOS.Kernel.Machine

namespace LearningOS
open ByteStore Tiling

/-- The calls the heap's clients are specified for: a write ends at least eight
bytes below the end of the address space, `scheduler_start` runs in the kernel
context and a task stays inside its stack. -/
def SmallWrites (k : Kernel) : KernelOp → Prop
  | .fs (.write _ offset buffer) => offset + buffer.length ≤ 0xFFFFFFF8
  | .start _ => k.sched.currentTask = -1
  | .stack slot offset _ => (k.sched.tasks slot).state ≠ .unused ∧ offset < 4096
  | _ => True

/-- The blocks the files linked into the root own. -/
def dataOwners (fs : Ramfs) : List Nat := (linkedNodes fs).filterMap fun c => dataOwner (fs.nodes c)

theorem SmallWrites.allowed {k : Kernel} {op : KernelOp} (small : SmallWrites k op) : op.Allowed k := by
  cases op with
  | fs call =>
    cases call with
    | write node offset buffer =>
      change offset + buffer.length ≤ 0xFFFFFFF8 at small
      refine ⟨?_, ?_⟩
      · change offset + buffer.length < 2 ^ 32
        omega
      · cases node with
        | none => exact trivial
        | some name => exact fun _ _ _ _ => small
    | _ => exact ⟨trivial, trivial⟩
  | start esp => exact small
  | stack slot offset byte => exact small
  | _ => exact trivial

/-- Every state of a run whose steps are allowed is in order. -/
theorem KernelReach.inv {r : HeapRegion} {image : BootImage r} {ok : Kernel → KernelOp → Prop} {k : Kernel}
    {trace : List FsEvent} (reach : KernelReach r image ok k trace) (allowed : ∀ k op, ok k op → op.Allowed k) :
    ∃ kids, KernelInv r image.hello k kids := by
  induction reach with
  | boot s fs => exact ⟨[1], KernelInv.boot image s fs⟩
  | @step k k' trace op event frees _ legal run ih =>
    obtain ⟨kids, inv⟩ := ih
    obtain ⟨_, _, _, result, done⟩ := inv.step (allowed k op legal)
    cases Option.some.inj (run.symm.trans result)
    exact done.inv

/-- A pointer freed by a step is the payload of a used block of the heap it is
freed in. -/
theorem FreesLive.used {r : HeapRegion} {frees : List FreeCall} (live : FreesLive r frees) {call : FreeCall}
    (member : call ∈ frees) : ∃ bs, Chain call.heap.mem 0 call.heap.heapHead bs ∧
      ∃ b ∈ bs, b.free = false ∧ call.ptr = b.addr + 12 := by
  obtain ⟨ptrs, ⟨bs, inv, out⟩, held⟩ := live call member
  obtain ⟨b, used, atB⟩ := (out.mem_iff _).mp held
  obtain ⟨inBs, notFree⟩ := mem_live.mp used
  exact ⟨bs, inv.linked, b, inBs, notFree, atB⟩

/-- In every state of every interleaving of the scheduler and the file system
over one heap, the used blocks are exactly the stacks of the slots in use and the
data of the linked files that own theirs, no two owners share a block, each stack
has its 4096 bytes, and unused slots have none. Every further call returns and
frees only used blocks. -/
theorem kernel_heap_ownership {r : HeapRegion} {image : BootImage r} {k : Kernel} {trace : List FsEvent}
    (reach : KernelReach r image SmallWrites k trace) :
    ∃ bs, Chain k.heap.mem 0 k.heap.heapHead bs ∧
      (∀ p, p ∈ stackOwners k.sched ++ dataOwners k.fs ↔ ∃ b ∈ bs, b.free = false ∧ p = b.addr + 12) ∧
      (stackOwners k.sched ++ dataOwners k.fs).Nodup ∧
      (∀ i, (k.sched.tasks i).state ≠ .unused →
        ∃ b ∈ bs, b.free = false ∧ (k.sched.tasks i).stackBase = b.addr + 12 ∧ 4096 ≤ b.size) ∧
      (∀ i, (k.sched.tasks i).state = .unused → (k.sched.tasks i).stackBase = 0) ∧
      ∀ op, SmallWrites k op → ∃ k' event frees, kernelStep k op = some (k', event, frees) ∧
        ∀ call ∈ frees, ∃ cs, Chain call.heap.mem 0 call.heap.heapHead cs ∧
          ∃ b ∈ cs, b.free = false ∧ call.ptr = b.addr + 12 := by
  obtain ⟨kids, inv⟩ := reach.inv fun _ _ small => small.allowed
  have same : dataOwners k.fs = kids.filterMap fun c => dataOwner (k.fs.nodes c) := by
    simp only [dataOwners, inv.fs.tree.linked]
  obtain ⟨bs, heap, out⟩ := inv.fs.held
  rw [← same] at out
  have owned (p : Nat) : p ∈ stackOwners k.sched ++ dataOwners k.fs ↔ ∃ b ∈ bs, b.free = false ∧ p = b.addr + 12 := by
    simp only [out.mem_iff, mem_live, and_assoc]
  refine ⟨bs, heap.linked, owned, out.nodup, fun i used => ?_,
    fun i unused => (inv.sched.bases i).mp unused, fun op small => ?_⟩
  · have owner := stackOwner_eq_some.mpr ⟨used, rfl⟩
    obtain ⟨b, inBs, notFree, atB⟩ := (owned _).mp (List.mem_append_left _ (mem_stackOwners owner))
    have room := inv.stackRoom i _ owner
    rw [atB, heap.roomAt_eq inBs] at room
    exact ⟨b, inBs, notFree, atB, room⟩
  · obtain ⟨k', event, frees, run, done⟩ := inv.step small.allowed
    exact ⟨k', event, frees, run, fun call member => done.frees.used member⟩

/-- An image with `hello_data` at 0xC0105000. -/
def sampleImage : BootImage kernelHeap where
  mem := paste (fun _ => 0) 0xC0105000 helloText
  hello := 0xC0105000
  nonnull := by decide
  below := by decide
  loaded := window_paste_same _ _ helloText

theorem kernel_heap_ownership_first_task :
    ∃ k, KernelReach kernelHeap sampleImage SmallWrites k [] ∧ (k.sched.tasks 0).state = .runnable ∧
      ∃ bs, Chain k.heap.mem 0 k.heap.heapHead bs ∧
        ∃ b ∈ bs, b.free = false ∧ (k.sched.tasks 0).stackBase = b.addr + 12 ∧ 4096 ≤ b.size := by
  have inv := HeapInv.heapInit (r := kernelHeap) sampleImage.mem (by decide)
  have slot : freeSlot (schedulerInit schedReset) = some 0 := by decide
  rcases inv.kmalloc_spec 4096 with ⟨_, zero | none⟩ | ⟨m', a, bs', _, _, result, _⟩
  · exact absurd zero (by decide)
  · exact absurd none (by decide)
  · obtain ⟨frame, call⟩ : ∃ frame : Bytes × Nat,
        schedulerAdd (heapInit sampleImage.mem kernelHeap.start kernelHeap.size) (schedulerInit schedReset) 0xC0101000 =
          some ({ heapInit sampleImage.mem kernelHeap.start kernelHeap.size with mem := frame.1 },
            installTask (schedulerInit schedReset) 0 (a + 12) frame.2, (schedulerInit schedReset).nextPid) :=
      ⟨taskContextInit m' 0xC0101000 (u32 (a + 12 + 4096)), by simp [schedulerAdd, slot, result]⟩
    have run := kernelStep_add (k := kernelBoot kernelHeap sampleImage schedReset blankFs) call
    have small : SmallWrites (kernelBoot kernelHeap sampleImage schedReset blankFs) (.add 0xC0101000) := trivial
    have reach := KernelReach.step (.boot schedReset blankFs) small run
    obtain ⟨bs, chain, _, _, slots, _⟩ := kernel_heap_ownership reach
    have runnable : ((installTask (schedulerInit schedReset) 0 (a + 12) frame.2).tasks 0).state = .runnable := rfl
    exact ⟨_, reach, runnable, bs, chain, slots 0 fun unused => by simp [runnable] at unused⟩

end LearningOS
