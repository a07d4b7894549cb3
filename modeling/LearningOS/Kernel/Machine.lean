import LearningOS.Fs.Simulation
import LearningOS.Proc.Stacks

namespace LearningOS
open ByteStore

/-- The heap and its two clients. -/
structure Kernel where
  heap : Heap
  sched : Sched
  fs : Ramfs

/-- The loaded kernel image: where the linker put `hello_data`, below the heap. -/
structure BootImage (r : HeapRegion) where
  mem : Bytes
  hello : Nat
  nonnull : hello ≠ 0
  below : hello + 18 ≤ r.start
  loaded : window mem hello 17 = helloText

/-- The kernel once `kernel_main` has called `ramfs_init`, `heap_init` and
`scheduler_init`. -/
def kernelBoot (r : HeapRegion) (image : BootImage r) (s : Sched) (fs : Ramfs) : Kernel :=
  ⟨heapInit image.mem r.start r.size, schedulerInit s, ramfsInit fs image.hello⟩

/-- What happens to the kernel: calls on the file system and the scheduler,
interrupts, and tasks that write to their own stacks. -/
inductive KernelOp
  | fs (op : FsOp)
  | add (entry : Nat)
  | wait (pid : Int)
  | start (esp : Nat)
  | timer (esp : Nat)
  | irq (esp : Nat)
  | yield (esp : Nat)
  | exit (code : Int) (esp : Nat)
  | stack (slot : Fin 4) (offset : Nat) (byte : UInt8)

/-- A call on the file system with what it returned. -/
abbrev FsEvent := FsOp × FsResult

/-- A switch changes nothing but the scheduler. -/
def Kernel.switched (k : Kernel) (call : Option (Sched × Nat)) : Option (Kernel × Option FsEvent × List FreeCall) :=
  call.map fun (sched, _) => ({ k with sched }, none, [])

def kernelStep (k : Kernel) : KernelOp → Option (Kernel × Option FsEvent × List FreeCall)
  | .fs op => (fsStep k.heap k.fs op).map fun (heap, fs, result, frees) => ({ k with heap, fs }, some (op, result),
      frees)
  | .add entry => (schedulerAdd k.heap k.sched entry).map fun (heap, sched, _) => ({ k with heap, sched }, none, [])
  | .wait pid =>
    (schedulerWait k.heap k.sched pid).map fun (heap, sched, _, _, frees) => ({ k with heap, sched }, none, frees)
  | .start esp => k.switched (schedulerStart k.sched esp)
  | .timer esp => k.switched (timerInterrupt k.sched esp)
  | .irq esp => k.switched (schedulerSwitchFromIsr k.sched esp)
  | .yield esp => k.switched (taskYield k.sched esp)
  | .exit code esp => k.switched (schedulerExit k.sched code esp)
  | .stack slot offset byte =>
    let base := (k.sched.tasks slot).stackBase
    some ({ k with heap := { k.heap with mem := store k.heap.mem (u32 (base + offset)) byte } }, none, [])

theorem kernelStep_add {k : Kernel} {entry : Nat} {h : Heap} {s : Sched} {pid : Int}
    (call : schedulerAdd k.heap k.sched entry = some (h, s, pid)) :
    kernelStep k (.add entry) = some ({ k with heap := h, sched := s }, none, []) := by
  simp only [kernelStep, call, Option.map_some]

theorem kernelStep_fs {k : Kernel} {op : FsOp} {h : Heap} {fs : Ramfs} {result : FsResult} {frees : List FreeCall}
    (call : fsStep k.heap k.fs op = some (h, fs, result, frees)) :
    kernelStep k (.fs op) = some ({ k with heap := h, fs }, some (op, result), frees) := by
  simp only [kernelStep, call, Option.map_some]

/-- What callers promise: `scheduler_start` runs in the kernel context, a task
stays inside its stack, and a written range does not wrap nor come so close to
the end of the address space that the rounding of `kmalloc` does. -/
def KernelOp.Allowed (k : Kernel) : KernelOp → Prop
  | .fs op => op.NoWrap ∧ op.Fits (listing k.heap.mem k.fs)
  | .start _ => k.sched.currentTask = -1
  | .stack slot offset _ => (k.sched.tasks slot).state ≠ .unused ∧ offset < 4096
  | _ => True

/-- The runs of the kernel whose steps all meet a condition, with the calls on
the file system and their results. -/
inductive KernelReach (r : HeapRegion) (image : BootImage r) (ok : Kernel → KernelOp → Prop) :
    Kernel → List FsEvent → Prop
  | boot (s : Sched) (fs : Ramfs) : KernelReach r image ok (kernelBoot r image s fs) []
  | step {k k' trace op event frees} : KernelReach r image ok k trace → ok k op →
      kernelStep k op = some (k', event, frees) → KernelReach r image ok k' (trace ++ event.toList)

/-- The kernel is in order: so are its scheduler and its file system, each
client's blocks are the allocated ones, and every stack has its 4096 bytes. -/
structure KernelInv (r : HeapRegion) (hello : Nat) (k : Kernel) (kids : List (Fin 9)) : Prop where
  sched : SchedInv k.sched
  fs : FsInv r hello (stackOwners k.sched) k.heap k.fs kids
  stackRoom : ∀ i p, stackOwner (k.sched.tasks i) = some p → 4096 ≤ roomAt k.heap p

/-- A step that was taken: the kernel is in order, only allocated pointers were
freed, and the file system did what its abstract model does. -/
structure KernelDone (r : HeapRegion) (hello : Nat) (k : Kernel) (op : KernelOp) (k' : Kernel) (event : Option FsEvent)
    (frees : List FreeCall) : Prop where
  inv : ∃ kids', KernelInv r hello k' kids'
  frees : FreesLive r frees
  view : (event = none ∧ listing k'.heap.mem k'.fs = listing k.heap.mem k.fs) ∨
    ∃ call result, op = .fs call ∧ event = some (call, result) ∧ (call.InDomain (listing k.heap.mem k.fs) →
      (listing k.heap.mem k.fs).step (call.granted k.heap) call = (listing k'.heap.mem k'.fs, result))

namespace KernelInv
variable {r : HeapRegion} {hello : Nat} {k : Kernel} {kids : List (Fin 9)}

theorem boot (image : BootImage r) (s : Sched) (fs : Ramfs) :
    KernelInv r image.hello (kernelBoot r image s fs) [1] := by
  have below := image.below
  refine ⟨schedulerInit_inv s, ⟨ramfsInit_tree fs image.hello, ?_, fun c member p owner => ?_, image.nonnull, below⟩,
    fun i p owner => ?_⟩
  · change Held r (heapInit image.mem r.start r.size) []
    exact Held.init image.mem (by omega)
  · rw [List.mem_singleton.mp member] at owner
    simp [dataOwner, kernelBoot, ramfsInit, blankNode] at owner
  · simp [kernelBoot, schedulerInit, stackOwner] at owner

/-- A step of the scheduler that moves no stack. -/
theorem switched (inv : KernelInv r hello k kids) {op : KernelOp} {t : Sched} (sched : SchedInv t)
    (owners : ∀ i, stackOwner (t.tasks i) = stackOwner (k.sched.tasks i)) :
    KernelDone r hello k op { k with sched := t } none [] := by
  have same : stackOwners t = stackOwners k.sched := by
    unfold stackOwners
    exact List.filterMap_congr fun i _ => owners i
  refine ⟨⟨kids, sched, ?_, fun i p owner => inv.stackRoom i p (owners i ▸ owner)⟩, by simp [FreesLive],
    Or.inl ⟨rfl, rfl⟩⟩
  change FsInv r hello (stackOwners t) k.heap k.fs kids
  rw [same]
  exact inv.fs

theorem fsCall (inv : KernelInv r hello k kids) {op : FsOp} (noWrap : op.NoWrap)
    (fits : op.Fits (listing k.heap.mem k.fs)) :
    ∃ k' event frees, kernelStep k (.fs op) = some (k', event, frees) ∧
      KernelDone r hello k (.fs op) k' event frees := by
  obtain ⟨h', fs', result, frees, run, done⟩ := inv.fs.step op noWrap fits
  obtain ⟨kids', invFs⟩ := done.inv
  refine ⟨{ k with heap := h', fs := fs' }, some (op, result), frees,
    kernelStep_fs run, ⟨kids', inv.sched, invFs, fun i p owner => ?_⟩,
    done.frees, Or.inr ⟨op, result, rfl, rfl, done.refines⟩⟩
  rw [(done.others p (mem_stackOwners owner)).room]
  exact inv.stackRoom i p owner

/-- A heap in which every block is kept shows the same files. -/
theorem listing_kept (inv : KernelInv r hello k kids) (h' : Heap)
    (kept : ∀ c ∈ kids, ∀ p, dataOwner (k.fs.nodes c) = some p → SamePayload k.heap h' p)
    (outside : SameOutside r k.heap h') : listing h'.mem k.fs = listing k.heap.mem k.fs := by
  have below := inv.fs.below
  simp only [listing, inv.fs.tree.linked]
  congr 1
  exact List.map_congr_left fun c member => inv.fs.entry_same h' member (kept c member)
    fun _ x _ upper => outside x (by omega)

theorem rooms (inv : KernelInv r hello k kids) : ∀ p ∈ stackOwners k.sched, 4096 ≤ roomAt k.heap p := by
  intro p member
  obtain ⟨i, _, owner⟩ := List.mem_filterMap.mp member
  exact inv.stackRoom i p owner

/-- A call of the scheduler that the stacks and the other held blocks get through. -/
theorem called (inv : KernelInv r hello k kids) {h' : Heap} {s' : Sched} (sched : SchedInv s')
    (call : StackCall r (kids.filterMap fun c => dataOwner (k.fs.nodes c)) k.heap k.sched h' s') :
    KernelInv r hello { k with heap := h', sched := s' } kids ∧ listing h'.mem k.fs = listing k.heap.mem k.fs := by
  have keptKid (c : Fin 9) (member : c ∈ kids) (q : Nat) (owner : dataOwner (k.fs.nodes c) = some q) :
      SamePayload k.heap h' q := by
    have inFs : q ∈ kids.filterMap fun c => dataOwner (k.fs.nodes c) := List.mem_filterMap.mpr ⟨c, member, owner⟩
    exact call.kept q (List.mem_append_right _ inFs) (List.mem_append_right _ inFs)
  refine ⟨⟨sched, inv.fs.keep call.held keptKid, fun i p owner => ?_⟩, inv.listing_kept h' keptKid call.outside⟩
  exact call.room p (mem_stackOwners owner)

theorem add (inv : KernelInv r hello k kids) (entry : Nat) :
    ∃ k' event frees, kernelStep k (.add entry) = some (k', event, frees) ∧
      KernelDone r hello k (.add entry) k' event frees := by
  obtain ⟨h', s', ret, run, call⟩ := schedulerAdd_stacks inv.fs.held inv.rooms entry
  obtain ⟨inv', same⟩ := inv.called (inv.sched.add run).1 call
  exact ⟨{ k with heap := h', sched := s' }, none, [], kernelStep_add run, ⟨kids, inv'⟩, by simp [FreesLive],
    Or.inl ⟨rfl, same⟩⟩

theorem wait (inv : KernelInv r hello k kids) (pid : Int) :
    ∃ k' event frees, kernelStep k (.wait pid) = some (k', event, frees) ∧
      KernelDone r hello k (.wait pid) k' event frees := by
  cases found : zombieSlot k.sched pid with
  | none => exact ⟨k, none, [], by simp [kernelStep, schedulerWait, found], inv.switched inv.sched fun _ => rfl⟩
  | some i =>
    obtain ⟨zombie, _⟩ := zombieSlot_zombie found
    have used : (k.sched.tasks i).state ≠ .unused := by simp [zombie]
    have base : (k.sched.tasks i).stackBase ≠ 0 := fun zero => used ((inv.sched.bases i).mpr zero)
    have owner := mem_stackOwners (stackOwner_eq_some.mpr ⟨used, rfl⟩)
    obtain ⟨h', freed, call⟩ := reap_stacks inv.fs.held inv.rooms used
    obtain ⟨inv', same⟩ := inv.called (inv.sched.reap zombie) call
    have run : schedulerWait k.heap k.sched pid =
        some (h', reap k.sched i, 0, some (k.sched.tasks i).exitCode, [⟨k.heap, (k.sched.tasks i).stackBase⟩]) := by
      simp [schedulerWait, found, base, freed]
    refine ⟨{ k with heap := h', sched := reap k.sched i }, none, [⟨k.heap, (k.sched.tasks i).stackBase⟩],
      by simp only [kernelStep, run, Option.map_some], ⟨kids, inv'⟩, fun call inside => ?_, Or.inl ⟨rfl, same⟩⟩
    cases List.mem_singleton.mp inside
    exact ⟨_, inv.fs.held, List.mem_append_left _ owner⟩

theorem stack (inv : KernelInv r hello k kids) {slot : Fin 4} {offset : Nat} (byte : UInt8)
    (used : (k.sched.tasks slot).state ≠ .unused) (inside : offset < 4096) :
    ∃ k' event frees, kernelStep k (.stack slot offset byte) = some (k', event, frees) ∧
      KernelDone r hello k (.stack slot offset byte) k' event frees := by
  have owner := stackOwner_eq_some.mpr ⟨used, rfl⟩
  have atBase : (k.sched.tasks slot).stackBase ∈
      stackOwners k.sched ++ kids.filterMap fun c => dataOwner (k.fs.nodes c) :=
    List.mem_append_left _ (mem_stackOwners owner)
  have bounds := inv.fs.held.bounds atBase
  have room := inv.stackRoom slot _ owner
  have stop := r.stop_lt
  have address : u32 ((k.sched.tasks slot).stackBase + offset) = (k.sched.tasks slot).stackBase + offset :=
    u32_of_lt (by omega)
  obtain ⟨held, sameRoom, kept⟩ := inv.fs.held.poke atBase
    (store k.heap.mem ((k.sched.tasks slot).stackBase + offset) byte) fun x _ _ away => store_of_ne (by omega)
  have separate := (List.nodup_append'.mp inv.fs.held.nodup).2.2
  have keptKid (c : Fin 9) (member : c ∈ kids) (q : Nat) (ownerC : dataOwner (k.fs.nodes c) = some q) :
      SamePayload k.heap { k.heap with mem := store k.heap.mem ((k.sched.tasks slot).stackBase + offset) byte } q := by
    have inFs : q ∈ kids.filterMap fun c => dataOwner (k.fs.nodes c) := List.mem_filterMap.mpr ⟨c, member, ownerC⟩
    exact kept q (List.mem_append_right _ inFs) fun same => separate (mem_stackOwners owner) (same ▸ inFs)
  refine ⟨{ k with heap :=
      { k.heap with mem := store k.heap.mem ((k.sched.tasks slot).stackBase + offset) byte } }, none, [],
    by simp only [kernelStep, address], ⟨kids, inv.sched, inv.fs.keep held keptKid, fun i q ownerI => ?_⟩,
    by simp [FreesLive], Or.inl ⟨rfl, ?_⟩⟩
  · by_cases same : q = (k.sched.tasks slot).stackBase
    · rw [same]
      exact room.trans sameRoom.ge
    · exact (inv.stackRoom i q ownerI).trans (kept q (List.mem_append_left _ (mem_stackOwners ownerI)) same).room.ge
  · exact inv.listing_kept _ keptKid fun x away => store_of_ne (by omega)

/-- Every allowed step can be taken and keeps the kernel in order. -/
theorem step (inv : KernelInv r hello k kids) {op : KernelOp} (allowed : op.Allowed k) :
    ∃ k' event frees, kernelStep k op = some (k', event, frees) ∧ KernelDone r hello k op k' event frees := by
  cases op with
  | fs op => exact inv.fsCall allowed.1 allowed.2
  | add entry => exact inv.add entry
  | wait pid => exact inv.wait pid
  | start esp =>
    obtain ⟨t, esp', run, sched, same⟩ := inv.sched.start esp
    exact ⟨_, none, [], by simp only [kernelStep, Kernel.switched, run, Option.map_some],
      inv.switched sched same.stackOwner_eq⟩
  | timer esp =>
    obtain ⟨t, esp', run, sched, same, _⟩ := inv.sched.interrupt esp
    exact ⟨_, none, [], by simp only [kernelStep, Kernel.switched, run, Option.map_some],
      inv.switched sched same.stackOwner_eq⟩
  | irq esp =>
    obtain ⟨t, esp', run, sched, same, _⟩ := inv.sched.switch esp
    exact ⟨_, none, [], by simp only [kernelStep, Kernel.switched, run, Option.map_some],
      inv.switched sched same.stackOwner_eq⟩
  | yield esp =>
    obtain ⟨t, esp', run, sched, same, _⟩ := inv.sched.yield esp
    exact ⟨_, none, [], by simp only [kernelStep, Kernel.switched, run, Option.map_some],
      inv.switched sched same.stackOwner_eq⟩
  | exit code esp =>
    obtain ⟨t, esp', run, sched, off, on⟩ := inv.sched.exit code esp
    refine ⟨{ k with sched := t }, none, [], by simp only [kernelStep, Kernel.switched, run, Option.map_some],
      inv.switched sched fun i => ?_⟩
    cases enabled : k.sched.schedulingEnabled with
    | false => rw [off enabled]
    | true =>
      obtain ⟨_, _, prev, current, same⟩ := on enabled
      exact (same.stackOwner_eq i).trans (retire_stackOwner (inv.sched.current_runs current) code i)
  | stack slot offset byte => exact inv.stack byte allowed.1 allowed.2

end KernelInv

end LearningOS
