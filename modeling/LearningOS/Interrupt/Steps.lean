import LearningOS.Interrupt.Frames

namespace LearningOS
open ByteStore History

/-- A call that changes the heap and the slots without a task, or fills one: runnable
tasks keep their slots, their stacks and what is below `esp0`. -/
structure HeapCall (depth : Nat) (m m' : Machine) : Prop where
  user : m'.user = m.user
  esp : m'.esp = m.esp
  current : m'.sched.currentTask = m.sched.currentTask
  on : m'.sched.schedulingEnabled = m.sched.schedulingEnabled
  kernelEsp : m'.sched.kernelEsp = m.sched.kernelEsp
  tasks : ∀ i, (m.sched.tasks i).state = .runnable → m'.sched.tasks i = m.sched.tasks i
  payload : ∀ i, (m.sched.tasks i).state = .runnable → SamePayload m.heap m'.heap (m.sched.tasks i).stackBase
  top : ∀ x, kernelTss.esp0 - depth ≤ x → m'.heap.mem x = m.heap.mem x
  fresh : ∀ i, (m'.sched.tasks i).state = .runnable → (m.sched.tasks i).state ≠ .runnable → FrameAtHome m' i

namespace FramesInv
variable {depth : Nat} {m m' : Machine}

theorem heapCall (inv : FramesInv depth m) (call : HeapCall depth m m') (sched : SchedInv m'.sched)
    (heap : HeldBelow kernelHeap depth m'.heap (stackOwners m'.sched ++ m'.others))
    (room : ∀ p ∈ stackOwners m'.sched, 4096 ≤ roomAt m'.heap p) :
    FramesInv depth m' ∧ ∀ i, Suspended m.sched i → FrameKept m m' i := by
  have kept (i : Fin 4) (suspended : Suspended m.sched i) : FrameKept m m' i := by
    have same := call.tasks i suspended.1
    have large := inv.room _ (inv.block suspended.used).1
    refine ⟨by rw [same], by rw [same], fun x lower upper => ?_⟩
    rcases inv.frame_spot suspended lower upper with ⟨low, high⟩ | ⟨_, above, _⟩
    · exact (call.payload i suspended.1).bytes x low (by omega)
    · exact call.top x above
  refine ⟨inv.rebuild sched heap room (fun i suspended => ?_) ⟨call.on, call.kernelEsp⟩ (fun ring0 => ?_)
    fun ring0 trap => ?_, kept⟩
  · by_cases runs : (m.sched.tasks i).state = .runnable
    · have before : Suspended m.sched i := ⟨runs, call.current ▸ suspended.2⟩
      exact Or.inr ⟨before, kept i before⟩
    · exact Or.inl (call.fresh i suspended.1 runs)
  · refine OnStack.moved (m := m) ?_ call.current fun i current => by rw [call.tasks i (inv.sched.current_runs current)]
    rw [call.esp]
    exact inv.stack (call.user ▸ ring0)
  · rw [call.esp] at trap
    exact inv.clear (call.user ▸ ring0) trap

theorem payload_owner (inv : FramesInv depth m) {i : Fin 4} (runs : (m.sched.tasks i).state = .runnable) :
    (m.sched.tasks i).stackBase ∈ stackOwners m.sched ++ m.others :=
  List.mem_append_left _ (inv.block (by simp [runs])).1

theorem malloc (inv : FramesInv depth m) {n : Nat} (careful : (MachineOp.malloc n).Careful depth m)
    (run : machineStep m (.malloc n) = some m') :
    FramesInv depth m' ∧ ∀ i, Suspended m.sched i → FrameKept m m' i := by
  obtain ⟨⟨heap, p⟩, call, rfl⟩ := Option.map_eq_some_iff.mp run
  have top := trapStack_bounds.1
  have enough := inv.enough
  rcases inv.heap.malloc (by omega) fun bs heapInv => careful bs heapInv.linked with
    failed | ⟨h', q, took, pointer, below, _, kept, _, spare⟩
  · cases Option.some.inj (call.symm.trans failed)
    exact ⟨inv, fun i _ => .refl m i⟩
  · cases Option.some.inj (call.symm.trans took)
    simp only [if_neg pointer]
    refine inv.heapCall ⟨rfl, rfl, rfl, rfl, rfl, fun _ _ => rfl, fun i runs => kept _ (inv.payload_owner runs),
      fun x above => spare x (by omega), fun i runs stopped => absurd runs stopped⟩ inv.sched
      (below.perm List.perm_middle.symm) fun p owner => ?_
    rw [(kept p (List.mem_append_left _ owner)).room]
    exact inv.room p owner

theorem free (inv : FramesInv depth m) {p : Nat} (other : p ∈ m.others) (run : machineStep m (.free p) = some m') :
    FramesInv depth m' ∧ ∀ i, Suspended m.sched i → FrameKept m m' i := by
  obtain ⟨heap, call, rfl⟩ := Option.map_eq_some_iff.mp run
  have top := trapStack_bounds.1
  have foreign (q : Nat) (owner : q ∈ stackOwners m.sched) : q ≠ p :=
    (List.nodup_append.mp inv.heap.held.nodup).2.2 q owner p other
  obtain ⟨h', freed, below, kept, _, spare⟩ := inv.heap.free (List.mem_append_right _ other)
  cases Option.some.inj (call.symm.trans freed)
  rw [List.erase_append_right _ fun owner => foreign p owner rfl] at below
  refine inv.heapCall ⟨rfl, rfl, rfl, rfl, rfl, fun _ _ => rfl, fun i runs => ?_, fun x above => spare x (by omega),
    fun i runs stopped => absurd runs stopped⟩ inv.sched below fun q owner => ?_
  · exact kept _ (inv.payload_owner runs) (foreign _ (inv.block (by simp [runs])).1)
  · rw [(kept q (List.mem_append_left _ owner) (foreign q owner)).room]
    exact inv.room q owner

theorem wait (inv : FramesInv depth m) {pid : Int} (run : machineStep m (.wait pid) = some m') :
    FramesInv depth m' ∧ ∀ i, Suspended m.sched i → FrameKept m m' i := by
  obtain ⟨⟨heap, sched, ret, code, frees⟩, call, rfl⟩ := Option.map_eq_some_iff.mp run
  have top := trapStack_bounds.1
  have sound := (inv.sched.wait call).1
  rcases schedulerWait_cases call with ⟨rfl, rfl, _⟩ | ⟨j, zombie, _, rfl, _, _, freed⟩
  · exact ⟨inv, fun i _ => .refl m i⟩
  have used : (m.sched.tasks j).state ≠ .unused := by simp [zombie]
  rcases freed with ⟨_, free, _⟩ | ⟨zero, _⟩
  swap
  · exact absurd ((inv.sched.bases j).mpr zero) used
  obtain ⟨h', result, owned⟩ := reap_stacks inv.heap.held inv.room used
  cases Option.some.inj (free.symm.trans result)
  obtain ⟨h', result, below, _, _, spare⟩ := inv.heap.free (List.mem_append_left _ (inv.block used).1)
  cases Option.some.inj (free.symm.trans result)
  have other (i : Fin 4) (differ : i ≠ j) : (reap m.sched j).tasks i = m.sched.tasks i := by
    simp only [reap, setTask_tasks, Function.update_of_ne differ]
  have keeps (i : Fin 4) (runs : (m.sched.tasks i).state = .runnable) :
      (reap m.sched j).tasks i = m.sched.tasks i := by
    refine other i ?_
    rintro rfl
    simp [zombie] at runs
  refine inv.heapCall ⟨rfl, rfl, rfl, rfl, rfl, keeps, fun i runs => owned.payload (by simp [runs]) (keeps i runs),
    fun x above => spare x (by omega), fun i runs stopped => ?_⟩ sound ⟨owned.held, below.top⟩ owned.room
  by_cases same : i = j
  · subst same
    simp [reap] at runs
  · rw [other i same] at runs
    exact absurd runs stopped

/-- The frame that `task_context_init` builds is on the new stack. -/
theorem add (inv : FramesInv depth m) {entry : Nat} (careful : (MachineOp.add entry).Careful depth m)
    (run : machineStep m (.add entry) = some m') :
    FramesInv depth m' ∧ ∀ i, Suspended m.sched i → FrameKept m m' i := by
  obtain ⟨⟨heap, sched, ret⟩, call, rfl⟩ := Option.map_eq_some_iff.mp run
  obtain ⟨top, _, high⟩ := trapStack_bounds
  have enough := inv.enough
  have sound := (inv.sched.add call).1
  have outcome := inv.heap.malloc (by omega) fun bs heapInv => careful bs heapInv.linked
  rcases schedulerAdd_cases call with ⟨rfl, _, rfl | failed⟩ | ⟨slot, h₁, base, unused, took, pointer, rfl, rfl, _⟩
  · exact ⟨inv, fun i _ => .refl m i⟩
  · rcases outcome with same | ⟨_, _, took, pointer, _⟩
    · cases Option.some.inj (failed.symm.trans same)
      exact ⟨inv, fun i _ => .refl m i⟩
    · cases Option.some.inj (failed.symm.trans took)
      exact absurd rfl pointer
  rcases outcome with same | ⟨_, _, took', _, below, space, _, _, spare⟩
  · cases Option.some.inj (took.symm.trans same)
    exact absurd rfl pointer
  cases Option.some.inj (took.symm.trans took')
  have owned := installTask_stacks inv.heap.held inv.room unused took pointer entry
  have large : 4096 ≤ roomAt h₁ base := space
  have ends := below.ends List.mem_cons_self
  have small : base + 4096 < 2 ^ 32 := by omega
  obtain ⟨esp, segment⟩ := taskContextInit_frame h₁.mem entry small
  have outside (x : Nat) (apart : x < base ∨ base + 4096 ≤ x) :
      (taskContextInit h₁.mem entry (u32 (base + 4096))).1 x = h₁.mem x := taskContextInit_outside small apart
  generalize taskContextInit h₁.mem entry (u32 (base + 4096)) = context at *
  obtain ⟨below', _⟩ := below.poke context.1 fun x changed => by
    by_cases inside : base ≤ x ∧ x < base + 4096
    · exact Or.inr (Or.inr ⟨base, List.mem_cons_self, inside.1, by omega⟩)
    · exact absurd (outside x (by omega)) changed
  obtain ⟨tasks, _, _, current, on⟩ := installTask_fields m.sched slot base context.2
  have keeps (i : Fin 4) (runs : (m.sched.tasks i).state = .runnable) :
      (installTask m.sched slot base context.2).tasks i = m.sched.tasks i := by
    have differ : i ≠ slot := by
      rintro rfl
      simp [unused] at runs
    rw [tasks, Function.update_of_ne differ]
  refine inv.heapCall ⟨rfl, rfl, current, on, by rw [installTask_eq], keeps,
    fun i runs => owned.payload (by simp [runs]) (keeps i runs), fun x above => ?_, fun i runs stopped => ?_⟩ sound
    ⟨owned.held, below'.top⟩ owned.room
  · exact (outside x (by omega)).trans (spare x (by omega))
  · have fills : i = slot := by
      by_contra differ
      rw [tasks, Function.update_of_ne differ] at runs
      exact stopped runs
    subst fills
    change InBlock ((installTask m.sched i base context.2).tasks i) ((installTask m.sched i base context.2).tasks i).irqEsp
      (frameLen context.1 ((installTask m.sched i base context.2).tasks i).irqEsp)
    have ring0 : frameLen context.1 (base + 4040) = 56 := by
      unfold frameLen fromRing3
      rw [show base + 4040 + 48 = base + 4088 by omega, segment]
      rfl
    rw [tasks, Function.update_self, esp, ring0]
    exact ⟨by simp, by simp⟩

end FramesInv

/-- The end of an interrupt whose frame is at `esp`: the switch, then the context at
`esp'` is popped. -/
structure Resumed (m : Machine) (esp : Nat) (m' : Machine) (esp' : Nat) : Prop
    extends Handover m.sched esp m'.sched esp' where
  heap : m'.heap = m.heap
  others : m'.others = m.others
  pops : m'.user = false → m'.esp = u32 (esp' + 56)

theorem Handover.resumed {m : Machine} {esp esp' : Nat} {t : Sched} (hand : Handover m.sched esp t esp') :
    ({ m with sched := t }.resume esp').sched = t ∧ Resumed m esp ({ m with sched := t }.resume esp') esp' := by
  unfold Machine.resume
  split
  · exact ⟨rfl, hand, rfl, rfl, by simp⟩
  · exact ⟨rfl, hand, rfl, rfl, fun _ => rfl⟩

namespace Resumed
variable {depth esp esp' : Nat} {m m' : Machine} {i : Fin 4}

/-- The context that is left is saved on its own stack, unless it was on that of `esp0`. -/
theorem left_frame (hand : Resumed m esp m' esp') (on : OnStack depth m esp (frameLen m.heap.mem esp))
    (current : m.sched.currentTask = i.val) : FrameAtHome m' i ∨ (InTrapStack depth m.esp 0 ∧
      InTrapStack depth (m'.sched.tasks i).irqEsp (frameLen m'.heap.mem (m'.sched.tasks i).irqEsp)) := by
  have saved : (m'.sched.tasks i).irqEsp = esp := (hand.irqEsp i).trans (if_pos current)
  rcases on with ⟨j, atJ, _, inside⟩ | ⟨kernel, _⟩ | trap
  · have same : j = i := Fin.ext (by omega)
    subst same
    left
    unfold FrameAtHome InBlock
    simp only [saved, hand.base, hand.heap]
    exact inside
  · omega
  · exact Or.inr (by rwa [saved, hand.heap])

/-- The frames of the tasks that waited before are as they were. -/
theorem kept (hand : Resumed m esp m' esp') (suspended : Suspended m.sched i) : FrameKept m m' i :=
  ⟨(hand.irqEsp i).trans (if_neg suspended.2), hand.base i, fun _ _ _ => by rw [hand.heap]⟩

/-- Whoever is off the processor after a switch was so before, or was just left. -/
theorem waiting (hand : Resumed m esp m' esp') (suspended : Suspended m'.sched i) :
    Suspended m.sched i ∨ m.sched.currentTask = i.val := by
  by_cases current : m.sched.currentTask = i.val
  · exact Or.inr current
  · exact Or.inl ⟨hand.runs i suspended.1, current⟩

theorem stackOwners_eq (hand : Resumed m esp m' esp') : stackOwners m'.sched = stackOwners m.sched := by
  unfold stackOwners
  refine List.filterMap_congr fun i _ => ?_
  simp only [stackOwner, hand.used i, hand.base i]

end Resumed

namespace FramesInv
variable {depth esp esp' : Nat} {m m' : Machine}

/-- Two tasks that wait cannot both be off their stacks, the one that was just left included. -/
theorem left_alone (inv : FramesInv depth m) (ring0 : m.user = false)
    (on : OnStack depth m esp (frameLen m.heap.mem esp)) (hand : Resumed m esp m' esp') {i j : Fin 4}
    (suspI : Suspended m.sched i) (currentJ : m.sched.currentTask = j.val) (awayI : ¬FrameAtHome m' i) :
    FrameAtHome m' j := by
  rcases hand.left_frame on currentJ with home | ⟨trap, _⟩
  · exact home
  · rw [(hand.kept suspI).home_iff] at awayI
    exact absurd (inv.clear ring0 trap i suspI) awayI

theorem kernel_spot (inv : FramesInv depth m) (on : OnStack depth m esp (frameLen m.heap.mem esp)) {t : Sched}
    (saved : KernelSaved m.sched esp t) : InBootStack t.kernelEsp 56 ∨ InTrapStack depth t.kernelEsp 56 := by
  have length := (frameLen_bounds m.heap.mem esp).1
  rcases saved with ⟨kernel, here⟩ | ⟨enabled, before⟩
  · rw [here]
    rcases on with ⟨j, atJ, _⟩ | ⟨_, _, boot⟩ | ⟨_, trap⟩
    · omega
    · unfold InBootStack at boot ⊢
      exact Or.inl (by omega)
    · unfold InTrapStack at trap ⊢
      exact Or.inr (by omega)
  · rw [before]
    exact inv.kernel enabled

/-- A frame in the heap's top is not on the task's own stack. -/
theorem not_home (inv : FramesInv depth m) {i : Fin 4} (suspended : Suspended m.sched i)
    (above : kernelTss.esp0 - depth ≤ (m.sched.tasks i).irqEsp + 56) : ¬FrameAtHome m i := by
  intro home
  have high := (inv.block suspended.used).2.2
  have length := (frameLen_bounds m.heap.mem (m.sched.tasks i).irqEsp).1
  unfold FrameAtHome InBlock at home
  omega

/-- What holds in ring 0 when the processor goes on at `esp' + 56` after a switch. -/
structure Lands (depth : Nat) (m' : Machine) (esp' : Nat) : Prop where
  stack : OnStack depth { m' with esp := esp' + 56 } (esp' + 56) 0
  clear : InTrapStack depth (esp' + 56) 0 → ∀ i, Suspended m'.sched i → FrameAtHome m' i
  small : esp' + 56 ≤ kernelTss.esp0

/-- Going on with the context that was interrupted. -/
theorem lands_same (inv : FramesInv depth m) (ring0 : m.user = false)
    (on : OnStack depth m esp (frameLen m.heap.mem esp)) (hand : Resumed m esp m' esp)
    (current : m'.sched.currentTask = m.sched.currentTask) : Lands depth m' esp := by
  have length := (frameLen_bounds m.heap.mem esp).1
  have popped : OnStack depth m (esp + 56) 0 := on.part (by omega) (by omega)
  have small := inv.esp_small popped
  refine ⟨OnStack.moved (m := m) popped current fun i _ => hand.base i, fun trap i suspended => ?_, small⟩
  have before : Suspended m.sched i := ⟨hand.runs i suspended.1, current ▸ suspended.2⟩
  exact (hand.kept before).home_iff.mpr (inv.clear ring0 (inv.trap_of_moved popped trap) i before)

/-- Going on with the kernel once no task is left. -/
theorem lands_kernel (inv : FramesInv depth m) (on : OnStack depth m esp (frameLen m.heap.mem esp))
    (saved : KernelSaved m.sched esp m'.sched) (current : m'.sched.currentTask = -1)
    (none : ∀ i, (m'.sched.tasks i).state ≠ .runnable) : Lands depth m' m'.sched.kernelEsp := by
  obtain ⟨_, size, _⟩ := trapStack_bounds
  refine ⟨?_, fun _ i suspended => absurd suspended.1 (none i), ?_⟩
  · rcases inv.kernel_spot on saved with boot | trap
    · have inside : InBootStack (m'.sched.kernelEsp + 56) 0 := by
        unfold InBootStack at boot ⊢
        omega
      exact Or.inr (Or.inl ⟨current, inside, inside⟩)
    · unfold InTrapStack at trap
      have inside : InTrapStack depth (m'.sched.kernelEsp + 56) 0 := ⟨by omega, by omega⟩
      exact Or.inr (Or.inr ⟨inside, inside⟩)
  · rcases inv.kernel_spot on saved with boot | trap
    · unfold InBootStack at boot
      omega
    · exact trap.2

/-- Going on with another task. -/
theorem lands_task (inv : FramesInv depth m) (ring0 : m.user = false)
    (on : OnStack depth m esp (frameLen m.heap.mem esp)) (hand : Resumed m esp m' esp') {n : Fin 4}
    (current : m'.sched.currentTask = n.val) (before : Suspended m.sched n) :
    Lands depth m' (m.sched.tasks n).irqEsp := by
  have length := (frameLen_bounds m.heap.mem (m.sched.tasks n).irqEsp).1
  have high := (inv.block before.used).2.2
  have kept := hand.kept before
  rcases inv.frame n before with home | trap
  · unfold FrameAtHome InBlock at home
    have inside : InBlock (m'.sched.tasks n) ((m.sched.tasks n).irqEsp + 56) 0 := by
      unfold InBlock
      rw [hand.base n]
      omega
    refine ⟨Or.inl ⟨n, current, inside, inside⟩, fun trap => ?_, by omega⟩
    unfold InTrapStack at trap
    omega
  · unfold InTrapStack at trap
    have inside : InTrapStack depth ((m.sched.tasks n).irqEsp + 56) 0 := ⟨by omega, by omega⟩
    have away := inv.not_home before (by omega)
    refine ⟨Or.inr (Or.inr ⟨inside, inside⟩), fun _ i suspended => ?_, by omega⟩
    rcases hand.waiting suspended with beforeI | left
    · by_contra awayI
      rw [(hand.kept beforeI).home_iff] at awayI
      have only := inv.alone i n beforeI before awayI away
      exact suspended.2 (only ▸ current)
    · exact inv.left_alone ring0 on hand before left (mt kept.home_iff.mp away)

theorem lands (inv : FramesInv depth m) (ring0 : m.user = false)
    (on : OnStack depth m esp (frameLen m.heap.mem esp)) (hand : Resumed m esp m' esp') : Lands depth m' esp' := by
  rcases hand.next with ⟨current, rfl⟩ | ⟨current, none, rfl, saved⟩ | ⟨n, current, runs, rfl⟩
  · exact inv.lands_same ring0 on hand current
  · exact inv.lands_kernel on saved current none
  · by_cases self : m.sched.currentTask = n.val
    · have back : (m'.sched.tasks n).irqEsp = esp := (hand.irqEsp n).trans (if_pos self)
      rw [back] at hand ⊢
      exact inv.lands_same ring0 on hand (current.trans self.symm)
    · have before : Suspended m.sched n := ⟨hand.runs n runs, self⟩
      rw [(hand.kept before).esp]
      exact inv.lands_task ring0 on hand current before

/-- A switch leaves every saved frame alone. -/
theorem switch (inv : FramesInv depth m) (ring0 : m.user = false) (on : OnStack depth m esp (frameLen m.heap.mem esp))
    (sched : SchedInv m'.sched) (hand : Resumed m esp m' esp') :
    FramesInv depth m' ∧ ∀ i, Suspended m.sched i → FrameKept m m' i := by
  have lands := inv.lands ring0 on hand
  have small : esp' + 56 < 2 ^ 32 := Nat.lt_of_le_of_lt lands.small (by decide)
  refine ⟨⟨inv.enough, inv.fits, sched, ?_, ?_, fun i suspended => ?_, fun i j suspI suspJ awayI awayJ => ?_,
    fun enabled => inv.kernel_spot on (hand.kernel enabled), fun back => ?_, fun back trap => ?_⟩,
    fun i suspended => hand.kept suspended⟩
  · rw [hand.stackOwners_eq, hand.heap, hand.others]
    exact inv.heap
  · rw [hand.stackOwners_eq, hand.heap]
    exact inv.room
  · rcases hand.waiting suspended with before | left
    · have kept := hand.kept before
      rw [kept.home_iff, kept.esp, kept.frameLen_eq]
      exact inv.frame i before
    · rcases hand.left_frame on left with home | ⟨_, trap⟩
      · exact Or.inl home
      · exact Or.inr trap
  · rcases hand.waiting suspI with beforeI | leftI
    · rcases hand.waiting suspJ with beforeJ | leftJ
      · rw [(hand.kept beforeI).home_iff] at awayI
        rw [(hand.kept beforeJ).home_iff] at awayJ
        exact inv.alone i j beforeI beforeJ awayI awayJ
      · exact absurd (inv.left_alone ring0 on hand beforeI leftJ awayI) awayJ
    · rcases hand.waiting suspJ with beforeJ | leftJ
      · exact absurd (inv.left_alone ring0 on hand beforeJ leftI awayJ) awayI
      · exact Fin.ext (by omega)
  · refine OnStack.moved (m := { m' with esp := esp' + 56 }) ?_ rfl fun _ _ => rfl
    rw [hand.pops back, u32_of_lt small]
    exact lands.stack
  · rw [hand.pops back, u32_of_lt small] at trap
    exact lands.clear trap

/-- The way out of an interrupt, from the call of `scheduler_switch_from_isr` on. -/
theorem returns (inv : FramesInv depth m) (ring0 : m.user = false) (on : OnStack depth m esp (frameLen m.heap.mem esp))
    {op : SchedOp} {b : Sched} (allowed : op.Allowed m.sched) (call : switchCall m.sched op = some (b, esp))
    {r : Sched × Nat} (run : schedulerSwitchFromIsr b esp = some r) :
    FramesInv depth ({ m with sched := r.1 }.resume r.2) ∧
      ∀ i, Suspended m.sched i → FrameKept m ({ m with sched := r.1 }.resume r.2) i := by
  obtain ⟨same, hand⟩ := (inv.sched.handover allowed call run).resumed
  refine inv.switch ring0 on ?_ hand
  rw [same]
  refine (inv.sched.step allowed ?_).1
  rw [schedStep_switchCall call, run]
  rfl

theorem leave (inv : FramesInv depth m) {timer : Bool} (allowed : (MachineOp.leave timer esp).Allowed depth m)
    (run : machineStep m (.leave timer esp) = some m') :
    FramesInv depth m' ∧ ∀ i, Suspended m.sched i → FrameKept m m' i := by
  obtain ⟨ring0, on⟩ := allowed
  obtain ⟨r, call, rfl⟩ := Option.map_eq_some_iff.mp run
  cases timer with
  | true => exact inv.returns ring0 on (show (SchedOp.timer esp).Allowed m.sched from trivial) rfl call
  | false => exact inv.returns ring0 on (show (SchedOp.irq esp).Allowed m.sched from trivial) rfl call

end FramesInv

/-- A call that gets as far as its interrupt ends in `scheduler_switch_from_isr`. -/
theorem SoftCall.run_switch {c : SoftCall} {s : Sched} {esp : Nat} {r : Sched × Nat} (raises : c.raises s = true)
    (run : c.run s esp = some r) : ∃ b, switchCall s (c.op esp) = some (b, esp) ∧ schedulerSwitchFromIsr b esp = some r := by
  cases c with
  | start =>
    have some_task : s.activeTasks ≠ 0 := by simpa [SoftCall.raises] using raises
    simp only [SoftCall.run, schedulerStart, if_neg some_task] at run
    exact ⟨_, if_neg some_task, run⟩
  | yield =>
    have on : ¬((!s.schedulingEnabled) = true ∨ s.taskCount < 2) := by simpa [SoftCall.raises] using raises
    simp only [SoftCall.run, taskYield, if_neg on] at run
    exact ⟨_, if_neg on, run⟩
  | exit code =>
    have on : ¬((!s.schedulingEnabled) = true ∨ s.taskCount = 0) := by simpa [SoftCall.raises] using raises
    simp only [SoftCall.run, schedulerExit, if_neg on] at run
    obtain ⟨prev, slot, switch⟩ := Option.bind_eq_some_iff.mp run
    refine ⟨_, ?_, switch⟩
    simp only [SoftCall.op, switchCall, if_neg on, slot, Option.map_some]

namespace FramesInv
variable {depth : Nat} {m m' : Machine}

theorem call (inv : FramesInv depth m) {c : SoftCall} {f : TrapFrame} (allowed : (MachineOp.call c f).Allowed depth m)
    (run : machineStep m (.call c f) = some m') :
    FramesInv depth m' ∧ ∀ i, Suspended m.sched i → FrameKept m m' i := by
  obtain ⟨ring0, room, on, kernel⟩ := allowed
  simp only [machineStep] at run
  split at run
  · rename_i raises
    obtain ⟨entered, kept, sched, user, frame⟩ := inv.interrupt_ring0 ring0 f room on
    obtain ⟨r, back, rfl⟩ := Option.map_eq_some_iff.mp run
    rw [sched] at back
    obtain ⟨b, call, switch⟩ := SoftCall.run_switch raises back
    have promised : (c.op (m.interrupt f).esp).Allowed (m.interrupt f).sched := by
      rw [sched]
      cases c with
      | start => exact kernel rfl
      | yield => trivial
      | exit code => trivial
    obtain ⟨inv', kept'⟩ := entered.returns user frame promised (sched ▸ call) switch
    exact ⟨inv', fun i suspended => (kept i suspended).trans (kept' i (sched ▸ suspended))⟩
  · cases Option.some.inj run
    exact ⟨inv, fun i _ => .refl m i⟩

/-- Every careful step keeps the invariant and the frames of all tasks that wait. -/
theorem step (inv : FramesInv depth m) {op : MachineOp} (steps : CarefulSteps depth m op m') :
    FramesInv depth m' ∧ ∀ i, Suspended m.sched i → FrameKept m m' i := by
  obtain ⟨⟨allowed, run⟩, careful⟩ := steps
  cases op with
  | execute esp mem =>
    cases Option.some.inj run
    exact inv.execute allowed
  | trap f =>
    cases Option.some.inj run
    cases ring : m.user with
    | true => exact inv.interrupt_ring3 ring f (careful ring)
    | false =>
      obtain ⟨room, on⟩ := allowed ring
      obtain ⟨inv', kept, _⟩ := inv.interrupt_ring0 ring f room on
      exact ⟨inv', kept⟩
  | leave timer esp => exact inv.leave allowed run
  | call c f => exact inv.call allowed run
  | enterUserMode entry userStack eflags =>
    obtain ⟨ring0, room, on⟩ := allowed
    cases Option.some.inj run
    have pushes : 4 * [0x23, userEsp userStack, eflags ||| 0x200, 0x1B, entry].length ≤ m.esp := room
    exact inv.enterUserMode ring0 pushes on _
  | add entry => exact inv.add careful run
  | wait pid => exact inv.wait run
  | malloc n => exact inv.malloc careful run
  | free p => exact inv.free allowed.2 run

end FramesInv

end LearningOS
