import LearningOS.Interrupt.Machine

namespace LearningOS
open ByteStore

/-- The stack of `esp0` is the top of the heap. -/
theorem trapStack_bounds : kernelHeap.stop = kernelTss.esp0 ∧ kernelHeap.start + kernelHeap.size = kernelTss.esp0 ∧
    kernelTss.esp0 + 64 < 2 ^ 32 := by decide

/-- The frames of all suspended tasks are on their own stacks, but for one that may
be on the stack of `esp0` while no code in ring 0 is. -/
structure FramesInv (depth : Nat) (m : Machine) : Prop where
  enough : 64 ≤ depth
  fits : depth + 12 ≤ kernelHeap.size
  sched : SchedInv m.sched
  heap : HeldBelow kernelHeap depth m.heap (stackOwners m.sched ++ m.others)
  room : ∀ p ∈ stackOwners m.sched, 4096 ≤ roomAt m.heap p
  frame : ∀ i, Suspended m.sched i → FrameAtHome m i ∨
    InTrapStack depth (m.sched.tasks i).irqEsp (frameLen m.heap.mem (m.sched.tasks i).irqEsp)
  alone : ∀ i j, Suspended m.sched i → Suspended m.sched j → ¬FrameAtHome m i → ¬FrameAtHome m j → i = j
  kernel : m.sched.schedulingEnabled = true →
    InBootStack m.sched.kernelEsp 56 ∨ InTrapStack depth m.sched.kernelEsp 56
  stack : m.user = false → OnStack depth m m.esp 0
  clear : m.user = false → InTrapStack depth m.esp 0 → ∀ i, Suspended m.sched i → FrameAtHome m i

/-- A step leaves the context saved for a task as it is. -/
structure FrameKept (m m' : Machine) (i : Fin 4) : Prop where
  esp : (m'.sched.tasks i).irqEsp = (m.sched.tasks i).irqEsp
  base : (m'.sched.tasks i).stackBase = (m.sched.tasks i).stackBase
  bytes : ∀ x, (m.sched.tasks i).irqEsp ≤ x →
    x < (m.sched.tasks i).irqEsp + frameLen m.heap.mem (m.sched.tasks i).irqEsp → m'.heap.mem x = m.heap.mem x

theorem Suspended.used {s : Sched} {i : Fin 4} (suspended : Suspended s i) : (s.tasks i).state ≠ .unused := by
  simp [suspended.1]

theorem frameLen_bounds (mem : Bytes) (esp : Nat) : 56 ≤ frameLen mem esp ∧ frameLen mem esp ≤ 64 := by
  unfold frameLen
  split
  · omega
  · omega

namespace FrameKept
variable {m m' m'' : Machine} {i : Fin 4}

theorem refl (m : Machine) (i : Fin 4) : FrameKept m m i := ⟨rfl, rfl, fun _ _ _ => rfl⟩

/-- The code segment is one of the saved words, so the length is the same. -/
theorem frameLen_eq (kept : FrameKept m m' i) :
    frameLen m'.heap.mem (m.sched.tasks i).irqEsp = frameLen m.heap.mem (m.sched.tasks i).irqEsp := by
  have length := (frameLen_bounds m.heap.mem (m.sched.tasks i).irqEsp).1
  unfold frameLen fromRing3
  rw [load32_congr fun x lower upper => kept.bytes x (by omega) (by omega)]

theorem trans (first : FrameKept m m' i) (second : FrameKept m' m'' i) : FrameKept m m'' i := by
  refine ⟨second.esp.trans first.esp, second.base.trans first.base, fun x lower upper => ?_⟩
  rw [← first.bytes x lower upper]
  refine second.bytes x (first.esp ▸ lower) ?_
  rw [first.esp, first.frameLen_eq]
  exact upper

theorem home_iff (kept : FrameKept m m' i) : FrameAtHome m' i ↔ FrameAtHome m i := by
  simp only [FrameAtHome, InBlock, kept.esp, kept.base, kept.frameLen_eq]

theorem savedFrame_eq (kept : FrameKept m m' i) : savedFrame m' i = savedFrame m i := by
  simp only [savedFrame, kept.esp, kept.frameLen_eq]
  exact window_congr kept.bytes

end FrameKept

theorem interrupt_ring0_eq {m : Machine} (ring0 : m.user = false) (f : TrapFrame) (room : 56 ≤ m.esp)
    (small : m.esp < 2 ^ 32) : ∃ words : List Nat, words.length = 14 ∧ words[1]? = some 0x08 ∧ m.interrupt f =
      { m with heap := { m.heap with mem := (words.foldl push (m.heap.mem, m.esp)).1 }, user := false, esp := m.esp - 56 } := by
  refine ⟨{ f with cs := 0x08 }.words.drop 2, rfl, rfl, ?_⟩
  have esp : (({ f with cs := 0x08 }.words.drop 2).foldl push (m.heap.mem, m.esp)).2 = m.esp - 56 :=
    foldl_push_esp room small
  simp only [Machine.interrupt, saveFrame, ring0, Bool.false_eq_true, if_false, esp]

theorem interrupt_ring3_eq {m : Machine} (ring3 : m.user = true) (f : TrapFrame) :
    ∃ frame, m.interrupt f = { m with
      heap := { m.heap with mem := (enterFromRing3 kernelTss m.heap.mem frame).1 }
      user := false
      esp := kernelTss.esp0 - 64 } := by
  refine ⟨{ f with ss := 0x23, useresp := m.esp, cs := 0x1B }, ?_⟩
  have esp : (enterFromRing3 kernelTss m.heap.mem { f with ss := 0x23, useresp := m.esp, cs := 0x1B }).2 =
      kernelTss.esp0 - 64 := foldl_push_esp (by decide : 64 ≤ kernelTss.esp0) (by decide)
  simp only [Machine.interrupt, saveFrame, ring3, if_true, esp]

namespace OnStack
variable {depth a n : Nat} {m m' : Machine}

theorem part (on : OnStack depth m a n) {b k : Nat} (lower : a ≤ b) (upper : b + k ≤ a + n) : OnStack depth m b k := by
  rcases on with ⟨i, current, home, inside⟩ | ⟨current, home, inside⟩ | ⟨home, inside⟩
  · refine Or.inl ⟨i, current, home, ?_⟩
    unfold InBlock at inside ⊢
    omega
  · refine Or.inr (Or.inl ⟨current, home, ?_⟩)
    unfold InBootStack at inside ⊢
    omega
  · refine Or.inr (Or.inr ⟨home, ?_⟩)
    unfold InTrapStack at inside ⊢
    omega

/-- A stack pointer that moves on its stack stays on it. -/
theorem moved (on : OnStack depth m m'.esp n) (current : m'.sched.currentTask = m.sched.currentTask)
    (bases : ∀ i : Fin 4, m.sched.currentTask = i.val →
      (m'.sched.tasks i).stackBase = (m.sched.tasks i).stackBase) : OnStack depth m' m'.esp n := by
  rcases on with ⟨i, atI, _, inside⟩ | ⟨kernel, _, inside⟩ | ⟨_, inside⟩
  · refine Or.inl ⟨i, current.trans atI, ?_⟩
    unfold InBlock at inside ⊢
    rw [bases i atI]
    omega
  · refine Or.inr (Or.inl ⟨current.trans kernel, ?_, inside⟩)
    unfold InBootStack at inside ⊢
    omega
  · refine Or.inr (Or.inr ⟨?_, inside⟩)
    unfold InTrapStack at inside ⊢
    omega

end OnStack

namespace FramesInv
variable {depth : Nat} {m m' : Machine}

/-- A task's stack lies in the heap and below the stack of `esp0`. -/
theorem block (inv : FramesInv depth m) {i : Fin 4} (used : (m.sched.tasks i).state ≠ .unused) :
    (m.sched.tasks i).stackBase ∈ stackOwners m.sched ∧ kernelHeap.start + 12 ≤ (m.sched.tasks i).stackBase ∧
      (m.sched.tasks i).stackBase + 4096 + 12 + depth ≤ kernelTss.esp0 := by
  have owner : (m.sched.tasks i).stackBase ∈ stackOwners m.sched :=
    mem_stackOwners (stackOwner_eq_some.mpr ⟨used, rfl⟩)
  have held : (m.sched.tasks i).stackBase ∈ stackOwners m.sched ++ m.others := List.mem_append_left _ owner
  have room := inv.room _ owner
  have bounds := inv.heap.held.bounds held
  have below := inv.heap.ends held
  rw [trapStack_bounds.1] at below
  exact ⟨owner, bounds.1, by omega⟩

/-- Stacks of different tasks do not meet. -/
theorem blocks_apart (inv : FramesInv depth m) {i j : Fin 4} (usedI : (m.sched.tasks i).state ≠ .unused)
    (usedJ : (m.sched.tasks j).state ≠ .unused) (differ : i ≠ j) :
    (m.sched.tasks i).stackBase + 4096 ≤ (m.sched.tasks j).stackBase ∨
      (m.sched.tasks j).stackBase + 4096 ≤ (m.sched.tasks i).stackBase := by
  have ownerI := (inv.block usedI).1
  have ownerJ := (inv.block usedJ).1
  have roomI := inv.room _ ownerI
  have roomJ := inv.room _ ownerJ
  have nodup : (stackOwners m.sched).Nodup := (List.nodup_append.mp inv.heap.held.nodup).1
  have bases : (m.sched.tasks i).stackBase ≠ (m.sched.tasks j).stackBase :=
    owners_ne (f := fun k => stackOwner (m.sched.tasks k)) nodup (List.mem_finRange i) (List.mem_finRange j) differ
      (stackOwner_eq_some.mpr ⟨usedI, rfl⟩) (stackOwner_eq_some.mpr ⟨usedJ, rfl⟩)
  rcases inv.heap.held.apart (List.mem_append_left _ ownerI) (List.mem_append_left _ ownerJ) bases with _ | _
  · omega
  · omega

/-- No other block meets a task's stack. -/
theorem others_apart (inv : FramesInv depth m) {i : Fin 4} (used : (m.sched.tasks i).state ≠ .unused) {p : Nat}
    (other : p ∈ m.others) : p + roomAt m.heap p ≤ (m.sched.tasks i).stackBase ∨
      (m.sched.tasks i).stackBase + 4096 ≤ p := by
  have owner := (inv.block used).1
  have room := inv.room _ owner
  have differ : p ≠ (m.sched.tasks i).stackBase := fun same =>
    (List.nodup_append.mp inv.heap.held.nodup).2.2 _ owner _ other same.symm
  rcases inv.heap.held.apart (List.mem_append_right _ other) (List.mem_append_left _ owner) differ with _ | _
  · omega
  · omega

/-- Where the saved bytes of a task are. -/
theorem frame_spot (inv : FramesInv depth m) {i : Fin 4} (suspended : Suspended m.sched i) {x : Nat}
    (lower : (m.sched.tasks i).irqEsp ≤ x)
    (upper : x < (m.sched.tasks i).irqEsp + frameLen m.heap.mem (m.sched.tasks i).irqEsp) :
    ((m.sched.tasks i).stackBase ≤ x ∧ x < (m.sched.tasks i).stackBase + 4096) ∨
      (¬FrameAtHome m i ∧ kernelTss.esp0 - depth ≤ x ∧ x < kernelTss.esp0) := by
  by_cases home : FrameAtHome m i
  · have inside := home
    unfold FrameAtHome InBlock at inside
    exact Or.inl (by omega)
  · rcases inv.frame i suspended with atHome | trap
    · exact absurd atHome home
    · unfold InTrapStack at trap
      exact Or.inr ⟨home, by omega, by omega⟩

/-- The running code does not write into the frame of a suspended task. -/
theorem not_writable (inv : FramesInv depth m) {i : Fin 4} (suspended : Suspended m.sched i) {x : Nat}
    (lower : (m.sched.tasks i).irqEsp ≤ x)
    (upper : x < (m.sched.tasks i).irqEsp + frameLen m.heap.mem (m.sched.tasks i).irqEsp) :
    ¬Writable depth m x := by
  obtain ⟨top, size, _⟩ := trapStack_bounds
  have fits := inv.fits
  obtain ⟨_, low, high⟩ := inv.block suspended.used
  have spot := inv.frame_spot suspended lower upper
  rintro (⟨outside, _⟩ | ⟨p, other, from_p, to_p⟩ | ⟨ring0, on⟩)
  · omega
  · have ends := inv.heap.ends (List.mem_append_right _ other)
    rcases inv.others_apart suspended.used other with _ | _
    · omega
    · omega
  · rcases on with ⟨j, current, _, inside⟩ | ⟨_, _, inside⟩ | ⟨home, inside⟩
    · -- The stack of the running task is not that of the suspended one.
      have runs : (m.sched.tasks j).state ≠ .unused := by simp [inv.sched.current_runs current]
      have differ : i ≠ j := fun same => suspended.2 (same ▸ current)
      have highJ := (inv.block runs).2.2
      unfold InBlock at inside
      rcases inv.blocks_apart suspended.used runs differ with _ | _
      · omega
      · omega
    · unfold InBootStack at inside
      omega
    · -- While code runs on the stack of `esp0` no frame is saved there.
      have atHome := inv.clear ring0 home i suspended
      unfold InTrapStack at inside
      rcases spot with _ | ⟨away, _⟩
      · omega
      · exact away atHome

/-- A stack pointer moved to the stack of `esp0` was there before. -/
theorem trap_of_moved (inv : FramesInv depth m) {a n : Nat} (on : OnStack depth m a n)
    (inside : InTrapStack depth (a + n) 0) : InTrapStack depth m.esp 0 := by
  obtain ⟨_, size, _⟩ := trapStack_bounds
  have fits := inv.fits
  unfold InTrapStack at inside
  rcases on with ⟨i, current, _, block⟩ | ⟨_, _, boot⟩ | ⟨home, _⟩
  · have runs : (m.sched.tasks i).state ≠ .unused := by simp [inv.sched.current_runs current]
    have high := (inv.block runs).2.2
    unfold InBlock at block
    omega
  · unfold InBootStack at boot
    omega
  · exact home

theorem esp_small (inv : FramesInv depth m) {a n : Nat} (on : OnStack depth m a n) : a + n ≤ kernelTss.esp0 := by
  obtain ⟨_, size, _⟩ := trapStack_bounds
  rcases on with ⟨i, current, _, block⟩ | ⟨_, _, boot⟩ | ⟨_, trap⟩
  · have runs : (m.sched.tasks i).state ≠ .unused := by simp [inv.sched.current_runs current]
    have high := (inv.block runs).2.2
    unfold InBlock at block
    omega
  · unfold InBootStack at boot
    omega
  · exact trap.2

/-- What the invariant needs of a step after which every suspended task is one whose
frame was kept or is on its own stack. -/
theorem rebuild (inv : FramesInv depth m) (sched : SchedInv m'.sched)
    (heap : HeldBelow kernelHeap depth m'.heap (stackOwners m'.sched ++ m'.others))
    (room : ∀ p ∈ stackOwners m'.sched, 4096 ≤ roomAt m'.heap p)
    (tasks : ∀ i, Suspended m'.sched i → FrameAtHome m' i ∨ (Suspended m.sched i ∧ FrameKept m m' i))
    (kernel : m'.sched.schedulingEnabled = m.sched.schedulingEnabled ∧ m'.sched.kernelEsp = m.sched.kernelEsp)
    (stack : m'.user = false → OnStack depth m' m'.esp 0)
    (clear : m'.user = false → InTrapStack depth m'.esp 0 → ∀ i, Suspended m.sched i → FrameAtHome m i) :
    FramesInv depth m' := by
  refine ⟨inv.enough, inv.fits, sched, heap, room, fun i suspended => ?_, fun i j suspI suspJ awayI awayJ => ?_,
    fun on => ?_, stack, fun ring0 trap i suspended => ?_⟩
  · rcases tasks i suspended with home | ⟨before, kept⟩
    · exact Or.inl home
    · rw [kept.home_iff, kept.esp, kept.frameLen_eq]
      exact inv.frame i before
  · rcases tasks i suspI with home | ⟨beforeI, keptI⟩
    · exact absurd home awayI
    rcases tasks j suspJ with home | ⟨beforeJ, keptJ⟩
    · exact absurd home awayJ
    rw [keptI.home_iff] at awayI
    rw [keptJ.home_iff] at awayJ
    exact inv.alone i j beforeI beforeJ awayI awayJ
  · rw [kernel.2]
    exact inv.kernel (kernel.1 ▸ on)
  · rcases tasks i suspended with home | ⟨before, kept⟩
    · exact home
    · exact kept.home_iff.mpr (clear ring0 trap i before)

/-- A step that only writes memory and moves the stack pointer. -/
theorem poke (inv : FramesInv depth m) {mem : Bytes} {user : Bool} {esp : Nat}
    (changes : ∀ x, mem x ≠ m.heap.mem x → Writable depth m x ∨
      (kernelTss.esp0 - depth ≤ x ∧ ∀ i, Suspended m.sched i → FrameAtHome m i))
    (stack : user = false → OnStack depth { m with heap := { m.heap with mem }, user, esp } esp 0)
    (clear : user = false → InTrapStack depth esp 0 → ∀ i, Suspended m.sched i → FrameAtHome m i) :
    FramesInv depth { m with heap := { m.heap with mem }, user, esp } ∧
      ∀ i, Suspended m.sched i → FrameKept m { m with heap := { m.heap with mem }, user, esp } i := by
  obtain ⟨top, _, _⟩ := trapStack_bounds
  have kept (i : Fin 4) (suspended : Suspended m.sched i) :
      FrameKept m { m with heap := { m.heap with mem }, user, esp } i := by
    refine ⟨rfl, rfl, fun x lower upper => ?_⟩
    by_contra changed
    rcases changes x changed with writes | ⟨above, home⟩
    · exact inv.not_writable suspended lower upper writes
    · have high := (inv.block suspended.used).2.2
      rcases inv.frame_spot suspended lower upper with _ | ⟨away, _⟩
      · omega
      · exact away (home i suspended)
  obtain ⟨heap, rooms⟩ := inv.heap.poke mem fun x changed => by
    rcases changes x changed with (⟨below | above, _⟩ | ⟨p, other, inside⟩ | ⟨_, on⟩) | ⟨above, _⟩
    · exact Or.inl below
    · exact Or.inr (Or.inl (by omega))
    · exact Or.inr (Or.inr ⟨p, List.mem_append_right _ other, inside⟩)
    · rcases on with ⟨i, current, _, inside⟩ | ⟨_, _, inside⟩ | ⟨_, inside⟩
      · have runs : (m.sched.tasks i).state ≠ .unused := by simp [inv.sched.current_runs current]
        have owner := (inv.block runs).1
        have room := inv.room _ owner
        unfold InBlock at inside
        exact Or.inr (Or.inr ⟨_, List.mem_append_left _ owner, inside.1, by omega⟩)
      · exact Or.inl inside.1
      · unfold InTrapStack at inside
        exact Or.inr (Or.inl (by omega))
    · exact Or.inr (Or.inl (by omega))
  refine ⟨inv.rebuild inv.sched heap (fun p owner => ?_) (fun i suspended => Or.inr ⟨suspended, kept i suspended⟩)
    ⟨rfl, rfl⟩ stack clear, kept⟩
  rw [rooms p (List.mem_append_left _ owner)]
  exact inv.room p owner

theorem execute (inv : FramesInv depth m) {esp : Nat} {mem : Bytes} (allowed : (MachineOp.execute esp mem).Allowed depth m) :
    FramesInv depth { m with heap := { m.heap with mem }, esp } ∧
      ∀ i, Suspended m.sched i → FrameKept m { m with heap := { m.heap with mem }, esp } i := by
  obtain ⟨writes, moves⟩ := allowed
  refine inv.poke (fun x changed => Or.inl (writes x changed)) (fun ring0 => ?_) fun ring0 trap => ?_
  · exact OnStack.moved (m := m) (moves ring0) rfl fun _ _ => rfl
  · exact inv.clear ring0 (inv.trap_of_moved (moves ring0) trap)

/-- Pushes in ring 0 stay on the stack the code is on. -/
theorem push_writable (inv : FramesInv depth m) (ring0 : m.user = false) {words : List Nat}
    (room : 4 * words.length ≤ m.esp) (on : OnStack depth m (m.esp - 4 * words.length) (4 * words.length)) {x : Nat}
    (changed : (words.foldl push (m.heap.mem, m.esp)).1 x ≠ m.heap.mem x) : Writable depth m x := by
  have top := trapStack_bounds.2.2
  have small := inv.esp_small (inv.stack ring0)
  by_cases inside : m.esp - 4 * words.length ≤ x ∧ x < m.esp
  · exact Or.inr (Or.inr ⟨ring0, on.part (by omega) (by omega)⟩)
  · exact absurd (foldl_push_outside room (by omega) (by omega)) changed

/-- Code in ring 0 that is interrupted goes on below, on the same stack. -/
theorem interrupt_ring0 (inv : FramesInv depth m) (ring0 : m.user = false) (f : TrapFrame) (room : 56 ≤ m.esp)
    (on : OnStack depth m (m.esp - 56) 56) :
    FramesInv depth (m.interrupt f) ∧ (∀ i, Suspended m.sched i → FrameKept m (m.interrupt f) i) ∧
      (m.interrupt f).sched = m.sched ∧ (m.interrupt f).user = false ∧
      OnStack depth (m.interrupt f) (m.interrupt f).esp (frameLen (m.interrupt f).heap.mem (m.interrupt f).esp) := by
  have top := trapStack_bounds.2.2
  have small := inv.esp_small (inv.stack ring0)
  obtain ⟨words, length, segment, saved⟩ := interrupt_ring0_eq ring0 f room (by omega)
  have below : OnStack depth m (m.esp - 56) 0 := on.part le_rfl (by omega)
  have pushed : OnStack depth m (m.esp - 4 * words.length) (4 * words.length) := by rwa [length]
  rw [saved]
  have stack : OnStack depth { m with
      heap := { m.heap with mem := (words.foldl push (m.heap.mem, m.esp)).1 }
      user := false
      esp := m.esp - 56 } (m.esp - 56) 0 := OnStack.moved (m := m) below rfl fun _ _ => rfl
  obtain ⟨inv', kept⟩ := inv.poke (fun x changed => Or.inl (inv.push_writable ring0 (by omega) pushed changed))
    (fun _ => stack) fun _ trap => inv.clear ring0 (inv.trap_of_moved below trap)
  refine ⟨inv', kept, rfl, rfl, OnStack.moved (m := m) ?_ rfl fun _ _ => rfl⟩
  have word := foldl_push_written (m := m.heap.mem) (by omega : 4 * words.length ≤ m.esp) (by omega) segment
  have length : frameLen (words.foldl push (m.heap.mem, m.esp)).1 (m.esp - 56) = 56 := by
    unfold frameLen fromRing3
    rw [show m.esp - 56 + 48 = m.esp - 4 * (1 + 1) by omega, word]
    rfl
  change OnStack depth m (m.esp - 56) (frameLen (words.foldl push (m.heap.mem, m.esp)).1 (m.esp - 56))
  rw [length]
  exact on

/-- An interrupt in ring 3 saves its frame below `esp0`, where no other may be. -/
theorem interrupt_ring3 (inv : FramesInv depth m) (ring3 : m.user = true) (f : TrapFrame)
    (home : ∀ i, Suspended m.sched i → FrameAtHome m i) :
    FramesInv depth (m.interrupt f) ∧ ∀ i, Suspended m.sched i → FrameKept m (m.interrupt f) i := by
  have top := trapStack_bounds.2.2
  have enough := inv.enough
  obtain ⟨frame, saved⟩ := interrupt_ring3_eq ring3 f
  have inside : InTrapStack depth (kernelTss.esp0 - 64) 0 := ⟨by omega, by omega⟩
  rw [saved]
  refine inv.poke (fun x changed => Or.inr ⟨?_, home⟩) (fun _ => Or.inr (Or.inr ⟨inside, inside⟩)) fun _ _ => home
  by_contra below
  refine changed ((enterFromRing3_footprint kernelTss m.heap.mem frame (by decide) (by omega)).1 x ?_)
  unfold interruptBytes
  omega

theorem enterUserMode (inv : FramesInv depth m) (ring0 : m.user = false) {words : List Nat} (room : 4 * words.length ≤ m.esp)
    (on : OnStack depth m (m.esp - 4 * words.length) (4 * words.length)) (esp : Nat) :
    FramesInv depth
      { m with heap := { m.heap with mem := (words.foldl push (m.heap.mem, m.esp)).1 }, user := true, esp } ∧
      ∀ i, Suspended m.sched i → FrameKept m
        { m with heap := { m.heap with mem := (words.foldl push (m.heap.mem, m.esp)).1 }, user := true, esp } i :=
  inv.poke (fun _ changed => Or.inl (inv.push_writable ring0 room on changed)) (by simp) (by simp)

end FramesInv

end LearningOS
