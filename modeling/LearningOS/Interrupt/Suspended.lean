import LearningOS.Interrupt.Steps

namespace LearningOS
open ByteStore History Tiling

theorem Booted.inv {depth : Nat} {m : Machine} (booted : Booted m) (enough : 64 ≤ depth)
    (fits : depth + 12 ≤ kernelHeap.size) : FramesInv depth m := by
  obtain ⟨mem, s, esp, boot, rfl⟩ := booted
  have idle (i : Fin 4) : ¬Suspended (schedulerInit s) i := by simp [Suspended, schedulerInit]
  have none : stackOwners (schedulerInit s) = [] := by
    simp [stackOwners, stackOwner, schedulerInit]
  refine ⟨enough, fits, schedulerInit_inv s, ?_, ?_, fun i suspended => absurd suspended (idle i),
    fun i _ suspended => absurd suspended (idle i), by simp [schedulerInit], fun _ => Or.inr (Or.inl ⟨rfl, boot, boot⟩),
    fun _ _ i suspended => absurd suspended (idle i)⟩
  · rw [none]
    exact HeldBelow.init mem (by decide) fits
  · simp [none]

theorem careful_inv {depth : Nat} {m : Machine} {past : List (Machine × MachineOp)} (enough : 64 ≤ depth)
    (fits : depth + 12 ≤ kernelHeap.size) (run : Run Booted (CarefulSteps depth) m past) : FramesInv depth m :=
  run.holds (fun _ booted => booted.inv enough fits) fun _ _ _ inv step => (inv.step step).1

/-- In every run whose steps are all careful, the context saved for a task is the
same from any state in which it waits up to the switch back to it. -/
theorem suspended_frames_kept {depth : Nat} (enough : 64 ≤ depth) (fits : depth + 12 ≤ kernelHeap.size)
    {m m' : Machine} {past recent : List (Machine × MachineOp)} {i : Fin 4}
    (run : Run Booted (CarefulSteps depth) m past) (path : Path (CarefulSteps depth) m recent m')
    (waits : ∀ e ∈ recent, Suspended e.1.sched i) :
    (m'.sched.tasks i).irqEsp = (m.sched.tasks i).irqEsp ∧ savedFrame m' i = savedFrame m i := by
  have kept : FramesInv depth m' ∧ FrameKept m m' i := by
    refine path.keeps (P := fun t => FramesInv depth t ∧ FrameKept m t i) ?_ waits
      ⟨careful_inv enough fits run, .refl m i⟩
    rintro s op t ⟨inv, before⟩ suspended step
    obtain ⟨inv', after⟩ := inv.step step
    exact ⟨inv', before.trans (after i suspended)⟩
  exact ⟨kept.2.esp, kept.2.savedFrame_eq⟩

/-- A request that leaves room to spare is careful. -/
theorem FramesInv.keepsTopBy {depth large n : Nat} {m : Machine} (inv : FramesInv large m)
    (room : align8 n + (depth + 12) = large) (bs : List Block) (chain : Chain m.heap.mem 0 m.heap.heapHead bs) :
    KeepsTopBy depth bs n := by
  subst room
  obtain ⟨cs, heapInv, _⟩ := inv.heap.held
  rw [← heapInv.linked.unique chain]
  exact (inv.heap.top cs heapInv).keeps heapInv

instance (t : Task) (a n : Nat) : Decidable (InBlock t a n) := inferInstanceAs (Decidable (_ ∧ _))

instance (depth a n : Nat) : Decidable (InTrapStack depth a n) := inferInstanceAs (Decidable (_ ∧ _))

instance (a n : Nat) : Decidable (InBootStack a n) := inferInstanceAs (Decidable (_ ∧ _))

instance (depth : Nat) (m : Machine) (a n : Nat) : Decidable (OnStack depth m a n) :=
  inferInstanceAs (Decidable (_ ∨ _))

instance (s : Sched) (i : Fin 4) : Decidable (Suspended s i) := inferInstanceAs (Decidable (_ ∧ _))

instance (m : Machine) (i : Fin 4) : Decidable (FrameAtHome m i) := inferInstanceAs (Decidable (_ ∧ _))

/-- Decides the promises of every step but those of `execute`. -/
def MachineOp.check (depth : Nat) (m : Machine) : MachineOp → Bool
  | .execute .. => false
  | .trap _ => m.user = false → 56 ≤ m.esp ∧ OnStack depth m (m.esp - 56) 56
  | .leave _ esp => m.user = false ∧ OnStack depth m esp (frameLen m.heap.mem esp)
  | .call c _ => m.user = false ∧ 56 ≤ m.esp ∧ OnStack depth m (m.esp - 56) 56 ∧
      (c = .start → m.sched.currentTask = -1)
  | .enterUserMode .. => m.user = false ∧ 20 ≤ m.esp ∧ OnStack depth m (m.esp - 20) 20
  | .add _ => m.user = false
  | .wait _ => m.user = false
  | .malloc _ => m.user = false
  | .free p => m.user = false ∧ p ∈ m.others

def checkedStep (depth : Nat) (m : Machine) (op : MachineOp) : Option Machine :=
  if op.check depth m then machineStep m op else none

theorem checkedStep_steps {depth : Nat} {m m' : Machine} {op : MachineOp} (run : checkedStep depth m op = some m') :
    MachineSteps depth m op m' := by
  unfold checkedStep at run
  split at run
  · rename_i promised
    refine ⟨?_, run⟩
    cases op with
    | execute esp mem => simp [MachineOp.check] at promised
    | _ => simpa only [MachineOp.check, MachineOp.Allowed, decide_eq_true_eq] using promised
  · simp at run

def bootMachine : Machine := ⟨schedulerInit schedReset, bootHeap, [], false, 0x120000⟩

/-- An interrupt in a program that has `eax` in every register. -/
def busyFrame (eax : Nat) : TrapFrame :=
  ⟨0, 0, 0x202, 0, 0x400000, 0, 0x20, eax, eax, eax, eax, eax, eax, eax, eax, 0x23⟩

/-- The kernel adds two tasks, and the first of them runs, enters ring 3 and is
interrupted. -/
def firstInterrupt : Option (Machine × Machine × Machine × Machine × Machine) :=
  (checkedStep 64 bootMachine (.add 0x101000)).bind fun a =>
    (checkedStep 64 a (.add 0x102000)).bind fun b =>
      (checkedStep 64 b (.call .start (busyFrame 0))).bind fun m =>
        (checkedStep 64 m (.enterUserMode 0x400000 0x500000 0x202)).bind fun n =>
          (checkedStep 64 n (.trap (busyFrame 1))).map fun o => (a, b, m, n, o)

theorem suspended_frames_kept_second_task : ∃ m m' : Machine, Suspended m.sched 1 ∧ m'.esp = 0xC10FFFC0 ∧
    (m'.sched.tasks 1).irqEsp = (m.sched.tasks 1).irqEsp ∧ savedFrame m' 1 = savedFrame m 1 := by
  have facts : (firstInterrupt.any fun (_, _, m, n, o) => Suspended m.sched 1 ∧ Suspended n.sched 1 ∧
      (∀ i, Suspended n.sched i → FrameAtHome n i) ∧ o.esp = 0xC10FFFC0) = true := by decide +kernel
  obtain ⟨⟨a, b, m, n, o⟩, found, facts⟩ := (Option.any_eq_true _ _).mp facts
  obtain ⟨waitsM, waitsN, home, esp⟩ := of_decide_eq_true facts
  obtain ⟨_, addA, rest⟩ := Option.bind_eq_some_iff.mp found
  obtain ⟨_, addB, rest⟩ := Option.bind_eq_some_iff.mp rest
  obtain ⟨_, start, rest⟩ := Option.bind_eq_some_iff.mp rest
  obtain ⟨_, enter, rest⟩ := Option.bind_eq_some_iff.mp rest
  obtain ⟨_, trap, last⟩ := Option.map_eq_some_iff.mp rest
  cases last
  have booted : Booted bootMachine := ⟨fun _ => 0, schedReset, 0x120000, by decide, rfl⟩
  -- The first stack leaves room for the second one, and for 76 bytes more.
  have invBoot : FramesInv (align8 4096 + (align8 4096 + (64 + 12) + 12)) bootMachine :=
    booted.inv (by decide) (by decide)
  have wide : CarefulSteps (align8 4096 + (64 + 12)) bootMachine (.add 0x101000) a :=
    ⟨⟨rfl, (checkedStep_steps addA).2⟩, invBoot.keepsTopBy rfl⟩
  have invA := (FramesInv.step (booted.inv (by decide) (by decide)) wide).1
  have narrow : FramesInv (align8 4096 + (64 + 12)) bootMachine := booted.inv (by decide) (by decide)
  have run : Run Booted (CarefulSteps 64) m _ :=
    .next (.next (.next (.start booted) ⟨checkedStep_steps addA, narrow.keepsTopBy rfl⟩)
      ⟨checkedStep_steps addB, invA.keepsTopBy rfl⟩) ⟨checkedStep_steps start, trivial⟩
  have path : Path (CarefulSteps 64) m _ o :=
    .next (.next (.done m) ⟨checkedStep_steps enter, trivial⟩) ⟨checkedStep_steps trap, fun _ => home⟩
  refine ⟨m, o, waitsM, esp, suspended_frames_kept (by decide) (by decide) run path fun e member => ?_⟩
  rcases List.mem_cons.mp member with rfl | member
  · exact waitsN
  · rw [List.mem_singleton.mp member]
    exact waitsM

/-- Two tasks, of which the first enters ring 3 and is interrupted by nine ticks. -/
def twoTasks : List MachineOp :=
  [.add 0x101000, .add 0x102000, .call .start (busyFrame 0), .enterUserMode 0x400000 0x500000 0x202] ++
    (List.replicate 9 [.trap (busyFrame 1), .leave true 0xC10FFFC0]).flatten

/-- The second task runs, enters ring 3 as well, and is interrupted there. -/
def secondInterrupt : Option (Machine × Machine × Machine) :=
  (twoTasks.foldlM (checkedStep 64) bootMachine).bind fun m =>
    (checkedStep 64 m (.enterUserMode 0x400000 0x600000 0x202)).bind fun n =>
      (checkedStep 64 n (.trap (busyFrame 2))).map fun o => (m, n, o)

/-- The interrupt of the second task takes the place of the frame saved for the first. -/
theorem suspended_frame_overwritten : ∃ m m' past recent, ∃ i : Fin 4, Run Booted (MachineSteps 64) m past ∧
    Path (MachineSteps 64) m recent m' ∧ (∀ e ∈ recent, Suspended e.1.sched i) ∧
    savedFrame m' i ≠ savedFrame m i := by
  have facts : (secondInterrupt.any fun (m, n, o) => Suspended m.sched 0 ∧ Suspended n.sched 0 ∧
      savedFrame o 0 ≠ savedFrame m 0) = true := by decide +kernel
  obtain ⟨⟨m, n, o⟩, found, facts⟩ := (Option.any_eq_true _ _).mp facts
  obtain ⟨waitsM, waitsN, differ⟩ := of_decide_eq_true facts
  obtain ⟨_, begun, rest⟩ := Option.bind_eq_some_iff.mp found
  obtain ⟨_, enter, rest⟩ := Option.bind_eq_some_iff.mp rest
  obtain ⟨_, trap, last⟩ := Option.map_eq_some_iff.mp rest
  cases last
  have booted : Booted bootMachine := ⟨fun _ => 0, schedReset, 0x120000, by decide, rfl⟩
  obtain ⟨past, run, _⟩ := Run.replay (fun _ _ _ => checkedStep_steps) (.start booted) begun
  refine ⟨m, o, past, [(n, .trap (busyFrame 2)), (m, .enterUserMode 0x400000 0x600000 0x202)], 0, run,
    .next (.next (.done m) (checkedStep_steps enter)) (checkedStep_steps trap), fun e member => ?_, differ⟩
  rcases List.mem_cons.mp member with rfl | member
  · exact waitsN
  · rw [List.mem_singleton.mp member]
    exact waitsM

end LearningOS
