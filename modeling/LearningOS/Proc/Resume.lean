import LearningOS.Proc.Switch

namespace LearningOS
open History

/-- The stack pointer a step passed to `scheduler_switch_from_isr` while `t` was the
current task, or that `scheduler_add` built when it filled the slot `t`. -/
def slotEsp (t : Fin 4) (e : Sched × SchedOp) : Option Nat :=
  match switchCall e.1 e.2, installed e.1 e.2 with
  | some (b, esp), _ => if b.currentTask = t.val then some esp else none
  | none, some (slot, esp) => if slot = t then some esp else none
  | none, none => none

/-- The stack pointer a step saved for the kernel context. -/
def kernelCallEsp (e : Sched × SchedOp) : Option Nat :=
  (switchCall e.1 e.2).bind fun (b, esp) =>
    if b.currentTask = -1 ∧ b.schedulingEnabled = true then some esp else none

/-- Where `t` goes on: the argument of the latest call made while `t` was current
since its slot was last filled, or else the stack pointer it was filled with. -/
def resumeEsp (t : Fin 4) (past : List (Sched × SchedOp)) : Option Nat := past.findSome? (slotEsp t)

def kernelResumeEsp (past : List (Sched × SchedOp)) : Option Nat := past.findSome? kernelCallEsp

/-- What is saved is what the history says. -/
structure ResumeInv (s : Sched) (past : List (Sched × SchedOp)) : Prop where
  slots : ∀ t, (s.tasks t).state ≠ .unused → resumeEsp t past = some (s.tasks t).irqEsp
  kernel : s.schedulingEnabled = true → kernelResumeEsp past = some s.kernelEsp

section
variable {s b : Sched} {op : SchedOp} {esp : Nat} {past : List (Sched × SchedOp)}

theorem resumeEsp_call (call : switchCall s op = some (b, esp)) (t : Fin 4) :
    resumeEsp t ((s, op) :: past) = if b.currentTask = t.val then some esp else resumeEsp t past :=
  findSome?_cons_ite (by simp only [slotEsp, call])

theorem kernelResumeEsp_call (call : switchCall s op = some (b, esp)) : kernelResumeEsp ((s, op) :: past) =
    if b.currentTask = -1 ∧ b.schedulingEnabled = true then some esp else kernelResumeEsp past :=
  findSome?_cons_ite (by simp only [kernelCallEsp, call, Option.bind_some])

theorem kernelResumeEsp_noCall (call : switchCall s op = none) :
    kernelResumeEsp ((s, op) :: past) = kernelResumeEsp past := by
  simp only [kernelResumeEsp, List.findSome?_cons, kernelCallEsp, call, Option.bind_none]

theorem resumeEsp_none (call : switchCall s op = none) (fill : installed s op = none) (t : Fin 4) :
    resumeEsp t ((s, op) :: past) = resumeEsp t past := by
  simp only [resumeEsp, List.findSome?_cons, slotEsp, call, fill]

theorem resumeEsp_fill {slot : Fin 4} (call : switchCall s op = none) (fill : installed s op = some (slot, esp))
    (t : Fin 4) : resumeEsp t ((s, op) :: past) = if slot = t then some esp else resumeEsp t past :=
  findSome?_cons_ite (by simp only [slotEsp, call, fill])

end

namespace ResumeInv
variable {s b t : Sched} {op : SchedOp} {esp esp' : Nat} {past : List (Sched × SchedOp)}

/-- After a call of `scheduler_switch_from_isr`, which counts as the latest one. -/
theorem call (saved : ResumeInv s past) (inv : SchedInv s) (call : switchCall s op = some (b, esp))
    (prepared : Prepared s op b esp) (frame : SwitchFrame b esp t) :
    (∀ i, (t.tasks i).state ≠ .unused → resumeEsp i ((s, op) :: past) = some (t.tasks i).irqEsp) ∧
      (b.schedulingEnabled = true → kernelResumeEsp ((s, op) :: past) = some t.kernelEsp) := by
  constructor
  · intro i used
    rw [frame.state i, ne_eq, prepared.unused_iff inv i] at used
    rw [resumeEsp_call call, frame.irqEsp, saved.slots i used, (prepared.same i).1]
    split
    · rfl
    · rfl
  · intro on
    rw [kernelResumeEsp_call call, frame.kernelEsp, prepared.kernelEsp]
    rcases prepared.mode with ⟨_, enabled⟩ | ⟨_, current, _⟩
    · rw [saved.kernel (enabled.symm.trans on)]
      split
      · rfl
      · rfl
    · rw [if_pos ⟨current, on⟩, if_pos ⟨current, on⟩]

theorem step (saved : ResumeInv s past) (inv : SchedInv s) (step : SchedSteps s op t) :
    ResumeInv t ((s, op) :: past) := by
  cases inv.effect step with
  | switch b esp esp' call _ prepared switched frame =>
    obtain ⟨slots, kernel⟩ := saved.call inv call prepared frame
    refine ⟨slots, fun on => kernel ?_⟩
    cases switched with
    | off => exact on
    | quiet save _ => exact save.on
    | kernel save _ _ => exact save.on
    | task next save _ _ => exact save.on
  | none noCall noFill _ same =>
    subst same
    exact ⟨fun i used => (resumeEsp_none noCall noFill i).trans (saved.slots i used), fun on =>
      (kernelResumeEsp_noCall noCall).trans (saved.kernel on)⟩
  | add slot base esp noCall fill unused pointer after =>
    subst after
    rw [installTask_eq]
    refine ⟨fun i used => ?_, fun on => (kernelResumeEsp_noCall noCall).trans (saved.kernel on)⟩
    rw [resumeEsp_fill noCall fill]
    dsimp only at used ⊢
    by_cases here : slot = i
    · subst here
      rw [if_pos rfl, Function.update_self]
    · rw [Function.update_of_ne (Ne.symm here)] at used ⊢
      rw [if_neg here]
      exact saved.slots i used
  | reap h pid i wait found after =>
    subst wait after
    refine ⟨fun j used => ?_, fun on => (kernelResumeEsp_noCall rfl).trans (saved.kernel on)⟩
    rw [resumeEsp_none rfl rfl]
    by_cases here : j = i
    · simp [reap, here] at used
    · simp only [reap, setTask_tasks, Function.update_of_ne here] at used ⊢
      exact saved.slots j used

end ResumeInv

theorem SchedRun.resumeInv {s : Sched} {past : List (Sched × SchedOp)} (run : SchedRun s past) : ResumeInv s past := by
  induction run with
  | start begins =>
    obtain ⟨s₀, rfl⟩ := begins
    exact ⟨fun t used => by simp [schedulerInit] at used, fun on => by simp [schedulerInit] at on⟩
  | next before step ih => exact ih.step (SchedRun.inv before) step

/-- The right context is resumed: in every run, a call of `scheduler_switch_from_isr`
that does not reschedule returns its argument, one that switches to a task returns
where that task goes on, and one that switches to the kernel the stack pointer saved
last while the kernel context was current and scheduling on. -/
theorem switch_resumes_right_context {s b : Sched} {past : List (Sched × SchedOp)} {op : SchedOp} {esp : Nat}
    (run : SchedRun s past) (allowed : op.Allowed s) (call : switchCall s op = some (b, esp)) :
    ∃ s' esp', schedulerSwitchFromIsr b esp = some (s', esp') ∧ schedStep s op = some s' ∧
      (b.schedulingEnabled = false ∨ b.taskCount = 0 ∨ b.needResched = false → esp' = esp) ∧
      (b.schedulingEnabled = true ∧ b.taskCount ≠ 0 ∧ b.needResched = true →
        (∃ t : Fin 4, s'.currentTask = t.val ∧ resumeEsp t ((s, op) :: past) = some esp') ∨
          (s'.currentTask = -1 ∧ kernelResumeEsp ((s, op) :: past) = some esp')) := by
  have inv := run.inv
  have prepared := inv.prepared allowed call
  have position := prepared.positioned inv
  obtain ⟨t, esp', switch⟩ := prepared.slots.switch_total position esp
  have switched := prepared.slots.switched position switch
  have frame := switched.frame (prepared.idle inv) prepared.some_task
  obtain ⟨slots, kernel⟩ := run.resumeInv.call inv call prepared frame
  have step : schedStep s op = some t := by rw [schedStep_switchCall call, switch, Option.map_some]
  refine ⟨t, esp', switch, step, fun idle => ?_, fun pending => ?_⟩
  · cases switched with
    | off _ => rfl
    | quiet _ _ => rfl
    | kernel save flag _ =>
      have tasks := save.tasks
      simp [save.on, flag] at idle
      omega
    | task next save flag _ =>
      have tasks := save.tasks
      simp [save.on, flag] at idle
      omega
  · obtain ⟨on, tasks, flag⟩ := pending
    cases switched with
    | off idle => simp [on, tasks] at idle
    | quiet _ quiet => simp [flag] at quiet
    | kernel save _ _ => exact Or.inr ⟨rfl, kernel on⟩
    | task next save _ found =>
      refine Or.inl ⟨next, rfl, slots next ?_⟩
      rw [frame.state next, selectLoop_runnable found]
      decide

theorem switch_resumes_right_context_first_task :
    ∃ s b past s' esp', SchedRun s past ∧ switchCall s (.start 0x9000) = some (b, 0x9000) ∧
      schedulerSwitchFromIsr b 0x9000 = some (s', esp') ∧
        ((∃ t : Fin 4, s'.currentTask = t.val ∧ resumeEsp t ((s, .start 0x9000) :: past) = some esp') ∨
          (s'.currentTask = -1 ∧ kernelResumeEsp ((s, .start 0x9000) :: past) = some esp')) := by
  have slot : freeSlot (schedulerInit schedReset) = some 0 := by decide
  obtain ⟨_, base, esp, _, _, _, add⟩ := add_runs slot
  have run : SchedRun _ _ := .next (.start ⟨schedReset, rfl⟩) add
  have call : switchCall (installTask (schedulerInit schedReset) 0 base esp) (.start 0x9000) = some (_, 0x9000) := rfl
  have allowed : (SchedOp.start 0x9000).Allowed (installTask (schedulerInit schedReset) 0 base esp) := rfl
  obtain ⟨s', esp', switch, _, _, resumes⟩ := switch_resumes_right_context run allowed call
  exact ⟨_, _, _, s', esp', run, call, switch, resumes ⟨rfl, Nat.one_ne_zero, rfl⟩⟩

end LearningOS
