import LearningOS.Proc.Reach
import LearningOS.Run.History

namespace LearningOS
open History

/-- One step of the scheduler. -/
def SchedSteps (s : Sched) (op : SchedOp) (s' : Sched) : Prop := op.Allowed s ∧ schedStep s op = some s'

/-- The runs of the scheduler with everything that happened in them. -/
abbrev SchedRun := Run (fun s => ∃ s₀, s = schedulerInit s₀) SchedSteps

/-- The call of `scheduler_switch_from_isr` in a step: the state it finds and its
argument. -/
def switchCall (s : Sched) : SchedOp → Option (Sched × Nat)
  | .add .. => none
  | .start esp =>
    if s.activeTasks = 0 then none
    else some (schedulerTick { s with schedulingEnabled := true, currentTask := -1, needResched := true }, esp)
  | .timer esp => some (schedulerTick s, esp)
  | .irq esp => some (s, esp)
  | .yield esp =>
    if !s.schedulingEnabled ∨ s.taskCount < 2 then none else some (schedulerTick { s with needResched := true }, esp)
  | .exit code esp =>
    if !s.schedulingEnabled ∨ s.taskCount = 0 then none
    else (slotAt s.currentTask).map fun prev => (schedulerTick (retire s prev code), esp)
  | .wait .. => none

/-- The slot `scheduler_add` fills in a step, with the stack pointer that
`task_context_init` builds for it. -/
def installed (s : Sched) : SchedOp → Option (Fin 4 × Nat)
  | .add h entry =>
    if entry = 0 then none
    else
      (freeSlot s).bind fun slot =>
        (kmalloc h 4096).bind fun (h, stackBase) =>
          if stackBase = 0 then none
          else some (slot, (taskContextInit h.mem entry (ByteStore.u32 (stackBase + 4096))).2)
  | _ => none

/-- The save of an enabled scheduler, into the current slot or the kernel context. -/
structure Saved (b : Sched) (esp : Nat) (u : Sched) : Prop where
  on : b.schedulingEnabled = true
  tasks : 0 < b.taskCount
  into : (b.currentTask = -1 ∧ u = { b with kernelEsp := esp }) ∨
    ∃ c : Fin 4, b.currentTask = c.val ∧ u = b.setTask c { b.tasks c with irqEsp := esp }

/-- What `scheduler_switch_from_isr` does: nothing while scheduling is off, only the
save if no reschedule is pending, else a switch to the kernel or to a task. -/
inductive Switched (b : Sched) (esp : Nat) : Sched → Nat → Prop
  | off : b.schedulingEnabled = false ∨ b.taskCount = 0 → Switched b esp b esp
  | quiet {u} : Saved b esp u → b.needResched = false → Switched b esp u esp
  | kernel {u} : Saved b esp u → b.needResched = true → b.activeTasks = 0 →
      Switched b esp { u with needResched := false, currentTask := -1, schedulingEnabled := false } u.kernelEsp
  | task {u} (next : Fin 4) : Saved b esp u → b.needResched = true →
      selectLoop b b.taskCount b.currentTask = some (some next) →
      Switched b esp { u with needResched := false, currentTask := next.val } (u.tasks next).irqEsp

theorem schedStep_switchCall {s b : Sched} {op : SchedOp} {esp : Nat} (call : switchCall s op = some (b, esp)) :
    schedStep s op = (schedulerSwitchFromIsr b esp).map Prod.fst := by
  cases op with
  | add h entry => simp [switchCall] at call
  | wait h pid => simp [switchCall] at call
  | timer e =>
    cases Option.some.inj call
    rfl
  | irq e =>
    cases Option.some.inj call
    rfl
  | start e =>
    simp only [switchCall] at call
    split at call
    · simp at call
    · rename_i some_task
      cases Option.some.inj call
      simp only [schedStep, schedulerStart, if_neg some_task]
      rfl
  | yield e =>
    simp only [switchCall] at call
    split at call
    · simp at call
    · rename_i on
      cases Option.some.inj call
      simp only [schedStep, taskYield, if_neg on]
      rfl
  | exit code e =>
    simp only [switchCall] at call
    split at call
    · simp at call
    · rename_i on
      obtain ⟨prev, slot, found⟩ := Option.map_eq_some_iff.mp call
      cases found
      simp only [schedStep, schedulerExit, if_neg on, slot, Option.bind_some]
      rfl

/-- A step that makes no such call is an `add`, a `wait`, or changes nothing. -/
theorem schedStep_noCall {s s' : Sched} {op : SchedOp} (noCall : switchCall s op = none) (run : schedStep s op = some s') :
    (s' = s ∧ installed s op = none ∧ ∀ h pid, op ≠ .wait h pid) ∨ (∃ h entry, op = .add h entry) ∨
      ∃ h pid, op = .wait h pid := by
  cases op with
  | add h entry => exact Or.inr (Or.inl ⟨h, entry, rfl⟩)
  | wait h pid => exact Or.inr (Or.inr ⟨h, pid, rfl⟩)
  | timer e => simp [switchCall] at noCall
  | irq e => simp [switchCall] at noCall
  | start e =>
    simp only [switchCall] at noCall
    split at noCall
    · rename_i no_task
      simp only [schedStep, schedulerStart, if_pos no_task, Option.map_some, Option.some.injEq] at run
      exact Or.inl ⟨run.symm, rfl, by simp⟩
    · simp at noCall
  | yield e =>
    simp only [switchCall] at noCall
    split at noCall
    · rename_i off
      simp only [schedStep, taskYield, if_pos off, Option.map_some, Option.some.injEq] at run
      exact Or.inl ⟨run.symm, rfl, by simp⟩
    · simp at noCall
  | exit code e =>
    simp only [switchCall] at noCall
    split at noCall
    · rename_i off
      simp only [schedStep, schedulerExit, if_pos off, Option.map_some, Option.some.injEq] at run
      exact Or.inl ⟨run.symm, rfl, by simp⟩
    · rename_i on
      have slot := Option.map_eq_none_iff.mp noCall
      simp only [schedStep, schedulerExit, if_neg on, slot, Option.bind_none, Option.map_none, reduceCtorEq] at run

/-- The state a call of `scheduler_switch_from_isr` finds, next to the one before its
step: a task that exits is a zombie by then, and `scheduler_start` turned scheduling on. -/
structure Prepared (s : Sched) (op : SchedOp) (b : Sched) (esp : Nat) : Prop where
  tasks : (b.tasks = s.tasks ∧ ∀ code e, op ≠ .exit code e) ∨ ∃ prev code, op = .exit code esp ∧ s.schedulingEnabled = true ∧
    s.currentTask = (prev.val : Int) ∧
    b.tasks = Function.update s.tasks prev { s.tasks prev with state := .zombie, exitCode := code }
  count : b.taskCount = s.taskCount
  nextPid : b.nextPid = s.nextPid
  kernelEsp : b.kernelEsp = s.kernelEsp
  slots : SlotInv b
  some_task : b.schedulingEnabled = true → 0 < b.taskCount
  mode : (b.currentTask = s.currentTask ∧ b.schedulingEnabled = s.schedulingEnabled) ∨
    (s.schedulingEnabled = false ∧ b.currentTask = -1 ∧ b.schedulingEnabled = true)

namespace SchedInv
variable {s b : Sched} {op : SchedOp} {esp : Nat}

theorem off_of_kernel (inv : SchedInv s) (kernel : s.currentTask = -1) : s.schedulingEnabled = false := by
  by_contra on
  obtain ⟨i, current, _⟩ := inv.enabled (Bool.eq_true_of_not_eq_false on)
  omega

theorem prepared (inv : SchedInv s) (allowed : op.Allowed s) (call : switchCall s op = some (b, esp)) :
    Prepared s op b esp := by
  have slots := inv.toSlotInv
  have some_task (on : s.schedulingEnabled = true) : 0 < s.taskCount := inv.taskCount_pos (inv.active_pos on)
  cases op with
  | add h entry => simp [switchCall] at call
  | wait h pid => simp [switchCall] at call
  | timer e =>
    cases Option.some.inj call
    obtain ⟨ticks, resched, tick, _⟩ := schedulerTick_eq s
    rw [tick]
    exact ⟨Or.inl ⟨rfl, by simp⟩, rfl, rfl, rfl, ⟨slots.active, slots.count, slots.below, slots.bases⟩, some_task,
      Or.inl ⟨rfl, rfl⟩⟩
  | irq e =>
    cases Option.some.inj call
    exact ⟨Or.inl ⟨rfl, by simp⟩, rfl, rfl, rfl, slots, some_task, Or.inl ⟨rfl, rfl⟩⟩
  | start e =>
    simp only [switchCall] at call
    split at call
    · simp at call
    · rename_i active
      cases Option.some.inj call
      obtain ⟨ticks, resched, tick, _⟩ :=
        schedulerTick_eq { s with schedulingEnabled := true, currentTask := -1, needResched := true }
      rw [tick]
      exact ⟨Or.inl ⟨rfl, by simp⟩, rfl, rfl, rfl, ⟨slots.active, slots.count, slots.below, slots.bases⟩,
        fun _ => slots.taskCount_pos (Nat.pos_of_ne_zero active),
        Or.inr ⟨inv.off_of_kernel allowed, rfl, rfl⟩⟩
  | yield e =>
    simp only [switchCall] at call
    split at call
    · simp at call
    · cases Option.some.inj call
      obtain ⟨ticks, resched, tick, _⟩ := schedulerTick_eq { s with needResched := true }
      rw [tick]
      exact ⟨Or.inl ⟨rfl, by simp⟩, rfl, rfl, rfl, ⟨slots.active, slots.count, slots.below, slots.bases⟩, some_task,
        Or.inl ⟨rfl, rfl⟩⟩
  | exit code e =>
    simp only [switchCall] at call
    split at call
    · simp at call
    · rename_i on
      obtain ⟨prev, slot, found⟩ := Option.map_eq_some_iff.mp call
      cases found
      have enabled : s.schedulingEnabled = true := by
        by_contra off
        simp [off] at on
      obtain ⟨i, current, runs⟩ := inv.enabled enabled
      rw [current, slotAt_fin] at slot
      cases Option.some.inj slot
      obtain ⟨zombies, _⟩ := slots.retire runs code
      obtain ⟨ticks, resched, tick, _⟩ := schedulerTick_eq (retire s prev code)
      rw [tick]
      rw [retire_eq] at zombies ⊢
      exact ⟨Or.inr ⟨prev, code, rfl, enabled, current, rfl⟩, rfl, rfl, rfl,
        ⟨zombies.active, zombies.count, zombies.below, zombies.bases⟩, some_task, Or.inl ⟨rfl, rfl⟩⟩

end SchedInv

namespace Prepared
variable {s b : Sched} {op : SchedOp} {esp : Nat}

theorem current (prepared : Prepared s op b esp) (inv : SchedInv s) : b.currentTask = s.currentTask := by
  rcases prepared.mode with ⟨current, _⟩ | ⟨off, current, _⟩
  · exact current
  · rw [current, inv.disabled off]

theorem positioned (prepared : Prepared s op b esp) (inv : SchedInv s) : Positioned b := by
  unfold Positioned
  rw [prepared.current inv]
  exact inv.positioned

theorem idle (prepared : Prepared s op b esp) (inv : SchedInv s) (off : b.schedulingEnabled = false) :
    b.currentTask = -1 := by
  rcases prepared.mode with ⟨current, enabled⟩ | ⟨_, current, _⟩
  · exact current.trans (inv.disabled (enabled.symm.trans off))
  · exact current

/-- Saved stack pointers, pids and stacks are as before. -/
theorem same (prepared : Prepared s op b esp) (i : Fin 4) :
    (b.tasks i).irqEsp = (s.tasks i).irqEsp ∧ (b.tasks i).pid = (s.tasks i).pid ∧
      (b.tasks i).stackBase = (s.tasks i).stackBase := by
  rcases prepared.tasks with ⟨same, _⟩ | ⟨prev, code, _, _, _, update⟩
  · rw [same]
    exact ⟨rfl, rfl, rfl⟩
  · rw [update, Function.update_apply]
    split
    · rename_i here
      rw [here]
      exact ⟨rfl, rfl, rfl⟩
    · exact ⟨rfl, rfl, rfl⟩

/-- Only the running task may have changed its state, to a zombie. -/
theorem states (prepared : Prepared s op b esp) (inv : SchedInv s) (i : Fin 4) :
    (b.tasks i).state = (s.tasks i).state ∨ ((s.tasks i).state = .runnable ∧ (b.tasks i).state = .zombie) := by
  rcases prepared.tasks with ⟨same, _⟩ | ⟨prev, code, _, _, current, update⟩
  · exact Or.inl (by rw [same])
  · by_cases here : i = prev
    · subst here
      exact Or.inr ⟨inv.current_runs current, by rw [update, Function.update_self]⟩
    · exact Or.inl (by rw [update, Function.update_of_ne here])

/-- The same slots hold tasks. -/
theorem unused_iff (prepared : Prepared s op b esp) (inv : SchedInv s) (i : Fin 4) :
    (b.tasks i).state = .unused ↔ (s.tasks i).state = .unused := by
  rcases prepared.states inv i with same | ⟨runs, zombie⟩
  · rw [same]
  · simp [runs, zombie]

end Prepared

/-- The scan stops at a runnable slot. -/
theorem selectLoop_runnable {s : Sched} {rounds : Nat} {next : Int} {j : Fin 4}
    (found : selectLoop s rounds next = some (some j)) : (s.tasks j).state = .runnable := by
  induction rounds generalizing next with
  | zero => simp [selectLoop] at found
  | succ rounds ih =>
    unfold selectLoop at found
    obtain ⟨slot, _, result⟩ := Option.bind_eq_some_iff.mp found
    split at result
    · rename_i runs
      cases result
      exact runs
    · exact ih result

theorem selectLoop_congr {s t : Sched} (state : ∀ i, (t.tasks i).state = (s.tasks i).state)
    (count : t.taskCount = s.taskCount) (rounds : Nat) (next : Int) :
    selectLoop t rounds next = selectLoop s rounds next := by
  induction rounds generalizing next with
  | zero => rfl
  | succ rounds ih =>
    unfold selectLoop
    simp only [count, state, ih]

namespace Saved
variable {b u : Sched} {esp : Nat}

/-- A save changes one stack pointer only. -/
theorem fields (saved : Saved b esp u) : SameSlots b u ∧ u.currentTask = b.currentTask ∧
    u.schedulingEnabled = b.schedulingEnabled ∧ u.needResched = b.needResched ∧ u.nextPid = b.nextPid ∧
    (∀ i, (u.tasks i).pid = (b.tasks i).pid ∧ (u.tasks i).exitCode = (b.tasks i).exitCode) ∧
    (∀ i : Fin 4, (u.tasks i).irqEsp = if b.currentTask = i.val then esp else (b.tasks i).irqEsp) ∧
    u.kernelEsp = if b.currentTask = -1 then esp else b.kernelEsp := by
  rcases saved.into with ⟨kernel, rfl⟩ | ⟨c, current, rfl⟩
  · refine ⟨⟨fun _ => rfl, fun _ => rfl, rfl, rfl⟩, rfl, rfl, rfl, rfl, fun _ => ⟨rfl, rfl⟩, fun i => ?_, ?_⟩
    · rw [if_neg (by omega)]
    · rw [if_pos kernel]
  · have slot (i : Fin 4) : (b.setTask c { b.tasks c with irqEsp := esp }).tasks i =
        { b.tasks i with irqEsp := if b.currentTask = i.val then esp else (b.tasks i).irqEsp } := by
      rw [setTask_tasks, Function.update_apply]
      by_cases here : i = c
      · rw [if_pos here, here, if_pos current]
      · rw [if_neg here, if_neg (by rw [current]; omega)]
    refine ⟨⟨fun i => ?_, fun i => ?_, rfl, rfl⟩, rfl, rfl, rfl, rfl, fun i => ?_, fun i => ?_, ?_⟩
    · rw [slot i]
    · rw [slot i]
    · rw [slot i]
      exact ⟨rfl, rfl⟩
    · rw [slot i]
    · rw [if_neg (by omega)]
      rfl

end Saved

/-- The switch on a state in order, said once for all that follows. -/
theorem SlotInv.switched {b t : Sched} {esp esp' : Nat} (inv : SlotInv b) (position : Positioned b)
    (run : schedulerSwitchFromIsr b esp = some (t, esp')) : Switched b esp t esp' := by
  unfold schedulerSwitchFromIsr at run
  split at run
  · rename_i off
    cases Option.some.inj run
    exact .off (by simpa using off)
  · rename_i on
    simp only [Bool.not_eq_true', not_or, Bool.not_eq_false] at on
    obtain ⟨u, save, saved⟩ : ∃ u, saveContext b esp = some u ∧ Saved b esp u := by
      unfold saveContext
      rcases position with kernel | ⟨c, current⟩
      · rw [if_neg (by omega)]
        exact ⟨_, rfl, on.1, Nat.pos_of_ne_zero on.2, Or.inl ⟨kernel, rfl⟩⟩
      · rw [if_pos (by omega), current, slotAt_fin, Option.map_some]
        exact ⟨_, rfl, on.1, Nat.pos_of_ne_zero on.2, Or.inr ⟨c, current, rfl⟩⟩
    obtain ⟨same, current, _, flag, _⟩ := saved.fields
    rw [save, Option.bind_some, flag] at run
    cases pending : b.needResched with
    | false =>
      rw [pending] at run
      cases Option.some.inj run
      exact .quiet saved pending
    | true =>
      rw [pending] at run
      simp only [Bool.not_true, Bool.false_eq_true, if_false] at run
      split at run
      · rename_i none
        cases Option.some.inj run
        exact .kernel saved pending (same.active.symm.trans none)
      · rename_i some_task
        obtain ⟨next, found, _⟩ := inv.selectLoop_finds position (by rw [← same.active]; omega)
        have scan : selectLoop { u with needResched := false } u.taskCount u.currentTask = some (some next) := by
          rw [← same.count, ← current] at found
          exact (selectLoop_congr (t := { u with needResched := false }) same.state same.count _ _).trans found
        rw [scan, Option.map_some] at run
        cases Option.some.inj run
        exact .task next saved pending found

theorem SlotInv.switch_total {b : Sched} (inv : SlotInv b) (position : Positioned b) (esp : Nat) :
    ∃ t esp', schedulerSwitchFromIsr b esp = some (t, esp') := by
  by_cases off : (!b.schedulingEnabled) = true ∨ b.taskCount = 0
  · exact ⟨b, esp, if_pos off⟩
  · have on := off
    simp only [Bool.not_eq_true', not_or, Bool.not_eq_false] at on
    cases pending : b.needResched with
    | true =>
      obtain ⟨t, esp', run, _⟩ := switch_pending inv position on.1 (Nat.pos_of_ne_zero on.2) pending esp
      exact ⟨t, esp', run⟩
    | false =>
      obtain ⟨u, save, _, _, _, flag, _⟩ := saveContext_spec position esp
      refine ⟨u, esp, ?_⟩
      rw [schedulerSwitchFromIsr, if_neg off, save, Option.bind_some, flag, pending]
      rfl

/-- What a switch leaves: one stack pointer is saved, the slots are the same. -/
structure SwitchFrame (b : Sched) (esp : Nat) (t : Sched) : Prop extends SameSlots b t where
  nextPid : t.nextPid = b.nextPid
  pid : ∀ i, (t.tasks i).pid = (b.tasks i).pid
  exitCode : ∀ i, (t.tasks i).exitCode = (b.tasks i).exitCode
  irqEsp : ∀ i : Fin 4, (t.tasks i).irqEsp = if b.currentTask = i.val then esp else (b.tasks i).irqEsp
  kernelEsp : t.kernelEsp = if b.currentTask = -1 ∧ b.schedulingEnabled = true then esp else b.kernelEsp

theorem Saved.frame_on {b u : Sched} {esp : Nat} (saved : Saved b esp u) : u.schedulingEnabled = true := by
  obtain ⟨_, _, on, _⟩ := saved.fields
  exact on.trans saved.on

theorem Saved.frame {b u : Sched} {esp : Nat} (saved : Saved b esp u) : SwitchFrame b esp u := by
  obtain ⟨same, _, _, _, nextPid, fields, irqEsp, kernelEsp⟩ := saved.fields
  refine ⟨same, nextPid, fun i => (fields i).1, fun i => (fields i).2, irqEsp, ?_⟩
  rw [kernelEsp]
  exact if_congr (by simp [saved.on]) rfl rfl

theorem Switched.frame {b t : Sched} {esp esp' : Nat} (switched : Switched b esp t esp')
    (idle : b.schedulingEnabled = false → b.currentTask = -1)
    (some_task : b.schedulingEnabled = true → 0 < b.taskCount) : SwitchFrame b esp t := by
  cases switched with
  | off off =>
    have disabled : b.schedulingEnabled = false := by
      rcases off with off | none
      · exact off
      · by_contra on
        have tasks := some_task (Bool.eq_true_of_not_eq_false on)
        omega
    have kernel := idle disabled
    refine ⟨.refl b, rfl, fun _ => rfl, fun _ => rfl, fun i => ?_, ?_⟩
    · rw [if_neg (by omega)]
    · rw [if_neg (by simp [disabled])]
  | quiet saved _ => exact saved.frame
  | kernel saved _ _ =>
    have frame := saved.frame
    exact ⟨⟨frame.state, frame.base, frame.count, frame.active⟩, frame.nextPid, frame.pid, frame.exitCode,
      frame.irqEsp, frame.kernelEsp⟩
  | task next saved _ _ =>
    have frame := saved.frame
    exact ⟨⟨frame.state, frame.base, frame.count, frame.active⟩, frame.nextPid, frame.pid, frame.exitCode,
      frame.irqEsp, frame.kernelEsp⟩

theorem schedulerAdd_installed {h h' : Heap} {s s' : Sched} {entry : Nat} {ret : Int}
    (run : schedulerAdd h s entry = some (h', s', ret)) :
    (installed s (.add h entry) = none ∧ s' = s ∧ ret = -1) ∨
      ∃ slot base esp, installed s (.add h entry) = some (slot, esp) ∧ (s.tasks slot).state = .unused ∧ base ≠ 0 ∧
        s' = installTask s slot base esp ∧ ret = s.nextPid := by
  unfold schedulerAdd at run
  simp only [installed]
  split at run
  · rename_i null
    cases Option.some.inj run
    exact Or.inl ⟨if_pos null, rfl, rfl⟩
  rename_i entered
  rw [if_neg entered]
  split at run
  · rename_i full
    cases Option.some.inj run
    exact Or.inl ⟨by rw [full, Option.bind_none], rfl, rfl⟩
  · rename_i slot free
    obtain ⟨⟨h₁, base⟩, call, result⟩ := Option.map_eq_some_iff.mp run
    rw [free, Option.bind_some, call, Option.bind_some]
    dsimp only at result ⊢
    by_cases failed : base = 0
    · rw [if_pos failed] at result ⊢
      cases result
      exact Or.inl ⟨rfl, rfl, rfl⟩
    · rw [if_neg failed] at result ⊢
      cases result
      exact Or.inr ⟨slot, base, _, rfl, freeSlot_unused free, failed, rfl, rfl⟩

/-- `scheduler_wait` fails if its search finds nothing, and else reaps what it found. -/
theorem schedulerWait_found {h h' : Heap} {s s' : Sched} {pid ret : Int} {code : Option Int} {frees : List FreeCall}
    (run : schedulerWait h s pid = some (h', s', ret, code, frees)) :
    (zombieSlot s pid = none ∧ s' = s ∧ ret = -1) ∨
      ∃ i, zombieSlot s pid = some i ∧ s' = reap s i ∧ ret = 0 ∧ code = some (s.tasks i).exitCode := by
  unfold schedulerWait at run
  split at run
  · rename_i nothing
    cases Option.some.inj run
    exact Or.inl ⟨nothing, rfl, rfl⟩
  · rename_i i found
    dsimp only at run
    split at run
    · obtain ⟨h₁, _, result⟩ := Option.map_eq_some_iff.mp run
      cases result
      exact Or.inr ⟨i, found, rfl, rfl, rfl⟩
    · cases Option.some.inj run
      exact Or.inr ⟨i, found, rfl, rfl, rfl⟩

/-- Everything a step of the scheduler can do. -/
inductive StepEffect (s : Sched) (op : SchedOp) (s' : Sched) : Prop
  | switch (b : Sched) (esp esp' : Nat) : switchCall s op = some (b, esp) →
      schedulerSwitchFromIsr b esp = some (s', esp') → Prepared s op b esp → Switched b esp s' esp' →
      SwitchFrame b esp s' → StepEffect s op s'
  | none : switchCall s op = none → installed s op = none → (∀ h pid, op = .wait h pid → zombieSlot s pid = none) →
      s' = s → StepEffect s op s'
  | add (slot : Fin 4) (base esp : Nat) : switchCall s op = none → installed s op = some (slot, esp) →
      (s.tasks slot).state = .unused → base ≠ 0 → s' = installTask s slot base esp → StepEffect s op s'
  | reap (h : Heap) (pid : Int) (i : Fin 4) : op = .wait h pid → zombieSlot s pid = some i → s' = reap s i →
      StepEffect s op s'

theorem SchedInv.effect {s s' : Sched} {op : SchedOp} (inv : SchedInv s) (step : SchedSteps s op s') :
    StepEffect s op s' := by
  obtain ⟨allowed, run⟩ := step
  cases call : switchCall s op with
  | some found =>
    obtain ⟨b, esp⟩ := found
    have prepared := inv.prepared allowed call
    rw [schedStep_switchCall call] at run
    obtain ⟨⟨t, esp'⟩, switch, result⟩ := Option.map_eq_some_iff.mp run
    cases result
    have switched := prepared.slots.switched (prepared.positioned inv) switch
    exact .switch b esp esp' call switch prepared switched (switched.frame (prepared.idle inv) prepared.some_task)
  | none =>
    rcases schedStep_noCall call run with ⟨same, none, noWait⟩ | ⟨h, entry, rfl⟩ | ⟨h, pid, rfl⟩
    · exact .none call none (fun h pid wait => absurd wait (noWait h pid)) same
    · obtain ⟨⟨h', t, ret⟩, add, result⟩ := Option.map_eq_some_iff.mp run
      cases result
      rcases schedulerAdd_installed add with ⟨failed, same, _⟩ | ⟨slot, base, esp, fills, unused, pointer, after, _⟩
      · exact .none call failed (by simp) same
      · exact .add slot base esp rfl fills unused pointer after
    · obtain ⟨⟨h', t, ret, code, frees⟩, wait, result⟩ := Option.map_eq_some_iff.mp run
      cases result
      rcases schedulerWait_found wait with ⟨nothing, same, _⟩ | ⟨i, found, after, _⟩
      · refine .none call rfl (fun h' pid' equal => ?_) same
        cases equal
        exact nothing
      · exact .reap h pid i rfl found after

/-- The kernel context was saved just now, or earlier while scheduling was on. -/
def KernelSaved (s : Sched) (esp : Nat) (t : Sched) : Prop :=
  (s.currentTask = -1 ∧ t.kernelEsp = esp) ∨ (s.schedulingEnabled = true ∧ t.kernelEsp = s.kernelEsp)

/-- A step that switches, from the context that was current to the one that is: the
first gets the stack pointer of the interrupt, the other gives its own. -/
structure Handover (s : Sched) (esp : Nat) (t : Sched) (esp' : Nat) : Prop where
  base : ∀ i, (t.tasks i).stackBase = (s.tasks i).stackBase
  used : ∀ i, (t.tasks i).state = .unused ↔ (s.tasks i).state = .unused
  runs : ∀ i, (t.tasks i).state = .runnable → (s.tasks i).state = .runnable
  irqEsp : ∀ i : Fin 4, (t.tasks i).irqEsp = if s.currentTask = i.val then esp else (s.tasks i).irqEsp
  kernel : t.schedulingEnabled = true → KernelSaved s esp t
  next : (t.currentTask = s.currentTask ∧ esp' = esp) ∨
    (t.currentTask = -1 ∧ (∀ i, (t.tasks i).state ≠ .runnable) ∧ esp' = t.kernelEsp ∧ KernelSaved s esp t) ∨
    ∃ n : Fin 4, t.currentTask = n.val ∧ (t.tasks n).state = .runnable ∧ esp' = (t.tasks n).irqEsp

theorem Prepared.kernelSaved {s b t : Sched} {op : SchedOp} {esp : Nat} (prepared : Prepared s op b esp)
    (inv : SchedInv s) (frame : SwitchFrame b esp t) (on : b.schedulingEnabled = true) : KernelSaved s esp t := by
  have kernelEsp := frame.kernelEsp
  by_cases kernel : b.currentTask = -1
  · rw [if_pos ⟨kernel, on⟩] at kernelEsp
    exact Or.inl ⟨(prepared.current inv).symm.trans kernel, kernelEsp⟩
  · rw [if_neg fun both => kernel both.1, prepared.kernelEsp] at kernelEsp
    rcases prepared.mode with ⟨_, enabled⟩ | ⟨_, current, _⟩
    · exact Or.inr ⟨enabled.symm.trans on, kernelEsp⟩
    · exact absurd current kernel

theorem SchedInv.handover {s b t : Sched} {op : SchedOp} {esp esp' : Nat} (inv : SchedInv s) (allowed : op.Allowed s)
    (call : switchCall s op = some (b, esp)) (run : schedulerSwitchFromIsr b esp = some (t, esp')) :
    Handover s esp t esp' := by
  have prepared := inv.prepared allowed call
  have switched := prepared.slots.switched (prepared.positioned inv) run
  have frame := switched.frame (prepared.idle inv) prepared.some_task
  have current := prepared.current inv
  refine ⟨fun i => (frame.base i).trans (prepared.same i).2.2, fun i => ?_, fun i runs => ?_, fun i => ?_,
    fun on => prepared.kernelSaved inv frame ?_, ?_⟩
  · rw [frame.state i]
    exact prepared.unused_iff inv i
  · rw [frame.state i] at runs
    rcases prepared.states inv i with same | ⟨runs, _⟩
    · exact same.symm.trans runs
    · exact runs
  · rw [frame.irqEsp i, current, (prepared.same i).1]
  · cases switched with
    | off _ => exact on
    | quiet saved _ => exact saved.on
    | kernel saved _ _ => exact saved.on
    | task next saved _ _ => exact saved.on
  · cases switched with
    | off _ => exact Or.inl ⟨current, rfl⟩
    | quiet saved _ => exact Or.inl ⟨saved.fields.2.1.trans current, rfl⟩
    | kernel saved _ none =>
      refine Or.inr (Or.inl ⟨rfl, fun i runs => ?_, rfl, prepared.kernelSaved inv frame saved.on⟩)
      have counted := prepared.slots.active
      rw [none, eq_comm, Finset.card_eq_zero] at counted
      have member : i ∈ runnableSlots b := mem_runnableSlots.mpr ((frame.state i).symm.trans runs)
      simp [counted] at member
    | task next saved _ found =>
      refine Or.inr (Or.inr ⟨next, rfl, ?_, rfl⟩)
      rw [frame.state next]
      exact selectLoop_runnable found

/-- The kernel's heap right after `heap_init`. -/
def bootHeap : Heap := heapInit (fun _ => 0) kernelHeap.start kernelHeap.size

/-- As long as there is a slot a task can be added. -/
theorem add_runs {s : Sched} {slot : Fin 4} (free : freeSlot s = some slot) :
    ∃ h base esp, kmalloc bootHeap 4096 = some (h, base) ∧ base ≠ 0 ∧ installed s (.add bootHeap 0x101000) =
      some (slot, esp) ∧ SchedSteps s (.add bootHeap 0x101000) (installTask s slot base esp) := by
  have inv := HeapInv.heapInit (r := kernelHeap) (fun _ => 0) (by decide)
  rcases inv.kmalloc_spec 4096 with ⟨_, zero | none⟩ | ⟨m', a, bs', _, _, result, _⟩
  · exact absurd zero (by decide)
  · exact absurd none (by decide)
  · change kmalloc bootHeap 4096 = _ at result
    refine ⟨_, a + 12, (taskContextInit m' 0x101000 (ByteStore.u32 (a + 12 + 4096))).2, result, by omega, ?_,
      trivial, ?_⟩
    · simp only [installed, if_neg (show 0x101000 ≠ 0 by decide), free, result, Option.bind_some]
      exact if_neg (by omega)
    · rw [schedStep, schedulerAdd, if_neg (by decide), free, result]
      rfl

theorem SchedRun.inv {s : Sched} {past : List (Sched × SchedOp)} (run : SchedRun s past) : SchedInv s := by
  refine Run.holds ?_ ?_ run
  · rintro _ ⟨s₀, rfl⟩
    exact schedulerInit_inv s₀
  · intro s op s' inv step
    exact (inv.step step.1 step.2).1

end LearningOS
