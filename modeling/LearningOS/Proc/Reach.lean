import LearningOS.Proc.Invariant
import LearningOS.Heap.Canonical

namespace LearningOS
open ByteStore Tiling

/-- Everything that can happen to the scheduler. The two calls that use the heap
carry it; the others carry the stack pointer of their interrupt. -/
inductive SchedOp
  | add (h : Heap) (entry : Nat)
  | start (esp : Nat)
  | timer (esp : Nat)
  | irq (esp : Nat)
  | yield (esp : Nat)
  | exit (code : Int) (esp : Nat)
  | wait (h : Heap) (pid : Int)

def schedStep (s : Sched) : SchedOp → Option Sched
  | .add h entry => (schedulerAdd h s entry).map fun r => r.2.1
  | .start esp => (schedulerStart s esp).map Prod.fst
  | .timer esp => (timerInterrupt s esp).map Prod.fst
  | .irq esp => (schedulerSwitchFromIsr s esp).map Prod.fst
  | .yield esp => (taskYield s esp).map Prod.fst
  | .exit code esp => (schedulerExit s code esp).map Prod.fst
  | .wait h pid => (schedulerWait h s pid).map fun r => r.2.1

/-- `scheduler_start` is called from the kernel context only. -/
def SchedOp.Allowed (s : Sched) : SchedOp → Prop
  | .start _ => s.currentTask = -1
  | _ => True

inductive SchedReach : Sched → Prop
  | init (s : Sched) : SchedReach (schedulerInit s)
  | step {s s'} (op : SchedOp) : SchedReach s → op.Allowed s → schedStep s op = some s' → SchedReach s'

/-- `scheduler_add` fails without an effect of its own, or installs a task in a
free slot on a fresh stack. -/
theorem schedulerAdd_cases {h h' : Heap} {s s' : Sched} {entry : Nat} {ret : Int}
    (run : schedulerAdd h s entry = some (h', s', ret)) :
    (s' = s ∧ ret = -1 ∧ (h' = h ∨ kmalloc h 4096 = some (h', 0))) ∨
      ∃ slot h₁ base, (s.tasks slot).state = .unused ∧ kmalloc h 4096 = some (h₁, base) ∧ base ≠ 0 ∧
        h' = { h₁ with mem := (taskContextInit h₁.mem entry (u32 (base + 4096))).1 } ∧
        s' = installTask s slot base (taskContextInit h₁.mem entry (u32 (base + 4096))).2 ∧ ret = s.nextPid := by
  unfold schedulerAdd at run
  split at run
  · cases Option.some.inj run
    exact Or.inl ⟨rfl, rfl, Or.inl rfl⟩
  split at run
  · cases Option.some.inj run
    exact Or.inl ⟨rfl, rfl, Or.inl rfl⟩
  · rename_i slot found
    obtain ⟨⟨h₁, base⟩, call, result⟩ := Option.map_eq_some_iff.mp run
    dsimp only at result
    by_cases failed : base = 0
    · rw [if_pos failed] at result
      cases result
      rw [failed] at call
      exact Or.inl ⟨rfl, rfl, Or.inr call⟩
    · rw [if_neg failed] at result
      cases result
      exact Or.inr ⟨slot, h₁, base, freeSlot_unused found, call, failed, rfl, rfl, rfl⟩

/-- `scheduler_wait` fails and changes nothing, or reaps a zombie and frees its
stack. -/
theorem schedulerWait_cases {h h' : Heap} {s s' : Sched} {pid ret : Int} {code : Option Int} {frees : List FreeCall}
    (run : schedulerWait h s pid = some (h', s', ret, code, frees)) :
    (h' = h ∧ s' = s ∧ ret = -1 ∧ code = none ∧ frees = []) ∨
      ∃ i : Fin 4, (s.tasks i).state = .zombie ∧ (s.tasks i).pid = pid ∧ s' = reap s i ∧ ret = 0 ∧
        code = some (s.tasks i).exitCode ∧
        (((s.tasks i).stackBase ≠ 0 ∧ kfree h (s.tasks i).stackBase = some h' ∧
          frees = [⟨h, (s.tasks i).stackBase⟩]) ∨ ((s.tasks i).stackBase = 0 ∧ h' = h ∧ frees = [])) := by
  unfold schedulerWait at run
  split at run
  · cases Option.some.inj run
    exact Or.inl ⟨rfl, rfl, rfl, rfl, rfl⟩
  · rename_i i found
    obtain ⟨zombie, pidIs, _⟩ := zombieSlot_zombie found
    dsimp only at run
    split at run
    · rename_i base
      obtain ⟨h₁, call, result⟩ := Option.map_eq_some_iff.mp run
      cases result
      exact Or.inr ⟨i, zombie, pidIs, rfl, rfl, rfl, Or.inl ⟨base, call, rfl⟩⟩
    · rename_i base
      cases Option.some.inj run
      exact Or.inr ⟨i, zombie, pidIs, rfl, rfl, rfl, Or.inr ⟨not_not.mp base, rfl, rfl⟩⟩

namespace SchedInv
variable {s : Sched}

/-- The running task can always exit; the kernel context returns exactly if it
was the last one. -/
theorem exit (inv : SchedInv s) (code : Int) (esp : Nat) :
    ∃ t esp', schedulerExit s code esp = some (t, esp') ∧ SchedInv t ∧
      (s.schedulingEnabled = false → t = s) ∧
      (s.schedulingEnabled = true → (t.schedulingEnabled = false ↔ s.activeTasks = 1) ∧
        (s.activeTasks = 1 → esp' = s.kernelEsp) ∧
        ∃ prev, s.currentTask = (prev.val : Int) ∧ SameSlots (retire s prev code) t) := by
  unfold schedulerExit
  cases on : s.schedulingEnabled
  · exact ⟨s, esp, by simp, inv, fun _ => rfl, by simp⟩
  · obtain ⟨prev, current, runs⟩ := inv.enabled on
    have tasks := inv.taskCount_pos (inv.active_pos on)
    obtain ⟨slots, one⟩ := inv.toSlotInv.retire runs code
    obtain ⟨_, count, _, currentR, onR, kernel, pending⟩ := retire_fields s prev code
    rw [if_neg (by simp only [Bool.not_true, Bool.false_eq_true, false_or]; omega), current, slotAt_fin,
      Option.bind_some]
    obtain ⟨t, esp', run, invT, same, still, back⟩ := interrupt_pending slots
      (Or.inr ⟨prev, currentR.trans current⟩) (onR.trans on) (by rw [count]; exact tasks) pending esp
    refine ⟨t, esp', run, invT, by simp, fun _ => ⟨?_, fun last => ?_, prev, rfl, same⟩⟩
    · rw [← Bool.not_eq_true, still]
      omega
    · exact (back (by omega) (by rw [currentR, current]; omega)).trans kernel

theorem add (inv : SchedInv s) {h h' : Heap} {s' : Sched} {entry : Nat} {ret : Int}
    (run : schedulerAdd h s entry = some (h', s', ret)) :
    SchedInv s' ∧ s'.schedulingEnabled = s.schedulingEnabled := by
  rcases schedulerAdd_cases run with ⟨rfl, _⟩ | ⟨slot, h₁, base, unused, _, positive, _, rfl, _⟩
  · exact ⟨inv, rfl⟩
  obtain ⟨tasks, _, _, current, on⟩ :=
    installTask_fields s slot base (taskContextInit h₁.mem entry (u32 (base + 4096))).2
  refine ⟨⟨inv.toSlotInv.install unused positive _, fun enabled => ?_, fun disabled => ?_⟩, on⟩
  · obtain ⟨i, atI, runs⟩ := inv.enabled (on ▸ enabled)
    have other : i ≠ slot := fun same => by simp [same, unused] at runs
    refine ⟨i, current.trans atI, ?_⟩
    rw [tasks, Function.update_of_ne other]
    exact runs
  · exact current.trans (inv.disabled (on ▸ disabled))

theorem reap (inv : SchedInv s) {i : Fin 4} (zombie : (s.tasks i).state = .zombie) : SchedInv (reap s i) := by
  refine ⟨inv.toSlotInv.reap zombie, fun enabled => ?_, inv.disabled⟩
  obtain ⟨j, atJ, runs⟩ := inv.enabled enabled
  have other : j ≠ i := fun same => by simp [same, zombie] at runs
  refine ⟨j, atJ, ?_⟩
  rw [LearningOS.reap, setTask_tasks, Function.update_of_ne other]
  exact runs

theorem wait (inv : SchedInv s) {h h' : Heap} {s' : Sched} {pid ret : Int} {code : Option Int} {frees : List FreeCall}
    (run : schedulerWait h s pid = some (h', s', ret, code, frees)) :
    SchedInv s' ∧ s'.schedulingEnabled = s.schedulingEnabled := by
  rcases schedulerWait_cases run with ⟨_, rfl, _⟩ | ⟨i, zombie, _, rfl, _⟩
  · exact ⟨inv, rfl⟩
  · exact ⟨inv.reap zombie, rfl⟩

/-- A step other than an exit keeps the invariant and the scheduling flag. -/
theorem step_other (inv : SchedInv s) {s' : Sched} {op : SchedOp} (allowed : op.Allowed s)
    (run : schedStep s op = some s') (noExit : ∀ code esp, op ≠ .exit code esp) :
    SchedInv s' ∧ (s.schedulingEnabled = true → s'.schedulingEnabled = true) := by
  have through {call : Option (Sched × Nat)}
      (spec : ∃ t esp, call = some (t, esp) ∧ SchedInv t ∧ SameSlots s t ∧ t.schedulingEnabled = s.schedulingEnabled)
      (run : call.map Prod.fst = some s') :
      SchedInv s' ∧ (s.schedulingEnabled = true → s'.schedulingEnabled = true) := by
    obtain ⟨t, esp, rfl, invT, _, same⟩ := spec
    cases Option.some.inj run
    exact ⟨invT, fun on => same.trans on⟩
  cases op with
  | add h entry =>
    obtain ⟨⟨h', t, ret⟩, call, rfl⟩ := Option.map_eq_some_iff.mp run
    exact ⟨(inv.add call).1, fun on => (inv.add call).2.trans on⟩
  | start esp =>
    obtain ⟨t, esp', call, invT, _⟩ := inv.start esp
    simp only [schedStep, call, Option.map_some, Option.some.injEq] at run
    refine ⟨run ▸ invT, fun on => ?_⟩
    obtain ⟨i, current, _⟩ := inv.enabled on
    have kernel : s.currentTask = -1 := allowed
    omega
  | timer esp => exact through (inv.interrupt esp) run
  | irq esp => exact through (inv.switch esp) run
  | yield esp => exact through (inv.yield esp) run
  | exit code esp => exact absurd rfl (noExit code esp)
  | wait h pid =>
    obtain ⟨⟨h', t, ret, code, frees⟩, call, rfl⟩ := Option.map_eq_some_iff.mp run
    exact ⟨(inv.wait call).1, fun on => (inv.wait call).2.trans on⟩

/-- One step keeps the invariant, and only the exit of the last runnable task
turns scheduling off. -/
theorem step (inv : SchedInv s) {s' : Sched} {op : SchedOp} (allowed : op.Allowed s)
    (run : schedStep s op = some s') :
    SchedInv s' ∧ (s.schedulingEnabled = true →
      (s'.schedulingEnabled = false ↔ s.activeTasks = 1 ∧ ∃ code esp, op = .exit code esp)) := by
  by_cases exits : ∃ code esp, op = .exit code esp
  · obtain ⟨code, esp, rfl⟩ := exits
    obtain ⟨t, esp', call, invT, _, last⟩ := inv.exit code esp
    simp only [schedStep, call, Option.map_some, Option.some.injEq] at run
    subst run
    refine ⟨invT, fun on => ?_⟩
    rw [(last on).1]
    simp
  · obtain ⟨invS, stays⟩ := inv.step_other allowed run fun code esp equal => exits ⟨code, esp, equal⟩
    refine ⟨invS, fun on => iff_of_false ?_ fun ⟨_, leaves⟩ => exits leaves⟩
    simp [stays on]

end SchedInv

theorem SchedReach.inv {s : Sched} (reach : SchedReach s) : SchedInv s := by
  induction reach with
  | init s => exact schedulerInit_inv s
  | step op _ allowed run ih => exact (ih.step allowed run).1

theorem HeapReach.kmalloc_failed {r : HeapRegion} {h h' : Heap} {ptrs : List Nat} {n : Nat}
    (reach : HeapReach r h ptrs) (failed : kmalloc h n = some (h', 0)) : h' = h := by
  by_cases zero : r.start = 0
  · obtain ⟨_, m, rfl⟩ := reach.null zero
    have headZero : (heapInit m r.start r.size).heapHead = 0 := zero
    rw [kmalloc, if_pos (Or.inr headZero)] at failed
    cases Option.some.inj failed
    rfl
  · obtain ⟨bs, inv, _⟩ := reach.inv zero
    rcases inv.kmalloc_spec n with ⟨same, _⟩ | ⟨m', a, bs', _, _, result, _⟩
    · rw [same] at failed
      cases Option.some.inj failed
      rfl
    · rw [result] at failed
      simp at failed

/-- The state the scheduler keeps over every run: the counters agree with the
slots and a task is current exactly while scheduling is on. Failing calls change
nothing, the exit of the running task never leaves the slot array, the selection
loop finds a task whenever one is counted, and the kernel context comes back
exactly when the last runnable task exits. -/
theorem scheduler_invariant {s : Sched} (reach : SchedReach s) :
    s.activeTasks = (runnableSlots s).card ∧ s.taskCount ≤ 4 ∧
      (∀ i : Fin 4, (s.tasks i).state ≠ .unused → i.val < s.taskCount) ∧
      (s.schedulingEnabled = true → ∃ i : Fin 4, s.currentTask = i.val ∧ i.val < s.taskCount ∧
        (s.tasks i).state = .runnable) ∧
      (s.schedulingEnabled = false → s.currentTask = -1) ∧
      (∀ h h' s' entry ret, schedulerAdd h s entry = some (h', s', ret) →
        (ret = -1 ∧ s' = s ∧ ∀ r ptrs, HeapReach r h ptrs → h' = h) ∨
          ∃ i, (s.tasks i).state = .unused ∧ (s'.tasks i).state = .runnable ∧ ret = (s'.tasks i).pid) ∧
      (∀ h h' s' pid ret code frees, schedulerWait h s pid = some (h', s', ret, code, frees) →
        (ret = -1 ∧ s' = s ∧ h' = h ∧ code = none ∧ frees = []) ∨ ret = 0) ∧
      (∀ code esp, ∃ s' esp', schedulerExit s code esp = some (s', esp') ∧
        (s.schedulingEnabled = true → s.activeTasks = 1 → s'.currentTask = -1 ∧ esp' = s.kernelEsp)) ∧
      (0 < s.activeTasks → ∃ j, selectLoop s s.taskCount s.currentTask = some (some j) ∧
        (s.tasks j).state = .runnable) ∧
      (∀ prev : Fin 4, ∀ code, s.schedulingEnabled = true → s.currentTask = prev.val →
        0 < (retire s prev code).activeTasks → ∃ j, selectLoop (retire s prev code) s.taskCount prev.val =
          some (some j) ∧ ((retire s prev code).tasks j).state = .runnable) ∧
      ∀ op s', SchedOp.Allowed s op → schedStep s op = some s' → s.schedulingEnabled = true →
        (s'.schedulingEnabled = false ↔ s.activeTasks = 1 ∧ ∃ code esp, op = .exit code esp) := by
  have inv := reach.inv
  refine ⟨inv.active, inv.count, inv.below, fun on => ?_, inv.disabled, ?_, ?_, ?_,
    inv.selectLoop_finds inv.positioned, ?_, fun op s' allowed run => (inv.step allowed run).2⟩
  · obtain ⟨i, current, runs⟩ := inv.enabled on
    exact ⟨i, current, inv.below i (by simp [runs]), runs⟩
  · intro h h' s' entry ret run
    rcases schedulerAdd_cases run with ⟨same, failed, heap⟩ | ⟨slot, h₁, base, unused, _, _, _, rfl, pid⟩
    · refine Or.inl ⟨failed, same, fun r ptrs heapReach => ?_⟩
      rcases heap with kept | call
      · exact kept
      · exact heapReach.kmalloc_failed call
    · obtain ⟨tasks, _⟩ := installTask_fields s slot base (taskContextInit h₁.mem entry (u32 (base + 4096))).2
      exact Or.inr ⟨slot, unused, by rw [tasks, Function.update_self], by rw [tasks, Function.update_self, pid]⟩
  · intro h h' s' pid ret code frees run
    rcases schedulerWait_cases run with ⟨heap, same, failed, none⟩ | ⟨i, _, _, _, zero, _⟩
    · exact Or.inl ⟨failed, same, heap, none⟩
    · exact Or.inr zero
  · intro code esp
    obtain ⟨t, esp', run, invT, _, last⟩ := inv.exit code esp
    refine ⟨t, esp', run, fun on one => ?_⟩
    obtain ⟨off, kernel, _⟩ := last on
    exact ⟨invT.disabled (off.mpr one), kernel one⟩
  · intro prev code on current some_task
    obtain ⟨slots, _⟩ := inv.toSlotInv.retire (inv.current_runs current) code
    obtain ⟨_, count, _, currentR, _⟩ := retire_fields s prev code
    have found := slots.selectLoop_finds (Or.inr ⟨prev, currentR.trans current⟩) some_task
    rwa [count, currentR, current] at found

/-- The scheduler before `scheduler_init`: zeroed globals. -/
def schedReset : Sched := ⟨fun _ => ⟨0, 0, 0, 0, .unused⟩, 0, -1, 0, false, false, 0, 1, 0⟩

theorem scheduler_invariant_first_task :
    ∃ s, SchedReach s ∧ s.activeTasks = 1 ∧ (runnableSlots s).card = 1 := by
  have inv := HeapInv.heapInit (r := kernelHeap) (fun _ => 0) (by decide)
  have slot : freeSlot (schedulerInit schedReset) = some 0 := by decide
  rcases inv.kmalloc_spec 4096 with ⟨_, zero | none⟩ | ⟨m', a, bs', _, _, result, _⟩
  · exact absurd zero (by decide)
  · exact absurd none (by decide)
  · have reach := SchedReach.step (.add (heapInit (fun _ => 0) kernelHeap.start kernelHeap.size) 0x101000)
      (.init schedReset) trivial (by rw [schedStep, schedulerAdd, if_neg (by decide), slot, result]; rfl)
    have counted := (scheduler_invariant reach).1
    exact ⟨_, reach, rfl, counted.symm⟩

end LearningOS
