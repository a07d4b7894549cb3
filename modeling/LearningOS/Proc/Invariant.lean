import LearningOS.Proc.Scheduler
import LearningOS.Heap.Reach

namespace LearningOS
open ByteStore

def runnableSlots (s : Sched) : Finset (Fin 4) := Finset.univ.filter fun i => (s.tasks i).state = .runnable

@[simp] theorem mem_runnableSlots {s : Sched} {i : Fin 4} :
    i ∈ runnableSlots s ↔ (s.tasks i).state = .runnable := by
  simp [runnableSlots]

/-- The counters agree with the slots, and a slot without a task has no stack. -/
structure SlotInv (s : Sched) : Prop where
  active : s.activeTasks = (runnableSlots s).card
  count : s.taskCount ≤ 4
  below : ∀ i : Fin 4, (s.tasks i).state ≠ .unused → i.val < s.taskCount
  bases : ∀ i : Fin 4, (s.tasks i).state = .unused ↔ (s.tasks i).stackBase = 0

/-- While scheduling is on the current task is a runnable slot, otherwise the
kernel context is current. -/
structure SchedInv (s : Sched) : Prop extends SlotInv s where
  enabled : s.schedulingEnabled = true → ∃ i : Fin 4, s.currentTask = i.val ∧ (s.tasks i).state = .runnable
  disabled : s.schedulingEnabled = false → s.currentTask = -1

/-- Two states whose slots and counters agree, saved stack pointers apart. -/
structure SameSlots (s t : Sched) : Prop where
  state : ∀ i, (t.tasks i).state = (s.tasks i).state
  base : ∀ i, (t.tasks i).stackBase = (s.tasks i).stackBase
  count : t.taskCount = s.taskCount
  active : t.activeTasks = s.activeTasks

namespace SameSlots
variable {s t u : Sched}

theorem refl (s : Sched) : SameSlots s s := ⟨fun _ => rfl, fun _ => rfl, rfl, rfl⟩

theorem trans (first : SameSlots s t) (second : SameSlots t u) : SameSlots s u :=
  ⟨fun i => (second.state i).trans (first.state i), fun i => (second.base i).trans (first.base i),
    second.count.trans first.count, second.active.trans first.active⟩

theorem runnableSlots_eq (same : SameSlots s t) : runnableSlots t = runnableSlots s := by
  ext i
  simp [same.state i]

theorem slotInv (same : SameSlots s t) (inv : SlotInv s) : SlotInv t := by
  refine ⟨?_, by rw [same.count]; exact inv.count, fun i used => ?_, fun i => ?_⟩
  · rw [same.active, same.runnableSlots_eq, inv.active]
  · rw [same.count]
    exact inv.below i (by rwa [same.state i] at used)
  · rw [same.state i, same.base i]
    exact inv.bases i

end SameSlots

theorem slotAt_natCast {n : Nat} (small : n < 4) : slotAt n = some ⟨n, small⟩ := by
  unfold slotAt
  rw [dif_pos (by omega)]
  rfl

theorem slotAt_fin (i : Fin 4) : slotAt (i.val : Int) = some i := slotAt_natCast i.isLt

@[simp] theorem setTask_tasks (s : Sched) (i : Fin 4) (t : Task) :
    (s.setTask i t).tasks = Function.update s.tasks i t := rfl

/-- Where the modulo scan can start from: the kernel context or a slot. -/
def Positioned (s : Sched) : Prop := s.currentTask = -1 ∨ ∃ i : Fin 4, s.currentTask = i.val

theorem SchedInv.positioned {s : Sched} (inv : SchedInv s) : Positioned s := by
  cases on : s.schedulingEnabled
  · exact Or.inl (inv.disabled on)
  · obtain ⟨i, current, _⟩ := inv.enabled on
    exact Or.inr ⟨i, current⟩

/-- From the position before `a` the scan visits `a`, `a + 1`, ... modulo the
task count: it stops at the first runnable slot or has seen none. -/
theorem selectLoop_spec {s : Sched} (some_task : 0 < s.taskCount) (count : s.taskCount ≤ 4) (rounds a : Nat) :
    (∃ (j : Fin 4) (k : Nat), selectLoop s rounds ((a : Int) - 1) = some (some j) ∧ (s.tasks j).state = .runnable ∧
      k < rounds ∧ j.val = (a + k) % s.taskCount ∧
      ∀ l < k, ∀ i : Fin 4, i.val = (a + l) % s.taskCount → (s.tasks i).state ≠ .runnable) ∨
      (selectLoop s rounds ((a : Int) - 1) = some none ∧
        ∀ l < rounds, ∀ i : Fin 4, i.val = (a + l) % s.taskCount → (s.tasks i).state ≠ .runnable) := by
  induction rounds generalizing a with
  | zero => exact Or.inr ⟨rfl, by simp⟩
  | succ rounds ih =>
    have small : a % s.taskCount < 4 := (Nat.mod_lt a some_task).trans_le count
    have index : ((a : Int) - 1 + 1).tmod s.taskCount = ((a % s.taskCount : Nat) : Int) := by
      rw [Int.sub_add_cancel, Int.ofNat_tmod]
    unfold selectLoop
    simp only [index, slotAt_natCast small, Option.bind_some]
    by_cases hit : (s.tasks ⟨a % s.taskCount, small⟩).state = .runnable
    · exact Or.inl ⟨_, 0, if_pos hit, hit, Nat.succ_pos _, rfl, by simp⟩
    · rw [if_neg hit]
      have next := ih (a % s.taskCount + 1)
      rw [Nat.cast_add, Nat.cast_one, Int.add_sub_cancel] at next
      have later (l : Nat) : (a % s.taskCount + 1 + l) % s.taskCount = (a + (l + 1)) % s.taskCount := by
        rw [Nat.add_assoc, Nat.mod_add_mod, Nat.add_comm 1 l]
      have missed {n : Nat} (rest : ∀ l < n, ∀ i : Fin 4, i.val = (a % s.taskCount + 1 + l) % s.taskCount →
          (s.tasks i).state ≠ .runnable) (l : Nat) (inside : l < n + 1) (i : Fin 4)
          (equal : i.val = (a + l) % s.taskCount) : (s.tasks i).state ≠ .runnable := by
        rcases l with _ | l
        · have same : i = ⟨a % s.taskCount, small⟩ := Fin.ext equal
          rwa [same]
        · exact rest l (by omega) i (equal.trans (later l).symm)
      rcases next with ⟨j, k, found, runs, inside, place, rest⟩ | ⟨nothing, rest⟩
      · exact Or.inl ⟨j, k + 1, found, runs, by omega, place.trans (later k), missed rest⟩
      · exact Or.inr ⟨nothing, missed rest⟩

/-- Every index below `n` is some `(a + k) % n` with `k < n`. -/
theorem exists_add_mod_eq {a j n : Nat} (below : j < n) : ∃ k, k < n ∧ j = (a + k) % n := by
  have rest : a % n < n := Nat.mod_lt a (by omega)
  refine ⟨(j + (n - a % n)) % n, Nat.mod_lt _ (by omega), ?_⟩
  have whole : a + (j + (n - a % n)) = j + (a / n + 1) * n := by
    have split := Nat.div_add_mod' a n
    rw [Nat.add_mul, Nat.one_mul]
    omega
  rw [Nat.add_mod_mod, whole, Nat.add_mul_mod_self_right, Nat.mod_eq_of_lt below]

/-- The selection loop finds a task as long as one is counted. -/
theorem SlotInv.selectLoop_finds {s : Sched} (inv : SlotInv s) (position : Positioned s)
    (some_task : 0 < s.activeTasks) :
    ∃ j : Fin 4, selectLoop s s.taskCount s.currentTask = some (some j) ∧ (s.tasks j).state = .runnable := by
  rw [inv.active, Finset.card_pos] at some_task
  obtain ⟨i, member⟩ := some_task
  rw [mem_runnableSlots] at member
  have below : i.val < s.taskCount := inv.below i (by simp [member])
  obtain ⟨a, start⟩ : ∃ a : Nat, s.currentTask = (a : Int) - 1 := by
    rcases position with kernel | ⟨j, current⟩
    · exact ⟨0, by rw [kernel]; rfl⟩
    · exact ⟨j.val + 1, by rw [current]; omega⟩
  rw [start]
  rcases selectLoop_spec (by omega) inv.count s.taskCount a with ⟨j, _, found, runs, _⟩ | ⟨_, nothing⟩
  · exact ⟨j, found, runs⟩
  · obtain ⟨k, inside, equal⟩ := exists_add_mod_eq (a := a) below
    exact absurd member (nothing k inside i equal)

/-- The save stores one stack pointer and touches nothing else. -/
theorem saveContext_spec {s : Sched} (position : Positioned s) (esp : Nat) :
    ∃ t, saveContext s esp = some t ∧ SameSlots s t ∧ t.currentTask = s.currentTask ∧
      t.schedulingEnabled = s.schedulingEnabled ∧ t.needResched = s.needResched ∧
      (s.currentTask ≠ -1 → t.kernelEsp = s.kernelEsp) := by
  unfold saveContext
  rcases position with kernel | ⟨i, current⟩
  · refine ⟨_, if_neg (by omega), ⟨fun _ => rfl, fun _ => rfl, rfl, rfl⟩, rfl, rfl, rfl, ?_⟩
    exact fun task => absurd kernel task
  · rw [if_pos (by omega), current, slotAt_fin, Option.map_some]
    refine ⟨_, rfl, ⟨fun j => ?_, fun j => ?_, rfl, rfl⟩, current, rfl, rfl, fun _ => rfl⟩
    · rw [setTask_tasks, Function.update_apply]
      split
      · rename_i same
        rw [same]
      · rfl
    · rw [setTask_tasks, Function.update_apply]
      split
      · rename_i same
        rw [same]
      · rfl

/-- Without a pending reschedule the switch only saves. -/
theorem switch_quiet {s : Sched} (inv : SchedInv s) (quiet : s.needResched = false) (esp : Nat) :
    ∃ t, schedulerSwitchFromIsr s esp = some (t, esp) ∧ SchedInv t ∧ SameSlots s t ∧
      t.schedulingEnabled = s.schedulingEnabled := by
  unfold schedulerSwitchFromIsr
  split
  · exact ⟨s, rfl, inv, .refl s, rfl⟩
  · obtain ⟨t, save, same, current, on, resched, _⟩ := saveContext_spec inv.positioned esp
    rw [save, Option.bind_some, resched, quiet]
    refine ⟨t, rfl, ⟨same.slotInv inv.toSlotInv, fun enabled => ?_, fun disabled => ?_⟩, same, on⟩
    · rw [on] at enabled
      obtain ⟨i, atI, runs⟩ := inv.enabled enabled
      exact ⟨i, current.trans atI, (same.state i).trans runs⟩
    · rw [on] at disabled
      exact current.trans (inv.disabled disabled)

/-- With a reschedule pending the switch selects a runnable task, or returns to
the kernel context if there is none. -/
theorem switch_pending {s : Sched} (inv : SlotInv s) (position : Positioned s) (on : s.schedulingEnabled = true)
    (tasks : 0 < s.taskCount) (pending : s.needResched = true) (esp : Nat) :
    ∃ t esp', schedulerSwitchFromIsr s esp = some (t, esp') ∧ SchedInv t ∧ SameSlots s t ∧
      (t.schedulingEnabled = true ↔ 0 < s.activeTasks) ∧
      (s.activeTasks = 0 → s.currentTask ≠ -1 → esp' = s.kernelEsp) := by
  obtain ⟨t, save, same, current, onT, resched, kernel⟩ := saveContext_spec position esp
  have notOff : ¬((!s.schedulingEnabled) = true ∨ s.taskCount = 0) := by
    rw [on]
    simp only [Bool.not_true, Bool.false_eq_true, false_or]
    omega
  rw [schedulerSwitchFromIsr, if_neg notOff, save, Option.bind_some, resched, pending]
  simp only [Bool.not_true, Bool.false_eq_true, if_false]
  have invT := same.slotInv inv
  by_cases none : t.activeTasks = 0
  · rw [if_pos none]
    refine ⟨_, _, rfl, ⟨⟨invT.active, invT.count, invT.below, invT.bases⟩, by simp, fun _ => rfl⟩,
      ⟨same.state, same.base, same.count, same.active⟩, ?_, fun _ => kernel⟩
    rw [← same.active, none]
    simp
  · rw [if_neg none]
    have cleared : SlotInv { t with needResched := false } := ⟨invT.active, invT.count, invT.below, invT.bases⟩
    have positionT : Positioned { t with needResched := false } := by
      unfold Positioned
      rw [current]
      exact position
    obtain ⟨j, found, runs⟩ := cleared.selectLoop_finds positionT (Nat.pos_of_ne_zero none)
    rw [found, Option.map_some]
    refine ⟨_, _, rfl, ⟨⟨invT.active, invT.count, invT.below, invT.bases⟩, fun _ => ⟨j, rfl, runs⟩, ?_⟩,
      ⟨same.state, same.base, same.count, same.active⟩, ?_, ?_⟩
    · intro off
      rw [onT, on] at off
      simp at off
    · rw [← same.active]
      exact iff_of_true (onT.trans on) (Nat.pos_of_ne_zero none)
    · rw [← same.active]
      exact fun zero => absurd zero none

/-- The timer handler changes its counter and the reschedule flag only. -/
theorem schedulerTick_eq (s : Sched) : ∃ ticks resched, schedulerTick s = { s with ticks, needResched := resched } ∧
    (s.needResched = true → resched = true) := by
  unfold schedulerTick
  split
  · exact ⟨s.ticks, s.needResched, rfl, id⟩
  · dsimp only
    split
    · exact ⟨_, true, rfl, fun _ => rfl⟩
    · exact ⟨_, s.needResched, rfl, id⟩

theorem schedulerTick_same (s : Sched) :
    SameSlots s (schedulerTick s) ∧ (schedulerTick s).currentTask = s.currentTask ∧
      (schedulerTick s).schedulingEnabled = s.schedulingEnabled ∧ (schedulerTick s).kernelEsp = s.kernelEsp ∧
      (s.needResched = true → (schedulerTick s).needResched = true) := by
  obtain ⟨ticks, resched, tick, flag⟩ := schedulerTick_eq s
  rw [tick]
  exact ⟨⟨fun _ => rfl, fun _ => rfl, rfl, rfl⟩, rfl, rfl, rfl, flag⟩

theorem runnableSlots_setTask (s : Sched) (i : Fin 4) (t : Task) :
    runnableSlots (s.setTask i t) =
      if t.state = .runnable then insert i (runnableSlots s) else (runnableSlots s).erase i := by
  split
  · rename_i runs
    ext j
    rw [mem_runnableSlots, setTask_tasks, Function.update_apply, Finset.mem_insert, mem_runnableSlots]
    by_cases same : j = i
    · simp [same, runs]
    · simp [same]
  · rename_i stops
    ext j
    rw [mem_runnableSlots, setTask_tasks, Function.update_apply, Finset.mem_erase, mem_runnableSlots]
    by_cases same : j = i
    · simp [same, stops]
    · simp [same]

theorem schedulerInit_inv (s : Sched) : SchedInv (schedulerInit s) :=
  ⟨⟨by simp [schedulerInit, runnableSlots], Nat.zero_le 4, by simp [schedulerInit], by simp [schedulerInit]⟩,
    by simp [schedulerInit], fun _ => rfl⟩

theorem freeSlot_unused {s : Sched} {slot : Fin 4} (found : freeSlot s = some slot) :
    (s.tasks slot).state = .unused := by
  have test := List.find?_some found
  simpa using test

theorem SlotInv.taskCount_pos {s : Sched} (inv : SlotInv s) (some_task : 0 < s.activeTasks) : 0 < s.taskCount := by
  rw [inv.active, Finset.card_pos] at some_task
  obtain ⟨i, member⟩ := some_task
  have below := inv.below i (by simp [mem_runnableSlots.mp member])
  omega

namespace SchedInv
variable {s : Sched}

theorem current_runs (inv : SchedInv s) {i : Fin 4} (current : s.currentTask = i.val) :
    (s.tasks i).state = .runnable := by
  have on : s.schedulingEnabled = true := by
    by_contra off
    have kernel := inv.disabled (Bool.eq_false_of_not_eq_true off)
    omega
  obtain ⟨j, atJ, runs⟩ := inv.enabled on
  have same : j = i := Fin.ext (by omega)
  exact same ▸ runs

theorem active_pos (inv : SchedInv s) (on : s.schedulingEnabled = true) : 0 < s.activeTasks := by
  obtain ⟨i, _, runs⟩ := inv.enabled on
  rw [inv.active, Finset.card_pos]
  exact ⟨i, mem_runnableSlots.mpr runs⟩

theorem switch (inv : SchedInv s) (esp : Nat) :
    ∃ t esp', schedulerSwitchFromIsr s esp = some (t, esp') ∧ SchedInv t ∧ SameSlots s t ∧
      t.schedulingEnabled = s.schedulingEnabled := by
  cases pending : s.needResched
  · obtain ⟨t, run, rest⟩ := switch_quiet inv pending esp
    exact ⟨t, esp, run, rest⟩
  cases on : s.schedulingEnabled
  · refine ⟨s, esp, ?_, inv, .refl s, on⟩
    simp [schedulerSwitchFromIsr, on]
  · obtain ⟨t, esp', run, invT, same, still, _⟩ :=
      switch_pending inv.toSlotInv inv.positioned on (inv.taskCount_pos (inv.active_pos on)) pending esp
    exact ⟨t, esp', run, invT, same, still.mpr (inv.active_pos on)⟩

theorem tick (inv : SchedInv s) : SchedInv (schedulerTick s) := by
  obtain ⟨same, current, on, _⟩ := schedulerTick_same s
  refine ⟨same.slotInv inv.toSlotInv, fun enabled => ?_, fun disabled => ?_⟩
  · obtain ⟨i, atI, runs⟩ := inv.enabled (on ▸ enabled)
    exact ⟨i, current.trans atI, (same.state i).trans runs⟩
  · exact current.trans (inv.disabled (on ▸ disabled))

theorem interrupt (inv : SchedInv s) (esp : Nat) :
    ∃ t esp', timerInterrupt s esp = some (t, esp') ∧ SchedInv t ∧ SameSlots s t ∧
      t.schedulingEnabled = s.schedulingEnabled := by
  obtain ⟨same, _, on, _⟩ := schedulerTick_same s
  obtain ⟨t, esp', run, invT, sameT, onT⟩ := inv.tick.switch esp
  exact ⟨t, esp', run, invT, same.trans sameT, onT.trans on⟩

theorem yield (inv : SchedInv s) (esp : Nat) :
    ∃ t esp', taskYield s esp = some (t, esp') ∧ SchedInv t ∧ SameSlots s t ∧
      t.schedulingEnabled = s.schedulingEnabled := by
  unfold taskYield
  split
  · exact ⟨s, esp, rfl, inv, .refl s, rfl⟩
  · have flagged : SchedInv { s with needResched := true } :=
      ⟨⟨inv.active, inv.count, inv.below, inv.bases⟩, inv.enabled, inv.disabled⟩
    obtain ⟨t, esp', run, invT, same, on⟩ := flagged.interrupt esp
    exact ⟨t, esp', run, invT, ⟨same.state, same.base, same.count, same.active⟩, on⟩

end SchedInv

/-- An interrupt raised with the reschedule flag set. -/
theorem interrupt_pending {s : Sched} (inv : SlotInv s) (position : Positioned s) (on : s.schedulingEnabled = true)
    (tasks : 0 < s.taskCount) (pending : s.needResched = true) (esp : Nat) :
    ∃ t esp', timerInterrupt s esp = some (t, esp') ∧ SchedInv t ∧ SameSlots s t ∧
      (t.schedulingEnabled = true ↔ 0 < s.activeTasks) ∧
      (s.activeTasks = 0 → s.currentTask ≠ -1 → esp' = s.kernelEsp) := by
  obtain ⟨same, current, onT, kernel, flag⟩ := schedulerTick_same s
  have positionT : Positioned (schedulerTick s) := by
    unfold Positioned
    rw [current]
    exact position
  obtain ⟨t, esp', run, invT, sameT, still, back⟩ := switch_pending (same.slotInv inv) positionT (onT.trans on)
    (by rw [same.count]; exact tasks) (flag pending) esp
  rw [same.active] at still back
  rw [current, kernel] at back
  exact ⟨t, esp', run, invT, same.trans sameT, still, back⟩

namespace SchedInv
variable {s : Sched}

theorem start (inv : SchedInv s) (esp : Nat) :
    ∃ t esp', schedulerStart s esp = some (t, esp') ∧ SchedInv t ∧ SameSlots s t := by
  unfold schedulerStart
  split
  · exact ⟨s, esp, rfl, inv, .refl s⟩
  · rename_i some_task
    have slots : SlotInv { s with schedulingEnabled := true, currentTask := -1, needResched := true } :=
      ⟨inv.active, inv.count, inv.below, inv.bases⟩
    obtain ⟨t, esp', run, invT, same, _⟩ := interrupt_pending slots (Or.inl rfl) rfl
      (slots.taskCount_pos (Nat.pos_of_ne_zero some_task)) rfl esp
    exact ⟨t, esp', run, invT, ⟨same.state, same.base, same.count, same.active⟩⟩

end SchedInv

/-- Changing one slot keeps the invariant if the counters follow. -/
theorem SlotInv.setTask {s t : Sched} (inv : SlotInv s) {i : Fin 4} {u : Task}
    (tasks : t.tasks = Function.update s.tasks i u) (active : t.activeTasks = (runnableSlots (s.setTask i u)).card)
    (count : t.taskCount ≤ 4) (more : s.taskCount ≤ t.taskCount) (below : u.state ≠ .unused → i.val < t.taskCount)
    (base : u.state = .unused ↔ u.stackBase = 0) : SlotInv t := by
  refine ⟨?_, count, fun j used => ?_, fun j => ?_⟩
  · rw [active]
    congr 1
    ext j
    simp [tasks]
  · rw [tasks, Function.update_apply] at used
    split at used
    · rename_i same
      rw [same]
      exact below used
    · exact (inv.below j used).trans_le more
  · rw [tasks, Function.update_apply]
    split
    · exact base
    · exact inv.bases j

theorem retire_eq (s : Sched) (prev : Fin 4) (code : Int) :
    retire s prev code = { s with
      tasks := Function.update s.tasks prev { s.tasks prev with state := .zombie, exitCode := code }
      activeTasks := s.activeTasks - 1
      needResched := true } := by
  unfold retire
  dsimp only
  split
  · rfl
  · rename_i none
    have zero : s.activeTasks - 1 = s.activeTasks := by
      have positive : ¬0 < s.activeTasks := none
      omega
    rw [zero]
    rfl

theorem retire_fields (s : Sched) (prev : Fin 4) (code : Int) :
    (retire s prev code).tasks = Function.update s.tasks prev
      { s.tasks prev with state := .zombie, exitCode := code } ∧
      (retire s prev code).taskCount = s.taskCount ∧ (retire s prev code).activeTasks = s.activeTasks - 1 ∧
      (retire s prev code).currentTask = s.currentTask ∧
      (retire s prev code).schedulingEnabled = s.schedulingEnabled ∧
      (retire s prev code).kernelEsp = s.kernelEsp ∧ (retire s prev code).needResched = true := by
  rw [retire_eq]
  exact ⟨rfl, rfl, rfl, rfl, rfl, rfl, rfl⟩

/-- Retiring a runnable task leaves one runnable task less. -/
theorem SlotInv.retire {s : Sched} (inv : SlotInv s) {prev : Fin 4} (runs : (s.tasks prev).state = .runnable)
    (code : Int) : SlotInv (retire s prev code) ∧ (retire s prev code).activeTasks + 1 = s.activeTasks := by
  have member : prev ∈ runnableSlots s := mem_runnableSlots.mpr runs
  have card := Finset.card_erase_add_one member
  rw [← inv.active] at card
  have base : (s.tasks prev).stackBase ≠ 0 := fun zero => by simp [(inv.bases prev).mpr zero] at runs
  obtain ⟨tasks, count, active, _⟩ := retire_fields s prev code
  refine ⟨inv.setTask tasks ?_ (count ▸ inv.count) count.ge ?_ (by simp [base]), by omega⟩
  · rw [runnableSlots_setTask, if_neg (by simp)]
    omega
  · rw [count]
    exact fun _ => inv.below prev (by simp [runs])

theorem installTask_eq (s : Sched) (slot : Fin 4) (stackBase irqEsp : Nat) :
    installTask s slot stackBase irqEsp = { s with
      tasks := Function.update s.tasks slot ⟨irqEsp, stackBase, s.nextPid, 0, .runnable⟩
      taskCount := max s.taskCount (slot.val + 1)
      activeTasks := s.activeTasks + 1
      nextPid := succ32 s.nextPid } := by
  unfold installTask
  dsimp only
  split
  · rename_i past
    have most : max s.taskCount (slot.val + 1) = slot.val + 1 := max_eq_right (Nat.le_succ_of_le past)
    rw [most]
    rfl
  · rename_i inside
    have most : max s.taskCount (slot.val + 1) = s.taskCount := max_eq_left (Nat.lt_of_not_le inside)
    rw [most]
    rfl

theorem installTask_fields (s : Sched) (slot : Fin 4) (stackBase irqEsp : Nat) :
    (installTask s slot stackBase irqEsp).tasks =
      Function.update s.tasks slot ⟨irqEsp, stackBase, s.nextPid, 0, .runnable⟩ ∧
      (installTask s slot stackBase irqEsp).activeTasks = s.activeTasks + 1 ∧
      (installTask s slot stackBase irqEsp).taskCount = max s.taskCount (slot.val + 1) ∧
      (installTask s slot stackBase irqEsp).currentTask = s.currentTask ∧
      (installTask s slot stackBase irqEsp).schedulingEnabled = s.schedulingEnabled := by
  rw [installTask_eq]
  exact ⟨rfl, rfl, rfl, rfl, rfl⟩

theorem SlotInv.install {s : Sched} (inv : SlotInv s) {slot : Fin 4} (unused : (s.tasks slot).state = .unused)
    {stackBase : Nat} (positive : stackBase ≠ 0) (irqEsp : Nat) : SlotInv (installTask s slot stackBase irqEsp) := by
  have fresh : slot ∉ runnableSlots s := by simp [unused]
  have bound := slot.isLt
  have count := inv.count
  obtain ⟨tasks, active, taskCount, _⟩ := installTask_fields s slot stackBase irqEsp
  refine inv.setTask tasks ?_ (by omega) (by omega) (fun _ => by omega) (by simp [positive])
  rw [active, runnableSlots_setTask, if_pos rfl, Finset.card_insert_of_notMem fresh, inv.active]

theorem SlotInv.reap {s : Sched} (inv : SlotInv s) {i : Fin 4} (zombie : (s.tasks i).state = .zombie) :
    SlotInv (reap s i) := by
  refine inv.setTask (u := { s.tasks i with stackBase := 0, state := .unused }) rfl ?_ inv.count le_rfl
    (by simp) (by simp)
  rw [runnableSlots_setTask, if_neg (by simp), Finset.erase_eq_of_notMem (by simp [zombie])]
  exact inv.active

theorem zombieSlot_zombie {s : Sched} {pid : Int} {i : Fin 4} (found : zombieSlot s pid = some i) :
    (s.tasks i).state = .zombie ∧ (s.tasks i).pid = pid ∧ i.val < s.taskCount := by
  have test := List.find?_some found
  simp only [Bool.decide_and, Bool.and_eq_true, decide_eq_true_eq] at test
  exact ⟨test.2.2, test.2.1, test.1⟩

end LearningOS
