import LearningOS.Proc.Switch

namespace LearningOS
open History

/-- The task that the scan of `scheduler_switch_from_isr` selects in a step. -/
def selected (e : Sched × SchedOp) : Option (Fin 4) :=
  (switchCall e.1 e.2).bind fun (b, esp) =>
    if b.schedulingEnabled = true ∧ b.taskCount ≠ 0 ∧ b.needResched = true then
      (schedulerSwitchFromIsr b esp).bind fun (t, _) => slotAt t.currentTask
    else none

/-- The slots from `i` on, around the table, that come before `j`. -/
def Arc (i j c : Fin 4) : Prop := (i < j ∧ i ≤ c ∧ c < j) ∨ (j < i ∧ (i ≤ c ∨ c < j))

theorem Arc.ne {i j c : Fin 4} (arc : Arc i j c) : c ≠ j := by
  rcases arc with ⟨_, _, less⟩ | ⟨less, later | less'⟩
  · exact ne_of_lt less
  · exact ne_of_gt (less.trans_le later)
  · exact ne_of_lt less'

/-- A slot further on that is not past `j` is between the two as well, and it is not `i`. -/
theorem Arc.advance {i j c next : Fin 4} (arc : Arc i j c) (ahead : c < j → c < next ∧ next < j)
    (behind : j < c → c < next ∨ next < j) : Arc i j next ∧ next ≠ i := by
  rcases arc with ⟨order, from_i, less⟩ | ⟨order, later | less⟩
  · obtain ⟨more, upto⟩ := ahead less
    exact ⟨Or.inl ⟨order, (from_i.trans_lt more).le, upto⟩, ne_of_gt (from_i.trans_lt more)⟩
  · rcases behind (order.trans_le later) with more | upto
    · exact ⟨Or.inr ⟨order, Or.inl (later.trans_lt more).le⟩, ne_of_gt (later.trans_lt more)⟩
    · exact ⟨Or.inr ⟨order, Or.inr upto⟩, ne_of_lt (upto.trans order)⟩
  · obtain ⟨_, upto⟩ := ahead less
    exact ⟨Or.inr ⟨order, Or.inr upto⟩, ne_of_lt (upto.trans order)⟩

/-- A scan that starts after `c` and passes over no runnable slot cannot get past `j`
without selecting it. -/
theorem selectLoop_arc {b : Sched} (slots : SlotInv b) {c j next : Fin 4} (current : b.currentTask = c.val)
    (below : c.val < b.taskCount) (runs : (b.tasks j).state = .runnable)
    (found : selectLoop b b.taskCount b.currentTask = some (some next)) (other : next ≠ j) :
    (c < j → c < next ∧ next < j) ∧ (j < c → c < next ∨ next < j) := by
  have inside : j.val < b.taskCount := slots.below j (by simp [runs])
  have apart : next.val ≠ j.val := fun same => other (Fin.ext same)
  have start : b.currentTask = ((c.val + 1 : Nat) : Int) - 1 := by
    rw [current]
    omega
  rw [start] at found
  rcases selectLoop_spec (by omega) slots.count b.taskCount (c.val + 1) with
    ⟨first, k, scan, _, rounds, place, missed⟩ | ⟨nothing, _⟩
  · obtain rfl : first = next := by
      rw [scan] at found
      exact Option.some.inj (Option.some.inj found)
    -- the scan would have met `j` in the round that leads there
    have early {l : Nat} (here : j.val = (c.val + 1 + l) % b.taskCount) : k < l ∨ k = l := by
      by_contra late
      exact missed l (by omega) j here runs
    constructor
    · intro before
      have room : c.val + 1 + (j.val - (c.val + 1)) = j.val := by
        have less : c.val < j.val := before
        omega
      have meets := early (l := j.val - (c.val + 1)) (by rw [room, Nat.mod_eq_of_lt inside])
      have whole : (c.val + 1 + k) % b.taskCount = c.val + 1 + k := Nat.mod_eq_of_lt (by omega)
      rw [whole] at place
      exact ⟨Fin.lt_def.mpr (by omega), Fin.lt_def.mpr (by omega)⟩
    · intro after
      have room : c.val + 1 + (b.taskCount - (c.val + 1) + j.val) = j.val + b.taskCount := by omega
      have meets := early (l := b.taskCount - (c.val + 1) + j.val)
        (by rw [room, Nat.add_mod_right, Nat.mod_eq_of_lt inside])
      by_cases wraps : c.val + 1 + k < b.taskCount
      · rw [Nat.mod_eq_of_lt wraps] at place
        exact Or.inl (Fin.lt_def.mpr (by omega))
      · have turn : (c.val + 1 + k) % b.taskCount = c.val + 1 + k - b.taskCount := by
          rw [Nat.mod_eq_sub_mod (by omega), Nat.mod_eq_of_lt (by omega)]
        rw [turn] at place
        exact Or.inr (Fin.lt_def.mpr (by omega))
  · rw [nothing] at found
    simp at found

theorem selected_noCall {s : Sched} {op : SchedOp} (none : switchCall s op = none) : selected (s, op) = Option.none := by
  simp only [selected, none, Option.bind_none]

theorem selected_call {s b t : Sched} {op : SchedOp} {esp esp' : Nat} (call : switchCall s op = some (b, esp))
    (switch : schedulerSwitchFromIsr b esp = some (t, esp')) : selected (s, op) =
      if b.schedulingEnabled = true ∧ b.taskCount ≠ 0 ∧ b.needResched = true then slotAt t.currentTask else none := by
  simp only [selected, call, switch, Option.bind_some]

/-- A step that selects a task makes it the current one. -/
theorem SchedInv.selects {s t : Sched} {op : SchedOp} {i : Fin 4} (inv : SchedInv s) (step : SchedSteps s op t)
    (selects : selected (s, op) = some i) : t.currentTask = i.val ∧ t.schedulingEnabled = true := by
  cases inv.effect step with
  | switch b esp esp' call switch prepared switched frame =>
    rw [selected_call call switch] at selects
    split at selects
    · rename_i pending
      cases switched with
      | off idle => simp [pending] at idle
      | quiet _ quiet => simp [pending] at quiet
      | kernel saved _ _ => simp [slotAt] at selects
      | task next saved _ _ =>
        rw [slotAt_fin] at selects
        cases Option.some.inj selects
        exact ⟨rfl, saved.frame_on⟩
    · simp at selects
  | none noCall _ _ _ => simp [selected_noCall noCall] at selects
  | add _ _ _ noCall _ _ _ _ => simp [selected_noCall noCall] at selects
  | reap h pid k wait _ _ =>
    subst wait
    have noCall : switchCall s (.wait h pid) = none := rfl
    simp [selected_noCall noCall] at selects

/-- Scheduling is on and the current task lies between `i` and `j` in the scan order. -/
structure InArc (i j : Fin 4) (s : Sched) : Prop where
  inv : SchedInv s
  on : s.schedulingEnabled = true
  arc : ∃ c : Fin 4, s.currentTask = c.val ∧ Arc i j c

/-- While `j` is runnable and not selected, the current task stays between `i` and
`j`, and `i` is not selected either. -/
theorem InArc.step {i j : Fin 4} {s t : Sched} {op : SchedOp} (between : InArc i j s)
    (runs : (s.tasks j).state = .runnable) (step : SchedSteps s op t) (notJ : selected (s, op) ≠ some j) :
    InArc i j t ∧ selected (s, op) ≠ some i := by
  have inv := between.inv
  have invT := (inv.step step.1 step.2).1
  obtain ⟨c, current, arc⟩ := between.arc
  have away := arc.ne
  cases inv.effect step with
  | switch b esp esp' call switch prepared switched frame =>
    rw [selected_call call switch] at notJ ⊢
    obtain ⟨currentB, onB⟩ : b.currentTask = s.currentTask ∧ b.schedulingEnabled = s.schedulingEnabled := by
      rcases prepared.mode with same | ⟨off, _⟩
      · exact same
      · simp [between.on] at off
    have runsB : (b.tasks j).state = .runnable := by
      rcases prepared.tasks with ⟨same, _⟩ | ⟨prev, code, _, _, atPrev, update⟩
      · rw [same]
        exact runs
      · have prevIs : prev = c := Fin.ext (by omega)
        rw [update, prevIs, Function.update_of_ne away.symm]
        exact runs
    cases switched with
    | off idle =>
      have tasks := prepared.some_task (onB.trans between.on)
      simp [onB, between.on] at idle
      omega
    | quiet saved quiet =>
      obtain ⟨_, currentT, onT, _⟩ := saved.fields
      refine ⟨⟨invT, by rw [onT, onB, between.on], c, by rw [currentT, currentB, current], arc⟩, ?_⟩
      rw [if_neg (by simp [quiet])]
      simp
    | kernel saved _ none =>
      rw [prepared.slots.active, Finset.card_eq_zero] at none
      have member : j ∈ runnableSlots b := mem_runnableSlots.mpr runsB
      simp [none] at member
    | task next saved flag found =>
      have tasks := saved.tasks
      rw [if_pos ⟨saved.on, by omega, flag⟩, slotAt_fin] at notJ ⊢
      have below : c.val < b.taskCount := by
        obtain ⟨k, atK, runsK⟩ := inv.enabled between.on
        have same : k = c := Fin.ext (by omega)
        rw [prepared.count]
        exact inv.below c (by rw [← same, runsK]; decide)
      have notNext : next ≠ j := fun same => notJ (by rw [same])
      obtain ⟨ahead, behind⟩ := selectLoop_arc prepared.slots (currentB.trans current) below runsB found notNext
      have further := arc.advance ahead behind
      exact ⟨⟨invT, saved.frame_on, next, rfl, further.1⟩, fun same => further.2 (Option.some.inj same)⟩
  | none noCall _ _ same =>
    subst same
    exact ⟨between, by simp [selected_noCall noCall]⟩
  | add slot base esp noCall _ _ _ after =>
    subst after
    refine ⟨⟨invT, ?_, c, ?_, arc⟩, by simp [selected_noCall noCall]⟩
    · rw [installTask_eq]
      exact between.on
    · rw [installTask_eq]
      exact current
  | reap h pid k wait _ after =>
    subst wait after
    have noCall : switchCall s (.wait h pid) = none := rfl
    exact ⟨⟨invT, between.on, c, current, arc⟩, by simp [selected_noCall noCall]⟩

/-- Round robin passes over no runnable task: between two selections of a task every
other task that was runnable the whole time is selected. -/
theorem round_robin_selects_every_runnable {s : Sched} {past between : List (Sched × SchedOp)}
    {first last : Sched × SchedOp} {i j : Fin 4} (run : SchedRun s (last :: between ++ first :: past))
    (begins : selected first = some i) (ends : selected last = some i) (other : j ≠ i)
    (runnable : ∀ e ∈ last :: between, (e.1.tasks j).state = .runnable) : ∃ e ∈ between, selected e = some j := by
  by_contra never
  obtain ⟨s₁, op₁⟩ := first
  obtain ⟨s₂, op₂⟩ := last
  obtain ⟨t, before, step, path⟩ := Run.split run
  have inv : SchedInv s₁ := SchedRun.inv before
  obtain ⟨current, on⟩ := inv.selects step begins
  have start : InArc i j t := by
    refine ⟨(inv.step step.1 step.2).1, on, i, current, ?_⟩
    rcases lt_or_gt_of_ne other with less | more
    · exact Or.inr ⟨less, Or.inl le_rfl⟩
    · exact Or.inl ⟨more, le_rfl, more⟩
  cases path with
  | next upto final =>
    have arrives : InArc i j s₂ := by
      refine Path.keeps (Q := fun e => (e.1.tasks j).state = .runnable ∧ selected e ≠ some j) ?_ upto ?_ start
      · intro u op u' arc known here
        exact (arc.step known.1 here known.2).1
      · intro e member
        exact ⟨runnable e (List.mem_cons_of_mem _ member), fun hit => never ⟨e, member, hit⟩⟩
    have notJ : selected (s₂, op₂) ≠ some j := by
      rw [ends]
      exact fun same => other (Option.some.inj same).symm
    exact (arrives.step (runnable _ List.mem_cons_self) final notJ).2 ends

/-- The first two slots hold the only tasks, both runnable. -/
structure TwoTasks (s : Sched) : Prop where
  inv : SchedInv s
  count : s.taskCount = 2
  first : (s.tasks 0).state = .runnable
  second : (s.tasks 1).state = .runnable

/-- With two tasks the scan takes the one that is not current. -/
theorem selectLoop_two {b : Sched} (count : b.taskCount = 2) (first : (b.tasks 0).state = .runnable)
    (second : (b.tasks 1).state = .runnable) :
    selectLoop b b.taskCount (-1) = some (some 0) ∧ selectLoop b b.taskCount 0 = some (some 1) ∧
      selectLoop b b.taskCount 1 = some (some 0) := by
  have zero : slotAt 0 = some 0 := by decide
  have one : slotAt 1 = some 1 := by decide
  rw [count]
  simp [selectLoop, count, zero, one, first, second]

theorem TwoTasks.switch {s b : Sched} {op : SchedOp} {esp : Nat} {c : Int} {next : Fin 4} (two : TwoTasks s)
    (allowed : op.Allowed s) (call : switchCall s op = some (b, esp)) (on : b.schedulingEnabled = true)
    (flag : b.needResched = true) (tasks : b.tasks = s.tasks) (current : b.currentTask = c)
    (found : selectLoop b b.taskCount c = some (some next)) :
    ∃ t, SchedSteps s op t ∧ TwoTasks t ∧ t.schedulingEnabled = true ∧ t.currentTask = next.val ∧
      selected (s, op) = some next := by
  have prepared := two.inv.prepared allowed call
  have position := prepared.positioned two.inv
  obtain ⟨t, esp', switch⟩ := prepared.slots.switch_total position esp
  have step : SchedSteps s op t := ⟨allowed, by rw [schedStep_switchCall call, switch, Option.map_some]⟩
  have switched := prepared.slots.switched position switch
  have frame := switched.frame (prepared.idle two.inv) prepared.some_task
  have count : b.taskCount ≠ 0 := by
    rw [prepared.count, two.count]
    decide
  have picked := selected_call call switch
  rw [if_pos ⟨on, count, flag⟩] at picked
  have runs : (b.tasks 0).state = .runnable := by
    rw [tasks]
    exact two.first
  cases switched with
  | off idle => simp [on, count] at idle
  | quiet _ quiet => simp [flag] at quiet
  | kernel _ _ none =>
    rw [prepared.slots.active, Finset.card_eq_zero] at none
    have member : 0 ∈ runnableSlots b := mem_runnableSlots.mpr runs
    simp [none] at member
  | task other saved _ scan =>
    rw [← current, scan] at found
    cases Option.some.inj (Option.some.inj found)
    refine ⟨_, step, ⟨(two.inv.step step.1 step.2).1, ?_, ?_, ?_⟩, saved.frame_on, rfl, by rw [picked, slotAt_fin]⟩
    · rw [frame.count, prepared.count, two.count]
    · rw [frame.state, runs]
    · rw [frame.state, tasks, two.second]

theorem TwoTasks.yield {s : Sched} {c next : Fin 4} (two : TwoTasks s) (on : s.schedulingEnabled = true)
    (current : s.currentTask = c.val) (turn : (c = 0 ∧ next = 1) ∨ (c = 1 ∧ next = 0)) (esp : Nat) :
    ∃ t, SchedSteps s (.yield esp) t ∧ TwoTasks t ∧ t.schedulingEnabled = true ∧ t.currentTask = next.val ∧
      selected (s, .yield esp) = some next := by
  obtain ⟨ticks, resched, tick, kept⟩ := schedulerTick_eq { s with needResched := true }
  have call : switchCall s (.yield esp) = some (schedulerTick { s with needResched := true }, esp) :=
    if_neg (by simp [on, two.count])
  rw [tick, kept rfl] at call
  obtain ⟨_, toSecond, toFirst⟩ := selectLoop_two (b := { s with ticks, needResched := true }) two.count two.first two.second
  refine two.switch trivial call on rfl rfl current ?_
  rcases turn with ⟨rfl, rfl⟩ | ⟨rfl, rfl⟩
  · exact toSecond
  · exact toFirst

/-- Two tasks that yield to each other: `scheduler_start` selects the first, the two
yields the second and again the first. -/
theorem round_robin_selects_every_runnable_two_tasks :
    ∃ s first second last past, SchedRun s (last :: [second] ++ first :: past) ∧ selected first = some 0 ∧
      selected last = some 0 ∧ ∃ e ∈ [second], selected e = some 1 := by
  have slot : freeSlot (schedulerInit schedReset) = some 0 := by decide
  obtain ⟨_, base, esp, _, _, _, add⟩ := add_runs slot
  have slot' : freeSlot (installTask (schedulerInit schedReset) 0 base esp) = some 1 := rfl
  obtain ⟨_, base', esp', _, _, _, add'⟩ := add_runs slot'
  have ready : SchedRun _ _ := .next (.next (.start ⟨schedReset, rfl⟩) add) add'
  have two : TwoTasks _ := ⟨ready.inv, rfl, rfl, rfl⟩
  have call : switchCall (installTask (installTask (schedulerInit schedReset) 0 base esp) 1 base' esp')
    (.start 0x9000) = some (_, 0x9000) := rfl
  have allowed : (SchedOp.start 0x9000).Allowed
    (installTask (installTask (schedulerInit schedReset) 0 base esp) 1 base' esp') := rfl
  obtain ⟨s₁, start, two₁, on₁, current₁, first⟩ := two.switch allowed call rfl rfl rfl rfl
    (selectLoop_two rfl rfl rfl).1
  obtain ⟨s₂, yield, two₂, on₂, current₂, second⟩ := two₁.yield on₁ current₁ (Or.inl ⟨rfl, rfl⟩) 0x8000
  obtain ⟨s₃, back, _, _, _, third⟩ := two₂.yield on₂ current₂ (Or.inr ⟨rfl, rfl⟩) 0x7000
  have run : SchedRun _ _ := .next (.next (.next ready start) yield) back
  refine ⟨_, _, _, _, _, run, first, third, ?_⟩
  refine round_robin_selects_every_runnable run first third (by decide) fun e member => ?_
  rcases List.mem_cons.mp member with rfl | rest
  · exact two₂.second
  · rw [List.mem_singleton.mp rest]
    exact two₁.second

end LearningOS
