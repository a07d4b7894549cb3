import LearningOS.Proc.Switch
import LearningOS.Heap.Client

namespace LearningOS
open History

/-- The pid a successful `scheduler_add` returned in a step. -/
def added : Sched × SchedOp → Option Int
  | (s, .add h entry) => (schedulerAdd h s entry).bind fun (_, _, pid) => if pid = -1 then none else some pid
  | _ => none

/-- The pid of the task that called `scheduler_exit` in a step, and the code. -/
def exited : Sched × SchedOp → Option (Int × Int)
  | (s, .exit code _) =>
    if s.schedulingEnabled = true ∧ s.taskCount ≠ 0 then
      (slotAt s.currentTask).map fun i => ((s.tasks i).pid, code)
    else none
  | _ => none

/-- The pid for which `scheduler_wait` returned 0 in a step. -/
def reaped : Sched × SchedOp → Option Int
  | (s, .wait h pid) => (schedulerWait h s pid).bind fun (_, _, ret, _, _) => if ret = 0 then some pid else none
  | _ => none

/-- Some `scheduler_add` returned the pid and that task exited with the code since. -/
def ExitedSince (past : List (Sched × SchedOp)) (pid code : Int) : Prop :=
  ∃ recent e older, past = recent ++ e :: older ∧ added e = some pid ∧ (pid, code) ∈ recent.filterMap exited

/-- How the slots stand to the pids that were returned, the exits and the pids that
were reaped. -/
structure PidInv (s : Sched) (adds : List Int) (exits : List (Int × Int)) (reaps : List Int) : Prop where
  next : s.nextPid = 1 + adds.length
  below : ∀ p ∈ adds, p < s.nextPid
  distinct : ∀ i j, (s.tasks i).state ≠ .unused → (s.tasks j).state ≠ .unused → (s.tasks i).pid = (s.tasks j).pid →
    i = j
  live : ∀ i, (s.tasks i).state ≠ .unused → (s.tasks i).pid ∈ adds ∧ (s.tasks i).pid ∉ reaps
  running : ∀ i c, (s.tasks i).state = .runnable → ((s.tasks i).pid, c) ∉ exits
  zombie : ∀ i c, (s.tasks i).state = .zombie → (((s.tasks i).pid, c) ∈ exits ↔ c = (s.tasks i).exitCode)
  exits : ∀ p c, (p, c) ∈ exits → p ∈ adds ∧ (p ∈ reaps ∨ ∃ i, (s.tasks i).state = .zombie ∧ (s.tasks i).pid = p)
  reaps : ∀ p ∈ reaps, p ∈ adds

namespace PidInv
variable {s t : Sched} {adds reaps : List Int} {exits : List (Int × Int)}

theorem same (inv : PidInv s adds exits reaps) (nextPid : t.nextPid = s.nextPid)
    (state : ∀ i, (t.tasks i).state = (s.tasks i).state) (pid : ∀ i, (t.tasks i).pid = (s.tasks i).pid)
    (code : ∀ i, (t.tasks i).exitCode = (s.tasks i).exitCode) : PidInv t adds exits reaps := by
  constructor
  · rw [nextPid]
    exact inv.next
  · rw [nextPid]
    exact inv.below
  · simp only [state, pid]
    exact inv.distinct
  · simp only [state, pid]
    exact inv.live
  · simp only [state, pid]
    exact inv.running
  · simp only [state, pid, code]
    exact inv.zombie
  · simp only [state, pid]
    exact inv.exits
  · exact inv.reaps

/-- A running task exits. -/
theorem exit (inv : PidInv s adds exits reaps) {prev : Fin 4} {code : Int} (runs : (s.tasks prev).state = .runnable)
    (nextPid : t.nextPid = s.nextPid)
    (tasks : t.tasks = Function.update s.tasks prev { s.tasks prev with state := .zombie, exitCode := code }) :
    PidInv t adds (((s.tasks prev).pid, code) :: exits) reaps := by
  have used : (s.tasks prev).state ≠ .unused := by
    rw [runs]
    decide
  have atPrev : t.tasks prev = { s.tasks prev with state := .zombie, exitCode := code } := by
    rw [tasks, Function.update_self]
  have others {i : Fin 4} (other : i ≠ prev) : t.tasks i = s.tasks i := by
    rw [tasks, Function.update_of_ne other]
  have pid (i : Fin 4) : (t.tasks i).pid = (s.tasks i).pid := by
    by_cases here : i = prev
    · rw [here, atPrev]
    · rw [others here]
  have stays {i : Fin 4} (usedT : (t.tasks i).state ≠ .unused) : (s.tasks i).state ≠ .unused := by
    by_cases here : i = prev
    · rw [here]
      exact used
    · rwa [others here] at usedT
  have apart {i : Fin 4} (other : i ≠ prev) (usedI : (s.tasks i).state ≠ .unused) :
      (s.tasks i).pid ≠ (s.tasks prev).pid := fun same => other (inv.distinct i prev usedI used same)
  constructor
  · rw [nextPid]
    exact inv.next
  · rw [nextPid]
    exact inv.below
  · intro i j usedI usedJ same
    rw [pid, pid] at same
    exact inv.distinct i j (stays usedI) (stays usedJ) same
  · intro i usedI
    rw [pid]
    exact inv.live i (stays usedI)
  · intro i c runsT
    have other : i ≠ prev := fun here => by simp [here, atPrev] at runsT
    rw [others other] at runsT ⊢
    intro member
    rcases List.mem_cons.mp member with same | old
    · exact apart other (by simp [runsT]) (congrArg Prod.fst same)
    · exact inv.running i c runsT old
  · intro i c zombieT
    by_cases here : i = prev
    · subst here
      rw [atPrev]
      simp [inv.running i c runs]
    · rw [others here] at zombieT ⊢
      rw [List.mem_cons, ← inv.zombie i c zombieT]
      have differ := apart here (by simp [zombieT])
      simp [differ]
  · intro p c member
    rcases List.mem_cons.mp member with same | old
    · cases same
      exact ⟨(inv.live prev used).1, Or.inr ⟨prev, by rw [atPrev], pid prev⟩⟩
    · obtain ⟨inAdds, reapedOr⟩ := inv.exits p c old
      refine ⟨inAdds, reapedOr.imp_right ?_⟩
      rintro ⟨i, zombie, pidI⟩
      have other : i ≠ prev := fun here => by simp [here, runs] at zombie
      exact ⟨i, by rw [others other]; exact zombie, by rw [pid]; exact pidI⟩
  · exact inv.reaps

/-- A slot gets a new task, under a pid that was never used. -/
theorem install (inv : PidInv s adds exits reaps) {slot : Fin 4} {new : Task}
    (unused : (s.tasks slot).state = .unused) (few : adds.length + 1 < 2 ^ 31 - 1)
    (tasks : t.tasks = Function.update s.tasks slot new) (pid : new.pid = s.nextPid) (runs : new.state = .runnable)
    (nextPid : t.nextPid = succ32 s.nextPid) : PidInv t (s.nextPid :: adds) exits reaps := by
  have nextIs := inv.next
  have succ : t.nextPid = s.nextPid + 1 := by
    rw [nextPid, succ32, Int.bmod_eq_of_le (by omega) (by omega)]
  have fresh : s.nextPid ∉ adds := fun member => lt_irrefl _ (inv.below _ member)
  have apart {i : Fin 4} (usedI : (s.tasks i).state ≠ .unused) : (s.tasks i).pid ≠ s.nextPid := fun same =>
    fresh (same ▸ (inv.live i usedI).1)
  have atSlot : t.tasks slot = new := by rw [tasks, Function.update_self]
  have others {i : Fin 4} (other : i ≠ slot) : t.tasks i = s.tasks i := by rw [tasks, Function.update_of_ne other]
  constructor
  · rw [succ, inv.next, List.length_cons]
    omega
  · intro p member
    rw [succ]
    rcases List.mem_cons.mp member with rfl | old
    · exact lt_add_one _
    · exact (inv.below p old).trans (lt_add_one _)
  · intro i j usedI usedJ same
    by_cases atI : i = slot
    · by_cases atJ : j = slot
      · exact atI.trans atJ.symm
      · rw [others atJ] at usedJ same
        rw [atI, atSlot, pid] at same
        exact absurd same.symm (apart usedJ)
    · rw [others atI] at usedI same
      by_cases atJ : j = slot
      · rw [atJ, atSlot, pid] at same
        exact absurd same (apart usedI)
      · rw [others atJ] at usedJ same
        exact inv.distinct i j usedI usedJ same
  · intro i usedI
    by_cases atI : i = slot
    · rw [atI, atSlot, pid]
      exact ⟨List.mem_cons_self, fun member => fresh (inv.reaps _ member)⟩
    · rw [others atI] at usedI ⊢
      exact ⟨List.mem_cons_of_mem _ (inv.live i usedI).1, (inv.live i usedI).2⟩
  · intro i c runsI
    by_cases atI : i = slot
    · rw [atI, atSlot, pid]
      exact fun member => fresh (inv.exits _ c member).1
    · rw [others atI] at runsI ⊢
      exact inv.running i c runsI
  · intro i c zombie
    have atI : i ≠ slot := fun here => by simp [here, atSlot, runs] at zombie
    rw [others atI] at zombie ⊢
    exact inv.zombie i c zombie
  · intro p c member
    obtain ⟨inAdds, reapedOr⟩ := inv.exits p c member
    refine ⟨List.mem_cons_of_mem _ inAdds, reapedOr.imp_right ?_⟩
    rintro ⟨i, zombie, pidI⟩
    have atI : i ≠ slot := fun here => by simp [here, unused] at zombie
    exact ⟨i, by rw [others atI]; exact zombie, by rw [others atI]; exact pidI⟩
  · exact fun p member => List.mem_cons_of_mem _ (inv.reaps p member)

/-- A zombie is reaped. -/
theorem reap (inv : PidInv s adds exits reaps) {i : Fin 4} (zombie : (s.tasks i).state = .zombie) :
    PidInv (reap s i) adds exits ((s.tasks i).pid :: reaps) := by
  have gone : ((LearningOS.reap s i).tasks i).state = .unused := by simp [LearningOS.reap]
  have others {j : Fin 4} (other : j ≠ i) : (LearningOS.reap s i).tasks j = s.tasks j := Function.update_of_ne other _ _
  have elsewhere {j : Fin 4} (used : ((LearningOS.reap s i).tasks j).state ≠ .unused) : j ≠ i :=
    fun here => used (here ▸ gone)
  have usedI : (s.tasks i).state ≠ .unused := by
    rw [zombie]
    decide
  constructor
  · exact inv.next
  · exact inv.below
  · intro j k usedJ usedK same
    have atJ := elsewhere usedJ
    have atK := elsewhere usedK
    rw [others atJ] at usedJ same
    rw [others atK] at usedK same
    exact inv.distinct j k usedJ usedK same
  · intro j usedJ
    have other := elsewhere usedJ
    rw [others other] at usedJ ⊢
    refine ⟨(inv.live j usedJ).1, fun member => ?_⟩
    rcases List.mem_cons.mp member with same | old
    · exact other (inv.distinct j i usedJ usedI same)
    · exact (inv.live j usedJ).2 old
  · intro j c runs
    have other := elsewhere (j := j) (by simp [runs])
    rw [others other] at runs ⊢
    exact inv.running j c runs
  · intro j c zombieJ
    have other := elsewhere (j := j) (by simp [zombieJ])
    rw [others other] at zombieJ ⊢
    exact inv.zombie j c zombieJ
  · intro p c member
    obtain ⟨inAdds, reapedOr⟩ := inv.exits p c member
    refine ⟨inAdds, ?_⟩
    rcases reapedOr with old | ⟨j, zombieJ, pidJ⟩
    · exact Or.inl (List.mem_cons_of_mem _ old)
    · by_cases here : j = i
      · rw [here] at pidJ
        exact Or.inl (pidJ ▸ List.mem_cons_self)
      · exact Or.inr ⟨j, by rw [others here]; exact zombieJ, by rw [others here]; exact pidJ⟩
  · intro p member
    rcases List.mem_cons.mp member with rfl | old
    · exact (inv.live i usedI).1
    · exact inv.reaps p old

end PidInv

section
variable {s b t : Sched} {op : SchedOp} {esp : Nat} {past : List (Sched × SchedOp)}

/-- A step that switches is the exit of the running task, or none. -/
theorem exited_prepared (inv : SchedInv s) (prepared : Prepared s op b esp) :
    (exited (s, op) = none ∧ b.tasks = s.tasks) ∨
      ∃ prev code, exited (s, op) = some ((s.tasks prev).pid, code) ∧ (s.tasks prev).state = .runnable ∧
        b.tasks = Function.update s.tasks prev { s.tasks prev with state := .zombie, exitCode := code } := by
  rcases prepared.tasks with ⟨same, noExit⟩ | ⟨prev, code, rfl, on, current, update⟩
  · refine Or.inl ⟨?_, same⟩
    cases op with
    | exit code e => exact absurd rfl (noExit code e)
    | _ => rfl
  · have tasks := inv.taskCount_pos (inv.active_pos on)
    refine Or.inr ⟨prev, code, ?_, inv.current_runs current, update⟩
    simp only [exited]
    rw [if_pos ⟨on, by omega⟩, current, slotAt_fin, Option.map_some]

theorem switchCall_events (call : switchCall s op ≠ none) : added (s, op) = none ∧ reaped (s, op) = none := by
  cases op with
  | add h entry => exact absurd rfl call
  | wait h pid => exact absurd rfl call
  | _ => exact ⟨rfl, rfl⟩

/-- A step that changes nothing adds, ends and reaps nothing. -/
theorem none_events (inv : SchedInv s) (call : switchCall s op = none) (fill : installed s op = none)
    (nothing : ∀ h pid, op = .wait h pid → zombieSlot s pid = none) :
    added (s, op) = none ∧ exited (s, op) = none ∧ reaped (s, op) = none := by
  cases op with
  | add h entry =>
    refine ⟨?_, rfl, rfl⟩
    cases run : schedulerAdd h s entry with
    | none => simp only [added, run, Option.bind_none]
    | some result =>
      obtain ⟨h', s', ret⟩ := result
      rcases schedulerAdd_installed run with ⟨_, _, failed⟩ | ⟨slot, base, e, fills, _⟩
      · simp only [added, run, Option.bind_some, if_pos failed]
      · simp [fill] at fills
  | exit code e =>
    refine ⟨rfl, ?_, rfl⟩
    simp only [exited]
    split
    · rename_i on
      obtain ⟨i, current, _⟩ := inv.enabled on.1
      simp [switchCall, on, current, slotAt_fin] at call
    · rfl
  | wait h pid =>
    refine ⟨rfl, rfl, ?_⟩
    simp [reaped, schedulerWait, nothing h pid rfl]
  | _ => exact ⟨rfl, rfl, rfl⟩

theorem added_installed {slot : Fin 4} (step : SchedSteps s op t) (fill : installed s op = some (slot, esp))
    (positive : 0 < s.nextPid) : added (s, op) = some s.nextPid ∧ exited (s, op) = none ∧ reaped (s, op) = none := by
  cases op with
  | add h entry =>
    obtain ⟨⟨h', s', ret⟩, run, _⟩ := Option.map_eq_some_iff.mp step.2
    rcases schedulerAdd_installed run with ⟨none, _⟩ | ⟨_, _, _, _, _, _, _, rfl⟩
    · simp [fill] at none
    · refine ⟨?_, rfl, rfl⟩
      simp only [added, run, Option.bind_some]
      exact if_neg (by omega)
  | _ => simp [installed] at fill

theorem reaped_wait {h : Heap} {pid : Int} {i : Fin 4} (step : SchedSteps s (.wait h pid) t)
    (found : zombieSlot s pid = some i) : reaped (s, .wait h pid) = some pid := by
  obtain ⟨⟨h', s', ret, code, frees⟩, run, _⟩ := Option.map_eq_some_iff.mp step.2
  have zero : ret = 0 := by
    rcases schedulerWait_found run with ⟨nothing, _⟩ | ⟨_, _, _, zero, _⟩
    · simp [found] at nothing
    · exact zero
  simp only [reaped, run, Option.bind_some, if_pos zero]

/-- One step keeps the invariant, over the events of the step. -/
theorem PidInv.step (pids : PidInv s (past.filterMap added) (past.filterMap exited) (past.filterMap reaped))
    (inv : SchedInv s) (step : SchedSteps s op t) (few : (((s, op) :: past).filterMap added).length < 2 ^ 31 - 1) :
    PidInv t (((s, op) :: past).filterMap added) (((s, op) :: past).filterMap exited)
      (((s, op) :: past).filterMap reaped) := by
  cases inv.effect step with
  | switch b esp esp' call _ prepared _ frame =>
    have some : switchCall s op ≠ none := by simp [call]
    obtain ⟨noAdd, noReap⟩ := switchCall_events some
    rw [List.filterMap_cons_none noAdd, List.filterMap_cons_none noReap]
    rcases exited_prepared inv prepared with ⟨noExit, same⟩ | ⟨prev, code, exit, runs, update⟩
    · rw [List.filterMap_cons_none noExit]
      have found : PidInv b _ _ _ := pids.same prepared.nextPid (by simp [same]) (by simp [same]) (by simp [same])
      exact found.same frame.nextPid frame.state frame.pid frame.exitCode
    · rw [List.filterMap_cons_some exit]
      exact (pids.exit (t := b) runs prepared.nextPid update).same frame.nextPid frame.state frame.pid frame.exitCode
  | none call fill nothing same =>
    obtain ⟨noAdd, noExit, noReap⟩ := none_events inv call fill nothing
    rw [List.filterMap_cons_none noAdd, List.filterMap_cons_none noExit, List.filterMap_cons_none noReap, same]
    exact pids
  | add slot base esp call fill unused _ after =>
    have nextIs := pids.next
    obtain ⟨add, noExit, noReap⟩ := added_installed step fill (by omega)
    rw [List.filterMap_cons_some add] at few ⊢
    rw [List.filterMap_cons_none noExit, List.filterMap_cons_none noReap, after]
    exact pids.install unused few (by rw [installTask_eq]) rfl rfl (by rw [installTask_eq])
  | reap h pid i wait found after =>
    subst wait
    obtain ⟨zombie, pidIs, _⟩ := zombieSlot_zombie found
    have reaps := reaped_wait step found
    rw [List.filterMap_cons_none (rfl : added (s, .wait h pid) = none),
      List.filterMap_cons_none (rfl : exited (s, .wait h pid) = none), List.filterMap_cons_some reaps, after, ← pidIs]
    exact pids.reap zombie

end

section
variable {s : Sched} {past : List (Sched × SchedOp)}

theorem few_of_cons {e : Sched × SchedOp} {n : Nat} (few : ((e :: past).filterMap added).length < n) :
    (past.filterMap added).length < n := by
  have less : (past.filterMap added).length ≤ ((e :: past).filterMap added).length :=
    ((List.sublist_cons_self e past).filterMap added).length_le
  omega

theorem SchedRun.pidInv (run : SchedRun s past) (few : (past.filterMap added).length < 2 ^ 31 - 1) :
    PidInv s (past.filterMap added) (past.filterMap exited) (past.filterMap reaped) := by
  induction run with
  | start begins =>
    obtain ⟨s₀, rfl⟩ := begins
    constructor <;> simp [schedulerInit]
  | next before step ih => exact (ih (few_of_cons few)).step (SchedRun.inv before) step few

theorem ExitedSince.cons {pid code : Int} (since : ExitedSince past pid code) (e : Sched × SchedOp) :
    ExitedSince (e :: past) pid code := by
  obtain ⟨recent, add, older, rfl, pidIs, member⟩ := since
  exact ⟨e :: recent, add, older, rfl, pidIs, ((List.sublist_cons_self e recent).filterMap exited).subset member⟩

/-- A task exits only after its pid was returned. -/
theorem SchedRun.exitedSince (run : SchedRun s past) (few : (past.filterMap added).length < 2 ^ 31 - 1)
    {pid code : Int} (member : (pid, code) ∈ past.filterMap exited) : ExitedSince past pid code := by
  induction run with
  | start => simp at member
  | @next s t op past before step ih =>
    have inv := SchedRun.inv before
    have pids := SchedRun.pidInv before (few_of_cons few)
    cases here : exited (s, op) with
    | none =>
      rw [List.filterMap_cons_none here] at member
      exact (ih (few_of_cons few) member).cons _
    | some event =>
      rw [List.filterMap_cons_some here] at member
      rcases List.mem_cons.mp member with same | old
      · subst same
        cases inv.effect step with
        | switch b esp esp' call _ prepared _ _ =>
          rcases exited_prepared inv prepared with ⟨noExit, _⟩ | ⟨prev, code', exit, runs, _⟩
          · simp [here] at noExit
          · rw [here] at exit
            cases Option.some.inj exit
            obtain ⟨add, inPast, pidIs⟩ := List.mem_filterMap.mp (pids.live prev (by simp [runs])).1
            obtain ⟨recent, older, rfl⟩ := List.append_of_mem inPast
            exact ⟨(s, op) :: recent, add, older, rfl, pidIs, List.mem_filterMap.mpr ⟨_, List.mem_cons_self, here⟩⟩
        | none call fill nothing _ => simp [none_events inv call fill nothing] at here
        | add slot base esp call fill _ _ _ =>
          have nextIs := pids.next
          obtain ⟨_, noExit, _⟩ := added_installed step fill (by omega)
          simp [here] at noExit
        | reap h p i wait _ _ =>
          subst wait
          simp [exited] at here
      · exact (ih (few_of_cons few) old).cons _

theorem zombieSlot_none_iff (inv : SlotInv s) (pid : Int) :
    zombieSlot s pid = none ↔ ∀ i, (s.tasks i).state = .zombie → (s.tasks i).pid ≠ pid := by
  simp only [zombieSlot, List.find?_eq_none, List.mem_finRange, true_implies, decide_eq_true_eq, not_and]
  constructor
  · intro none i zombie pidIs
    exact none i (inv.below i (by simp [zombie])) pidIs zombie
  · intro none i _ pidIs zombie
    exact none i zombie pidIs

end

/-- A task keeps its slot and its pid over a step that does not reap it. -/
theorem SchedInv.keeps_pid {s t : Sched} {op : SchedOp} {i : Fin 4} (inv : SchedInv s) (step : SchedSteps s op t)
    (used : (s.tasks i).state ≠ .unused) (notReaped : reaped (s, op) ≠ some (s.tasks i).pid) :
    (t.tasks i).state ≠ .unused ∧ (t.tasks i).pid = (s.tasks i).pid := by
  cases inv.effect step with
  | switch b esp esp' call _ prepared _ frame =>
    rw [frame.state, frame.pid, (prepared.same i).2.1]
    exact ⟨mt (prepared.unused_iff inv i).mp used, rfl⟩
  | none _ _ _ same =>
    rw [same]
    exact ⟨used, rfl⟩
  | add slot base esp _ _ unused _ after =>
    have other : i ≠ slot := fun here => used (here ▸ unused)
    rw [after, (installTask_fields s slot base esp).1, Function.update_of_ne other]
    exact ⟨used, rfl⟩
  | reap h pid k wait found after =>
    subst wait
    obtain ⟨_, pidIs, _⟩ := zombieSlot_zombie found
    have other : i ≠ k := fun here => notReaped (by rw [reaped_wait step found, here, pidIs])
    rw [after, LearningOS.reap, setTask_tasks, Function.update_of_ne other]
    exact ⟨used, rfl⟩

/-- Exit codes are delivered exactly once and to the right pid: `scheduler_wait`
returns 0 exactly if the pid was returned by `scheduler_add`, its task exited since and
it was not reaped before, and stores that code. The pids of tasks are distinct, and a
task keeps its pid until it is reaped. -/
theorem exit_codes_delivered_once {s : Sched} {past : List (Sched × SchedOp)} (run : SchedRun s past)
    (few : (past.filterMap added).length < 2 ^ 31 - 1) :
    (∀ h pid h' s' ret code frees, schedulerWait h s pid = some (h', s', ret, code, frees) →
      (ret = 0 ↔ (∃ c, ExitedSince past pid c) ∧ pid ∉ past.filterMap reaped) ∧
        (ret = 0 → ∀ c, ExitedSince past pid c → code = some c)) ∧
    (∀ r h ptrs, Held r h ptrs → (∀ i, (s.tasks i).state ≠ .unused → (s.tasks i).stackBase ∈ ptrs) →
      ∀ pid, ∃ result, schedulerWait h s pid = some result) ∧
    (∀ i j, (s.tasks i).state ≠ .unused → (s.tasks j).state ≠ .unused → i ≠ j →
      (s.tasks i).pid ≠ (s.tasks j).pid) ∧
    ∀ i recent t, Path SchedSteps s recent t → (s.tasks i).state ≠ .unused →
      (s.tasks i).pid ∉ recent.filterMap reaped → (t.tasks i).state ≠ .unused ∧ (t.tasks i).pid = (s.tasks i).pid := by
  have inv := run.inv
  have pids := run.pidInv few
  have since {pid c : Int} (exit : ExitedSince past pid c) : (pid, c) ∈ past.filterMap exited := by
    obtain ⟨recent, e, older, rfl, _, member⟩ := exit
    exact ((List.sublist_append_left recent (e :: older)).filterMap exited).subset member
  refine ⟨fun h pid h' s' ret code frees wait => ?_, fun r h ptrs held holds pid => ?_,
    fun i j usedI usedJ other same => other (pids.distinct i j usedI usedJ same), fun i recent t path used alive => ?_⟩
  · rcases schedulerWait_found wait with ⟨nothing, _, failed⟩ | ⟨i, found, _, zero, stored⟩
    · refine ⟨iff_of_false (by omega) ?_, fun zero => by omega⟩
      rintro ⟨⟨c, exit⟩, alive⟩
      obtain ⟨_, gone | ⟨i, zombie, pidIs⟩⟩ := pids.exits pid c (since exit)
      · exact alive gone
      · exact (zombieSlot_none_iff inv.toSlotInv pid).mp nothing i zombie pidIs
    · obtain ⟨zombie, pidIs, _⟩ := zombieSlot_zombie found
      have code := pids.zombie i
      have live := pids.live i (by simp [zombie])
      rw [pidIs] at code live
      refine ⟨iff_of_true zero ⟨⟨_, run.exitedSince few ((code _ zombie).mpr rfl)⟩, live.2⟩, fun _ c exit => ?_⟩
      rw [stored, (code c zombie).mp (since exit)]
  · unfold schedulerWait
    split
    · exact ⟨_, rfl⟩
    · rename_i i found
      obtain ⟨zombie, _⟩ := zombieSlot_zombie found
      obtain ⟨h', freed, _⟩ := held.free (holds i (by simp [zombie]))
      dsimp only
      split
      · exact ⟨_, by rw [freed, Option.map_some]⟩
      · exact ⟨_, rfl⟩
  · have kept : SchedInv t ∧ (t.tasks i).state ≠ .unused ∧ (t.tasks i).pid = (s.tasks i).pid := by
      refine Path.keeps (P := fun u => SchedInv u ∧ (u.tasks i).state ≠ .unused ∧ (u.tasks i).pid = (s.tasks i).pid)
        (Q := fun e => reaped e ≠ some (s.tasks i).pid) ?_ path ?_ ⟨inv, used, rfl⟩
      · intro u op u' before notReaped step
        obtain ⟨state, pid⟩ := before.1.keeps_pid step before.2.1 (by rw [before.2.2]; exact notReaped)
        exact ⟨(before.1.step step.1 step.2).1, state, pid.trans before.2.2⟩
      · intro e member same
        exact alive (List.mem_filterMap.mpr ⟨e, member, same⟩)
    exact kept.2

/-- The first task of a run, after `scheduler_start`. -/
theorem first_task_starts {base esp : Nat} (inv : SchedInv (installTask (schedulerInit schedReset) 0 base esp)) :
    ∃ t, SchedSteps (installTask (schedulerInit schedReset) 0 base esp) (.start 0x9000) t ∧
      t.schedulingEnabled = true ∧ t.currentTask = 0 ∧ (t.tasks 0).pid = 1 ∧ (t.tasks 0).stackBase = base ∧
      ∀ i, i ≠ 0 → (t.tasks i).state = .unused := by
  obtain ⟨tasks, _⟩ := installTask_fields (schedulerInit schedReset) 0 base esp
  have others {i : Fin 4} (other : i ≠ 0) :
      ((installTask (schedulerInit schedReset) 0 base esp).tasks i).state = .unused := by
    rw [tasks, Function.update_of_ne other]
    rfl
  obtain ⟨t, esp', run, invT, same, on, _⟩ := interrupt_pending (s := { installTask (schedulerInit schedReset) 0 base esp
    with schedulingEnabled := true, currentTask := -1, needResched := true })
    ⟨inv.active, inv.count, inv.below, inv.bases⟩ (Or.inl rfl) rfl Nat.one_pos rfl 0x9000
  have enabled := on.mpr Nat.one_pos
  have step : SchedSteps (installTask (schedulerInit schedReset) 0 base esp) (.start 0x9000) t := by
    have active : (installTask (schedulerInit schedReset) 0 base esp).activeTasks ≠ 0 := Nat.one_ne_zero
    exact ⟨rfl, by rw [schedStep, schedulerStart, if_neg active, run, Option.map_some]⟩
  obtain ⟨_, pid⟩ := inv.keeps_pid (i := 0) step (by rw [tasks, Function.update_self]; simp) (by simp [reaped])
  obtain ⟨i, current, runs⟩ := invT.enabled enabled
  obtain rfl : i = 0 := by
    by_contra other
    have unused := others other
    rw [same.state i] at runs
    simp [unused] at runs
  refine ⟨t, step, enabled, current, ?_, ?_, fun j other => (same.state j).trans (others other)⟩
  · rw [pid, tasks, Function.update_self]
    rfl
  · rw [same.base 0]
    change ((installTask (schedulerInit schedReset) 0 base esp).tasks 0).stackBase = base
    rw [tasks, Function.update_self]

/-- The first task exits with code 7, and a wait for its pid delivers it. -/
theorem exit_codes_delivered_once_first_task :
    ∃ s past, SchedRun s past ∧ (past.filterMap added).length < 2 ^ 31 - 1 ∧ ∃ h h' s' frees,
      schedulerWait h s 1 = some (h', s', 0, some 7, frees) := by
  have slot : freeSlot (schedulerInit schedReset) = some 0 := by decide
  obtain ⟨h, base, esp, call, pointer, fill, add⟩ := add_runs slot
  obtain ⟨first, _⟩ := added_installed add fill (by decide)
  have held : Held kernelHeap h [base] := by
    rcases (Held.init (r := kernelHeap) (fun _ => 0) (by decide)).malloc 4096 with failed | ⟨h₁, p, took, _, held, _⟩
    · exact absurd (congrArg Prod.snd (Option.some.inj (call.symm.trans failed))) pointer
    · cases Option.some.inj (call.symm.trans took)
      exact held
  have ready : SchedRun _ _ := .next (.start ⟨schedReset, rfl⟩) add
  obtain ⟨s₁, start, on, current, pid, baseIs, others⟩ := first_task_starts ready.inv
  have started : SchedRun _ _ := .next ready start
  have inv := started.inv
  obtain ⟨s₂, esp', exits, _, _, last⟩ := inv.exit 7 0x8000
  obtain ⟨_, _, prev, atPrev, same⟩ := last on
  obtain rfl : prev = 0 := Fin.ext (by simp at *; omega)
  have exit : exited (s₁, .exit 7 0x8000) = some (1, 7) := by
    have tasks := inv.taskCount_pos (inv.active_pos on)
    rw [exited, if_pos ⟨on, by omega⟩, current, ← pid]
    rfl
  have owned (i : Fin 4) (used : (s₂.tasks i).state ≠ .unused) : (s₂.tasks i).stackBase ∈ [base] := by
    obtain ⟨tasks, _⟩ := retire_fields s₁ 0 7
    rw [same.state i, tasks] at used
    rw [same.base i, tasks]
    by_cases here : i = 0
    · rw [here, Function.update_self]
      exact List.mem_singleton.mpr baseIs
    · rw [Function.update_of_ne here] at used
      exact absurd (others i here) used
  obtain ⟨past, run, since, alive, few⟩ : ∃ past, SchedRun s₂ past ∧ ExitedSince past 1 7 ∧
      1 ∉ past.filterMap reaped ∧ (past.filterMap added).length < 2 ^ 31 - 1 := by
    have step : SchedSteps s₁ (.exit 7 0x8000) s₂ := ⟨trivial, by rw [schedStep, exits, Option.map_some]⟩
    have run : SchedRun s₂ _ := .next started step
    exact ⟨_, run, ⟨[_, _], _, [], rfl, first, List.mem_filterMap.mpr ⟨_, List.mem_cons_self, exit⟩⟩,
      by simp [reaped], (List.length_filterMap_le added _).trans_lt (show 3 < 2147483647 by decide)⟩
  obtain ⟨delivers, returns, _⟩ := exit_codes_delivered_once run few
  obtain ⟨⟨h', s', ret, code, frees⟩, wait⟩ := returns kernelHeap h [base] held owned 1
  obtain ⟨zero, stored⟩ := delivers h 1 h' s' ret code frees wait
  have ok : ret = 0 := zero.mpr ⟨⟨7, since⟩, alive⟩
  rw [ok, stored ok 7 since] at wait
  exact ⟨s₂, past, run, few, h, h', s', frees, wait⟩

end LearningOS
