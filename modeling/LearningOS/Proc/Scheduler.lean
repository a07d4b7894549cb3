import LearningOS.Heap.Model
import LearningOS.Store.Copy
import Mathlib.Data.Fintype.Card
import Mathlib.Data.Int.Order.Basic

namespace LearningOS
open ByteStore

inductive TaskState
  | unused
  | runnable
  | zombie
deriving DecidableEq, Repr

structure Task where
  irqEsp : Nat
  stackBase : Nat
  pid : Int
  exitCode : Int
  state : TaskState
deriving DecidableEq, Repr

/-- The globals of `scheduler.c`, with the `ticks` of `scheduler_tick` and the
saved stack pointer of `kernel_ctx`. -/
structure Sched where
  tasks : Fin 4 → Task
  taskCount : Nat
  currentTask : Int
  activeTasks : Nat
  schedulingEnabled : Bool
  needResched : Bool
  kernelEsp : Nat
  nextPid : Int
  ticks : Nat

/-- A signed 32-bit increment. -/
def succ32 (n : Int) : Int := (n + 1).bmod (2 ^ 32)

/-- `tasks[i]` exists for these indices only. -/
def slotAt (i : Int) : Option (Fin 4) :=
  if inside : 0 ≤ i ∧ i < 4 then some ⟨i.toNat, by omega⟩ else none

def Sched.setTask (s : Sched) (i : Fin 4) (t : Task) : Sched := { s with tasks := Function.update s.tasks i t }

/-- `scheduler_init` leaves `kernel_ctx` and `ticks` as they are. -/
def schedulerInit (s : Sched) : Sched where
  tasks := fun _ => ⟨0, 0, 0, 0, .unused⟩
  taskCount := 0
  currentTask := -1
  activeTasks := 0
  schedulingEnabled := false
  needResched := false
  kernelEsp := s.kernelEsp
  nextPid := 1
  ticks := s.ticks

/-- The words `task_context_init` pushes, from the top of the stack down. -/
def contextWords (entry : Nat) : List Nat := [0x202, 0x08, entry, 0, 0, 0, 0, 0, 0, 0, 0, 0, 0, 0x10]

/-- `task_context_init`: the memory with the frame below `stackTop`, and the
stack pointer it stores. -/
def taskContextInit (m : Bytes) (entry stackTop : Nat) : Bytes × Nat :=
  (contextWords entry).foldl push (m, stackTop)

def freeSlot (s : Sched) : Option (Fin 4) :=
  (List.finRange 4).find? fun i => (s.tasks i).state = .unused

/-- The rest of `scheduler_add` once it has a slot and a stack. -/
def installTask (s : Sched) (slot : Fin 4) (stackBase irqEsp : Nat) : Sched :=
  let s := s.setTask slot ⟨irqEsp, stackBase, s.nextPid, 0, .runnable⟩
  let s := { s with nextPid := succ32 s.nextPid, activeTasks := s.activeTasks + 1 }
  if slot.val ≥ s.taskCount then { s with taskCount := slot.val + 1 } else s

/-- `scheduler_add`, over the heap its stack comes from. -/
def schedulerAdd (h : Heap) (s : Sched) (entry : Nat) : Option (Heap × Sched × Int) :=
  if entry = 0 then some (h, s, -1)
  else
    match freeSlot s with
    | none => some (h, s, -1)
    | some slot =>
      (kmalloc h 4096).map fun (h, stackBase) =>
        if stackBase = 0 then (h, s, -1)
        else
          let (mem, irqEsp) := taskContextInit h.mem entry (u32 (stackBase + 4096))
          ({ h with mem }, installTask s slot stackBase irqEsp, s.nextPid)

def schedulerTick (s : Sched) : Sched :=
  if !s.schedulingEnabled ∨ s.taskCount < 2 then s
  else
    let s := { s with ticks := u32 (s.ticks + 1) }
    if s.ticks % 10 = 0 then { s with needResched := true } else s

/-- The selection loop: the next runnable slot after `next`, if one is found in
the given number of rounds. The outer `none` is an access outside `tasks`. -/
def selectLoop (s : Sched) : Nat → Int → Option (Option (Fin 4))
  | 0, _ => some none
  | rounds + 1, next =>
    let next := (next + 1).tmod s.taskCount
    (slotAt next).bind fun slot =>
      if (s.tasks slot).state = .runnable then some (some slot) else selectLoop s rounds next

/-- The save at the start of `scheduler_switch_from_isr`. -/
def saveContext (s : Sched) (currentEsp : Nat) : Option Sched :=
  if 0 ≤ s.currentTask then
    (slotAt s.currentTask).map fun slot => s.setTask slot { s.tasks slot with irqEsp := currentEsp }
  else some { s with kernelEsp := currentEsp }

/-- `scheduler_switch_from_isr`: the new state and the stack pointer to restore;
`none` for an access outside `tasks`. -/
def schedulerSwitchFromIsr (s : Sched) (currentEsp : Nat) : Option (Sched × Nat) :=
  if !s.schedulingEnabled ∨ s.taskCount = 0 then some (s, currentEsp)
  else
    (saveContext s currentEsp).bind fun s =>
      if !s.needResched then some (s, currentEsp)
      else
        let s := { s with needResched := false }
        if s.activeTasks = 0 then some ({ s with currentTask := -1, schedulingEnabled := false }, s.kernelEsp)
        else
          (selectLoop s s.taskCount s.currentTask).map fun
            | some next => ({ s with currentTask := next }, (s.tasks next).irqEsp)
            | none => ({ s with currentTask := -1 }, s.kernelEsp)

/-- Interrupt 0x20, from the timer or from `int $0x20`: the timer handler, then
the switch at the end of `common_stub`. -/
def timerInterrupt (s : Sched) (esp : Nat) : Option (Sched × Nat) := schedulerSwitchFromIsr (schedulerTick s) esp

/-- `scheduler_start`; `esp` is the stack pointer of its software interrupt, and
the result carries the one execution goes on with. -/
def schedulerStart (s : Sched) (esp : Nat) : Option (Sched × Nat) :=
  if s.activeTasks = 0 then some (s, esp)
  else timerInterrupt { s with schedulingEnabled := true, currentTask := -1, needResched := true } esp

def taskYield (s : Sched) (esp : Nat) : Option (Sched × Nat) :=
  if !s.schedulingEnabled ∨ s.taskCount < 2 then some (s, esp)
  else timerInterrupt { s with needResched := true } esp

/-- The bookkeeping of `scheduler_exit` before its interrupt. -/
def retire (s : Sched) (prev : Fin 4) (code : Int) : Sched :=
  let s := s.setTask prev { s.tasks prev with state := .zombie, exitCode := code }
  let s := if s.activeTasks > 0 then { s with activeTasks := s.activeTasks - 1 } else s
  { s with needResched := true }

/-- `scheduler_exit`. Both branches of its last test raise the same interrupt. -/
def schedulerExit (s : Sched) (code : Int) (esp : Nat) : Option (Sched × Nat) :=
  if !s.schedulingEnabled ∨ s.taskCount = 0 then some (s, esp)
  else (slotAt s.currentTask).bind fun prev => timerInterrupt (retire s prev code) esp

/-- The slot `scheduler_wait` stops at. -/
def zombieSlot (s : Sched) (pid : Int) : Option (Fin 4) :=
  (List.finRange 4).find? fun i => i < s.taskCount ∧ (s.tasks i).pid = pid ∧ (s.tasks i).state = .zombie

/-- What a successful `scheduler_wait` does to the slot it found. -/
def reap (s : Sched) (i : Fin 4) : Sched := s.setTask i { s.tasks i with stackBase := 0, state := .unused }

/-- `scheduler_wait`: the heap, the state, the result, the exit code it stores
and its calls of `kfree`. -/
def schedulerWait (h : Heap) (s : Sched) (pid : Int) :
    Option (Heap × Sched × Int × Option Int × List FreeCall) :=
  match zombieSlot s pid with
  | none => some (h, s, -1, none, [])
  | some i =>
    let base := (s.tasks i).stackBase
    if base ≠ 0 then (kfree h base).map fun h' => (h', reap s i, 0, some (s.tasks i).exitCode, [⟨h, base⟩])
    else some (h, reap s i, 0, some (s.tasks i).exitCode, [])

end LearningOS
