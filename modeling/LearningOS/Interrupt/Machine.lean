import LearningOS.Interrupt.KernelStack
import LearningOS.Proc.Stacks
import LearningOS.Proc.Switch

namespace LearningOS
open ByteStore History

/-- The processor, its memory and the scheduler. `esp` is the stack pointer of the
ring the processor is in, `others` are the heap blocks that are no task's stack. The
task state segment is not part of it: `kernel_main` sets `esp0` once, to `kernelTss`,
and no switch changes it. -/
structure Machine where
  sched : Sched
  heap : Heap
  others : List Nat
  user : Bool
  esp : Nat

/-- The words on the stack when `common_stub` calls `irq_handler`: a ring change
pushes all sixteen from `esp0` down, an interrupt in ring 0 pushes no stack pointer and
goes on from `esp`. -/
def saveFrame (m : Machine) (f : TrapFrame) : Bytes × Nat :=
  if m.user then enterFromRing3 kernelTss m.heap.mem { f with ss := 0x23, useresp := m.esp, cs := 0x1B }
  else ({ f with cs := 0x08 }.words.drop 2).foldl push (m.heap.mem, m.esp)

def Machine.interrupt (m : Machine) (f : TrapFrame) : Machine :=
  let (mem, esp) := saveFrame m f
  { m with heap := { m.heap with mem }, user := false, esp }

/-- The saved code segment is one of ring 3. -/
def fromRing3 (mem : Bytes) (esp : Nat) : Bool := load32 mem (esp + 48) % 4 = 3

/-- The bytes of a saved context up to the end of its `iret` frame. -/
def frameLen (mem : Bytes) (esp : Nat) : Nat := if fromRing3 mem esp then 64 else 56

/-- The end of `common_stub` after `mov esp, eax`: `iret` also takes a stack pointer
if it goes back to ring 3. -/
def Machine.resume (m : Machine) (esp : Nat) : Machine :=
  if fromRing3 m.heap.mem esp then { m with user := true, esp := load32 m.heap.mem (esp + 56) }
  else { m with user := false, esp := u32 (esp + 56) }

/-- The functions of the scheduler that raise `int $0x20`. -/
inductive SoftCall
  | start
  | yield
  | exit (code : Int)
deriving DecidableEq

def SoftCall.op (esp : Nat) : SoftCall → SchedOp
  | .start => .start esp
  | .yield => .yield esp
  | .exit code => .exit code esp

def SoftCall.run (s : Sched) (esp : Nat) : SoftCall → Option (Sched × Nat)
  | .start => schedulerStart s esp
  | .yield => taskYield s esp
  | .exit code => schedulerExit s code esp

/-- Whether the call gets as far as its interrupt. -/
def SoftCall.raises (s : Sched) : SoftCall → Bool
  | .start => s.activeTasks ≠ 0
  | .yield => s.schedulingEnabled ∧ ¬s.taskCount < 2
  | .exit _ => s.schedulingEnabled ∧ s.taskCount ≠ 0

/-- The stack pointer `enter_user_mode` pushes: `mov ax, 0x23` has replaced the low
half of `eax`. -/
def userEsp (userStack : Nat) : Nat := userStack - userStack % 65536 + 0x23

/-- What can happen to the machine. `execute` is any code that calls none of the
functions below: it moves its stack pointer and writes memory. -/
inductive MachineOp
  | execute (esp : Nat) (mem : Bytes)
  | trap (f : TrapFrame)
  | leave (timer : Bool) (esp : Nat)
  | call (c : SoftCall) (f : TrapFrame)
  | enterUserMode (entry userStack eflags : Nat)
  | add (entry : Nat)
  | wait (pid : Int)
  | malloc (n : Nat)
  | free (p : Nat)

def machineStep (m : Machine) : MachineOp → Option Machine
  | .execute esp mem => some { m with heap := { m.heap with mem }, esp }
  | .trap f => some (m.interrupt f)
  | .leave timer esp =>
    -- The handler is done, `esp` is back at the saved frame.
    (if timer then timerInterrupt m.sched esp else schedulerSwitchFromIsr m.sched esp).map fun (sched, esp) =>
      { m with sched }.resume esp
  | .call c f =>
    if c.raises m.sched then
      let m := m.interrupt f
      (c.run m.sched m.esp).map fun (sched, esp) => { m with sched }.resume esp
    else some m
  | .enterUserMode entry userStack eflags =>
    let words := [0x23, userEsp userStack, eflags ||| 0x200, 0x1B, entry]
    let mem := (words.foldl push (m.heap.mem, m.esp)).1
    some { m with heap := { m.heap with mem }, user := true, esp := userEsp userStack }
  | .add entry => (schedulerAdd m.heap m.sched entry).map fun (heap, sched, _) => { m with heap, sched }
  | .wait pid => (schedulerWait m.heap m.sched pid).map fun (heap, sched, _) => { m with heap, sched }
  | .malloc n =>
    (kmalloc m.heap n).map fun (heap, p) => { m with heap, others := if p = 0 then m.others else p :: m.others }
  | .free p => (kfree m.heap p).map fun heap => { m with heap, others := m.others.erase p }

/-- The `n` bytes from `a` lie on the stack a task got from `scheduler_add`. -/
def InBlock (t : Task) (a n : Nat) : Prop := t.stackBase ≤ a ∧ a + n ≤ t.stackBase + 4096

/-- They lie in the `depth` bytes below `esp0`. -/
def InTrapStack (depth a n : Nat) : Prop := kernelTss.esp0 - depth ≤ a ∧ a + n ≤ kernelTss.esp0

/-- The addresses at which the identity mapping of `paging_init` shows the bytes of the heap. -/
def HeapAlias (x : Nat) : Prop := kernelHeap.start - 0xC0000000 ≤ x ∧ x < kernelHeap.stop - 0xC0000000

/-- They lie below the heap, where the kernel was loaded with its first stack, and are no bytes
of the heap under other addresses. -/
def InBootStack (a n : Nat) : Prop :=
  a + n ≤ kernelHeap.start ∧ (a + n ≤ kernelHeap.start - 0xC0000000 ∨ kernelHeap.stop - 0xC0000000 ≤ a)

/-- They lie on the stack that the code in ring 0 is on. -/
def OnStack (depth : Nat) (m : Machine) (a n : Nat) : Prop :=
  (∃ i : Fin 4, m.sched.currentTask = i.val ∧ InBlock (m.sched.tasks i) m.esp 0 ∧ InBlock (m.sched.tasks i) a n) ∨
    (m.sched.currentTask = -1 ∧ InBootStack m.esp 0 ∧ InBootStack a n) ∨
    (InTrapStack depth m.esp 0 ∧ InTrapStack depth a n)

/-- Memory the running code may write: what is no part of the heap, under its own addresses
and those of the identity mapping, the blocks that are no stacks, and in ring 0 the stack it
is on. -/
def Writable (depth : Nat) (m : Machine) (x : Nat) : Prop :=
  ((x < kernelHeap.start ∨ kernelHeap.stop ≤ x) ∧ ¬ HeapAlias x) ∨ (∃ p ∈ m.others, p ≤ x ∧ x < p + roomAt m.heap p) ∨
    (m.user = false ∧ OnStack depth m x 1)

/-- What running code promises: it writes no memory of others, its frames fit on the
stack it is on, handlers return to a frame on theirs, and the functions of the kernel
are called in ring 0. -/
def MachineOp.Allowed (depth : Nat) (m : Machine) : MachineOp → Prop
  | .execute esp mem => (∀ x, mem x ≠ m.heap.mem x → Writable depth m x) ∧ (m.user = false → OnStack depth m esp 0)
  | .trap _ => m.user = false → 56 ≤ m.esp ∧ OnStack depth m (m.esp - 56) 56
  | .leave _ esp => m.user = false ∧ OnStack depth m esp (frameLen m.heap.mem esp)
  | .call c _ => m.user = false ∧ 56 ≤ m.esp ∧ OnStack depth m (m.esp - 56) 56 ∧
      (c = .start → m.sched.currentTask = -1)
  | .enterUserMode .. => m.user = false ∧ 20 ≤ m.esp ∧ OnStack depth m (m.esp - 20) 20
  | .add _ => m.user = false
  | .wait _ => m.user = false
  | .malloc _ => m.user = false
  | .free p => m.user = false ∧ p ∈ m.others

def MachineSteps (depth : Nat) (m : Machine) (op : MachineOp) (m' : Machine) : Prop :=
  op.Allowed depth m ∧ machineStep m op = some m'

/-- The machine after `heap_init`, `set_kernel_stack` and `scheduler_init`. -/
def Booted (m : Machine) : Prop :=
  ∃ mem s esp, InBootStack esp 0 ∧
    m = ⟨schedulerInit s, heapInit mem kernelHeap.start kernelHeap.size, [], false, esp⟩

/-- A task that waits for the processor. -/
def Suspended (s : Sched) (i : Fin 4) : Prop := (s.tasks i).state = .runnable ∧ s.currentTask ≠ i.val

/-- The bytes saved for a task. -/
def savedFrame (m : Machine) (i : Fin 4) : List UInt8 :=
  let esp := (m.sched.tasks i).irqEsp
  window m.heap.mem esp (frameLen m.heap.mem esp)

/-- The frame saved for a task is on its own stack. -/
def FrameAtHome (m : Machine) (i : Fin 4) : Prop :=
  let esp := (m.sched.tasks i).irqEsp
  InBlock (m.sched.tasks i) esp (frameLen m.heap.mem esp)

/-- A step that leaves the stack of `esp0` to one task at a time and the heap away
from it: an interrupt in ring 3 finds the saved frames of all other tasks on their own
stacks, and requests keep the top of the heap free. -/
def MachineOp.Careful (depth : Nat) (m : Machine) : MachineOp → Prop
  | .trap _ => m.user = true → ∀ i, Suspended m.sched i → FrameAtHome m i
  | .add _ => ∀ bs, Chain m.heap.mem 0 m.heap.heapHead bs → KeepsTopBy depth bs 4096
  | .malloc n => ∀ bs, Chain m.heap.mem 0 m.heap.heapHead bs → KeepsTopBy depth bs n
  | _ => True

/-- The steps of the runs in which every step is careful. -/
def CarefulSteps (depth : Nat) (m : Machine) (op : MachineOp) (m' : Machine) : Prop :=
  MachineSteps depth m op m' ∧ op.Careful depth m

end LearningOS
