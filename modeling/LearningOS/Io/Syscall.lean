import LearningOS.Io.Queues
import LearningOS.Proc.Reach

namespace LearningOS
open ByteStore RingBuffer

/-- An access of a system call to the memory of the program that made it. -/
inductive Access
  | read (a : Nat)
  | write (a : Nat)
deriving DecidableEq

/-- What a system call prints: a character, or one of its two messages. -/
inductive Printed
  | character (c : UInt8)
  | userExit (code : Int)
  | unknownSyscall (num : UInt32)

/-- The state a system call works on. The accesses to user memory are recorded, and
`keys` holds the results the next calls of `keyboard_getchar` give. -/
structure UserMachine where
  mem : Bytes
  accesses : List Access
  ipc : Ipc
  sched : Sched
  keys : List Int
  printed : List Printed

/-- The registers of a `struct registers` that `syscall_handler` uses. -/
structure Registers where
  eax : UInt32
  ebx : UInt32
  ecx : UInt32
  edx : UInt32

namespace UserMachine

def poke (k : UserMachine) (a : UInt32) (b : UInt8) : UserMachine :=
  { k with mem := store k.mem a.toNat b, accesses := k.accesses ++ [.write a.toNat] }

def peek (k : UserMachine) (a : UInt32) : UserMachine × UInt8 :=
  ({ k with accesses := k.accesses ++ [.read a.toNat] }, k.mem a.toNat)

def print (k : UserMachine) (p : Printed) : UserMachine := { k with printed := k.printed ++ [p] }

/-- A store of a 32-bit word, low byte first. -/
def poke32 (k : UserMachine) (a : UInt32) (v : UInt32) : UserMachine :=
  (((k.poke a v.toUInt8).poke (a + 1) (v >>> 8).toUInt8).poke (a + 2) (v >>> 16).toUInt8).poke (a + 3)
    (v >>> 24).toUInt8

end UserMachine

def syscallRead : UInt32 := 0
def syscallWrite : UInt32 := 1
def syscallOpen : UInt32 := 2
def syscallExit : UInt32 := 3
def syscallIpcSend : UInt32 := 4
def syscallIpcRecv : UInt32 := 5

def userPtrOk (ptr size : UInt32) : Bool :=
  if ptr = 0 ∨ size = 0 then false
  else if ptr + size < ptr then false
  else if 0xC0000000 ≤ ptr ∨ 0xC0000000 ≤ ptr + size then false
  else true

/-- The loop of `sys_read` over the results of `keyboard_getchar`; without a result
it waits when they run out. -/
def sysReadLoop (buf size : UInt32) (k : UserMachine) (read : UInt32) : List Int → UserMachine × Option UInt32
  | [] => ({ k with keys := [] }, if read < size then none else some read)
  | c :: keys =>
    if ¬read < size then ({ k with keys := c :: keys }, some read)
    else if c < 0 then sysReadLoop buf size k read keys
    else if c = 10 then ({ k.poke (buf + read) (UInt8.ofNat c.toNat) with keys := keys }, some (read + 1))
    else sysReadLoop buf size (k.poke (buf + read) (UInt8.ofNat c.toNat)) (read + 1) keys

def sysRead (k : UserMachine) (fd buf size : UInt32) : UserMachine × Option UInt32 :=
  if fd ≠ 0 ∨ userPtrOk buf size = false then (k, some (-1)) else sysReadLoop buf size k 0 k.keys

/-- One round of the loop of `sys_write`. -/
def putByte (buf : UInt32) (k : UserMachine) (i : Nat) : UserMachine :=
  (k.peek (buf + UInt32.ofNat i)).1.print (.character (k.peek (buf + UInt32.ofNat i)).2)

def sysWrite (k : UserMachine) (fd buf size : UInt32) : UserMachine × UInt32 :=
  if fd ≠ 1 ∧ fd ≠ 2 then (k, -1)
  else if userPtrOk buf size = false then (k, -1)
  else ((List.range size.toNat).foldl (putByte buf) k, size)

/-- Both branches of `sys_open` fail. -/
def sysOpen (path : UInt32) : UInt32 := if userPtrOk path 1 = false then -1 else -1

/-- `sys_exit`; an enabled scheduler never comes back to the handler. -/
def sysExit (k : UserMachine) (code : Int) (esp : Nat) : Option (UserMachine × Option UInt32) :=
  (schedulerExit k.sched code esp).map fun (sched, _) =>
    ({ k.print (.userExit code) with sched := sched },
      if !k.sched.schedulingEnabled ∨ k.sched.taskCount = 0 then some 0 else none)

/-- The case of `SYSCALL_IPC_RECV`; its local `msg` starts as 0. -/
def sysIpcRecv (k : UserMachine) (ptr : UInt32) : UserMachine × UInt32 :=
  if userPtrOk ptr 4 = false then (k, -1)
  else
    let (ipc, r, msg) := ipcRecv k.ipc true
    (if r = 0 then { k with ipc := ipc }.poke32 ptr (msg.getD 0) else { k with ipc := ipc }, UInt32.ofInt r)

/-- `syscall_handler`: the machine and the `eax` it returns, if it returns; `esp` is
the stack pointer of the handler. The outer `none` is an access outside `tasks`. -/
def syscallHandler (k : UserMachine) (regs : Registers) (esp : Nat) : Option (UserMachine × Option UInt32) :=
  if regs.eax = syscallRead then some (sysRead k regs.ebx regs.ecx regs.edx)
  else if regs.eax = syscallWrite then some ((sysWrite k regs.ebx regs.ecx regs.edx).map id some)
  else if regs.eax = syscallOpen then some (k, some (sysOpen regs.ebx))
  else if regs.eax = syscallExit then sysExit k regs.ebx.toInt32.toInt esp
  else if regs.eax = syscallIpcSend then
    some ({ k with ipc := (ipcSend k.ipc regs.ebx).1 }, some (UInt32.ofInt (ipcSend k.ipc regs.ebx).2))
  else if regs.eax = syscallIpcRecv then some ((sysIpcRecv k regs.ebx).map id some)
  else some (k.print (.unknownSyscall regs.eax), some (-1))

/-- An address of a buffer below the kernel's half of memory that is not at 0. -/
def Within (base : UInt32) (size a : Nat) : Prop :=
  0 < base.toNat ∧ base.toNat ≤ a ∧ a < base.toNat + size ∧ base.toNat + size < 0xC0000000

/-- The accesses between two states of the machine, of which only the writes change
the memory. -/
structure UserEffect (k k' : UserMachine) (new : List Access) : Prop where
  accesses : k'.accesses = k.accesses ++ new
  mem : ∀ x, .write x ∉ new → k'.mem x = k.mem x

namespace UserEffect
variable {k k₁ k₂ : UserMachine} {new more : List Access}

theorem none (accesses : k₁.accesses = k.accesses) (mem : k₁.mem = k.mem) : UserEffect k k₁ [] :=
  ⟨by rw [accesses, List.append_nil], fun x _ => congrFun mem x⟩

theorem trans (first : UserEffect k k₁ new) (second : UserEffect k₁ k₂ more) : UserEffect k k₂ (new ++ more) where
  accesses := by rw [second.accesses, first.accesses, List.append_assoc]
  mem := by
    intro x apart
    rw [List.mem_append, not_or] at apart
    rw [second.mem x apart.2, first.mem x apart.1]

theorem poke (k : UserMachine) (a : UInt32) (b : UInt8) : UserEffect k (k.poke a b) [.write a.toNat] where
  accesses := rfl
  mem := by
    intro x apart
    exact store_of_ne fun same => apart (by rw [same]; exact List.mem_singleton_self _)

theorem poke32 (k : UserMachine) (a v : UInt32) :
    UserEffect k (k.poke32 a v) [.write a.toNat, .write (a + 1).toNat, .write (a + 2).toNat, .write (a + 3).toNat] :=
  (((poke k a _).trans (poke _ (a + 1) _)).trans (poke _ (a + 2) _)).trans (poke _ (a + 3) _)

theorem putByte (buf : UInt32) (k : UserMachine) (i : Nat) :
    UserEffect k (putByte buf k i) [.read (buf + UInt32.ofNat i).toNat] := ⟨rfl, fun _ _ => rfl⟩

end UserEffect

theorem offset_toNat {ptr i : UInt32} (fits : ptr.toNat + i.toNat < 2 ^ 32) : (ptr + i).toNat = ptr.toNat + i.toNat := by
  rw [UInt32.toNat_add, Nat.mod_eq_of_lt fits]

/-- The check accepts exactly the nonempty buffers that start above 0 and end below
the kernel's half. -/
theorem userPtrOk_iff (ptr size : UInt32) :
    userPtrOk ptr size = true ↔ 0 < ptr.toNat ∧ 0 < size.toNat ∧ ptr.toNat + size.toNat < 0xC0000000 := by
  have ptrLt := ptr.toNat_lt
  have sizeLt := size.toNat_lt
  have sum : (ptr + size).toNat = (ptr.toNat + size.toNat) % 2 ^ 32 := UInt32.toNat_add ..
  have ptrZero : ptr = 0 ↔ ptr.toNat = 0 := UInt32.toNat_inj.symm
  have sizeZero : size = 0 ↔ size.toNat = 0 := UInt32.toNat_inj.symm
  have high : (0xC0000000 : UInt32).toNat = 0xC0000000 := rfl
  unfold userPtrOk
  simp only [ptrZero, sizeZero, UInt32.lt_iff_toNat_lt, UInt32.le_iff_toNat_le, sum, high]
  split
  · simp
    omega
  · split
    · simp
      omega
    · split
      · simp
        omega
      · simp
        omega

/-- The loop of `sys_read` writes the bytes of the buffer one after the other, up to
the number it returns, and waits only for want of characters. -/
theorem sysReadLoop_effect {buf size : UInt32} (fits : buf.toNat + size.toNat < 2 ^ 32) (keys : List Int)
    (k : UserMachine) {read : UInt32} (le : read.toNat ≤ size.toNat) :
    ∃ n, UserEffect k (sysReadLoop buf size k read keys).1
        ((List.range' read.toNat n).map fun i => .write (buf.toNat + i)) ∧
      read.toNat + n ≤ size.toNat ∧ (sysReadLoop buf size k read keys).1.ipc = k.ipc ∧
      (∀ eax, (sysReadLoop buf size k read keys).2 = some eax → eax.toNat = read.toNat + n) ∧
      ((sysReadLoop buf size k read keys).2 = none → read.toNat + (keys.filter (0 ≤ ·)).length < size.toNat) := by
  have sizeLt := size.toNat_lt
  induction keys generalizing k read with
  | nil =>
    refine ⟨0, UserEffect.none rfl rfl, le, rfl, fun eax returned => ?_, fun waits => ?_⟩
    · unfold sysReadLoop at returned
      split at returned
      · simp at returned
      · exact congrArg UInt32.toNat (Option.some.inj returned).symm
    · unfold sysReadLoop at waits
      split at waits
      · rename_i less
        simpa using UInt32.lt_iff_toNat_lt.mp less
      · simp at waits
  | cons c keys ih =>
    unfold sysReadLoop
    split
    · exact ⟨0, UserEffect.none rfl rfl, le, rfl, fun eax returned => congrArg UInt32.toNat (Option.some.inj returned).symm,
        fun waits => by simp at waits⟩
    · rename_i more
      have less := UInt32.lt_iff_toNat_lt.mp (not_not.mp more)
      have next : (read + 1).toNat = read.toNat + 1 := offset_toNat (i := 1) (by change read.toNat + 1 < _; omega)
      have here := UserEffect.poke k (buf + read) (UInt8.ofNat c.toNat)
      rw [offset_toNat (by omega)] at here
      split
      · rename_i negative
        obtain ⟨n, effect, inside, ipc, returns, waits⟩ := ih k le
        refine ⟨n, effect, inside, ipc, returns, fun none => ?_⟩
        rw [List.filter_cons_of_neg (by simpa using negative)]
        exact waits none
      · rename_i positive
        split
        · refine ⟨1, ⟨here.accesses, here.mem⟩, less, rfl, fun eax returned => ?_, fun waits => by simp at waits⟩
          rw [← Option.some.inj returned, next]
        · have reached : (read + 1).toNat ≤ size.toNat := by omega
          obtain ⟨n, effect, inside, ipc, returns, waits⟩ :=
            ih (k.poke (buf + read) (UInt8.ofNat c.toNat)) reached
          rw [next] at effect inside returns waits
          refine ⟨n + 1, ?_, by omega, ipc, fun eax returned => ?_, fun none => ?_⟩
          · rw [List.range'_succ, List.map_cons]
            exact here.trans effect
          · have total := returns eax returned
            omega
          · have short := waits none
            rw [List.filter_cons_of_pos (by simpa using positive), List.length_cons]
            omega

/-- The loop of `sys_write` reads the buffer and changes nothing of the program. -/
theorem foldl_putByte_effect {buf : UInt32} {k : UserMachine} {n : Nat} (fits : buf.toNat + n < 2 ^ 32) :
    UserEffect k ((List.range n).foldl (putByte buf) k) ((List.range n).map fun i => .read (buf.toNat + i)) ∧
      ((List.range n).foldl (putByte buf) k).ipc = k.ipc := by
  induction n with
  | zero => exact ⟨UserEffect.none rfl rfl, rfl⟩
  | succ n ih =>
    obtain ⟨before, ipc⟩ := ih (by omega)
    have small : (UInt32.ofNat n).toNat = n := UInt32.toNat_ofNat_of_lt (by change n < 2 ^ 32; omega)
    have here := UserEffect.putByte buf ((List.range n).foldl (putByte buf) k) n
    rw [offset_toNat (by omega), small] at here
    rw [List.range_succ, List.foldl_append, List.map_append]
    exact ⟨before.trans here, ipc⟩

/-- A call touches the memory of the program only in the buffer it declares: READ
writes the bytes it returns the number of, WRITE reads, IPC_RECV writes a word, and a
call that returns -1 writes nothing and leaves the message queue as it was. -/
structure SyscallFrame (k : UserMachine) (regs : Registers) (k' : UserMachine) (eax : Option UInt32)
    (new : List Access) : Prop extends UserEffect k k' new where
  writes : ∀ a, .write a ∈ new → (regs.eax = syscallRead ∧ Within regs.ecx regs.edx.toNat a) ∨
    (regs.eax = syscallIpcRecv ∧ Within regs.ebx 4 a)
  reads : ∀ a, .read a ∈ new → regs.eax = syscallWrite ∧ Within regs.ecx regs.edx.toNat a
  count : regs.eax = syscallRead → ∀ n, eax = some n → n ≠ -1 →
    new = (List.range n.toNat).map fun i => .write (regs.ecx.toNat + i)
  failed : eax = some (-1) → (∀ a, .write a ∉ new) ∧ k'.ipc = k.ipc
  waits : eax = none → regs.eax = syscallExit ∨
    regs.eax = syscallRead ∧ (k.keys.filter (0 ≤ ·)).length < regs.edx.toNat

namespace SyscallFrame
variable {k k' : UserMachine} {regs : Registers} {eax : UInt32}

/-- A call that leaves user memory alone. -/
theorem none (accesses : k'.accesses = k.accesses) (mem : k'.mem = k.mem)
    (number : regs.eax = syscallRead → eax = -1) (failed : eax = -1 → k'.ipc = k.ipc) :
    SyscallFrame k regs k' (some eax) [] where
  toUserEffect := UserEffect.none accesses mem
  writes := by simp
  reads := by simp
  count := fun call n returned ok => absurd ((Option.some.inj returned).symm.trans (number call)) ok
  failed := fun returned => ⟨by simp, failed (Option.some.inj returned)⟩
  waits := by simp

theorem sysRead (call : regs.eax = syscallRead) : ∃ new, SyscallFrame k regs (sysRead k regs.ebx regs.ecx regs.edx).1
    (sysRead k regs.ebx regs.ecx regs.edx).2 new := by
  unfold LearningOS.sysRead
  split
  · exact ⟨[], none rfl rfl (fun _ => rfl) fun _ => rfl⟩
  · rename_i ok
    obtain ⟨ptr, size, below⟩ := (userPtrOk_iff _ _).mp (Bool.eq_true_of_not_eq_false (not_or.mp ok).2)
    have fits : regs.ecx.toNat + regs.edx.toNat < 2 ^ 32 := by omega
    have start : (0 : UInt32).toNat ≤ regs.edx.toNat := Nat.zero_le _
    obtain ⟨n, effect, inside, ipc, returns, waits⟩ := sysReadLoop_effect fits k.keys k start
    have zero : (0 : UInt32).toNat = 0 := rfl
    rw [zero] at effect inside returns waits
    exact ⟨_, {
      toUserEffect := effect
      writes := by
        intro a member
        obtain ⟨i, range, same⟩ := List.mem_map.mp member
        have bounds := List.mem_range'_1.mp range
        cases same
        exact Or.inl ⟨call, ptr, by omega, by omega, below⟩
      reads := by simp
      count := by
        intro _ m returned _
        rw [returns m returned, Nat.zero_add, List.range_eq_range']
      failed := by
        intro returned
        have total := returns _ returned
        have big : (-1 : UInt32).toNat = 2 ^ 32 - 1 := rfl
        omega
      waits := fun blocked => Or.inr ⟨call, by simpa using waits blocked⟩ }⟩

theorem sysWrite (call : regs.eax = syscallWrite) : ∃ new, SyscallFrame k regs (sysWrite k regs.ebx regs.ecx regs.edx).1
    (some (sysWrite k regs.ebx regs.ecx regs.edx).2) new := by
  have other : regs.eax ≠ syscallRead := by
    rw [call]
    decide
  unfold LearningOS.sysWrite
  split
  · exact ⟨[], none rfl rfl (fun read => absurd read other) fun _ => rfl⟩
  · split
    · exact ⟨[], none rfl rfl (fun read => absurd read other) fun _ => rfl⟩
    · rename_i ok
      obtain ⟨ptr, size, below⟩ := (userPtrOk_iff _ _).mp (Bool.eq_true_of_not_eq_false ok)
      have fits : regs.ecx.toNat + regs.edx.toNat < 2 ^ 32 := by omega
      obtain ⟨effect, ipc⟩ := foldl_putByte_effect (k := k) fits
      exact ⟨_, {
        toUserEffect := effect
        writes := by simp
        reads := by
          intro a member
          obtain ⟨i, range, same⟩ := List.mem_map.mp member
          have bound := List.mem_range.mp range
          cases same
          exact ⟨call, ptr, by omega, by omega, below⟩
        count := fun read => absurd read other
        failed := fun _ => ⟨by simp, ipc⟩
        waits := by simp }⟩

theorem sysIpcRecv (call : regs.eax = syscallIpcRecv) : ∃ new, SyscallFrame k regs (sysIpcRecv k regs.ebx).1
    (some (sysIpcRecv k regs.ebx).2) new := by
  have other : regs.eax ≠ syscallRead := by
    rw [call]
    decide
  unfold LearningOS.sysIpcRecv
  split
  · exact ⟨[], none rfl rfl (fun read => absurd read other) fun _ => rfl⟩
  · rename_i ok
    obtain ⟨ptr, size, below⟩ := (userPtrOk_iff _ _).mp (Bool.eq_true_of_not_eq_false ok)
    have four : (4 : UInt32).toNat = 4 := rfl
    rw [four] at below
    by_cases empty : k.ipc.head = k.ipc.tail
    · have nothing : ipcRecv k.ipc true = (k.ipc, -1, Option.none) := if_pos (Or.inr empty)
      rw [nothing]
      exact ⟨[], none rfl rfl (fun read => absurd read other) fun _ => rfl⟩
    · have taken : ipcRecv k.ipc true = (k.ipc.drop, 0, some k.ipc.front) := if_neg (by simpa using empty)
      rw [taken]
      have effect := UserEffect.poke32 { k with ipc := k.ipc.drop } regs.ebx k.ipc.front
      rw [offset_toNat (i := 1) (by change _ + 1 < _; omega), offset_toNat (i := 2) (by change _ + 2 < _; omega),
        offset_toNat (i := 3) (by change _ + 3 < _; omega)] at effect
      exact ⟨_, {
        toUserEffect := ⟨effect.accesses, effect.mem⟩
        writes := by
          intro a member
          refine Or.inr ⟨call, ptr, ?_⟩
          simp only [List.mem_cons, Access.write.injEq, List.not_mem_nil, or_false] at member
          rcases member with rfl | rfl | rfl | rfl
          · omega
          · change _ ≤ _ + 1 ∧ _ + 1 < _ ∧ _
            omega
          · change _ ≤ _ + 2 ∧ _ + 2 < _ ∧ _
            omega
          · change _ ≤ _ + 3 ∧ _ + 3 < _ ∧ _
            omega
        reads := by simp
        count := fun read => absurd read other
        failed := fun returned => absurd (show UInt32.ofInt 0 = -1 from Option.some.inj returned) (by decide)
        waits := by simp }⟩

end SyscallFrame

/-- System calls touch only the buffer their caller declares, below 0xC0000000, for
every contents of the registers, memory, message queue and keyboard. -/
theorem syscall_touches_declared_buffer {k : UserMachine} (scheduler : SchedReach k.sched) (regs : Registers)
    (esp : Nat) : ∃ k' eax new, syscallHandler k regs esp = some (k', eax) ∧ SyscallFrame k regs k' eax new := by
  unfold syscallHandler
  split
  · rename_i call
    obtain ⟨new, frame⟩ := SyscallFrame.sysRead (k := k) call
    exact ⟨_, _, new, rfl, frame⟩
  rename_i notRead
  split
  · rename_i call
    obtain ⟨new, frame⟩ := SyscallFrame.sysWrite (k := k) call
    exact ⟨_, _, new, rfl, frame⟩
  split
  · exact ⟨_, _, [], rfl, .none rfl rfl (fun read => absurd read notRead) fun _ => rfl⟩
  split
  · rename_i call
    obtain ⟨s', esp', exits, _⟩ := scheduler.inv.exit regs.ebx.toInt32.toInt esp
    unfold sysExit
    rw [exits]
    refine ⟨_, _, [], rfl, ?_⟩
    split
    · exact .none rfl rfl (fun read => absurd read notRead) fun _ => rfl
    · exact {
        toUserEffect := UserEffect.none rfl rfl
        writes := by simp
        reads := by simp
        count := fun read => absurd read notRead
        failed := by simp
        waits := fun _ => Or.inl call }
  split
  · refine ⟨_, _, [], rfl, .none rfl rfl (fun read => absurd read notRead) fun failed => ?_⟩
    unfold ipcSend at failed ⊢
    split
    · rfl
    · rename_i room
      rw [if_neg room] at failed
      exact absurd (show UInt32.ofInt 0 = -1 from failed) (by decide)
  split
  · rename_i call
    obtain ⟨new, frame⟩ := SyscallFrame.sysIpcRecv (k := k) call
    exact ⟨_, _, new, rfl, frame⟩
  · exact ⟨_, _, [], rfl, .none rfl rfl (fun read => absurd read notRead) fun _ => rfl⟩

/-- A receive with a pointer into the kernel's half fails and keeps the message. -/
theorem syscall_touches_declared_buffer_kernel_pointer :
    ∃ k : UserMachine, SchedReach k.sched ∧ k.ipc.contents = [7] ∧ ∃ k' new,
      syscallHandler k ⟨5, 0xC0000000, 0, 0⟩ 0 = some (k', some (-1)) ∧ k'.ipc = k.ipc ∧
        SyscallFrame k ⟨5, 0xC0000000, 0, 0⟩ k' (some (-1)) new := by
  have scheduler := SchedReach.init ⟨fun _ => ⟨0, 0, 0, 0, .unused⟩, 0, -1, 0, false, false, 0, 1, 0⟩
  have contents : (⟨fun _ => 0, 0, 0⟩ : Ipc).contents = [] := (Ring.empty_iff _).mp rfl
  have pending : ((⟨fun _ => 0, 0, 0⟩ : Ipc).put 7).contents = [7] := by
    rw [Ring.contents_put (by decide), contents]
    rfl
  obtain ⟨k', eax, new, run, frame⟩ := syscall_touches_declared_buffer
    (k := ⟨fun _ => 0, [], (⟨fun _ => 0, 0, 0⟩ : Ipc).put 7, _, [], []⟩) scheduler ⟨5, 0xC0000000, 0, 0⟩ 0
  have failed : eax = some (-1) := congrArg Prod.snd (Option.some.inj run).symm
  rw [failed] at run frame
  exact ⟨_, scheduler, pending, k', new, run, (frame.failed rfl).2, frame⟩

end LearningOS
