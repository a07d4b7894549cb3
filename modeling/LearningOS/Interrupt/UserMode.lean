import LearningOS.Frames.Model
import LearningOS.Interrupt.Stubs

namespace LearningOS
open ByteStore X86

section
variable (arith : UInt32 → UInt32 → UInt32 → UInt32)

/-- `enter_user_mode` up to `push eax`; the arguments are above the return address. -/
def pushUserStack (c : Cpu) : Cpu :=
  let c := c.cli
  let c := { c with eax := c.word 2 }
  let c := { c with ebx := c.word 1 }
  let c := c.movAx 0x23
  let c := loadSegments c
  let c := c.push 0x23
  c.push c.eax

/-- The rest of it up to its `iret`. -/
def enterUserModeFrame (c : Cpu) : Cpu :=
  let c := pushUserStack c
  let c := c.pushfd
  let c := c.popEax
  let c := { c with eax := c.eax ||| 0x200, eflags := arith c.eflags c.eax 0x200 }
  let c := c.push c.eax
  let c := c.push 0x1B
  c.push c.ebx

def enterUserMode (c : Cpu) : Cpu := (enterUserModeFrame arith c).iret gdtDpl

/-- The flags that ring 3 starts with. -/
def userFlags (c : Cpu) : UInt32 := c.eflags &&& ~~~0x200 &&& 0x00FCFFFF ||| 0x200

/-- The five words before the `iret`, in push order: `user_stack` has lost its low
half. -/
def userFrame (c : Cpu) : List UInt32 :=
  [0x23, c.word 2 &&& 0xFFFF0000 ||| 0x23, userFlags c, 0x1B, c.word 1]

theorem pushUserStack_stack (c : Cpu) :
    (pushUserStack c).SameStack (c.pushAll [0x23, c.word 2 &&& 0xFFFF0000 ||| 0x23]) := by
  have start : (loadSegments ({ c.cli with eax := c.word 2, ebx := c.word 1 }.movAx 0x23)).SameStack c := ⟨rfl, rfl⟩
  exact (start.push 0x23).push (c.word 2 &&& 0xFFFF0000 ||| 0x23)

theorem pushUserStack_eflags (c : Cpu) : (pushUserStack c).eflags = c.eflags &&& ~~~0x200 := by
  simp only [pushUserStack, loadSegments, Cpu.movAx, Cpu.push, Cpu.cli]

theorem pushUserStack_ebx (c : Cpu) : (pushUserStack c).ebx = c.word 1 := by
  simp only [pushUserStack, loadSegments, Cpu.movAx, Cpu.push]
  rfl

theorem enterUserModeFrame_stack (c : Cpu) : (enterUserModeFrame arith c).SameStack (c.pushAll (userFrame c)) := by
  have pushes := (((pushUserStack_stack c).push (userFlags c)).push 0x1B).push (c.word 1)
  -- `pushfd` leaves its word where the new flags go
  have again (d : Cpu) (mem : d.mem = (pushUserStack c).pushfd.mem) (esp : d.esp = (pushUserStack c).esp) :
      (((d.push (userFlags c)).push 0x1B).push (c.word 1)).SameStack (c.pushAll (userFrame c)) :=
    (((Cpu.SameStack.overwrite mem esp _).push 0x1B).push (c.word 1)).trans pushes
  have frame := again
    { pushUserStack c with
      eax := userFlags c, mem := (pushUserStack c).pushfd.mem
      eflags := arith (pushUserStack c).eflags ((pushUserStack c).eflags &&& 0x00FCFFFF) 0x200 } rfl rfl
  simp only [enterUserModeFrame, Cpu.pushfd_popEax]
  simp only [Cpu.push, pushUserStack_eflags, pushUserStack_ebx, userFlags] at frame ⊢
  exact frame

theorem enterUserModeFrame_segments (c : Cpu) : (enterUserModeFrame arith c).cs = c.cs ∧
    ∀ sel ∈ [(enterUserModeFrame arith c).ds, (enterUserModeFrame arith c).es, (enterUserModeFrame arith c).fs,
      (enterUserModeFrame arith c).gs], sel = 0x23 := by
  refine ⟨rfl, fun sel member => ?_⟩
  have loaded : sel = (c.word 2 &&& 0xFFFF0000 ||| (0x23 : UInt16).toUInt32).toUInt16 := by
    simp only [List.mem_cons, List.not_mem_nil, or_false] at member
    rcases member with rfl | rfl | rfl | rfl <;> rfl
  exact loaded.trans (movAx_low (c.word 2) 0x23)

variable {arith} {c : Cpu}

theorem enterUserModeFrame_word {i : Nat} {w : UInt32} (atI : (userFrame c).reverse[i]? = some w) :
    (enterUserModeFrame arith c).word i = w := by
  rw [(enterUserModeFrame_stack arith c).word]
  exact c.word_pushAll (userFrame c) (show 5 ≤ 2 ^ 30 by decide) atI

/-- Ring 3 starts with what the frame has. -/
theorem enterUserMode_eq (ring : rpl c.cs = 0) : enterUserMode arith c =
    { enterUserModeFrame arith c with
      eip := c.word 1, cs := 0x1B, eflags := userFlags c, esp := c.word 2 &&& 0xFFFF0000 ||| 0x23, ss := 0x23 } := by
  obtain ⟨cs, segments⟩ := enterUserModeFrame_segments arith c
  have sel : ((enterUserModeFrame arith c).word 1).toUInt16 = 0x1B := by
    rw [enterUserModeFrame_word (w := 0x1B) rfl]
    rfl
  have stackSel : ((enterUserModeFrame arith c).word 4).toUInt16 = 0x23 := by
    rw [enterUserModeFrame_word (w := 0x23) rfl]
    rfl
  rw [enterUserMode, Cpu.iret_outer ?_ fun other member => ?_]
  · rw [sel, stackSel, enterUserModeFrame_word (i := 0) rfl, enterUserModeFrame_word (i := 2) rfl,
      enterUserModeFrame_word (i := 3) rfl]
  · rw [cs, ring, sel]
    decide
  · rw [segments other member, sel]
    decide

end

/-- The frame that ring 3 is to start from. -/
structure StartFrame (c : Cpu) (entry userStack : UInt32) : Prop where
  eip : c.word 0 = entry
  cs : c.word 1 = 0x1B
  interrupts : c.word 2 &&& 0x200 = 0x200
  esp : c.word 3 = userStack
  ss : c.word 4 = 0x23

/-- `mov ax, 0x23` keeps a stack pointer with one low half only. -/
theorem keptStack_iff (userStack : UInt32) :
    userStack &&& 0xFFFF0000 ||| 0x23 = userStack ↔ userStack.toNat % 2 ^ 16 = 0x23 := movAx_eq_iff userStack 0x23

theorem startFrame_iff (arith : UInt32 → UInt32 → UInt32 → UInt32) (c : Cpu) :
    StartFrame (enterUserModeFrame arith c) (c.word 1) (c.word 2) ↔ (c.word 2).toNat % 2 ^ 16 = 0x23 := by
  rw [← keptStack_iff]
  constructor
  · intro frame
    exact (enterUserModeFrame_word rfl).symm.trans frame.esp
  · intro same
    refine ⟨enterUserModeFrame_word rfl, enterUserModeFrame_word rfl, ?_, (enterUserModeFrame_word rfl).trans same,
      enterUserModeFrame_word rfl⟩
    rw [enterUserModeFrame_word (i := 2) rfl]
    exact or_and_self _ 0x200

/-- `init_task` up to `enter_user_mode`: the stack it passes, if it got a frame. -/
def initTask (s : Frames) : Frames × Option Nat :=
  let (s, stack) := frameAllocContiguous s 1
  (s, if stack = 0 then none else some (u32 (stack + 4096)))

theorem frameAllocContiguous_aligned (s : Frames) (n : Nat) : 4096 ∣ (frameAllocContiguous s n).2 := by
  unfold frameAllocContiguous
  split
  · exact Nat.dvd_zero 4096
  split
  · exact Nat.dvd_zero 4096
  split
  · unfold u32
    dsimp only
    omega
  · exact Nat.dvd_zero 4096

theorem initTask_aligned {s : Frames} {userStack : Nat} (got : (initTask s).2 = some userStack) : 4096 ∣ userStack := by
  have aligned := frameAllocContiguous_aligned s 1
  simp only [initTask] at got
  split at got
  · simp at got
  · injection got with top
    rw [← top]
    unfold u32
    omega

/-- `enter_user_mode` starts ring 3 on the stack it was given exactly if the low half of
that address is the data segment, and `init_task` never gives it such an address. -/
theorem user_stack_kept_iff (arith : UInt32 → UInt32 → UInt32 → UInt32) {c : Cpu} (ring : rpl c.cs = 0) :
    (StartFrame (enterUserModeFrame arith c) (c.word 1) (c.word 2) ∧ (enterUserMode arith c).esp = c.word 2 ↔
      (c.word 2).toNat % 2 ^ 16 = 0x23) ∧
    ∀ s, (initTask s).2 = some (c.word 2).toNat →
      ¬StartFrame (enterUserModeFrame arith c) (c.word 1) (c.word 2) ∧ (enterUserMode arith c).esp ≠ c.word 2 := by
  have low := startFrame_iff arith c
  have esp : (enterUserMode arith c).esp = c.word 2 ↔ (c.word 2).toNat % 2 ^ 16 = 0x23 := by
    rw [enterUserMode_eq ring]
    exact keptStack_iff (c.word 2)
  refine ⟨⟨fun started => low.mp started.1, fun half => ⟨low.mpr half, esp.mpr half⟩⟩, fun s got => ?_⟩
  have aligned := initTask_aligned got
  have other : ¬(c.word 2).toNat % 2 ^ 16 = 0x23 := by omega
  exact ⟨fun frame => other (low.mp frame), fun same => other (esp.mp same)⟩

/-- A call of `enter_user_mode` for the entry 0x1000. -/
def callingUserMode (userStack : UInt32) : Cpu :=
  Cpu.pushAll { userCode.cpu with cs := 0x08, ds := 0x10, ss := 0x10 } [userStack, 0x1000, 0x100000]

theorem callingUserMode_word (userStack : UInt32) : (callingUserMode userStack).word 2 = userStack :=
  Cpu.word_pushAll _ [userStack, 0x1000, 0x100000] (show 3 ≤ 2 ^ 30 by decide) rfl

/-- A bitmap for 128 MiB behind a kernel that ends at 0x140000; all up to its end is in
use. -/
def bootedFrames : Frames :=
  { frameBitmap := 0x140000, totalFrames := 0x8000, usedFrames := 0x141, bitmapWords := 0x400, placementAddr := 0x141000
    words := fun i => if i < 10 then BitVec.allOnes 32 else if i = 10 then 1 else 0 }

theorem user_stack_kept_segment :
    StartFrame (enterUserModeFrame (fun flags _ _ => flags) (callingUserMode 0x23)) 0x1000 0x23 ∧
      (enterUserMode (fun flags _ _ => flags) (callingUserMode 0x142000)).esp ≠ 0x142000 := by
  have kept := user_stack_kept_iff (fun flags _ _ => flags) (c := callingUserMode 0x23) rfl
  have lost := user_stack_kept_iff (fun flags _ _ => flags) (c := callingUserMode 0x142000) rfl
  rw [callingUserMode_word] at kept lost
  exact ⟨(kept.1.mpr (by decide)).1, (lost.2 bootedFrames (by decide +kernel)).2⟩

/-- The frame at 0x141000 is got, and ring 3 starts in the bitmap below it. -/
theorem user_stack_lost :
    (initTask bootedFrames).2 = some 0x142000 ∧ (callingUserMode 0x142000).word 2 = 0x142000 ∧
      ¬StartFrame (enterUserModeFrame (fun flags _ _ => flags) (callingUserMode 0x142000)) 0x1000 0x142000 ∧
      (enterUserMode (fun flags _ _ => flags) (callingUserMode 0x142000)).esp = 0x140023 := by
  have frame := startFrame_iff (fun flags _ _ => flags) (callingUserMode 0x142000)
  rw [callingUserMode_word] at frame
  refine ⟨by decide +kernel, callingUserMode_word _, fun started => absurd (frame.mp started) (by decide), ?_⟩
  rw [enterUserMode_eq rfl, callingUserMode_word]
  rfl

end LearningOS
