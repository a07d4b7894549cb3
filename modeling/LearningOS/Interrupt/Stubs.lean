import LearningOS.Interrupt.Machine
import LearningOS.X86.Cpu

namespace LearningOS
open ByteStore X86

/-- The access bytes of the descriptors that `init_gdt` sets. -/
def gdtAccess : List Nat := [0, 0x9A, 0x92, 0xFA, 0xF2, 0x89]

/-- The privilege level of a segment; every ring may hold a null selector. -/
def gdtDpl (sel : UInt16) : Nat :=
  if sel.toNat / 8 = 0 then 3 else gdtAccess.getD (sel.toNat / 8) 0 / 32 % 4

/-- `mov ds, ax` and the same for `es`, `fs` and `gs`. -/
def loadSegments (c : Cpu) : Cpu :=
  { c with ds := c.eax.toUInt16, es := c.eax.toUInt16, fs := c.eax.toUInt16, gs := c.eax.toUInt16 }

/-- `common_stub` up to the call of `irq_handler`. -/
def commonStub (c : Cpu) : Cpu :=
  let c := c.pusha
  let c := c.movAx c.ds
  let c := c.push c.eax
  let c := c.movAx 0x10
  loadSegments c

/-- `common_stub` after `mov esp, eax`. `arith` is what an addition leaves in the
flags, from those before it and its operands. -/
def commonStubEnd (arith : UInt32 → UInt32 → UInt32 → UInt32) (c : Cpu) : Cpu :=
  let c := c.popEax
  let c := loadSegments c
  let c := c.popa
  let c := { c with esp := c.esp + 8, eflags := arith c.eflags c.esp 8 }
  let c := c.sti
  c.iret gdtDpl

/-- The stubs of `interrupt.s`, by the macro and the numbers it is used with. -/
inductive Stub
  | isrNoErrCode (n : UInt32)
  | isrErrCode (n : UInt32)
  | irq (i n : UInt32)

namespace Stub

def run : Stub → Cpu → Cpu
  | .isrNoErrCode n, c => commonStub ((c.cli.push 0).push n)
  | .isrErrCode n, c => commonStub (c.cli.push n)
  | .irq _ n, c => commonStub ((c.cli.push 0).push n)

def intNo : Stub → UInt32
  | .isrNoErrCode n => n
  | .isrErrCode n => n
  | .irq _ n => n

/-- The error code that the processor pushes for this stub, if it pushes one. -/
def pushed (error : UInt32) : Stub → Option UInt32
  | .isrErrCode _ => some error
  | _ => none

/-- An interrupt up to the call of `irq_handler`. -/
def save (stub : Stub) (tss : TaskSegment) (handler error : UInt32) (c : Cpu) : Cpu :=
  stub.run (c.interrupt tss 0x08 handler (stub.pushed error))

end Stub

/-- The `struct registers` at an address. -/
def registersAt (m : Bytes) (p : Nat) : TrapFrame :=
  let field (offset : Nat) := load32 m (u32 (p + offset))
  { ds := field 0, edi := field 4, esi := field 8, ebp := field 12, esp := field 16, ebx := field 20, edx := field 24
    ecx := field 28, eax := field 32, intNo := field 36, errCode := field 40, eip := field 44, cs := field 48
    eflags := field 52, useresp := field 56, ss := field 60 }

section
variable (arith : UInt32 → UInt32 → UInt32 → UInt32) {c : Cpu}

/-- The registers that `common_stub` takes from the stack, up to its `iret`. -/
def popFrame (c : Cpu) (flags : UInt32) : Cpu :=
  { c with
    edi := c.word 1, esi := c.word 2, ebp := c.word 3, ebx := c.word 5, edx := c.word 6, ecx := c.word 7
    eax := c.word 8, esp := c.esp + 44, eflags := flags
    ds := (c.word 0).toUInt16, es := (c.word 0).toUInt16, fs := (c.word 0).toUInt16, gs := (c.word 0).toUInt16 }

theorem commonStubEnd_eq (c : Cpu) : ∃ flags, commonStubEnd arith c = (popFrame c flags).iret gdtDpl := by
  have rest (i : Nat) : (loadSegments c.popEax).word i = c.word (1 + i) :=
    Cpu.word_skip (c := c) (d := loadSegments c.popEax) 1 rfl rfl i
  have esp : c.esp + 4 + 32 + 8 = c.esp + 44 := by
    rw [UInt32.add_assoc, UInt32.add_assoc]
    rfl
  refine ⟨arith c.eflags (c.esp + 4 + 32) 8 ||| 0x200, ?_⟩
  simp only [commonStubEnd, Cpu.popa, rest, popFrame, ← esp]
  rfl

theorem popFrame_word (c : Cpu) (flags : UInt32) (i : Nat) : (popFrame c flags).word i = c.word (11 + i) :=
  Cpu.word_skip (c := c) (d := popFrame c flags) 11 rfl rfl i

/-- A return inside ring 0 takes fourteen words. -/
theorem commonStubEnd_same (inside : rpl (c.word 12).toUInt16 ≤ rpl c.cs) :
    commonStubEnd arith c = { popFrame c (c.word 13) with
      eip := c.word 11, cs := (c.word 12).toUInt16, esp := c.esp + 56 } := by
  obtain ⟨flags, run⟩ := commonStubEnd_eq arith c
  have words := popFrame_word c flags
  have esp : (popFrame c flags).esp + 12 = c.esp + 56 := UInt32.add_assoc c.esp 44 12
  rw [run, Cpu.iret_same (by rw [words]; exact inside), words, words, words, esp]
  rfl

/-- A return to an outer ring takes sixteen, and keeps a segment that ring may use. -/
theorem commonStubEnd_outer (outer : rpl c.cs < rpl (c.word 12).toUInt16)
    (allowed : rpl (c.word 12).toUInt16 ≤ gdtDpl (c.word 0).toUInt16) :
    commonStubEnd arith c = { popFrame c (c.word 13) with
      eip := c.word 11, cs := (c.word 12).toUInt16, esp := c.word 14, ss := (c.word 15).toUInt16 } := by
  obtain ⟨flags, run⟩ := commonStubEnd_eq arith c
  have words := popFrame_word c flags
  have segments (sel : UInt16) (member : sel ∈ [(popFrame c flags).ds, (popFrame c flags).es, (popFrame c flags).fs,
      (popFrame c flags).gs]) : sel = (c.word 0).toUInt16 := by
    simpa [popFrame] using member
  rw [run, Cpu.iret_outer (by rw [words]; exact outer) fun sel member => ?_]
  · rw [words, words, words, words, words]
    rfl
  · rw [segments sel member, words]
    exact allowed

end

namespace Stub
variable (stub : Stub) (tss : TaskSegment) (handler error : UInt32) (c : Cpu)

/-- The error code in the frame. -/
def errCode : UInt32 := (stub.pushed error).getD 0

/-- The stack an interrupt uses, and what a change of rings leaves on it. -/
def entered : Cpu :=
  if rpl c.cs = 0 then c else { c with ss := tss.ss0, esp := tss.esp0 }.pushAll [c.ss.toUInt32, c.esp]

/-- The fourteen words of every interrupt, in push order. -/
def frame : List UInt32 :=
  [c.eflags, c.cs.toUInt32, c.eip, stub.errCode error, stub.intNo, c.eax, c.ecx, c.edx, c.ebx,
    ((entered tss c).pushAll [c.eflags, c.cs.toUInt32, c.eip, stub.errCode error, stub.intNo]).esp, c.ebp, c.esi,
    c.edi, c.eax &&& 0xFFFF0000 ||| c.ds.toUInt32]

theorem interrupt_eq (sel : Option UInt32) : c.interrupt tss 0x08 handler sel =
    { (entered tss c).pushAll ([c.eflags, c.cs.toUInt32, c.eip] ++ sel.toList) with
      cs := 0x08, eip := handler, eflags := c.eflags &&& ~~~0x34300 } := by
  have ring : rpl c.cs ≤ rpl 0x08 ↔ rpl c.cs = 0 := Nat.le_zero
  simp only [Cpu.interrupt, entered, ring]

/-- What `common_stub` adds to the stack. -/
def pushedRegisters (c : Cpu) (esp : UInt32) : List UInt32 :=
  [c.eax, c.ecx, c.edx, c.ebx, esp, c.ebp, c.esi, c.edi, c.eax &&& 0xFFFF0000 ||| c.ds.toUInt32]

theorem commonStub_stack (c : Cpu) : (commonStub c).SameStack (c.pushAll (pushedRegisters c c.esp)) := by
  have kept := c.pushAll_with [c.eax, c.ecx, c.edx, c.ebx, c.esp, c.ebp, c.esi, c.edi]
  have word : (c.pusha.movAx c.pusha.ds).eax = c.eax &&& 0xFFFF0000 ||| c.ds.toUInt32 := by
    simp only [Cpu.movAx, Cpu.pusha]
    rw [kept]
  have segments : (commonStub c).SameStack ((c.pusha.movAx c.pusha.ds).push (c.pusha.movAx c.pusha.ds).eax) :=
    ⟨rfl, rfl⟩
  have same : (c.pusha.movAx c.pusha.ds).SameStack c.pusha := ⟨rfl, rfl⟩
  have last := same.push (c.pusha.movAx c.pusha.ds).eax
  rw [word] at segments last
  exact segments.trans last

theorem commonStub_segments (c : Cpu) : (commonStub c).cs = c.cs ∧ (commonStub c).ss = c.ss := by
  simp only [commonStub, loadSegments, Cpu.movAx, Cpu.push, Cpu.pusha]
  rw [Cpu.pushAll_with]
  exact ⟨rfl, rfl⟩

theorem pushedRegisters_push (c : Cpu) (w esp : UInt32) : pushedRegisters (c.push w) esp = pushedRegisters c esp := by
  simp only [pushedRegisters, Cpu.push]

theorem pushedRegisters_pushAll (c : Cpu) (ws : List UInt32) (esp : UInt32) :
    pushedRegisters (c.pushAll ws) esp = pushedRegisters c esp := by
  rw [Cpu.pushAll_with]
  simp only [pushedRegisters]

theorem pushedRegisters_cli (c : Cpu) (esp : UInt32) : pushedRegisters c.cli esp = pushedRegisters c esp := by
  simp only [pushedRegisters, Cpu.cli]

/-- The general registers and the data segment are still those of the interrupted
code. -/
theorem pushedRegisters_interrupt (code : Option UInt32) (esp : UInt32) :
    pushedRegisters (c.interrupt tss 0x08 handler code) esp = pushedRegisters c esp := by
  have outer := pushedRegisters_pushAll { c with ss := tss.ss0, esp := tss.esp0 } [c.ss.toUInt32, c.esp] esp
  have ring : pushedRegisters (entered tss c) esp = pushedRegisters c esp := by
    unfold entered
    split
    · rfl
    · exact outer
  have pushes := pushedRegisters_pushAll (entered tss c) ([c.eflags, c.cs.toUInt32, c.eip] ++ code.toList) esp
  rw [interrupt_eq, ← ring, ← pushes]
  simp only [pushedRegisters]

theorem interrupt_stack (code : Option UInt32) : (c.interrupt tss 0x08 handler code).cli.SameStack
    ((entered tss c).pushAll ([c.eflags, c.cs.toUInt32, c.eip] ++ code.toList)) := by
  rw [interrupt_eq]
  constructor
  · simp only [Cpu.cli]
  · simp only [Cpu.cli]

theorem interrupt_segments (code : Option UInt32) : (c.interrupt tss 0x08 handler code).cs = 0x08 ∧
    (c.interrupt tss 0x08 handler code).ss = (entered tss c).ss := by
  rw [interrupt_eq, Cpu.pushAll_with]
  exact ⟨rfl, rfl⟩

/-- The stub has completed the five words when it goes on at `common_stub`. -/
theorem save_eq : ∃ d, stub.save tss handler error c = commonStub d ∧
    d.SameStack ((entered tss c).pushAll [c.eflags, c.cs.toUInt32, c.eip, stub.errCode error, stub.intNo]) ∧
      pushedRegisters d d.esp = pushedRegisters c d.esp ∧ d.cs = 0x08 ∧ d.ss = (entered tss c).ss := by
  have plain (n : UInt32) := ((interrupt_stack tss handler c none).push 0).push n
  have coded (n : UInt32) := (interrupt_stack tss handler c (some error)).push n
  cases stub with
  | isrNoErrCode n =>
    refine ⟨((c.interrupt tss 0x08 handler none).cli.push 0).push n, rfl, ?_, ?_,
      interrupt_segments tss handler c none⟩
    · exact plain n
    · simp only [pushedRegisters_push, pushedRegisters_cli, pushedRegisters_interrupt]
  | isrErrCode n =>
    refine ⟨(c.interrupt tss 0x08 handler (some error)).cli.push n, rfl, ?_, ?_,
      interrupt_segments tss handler c (some error)⟩
    · exact coded n
    · simp only [pushedRegisters_push, pushedRegisters_cli, pushedRegisters_interrupt]
  | irq i n =>
    refine ⟨((c.interrupt tss 0x08 handler none).cli.push 0).push n, rfl, ?_, ?_,
      interrupt_segments tss handler c none⟩
    · exact plain n
    · simp only [pushedRegisters_push, pushedRegisters_cli, pushedRegisters_interrupt]

theorem save_pushes :
    (stub.save tss handler error c).SameStack ((entered tss c).pushAll (stub.frame tss error c)) := by
  obtain ⟨d, run, same, registers, _⟩ := stub.save_eq tss handler error c
  have pushes := (commonStub_stack d).trans (same.pushAll _)
  rw [registers, same.esp, ← Cpu.pushAll_append] at pushes
  rw [run]
  exact pushes

/-- What lies above the fourteen words: the stack pointer of an outer ring, or what ring
0 had on its stack. -/
def above : List UInt32 := if rpl c.cs = 0 then [c.word 0, c.word 1] else [c.esp, c.ss.toUInt32]

theorem save_stack : (stub.save tss handler error c).stack 16 = (stub.frame tss error c).reverse ++ above c := by
  have same := stub.save_pushes tss handler error c
  have length : (stub.frame tss error c).length = 14 := rfl
  have words := (entered tss c).stack_pushAll (stub.frame tss error c) (n := 2) (by rw [length]; decide)
  have top : (entered tss c).stack 2 = above c := by
    unfold entered above
    split
    · rfl
    · exact Cpu.stack_pushAll { c with ss := tss.ss0, esp := tss.esp0 } [c.ss.toUInt32, c.esp] (n := 0)
        (show 2 + 0 ≤ 2 ^ 30 by decide)
  rw [← top, ← words]
  exact List.map_congr_left fun i _ => same.word i

/-- The stack pointer that `pusha` saves, behind the five words in front of it and, where the ring
changes, the two of the stack that was left. -/
def espAtPusha : UInt32 := (if rpl c.cs = 0 then c.esp else tss.esp0 - 8) - 20

theorem espAtPusha_eq (ws : List UInt32) (five : ws.length = 5) :
    ((entered tss c).pushAll ws).esp = espAtPusha tss c := by
  have down (d : Cpu) (vs : List UInt32) : (d.pushAll vs).esp = d.esp - UInt32.ofNat (4 * vs.length) := by
    rw [← d.pushAll_esp vs, UInt32.add_sub_cancel]
  rw [down, five, entered, espAtPusha]
  by_cases inner : rpl c.cs = 0
  · rw [if_pos inner, if_pos inner]
    rfl
  · rw [if_neg inner, if_neg inner, down]
    rfl

/-- The registers in the frame, where `struct registers` has them. -/
structure LaidOut (regs : TrapFrame) : Prop where
  ds : regs.ds % 2 ^ 16 = c.ds.toNat
  edi : regs.edi = c.edi.toNat
  esi : regs.esi = c.esi.toNat
  ebp : regs.ebp = c.ebp.toNat
  esp : regs.esp = (espAtPusha tss c).toNat
  ebx : regs.ebx = c.ebx.toNat
  edx : regs.edx = c.edx.toNat
  ecx : regs.ecx = c.ecx.toNat
  eax : regs.eax = c.eax.toNat
  intNo : regs.intNo = stub.intNo.toNat
  errCode : regs.errCode = (stub.errCode error).toNat
  eip : regs.eip = c.eip.toNat
  cs : regs.cs = c.cs.toNat
  eflags : regs.eflags = c.eflags.toNat
  outer : rpl c.cs ≠ 0 → regs.useresp = c.esp.toNat ∧ regs.ss = c.ss.toNat

variable {c}

theorem save_outer (outer : rpl c.cs ≠ 0) : (stub.save tss handler error c).word 14 = c.esp ∧
    (stub.save tss handler error c).word 15 = c.ss.toUInt32 := by
  have stack := stub.save_stack tss handler error c
  rw [above, if_neg outer] at stack
  exact ⟨(Option.some.inj (Cpu.word_of_stack stack (show 14 < 16 by decide))).symm,
    (Option.some.inj (Cpu.word_of_stack stack (show 15 < 16 by decide))).symm⟩

/-- The code and stack segments of the handlers. -/
theorem save_segments : (stub.save tss handler error c).cs = 0x08 ∧
    (rpl c.cs = 0 → (stub.save tss handler error c).ss = c.ss) := by
  obtain ⟨d, run, _, _, cs, ss⟩ := stub.save_eq tss handler error c
  rw [run, (commonStub_segments d).1, (commonStub_segments d).2]
  refine ⟨cs, fun inner => ?_⟩
  rw [ss, entered, if_pos inner]

theorem save_esp (inner : rpl c.cs = 0) : (stub.save tss handler error c).esp + 56 = c.esp := by
  have same := (stub.save_pushes tss handler error c).esp
  rw [entered, if_pos inner] at same
  rw [same]
  exact c.pushAll_esp (stub.frame tss error c)

variable {stub tss handler error}

theorem save_word {i : Nat} {w : UInt32} (atI : (stub.frame tss error c).reverse[i]? = some w) :
    (stub.save tss handler error c).word i = w := by
  rw [(stub.save_pushes tss handler error c).word]
  exact Cpu.word_pushAll _ (stub.frame tss error c) (show 14 ≤ 2 ^ 30 by decide) atI

/-- The frame is a `struct registers`. -/
theorem save_laidOut : stub.LaidOut tss error c
    (registersAt (stub.save tss handler error c).mem (stub.save tss handler error c).esp.toNat) := by
  have field (i : Nat) (w : UInt32) (atI : (stub.frame tss error c).reverse[i]? = some w) :
      load32 (stub.save tss handler error c).mem (u32 ((stub.save tss handler error c).esp.toNat + 4 * i)) =
        w.toNat := by
    rw [← Cpu.toNat_word, save_word atI]
  have saved : (stub.frame tss error c).reverse[4]? = some (espAtPusha tss c) :=
    congrArg some (espAtPusha_eq tss c [c.eflags, c.cs.toUInt32, c.eip, stub.errCode error, stub.intNo] rfl)
  refine ⟨?_, field 1 _ rfl, field 2 _ rfl, field 3 _ rfl, field 4 _ saved, field 5 _ rfl, field 6 _ rfl, field 7 _ rfl, field 8 _ rfl,
    field 9 _ rfl, field 10 _ rfl, field 11 _ rfl, ?_, field 13 _ rfl, fun outer => ?_⟩
  · have low := congrArg UInt16.toNat (movAx_low c.eax c.ds)
    rw [UInt32.toNat_toUInt16, ← field 0 _ rfl] at low
    exact low
  · exact (field 12 _ rfl).trans (UInt16.toNat_toUInt32 c.cs)
  · obtain ⟨useresp, ss⟩ := stub.save_outer tss handler error outer
    have esp := congrArg UInt32.toNat useresp
    have sel := congrArg UInt32.toNat ss
    rw [Cpu.toNat_word] at esp sel
    exact ⟨esp, sel.trans (UInt16.toNat_toUInt32 c.ss)⟩

end Stub

/-- A state the processor can be in: its ring may use its data segment. -/
structure Running where
  cpu : Cpu
  legal : rpl cpu.cs ≤ gdtDpl cpu.ds

/-- The words of a frame: those of `struct registers`, without the stack pointer if no
ring was changed. -/
def frameWords (c : Cpu) : Nat := if rpl c.cs = 0 then 14 else 16

/-- Handlers that are done: they have left the frame as it was, and the stack pointer is
back at it. -/
structure Handled (words : Nat) (saved c : Cpu) : Prop where
  cs : c.cs = saved.cs
  ss : c.ss = saved.ss
  esp : c.esp = saved.esp
  frame : c.stack words = saved.stack words

/-- What was saved is restored. -/
theorem commonStubEnd_save (arith : UInt32 → UInt32 → UInt32 → UInt32) {stub : Stub} {tss : TaskSegment}
    {handler error : UInt32} {r : Running} {c : Cpu}
    (handled : Handled (frameWords r.cpu) (stub.save tss handler error r.cpu) c) :
    commonStubEnd arith c =
      { r.cpu with es := r.cpu.ds, fs := r.cpu.ds, gs := r.cpu.ds, mem := c.mem } := by
  have words (i : Nat) (less : i < frameWords r.cpu) : c.word i = (stub.save tss handler error r.cpu).word i :=
    Option.some.inj ((Cpu.word_of_stack handled.frame less).symm.trans (Cpu.word_of_stack rfl less))
  have enough : 14 ≤ frameWords r.cpu := by
    unfold frameWords
    split
    · exact le_rfl
    · decide
  have word (i : Nat) (w : UInt32) (less : i < 14) (atI : (stub.frame tss error r.cpu).reverse[i]? = some w) :
      c.word i = w := (words i (by omega)).trans (Stub.save_word atI)
  obtain ⟨cs, ss⟩ := stub.save_segments tss handler error (c := r.cpu)
  have ring : rpl c.cs = 0 := by
    rw [handled.cs, cs]
    rfl
  have sel : (c.word 12).toUInt16 = r.cpu.cs := by
    rw [word 12 _ (by decide) rfl, UInt16.toUInt16_toUInt32]
  have ds : (c.word 0).toUInt16 = r.cpu.ds := by
    rw [word 0 _ (by decide) rfl, movAx_low]
  have edi : c.word 1 = r.cpu.edi := word 1 _ (by decide) rfl
  have esi : c.word 2 = r.cpu.esi := word 2 _ (by decide) rfl
  have ebp : c.word 3 = r.cpu.ebp := word 3 _ (by decide) rfl
  have ebx : c.word 5 = r.cpu.ebx := word 5 _ (by decide) rfl
  have edx : c.word 6 = r.cpu.edx := word 6 _ (by decide) rfl
  have ecx : c.word 7 = r.cpu.ecx := word 7 _ (by decide) rfl
  have eax : c.word 8 = r.cpu.eax := word 8 _ (by decide) rfl
  have eip : c.word 11 = r.cpu.eip := word 11 _ (by decide) rfl
  have flags : c.word 13 = r.cpu.eflags := word 13 _ (by decide) rfl
  by_cases inner : rpl r.cpu.cs = 0
  · have esp : c.esp + 56 = r.cpu.esp := by
      rw [handled.esp]
      exact stub.save_esp tss handler error inner
    rw [commonStubEnd_same arith (by rw [sel, inner]; exact Nat.zero_le _)]
    simp only [popFrame, edi, esi, ebp, ebx, edx, ecx, eax, eip, flags, sel, ds, esp, handled.ss, ss inner]
  · have all : frameWords r.cpu = 16 := if_neg inner
    obtain ⟨useresp, stackSel⟩ := stub.save_outer tss handler error inner
    have esp : c.word 14 = r.cpu.esp := (words 14 (by omega)).trans useresp
    have outerSs : (c.word 15).toUInt16 = r.cpu.ss := by
      rw [words 15 (by omega), stackSel, UInt16.toUInt16_toUInt32]
    rw [commonStubEnd_outer arith (by rw [sel, ring]; exact Nat.pos_of_ne_zero inner) (by rw [sel, ds]; exact r.legal)]
    simp only [popFrame, edi, esi, ebp, ebx, edx, ecx, eax, eip, flags, sel, ds, esp, outerSs]

/-- The words that `task_context_init` writes, in its order. -/
def builtWords (entry : UInt32) : List UInt32 := [0x202, 0x08, entry, 0, 0, 0, 0, 0, 0, 0, 0, 0, 0, 0x10]

/-- A frame that `task_context_init` has built is restored to a start at `entry`, from
its own words only. -/
theorem commonStubEnd_built (arith : UInt32 → UInt32 → UInt32 → UInt32) {m : Bytes} {entry stackTop : UInt32} {c : Cpu}
    (ring : rpl c.cs = 0) (esp : c.esp.toNat = (taskContextInit m entry.toNat stackTop.toNat).2)
    (built : ∀ i, i < 14 → load32 c.mem (sub32 stackTop.toNat (4 * (i + 1))) =
      load32 (taskContextInit m entry.toNat stackTop.toNat).1 (sub32 stackTop.toNat (4 * (i + 1)))) :
    commonStubEnd arith c =
      { c with
        eax := 0, ecx := 0, edx := 0, ebx := 0, esp := stackTop, ebp := 0, esi := 0, edi := 0
        eip := entry, eflags := 0x202, cs := 0x08, ds := 0x10, es := 0x10, fs := 0x10, gs := 0x10 } := by
  have pushes := Cpu.pushAll_eq { c with mem := m, esp := stackTop } (builtWords entry)
  have back := Cpu.pushAll_esp { c with mem := m, esp := stackTop } (builtWords entry)
  have words (i : Nat) (w : UInt32) := Cpu.word_pushAll { c with mem := m, esp := stackTop } (builtWords entry)
    (i := i) (w := w) (show 14 ≤ 2 ^ 30 by decide)
  generalize Cpu.pushAll { c with mem := m, esp := stackTop } (builtWords entry) = d at pushes back words
  change (d.mem, d.esp.toNat) = taskContextInit m entry.toNat stackTop.toNat at pushes
  rw [← pushes] at esp built
  have top : (d.esp.toNat + 56) % 2 ^ 32 = stackTop.toNat := by
    rw [← congrArg UInt32.toNat back]
    exact (UInt32.toNat_add d.esp 56).symm
  have word (i : Nat) (w : UInt32) (less : i < 14) (atI : (builtWords entry).reverse[i]? = some w) : c.word i = w := by
    have place : u32 (d.esp.toNat + 4 * i) = sub32 stackTop.toNat (4 * (13 - i + 1)) := by
      have bound := d.esp.toNat_lt
      unfold sub32 u32
      omega
    have same := built (13 - i) (by omega)
    rw [← place] at same
    rw [← words i w atI, Cpu.word, Cpu.word, esp, same]
  have sp : c.esp + 56 = stackTop := by
    rw [UInt32.toNat_inj.mp esp]
    exact back
  have ds : (c.word 0).toUInt16 = 0x10 := by
    rw [word 0 _ (by decide) rfl]
    rfl
  have sel : (c.word 12).toUInt16 = 0x08 := by
    rw [word 12 _ (by decide) rfl]
    rfl
  have flags : c.word 13 = 0x202 := word 13 _ (by decide) rfl
  rw [commonStubEnd_same arith (by rw [sel, ring]; exact Nat.le_refl 0)]
  simp only [popFrame, word 1 0 (by decide) rfl, word 2 0 (by decide) rfl, word 3 0 (by decide) rfl,
    word 5 0 (by decide) rfl, word 6 0 (by decide) rfl, word 7 0 (by decide) rfl, word 8 0 (by decide) rfl,
    word 11 entry (by decide) rfl, flags, sel, ds, sp]

/-- The frame that `task_context_init` builds, the one an interrupt leaves and
`struct registers` agree: a built frame starts a task at its entry on its whole stack
and nothing else is read, the saved values are the fields of the structure, and what
was saved is restored, with the data segment in `es`, `fs` and `gs` too. -/
theorem interrupt_frames_agree (arith : UInt32 → UInt32 → UInt32 → UInt32) :
    (∀ (m : Bytes) (entry stackTop : UInt32) (c : Cpu), rpl c.cs = 0 →
      c.esp.toNat = (taskContextInit m entry.toNat stackTop.toNat).2 →
      (∀ i, i < 14 → load32 c.mem (sub32 stackTop.toNat (4 * (i + 1))) =
        load32 (taskContextInit m entry.toNat stackTop.toNat).1 (sub32 stackTop.toNat (4 * (i + 1)))) →
      commonStubEnd arith c =
        { c with
          eax := 0, ecx := 0, edx := 0, ebx := 0, esp := stackTop, ebp := 0, esi := 0, edi := 0
          eip := entry, eflags := 0x202, cs := 0x08, ds := 0x10, es := 0x10, fs := 0x10, gs := 0x10 }) ∧
    (∀ (stub : Stub) (tss : TaskSegment) (handler error : UInt32) (c : Cpu), stub.LaidOut tss error c
      (registersAt (stub.save tss handler error c).mem (stub.save tss handler error c).esp.toNat)) ∧
    ∀ (stub : Stub) (tss : TaskSegment) (handler error : UInt32) (r : Running) (c : Cpu),
      Handled (frameWords r.cpu) (stub.save tss handler error r.cpu) c →
      commonStubEnd arith c = { r.cpu with es := r.cpu.ds, fs := r.cpu.ds, gs := r.cpu.ds, mem := c.mem } :=
  ⟨fun _ _ _ _ ring esp built => commonStubEnd_built arith ring esp built, fun _ _ _ _ _ => Stub.save_laidOut,
    fun _ _ _ _ _ _ handled => commonStubEnd_save arith handled⟩

/-- Code in ring 3 with its stack at 0x9000. -/
def userCode : Running :=
  ⟨⟨1, 2, 3, 4, 0x9000, 5, 6, 7, 0x1000, 0x202, 0x1B, 0x23, 0, 0, 0, 0x23, fun _ => 0⟩, by decide⟩

/-- A stub about to restore the frame of a task with the entry 0x1000. -/
def builtCpu : Cpu :=
  { userCode.cpu with cs := 0x08, esp := 0x8FC8, mem := (taskContextInit (fun _ => 0) 0x1000 0x9000).1 }

theorem interrupt_frames_agree_userCode :
    (commonStubEnd (fun flags _ _ => flags) builtCpu).eip = 0x1000 ∧
      (commonStubEnd (fun flags _ _ => flags) builtCpu).esp = 0x9000 ∧
      (commonStubEnd (fun flags _ _ => flags) ((Stub.irq 0 32).save ⟨0x10, 0x8000⟩ 0x2000 0 userCode.cpu)).esp =
        0x9000 := by
  obtain ⟨starts, _, returns⟩ := interrupt_frames_agree fun flags _ _ => flags
  have start := starts (fun _ => 0) 0x1000 0x9000 builtCpu (by decide) (by decide) fun _ _ => rfl
  have back := returns (.irq 0 32) ⟨0x10, 0x8000⟩ 0x2000 0 userCode _ ⟨rfl, rfl, rfl, rfl⟩
  rw [start, back]
  exact ⟨rfl, rfl, rfl⟩

end LearningOS
