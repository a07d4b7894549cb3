import LearningOS.Interrupt.UserMode

namespace LearningOS
open ByteStore X86

/-- A processor with the memory, the stack pointer and the ring of a machine. Its other
registers are left to the code that runs. -/
structure Realizes (c : Cpu) (m : Machine) : Prop where
  mem : c.mem = m.heap.mem
  esp : c.esp.toNat = m.esp
  cs : c.cs = if m.user then 0x1B else 0x08

/-- The task state segment that `kernelTss` is a part of. -/
def kernelSegment : TaskSegment := ⟨0x10, 0xC1100000⟩

/-- The words of a `struct registers` on the stack. -/
theorem registersAt_words (c : Cpu) :
    (registersAt c.mem c.esp.toNat).words = ((c.stack 16).map UInt32.toNat).reverse := by
  have words : (c.stack 16).map UInt32.toNat =
      (List.range 16).map fun i => load32 c.mem (u32 (c.esp.toNat + 4 * i)) := by
    rw [Cpu.stack, List.map_map]
    exact List.map_congr_left fun i _ => c.toNat_word i
  rw [words]
  rfl

section
variable {c : Cpu} {m : Machine} {stub : Stub} {handler error : UInt32}

theorem Realizes.inner (real : Realizes c m) (ring : m.user = false) : rpl c.cs = 0 := by
  rw [real.cs, ring]
  rfl

theorem Realizes.outer (real : Realizes c m) (ring : m.user = true) : rpl c.cs ≠ 0 := by
  rw [real.cs, ring]
  decide

theorem Stub.save_words (stub : Stub) (tss : TaskSegment) (handler error : UInt32) (c : Cpu) :
    (registersAt (stub.save tss handler error c).mem (stub.save tss handler error c).esp.toNat).words =
      ((above c).reverse ++ stub.frame tss error c).map UInt32.toNat := by
  rw [registersAt_words, save_stack, List.map_append, List.map_append, List.reverse_append, List.map_reverse,
    List.map_reverse, List.reverse_reverse]

/-- An interrupt saves the words that the machine does. -/
theorem saveFrame_save (stub : Stub) (handler error : UInt32) (real : Realizes c m)
    (data : m.user = true → c.ss = 0x23) :
    saveFrame m (registersAt (stub.save kernelSegment handler error c).mem
      (stub.save kernelSegment handler error c).esp.toNat) =
      ((stub.save kernelSegment handler error c).mem, (stub.save kernelSegment handler error c).esp.toNat) := by
  have words := stub.save_words kernelSegment handler error c
  have laidOut : stub.LaidOut kernelSegment error c (registersAt (stub.save kernelSegment handler error c).mem
    (stub.save kernelSegment handler error c).esp.toNat) := Stub.save_laidOut
  have same := stub.save_pushes kernelSegment handler error c
  generalize registersAt (stub.save kernelSegment handler error c).mem
    (stub.save kernelSegment handler error c).esp.toNat = f at words laidOut ⊢
  rw [same.mem, same.esp, saveFrame]
  cases ring : m.user with
  | true =>
    have outer := real.outer ring
    obtain ⟨useresp, ss⟩ := laidOut.outer outer
    have cs : f.cs = 0x1B := by
      rw [laidOut.cs, real.cs, ring]
      rfl
    have frame : { f with ss := 0x23, useresp := m.esp, cs := 0x1B } = f := by
      rw [← cs, ← real.esp, ← useresp, show (0x23 : Nat) = f.ss by rw [ss, data ring]; rfl]
    rw [if_pos rfl, frame, enterFromRing3, words, Stub.above, if_neg outer, Stub.entered, if_neg outer,
      ← Cpu.pushAll_append, Cpu.pushAll_eq, ← real.mem]
    rfl
  | false =>
    have inner := real.inner ring
    have cs : f.cs = 0x08 := by
      rw [laidOut.cs, real.cs, ring]
      rfl
    have frame : { f with cs := 0x08 } = f := by rw [← cs]
    rw [if_neg (by decide), frame, words, Stub.above, if_pos inner, Stub.entered, if_pos inner, Cpu.pushAll_eq,
      ← real.mem, ← real.esp]
    rfl

/-- An interrupt does what the machine does. -/
theorem Realizes.save (stub : Stub) (handler error : UInt32) (real : Realizes c m)
    (data : m.user = true → c.ss = 0x23) : Realizes (stub.save kernelSegment handler error c)
      (m.interrupt (registersAt (stub.save kernelSegment handler error c).mem
        (stub.save kernelSegment handler error c).esp.toNat)) := by
  have saved := saveFrame_save stub handler error real data
  have cs := (stub.save_segments kernelSegment handler error (c := c)).1
  unfold Machine.interrupt
  rw [saved]
  exact ⟨rfl, rfl, cs⟩

/-- The end of `common_stub` does what the machine does, for a frame that does not go
round the end of memory. -/
theorem Realizes.commonStubEnd (arith : UInt32 → UInt32 → UInt32 → UInt32) (real : Realizes c m)
    (ring : m.user = false) (code : (c.word 12).toUInt16 = 0x08 ∨ (c.word 12).toUInt16 = 0x1B)
    (room : m.esp + frameLen m.heap.mem m.esp ≤ 2 ^ 32) :
    Realizes (LearningOS.commonStubEnd arith c) (m.resume m.esp) := by
  have inner := real.inner ring
  have length : 56 ≤ frameLen m.heap.mem m.esp := by
    unfold frameLen
    split <;> decide
  have sel : load32 m.heap.mem (m.esp + 48) % 2 ^ 16 = (c.word 12).toUInt16.toNat := by
    rw [UInt32.toNat_toUInt16, c.toNat_word, real.mem, real.esp, u32_of_lt (by omega)]
  rcases code with inside | outside
  · rw [inside] at sel
    have kernel : fromRing3 m.heap.mem m.esp = false := by
      change load32 m.heap.mem (m.esp + 48) % 2 ^ 16 = 8 at sel
      rw [fromRing3, decide_eq_false_iff_not]
      omega
    rw [Machine.resume, kernel, commonStubEnd_same arith (by rw [inside]; exact Nat.zero_le _)]
    refine ⟨real.mem, ?_, inside⟩
    rw [← real.esp]
    exact UInt32.toNat_add c.esp 56
  · rw [outside] at sel
    have user : fromRing3 m.heap.mem m.esp = true := by
      change load32 m.heap.mem (m.esp + 48) % 2 ^ 16 = 27 at sel
      rw [fromRing3, decide_eq_true_eq]
      omega
    have whole : frameLen m.heap.mem m.esp = 64 := if_pos user
    obtain ⟨flags, run⟩ := commonStubEnd_eq arith c
    have words := popFrame_word c flags
    have outer : rpl (popFrame c flags).cs < rpl ((popFrame c flags).word 1).toUInt16 := by
      rw [words, outside]
      change rpl c.cs < 3
      omega
    obtain ⟨mem, esp, cs⟩ := Cpu.iret_outer_stack gdtDpl outer
    rw [Machine.resume, user, run]
    refine ⟨mem.trans real.mem, ?_, ?_⟩
    · rw [esp, words, c.toNat_word, real.mem, real.esp, u32_of_lt (by omega)]
      rfl
    · rw [cs, words, outside]
      rfl

/-- `enter_user_mode` does what the machine does. -/
theorem Realizes.enterUserMode (arith : UInt32 → UInt32 → UInt32 → UInt32) (real : Realizes c m)
    (ring : m.user = false) : ∃ m', machineStep m (.enterUserMode (c.word 1).toNat (c.word 2).toNat
      (c.eflags &&& ~~~0x200 &&& 0x00FCFFFF).toNat) = some m' ∧ Realizes (LearningOS.enterUserMode arith c) m' := by
  have inner := real.inner ring
  have stack := enterUserModeFrame_stack arith c
  have esp : (c.word 2 &&& 0xFFFF0000 ||| 0x23).toNat = userEsp (c.word 2).toNat := movAx_toNat (c.word 2) 0x23
  have flags : (userFlags c).toNat = (c.eflags &&& ~~~0x200 &&& 0x00FCFFFF).toNat ||| 0x200 := UInt32.toNat_or _ _
  have pushes := congrArg Prod.fst (c.pushAll_eq (userFrame c))
  simp only [userFrame, List.map_cons, List.map_nil, esp, flags, real.mem, real.esp] at pushes
  refine ⟨_, rfl, ?_, ?_, ?_⟩
  · rw [enterUserMode_eq inner]
    exact stack.mem.trans pushes
  · rw [enterUserMode_eq inner]
    exact esp
  · rw [enterUserMode_eq inner]
    rfl

end

end LearningOS
